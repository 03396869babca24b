import RobinHood.Proofs.Index.Pristine
import RobinHood.Table.Growth

/-!
# Growth never fails half-way

A table has more rows than its capacity, so the live rows of a table always fit into a larger blank
index. Growth therefore either is refused because of the ceiling or succeeds; in the second case it
keeps the store and the live rows. Whatever it is refused for, it leaves the table as it was.
-/

namespace RobinHood

namespace Table

open Index

variable {K V : Type} {t t' : Table K V} {capacity additional : Nat} {halt : Halt (Table K V)}

/-- A table has more rows than its capacity. -/
theorem lt_rowCount (capacity : Nat) : capacity < rowCount capacity := by
  unfold rowCount
  generalize hn : (capacity * 20 + 18) / 19 = scaled
  cases scaled with
  | zero =>
    have hz : capacity = 0 := by omega
    subst hz
    decide
  | succ n =>
    have hlog := Nat.lt_log2_self (n := 2 * (n + 1) - 1)
    rw [Nat.pow_succ] at hlog
    rw [Nat.one_shiftLeft]
    omega

/-- Twice as many entries need twice as many rows. -/
theorem rowCount_two_mul (h : 0 < capacity) : rowCount (2 * capacity) = 2 * rowCount capacity := by
  unfold rowCount
  generalize hk : Nat.log2 (2 * ((capacity * 20 + 18) / 19) - 1) = k
  rw [Nat.log2_eq_iff (by omega)] at hk
  -- One entry needs two rows already, so the power of two is even, and less than an odd number.
  obtain ⟨j, rfl⟩ : ∃ j, k = j + 1 := by
    refine ⟨k - 1, ?_⟩
    rcases Nat.eq_zero_or_pos k with rfl | hpos
    · omega
    · omega
  have hdouble : Nat.log2 (2 * ((2 * capacity * 20 + 18) / 19) - 1) = j + 1 + 1 := by
    rw [Nat.log2_eq_iff (by omega)]
    simp only [Nat.pow_succ] at hk ⊢
    omega
  rw [hdouble, Nat.one_shiftLeft, Nat.one_shiftLeft, Nat.pow_succ, Nat.mul_comm]

-- The induction is over the rows still to be placed, on any fresh index with room for them.
private theorem exists_placeAll [WalkLimit] {live : List Row}
    (hlive : ∀ row ∈ live, row.isLive = true) {start : Index} (hf : Fresh start)
    (hlen : live.length + (liveRows start).length < start.size) :
    ∃ rows, live.foldlM (fun rows row ↦ placeHome? rows row.hash row.entry) start = some rows ∧
      Fresh rows ∧ rows.size = start.size ∧ (liveRows rows).Perm (live ++ liveRows start) := by
  induction live generalizing start with
  | nil => exact ⟨start, rfl, hf, rfl, .refl _⟩
  | cons row live ih =>
    have hrow := Row.isLive_iff.mp (hlive row List.mem_cons_self)
    rw [List.length_cons] at hlen
    obtain ⟨next, hplace, hfresh, hsize, hperm⟩ :=
      hf.placeHome? (by omega) (Row.isEmpty_eq_false_iff.mp hrow.1) row.entry_lt
    rw [Row.live_hash_entry hrow.2] at hperm
    have hnext : live.length + (liveRows next).length < next.size := by
      rw [hperm.length_eq, hsize, List.length_cons]
      omega
    obtain ⟨rows, hfold, hfresh', hsize', hperm'⟩ :=
      ih (fun r hr ↦ hlive r (List.mem_cons_of_mem row hr)) hfresh hnext
    refine ⟨rows, ?_, hfresh', hsize'.trans hsize, ?_⟩
    · rw [List.foldlM_cons, hplace]
      exact hfold
    · exact (hperm'.trans (hperm.append_left live)).trans List.perm_middle

/-- Live rows that are fewer than `size` fit into a blank index of that size, and leave it fresh. -/
theorem exists_rebuild? [WalkLimit] {size : Nat} {live : List Row}
    (hlive : ∀ row ∈ live, row.isLive = true) (hlen : live.length < size) :
    ∃ rows, rebuild? size live = some rows ∧ Fresh rows ∧ rows.size = size ∧
      (liveRows rows).Perm live := by
  have hall := exists_placeAll hlive (Fresh.blank size)
  rw [size_blank, liveRows_blank, List.append_nil] at hall
  exact hall hlen

/-- A rebuilt index has the rows asked for. -/
theorem size_rebuild? [WalkLimit] {size : Nat} {live : List Row} {rows : Index}
    (h : rebuild? size live = some rows) : rows.size = size := by
  suffices hall : ∀ start : Index,
      live.foldlM (fun rows row ↦ placeHome? rows row.hash row.entry) start = some rows →
        rows.size = start.size by
    rw [hall _ h, size_blank]
  clear h
  induction live with
  | nil =>
    intro start h
    cases h
    rfl
  | cons row live ih =>
    intro start h
    rw [List.foldlM_cons] at h
    obtain ⟨next, hplace, hrest⟩ := Option.bind_eq_some_iff.mp h
    rw [ih next hrest, Placement.Valid.size_settle? hplace, Placement.start]

/-- What growth that is not refused does: nothing if there is room enough, a change of the capacity
if there are rows enough, and else a rebuilt index. -/
theorem grow_cases [WalkLimit] (h : t.grow capacity = .ok t') : capacity ≤ maxCapacity ∧
    (capacity ≤ t.capacity ∧ t' = t ∨ t.capacity < capacity ∧
      (rowCount capacity = t.rows.size ∧ t' = { t with capacity := capacity } ∨
        rowCount capacity ≠ t.rows.size ∧
          ∃ rows, rebuild? (rowCount capacity) (liveRows t.rows) = some rows ∧
            t' = ⟨rows, t.entries, capacity, rowCount capacity - 1⟩)) := by
  unfold grow at h
  split at h
  · cases h
  · next hmax =>
    refine ⟨Nat.not_lt.mp hmax, ?_⟩
    split at h
    · next hle =>
      cases h
      exact .inl ⟨hle, rfl⟩
    · next hlt =>
      refine .inr ⟨Nat.not_le.mp hlt, ?_⟩
      split at h
      · next hsame =>
        cases h
        exact .inl ⟨hsame, rfl⟩
      · next hother =>
        split at h
        · next rows hre =>
          cases h
          exact .inr ⟨hother, rows, hre, rfl⟩
        · cases h

/-- A reservation that is not refused has changed nothing or made the table grow. -/
theorem reserve_eq_ok [WalkLimit] (h : t.reserve additional = .ok t') :
    t' = t ∨ ∃ capacity, t.grow capacity = .ok t' := by
  unfold reserve at h
  simp only at h
  split at h
  · cases h
    exact .inl rfl
  · split at h
    · cases h
    · exact .inr ⟨_, h⟩

/-- Room for one more entry was there, or the table has grown. -/
theorem reserveOne_eq_ok [WalkLimit] (h : t.reserveOne = .ok t') :
    t' = t ∨ ∃ capacity, t.grow capacity = .ok t' := by
  unfold reserveOne at h
  split at h
  · cases h
    exact .inl rfl
  · split at h
    · cases h
    · exact .inr ⟨_, h⟩

/-- Growth that is refused changes nothing. -/
theorem left_grow [WalkLimit] (h : t.grow capacity = .error halt) : halt.left = t := by
  unfold grow at h
  split at h
  · cases h
    rfl
  · split at h
    · cases h
    · split at h
      · cases h
      · split at h
        · cases h
        · cases h
          rfl

/-- A reservation that is refused changes nothing. -/
theorem left_reserve [WalkLimit] (h : t.reserve additional = .error halt) : halt.left = t := by
  unfold reserve at h
  simp only at h
  split at h
  · cases h
  · split at h
    · cases h
      rfl
    · exact left_grow h

/-- Where no room can be made for one more entry, nothing is changed. -/
theorem left_reserveOne [WalkLimit] (h : t.reserveOne = .error halt) : halt.left = t := by
  unfold reserveOne at h
  split at h
  · cases h
  · split at h
    · cases h
      rfl
    · exact left_grow h

/-- What growth may change: the capacity, and with it the layout of the live rows. -/
structure Grown (t t' : Table K V) : Prop where
  entries_eq : t'.entries = t.entries
  capacity_le : t.capacity ≤ t'.capacity
  rows_size : t'.rows.size = rowCount t'.capacity
  perm : (liveRows t'.rows).Perm (liveRows t.rows)
  layout : t'.rows = t.rows ∨ Fresh t'.rows

theorem Grown.refl (h : t.rows.size = rowCount t.capacity) : Grown t t :=
  ⟨rfl, Nat.le_refl _, h, .refl _, .inl rfl⟩

theorem Grown.size_eq (h : Grown t t') : t'.size = t.size := by
  rw [size, h.entries_eq, size]

/-- Growth leaves no tombstone where there was none. -/
theorem Grown.pristine (h : Grown t t') (hp : Pristine t.rows) : Pristine t'.rows := by
  rcases h.layout with hsame | hfresh
  · rwa [hsame]
  · exact hfresh.pristine

/-- Growth that takes another number of rows lays out the live rows anew, if they fit. -/
theorem exists_rebuilt [WalkLimit] (hlt : t.capacity < capacity) (hmax : capacity ≤ maxCapacity)
    (hne : rowCount capacity ≠ t.rows.size) (hfit : (liveRows t.rows).length < rowCount capacity) :
    ∃ rows, rebuild? (rowCount capacity) (liveRows t.rows) = some rows ∧
      t.grow capacity = .ok ⟨rows, t.entries, capacity, rowCount capacity - 1⟩ ∧ Fresh rows ∧
      rows.size = rowCount capacity ∧ (liveRows rows).Perm (liveRows t.rows) := by
  obtain ⟨rows, hre, hfresh, hsize, hperm⟩ :=
    exists_rebuild? (fun row hr ↦ (mem_liveRows_iff.mp hr).1) hfit
  refine ⟨rows, hre, ?_, hfresh, hsize, hperm⟩
  rw [grow, if_neg (by omega), if_neg (by omega), if_neg hne, hre]

/-- Growth within the ceiling succeeds if there are no more live rows than the capacity. -/
theorem exists_grow [WalkLimit] (hrows : t.rows.size = rowCount t.capacity)
    (hlive : (liveRows t.rows).length ≤ t.capacity) (hc : capacity ≤ maxCapacity) :
    ∃ t', t.grow capacity = .ok t' ∧ Grown t t' ∧ t'.capacity = max t.capacity capacity := by
  by_cases hle : capacity ≤ t.capacity
  · refine ⟨t, ?_, .refl hrows, (Nat.max_eq_left hle).symm⟩
    rw [grow, if_neg (Nat.not_lt.mpr hc), if_pos hle]
  · have hlt := Nat.not_le.mp hle
    have hmax : max t.capacity capacity = capacity := Nat.max_eq_right (Nat.le_of_lt hlt)
    by_cases hsame : rowCount capacity = t.rows.size
    · refine ⟨{ t with capacity := capacity }, ?_,
        ⟨rfl, Nat.le_of_lt hlt, hsame.symm, .refl _, .inl rfl⟩, hmax.symm⟩
      rw [grow, if_neg (Nat.not_lt.mpr hc), if_neg hle, if_pos hsame]
    · have hcount := lt_rowCount capacity
      obtain ⟨rows, -, hok, hfresh, hsize, hperm⟩ := exists_rebuilt hlt hc hsame (by omega)
      exact ⟨_, hok, ⟨rfl, Nat.le_of_lt hlt, hsize, hperm, .inr hfresh⟩, hmax.symm⟩

/-- Making room either is refused because of the ceiling or succeeds with the room asked for. -/
theorem reserve_cases [WalkLimit] (hrows : t.rows.size = rowCount t.capacity)
    (hlive : (liveRows t.rows).length ≤ t.capacity) (additional : Nat) :
    (∃ t', t.reserve additional = .ok t' ∧ Grown t t' ∧ t'.capacity ≤ max t.capacity maxCapacity ∧
      min (t.size + additional) maxCount ≤ t'.capacity) ∨
    (maxCapacity < t.size + additional ∧
      t.reserve additional =
        .error ⟨.capacityExceeded (min (t.size + additional) maxCount) maxCapacity, t⟩) := by
  unfold reserve
  simp only
  split
  · next hle => exact .inl ⟨t, rfl, .refl hrows, Nat.le_max_left _ _, hle⟩
  · next hgt =>
    split
    · next hmax => exact .inr ⟨by omega, rfl⟩
    · next hmax =>
      obtain ⟨t', hg, hgrown, hcap⟩ := exists_grow hrows hlive
        (Nat.min_le_right (max (min (t.size + additional) maxCount) (t.capacity * 2)) maxCapacity)
      refine .inl ⟨t', hg, hgrown, ?_, ?_⟩
      · rw [hcap]
        omega
      · rw [hcap]
        omega

/-- Making room for one more entry is refused only by a full table at the ceiling. -/
theorem reserveOne_cases [WalkLimit] (hrows : t.rows.size = rowCount t.capacity)
    (hlive : (liveRows t.rows).length ≤ t.capacity) (hsize : t.size ≤ t.capacity) :
    (∃ t', t.reserveOne = .ok t' ∧ Grown t t' ∧ t'.capacity ≤ max t.capacity maxCapacity ∧
      (t.capacity = 0 ∨ t.size < t'.capacity)) ∨
    (t.size = t.capacity ∧ maxCapacity ≤ t.capacity ∧
      t.reserveOne = .error ⟨.capacityExceeded (t.capacity + 1) maxCapacity, t⟩) := by
  unfold reserveOne
  split
  · next hlt => exact .inl ⟨t, rfl, .refl hrows, Nat.le_max_left _ _, .inr hlt⟩
  · next hge =>
    split
    · next hmax => exact .inr ⟨by omega, hmax, rfl⟩
    · next hmax =>
      obtain ⟨t', hg, hgrown, hcap⟩ := exists_grow hrows hlive
        (Nat.min_le_right (t.capacity * 2) maxCapacity)
      refine .inl ⟨t', hg, hgrown, ?_, ?_⟩
      · rw [hcap]
        omega
      · rw [hcap]
        omega

/-- A full table with at most half as much room as there can be doubles its rows. -/
theorem exists_doubled [WalkLimit] (hfull : t.size = t.capacity) (hmin : minCapacity ≤ t.capacity)
    (hmax : t.capacity ≤ maxCapacity / 2) (hrows : t.rows.size = rowCount t.capacity) :
    ∃ rows, rebuild? (2 * t.rows.size) (liveRows t.rows) = some rows ∧
      t.reserveOne = .ok ⟨rows, t.entries, 2 * t.capacity, rows.size - 1⟩ ∧ Fresh rows ∧
      rows.size = 2 * t.rows.size ∧ (liveRows rows).Perm (liveRows t.rows) := by
  have hpos : 0 < t.capacity := Nat.lt_of_lt_of_le (by decide) hmin
  have hcount : rowCount (2 * t.capacity) = 2 * t.rows.size := by
    rw [rowCount_two_mul hpos, hrows]
  have hfit : (liveRows t.rows).length ≤ t.rows.size := by
    rw [← Array.length_toList]
    exact List.length_filter_le _ _
  have hroom := lt_rowCount t.capacity
  have hreserve : t.reserveOne = t.grow (2 * t.capacity) := by
    rw [reserveOne, if_neg (by omega), if_neg (by omega), Nat.mul_comm,
      Nat.min_eq_left (by omega)]
  obtain ⟨rows, hre, hok, hfresh, hsize, hperm⟩ :=
    exists_rebuilt (show t.capacity < 2 * t.capacity by omega) (by omega) (by omega) (by omega)
  rw [hcount] at hre hok hsize
  rw [← hsize] at hok
  exact ⟨rows, hre, hreserve.trans hok, hfresh, hsize, hperm⟩

theorem grown_of_reserveOne [WalkLimit] (hrows : t.rows.size = rowCount t.capacity)
    (hlive : (liveRows t.rows).length ≤ t.capacity) (hsize : t.size ≤ t.capacity)
    (h : t.reserveOne = .ok t') : Grown t t' := by
  rcases reserveOne_cases hrows hlive hsize with ⟨grown, hok, hg, -⟩ | ⟨-, -, herr⟩
  · rw [h] at hok
    cases hok
    exact hg
  · rw [h] at herr
    cases herr

end Table

end RobinHood
