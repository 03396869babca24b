import RobinHood.Proofs.Histogram
import RobinHood.Proofs.Index.Tombstones
import RobinHood.Proofs.Table.Occupancy
import RobinHood.Proofs.Table.Overrun

/-!
# What occupancy figures account for

The histogram of a table that a program gets hold of counts each of its entries once, at the
distance of the row that stands for it. Tombstones come from removals alone, one from each, and an
insertion that does not lay the rows out anew uses up one at most.
-/

namespace RobinHood

namespace Index

/-- The positions of the live rows that stand `d` rows past their home. -/
def standing (rows : Index) (d : Nat) : Finset Nat :=
  {pos ∈ Finset.range rows.size | (rowAt rows pos).isLive = true ∧ distAt rows pos = d}

theorem mem_standing_iff {rows : Index} {d pos : Nat} : pos ∈ standing rows d ↔
    (rowAt rows pos).isLive = true ∧ distAt rows pos = d := by
  simp only [standing, Finset.mem_filter, Finset.mem_range, and_iff_right_iff_imp]
  exact fun h ↦ lt_size_of_isLive h.1

end Index

namespace Table

open Index

variable {K V : Type} {t t' : Table K V} {d : Nat}

/-! ### Distances -/

theorem mem_distances_iff : d ∈ t.distances ↔ (standing t.rows d).Nonempty := by
  rw [distances_eq]
  simp only [List.mem_filterMap, List.mem_range, Option.ite_none_right_eq_some,
    Option.some.injEq, Finset.Nonempty, mem_standing_iff]
  constructor
  · rintro ⟨pos, -, hpos⟩
    exact ⟨pos, hpos⟩
  · rintro ⟨pos, hpos⟩
    exact ⟨pos, lt_size_of_isLive hpos.1, hpos⟩

/-- A distance occurs as often as rows stand at it. -/
theorem count_distances (t : Table K V) (d : Nat) :
    t.distances.count d = (standing t.rows d).card := by
  rw [distances_eq, List.count_filterMap, List.countP_eq_length_filter,
    ← List.toFinset_card_of_nodup (List.nodup_range.filter _)]
  congr 1
  ext pos
  simp [standing]

/-- There is a distance for each live row. -/
theorem length_distances (t : Table K V) : t.distances.length = (liveRows t.rows).length := by
  rw [distances_eq, List.length_filterMap_eq_countP, liveRows, toList_eq_map_rowAt,
    List.filter_map, List.length_map, ← List.countP_eq_length_filter]
  apply List.countP_congr
  intro pos _
  simp

/-- The figures of a table account for its rows. -/
structure Surveyed (t : Table K V) : Prop where
  /-- The histogram counts each entry once. -/
  total_eq : t.histogram.total = .ok t.size
  /-- It counts an entry at the distance of its row. -/
  count_eq : ∀ d, t.histogram.count d = (standing t.rows d).card
  /-- No bins are added past the last distance. -/
  last_pos : ∀ d, t.histogram.bins.size = d + 1 → 0 < t.histogram.count d
  bins_le : t.histogram.bins.size ≤ t.rows.size
  /-- The largest distance that is reported is one at which a row stands. -/
  isGreatest : 0 < t.size → ∀ entryBytes,
    IsGreatest {d | (standing t.rows d).Nonempty} (t.stats entryBytes).maxDistance
  maxDistance_eq_zero : t.size = 0 → ∀ entryBytes, (t.stats entryBytes).maxDistance = 0
  /-- No row is counted both as in use and as a tombstone. -/
  rows_le : ∀ entryBytes, (t.stats entryBytes).populated + (t.stats entryBytes).tombstones ≤
    (t.stats entryBytes).rowCount

/-- There is a distance for each entry. -/
theorem Built.length_distances (h : t.Built) : t.distances.length = t.size := by
  rw [Table.length_distances, h.indexed.length_liveRows]

theorem Built.surveyed (h : t.Built) : t.Surveyed where
  total_eq := by
    have hle : t.distances.length ≤ maxCount := by
      rw [h.length_distances]
      exact Nat.le_trans h.size_le (by decide)
    rw [histogram, Histogram.total_ofDistances hle, h.length_distances]
  count_eq := by
    intro d
    rw [histogram, Histogram.count_ofDistances, count_distances]
  last_pos := by
    intro d hd
    rw [histogram, Histogram.count_ofDistances, List.count_pos_iff]
    exact Histogram.mem_of_size_ofDistances hd
  bins_le := by
    apply Nat.le_of_not_lt
    intro hlt
    obtain ⟨far, hfar, hle⟩ := Histogram.lt_size_ofDistances_iff.mp hlt
    obtain ⟨pos, hpos⟩ := mem_distances_iff.mp hfar
    have hnear : distAt t.rows pos < t.rows.size := distAt_lt h.indexed.rows_pos
    rw [(mem_standing_iff.mp hpos).2] at hnear
    omega
  isGreatest := by
    intro hsize entryBytes
    have hne : t.distances ≠ [] := by
      rw [← h.length_distances] at hsize
      exact List.ne_nil_of_length_pos hsize
    simp only [← mem_distances_iff]
    exact Histogram.isGreatest_maxDistance hne
  maxDistance_eq_zero := by
    intro hsize entryBytes
    have hnil : t.distances = [] :=
      List.eq_nil_of_length_eq_zero (h.length_distances.trans hsize)
    rw [stats, histogram, hnil]
    rfl
  rows_le := by
    intro entryBytes
    have hle := length_liveRows_add_tombstones_le t.rows
    rwa [h.indexed.length_liveRows] at hle

/-! ### Tombstones -/

/-- A removal that finds its key leaves one tombstone more. -/
theorem Built.tombstones_remove (h : t.Built) {hash : UInt64} {eq : K → Bool}
    {hasher : K → UInt64} {e : K × V} (hr : t.remove hash eq hasher = (some e, t')) :
    tombstones t'.rows = tombstones t.rows + 1 := by
  cases hfound : t.findRow? (scramble hash) eq with
  | none =>
    rw [Table.remove, hfound] at hr
    cases hr
  | some pos =>
    rw [remove_of_findRow? hfound] at hr
    obtain ⟨-, rfl⟩ := Prod.mk.inj hr
    exact h.indexed.paired.tombstones_removeRow (isLive_of_findRow? hfound) hasher

/-- Growth that takes no more rows keeps them as they are. -/
theorem rows_grow [WalkLimit] {capacity : Nat} (hg : t.grow capacity = .ok t')
    (hsame : t'.rows.size = t.rows.size) : t'.rows = t.rows := by
  obtain ⟨-, ⟨-, rfl⟩ | ⟨-, ⟨-, rfl⟩ | ⟨hother, rows, hre, rfl⟩⟩⟩ := grow_cases hg
  · rfl
  · rfl
  · exact absurd ((size_rebuild? hre).symm.trans hsame) hother

/-- Room for one more entry that takes no more rows leaves the rows as they are. -/
theorem rows_reserveOne [WalkLimit] (hr : t.reserveOne = .ok t')
    (hsame : t'.rows.size = t.rows.size) : t'.rows = t.rows := by
  rcases reserveOne_eq_ok hr with rfl | ⟨capacity, hg⟩
  · rfl
  · exact rows_grow hg hsame

/-- A new key that takes no more rows uses up one tombstone or none. -/
theorem Built.tombstones_insertWith [WalkLimit] (h : t.Built) {hash : UInt64} {key : K} {value : V}
    {eq : K → K → Bool} {merge : V → V → V}
    (hi : t.insertWith hash key value eq merge = .ok (none, t'))
    (hsame : t'.rows.size = t.rows.size) :
    tombstones t'.rows = tombstones t.rows ∨ tombstones t'.rows + 1 = tombstones t.rows := by
  obtain ⟨grown, hr, hp⟩ := bind_eq_ok_iff.mp hi
  obtain ⟨hgrown, -, hroom⟩ := h.reserveOne hr
  have hpos := hgrown.indexed.rows_pos
  have hfits : grown.size < Row.entryBound :=
    lt_entryBound (Nat.le_trans (Nat.le_of_lt hroom) hgrown.le_maxCapacity)
  rcases put_cases hp with ⟨entry, -, -, rfl⟩ | ⟨rows, habsent, hfill, -, rfl⟩
  · have hrows : grown.rows = t.rows := rows_reserveOne hr hsame
    exact .inl (congrArg tombstones hrows)
  · obtain ⟨n, hends⟩ := findSpot_ends grown.size habsent
    have hsize : rows.size = grown.rows.size := Spot.size_fill? hfill
    rw [← rows_reserveOne hr (hsize.symm.trans hsame)]
    exact hends.tombstones_fill? hpos (scramble_ne_zero hash) hfits hfill

/-- In each table that a program gets hold of, the histogram counts each entry once, at the distance
of its row, and has no bins that it could do without; the occupancy figures report the largest of
those distances, and never more entries and tombstones than there are rows. A removal that finds
its key leaves one tombstone more. A new key uses up one tombstone or none if it makes no more room,
and also if it makes room that takes no more rows. -/
theorem figures_account_for_rows [WalkLimit] (h : Reachable t) :
    t.Surveyed ∧
    (∀ hash eq hasher e t', t.remove hash eq hasher = (some e, t') →
      tombstones t'.rows = tombstones t.rows + 1) ∧
    ∀ hash key value eq merge t', t.insertWith hash key value eq merge = .ok (none, t') →
      t'.capacity = t.capacity ∨ t'.rows.size = t.rows.size →
      tombstones t'.rows = tombstones t.rows ∨ tombstones t'.rows + 1 = tombstones t.rows := by
  refine ⟨h.built.surveyed, ?_, ?_⟩
  · intro hash eq hasher e t' hr
    exact h.built.tombstones_remove hr
  · intro hash key value eq merge t' hi hsame
    apply h.built.tombstones_insertWith hi
    rcases hsame with hcap | hrows
    · rw [(h.insertWith hi).built.indexed.rows_size, hcap, h.built.indexed.rows_size]
    · exact hrows

/-- Four keys of two hashes. -/
private def crowd : List (Call Nat Nat) :=
  [.insert 70 0, .insert 71 1, .insert 80 2, .insert 72 3]

private def withoutSecond (t : Table Nat Nat) : Option (Nat × Nat) × Table Nat Nat :=
  t.remove (tens.hash 71) (tens.eq 71) tens.hash

private def withFifth (t : Table Nat Nat) :
    Except (Halt (Table Nat Nat)) (Option Nat × Table Nat Nat) :=
  t.insertWith (tens.hash 73) 73 4 tens.eq fun _ new ↦ new

/-- The theorem at a table of four entries, from which one is removed, and at the table that is
left, to which a new key is added. -/
theorem figures_account_for_rows_exchange : ∃ t t' t'' : Table Nat Nat, Reachable t ∧
    t.Surveyed ∧ t.histogram.bins = #[1, 1, 2] ∧
    withoutSecond t = (some (71, 1), t') ∧ tombstones t'.rows = tombstones t.rows + 1 ∧
    withFifth t' = .ok (none, t'') ∧ t''.capacity = t'.capacity ∧
    (tombstones t''.rows = tombstones t'.rows ∨
      tombstones t''.rows + 1 = tombstones t'.rows) := by
  have hremoved : (build tens 4 crowd).map (fun t ↦ (t.histogram.bins, (withoutSecond t).1)) =
      .ok (#[1, 1, 2], some (71, 1)) := by
    decide +kernel
  have hadded : ((build tens 4 crowd) >>= fun t ↦
      (Halt.forget (withFifth (withoutSecond t).2)).map fun r ↦
        (r.1, r.2.capacity == (withoutSecond t).2.capacity)) = .ok (none, true) := by
    decide +kernel
  cases ht : build tens 4 crowd with
  | error e =>
    rw [ht] at hremoved
    cases hremoved
  | ok t =>
    rw [ht] at hremoved hadded
    obtain ⟨hbins, hanswer⟩ := Prod.mk.inj (Except.ok.inj hremoved)
    change (Halt.forget (withFifth (withoutSecond t).2)).map _ = _ at hadded
    have hreach := reachable_of_build ht
    have hreach' : Reachable (withoutSecond t).2 := hreach.remove _ _ _
    have hr : withoutSecond t = (some (71, 1), (withoutSecond t).2) := by rw [← hanswer]
    obtain ⟨hsurveyed, hremove, -⟩ := figures_account_for_rows hreach
    obtain ⟨-, -, hinsert⟩ := figures_account_for_rows hreach'
    cases hi : withFifth (withoutSecond t).2 with
    | error e =>
      rw [hi] at hadded
      cases hadded
    | ok r =>
      obtain ⟨answer, t''⟩ := r
      rw [hi] at hadded
      obtain ⟨rfl, hsame⟩ := Prod.mk.inj (Except.ok.inj hadded)
      have hcap := beq_iff_eq.mp hsame
      exact ⟨t, _, t'', hreach, hsurveyed, hbins, hr, hremove _ _ _ _ _ hr, hi, hcap,
        hinsert _ _ _ _ _ _ hi (.inl hcap)⟩

end Table

end RobinHood
