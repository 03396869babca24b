import RobinHood.Proofs.Index.Spot
import RobinHood.Proofs.Table.Growth
import RobinHood.Proofs.Table.Pairing
import RobinHood.Table.Insert

/-!
# Store and index agree

A table is `Indexed` if the live rows stand for the positions of the store, each for another one
and none for anything else. Every operation keeps this on its own account: nothing is assumed
about the hashes and equalities that callers hand in, which may contradict each other.
-/

namespace RobinHood

namespace Table

open Index

variable {K V : Type}

/-- Every position that a table can have fits into a row. -/
theorem lt_entryBound {entry : Nat} (h : entry ≤ maxCapacity) : entry < Row.entryBound :=
  Nat.lt_of_le_of_lt h (by decide)

/-- The live rows stand for the positions of the store, each for another one, and the rows and the
store have the sizes that the capacity asks for. -/
structure Indexed (t : Table K V) : Prop where
  rows_size : t.rows.size = rowCount t.capacity
  size_le : t.size ≤ t.capacity
  perm : ((liveRows t.rows).map Row.entry).Perm (List.range t.size)

variable {t t' : Table K V} {hash : UInt32} {key : K} {value : V} {eq : K → K → Bool}
  {merge : V → V → V} {capacity entry pos : Nat}

namespace Indexed

theorem rows_pos (h : t.Indexed) : 0 < t.rows.size := by
  rw [h.rows_size]
  exact Nat.lt_of_le_of_lt (Nat.zero_le _) (lt_rowCount t.capacity)

theorem paired (h : t.Indexed) : t.Paired := h.perm

theorem length_liveRows (h : t.Indexed) : (liveRows t.rows).length = t.size :=
  h.paired.length_liveRows

theorem nodup (h : t.Indexed) : ((liveRows t.rows).map Row.entry).Nodup := h.paired.nodup

/-- Live rows stand for positions of the store. -/
theorem entry_lt (h : t.Indexed) (hl : (rowAt t.rows pos).isLive = true) :
    (rowAt t.rows pos).entry < t.size :=
  h.paired.entry_lt hl

/-- Each position of the store has a live row. -/
theorem exists_row (h : t.Indexed) (he : entry < t.size) :
    ∃ pos, (rowAt t.rows pos).isLive = true ∧ (rowAt t.rows pos).entry = entry :=
  h.paired.exists_row he

theorem of_grown (h : t.Indexed) (hg : Grown t t') : t'.Indexed where
  rows_size := hg.rows_size
  size_le := by
    rw [hg.size_eq]
    exact Nat.le_trans h.size_le hg.capacity_le
  perm := by
    rw [hg.size_eq]
    exact (hg.perm.map _).trans h.perm

theorem length_liveRows_le (h : t.Indexed) : (liveRows t.rows).length ≤ t.capacity := by
  rw [h.length_liveRows]
  exact h.size_le

theorem blank (capacity : Nat) : (Table.blank capacity : Table K V).Indexed where
  rows_size := size_blank _
  size_le := Nat.zero_le _
  perm := by
    rw [Table.blank, liveRows_blank]
    exact .refl _

theorem clear (h : t.Indexed) : t.clear.Indexed where
  rows_size := (size_blank _).trans h.rows_size
  size_le := Nat.zero_le _
  perm := by
    rw [Table.clear, liveRows_blank]
    exact .refl _

theorem modifyValue (h : t.Indexed) (entry : Nat) (f : V → V) :
    (t.modifyValue entry f).Indexed := by
  have hsize : (t.modifyValue entry f).size = t.size := Array.size_modify
  refine ⟨h.rows_size, ?_, ?_⟩
  · rw [hsize]
    exact h.size_le
  · rw [hsize]
    exact h.perm

/-- A new last entry with a new row for it. -/
theorem push (h : t.Indexed) {rows : Index} (hroom : t.size < t.capacity)
    (he : t.size < Row.entryBound) (hsize : rows.size = t.rows.size)
    (hp : (liveRows rows).Perm (Row.live hash t.size :: liveRows t.rows)) :
    ({ t with rows := rows, entries := t.entries.push (key, value) } : Table K V).Indexed := by
  have hnew : (t.entries.push (key, value)).size = t.size + 1 := Array.size_push _
  refine ⟨hsize.trans h.rows_size, ?_, ?_⟩
  · rw [size, hnew]
    exact hroom
  · rw [size, hnew, List.range_succ]
    have hmap := hp.map Row.entry
    rw [List.map_cons, Row.entry_live hash he] at hmap
    exact (hmap.trans (h.perm.cons _)).trans (List.perm_append_singleton _ _).symm

end Indexed

/-! ### Insertion -/

/-- An insertion finds its key stored where a lookup finds it. -/
theorem findSpot_eq_held_iff_find? {hash : UInt64} {eq : K → Bool} :
    findSpot t.rows (scramble hash) (t.holdsAt eq) = .held entry ↔
      t.find? hash eq = some entry := by
  rw [findSpot_eq_held_iff, find?, findRow?, Option.map_eq_some_iff]

/-- For a stored key only the value changes. -/
theorem put_of_held [WalkLimit] (h : findSpot t.rows hash (t.holdsAt (eq key)) = .held entry) :
    t.put hash key value eq merge = .ok ((t.entries[entry]?).map Prod.snd,
      t.modifyValue entry fun stored ↦ merge stored value) := by
  rw [put, h]

/-- An entry is appended once its row is placed. -/
theorem append_of_place? [WalkLimit] {rows : Index}
    (h : place? t.rows hash t.size pos = some rows) :
    t.append hash key value pos =
      .ok { t with rows := rows, entries := t.entries.push (key, value) } := by
  rw [append, Placement.Outcome.rows?_eq_some_iff.mp h]

theorem append_eq_ok [WalkLimit] (h : t.append hash key value pos = .ok t') :
    ∃ rows, place? t.rows hash t.size pos = some rows ∧
      t' = { t with rows := rows, entries := t.entries.push (key, value) } := by
  unfold append at h
  split at h
  · next rows hplace =>
    cases h
    exact ⟨rows, Placement.Outcome.rows?_eq_some_iff.mpr hplace, rfl⟩
  · cases h

/-- An absent key is appended to the store, and its row fills the spot found for it. If its walk is
given up, the store has the entry, and the rows are as the walk has left them. -/
theorem put_of_absent [WalkLimit]
    (h : ∀ entry, findSpot t.rows hash (t.holdsAt (eq key)) ≠ .held entry) :
    t.put hash key value eq merge =
      match (findSpot t.rows hash (t.holdsAt (eq key))).fill t.rows hash t.size with
      | .settled rows =>
        .ok (none, { t with rows := rows, entries := t.entries.push (key, value) })
      | .onward walk => .error
        ⟨.noFreeRow, { t with rows := walk.rows, entries := t.entries.push (key, value) }⟩ := by
  unfold put
  cases hspot : findSpot t.rows hash (t.holdsAt (eq key)) with
  | held entry => exact absurd hspot (h entry)
  | vacant pos => rfl
  | taken pos =>
    unfold append Spot.fill
    simp only
    cases place t.rows hash t.size pos with
    | settled rows => rfl
    | onward walk => rfl

/-- An absent key is appended to the store if the spot found for it can be filled. -/
theorem put_of_fill? [WalkLimit] {rows : Index}
    (h : ∀ entry, findSpot t.rows hash (t.holdsAt (eq key)) ≠ .held entry)
    (hfill : (findSpot t.rows hash (t.holdsAt (eq key))).fill? t.rows hash t.size = some rows) :
    t.put hash key value eq merge =
      .ok (none, { t with rows := rows, entries := t.entries.push (key, value) }) := by
  rw [put_of_absent h, Spot.fill?_eq_some_iff.mp hfill]

/-- What a returning insertion leads to: a changed value, or a new entry with its row. -/
theorem put_cases [WalkLimit] {answer : Option V}
    (h : t.put hash key value eq merge = .ok (answer, t')) :
    (∃ entry, findSpot t.rows hash (t.holdsAt (eq key)) = .held entry ∧
      answer = (t.entries[entry]?).map Prod.snd ∧
      t' = t.modifyValue entry fun stored ↦ merge stored value) ∨
    ∃ rows, (∀ entry, findSpot t.rows hash (t.holdsAt (eq key)) ≠ .held entry) ∧
      (findSpot t.rows hash (t.holdsAt (eq key))).fill? t.rows hash t.size = some rows ∧
      answer = none ∧ t' = { t with rows := rows, entries := t.entries.push (key, value) } := by
  by_cases hheld : ∃ entry, findSpot t.rows hash (t.holdsAt (eq key)) = .held entry
  · obtain ⟨entry, hentry⟩ := hheld
    rw [put_of_held hentry] at h
    cases h
    exact .inl ⟨entry, hentry, rfl, rfl⟩
  · have habsent := not_exists.mp hheld
    rw [put_of_absent habsent] at h
    split at h
    · next rows hrows =>
      cases h
      exact .inr ⟨rows, habsent, Spot.fill?_eq_some_iff.mpr hrows, rfl, rfl⟩
    · cases h

/-- What an insertion that fails although there is room leaves: the new entry is stored, and its row
is with a walk that was given up. -/
theorem put_eq_error [WalkLimit] {halt : Halt (Table K V)}
    (h : t.put hash key value eq merge = .error halt) :
    ∃ pos walk, findSpot t.rows hash (t.holdsAt (eq key)) = .taken pos ∧
      place t.rows hash t.size pos = .onward walk ∧ halt =
        ⟨.noFreeRow, { t with rows := walk.rows, entries := t.entries.push (key, value) }⟩ := by
  unfold put at h
  split at h
  · cases h
  · cases h
  · next pos hspot =>
    unfold append at h
    split at h
    · cases h
    · next walk hplace =>
      cases h
      exact ⟨pos, walk, hspot, hplace, rfl⟩

theorem Indexed.put [WalkLimit] (h : t.Indexed) (hroom : t.size < t.capacity)
    (hle : t.capacity ≤ maxCapacity) (hne : hash ≠ 0) {answer : Option V}
    (hp : t.put hash key value eq merge = .ok (answer, t')) : t'.Indexed := by
  rcases put_cases hp with ⟨entry, -, -, rfl⟩ | ⟨rows, habsent, hfill, -, rfl⟩
  · exact h.modifyValue entry _
  · have he : t.size < Row.entryBound :=
      lt_entryBound (Nat.le_trans (Nat.le_of_lt hroom) hle)
    obtain ⟨n, hends⟩ := findSpot_ends t.size habsent
    exact h.push hroom he (Spot.size_fill? hfill)
      (hends.liveRows_fill? h.rows_pos hne he hfill)

/-! ### Removal -/

theorem Indexed.removeRow (h : t.Indexed) (hl : (rowAt t.rows pos).isLive = true)
    (hasher : K → UInt64) : (t.removeRow pos hasher).Indexed where
  rows_size := by
    rw [h.paired.size_rows_removeRow hl, capacity_removeRow, h.rows_size]
  size_le := by
    rw [size_removeRow, capacity_removeRow]
    exact Nat.le_trans (Nat.sub_le _ _) h.size_le
  perm := h.paired.removeRow hl hasher

/-- The row found for a key is live. -/
theorem isLive_of_findRow? {hash : UInt64} {eq : K → Bool}
    (h : t.findRow? (scramble hash) eq = some pos) : (rowAt t.rows pos).isLive = true :=
  (find?_eq_some h).1.isLive (scramble_ne_zero hash)

/-- A removal takes away the row found for the key. -/
theorem remove_of_findRow? {hash : UInt64} {eq : K → Bool}
    (h : t.findRow? (scramble hash) eq = some pos) (hasher : K → UInt64) :
    t.remove hash eq hasher = (t.entries[(rowAt t.rows pos).entry]?, t.removeRow pos hasher) := by
  rw [Table.remove, h]

theorem capacity_remove (hash : UInt64) (eq : K → Bool) (hasher : K → UInt64) :
    (t.remove hash eq hasher).2.capacity = t.capacity := by
  unfold Table.remove
  split
  · exact capacity_removeRow hasher
  · rfl

theorem Indexed.remove (h : t.Indexed) (hash : UInt64) (eq : K → Bool) (hasher : K → UInt64) :
    (t.remove hash eq hasher).2.Indexed := by
  unfold Table.remove
  split
  · next pos hfound => exact h.removeRow (isLive_of_findRow? hfound) hasher
  · exact h

end Table

end RobinHood
