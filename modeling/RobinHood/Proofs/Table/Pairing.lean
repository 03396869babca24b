import Mathlib.Data.List.Range
import RobinHood.Proofs.Index.Circle
import RobinHood.Proofs.Index.Contents
import RobinHood.Table.Remove

/-!
# Rows and entries in pairs

In a table whose rows and entries are `Paired`, each position of the store has a live row of its
own, and no live row stands for anything else. That alone decides what a removal does to the index:
the last entry is found again whatever hash the search for it begins with, so two rows change at
most, and there is one more tombstone.
-/

namespace RobinHood

namespace Table

open Index

variable {K V : Type} {t : Table K V} {hash : UInt32} {entry pos : Nat}

/-- The live rows stand for the positions of the store, each for another one and none for anything
else. -/
def Paired (t : Table K V) : Prop := ((liveRows t.rows).map Row.entry).Perm (List.range t.size)

instance : Decidable t.Paired :=
  inferInstanceAs (Decidable (((liveRows t.rows).map Row.entry).Perm (List.range t.size)))

namespace Paired

theorem length_liveRows (h : t.Paired) : (liveRows t.rows).length = t.size := by
  rw [← List.length_map Row.entry, h.length_eq, List.length_range]

theorem nodup (h : t.Paired) : ((liveRows t.rows).map Row.entry).Nodup :=
  h.nodup_iff.mpr List.nodup_range

/-- Live rows stand for positions of the store. -/
theorem entry_lt (h : t.Paired) (hl : (rowAt t.rows pos).isLive = true) :
    (rowAt t.rows pos).entry < t.size :=
  List.mem_range.mp (h.mem_iff.mp (List.mem_map_of_mem (rowAt_mem_liveRows hl)))

/-- Each position of the store has a live row. -/
theorem exists_row (h : t.Paired) (he : entry < t.size) :
    ∃ pos, (rowAt t.rows pos).isLive = true ∧ (rowAt t.rows pos).entry = entry := by
  obtain ⟨row, hrow, hentry⟩ := List.mem_map.mp (h.mem_iff.mpr (List.mem_range.mpr he))
  obtain ⟨hl, pos, -, rfl⟩ := mem_liveRows_iff.mp hrow
  exact ⟨pos, hl, hentry⟩

end Paired

/-! ### The row of the last entry -/

/-- A search once round meets every row that stands for the entry it looks for. -/
private theorem exists_ownerFrom {rows : Index} {d left : Nat}
    (h : ∃ i < left, standsFor (rowAt rows (walkPos rows.size hash (d + i))) entry = true) :
    ∃ pos, ownerFrom rows entry left (walkPos rows.size hash d) = some pos ∧
      standsFor (rowAt rows pos) entry = true := by
  induction left generalizing d with
  | zero =>
    obtain ⟨i, hi, -⟩ := h
    cases hi
  | succ left ih =>
    unfold ownerFrom
    split
    · next hs => exact ⟨_, rfl, hs⟩
    · next hs =>
      rw [next_walkPos]
      apply ih
      obtain ⟨i, hi, hstands⟩ := h
      cases i with
      | zero => exact absurd hstands hs
      | succ i => exact ⟨i, by omega, by rwa [Nat.add_assoc, Nat.add_comm 1]⟩

/-- The row that stands for an entry is found, whatever hash the search begins with. -/
theorem exists_owner? {rows : Index} (hl : (rowAt rows pos).isLive = true)
    (he : (rowAt rows pos).entry = entry) (hash : UInt32) :
    ∃ pos, owner? rows hash entry = some pos ∧ standsFor (rowAt rows pos) entry = true := by
  have hpos := lt_size_of_isLive hl
  obtain ⟨i, hi, hw⟩ := exists_walkPos hash 0 hpos
  unfold owner?
  rw [← walkPos_zero (by omega)]
  apply exists_ownerFrom
  refine ⟨i, hi, ?_⟩
  rw [hw, standsFor, hl, he]
  simp

/-- The row of the last entry is found when another entry is removed. -/
theorem Paired.exists_movedRow? (h : t.Paired) (he : entry < t.size) (hne : entry ≠ t.size - 1)
    (hasher : K → UInt64) : ∃ pos, t.movedRow? entry hasher = some pos ∧
      (rowAt t.rows pos).isLive = true ∧ (rowAt t.rows pos).entry = t.size - 1 := by
  have hlt : t.size - 1 < t.entries.size := Nat.sub_one_lt_of_lt he
  obtain ⟨last, hlast⟩ : ∃ last, t.entries[t.size - 1]? = some last :=
    ⟨_, Array.getElem?_eq_getElem hlt⟩
  obtain ⟨pos, hl, hentry⟩ := h.exists_row hlt
  obtain ⟨owner, ho, hs⟩ := exists_owner? hl hentry (scramble (hasher last.1))
  refine ⟨owner, ?_, ?_⟩
  · rw [movedRow?, if_neg hne, hlast]
    exact ho
  · simpa [standsFor] using hs

/-- Only one row stands for the last entry, so that row is found from any start. -/
theorem Paired.movedRow?_eq (h : t.Paired) (he : entry < t.size) (hne : entry ≠ t.size - 1)
    (hl : (rowAt t.rows pos).isLive = true) (hlast : (rowAt t.rows pos).entry = t.size - 1)
    (hasher : K → UInt64) : t.movedRow? entry hasher = some pos := by
  obtain ⟨owner, hfound, hlive, howner⟩ := h.exists_movedRow? he hne hasher
  rw [hfound, eq_of_entry_eq h.nodup hlive hl (howner.trans hlast.symm)]

/-- Where the search for the row of the last entry begins has no effect on what it finds. -/
theorem Paired.movedRow?_congr (h : t.Paired) (he : entry < t.size) (hasher hasher' : K → UInt64) :
    t.movedRow? entry hasher = t.movedRow? entry hasher' := by
  by_cases hne : entry = t.size - 1
  · rw [movedRow?, movedRow?, if_pos hne, if_pos hne]
  · obtain ⟨owner, hfound, hl, hlast⟩ := h.exists_movedRow? he hne hasher
    rw [hfound, h.movedRow?_eq he hne hl hlast hasher']

/-! ### What a removal does to the index -/

theorem size_removeRow (hasher : K → UInt64) : (t.removeRow pos hasher).size = t.size - 1 := by
  obtain ⟨rows, entries, capacity, indexMask⟩ := t
  simp [removeRow, swapRemove, size]

/-- The rows after a removal: the last entry's row stands for the freed position, unless that is the
last one, and the removed row is a tombstone. -/
theorem rows_removeRow (hasher : K → UInt64) : (t.removeRow pos hasher).rows =
    (redirect t.rows (t.movedRow? (rowAt t.rows pos).entry hasher)
      (rowAt t.rows pos).entry).setIfInBounds pos (rowAt t.rows pos).toTombstone := rfl

theorem capacity_removeRow (hasher : K → UInt64) :
    (t.removeRow pos hasher).capacity = t.capacity := rfl

theorem entries_removeRow (hasher : K → UInt64) :
    (t.removeRow pos hasher).entries = swapRemove t.entries (rowAt t.rows pos).entry := rfl

namespace Paired

/-- A removal leaves the same table for any two hashers. -/
theorem removeRow_congr (h : t.Paired) (hl : (rowAt t.rows pos).isLive = true)
    (hasher hasher' : K → UInt64) : t.removeRow pos hasher = t.removeRow pos hasher' := by
  have hmoved := h.movedRow?_congr (h.entry_lt hl) hasher hasher'
  cases t
  simp only [removeRow, hmoved]

/-- A removal writes the removed row, and before it the row of the last entry if that is another. -/
theorem rows_removeRow_cases (h : t.Paired) (hl : (rowAt t.rows pos).isLive = true)
    (hasher : K → UInt64) :
    ((rowAt t.rows pos).entry = t.size - 1 ∧ (t.removeRow pos hasher).rows =
        t.rows.setIfInBounds pos (rowAt t.rows pos).toTombstone) ∨
    ∃ owner, owner ≠ pos ∧ (rowAt t.rows owner).isLive = true ∧
      (rowAt t.rows owner).entry = t.size - 1 ∧ (t.removeRow pos hasher).rows =
        (t.rows.setIfInBounds owner ((rowAt t.rows owner).withEntry
          (rowAt t.rows pos).entry)).setIfInBounds pos (rowAt t.rows pos).toTombstone := by
  rw [rows_removeRow]
  by_cases hlast : (rowAt t.rows pos).entry = t.size - 1
  · left
    rw [movedRow?, if_pos hlast]
    exact ⟨hlast, rfl⟩
  · right
    obtain ⟨owner, hmoved, hlive, howner⟩ := h.exists_movedRow? (h.entry_lt hl) hlast hasher
    have hne : owner ≠ pos := by
      rintro rfl
      exact hlast howner
    rw [hmoved]
    exact ⟨owner, hne, hlive, howner, rfl⟩

theorem size_rows_removeRow (h : t.Paired) (hl : (rowAt t.rows pos).isLive = true)
    (hasher : K → UInt64) : (t.removeRow pos hasher).rows.size = t.rows.size := by
  rcases h.rows_removeRow_cases hl hasher with ⟨-, hrows⟩ | ⟨owner, -, -, -, hrows⟩
  · rw [hrows, size_set]
  · rw [hrows, size_set, size_set]

/-- The rows after a removal, one by one. -/
theorem rowAt_removeRow (h : t.Paired) (hl : (rowAt t.rows pos).isLive = true)
    (hasher : K → UInt64) (other : Nat) : rowAt (t.removeRow pos hasher).rows other =
      if other = pos then (rowAt t.rows pos).toTombstone
      else if (rowAt t.rows other).isLive = true ∧ (rowAt t.rows other).entry = t.size - 1 then
        (rowAt t.rows other).withEntry (rowAt t.rows pos).entry
      else rowAt t.rows other := by
  have hpos := lt_size_of_isLive hl
  rcases h.rows_removeRow_cases hl hasher with
    ⟨hlast, hrows⟩ | ⟨owner, hne, hlive, howner, hrows⟩
  · rw [hrows]
    by_cases hp : other = pos
    · subst hp
      rw [if_pos rfl, rowAt_set_self hpos]
    · have hno : ¬ ((rowAt t.rows other).isLive = true ∧
          (rowAt t.rows other).entry = t.size - 1) := by
        rintro ⟨hlive, he⟩
        exact hp (eq_of_entry_eq h.nodup hlive hl (he.trans hlast.symm))
      rw [if_neg hp, if_neg hno, rowAt_set_ne t.rows (Ne.symm hp)]
  · rw [hrows]
    by_cases hp : other = pos
    · subst hp
      rw [if_pos rfl, rowAt_set_self (by rwa [size_set])]
    · rw [if_neg hp, rowAt_set_ne _ (Ne.symm hp)]
      by_cases ho : owner = other
      · subst ho
        rw [if_pos ⟨hlive, howner⟩, rowAt_set_self (lt_size_of_isLive hlive)]
      · have hno : ¬ ((rowAt t.rows other).isLive = true ∧
            (rowAt t.rows other).entry = t.size - 1) := by
          rintro ⟨hlive', he⟩
          exact ho (eq_of_entry_eq h.nodup hlive hlive' (howner.trans he.symm))
        rw [if_neg hno, rowAt_set_ne t.rows ho]

private theorem perm_range_pred {entries : List Nat} {size : Nat} (hs : 0 < size)
    (h : ((size - 1) :: entries).Perm (List.range size)) :
    entries.Perm (List.range (size - 1)) := by
  obtain ⟨n, rfl⟩ : ∃ n, size = n + 1 := ⟨size - 1, by omega⟩
  rw [Nat.add_sub_cancel] at h ⊢
  rw [List.range_succ] at h
  exact (h.trans (List.perm_append_singleton n _)).cons_inv

/-- After a removal the rows and the entries that are left are paired. -/
theorem removeRow (h : t.Paired) (hl : (rowAt t.rows pos).isLive = true) (hasher : K → UInt64) :
    (t.removeRow pos hasher).Paired := by
  have hentry := h.entry_lt hl
  have hs : 0 < t.size := by omega
  rw [Paired, size_removeRow]
  apply perm_range_pred hs
  rcases h.rows_removeRow_cases hl hasher with
    ⟨hlast, hrows⟩ | ⟨owner, hne, hlive, howner, hrows⟩
  · rw [hrows]
    have hdead := (liveRows_set_dead (lt_size_of_isLive hl)
      (Row.isLive_toTombstone (rowAt t.rows pos)) hl).map Row.entry
    rw [List.map_cons, hlast] at hdead
    exact hdead.trans h
  · rw [hrows]
    -- First the last entry's row takes over the freed position, then the freed row goes.
    have hhash := Row.hash_ne_of_isLive hlive
    have hnew : ((rowAt t.rows owner).withEntry (rowAt t.rows pos).entry).isLive = true :=
      Row.isLive_live hhash _
    have hmove := (liveRows_set_of_live (lt_size_of_isLive hlive) hnew hlive).map Row.entry
    have hpos : rowAt (t.rows.setIfInBounds owner
        ((rowAt t.rows owner).withEntry (rowAt t.rows pos).entry)) pos = rowAt t.rows pos :=
      rowAt_set_ne t.rows hne _
    have hl' := hl
    rw [← hpos] at hl'
    have hdead := (liveRows_set_dead (lt_size_of_isLive hl')
      (Row.isLive_toTombstone (rowAt t.rows pos)) hl').map Row.entry
    rw [List.map_cons, hpos] at hdead
    rw [List.map_cons, List.map_cons, howner, Row.withEntry,
      Row.entry_live _ (Row.entry_lt _)] at hmove
    have hboth := (List.Perm.swap (t.size - 1) _ _).trans ((hdead.cons _).trans hmove)
    exact hboth.cons_inv.trans h

/-- A removal leaves one tombstone more. -/
theorem tombstones_removeRow (h : t.Paired) (hl : (rowAt t.rows pos).isLive = true)
    (hasher : K → UInt64) :
    tombstones (t.removeRow pos hasher).rows = tombstones t.rows + 1 := by
  rcases h.rows_removeRow_cases hl hasher with ⟨-, hrows⟩ | ⟨owner, hne, hlive, -, hrows⟩
  · rw [hrows]
    exact tombstones_set_tombstone hl (Row.isTombstone_toTombstone _)
  · have hpos : rowAt (t.rows.setIfInBounds owner
        ((rowAt t.rows owner).withEntry (rowAt t.rows pos).entry)) pos = rowAt t.rows pos :=
      rowAt_set_ne t.rows hne _
    have hkept : ((rowAt t.rows owner).withEntry (rowAt t.rows pos).entry).isTombstone = false :=
      Row.isTombstone_live _ _
    rw [hrows, tombstones_set_tombstone (by rwa [hpos]) (Row.isTombstone_toTombstone _),
      tombstones_set_of_live hkept hlive]

end Paired

end Table

end RobinHood
