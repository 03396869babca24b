import Mathlib.Data.List.Perm.Basic
import RobinHood.Index.Basic

/-!
# What an index holds

Writing one row changes one position, and the live rows of an index change by the row that was
overwritten and the row that was written. Stated up to order, this is all that placement,
removal and growth need to know of the multiset of live rows.
-/

namespace RobinHood

namespace Index

/-- How far the row at a position stands from its home. -/
def distAt (rows : Index) (pos : Nat) : Nat := distance rows.size (rowAt rows pos).hash pos

/-- A row that was written is read back. -/
theorem rowAt_set_self {rows : Index} {pos : Nat} (h : pos < rows.size) (row : Row) :
    rowAt (rows.setIfInBounds pos row) pos = row := by
  simp [rowAt, Array.getD_eq_getD_getElem?, h]

/-- Writing one row leaves the others alone. -/
theorem rowAt_set_ne (rows : Index) {pos other : Nat} (h : pos ≠ other) (row : Row) :
    rowAt (rows.setIfInBounds pos row) other = rowAt rows other := by
  simp [rowAt, Array.getD_eq_getD_getElem?, Array.getElem?_setIfInBounds_ne h]

/-- Writing a row does not change the number of rows. -/
@[simp] theorem size_set (rows : Index) (pos : Nat) (row : Row) :
    (rows.setIfInBounds pos row).size = rows.size :=
  Array.size_setIfInBounds

/-- Distances elsewhere are as before after writing one row. -/
theorem distAt_set_ne (rows : Index) {pos other : Nat} (h : pos ≠ other) (row : Row) :
    distAt (rows.setIfInBounds pos row) other = distAt rows other := by
  rw [distAt, distAt, size_set, rowAt_set_ne rows h]

/-- The row at a position of the index is an element of it. -/
theorem rowAt_eq_getElem {rows : Index} {pos : Nat} (h : pos < rows.size) :
    rowAt rows pos = rows[pos] := by
  simp [rowAt, Array.getD_eq_getD_getElem?, h]

/-- The rows of an index are those at its positions. -/
theorem toList_eq_map_rowAt (rows : Index) :
    rows.toList = (List.range rows.size).map (rowAt rows) := by
  apply List.ext_getElem
  · simp
  · intro i h1 h2
    rw [Array.length_toList] at h1
    rw [Array.getElem_toList, List.getElem_map, List.getElem_range, rowAt_eq_getElem h1]

/-- A row that holds something is a row of the index. -/
theorem lt_size_of_not_isEmpty {rows : Index} {pos : Nat}
    (h : (rowAt rows pos).isEmpty = false) : pos < rows.size := by
  rcases Nat.lt_or_ge pos rows.size with hlt | hge
  · exact hlt
  · rw [rowAt_of_size_le hge] at h
    cases h

/-- Live rows are rows of the index. -/
theorem lt_size_of_isLive {rows : Index} {pos : Nat} (h : (rowAt rows pos).isLive = true) :
    pos < rows.size :=
  lt_size_of_not_isEmpty (Row.isLive_iff.mp h).1

/-- The live rows are those found live at some position. -/
theorem mem_liveRows_iff {rows : Index} {row : Row} :
    row ∈ liveRows rows ↔ row.isLive = true ∧ ∃ pos < rows.size, rowAt rows pos = row := by
  unfold liveRows
  rw [List.mem_filter, Array.mem_toList_iff, Array.mem_iff_getElem]
  constructor
  · rintro ⟨⟨pos, hp, rfl⟩, hl⟩
    exact ⟨hl, pos, hp, rowAt_eq_getElem hp⟩
  · rintro ⟨hl, pos, hp, rfl⟩
    exact ⟨⟨pos, hp, (rowAt_eq_getElem hp).symm⟩, hl⟩

/-- The live row at a position is one of the live rows. -/
theorem rowAt_mem_liveRows {rows : Index} {pos : Nat} (h : (rowAt rows pos).isLive = true) :
    rowAt rows pos ∈ liveRows rows :=
  mem_liveRows_iff.mpr ⟨h, pos, lt_size_of_isLive h, rfl⟩

/-- A blank index has no live rows. -/
theorem liveRows_blank (size : Nat) : liveRows (blank size) = [] := by
  unfold liveRows blank
  rw [Array.toList_replicate]
  exact List.filter_eq_nil_iff.mpr fun row hr ↦ by
    rw [List.eq_of_mem_replicate hr, Row.isLive_empty]
    decide

private theorem perm_set {rows : Index} {pos : Nat} (h : pos < rows.size) (row : Row) :
    (rowAt rows pos :: (rows.setIfInBounds pos row).toList).Perm (row :: rows.toList) := by
  have hl : pos < rows.toList.length := by rwa [Array.length_toList]
  rw [Array.toList_setIfInBounds, rowAt_eq_getElem h]
  have hw := (List.set_perm_cons_eraseIdx hl row).cons rows[pos]
  have hr := (List.getElem_cons_eraseIdx_perm hl).cons row
  exact hw.trans ((List.Perm.swap _ _ _).trans hr)

/-- A live row written over a row that is not live joins the live rows. -/
theorem liveRows_set_of_free {rows : Index} {pos : Nat} (h : pos < rows.size) {row : Row}
    (hl : row.isLive = true) (hf : (rowAt rows pos).isLive = false) :
    (liveRows (rows.setIfInBounds pos row)).Perm (row :: liveRows rows) := by
  have hp := (perm_set h row).filter Row.isLive
  rw [List.filter_cons_of_pos hl, List.filter_cons_of_neg (by simp [hf])] at hp
  exact hp

/-- A live row written over a live row takes its place among the live rows. -/
theorem liveRows_set_of_live {rows : Index} {pos : Nat} (h : pos < rows.size) {row : Row}
    (hl : row.isLive = true) (hf : (rowAt rows pos).isLive = true) :
    (rowAt rows pos :: liveRows (rows.setIfInBounds pos row)).Perm (row :: liveRows rows) := by
  have hp := (perm_set h row).filter Row.isLive
  rwa [List.filter_cons_of_pos hl, List.filter_cons_of_pos hf] at hp

/-- A row that is not live written over a live row takes it from the live rows. -/
theorem liveRows_set_dead {rows : Index} {pos : Nat} (h : pos < rows.size) {row : Row}
    (hl : row.isLive = false) (hf : (rowAt rows pos).isLive = true) :
    (rowAt rows pos :: liveRows (rows.setIfInBounds pos row)).Perm (liveRows rows) := by
  have hp := (perm_set h row).filter Row.isLive
  rwa [List.filter_cons_of_pos hf, List.filter_cons_of_neg (by simp [hl])] at hp

private theorem tombstones_set {rows : Index} {pos : Nat} (h : pos < rows.size) (row : Row) :
    tombstones (rows.setIfInBounds pos row) +
        (if (rowAt rows pos).isTombstone = true then 1 else 0) =
      tombstones rows + if row.isTombstone = true then 1 else 0 := by
  have hp := (perm_set h row).countP_eq Row.isTombstone
  rwa [List.countP_cons, List.countP_cons, Array.countP_toList, Array.countP_toList] at hp

/-- A tombstone written over a live row is one more. -/
theorem tombstones_set_tombstone {rows : Index} {pos : Nat} {row : Row}
    (hl : (rowAt rows pos).isLive = true) (ht : row.isTombstone = true) :
    tombstones (rows.setIfInBounds pos row) = tombstones rows + 1 := by
  have hset := tombstones_set (lt_size_of_isLive hl) row
  simpa [(Row.isLive_iff.mp hl).2, ht] using hset

/-- Writing a row that is no tombstone over a live row leaves as many tombstones as before. -/
theorem tombstones_set_of_live {rows : Index} {pos : Nat} {row : Row}
    (ht : row.isTombstone = false) (hl : (rowAt rows pos).isLive = true) :
    tombstones (rows.setIfInBounds pos row) = tombstones rows := by
  have hset := tombstones_set (lt_size_of_isLive hl) row
  simpa [(Row.isLive_iff.mp hl).2, ht] using hset

/-- A live row written over a tombstone leaves one less, and over another row as many as before. -/
theorem tombstones_set_isLive {rows : Index} {pos : Nat} (h : pos < rows.size) {row : Row}
    (hl : row.isLive = true) : tombstones (rows.setIfInBounds pos row) +
      (if (rowAt rows pos).isTombstone = true then 1 else 0) = tombstones rows := by
  have hset := tombstones_set h row
  rwa [(Row.isLive_iff.mp hl).2] at hset

/-- With fewer live rows than rows, some row is not live. -/
theorem exists_free_of_length_lt {rows : Index} (h : (liveRows rows).length < rows.size) :
    ∃ pos < rows.size, (rowAt rows pos).isLive = false := by
  unfold liveRows at h
  rw [← Array.length_toList] at h
  obtain ⟨row, hm, hl⟩ := List.length_filter_lt_length_iff_exists.mp h
  obtain ⟨pos, hp, rfl⟩ := Array.mem_iff_getElem.mp (Array.mem_toList_iff.mp hm)
  exact ⟨pos, hp, by simpa [rowAt_eq_getElem hp] using hl⟩

/-- Where the live rows stand for different entries, an entry has one live row. -/
theorem eq_of_entry_eq {rows : Index} (hn : ((liveRows rows).map Row.entry).Nodup) {p q : Nat}
    (hp : (rowAt rows p).isLive = true) (hq : (rowAt rows q).isLive = true)
    (he : (rowAt rows p).entry = (rowAt rows q).entry) : p = q := by
  have hps := lt_size_of_isLive hp
  have hqs := lt_size_of_isLive hq
  have hpair := List.pairwise_iff_getElem.mp
    (List.pairwise_filter.mp (List.pairwise_map.mp hn))
  rw [rowAt_eq_getElem hps] at hp he
  rw [rowAt_eq_getElem hqs] at hq he
  rcases Nat.lt_trichotomy p q with hlt | heq | hgt
  · exact absurd he (hpair p q hps hqs hlt hp hq)
  · exact heq
  · exact absurd he.symm (hpair q p hqs hps hgt hq hp)

end Index

end RobinHood
