import RobinHood.Proofs.Index.Spot

/-!
# Indexes without tombstones

Tombstones come from removals alone. Before the first one, and after every rebuild, each row is
empty or live, so as long as there are fewer live rows than rows some row is empty, and that is
all that a placement needs to succeed.
-/

namespace RobinHood

namespace Index

/-- No row is a tombstone. -/
def Pristine (rows : Index) : Prop := ∀ pos, (rowAt rows pos).isTombstone = false

variable {rows rows' : Index} {hash : UInt32} {entry : Nat}

theorem pristine_iff : Pristine rows ↔ tombstones rows = 0 := by
  unfold tombstones
  rw [Array.countP_eq_zero]
  constructor
  · intro h row hm
    obtain ⟨pos, hp, rfl⟩ := Array.mem_iff_getElem.mp hm
    rw [← rowAt_eq_getElem hp, h pos]
    decide
  · intro h pos
    rcases Nat.lt_or_ge pos rows.size with hlt | hge
    · rw [rowAt_eq_getElem hlt]
      exact Bool.eq_false_iff.mpr (h _ (Array.getElem_mem hlt))
    · rw [rowAt_of_size_le hge]
      rfl

namespace Pristine

theorem blank (size : Nat) : Pristine (blank size) := by
  intro pos
  rw [rowAt_blank]
  rfl

/-- Without tombstones, a row is empty if there are fewer live rows than rows. -/
theorem exists_isEmpty (h : Pristine rows) (hlt : (liveRows rows).length < rows.size) :
    ∃ pos < rows.size, (rowAt rows pos).isEmpty = true := by
  obtain ⟨pos, hpos, hdead⟩ := exists_free_of_length_lt hlt
  refine ⟨pos, hpos, ?_⟩
  unfold Row.isLive at hdead
  simpa [h pos] using hdead

/-- Placing a row leaves no tombstone. -/
theorem settle? {p : Placement} (hv : p.Valid) (h : Pristine p.rows) {limit : Nat}
    (hs : p.settle? limit = some rows') : Pristine rows' := by
  obtain ⟨mid, free, row, hsame, hfree, hdead, hl, rfl⟩ := hv.fills hs
  have hmid (pos : Nat) : (rowAt mid pos).isTombstone = false := by
    cases hlive : (rowAt mid pos).isLive with
    | true => exact (Row.isLive_iff.mp hlive).2
    | false =>
      rw [hsame.isLive_eq] at hlive
      rw [hsame.rowAt_eq pos hlive]
      exact h pos
  intro pos
  by_cases hp : free = pos
  · subst hp
    rw [rowAt_set_self hfree]
    exact (Row.isLive_iff.mp hl).2
  · rw [rowAt_set_ne mid hp]
    exact hmid pos

end Pristine

/-- An index on which placements succeed: chained, and without tombstones. -/
structure Fresh (rows : Index) : Prop where
  chained : Chained rows
  pristine : Pristine rows

namespace Fresh

theorem blank (size : Nat) : Fresh (blank size) := ⟨.blank size, .blank size⟩

/-- While there are fewer live rows than rows, a row can be placed from its home. -/
theorem placeHome? [WalkLimit] (h : Fresh rows) (hlt : (liveRows rows).length < rows.size)
    (hne : hash ≠ 0) (he : entry < Row.entryBound) :
    ∃ rows', Index.placeHome? rows hash entry = some rows' ∧ Fresh rows' ∧
      rows'.size = rows.size ∧ (liveRows rows').Perm (Row.live hash entry :: liveRows rows) := by
  have hs : 0 < rows.size := by omega
  have hsound := Placement.sound_start h.chained hs hne he
  have hempty := h.pristine.exists_isEmpty hlt
  obtain ⟨rows', hsettle, hchained⟩ := hsound.settles_of_exists_isEmpty hempty
  have hplace : Index.placeHome? rows hash entry = some rows' :=
    place?_of_settle? (Nat.le_succ rows.size) hsettle
  have hpristine := Pristine.settle? hsound.valid h.pristine hsettle
  have hsize := Placement.Valid.size_settle? hsettle
  exact ⟨rows', hplace, ⟨hchained, hpristine⟩, hsize, hsound.valid.liveRows_settle? hsettle⟩

/-- While there are fewer live rows than rows, the spot for an absent key is filled. -/
theorem fill? [WalkLimit] (h : Fresh rows) (hlt : (liveRows rows).length < rows.size)
    (hne : hash ≠ 0) (he : entry < Row.entryBound) {n : Nat} {spot : Spot}
    (hends : Ends rows hash entry n spot) :
    ∃ rows', spot.fill? rows hash entry = some rows' ∧ Fresh rows' := by
  obtain ⟨rows', hfill, hchained⟩ :=
    hends.chained_fill? h.chained hne he (h.pristine.exists_isEmpty hlt)
  refine ⟨rows', hfill, hchained, ?_⟩
  obtain ⟨p, limit, hv, rfl, -, -, hsettle⟩ := hends.exists_settle? (by omega) hne he
  rw [hsettle] at hfill
  exact Pristine.settle? hv h.pristine hfill

end Fresh

end Index

end RobinHood
