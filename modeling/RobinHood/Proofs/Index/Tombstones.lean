import RobinHood.Proofs.Index.Spot

/-!
# Tombstones under placement

A displacement walk only exchanges live rows until it settles, and then puts a live row down where
there was none. So it uses up one tombstone or none, and live rows and tombstones never share a row.
-/

namespace RobinHood

namespace Index

/-- Live rows and tombstones are different rows. -/
theorem length_liveRows_add_tombstones_le (rows : Index) :
    (liveRows rows).length + tombstones rows ≤ rows.size := by
  have hlive : (liveRows rows).length ≤ rows.toList.countP fun row ↦ ¬ row.isTombstone = true := by
    rw [liveRows, ← List.countP_eq_length_filter]
    apply List.countP_mono_left
    intro row _ hl
    simp [(Row.isLive_iff.mp hl).2]
  have hsplit := List.length_eq_countP_add_countP Row.isTombstone (l := rows.toList)
  rw [Array.length_toList, Array.countP_toList] at hsplit
  unfold tombstones
  omega

namespace Placement

variable {p q : Placement} {rows : Index} {n limit : Nat}

namespace Valid

theorem tombstones_onward (hv : p.Valid) (hs : p.step = .onward q) :
    tombstones q.rows = tombstones p.rows := by
  obtain ⟨-, ⟨-, rfl⟩ | ⟨-, hl, -, rfl⟩⟩ := step_onward hs
  · rfl
  · exact tombstones_set_of_live (Row.isLive_iff.mp hv.isLive_inHand).2 hl

theorem tombstones_reaches (hv : p.Valid) (hr : Reaches p n q) :
    tombstones q.rows = tombstones p.rows := by
  induction hr with
  | refl => rfl
  | onward hr hs ih => rw [(hv.reaches hr).tombstones_onward hs, ih]

/-- A walk that settles uses up one tombstone or none. -/
theorem tombstones_settle? (hv : p.Valid) (h : p.settle? limit = some rows) :
    tombstones rows = tombstones p.rows ∨ tombstones rows + 1 = tombstones p.rows := by
  obtain ⟨n, -, q, hr, hs⟩ := reaches_of_settle? h
  have hq := hv.reaches hr
  have hset := tombstones_set_isLive (hq.target_free hs).1 hq.isLive_inHand
  rw [hv.tombstones_reaches hr] at hset
  rw [(step_settled hs).1]
  change tombstones (q.putDown q.target) + _ = _ at hset
  split at hset
  · exact .inr hset
  · exact .inl hset

end Valid

end Placement

/-- Filling a spot uses up one tombstone or none. -/
theorem Ends.tombstones_fill? [WalkLimit] {rows rows' : Index} {hash : UInt32} {entry n : Nat}
    {spot : Spot} (h : Ends rows hash entry n spot) (hs : 0 < rows.size) (hne : hash ≠ 0)
    (he : entry < Row.entryBound) (hf : spot.fill? rows hash entry = some rows') :
    tombstones rows' = tombstones rows ∨ tombstones rows' + 1 = tombstones rows := by
  obtain ⟨p, limit, hv, rfl, -, -, hfill⟩ := h.exists_settle? hs hne he
  rw [hfill] at hf
  exact hv.tombstones_settle? hf

end Index

end RobinHood
