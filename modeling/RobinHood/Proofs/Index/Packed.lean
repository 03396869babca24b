import RobinHood.Proofs.Index.Spot
import RobinHood.Proofs.Row

/-!
# Packed indexes

A displacement walk moves rows about and makes none but the one that it sets out with: what it puts
down it had in hand, and what it takes up stood in the index. So each row after a placement is the
new row or stood there before, and at every row that the walk looks at on the way that is so as
well, even if it is cut off. An index of rows that are properly written therefore stays one.
-/

namespace RobinHood

namespace Index

/-- Each row is one that tables write. -/
def Packed (rows : Index) : Prop := ∀ row ∈ rows, row.Written

variable {rows rows' : Index} {row : Row} {hash : UInt32} {entry pos : Nat}

instance : Decidable (Packed rows) := inferInstanceAs (Decidable (∀ row ∈ rows, row.Written))

/-! ### Where rows come from -/

/-- A row that is not past the end is one of the rows. -/
theorem rowAt_mem (h : pos < rows.size) : rowAt rows pos ∈ rows := by
  rw [rowAt_eq_getElem h]
  exact Array.getElem_mem h

namespace Placement

/-- The row is in hand or stands in the index. -/
def Holds (p : Placement) (row : Row) : Prop := row = p.inHand ∨ row ∈ p.rows

variable {p q : Placement} {n limit : Nat}

theorem holds_of_mem_putDown (h : row ∈ p.putDown pos) : p.Holds row :=
  (Array.mem_or_eq_of_mem_setIfInBounds h).symm

/-- Looking at a row brings in no other row. -/
theorem Holds.of_onward (hs : p.step = .onward q) (h : q.Holds row) : p.Holds row := by
  obtain ⟨-, ⟨-, rfl⟩ | ⟨-, hl, -, rfl⟩⟩ := step_onward hs
  · exact h
  · have htaken : p.swap.inHand = p.facing := Row.live_hash_entry (Row.isLive_iff.mp hl).2
    rcases h with rfl | hmem
    · rw [htaken]
      exact .inr (rowAt_mem (lt_size_of_isLive hl))
    · exact holds_of_mem_putDown hmem

/-- A walk brings in no row that it did not set out with. -/
theorem Holds.of_reaches (hr : Reaches p n q) (h : q.Holds row) : p.Holds row := by
  induction hr with
  | refl => exact h
  | onward _ hs ih => exact ih (h.of_onward hs)

theorem holds_of_mem_settle? (hs : p.settle? limit = some rows) (h : row ∈ rows) :
    p.Holds row := by
  obtain ⟨n, -, q, hr, hstep⟩ := reaches_of_settle? hs
  rw [(step_settled hstep).1] at h
  exact (holds_of_mem_putDown h).of_reaches hr

end Placement

/-- Each row after a spot was filled is the new one or stood there before. -/
theorem mem_of_mem_fill? [WalkLimit] {spot : Spot} (h : spot.fill? rows hash entry = some rows')
    (hm : row ∈ rows') : row = Row.live hash entry ∨ row ∈ rows := by
  cases spot with
  | held stored =>
    cases h
    exact .inr hm
  | vacant free =>
    cases h
    exact (Array.mem_or_eq_of_mem_setIfInBounds hm).symm
  | taken pos => exact Placement.holds_of_mem_settle? h hm

/-! ### What keeps an index packed -/

namespace Packed

open Placement

theorem blank (size : Nat) : Packed (blank size) := by
  intro row hrow
  rw [(Array.mem_replicate.mp hrow).2]
  exact .empty

theorem set (h : Packed rows) (hrow : row.Written) : Packed (rows.setIfInBounds pos row) := by
  intro other hother
  rcases Array.mem_or_eq_of_mem_setIfInBounds hother with hold | rfl
  · exact h other hold
  · exact hrow

theorem of_holds {p : Placement} (h : Packed p.rows) (hp : p.inHand.Written)
    (hrow : p.Holds row) : row.Written := by
  rcases hrow with rfl | hold
  · exact hp
  · exact h row hold

/-- Whether it settles or not, a walk with a proper row in hand writes no other rows. -/
theorem reaches {p q : Placement} {n : Nat} (h : Packed p.rows) (hp : p.inHand.Written)
    (hr : Reaches p n q) : q.inHand.Written ∧ Packed q.rows :=
  ⟨h.of_holds hp (.of_reaches hr (.inl rfl)),
    fun _ hrow ↦ h.of_holds hp (.of_reaches hr (.inr hrow))⟩

theorem place? [WalkLimit] (h : Packed rows) (hnew : (Row.live hash entry).Written)
    (hp : Index.place? rows hash entry pos = some rows') : Packed rows' :=
  fun _ hrow ↦ of_holds (p := start rows hash entry pos) h hnew (holds_of_mem_settle? hp hrow)

theorem fill? [WalkLimit] {spot : Spot} (h : Packed rows) (hnew : (Row.live hash entry).Written)
    (hf : spot.fill? rows hash entry = some rows') : Packed rows' := by
  intro row hrow
  rcases mem_of_mem_fill? hf hrow with rfl | hold
  · exact hnew
  · exact h row hold

end Packed

end Index

end RobinHood
