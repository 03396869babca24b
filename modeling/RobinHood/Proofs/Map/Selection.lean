import RobinHood.Proofs.Map.Union

/-!
# Intersections and differences of maps

The intersection and the difference of a well-formed map with any other map divide its entries by
whether the other map holds their keys. What the other map calls equal decides how the entries are
divided, and nothing else: both parts are tidy under the key semantics of the map that they are
taken from, and their union is that map again.
-/

namespace RobinHood

namespace DenseMap

open Table

variable {K V W : Type} {m r inside outside : DenseMap K V} {p q : K × V → Bool} {e : K × V}

/-- The entries in the order of the rows that stand for them. -/
def rowOrder (m : DenseMap K V) : List (K × V) := m.table.entriesByRow.map Prod.snd

theorem WellFormed.rowOrder_perm (h : m.WellFormed) : m.rowOrder.Perm m.entries.toList :=
  h.table.entriesByRow_perm

/-- What taking the entries with a property out of a map makes. -/
structure SelectionOf (p : K × V → Bool) (m r : DenseMap K V) : Prop where
  tidy : r.Tidy
  keys_eq : r.keys = m.keys
  entries_eq : r.entries.toList = m.rowOrder.filter p

namespace SelectionOf

theorem mem_iff (h : SelectionOf p m r) (hm : m.WellFormed) :
    e ∈ r.entries.toList ↔ e ∈ m.entries.toList ∧ p e = true := by
  rw [h.entries_eq, List.mem_filter, hm.rowOrder_perm.mem_iff]

/-- A selection finds what the map finds, where it has the property. -/
theorem getEntry?_eq_filter (h : SelectionOf p m r) (hm : m.WellFormed) (key : K) :
    r.getEntry? key = (m.getEntry? key).filter p := by
  ext e
  rw [h.tidy.getEntry?_eq_some_iff, h.mem_iff hm, h.keys_eq, Option.filter_eq_some_iff,
    hm.getEntry?_eq_some_iff]
  exact and_right_comm

theorem get?_of_mem (h : SelectionOf p m r) (hm : m.WellFormed) (he : e ∈ m.entries.toList) :
    r.get? e.1 = if p e then some e.2 else none := by
  rw [get?, h.getEntry?_eq_filter hm, hm.getEntry?_of_mem he, Option.filter_some]
  split
  · rfl
  · rfl

end SelectionOf

end DenseMap

end RobinHood
