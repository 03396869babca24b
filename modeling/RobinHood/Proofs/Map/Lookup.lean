import RobinHood.Map.Basic
import RobinHood.Proofs.Table.WellFormed

/-!
# Lookups in maps

The lookups of a map are searches through its entries, as soon as its key semantics are consistent
and its table is searchable. How much room the map has does not matter to them.
-/

namespace RobinHood

namespace DenseMap

open Table

variable {K V : Type} {m : DenseMap K V} {eq : K → K → Bool} {e : K × V} {key key' : K}

/-- The map compares keys by `eq`, hashes them in line with that, and can be searched. -/
structure SearchableUnder (eq : K → K → Bool) (m : DenseMap K V) : Prop where
  keys_eq_eq : m.keys.eq = eq
  consistent : m.keys.Consistent
  table : m.table.Searchable m.keys

namespace SearchableUnder

theorem unrepeated (h : m.SearchableUnder eq) : Unrepeated m.keys m.entries.toList :=
  h.table.distinct.unrepeated

theorem getEntry?_eq (h : m.SearchableUnder eq) (key : K) :
    m.getEntry? key = (position? m.keys m.entries key).bind fun entry ↦ m.entries[entry]? := by
  unfold getEntry? find?
  rw [h.table.find?_eq h.consistent]
  rfl

theorem get?_eq_value? (h : m.SearchableUnder eq) (key : K) :
    m.get? key = value? m.keys m.entries key := by
  rw [get?, h.getEntry?_eq, Option.map_bind]
  rfl

theorem getEntry?_eq_find? (h : m.SearchableUnder eq) (key : K) :
    m.getEntry? key = m.entries.toList.find? fun e ↦ m.keys.eq key e.1 := by
  rw [h.getEntry?_eq, Array.find?_toList, Array.find?_eq_bind_findIdx?_getElem?]
  rfl

/-- Lookups find the stored entries with equal keys. -/
theorem getEntry?_eq_some_iff (h : m.SearchableUnder eq) :
    m.getEntry? key = some e ↔ e ∈ m.entries.toList ∧ m.keys.eq key e.1 = true := by
  rw [h.getEntry?_eq_find?]
  exact h.unrepeated.find?_eq_some_iff h.consistent

theorem getEntry?_of_mem (h : m.SearchableUnder eq) (he : e ∈ m.entries.toList) :
    m.getEntry? e.1 = some e :=
  h.getEntry?_eq_some_iff.mpr ⟨he, h.consistent.refl _⟩

theorem get?_of_mem (h : m.SearchableUnder eq) (he : e ∈ m.entries.toList) :
    m.get? e.1 = some e.2 := by
  rw [get?, h.getEntry?_of_mem he]
  rfl

/-- A value is found for the keys that are equal to a stored one. -/
theorem isSome_get?_iff (h : m.SearchableUnder eq) :
    (m.get? key).isSome = true ↔ ∃ e ∈ m.entries.toList, m.keys.eq key e.1 = true := by
  rw [get?, Option.isSome_map, Option.isSome_iff_exists]
  exact exists_congr fun e ↦ h.getEntry?_eq_some_iff

/-- Keys are held that have a value. -/
theorem contains_eq_isSome (h : m.SearchableUnder eq) (key : K) :
    m.contains key = (m.get? key).isSome := by
  rw [h.get?_eq_value?, contains, find?, h.table.find?_eq h.consistent, Bool.eq_iff_iff,
    Option.isSome_iff_ne_none, Option.isSome_iff_ne_none, ne_eq, ne_eq, value?_eq_none_iff]
  rfl

theorem contains_iff (h : m.SearchableUnder eq) :
    m.contains key = true ↔ ∃ e ∈ m.entries.toList, m.keys.eq key e.1 = true := by
  rw [h.contains_eq_isSome]
  exact h.isSome_get?_iff

/-- Equal keys have one value. -/
theorem get?_congr (h : m.SearchableUnder eq) (heq : eq key key' = true) :
    m.get? key = m.get? key' := by
  rw [← h.keys_eq_eq] at heq
  rw [h.get?_eq_value?, h.get?_eq_value?, value?_congr h.consistent heq]

end SearchableUnder

/-- A map whose table is well-formed can be searched. -/
theorem searchableUnder_of_wellFormed (h : m.table.WellFormed m.keys) (hk : m.keys.Consistent) :
    m.SearchableUnder m.keys.eq :=
  ⟨rfl, hk, h.searchable⟩

theorem get?_eq (h : m.table.WellFormed m.keys) (hk : m.keys.Consistent) (key : K) :
    m.get? key = value? m.keys m.entries key :=
  (searchableUnder_of_wellFormed h hk).get?_eq_value? key

end DenseMap

end RobinHood
