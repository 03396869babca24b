import RobinHood.Proofs.Map.Merge
import RobinHood.Proofs.Table.Selection

/-!
# Well-formed maps and their equality

A map is well-formed if its table is, for key semantics that are consistent, and has a capacity that
tables may have. It is tidy if in addition no row is a tombstone. Well-formed maps under one key
equality that answer all lookups alike are equal, however they are laid out.
-/

namespace RobinHood

namespace DenseMap

open Table Index

variable {K V : Type}

/-- The key semantics are consistent, the table is well-formed under them, and its capacity is one
that tables may have. -/
structure WellFormed (m : DenseMap K V) : Prop where
  consistent : m.keys.Consistent
  table : m.table.WellFormed m.keys
  capacity_le : m.capacity ≤ maxCapacity

/-- The map is well-formed, and no row of its index is a tombstone. -/
structure Tidy (m : DenseMap K V) : Prop extends m.WellFormed where
  pristine : Pristine m.table.rows

variable {m other : DenseMap K V} {e : K × V} {key key' : K}

theorem size_eq_length (m : DenseMap K V) : m.size = m.entries.toList.length :=
  Array.length_toList.symm

/-- Under one key equality, the keys that have a value in two maps can be counted in either one. -/
theorem SearchableUnder.countP_isSome_comm {eq : K → K → Bool} (hm : m.SearchableUnder eq)
    (ho : other.SearchableUnder eq) :
    m.entries.toList.countP (fun e ↦ (other.get? e.1).isSome) =
      other.entries.toList.countP fun e ↦ (m.get? e.1).isSome := by
  have heq : m.keys.eq = other.keys.eq := hm.keys_eq_eq.trans ho.keys_eq_eq.symm
  simp only [hm.get?_eq_value?, ho.get?_eq_value?]
  rw [← Table.length_shared, ← Table.length_shared, shared_of_eq heq]
  exact length_shared_comm hm.consistent hm.table.distinct
    (distinctKeys_of_eq heq.symm ho.table.distinct)

/-- Maps of which each has a value for each key stored in the other have one size. -/
theorem SearchableUnder.size_eq_of_all_isSome {eq : K → K → Bool} (hm : m.SearchableUnder eq)
    (ho : other.SearchableUnder eq)
    (hmine : ∀ e ∈ m.entries.toList, (other.get? e.1).isSome = true)
    (htheirs : ∀ e ∈ other.entries.toList, (m.get? e.1).isSome = true) : m.size = other.size := by
  have hcount := hm.countP_isSome_comm ho
  rw [List.countP_eq_length.mpr hmine, List.countP_eq_length.mpr htheirs] at hcount
  rw [size_eq_length, size_eq_length, hcount]

/-- Maps that have values for the same keys have one size. -/
theorem SearchableUnder.size_eq_of_isSome {eq : K → K → Bool} (hm : m.SearchableUnder eq)
    (ho : other.SearchableUnder eq)
    (h : ∀ key, (m.get? key).isSome = (other.get? key).isSome) : m.size = other.size := by
  apply hm.size_eq_of_all_isSome ho
  · intro e he
    rw [← h, hm.get?_of_mem he]
    rfl
  · intro e he
    rw [h, ho.get?_of_mem he]
    rfl

namespace WellFormed

theorem size_le (h : m.WellFormed) : m.size ≤ maxCapacity :=
  Nat.le_trans h.table.size_le h.capacity_le

theorem unrepeated (h : m.WellFormed) : Unrepeated m.keys m.entries.toList :=
  h.table.distinct.unrepeated

/-! ### Lookups -/

theorem searchableUnder (h : m.WellFormed) : m.SearchableUnder m.keys.eq :=
  searchableUnder_of_wellFormed h.table h.consistent

theorem getEntry?_eq_find? (h : m.WellFormed) (key : K) :
    m.getEntry? key = m.entries.toList.find? fun e ↦ m.keys.eq key e.1 :=
  h.searchableUnder.getEntry?_eq_find? key

/-- Lookups find the stored entries with equal keys. -/
theorem getEntry?_eq_some_iff (h : m.WellFormed) :
    m.getEntry? key = some e ↔ e ∈ m.entries.toList ∧ m.keys.eq key e.1 = true :=
  h.searchableUnder.getEntry?_eq_some_iff

theorem getEntry?_of_mem (h : m.WellFormed) (he : e ∈ m.entries.toList) :
    m.getEntry? e.1 = some e :=
  h.searchableUnder.getEntry?_of_mem he

theorem get?_of_mem (h : m.WellFormed) (he : e ∈ m.entries.toList) : m.get? e.1 = some e.2 :=
  h.searchableUnder.get?_of_mem he

theorem contains_eq_isSome (h : m.WellFormed) (key : K) :
    m.contains key = (m.get? key).isSome :=
  h.searchableUnder.contains_eq_isSome key

theorem contains_iff (h : m.WellFormed) :
    m.contains key = true ↔ ∃ e ∈ m.entries.toList, m.keys.eq key e.1 = true :=
  h.searchableUnder.contains_iff

theorem length_shared (h : m.WellFormed) (l : List (K × V)) :
    (shared m.keys m.entries l).length = l.countP fun e ↦ m.contains e.1 := by
  rw [Table.length_shared]
  congr 1
  funext e
  rw [h.contains_eq_isSome, get?_eq h.table h.consistent]

end WellFormed

/-! ### Equality -/

/-- Under one key equality, lookups have the same answers in both maps. -/
structure Agrees (m other : DenseMap K V) : Prop where
  keys_eq_eq : m.keys.eq = other.keys.eq
  get?_eq_get? : ∀ key, m.get? key = other.get? key

namespace Agrees

theorem refl (m : DenseMap K V) : m.Agrees m := ⟨rfl, fun _ ↦ rfl⟩

theorem symm (h : m.Agrees other) : other.Agrees m :=
  ⟨h.keys_eq_eq.symm, fun key ↦ (h.get?_eq_get? key).symm⟩

/-- Maps that agree have equally many entries. -/
theorem size_eq (h : m.Agrees other) (hm : m.WellFormed) (ho : other.WellFormed) :
    m.size = other.size := by
  have ho' : other.SearchableUnder m.keys.eq :=
    ⟨h.keys_eq_eq.symm, ho.consistent, ho.table.searchable⟩
  apply hm.searchableUnder.size_eq_of_isSome ho'
  intro key
  rw [h.get?_eq_get?]

end Agrees

/-! ### Every list is the store of a map -/

/-- Entries with different keys are the store of a tidy map, in their order. -/
theorem exists_tidy {keys : KeySemantics K} (hk : keys.Consistent) {l : List (K × V)}
    (hl : Unrepeated keys l) (hlen : l.length ≤ maxCapacity) :
    ∃ m : DenseMap K V, m.Tidy ∧ m.keys = keys ∧ m.entries.toList = l := by
  let row (e : K × V) : Row := .live (scramble (keys.hash e.1)) 0
  have hsnd : (l.map fun e ↦ (row e, e)).map Prod.snd = l := by
    rw [List.map_map]
    exact List.map_id l
  have hlive : ∀ e ∈ l.map fun e ↦ (row e, e), e.1.isLive = true := by
    intro e he
    obtain ⟨e, -, rfl⟩ := List.mem_map.mp he
    exact Row.isLive_live (scramble_ne_zero _) _
  have hhash : ∀ e ∈ l.map fun e ↦ (row e, e), e.1.hash = scramble (keys.hash e.2.1) := by
    intro e he
    obtain ⟨e, -, rfl⟩ := List.mem_map.mp he
    exact Row.hash_live _ _
  obtain ⟨t, -, hwell, hp, hcap, hentries⟩ := exists_wellFormed_ofRows hk hlive hhash
    (by rwa [hsnd]) (Nat.le_of_eq (List.length_map _)) hlen
  refine ⟨⟨t, keys⟩, ⟨⟨hk, hwell, ?_⟩, hp⟩, rfl, hentries.trans hsnd⟩
  change t.capacity ≤ maxCapacity
  rw [hcap]
  exact max_le hlen (by decide)

end DenseMap

end RobinHood
