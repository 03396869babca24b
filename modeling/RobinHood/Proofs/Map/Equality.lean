import RobinHood.Proofs.Map.Tidy

/-!
# Equality of maps

Two maps are compared by their sizes and by looking the entries of the first up in the second. Among
maps that can be searched under one key equality this is agreement of all lookups: no entry of the
second is left over, as stored keys differ and there are equally many on both sides. So equality is
an equivalence that depends on which entries there are, and on nothing else.
-/

namespace RobinHood

namespace DenseMap

open Table

variable {K V : Type} {eq : K → K → Bool} {m m' other : DenseMap K V} {e : K × V}

/-! ### Answers of lookups -/

/-- With an equality of values, that of answers is an equivalence. -/
instance [BEq V] [EquivBEq V] : EquivBEq (Option V) where
  symm {a b} h := by
    cases a with
    | none =>
      cases b with
      | none => rfl
      | some b => cases h
    | some a =>
      cases b with
      | none => cases h
      | some b => exact BEq.symm (a := a) h
  trans {a b c} h h' := by
    cases a with
    | none =>
      cases b with
      | none => exact h'
      | some b => cases h
    | some a =>
      cases b with
      | none => cases h
      | some b =>
        cases c with
        | none => cases h'
        | some c => exact BEq.trans (a := a) (b := b) h h'

private theorem isSome_eq_of_beq [BEq V] {a b : Option V} (h : (a == b) = true) :
    a.isSome = b.isSome := by
  cases a with
  | none =>
    cases b with
    | none => rfl
    | some b => cases h
  | some a =>
    cases b with
    | none => cases h
    | some b => rfl

/-! ### One comparison -/

/-- What a comparison looks at. -/
theorem beq_eq_true_iff [BEq V] : (m == other) = true ↔
    m.size = other.size ∧ ∀ e ∈ m.entries.toList, (other.get? e.1 == some e.2) = true := by
  have hany (e : K × V) : (other.get? e.1 == some e.2) = (other.get? e.1).any (· == e.2) := by
    cases other.get? e.1 with
    | none => rfl
    | some v => rfl
  change (m.size == other.size && m.entries.all fun e ↦ (other.get? e.1).any (· == e.2)) = true ↔ _
  rw [Bool.and_eq_true, beq_iff_eq, ← Array.all_toList, List.all_eq_true]
  simp only [hany]

namespace SearchableUnder

/-- If each key of a map has a value in a map of the same size, each key of that one has a value in
the first. -/
theorem isSome_get?_of_size_eq (hm : m.SearchableUnder eq) (ho : other.SearchableUnder eq)
    (hsize : m.size = other.size) (hall : ∀ e ∈ m.entries.toList, (other.get? e.1).isSome = true)
    (he : e ∈ other.entries.toList) : (m.get? e.1).isSome = true := by
  have hcount := hm.countP_isSome_comm ho
  rw [List.countP_eq_length.mpr hall, ← size_eq_length, hsize, size_eq_length] at hcount
  exact List.countP_eq_length.mp hcount.symm e he

/-- Maps are equal exactly if all their lookups agree up to equality of values. -/
theorem beq_iff_get?_beq [BEq V] [EquivBEq V] (hm : m.SearchableUnder eq)
    (ho : other.SearchableUnder eq) :
    (m == other) = true ↔ ∀ key, (m.get? key == other.get? key) = true := by
  rw [beq_eq_true_iff]
  constructor
  · rintro ⟨hsize, hall⟩ key
    cases hkey : m.getEntry? key with
    | some e =>
      obtain ⟨he, heq⟩ := hm.getEntry?_eq_some_iff.mp hkey
      rw [hm.keys_eq_eq] at heq
      rw [hm.get?_congr heq, ho.get?_congr heq, hm.get?_of_mem he]
      exact BEq.symm (hall e he)
    | none =>
      have hnone : m.get? key = none := by rw [get?, hkey, Option.map_none]
      have hsome : ∀ e ∈ m.entries.toList, (other.get? e.1).isSome = true :=
        fun e he ↦ isSome_eq_of_beq (hall e he)
      cases hother : other.get? key with
      | none =>
        rw [hnone]
        rfl
      | some v =>
        -- The entry of the other map for this key has a key that is stored in the first map.
        obtain ⟨e, he, heq⟩ := ho.isSome_get?_iff.mp (by rw [hother]; rfl)
        rw [ho.keys_eq_eq] at heq
        have hstored := hm.isSome_get?_of_size_eq ho hsize hsome he
        rw [← hm.get?_congr heq, hnone] at hstored
        cases hstored
  · intro h
    refine ⟨hm.size_eq_of_isSome ho fun key ↦ isSome_eq_of_beq (h key), fun e he ↦ ?_⟩
    have hagree := h e.1
    rw [hm.get?_of_mem he] at hagree
    exact BEq.symm hagree

/-- Lookups depend on which entries there are, and not on their order. -/
theorem get?_eq_of_perm (hm : m.SearchableUnder eq) (hm' : m'.SearchableUnder eq)
    (hp : m'.entries.toList.Perm m.entries.toList) (key : K) : m'.get? key = m.get? key := by
  have heq : m.keys.eq = m'.keys.eq := hm.keys_eq_eq.trans hm'.keys_eq_eq.symm
  rw [hm.get?_eq_value?, hm'.get?_eq_value?, value?_of_eq heq, ← listed?_toList, ← listed?_toList]
  exact hm.unrepeated.listed?_perm hm.consistent hp key

end SearchableUnder

/-- Under one key equality, and up to an equality of values that is an equivalence, searchable maps
are equal exactly if the lookups of each key agree. Equality is therefore an equivalence, and two
maps with the same entries are equal to the same maps, whatever the order of the entries, the
hashes, the layouts of the rows, the tombstones and the capacities are. -/
theorem beq_iff_lookups_agree [BEq V] [EquivBEq V] (eq : K → K → Bool) :
    (∀ m other : DenseMap K V, m.SearchableUnder eq → other.SearchableUnder eq →
      ((m == other) = true ↔ ∀ key, (m.get? key == other.get? key) = true)) ∧
    (Equivalence fun m other : { m : DenseMap K V // m.SearchableUnder eq } ↦
      (m.1 == other.1) = true) ∧
    ∀ m m' other : DenseMap K V, m.SearchableUnder eq → m'.SearchableUnder eq →
      other.SearchableUnder eq → m'.entries.toList.Perm m.entries.toList →
        (m' == other) = (m == other) ∧ (other == m') = (other == m) := by
  refine ⟨fun m other hm ho ↦ hm.beq_iff_get?_beq ho, ⟨?_, ?_, ?_⟩, ?_⟩
  · intro m
    rw [m.2.beq_iff_get?_beq m.2]
    exact fun key ↦ BEq.refl _
  · intro m other h
    rw [m.2.beq_iff_get?_beq other.2] at h
    rw [other.2.beq_iff_get?_beq m.2]
    exact fun key ↦ BEq.symm (h key)
  · intro m other third h h'
    rw [m.2.beq_iff_get?_beq other.2] at h
    rw [other.2.beq_iff_get?_beq third.2] at h'
    rw [m.2.beq_iff_get?_beq third.2]
    exact fun key ↦ BEq.trans (h key) (h' key)
  · intro m m' other hm hm' ho hp
    have hget := hm.get?_eq_of_perm hm' hp
    constructor
    · rw [Bool.eq_iff_iff, hm'.beq_iff_get?_beq ho, hm.beq_iff_get?_beq ho]
      simp only [hget]
    · rw [Bool.eq_iff_iff, ho.beq_iff_get?_beq hm', ho.beq_iff_get?_beq hm]
      simp only [hget]

/-- The theorem at a table without an empty row and one that was just filled, in the other order and
under other hashes: they are equal either way round, and so every lookup has the same answer. -/
theorem beq_iff_lookups_agree_in_crowded : ∃ m : DenseMap Nat Nat,
    m.entries.toList = [(72, 2), (70, 0)] ∧ (m == ⟨crowded, tens⟩) = true ∧
      ((⟨crowded, tens⟩ : DenseMap Nat Nat) == m) = true ∧
      ∀ key, ((⟨crowded, tens⟩ : DenseMap Nat Nat).get? key == m.get? key) = true := by
  obtain ⟨m, htidy, hkeys, hentries⟩ := exists_tidy (KeySemantics.consistent_beq Nat.toUInt64)
    (l := [(72, 2), (70, 0)]) (by decide) (by decide)
  obtain ⟨hagree, hequiv, hperm⟩ := beq_iff_lookups_agree (V := Nat) fun a b : Nat ↦ a == b
  have hm : m.SearchableUnder fun a b : Nat ↦ a == b := by
    have h := htidy.searchableUnder
    rwa [hkeys] at h
  have hc : (⟨crowded, tens⟩ : DenseMap Nat Nat).SearchableUnder fun a b ↦ a == b :=
    ⟨rfl, KeySemantics.consistent_beq _, crowded_searchable⟩
  have hsame : m.entries.toList.Perm (⟨crowded, tens⟩ : DenseMap Nat Nat).entries.toList := by
    rw [hentries]
    exact List.Perm.swap _ _ _
  obtain ⟨hleft, hright⟩ := hperm _ m _ hc hm hc hsame
  have hself := hequiv.refl ⟨_, hc⟩
  have hto := hright.trans hself
  exact ⟨m, hentries, hleft.trans hself, hto, (hagree _ m hc hm).mp hto⟩

end DenseMap

end RobinHood
