import Mathlib.Tactic.TFAE
import RobinHood.Proofs.Map.Equality
import RobinHood.Proofs.Table.Reachable
import RobinHood.Set.Basic

/-!
# Inclusion and disjointness

Whether all keys of a map, or none of them, are held by another one can be asked in several ways:
directly, by taking a difference or an intersection and counting what is left, or by looking up the
stored keys one by one. Some of these walk the rows and others the store. They agree on every table
that programs can get hold of, whatever the key semantics are, as rows list every entry once.
Which of two sets is asked about the other matters in general; it does not if both can be searched
under one equality.
-/

namespace RobinHood

namespace DenseMap

open Table

variable {K V W : Type} {m : DenseMap K V} {other : DenseMap K W}

/-! ### Tests on the rows and on the store -/

/-- Subsets are tested row by row, which is as good as entry by entry. -/
theorem isSubset_iff (h : m.table.Paired) :
    m.isSubset other = true ↔ ∀ e ∈ m.entries.toList, other.contains e.1 = true := by
  have hperm := h.entriesByRow_perm
  unfold isSubset Table.isSubset
  rw [List.all_eq_true, entries]
  simp only [← hperm.mem_iff, List.mem_map, forall_exists_index, and_imp,
    forall_apply_eq_imp_iff₂]
  rfl

/-- Selecting entries of a map that a program gets hold of never fails, and keeps as many as there
are entries with keys that the other map holds, or does not hold. -/
theorem exists_select_of_built (h : m.table.Built) (other : DenseMap K W) (found : Bool) :
    ∃ r, m.select other found = .ok r ∧
      r.size = m.entries.toList.countP fun e ↦ other.contains e.1 == found := by
  have hlen := h.indexed.length_entriesByRow
  obtain ⟨t, hok, -, hentries, -⟩ := Built.ofRows
    (List.filter_sublist (p := fun e ↦ other.contains e.2.1 == found))
    (Nat.le_trans (List.length_filter_le _ _) (Nat.le_of_eq hlen)) h.size_le
  have hcount := h.indexed.entriesByRow_perm.countP_eq fun e ↦ other.contains e.1 == found
  rw [List.countP_map] at hcount
  refine ⟨⟨t, m.keys⟩, bind_eq_ok_iff.mpr ⟨t, hok, rfl⟩, ?_⟩
  rw [size, Table.size, ← Array.length_toList, hentries, List.length_map,
    ← List.countP_eq_length_filter]
  exact hcount

/-- A selection is empty, or is everything, exactly if all stored keys are answered alike. -/
theorem exists_select_iff (h : m.table.Built) (other : DenseMap K W) (found : Bool) :
    ∃ r, m.select other found = .ok r ∧
      (r.isEmpty = true ↔ ∀ e ∈ m.entries.toList, other.contains e.1 = !found) ∧
      (r.size = m.size ↔ ∀ e ∈ m.entries.toList, other.contains e.1 = found) := by
  obtain ⟨r, hok, hsize⟩ := exists_select_of_built h other found
  refine ⟨r, hok, ?_, ?_⟩
  · have hempty : r.isEmpty = true ↔ r.size = 0 := Array.isEmpty_iff_size_eq_zero
    rw [hempty, hsize, List.countP_eq_zero]
    simp only [beq_iff_eq, Bool.eq_not, ne_eq]
  · rw [hsize, size_eq_length, List.countP_eq_length]
    simp only [beq_iff_eq]

/-! ### Both ways round -/

/-- Searchable maps whose values say nothing are equal exactly if each is a subset of the other. -/
theorem SearchableUnder.beq_iff_subsets {eq : K → K → Bool} {a b : DenseMap K Unit}
    (ha : a.SearchableUnder eq) (hb : b.SearchableUnder eq) :
    (a == b) = true ↔ a.isSubset b = true ∧ b.isSubset a = true := by
  rw [beq_eq_true_iff, isSubset_iff ha.table.paired, isSubset_iff hb.table.paired]
  simp only [ha.contains_eq_isSome, hb.contains_eq_isSome]
  have hvalue (v : Option Unit) : (v == some ()) = v.isSome := by
    cases v with
    | none => rfl
    | some _ => rfl
  simp only [hvalue]
  constructor
  · rintro ⟨hsize, hall⟩
    exact ⟨hall, fun e he ↦ ha.isSome_get?_of_size_eq hb hsize hall he⟩
  · rintro ⟨hmine, htheirs⟩
    exact ⟨ha.size_eq_of_all_isSome hb hmine htheirs, hmine⟩

end DenseMap

namespace DenseSet

open Table

variable {T : Type} {eq : T → T → Bool} {s other : DenseSet T}

/-- Sets are disjoint if no stored element is found in the other one. -/
theorem isDisjoint_iff :
    s.isDisjoint other = true ↔ ∀ e ∈ s.map.entries.toList, other.contains e.1 = false := by
  unfold isDisjoint elements
  rw [Bool.not_eq_true', ← Array.any_toList, Array.toList_map, List.any_map, List.any_eq_false]
  simp only [Function.comp_apply, Bool.not_eq_true]

/-- If the other set can be searched, no two of the stored elements are equal. -/
theorem isDisjoint_iff_eq_false (ho : other.map.SearchableUnder eq) :
    s.isDisjoint other = true ↔
      ∀ e ∈ s.map.entries.toList, ∀ e' ∈ other.map.entries.toList, eq e.1 e'.1 = false := by
  rw [isDisjoint_iff]
  have hfalse (element : T) : other.contains element = false ↔
      ∀ e' ∈ other.map.entries.toList, eq element e'.1 = false := by
    rw [← Bool.not_eq_true, contains, ho.contains_iff, ho.keys_eq_eq]
    simp
  simp only [hfalse]

/-- Among sets that can be searched under one equality it does not matter which one is asked. -/
theorem isDisjoint_comm (hs : s.map.SearchableUnder eq) (ho : other.map.SearchableUnder eq) :
    s.isDisjoint other = other.isDisjoint s := by
  have hsymm (a b : T) : eq a b = false ↔ eq b a = false := by
    have hk := hs.consistent.symm
    rw [hs.keys_eq_eq] at hk
    rw [← Bool.not_eq_true, ← Bool.not_eq_true, not_iff_not]
    exact ⟨hk a b, hk b a⟩
  rw [Bool.eq_iff_iff, isDisjoint_iff_eq_false ho, isDisjoint_iff_eq_false hs]
  constructor
  · intro h e he e' he'
    exact (hsymm _ _).mp (h e' he' e he)
  · intro h e he e' he'
    exact (hsymm _ _).mp (h e' he' e he)

/-- On maps that a program gets hold of, the tests for inclusion are one: the subset test from
either side, the difference being empty, the intersection having all entries, and looking up every
stored key. On sets, so are the tests for disjointness: none of this depends on the key semantics,
which may contradict themselves and each other. Where both sets can be searched under one equality,
each with hashes in line with it, disjointness is symmetric, and being subsets of each other is
being equal. -/
theorem inclusion_tests_agree :
    (∀ {K V W : Type} (m : DenseMap K V) (other : DenseMap K W), Reachable m.table →
      ∃ d i, m.difference other = .ok d ∧ m.intersection other = .ok i ∧
        List.TFAE [m.isSubset other = true, other.containsAll m = true, d.isEmpty = true,
          i.size = m.size, ∀ e ∈ m.entries.toList, other.contains e.1 = true]) ∧
    (∀ {T : Type} (s other : DenseSet T), Reachable s.map.table →
      ∃ d i, s.difference other = .ok d ∧ s.intersection other = .ok i ∧
        List.TFAE [s.isDisjoint other = true, i.isEmpty = true, d.size = s.size]) ∧
    ∀ {T : Type} (eq : T → T → Bool) (s other : DenseSet T),
      s.map.SearchableUnder eq → other.map.SearchableUnder eq →
        s.isDisjoint other = other.isDisjoint s ∧
        ((s.isSubset other = true ∧ other.isSubset s = true) ↔ (s == other) = true) := by
  refine ⟨?_, ?_, ?_⟩
  · intro K V W m other hm
    obtain ⟨d, hd, hdempty, -⟩ := DenseMap.exists_select_iff hm.built other false
    obtain ⟨i, hi, -, hisize⟩ := DenseMap.exists_select_iff hm.built other true
    refine ⟨d, i, hd, hi, ?_⟩
    tfae_have 1 ↔ 2 := Iff.rfl
    tfae_have 1 ↔ 5 := DenseMap.isSubset_iff hm.built.indexed.paired
    tfae_have 3 ↔ 5 := hdempty
    tfae_have 4 ↔ 5 := hisize
    tfae_finish
  · intro T s other hs
    obtain ⟨d, hd, -, hdsize⟩ := DenseMap.exists_select_iff hs.built other.map false
    obtain ⟨i, hi, hiempty, -⟩ := DenseMap.exists_select_iff hs.built other.map true
    refine ⟨⟨d⟩, ⟨i⟩, bind_eq_ok_iff.mpr ⟨d, hd, rfl⟩, bind_eq_ok_iff.mpr ⟨i, hi, rfl⟩, ?_⟩
    tfae_have 2 ↔ 1 := hiempty.trans isDisjoint_iff.symm
    tfae_have 3 ↔ 1 := hdsize.trans isDisjoint_iff.symm
    tfae_finish
  · intro T eq s other hs ho
    exact ⟨isDisjoint_comm hs ho, (hs.beq_iff_subsets ho).symm⟩

/-- Numbers count as one if they have the same tens. -/
private def sameTens (hash : Nat → UInt64) : KeySemantics Nat :=
  .ofFunctions hash fun a b ↦ a / 10 == b / 10

/-- What inserting numbers into an empty table makes of it. -/
private def madeOf (hash : Nat → UInt64) (elements : List Nat) :
    Except (Halt (Table Nat Unit)) (Table Nat Unit) :=
  elements.foldlM (fun t element ↦ do
    return (← t.insertWith (hash element) element () (sameTens hash).eq fun _ new ↦ new).2)
    (.blank 4)

private theorem reachable_of_madeOf {hash : Nat → UInt64} {elements : List Nat}
    {t : Table Nat Unit} (h : madeOf hash elements = .ok t) : Reachable t := by
  have hblank : Table.withCapacity 4 = .ok (.blank 4 : Table Nat Unit) := rfl
  refine foldlM_keeps (P := Reachable) ?_ (.withCapacity hblank) h
  intro t element _ t' ht hinsert
  obtain ⟨⟨answer, t''⟩, hi, hok⟩ := bind_eq_ok_iff.mp hinsert
  cases hok
  exact ht.insertWith hi

/-- Three numbers that are hashed by their tens. -/
private def lower : DenseSet Nat where
  map :=
    { table :=
        { rows := #[.live 8 1, .live 9 2, .empty, .empty, .empty, .empty, .empty, .live 7 0]
          entries := #[(71, ()), (85, ()), (93, ())]
          capacity := 4
          indexMask := 7 }
      keys := sameTens fun k ↦ (k / 10).toUInt64 }

/-- Numbers of the same tens in another order, which are hashed by one more than their tens. -/
private def upper : DenseSet Nat where
  map :=
    { table :=
        { rows := #[.live 8 0, .live 9 2, .live 10 1, .empty, .empty, .empty, .empty, .empty]
          entries := #[(72, ()), (91, ()), (88, ())]
          capacity := 4
          indexMask := 7 }
      keys := sameTens fun k ↦ (k / 10 + 1).toUInt64 }

/-- Two numbers that are hashed by their last digit, out of line with the equality. -/
private def stray : DenseSet Nat where
  map :=
    { table :=
        { rows := #[.empty, .empty, .live 2 0, .empty, .empty, .empty, .live 6 1, .empty]
          entries := #[(72, ()), (86, ())]
          capacity := 4
          indexMask := 7 }
      keys := sameTens fun k ↦ (k % 10).toUInt64 }

private theorem lower_reachable : Reachable lower.map.table := by
  have hmade : madeOf (fun k ↦ (k / 10).toUInt64) [71, 85, 93] = .ok lower.map.table := by
    decide +kernel
  exact reachable_of_madeOf hmade

private theorem stray_reachable : Reachable stray.map.table := by
  have hmade : madeOf (fun k ↦ (k % 10).toUInt64) [72, 86] = .ok stray.map.table := by
    decide +kernel
  exact reachable_of_madeOf hmade

private theorem lower_searchable : lower.map.SearchableUnder fun a b ↦ a / 10 == b / 10 := by
  have hk := KeySemantics.consistent_on (fun k ↦ k / 10) Nat.toUInt64
  exact ⟨rfl, hk, by decide +kernel, by decide +kernel, Unrepeated.distinctKeys hk (by decide),
    by decide +kernel⟩

private theorem upper_searchable : upper.map.SearchableUnder fun a b ↦ a / 10 == b / 10 := by
  have hk := KeySemantics.consistent_on (fun k : Nat ↦ k / 10) fun n ↦ (n + 1).toUInt64
  exact ⟨rfl, hk, by decide +kernel, by decide +kernel, Unrepeated.distinctKeys hk (by decide),
    by decide +kernel⟩

/-- The theorem at sets of two and three numbers. The one whose hash is out of line is a subset of
the first set, and yet the first set is disjoint from it; the other two are equal. -/
theorem inclusion_tests_agree_for_numbers :
    (∃ d, stray.map.difference lower.map = .ok d ∧ d.isEmpty = true) ∧
    (∃ d, lower.difference stray = .ok d ∧ d.size = lower.size) ∧
    lower.isDisjoint upper = upper.isDisjoint lower ∧
    lower.isSubset upper = true ∧ upper.isSubset lower = true := by
  obtain ⟨hmaps, hsets, hboth⟩ := inclusion_tests_agree
  obtain ⟨d, _, hd, -, hincluded⟩ := hmaps stray.map lower.map stray_reachable
  obtain ⟨d', _, hd', -, hdisjoint⟩ := hsets lower stray lower_reachable
  obtain ⟨hcomm, hequal⟩ := hboth _ lower upper lower_searchable upper_searchable
  have hsubset : stray.map.isSubset lower.map = true := by decide +kernel
  have hapart : lower.isDisjoint stray = true := by decide +kernel
  have hbeq : (lower == upper) = true := by decide +kernel
  exact ⟨⟨d, hd, (hincluded.out 0 2).mp hsubset⟩, ⟨d', hd', (hdisjoint.out 0 2).mp hapart⟩, hcomm,
    hequal.mpr hbeq⟩

/-- Disjointness is not symmetric if one of the hashes is out of line with the equality, although
both sets store each element under its own hash, in reach of a walk from its home. -/
theorem isDisjoint_depends_on_order : ∃ s other : DenseSet Nat,
    Reachable s.map.table ∧ Reachable other.map.table ∧
    (Equivalence fun a b ↦ s.map.keys.eq a b = true) ∧ other.map.keys.eq = s.map.keys.eq ∧
    s.map.table.Searchable s.map.keys ∧ other.map.table.Searchable other.map.keys ∧
    s.isDisjoint other = true ∧ other.isDisjoint s = false := by
  have hk := lower_searchable.consistent
  have hdistinct : DistinctKeys lower.map.keys stray.map.entries :=
    Unrepeated.distinctKeys hk (by decide)
  refine ⟨lower, stray, lower_reachable, stray_reachable,
    ⟨hk.refl, hk.symm _ _, hk.trans _ _ _⟩, rfl, lower_searchable.table, ?_, by decide +kernel,
    by decide +kernel⟩
  exact ⟨by decide +kernel, by decide +kernel, hdistinct, by decide +kernel⟩

end DenseSet

end RobinHood
