import RobinHood.Proofs.Table.Store

/-!
# Lists of entries with different keys

Where no two keys of a list are equal, a key picks at most one entry from it, and the order of the
list does not matter to which one that is.
-/

namespace RobinHood

namespace Table

variable {K V : Type} {keys : KeySemantics K}

/-- No key of a list is equal to an earlier one. -/
abbrev Unrepeated (keys : KeySemantics K) (l : List (K × V)) : Prop :=
  l.Pairwise fun a b ↦ keys.eq b.1 a.1 = false

theorem DistinctKeys.unrepeated {entries : Array (K × V)} (h : DistinctKeys keys entries) :
    Unrepeated keys entries.toList := by
  rw [Unrepeated, List.pairwise_iff_getElem]
  intro i j hi hj hlt
  rw [← Bool.not_eq_true]
  intro heq
  have hij := h j i _ _ (Array.getElem?_eq_getElem (by simpa using hj))
    (Array.getElem?_eq_getElem (by simpa using hi)) (by simpa using heq)
  omega

theorem Unrepeated.distinctKeys {entries : Array (K × V)} (hk : keys.Consistent)
    (h : Unrepeated keys entries.toList) : DistinctKeys keys entries := by
  rw [Unrepeated, List.pairwise_iff_getElem] at h
  have hlater (i j : Nat) (a b : K × V) (ha : entries[i]? = some a) (hb : entries[j]? = some b)
      (heq : keys.eq b.1 a.1 = true) : ¬ i < j := by
    intro hlt
    obtain ⟨hi, rfl⟩ := Array.getElem?_eq_some_iff.mp ha
    obtain ⟨hj, rfl⟩ := Array.getElem?_eq_some_iff.mp hb
    have hne := h i j (by simpa using hi) (by simpa using hj) hlt
    simp only [Array.getElem_toList] at hne
    rw [hne] at heq
    cases heq
  intro i j a b ha hb heq
  have h1 := hlater i j a b ha hb (hk.symm _ _ heq)
  have h2 := hlater j i b a hb ha heq
  omega

theorem Unrepeated.perm {l l' : List (K × V)} (hk : keys.Consistent) (h : Unrepeated keys l)
    (hp : l'.Perm l) : Unrepeated keys l' := by
  refine (hp.pairwise_iff fun {a b} hab ↦ ?_).mpr h
  rw [← Bool.not_eq_true] at hab ⊢
  exact fun hba ↦ hab (hk.symm _ _ hba)

/-- Without repetitions, the only entry of a list with a given key is the one that is found. -/
theorem Unrepeated.filter_eq {l : List (K × V)} (hk : keys.Consistent) (h : Unrepeated keys l)
    (key : K) : l.filter (fun e ↦ keys.eq key e.1) = (l.find? fun e ↦ keys.eq key e.1).toList := by
  induction l with
  | nil => rfl
  | cons e l ih =>
    obtain ⟨hfirst, hrest⟩ := List.pairwise_cons.mp h
    rw [List.find?_cons, List.filter_cons]
    cases he : keys.eq key e.1 with
    | false => exact ih hrest
    | true =>
      have hnone : l.filter (fun e ↦ keys.eq key e.1) = [] := by
        rw [List.filter_eq_nil_iff]
        intro e' he' heq
        have hne := hfirst e' he'
        rw [hk.trans _ _ _ (hk.symm _ _ heq) he] at hne
        cases hne
      rw [hnone]
      rfl

/-- Without repetitions, an entry of a list is found under all keys equal to its own. -/
theorem Unrepeated.find?_eq_some_iff {l : List (K × V)} {key : K} {e : K × V}
    (hk : keys.Consistent) (h : Unrepeated keys l) :
    (l.find? fun e ↦ keys.eq key e.1) = some e ↔ e ∈ l ∧ keys.eq key e.1 = true := by
  rw [← Option.mem_toList, ← h.filter_eq hk, List.mem_filter]

/-- The value of a key in a list of entries. -/
def listed? (keys : KeySemantics K) (l : List (K × V)) (key : K) : Option V :=
  (l.find? fun e ↦ keys.eq key e.1).map Prod.snd

/-- Without repetitions, a key picks at most one value from a list. -/
theorem Unrepeated.filterMap_eq {l : List (K × V)} (hk : keys.Consistent)
    (h : Unrepeated keys l) (key : K) :
    l.filterMap (fun e ↦ if keys.eq key e.1 then some e.2 else none) =
      (listed? keys l key).toList := by
  rw [← List.filterMap_filter, h.filter_eq hk, listed?]
  cases l.find? fun e ↦ keys.eq key e.1 with
  | none => rfl
  | some e => rfl

/-- At most one element has one order only. -/
theorem eq_toList_of_perm {α : Type} {l : List α} {o : Option α} (h : l.Perm o.toList) :
    l = o.toList := by
  cases o with
  | none => exact List.perm_nil.mp h
  | some a => exact List.perm_singleton.mp h

/-- Without repetitions, the order of a list does not matter to what is found. -/
theorem Unrepeated.listed?_perm {l l' : List (K × V)} (hk : keys.Consistent)
    (h : Unrepeated keys l) (hp : l'.Perm l) (key : K) :
    listed? keys l' key = listed? keys l key := by
  have hsame : (listed? keys l' key).toList = (listed? keys l key).toList := by
    apply eq_toList_of_perm
    rw [← (h.perm hk hp).filterMap_eq hk, ← h.filterMap_eq hk]
    exact hp.filterMap _
  simpa using congrArg List.head? hsame

theorem listed?_toList (entries : Array (K × V)) (key : K) :
    listed? keys entries.toList key = value? keys entries key := by
  rw [value?_eq_find?, listed?, Array.find?_toList]

end Table

end RobinHood
