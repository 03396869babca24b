import RobinHood.Proofs.Table.Store

/-!
# Pairs put over a list of entries

What putting pairs one by one does to a list of entries can be told from the list and the pairs as
a whole. The entries stay in their places, the pairs whose keys have no entry follow in the order in
which those keys come first, and each key has the value that comes last. One pair more or less at
the front is one insertion into the list, so that any number of pairs is that many insertions.
-/

namespace RobinHood

open Table

namespace EntryList

variable {K V : Type}

/-- The value that comes last for a key. -/
def lastValue? (eq : K → K → Bool) (pairs : List (K × V)) (key : K) : Option V :=
  (pairs.findRev? fun pair ↦ eq key pair.1).map Prod.snd

/-- The first pair of each key that has no entry, in the order of the pairs. -/
def newcomers (eq : K → K → Bool) (entries pairs : List (K × V)) : List (K × V) :=
  (pairs.filter fun pair ↦ entries.all fun e ↦ !eq pair.1 e.1).eraseDupsBy fun a b ↦ eq a.1 b.1

/-- The entry with the value that comes last for its key, or with its own. -/
def revalue (eq : K → K → Bool) (pairs : List (K × V)) (e : K × V) : K × V :=
  (e.1, (lastValue? eq pairs e.1).getD e.2)

/-- The entries and the pairs with new keys, each key with the value that comes last for it. -/
def overlay (eq : K → K → Bool) (entries pairs : List (K × V)) : List (K × V) :=
  (entries ++ newcomers eq entries pairs).map (revalue eq pairs)

variable {eq : K → K → Bool} {entries pairs : List (K × V)} {pair e : K × V}

/-! ### No pairs, and one pair more -/

theorem overlay_nil : overlay eq entries [] = entries := by
  have hnone : newcomers eq entries [] = [] := rfl
  rw [overlay, hnone, List.append_nil]
  exact List.map_id entries

theorem length_le_length_overlay : entries.length ≤ (overlay eq entries pairs).length := by
  simp [overlay]

/-- Later pairs go over earlier ones. -/
theorem revalue_cons : revalue eq (pair :: pairs) e = revalue eq pairs (revalue eq [pair] e) := by
  unfold revalue lastValue?
  rw [List.findRev?]
  cases pairs.findRev? fun pair ↦ eq e.1 pair.1 with
  | none => rfl
  | some last => rfl

/-- A pair goes over entries of its own key only. -/
theorem revalue_singleton_of_ne (h : eq e.1 pair.1 = false) : revalue eq [pair] e = e := by
  simp [revalue, lastValue?, List.findRev?, h]

theorem revalue_singleton_self : revalue eq [pair] pair = pair := by
  unfold revalue lastValue?
  cases h : eq pair.1 pair.1 with
  | true => simp [List.findRev?, h]
  | false => simp [List.findRev?, h]

private theorem eraseDupsBy_sublist {α : Type} (r : α → α → Bool) :
    ∀ l : List α, (l.eraseDupsBy r).Sublist l
  | [] => .slnil
  | a :: l => by
    rw [List.eraseDupsBy_cons]
    exact .cons_cons a ((eraseDupsBy_sublist r _).trans List.filter_sublist)
termination_by l => l.length
decreasing_by exact Nat.lt_succ_of_le (List.length_filter_le _ _)

/-- Newcomers have no entry. -/
theorem ne_of_mem_newcomers (h : pair ∈ newcomers eq entries pairs) (he : e ∈ entries) :
    eq pair.1 e.1 = false := by
  have hall := (List.mem_filter.mp ((eraseDupsBy_sublist _ _).subset h)).2
  rw [List.all_eq_true] at hall
  simpa using hall e he

/-- Which pairs are newcomers depends on the keys of the entries alone. -/
theorem newcomers_map_revalue {other : List (K × V)} :
    newcomers eq (entries.map (revalue eq other)) pairs = newcomers eq entries pairs := by
  simp only [newcomers, List.all_map]
  rfl

theorem newcomers_cons_of_present (he : e ∈ entries) (h : eq pair.1 e.1 = true) :
    newcomers eq entries (pair :: pairs) = newcomers eq entries pairs := by
  have hall : (entries.all fun e ↦ !eq pair.1 e.1) = false := by
    rw [List.all_eq_false]
    exact ⟨e, he, by simp [h]⟩
  rw [newcomers, List.filter_cons_of_neg (by rw [hall]; exact Bool.false_ne_true), newcomers]

theorem newcomers_cons_of_absent (h : ∀ e ∈ entries, eq pair.1 e.1 = false) :
    newcomers eq entries (pair :: pairs) = pair :: newcomers eq (entries ++ [pair]) pairs := by
  have hall : (entries.all fun e ↦ !eq pair.1 e.1) = true := by
    rw [List.all_eq_true]
    intro e he
    simp [h e he]
  rw [newcomers, List.filter_cons_of_pos (by exact hall), List.eraseDupsBy_cons,
    List.filter_filter, newcomers]
  congr 2
  apply List.filter_congr
  intro next _
  simp [List.all_append, Bool.and_comm]

/-! ### Insertions -/

variable {keys : KeySemantics K}

private theorem map_revalue_cons (l : List (K × V)) :
    l.map (revalue eq (pair :: pairs)) = (l.map (revalue eq [pair])).map (revalue eq pairs) := by
  rw [List.map_map]
  exact List.map_congr_left fun _ _ ↦ revalue_cons

private theorem map_revalue_of_ne {l : List (K × V)} (h : ∀ e ∈ l, eq e.1 pair.1 = false) :
    l.map (revalue eq [pair]) = l :=
  (List.map_congr_left fun e he ↦ revalue_singleton_of_ne (h e he)).trans (List.map_id l)

/-- A pair whose key has an entry goes over that entry, and brings no newcomer. -/
theorem overlay_cons_of_present (hk : keys.Consistent) (he : e ∈ entries)
    (h : keys.eq pair.1 e.1 = true) : overlay keys.eq entries (pair :: pairs) =
      overlay keys.eq (entries.map (revalue keys.eq [pair])) pairs := by
  have hkept : (newcomers keys.eq entries pairs).map (revalue keys.eq [pair]) =
      newcomers keys.eq entries pairs := by
    apply map_revalue_of_ne
    intro new hnew
    rw [← Bool.not_eq_true]
    intro heq
    have hne := ne_of_mem_newcomers hnew he
    rw [hk.trans _ _ _ heq h] at hne
    cases hne
  rw [overlay, newcomers_cons_of_present he h, map_revalue_cons, List.map_append, hkept, overlay,
    newcomers_map_revalue]

/-- A pair whose key has no entry is one more entry. -/
theorem overlay_cons_of_absent (hk : keys.Consistent)
    (h : ∀ e ∈ entries, keys.eq pair.1 e.1 = false) :
    overlay keys.eq entries (pair :: pairs) = overlay keys.eq (entries ++ [pair]) pairs := by
  have hold : entries.map (revalue keys.eq [pair]) = entries := by
    apply map_revalue_of_ne
    intro e he
    rw [← Bool.not_eq_true]
    intro heq
    have hne := h e he
    rw [hk.symm _ _ heq] at hne
    cases hne
  have hnew : (newcomers keys.eq (entries ++ [pair]) pairs).map (revalue keys.eq [pair]) =
      newcomers keys.eq (entries ++ [pair]) pairs := by
    apply map_revalue_of_ne
    intro new hnew
    exact ne_of_mem_newcomers hnew List.mem_concat_self
  rw [overlay, newcomers_cons_of_absent h, map_revalue_cons, List.map_append, List.map_cons, hold,
    revalue_singleton_self, hnew, overlay, List.append_assoc, List.singleton_append]

/-- Among different keys, changing the value of one entry is going over it with a pair. -/
private theorem toList_modify {entries : Array (K × V)} (hk : keys.Consistent)
    (hd : DistinctKeys keys entries) {entry : Nat}
    (hp : position? keys entries pair.1 = some entry) :
    (entries.modify entry fun e ↦ (e.1, pair.2)).toList =
      entries.toList.map (revalue keys.eq [pair]) := by
  rw [← Array.toList_map]
  congr 1
  apply Array.ext_getElem?
  intro i
  rw [Array.getElem?_modify, Array.getElem?_map]
  cases hi : entries[i]? with
  | none => simp
  | some e =>
    cases heq : keys.eq e.1 pair.1 with
    | true =>
      rw [hd.position?_eq hk hi (hk.symm _ _ heq)] at hp
      simp [Option.some.inj hp, revalue, lastValue?, List.findRev?, heq]
    | false =>
      have hne : entry ≠ i := by
        rintro rfl
        obtain ⟨e', he', heq'⟩ := position?_eq_some hp
        rw [hi] at he'
        cases he'
        rw [hk.symm _ _ heq'] at heq
        cases heq
      rw [if_neg hne, Option.map_some, revalue_singleton_of_ne heq]

/-- Putting one pair more before the others is inserting it first. -/
theorem overlay_cons {entries : Array (K × V)} (hk : keys.Consistent)
    (hd : DistinctKeys keys entries) : overlay keys.eq entries.toList (pair :: pairs) =
      overlay keys.eq (insertWith keys entries pair.1 pair.2 fun _ new ↦ new).2.toList pairs := by
  unfold insertWith
  cases hp : position? keys entries pair.1 with
  | some entry =>
    obtain ⟨e, he, heq⟩ := position?_eq_some hp
    rw [overlay_cons_of_present hk (Array.mem_toList_iff.mpr (Array.mem_of_getElem? he)) heq,
      ← toList_modify hk hd hp]
  | none =>
    rw [position?_eq_none_iff] at hp
    rw [overlay_cons_of_absent hk fun e he ↦ hp e (Array.mem_toList_iff.mp he), Array.toList_push]

end EntryList

end RobinHood
