import RobinHood.KeySemantics
import RobinHood.Table.Remove

/-!
# The store as an association list

Seen without its index, a table is a list of entries in which no two keys are equal. This is what
the list operations do to such a list: where a key is found, and which value is found for it.
-/

namespace RobinHood

namespace Table

variable {K V : Type}

/-- No two stored keys are equal. -/
def DistinctKeys (keys : KeySemantics K) (entries : Array (K × V)) : Prop :=
  ∀ (i j : Nat) (a b : K × V), entries[i]? = some a → entries[j]? = some b →
    keys.eq a.1 b.1 = true → i = j

/-- Where a search through the store finds a key. -/
def position? (keys : KeySemantics K) (entries : Array (K × V)) (key : K) : Option Nat :=
  entries.findIdx? fun e ↦ keys.eq key e.1

/-- The value that a search through the store finds for a key. -/
def value? (keys : KeySemantics K) (entries : Array (K × V)) (key : K) : Option V :=
  (position? keys entries key).bind fun entry ↦ (entries[entry]?).map Prod.snd

variable {keys : KeySemantics K} {entries : Array (K × V)} {key other : K} {value : V} {entry : Nat}

theorem position?_eq_some (h : position? keys entries key = some entry) :
    ∃ e, entries[entry]? = some e ∧ keys.eq key e.1 = true := by
  obtain ⟨hlt, heq, -⟩ := Array.findIdx?_eq_some_iff_getElem.mp h
  exact ⟨entries[entry], Array.getElem?_eq_getElem hlt, heq⟩

theorem lt_size_of_position? (h : position? keys entries key = some entry) : entry < entries.size :=
  (Array.findIdx?_eq_some_iff_getElem.mp h).1

theorem not_eq_of_position?_eq_none (h : position? keys entries key = none) {e : K × V}
    (he : entries[entry]? = some e) : keys.eq key e.1 = false :=
  Array.findIdx?_eq_none_iff.mp h e (Array.mem_of_getElem? he)

/-- Among different keys, the search for a key ends at the one equal to it. -/
theorem DistinctKeys.position?_eq (h : DistinctKeys keys entries) (hk : keys.Consistent) {e : K × V}
    (he : entries[entry]? = some e) (heq : keys.eq key e.1 = true) :
    position? keys entries key = some entry := by
  cases hp : position? keys entries key with
  | none =>
    rw [not_eq_of_position?_eq_none hp he] at heq
    cases heq
  | some other =>
    obtain ⟨e', he', heq'⟩ := position?_eq_some hp
    rw [h other entry e' e he' he (hk.trans _ _ _ (hk.symm _ _ heq') heq)]

/-- Among different keys, a key is found at the entry whose key is equal to it. -/
theorem DistinctKeys.position?_eq_some_iff (h : DistinctKeys keys entries) (hk : keys.Consistent) :
    position? keys entries key = some entry ↔
      ∃ e, entries[entry]? = some e ∧ keys.eq key e.1 = true := by
  constructor
  · exact position?_eq_some
  · rintro ⟨e, he, heq⟩
    exact h.position?_eq hk he heq

/-- Keys that are not equal are found at different places. -/
theorem ne_of_position?_eq_some {i : Nat} (hk : keys.Consistent)
    (hp : position? keys entries key = some entry) (hq : position? keys entries other = some i)
    (hne : keys.eq other key = false) : i ≠ entry := by
  rintro rfl
  obtain ⟨e, he, heq⟩ := position?_eq_some hp
  obtain ⟨e', he', heq'⟩ := position?_eq_some hq
  rw [he] at he'
  cases he'
  rw [hk.trans _ _ _ heq' (hk.symm _ _ heq)] at hne
  cases hne

theorem position?_eq_none_iff :
    position? keys entries key = none ↔ ∀ e ∈ entries, keys.eq key e.1 = false :=
  Array.findIdx?_eq_none_iff

/-- An entry with a key equal to none of the others may be added. -/
theorem DistinctKeys.push (h : DistinctKeys keys entries) (hk : keys.Consistent)
    (hnew : position? keys entries key = none) (value : V) :
    DistinctKeys keys (entries.push (key, value)) := by
  intro i j a b ha hb heq
  rw [Array.getElem?_push] at ha hb
  split at ha
  · next hi =>
    cases ha
    split at hb
    · next hj => rw [hi, hj]
    · rw [not_eq_of_position?_eq_none hnew hb] at heq
      cases heq
  · split at hb
    · cases hb
      have hsymm := hk.symm _ _ heq
      rw [not_eq_of_position?_eq_none hnew ha] at hsymm
      cases hsymm
    · exact h i j a b ha hb heq

/-- Values may be changed. -/
theorem DistinctKeys.modify (h : DistinctKeys keys entries) (entry : Nat) (f : V → V) :
    DistinctKeys keys (entries.modify entry fun e ↦ (e.1, f e.2)) := by
  have hkey (i : Nat) (a : K × V)
      (ha : (entries.modify entry fun e ↦ (e.1, f e.2))[i]? = some a) :
      ∃ a', entries[i]? = some a' ∧ a'.1 = a.1 := by
    rw [Array.getElem?_modify] at ha
    split at ha
    · obtain ⟨a', ha', rfl⟩ := Option.map_eq_some_iff.mp ha
      exact ⟨a', ha', rfl⟩
    · exact ⟨a, ha, rfl⟩
  intro i j a b ha hb heq
  obtain ⟨a', ha', hfst⟩ := hkey i a ha
  obtain ⟨b', hb', hfst'⟩ := hkey j b hb
  rw [← hfst, ← hfst'] at heq
  exact h i j a' b' ha' hb' heq

/-- Searches look at keys alone. -/
theorem position?_modify (entry : Nat) (f : V → V) :
    position? keys (entries.modify entry fun e ↦ (e.1, f e.2)) key =
      position? keys entries key := by
  have hkeys : (entries.modify entry fun e ↦ (e.1, f e.2)).map Prod.fst = entries.map Prod.fst := by
    apply Array.ext
    · simp
    · intro i h1 h2
      simp only [Array.getElem_map, Array.getElem_modify]
      split
      · rfl
      · rfl
  have hfst (entries : Array (K × V)) :
      position? keys entries key = (entries.map Prod.fst).findIdx? (keys.eq key) := by
    rw [Array.findIdx?_map]
    rfl
  rw [hfst, hfst, hkeys]

/-- Equal keys are found at the same place. -/
theorem position?_congr (hk : keys.Consistent) (h : keys.eq other key = true) :
    position? keys entries other = position? keys entries key := by
  unfold position?
  congr 1
  funext e
  cases he : keys.eq key e.1 with
  | true => exact hk.trans _ _ _ h he
  | false =>
    rw [← Bool.not_eq_true]
    intro hother
    rw [hk.trans _ _ _ (hk.symm _ _ h) hother] at he
    cases he

theorem value?_congr (hk : keys.Consistent) (h : keys.eq other key = true) :
    value? keys entries other = value? keys entries key := by
  rw [value?, value?, position?_congr hk h]

theorem value?_eq_none_iff :
    value? keys entries key = none ↔ position? keys entries key = none := by
  unfold value?
  cases hp : position? keys entries key with
  | none => simp
  | some entry =>
    obtain ⟨e, he, -⟩ := position?_eq_some hp
    simp [he]

/-- The value found is that of the first entry with an equal key. -/
theorem value?_eq_find? : value? keys entries key =
    (entries.find? fun e ↦ keys.eq key e.1).map Prod.snd := by
  rw [value?, position?, Array.find?_eq_bind_findIdx?_getElem?, Option.map_bind]
  rfl

/-- A new last entry is found where no earlier one is. -/
theorem value?_push : value? keys (entries.push (key, value)) other =
    (value? keys entries other).or (if keys.eq other key then some value else none) := by
  unfold value? position?
  rw [Array.findIdx?_push]
  cases hp : entries.findIdx? fun e ↦ keys.eq other e.1 with
  | some entry =>
    obtain ⟨hlt, -⟩ := Array.findIdx?_eq_some_iff_getElem.mp hp
    have hne : entry ≠ entries.size := Nat.ne_of_lt hlt
    simp [Array.getElem?_push, hne, hlt]
  | none =>
    cases keys.eq other key with
    | true => simp
    | false => simp

/-- A changed value is found for the keys equal to its own. -/
theorem value?_modify (h : DistinctKeys keys entries) (hk : keys.Consistent)
    (hp : position? keys entries key = some entry) (other : K) (f : V → V) :
    value? keys (entries.modify entry fun e ↦ (e.1, f e.2)) other =
      if keys.eq other key then (value? keys entries other).map f
      else value? keys entries other := by
  obtain ⟨e, he, heq⟩ := position?_eq_some hp
  unfold value?
  rw [position?_modify]
  split
  · next hother =>
    rw [h.position?_eq hk he (hk.trans _ _ _ hother heq)]
    simp [Array.getElem?_modify, he]
  · next hother =>
    cases hq : position? keys entries other with
    | none => rfl
    | some entry' =>
      have hne := ne_of_position?_eq_some hk hp hq (Bool.eq_false_iff.mpr hother)
      simp [Array.getElem?_modify, hne.symm]

/-- After a swap-removal the last entry stands in the place of the removed one. -/
theorem getElem?_swapRemove {E : Type} {entries : Array E} (h : entry < entries.size) (i : Nat) :
    (swapRemove entries entry)[i]? = if i < entries.size - 1 then
      entries[if i = entry then entries.size - 1 else i]? else none := by
  have hlast : entries.size - 1 < entries.size := by omega
  unfold swapRemove
  rw [Array.getElem?_pop, Array.size_swapIfInBounds]
  split
  · next hi =>
    have hne : ¬ entries.size - 1 = i := by omega
    rw [Array.swapIfInBounds_def, dif_pos h, dif_pos hlast, Array.getElem?_swap, if_neg hne]
    split
    · next he => rw [if_pos he.symm, Array.getElem?_eq_getElem hlast]
    · next he => rw [if_neg (Ne.symm he)]
  · rfl

/-- Removal looks at positions alone. -/
theorem swapRemove_map {E F : Type} {entries : Array E} (h : entry < entries.size) (f : E → F) :
    swapRemove (entries.map f) entry = (swapRemove entries entry).map f := by
  apply Array.ext_getElem?
  intro i
  rw [getElem?_swapRemove (by rwa [Array.size_map]), Array.size_map]
  simp only [Array.getElem?_map]
  rw [getElem?_swapRemove h]
  split
  · rfl
  · rfl

/-- Entries may be removed. -/
theorem DistinctKeys.swapRemove (h : DistinctKeys keys entries) (he : entry < entries.size) :
    DistinctKeys keys (swapRemove entries entry) := by
  intro i j a b ha hb heq
  rw [getElem?_swapRemove he] at ha hb
  split at ha
  · next hi =>
    split at hb
    · next hj =>
      have hsame := h _ _ a b ha hb heq
      split at hsame
      · split at hsame
        · omega
        · omega
      · split at hsame
        · omega
        · exact hsame
    · cases hb
  · cases ha

end Table

open Table

variable {K V : Type}

namespace EntryList

/-- Change the value of a key, or append an entry. The answer is the value before. -/
def insertWith (keys : KeySemantics K) (entries : Array (K × V)) (key : K) (value : V)
    (merge : V → V → V) : Option V × Array (K × V) :=
  match position? keys entries key with
  | some entry =>
    ((entries[entry]?).map Prod.snd, entries.modify entry fun e ↦ (e.1, merge e.2 value))
  | none => (none, entries.push (key, value))

/-- Change the value of a key. The answer is the value before. -/
def modify (keys : KeySemantics K) (entries : Array (K × V)) (key : K) (f : V → V) :
    Option V × Array (K × V) :=
  match position? keys entries key with
  | some entry => ((entries[entry]?).map Prod.snd, entries.modify entry fun e ↦ (e.1, f e.2))
  | none => (none, entries)

/-- Storing under a key that is there is changing its value. -/
theorem insertWith_of_present {keys : KeySemantics K} {entries : Array (K × V)} {key : K}
    {entry : Nat} (h : position? keys entries key = some entry) (value : V) (merge : V → V → V) :
    insertWith keys entries key value merge =
      modify keys entries key fun stored ↦ merge stored value := by
  rw [insertWith, modify, h]

/-- Storing under a key that is not there is appending an entry. -/
theorem insertWith_of_absent {keys : KeySemantics K} {entries : Array (K × V)} {key : K}
    (h : position? keys entries key = none) (value : V) (merge : V → V → V) :
    insertWith keys entries key value merge = (none, entries.push (key, value)) := by
  rw [insertWith, h]

/-- Swap-remove the entry of a key, which is the answer. -/
def take (keys : KeySemantics K) (entries : Array (K × V)) (key : K) :
    Option (K × V) × Array (K × V) :=
  match position? keys entries key with
  | some entry => (entries[entry]?, swapRemove entries entry)
  | none => (none, entries)

end EntryList

/-- Why room for `additional` entries more than `size` is refused, if it is. -/
def refusal? (size additional : Nat) : Option Error :=
  if maxCapacity < size + additional then
    some (.capacityExceeded (min (size + additional) maxCount) maxCapacity)
  else none

end RobinHood
