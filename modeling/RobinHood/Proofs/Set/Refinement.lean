import RobinHood.Proofs.Map.Refinement
import RobinHood.Proofs.Set.Call

/-!
# Sets behave like lists of elements

A set represents a list of elements if its map represents the list of these elements with their
units. What holds of maps carries over, call by call.
-/

namespace RobinHood

namespace DenseSet

open Table

variable {T : Type}

/-- The elements as entries of a map. -/
def units (elements : Array T) : Array (T × Unit) := elements.map fun element ↦ (element, ())

/-- The set has these key semantics, its elements are the list, in which no two are equal, and every
element is found where a search through the list finds it. -/
structure Shows (keys : KeySemantics T) (s : DenseSet T) (elements : Array T) : Prop where
  keys_eq : s.map.keys = keys
  elements_eq : s.elements.items = elements
  distinct : ∀ (i j : Nat) (a b : T), elements[i]? = some a → elements[j]? = some b →
    keys.eq a b = true → i = j
  contains_eq : ∀ element, s.contains element = (position? keys elements element).isSome
  get?_eq : ∀ element,
    s.get? element = (position? keys elements element).bind fun i ↦ elements[i]?

/-- The map of the set represents the elements with their units. -/
def Represents (keys : KeySemantics T) (s : DenseSet T) (elements : Array T) : Prop :=
  DenseMap.Represents keys s.map (units elements)

/-- The call inserts a new element, and runs into a jam. -/
def Call.Jams (s : DenseSet T) : Call T → Prop
  | .insert element => s.map.table.JamsOn s.map.keys element
  | _ => False

variable {keys : KeySemantics T} {s s' : DenseSet T} {elements elements' : Array T} {element : T}

/-! ### Elements with units -/

theorem position?_units :
    Table.position? keys (units elements) element = position? keys elements element := by
  unfold Table.position? units
  rw [Array.findIdx?_map]
  rfl

theorem getElem?_units (i : Nat) :
    (units elements)[i]? = elements[i]?.map fun element ↦ (element, ()) := Array.getElem?_map

theorem units_push : (units elements).push (element, ()) = units (elements.push element) :=
  Array.map_push.symm

theorem lt_size_of_position? {i : Nat} (h : position? keys elements element = some i) :
    i < elements.size := (Array.findIdx?_eq_some_iff_getElem.mp h).1

theorem units_swapRemove {i : Nat} (h : i < elements.size) :
    swapRemove (units elements) i = units (swapRemove elements i) := swapRemove_map h _

theorem map_fst_units : (units elements).map Prod.fst = elements := by
  unfold units
  rw [Array.map_map]
  exact Array.map_id' elements

/-- Changing a unit changes nothing. -/
theorem modify_units (i : Nat) (f : Unit → Unit) :
    (units elements).modify i (fun e ↦ (e.1, f e.2)) = units elements := by
  apply Array.ext_getElem?
  intro j
  rw [Array.getElem?_modify]
  split
  · exact Option.map_id'
  · rfl

theorem insertWith_units_of_present {i : Nat} (h : position? keys elements element = some i)
    (merge : Unit → Unit → Unit) :
    EntryList.insertWith keys (units elements) element () merge = (some (), units elements) := by
  have hp : Table.position? keys (units elements) element = some i := by rw [position?_units, h]
  have hi := lt_size_of_position? h
  have hunits : (units elements).modify i (fun e ↦ (e.1, merge e.2 ())) = units elements :=
    modify_units i fun stored ↦ merge stored ()
  rw [EntryList.insertWith_of_present hp, EntryList.modify, hp]
  simp only [hunits, getElem?_units, Array.getElem?_eq_getElem hi, Option.map_some]

theorem insertWith_units_of_absent (h : position? keys elements element = none)
    (merge : Unit → Unit → Unit) : EntryList.insertWith keys (units elements) element () merge =
      (none, units (elements.push element)) := by
  rw [EntryList.insertWith_of_absent (by rw [position?_units, h]), units_push]

theorem take_units_of_present {i : Nat} (h : position? keys elements element = some i) :
    EntryList.take keys (units elements) element =
      (elements[i]?.map fun element ↦ (element, ()), units (swapRemove elements i)) := by
  rw [EntryList.take, position?_units, h]
  simp only [getElem?_units, units_swapRemove (lt_size_of_position? h)]

theorem take_units_of_absent (h : position? keys elements element = none) :
    EntryList.take keys (units elements) element = (none, units elements) := by
  rw [EntryList.take, position?_units, h]

namespace Represents

theorem shows (h : Represents keys s elements) (hk : keys.Consistent) : Shows keys s elements := by
  have hm := DenseMap.Represents.shows h hk
  refine ⟨hm.keys_eq, ?_, fun i j a b ha hb heq ↦ ?_, fun element ↦ ?_, fun element ↦ ?_⟩
  · rw [DenseSet.elements, hm.entries_eq, map_fst_units]
  · apply hm.distinct i j (a, ()) (b, ()) _ _ heq
    · rw [getElem?_units, ha]
      rfl
    · rw [getElem?_units, hb]
      rfl
  · rw [DenseSet.contains, DenseMap.contains, hm.find?_eq, position?_units]
  · rw [DenseSet.get?, DenseMap.getEntry?, hm.find?_eq, hm.entries_eq, position?_units]
    cases position? keys elements element with
    | none => rfl
    | some i => simp [getElem?_units, Function.comp_def]

theorem insert (h : Represents keys s elements) (hk : keys.Consistent)
    (hlt : elements.size < maxCapacity) (hj : ¬ s.map.table.JamsOn s.map.keys element) :
    ∃ s', s.insert element = .ok ((position? keys elements element).isNone, s') ∧
      Represents keys s'
        (if (position? keys elements element).isSome then elements else elements.push element) := by
  have hsize : (units elements).size < maxCapacity := by rwa [units, Array.size_map]
  obtain ⟨m', hok, h'⟩ := DenseMap.Represents.insertWith h hk hsize hj () fun _ new ↦ new
  obtain ⟨map⟩ := s
  refine ⟨⟨m'⟩, ?_, ?_⟩
  · rw [DenseSet.insert, DenseMap.insert, hok]
    cases hp : position? keys elements element with
    | some i =>
      rw [insertWith_units_of_present hp]
      rfl
    | none =>
      rw [insertWith_units_of_absent hp]
      rfl
  · cases hp : position? keys elements element with
    | some i =>
      rw [insertWith_units_of_present hp] at h'
      exact h'
    | none =>
      rw [insertWith_units_of_absent hp] at h'
      exact h'

theorem take (h : Represents keys s elements) (hk : keys.Consistent) (element : T) :
    (s.take element).1 =
        (position? keys elements element).bind (fun i ↦ elements[i]?) ∧
      Represents keys (s.take element).2
        ((position? keys elements element).elim elements (swapRemove elements)) := by
  obtain ⟨map⟩ := s
  obtain ⟨hanswer, h'⟩ := DenseMap.Represents.take h hk element
  have htake : (⟨map⟩ : DenseSet T).take element =
      ((map.take element).1.map Prod.fst, ⟨(map.take element).2⟩) := rfl
  rw [htake]
  cases hp : position? keys elements element with
  | some i =>
    rw [take_units_of_present hp] at hanswer h'
    refine ⟨?_, h'⟩
    rw [hanswer]
    simp [Function.comp_def]
  | none =>
    rw [take_units_of_absent hp] at hanswer h'
    refine ⟨?_, h'⟩
    rw [hanswer]
    rfl

theorem reserve (h : Represents keys s elements) (additional : Nat) :
    (∃ s', s.reserve additional = .ok s' ∧ refusal? elements.size additional = none ∧
      Represents keys s' elements) ∨
    ∃ error, s.reserve additional = .error ⟨error, s⟩ ∧
      refusal? elements.size additional = some error := by
  have hsize : (units elements).size = elements.size := Array.size_map
  rcases DenseMap.Represents.reserve h additional with ⟨m', hok, hnone, h'⟩ | ⟨error, herr, hsome⟩
  · refine .inl ⟨⟨m'⟩, ?_, by rwa [← hsize], h'⟩
    rw [DenseSet.reserve, hok]
    rfl
  · refine .inr ⟨error, ?_, by rwa [← hsize]⟩
    rw [DenseSet.reserve, herr]
    rfl

/-- Below the ceiling, a call that does not run into a jam answers as the list does. -/
theorem run (h : Represents keys s elements) (hk : keys.Consistent)
    (hlt : elements.size < maxCapacity) {call : Call T} (hj : ¬ call.Jams s) :
    ∃ s', call.run s = .ok ((call.onList keys elements).1, s') ∧
      Represents keys s' (call.onList keys elements).2 := by
  have hshows := h.shows hk
  cases call with
  | insert element =>
    obtain ⟨s', hok, h'⟩ := h.insert hk hlt hj
    rw [Call.run, hok, Call.onList]
    cases hp : position? keys elements element with
    | some i =>
      rw [hp] at h'
      exact ⟨s', rfl, h'⟩
    | none =>
      rw [hp] at h'
      exact ⟨s', rfl, h'⟩
  | remove element =>
    obtain ⟨hanswer, h'⟩ := h.take hk element
    rw [Call.run, hanswer, Call.onList]
    cases hp : position? keys elements element with
    | some i =>
      rw [hp] at h'
      refine ⟨_, ?_, h'⟩
      simp [Array.getElem?_eq_getElem (lt_size_of_position? hp)]
    | none =>
      rw [hp] at h'
      exact ⟨_, rfl, h'⟩
  | take element =>
    obtain ⟨hanswer, h'⟩ := h.take hk element
    rw [Call.run, hanswer, Call.onList]
    cases hp : position? keys elements element with
    | some i =>
      rw [hp] at h'
      exact ⟨_, rfl, h'⟩
    | none =>
      rw [hp] at h'
      exact ⟨_, rfl, h'⟩
  | get element =>
    refine ⟨s, ?_, h⟩
    rw [Call.run, hshows.get?_eq]
    rfl
  | contains element =>
    refine ⟨s, ?_, h⟩
    rw [Call.run, hshows.contains_eq]
    rfl
  | size =>
    refine ⟨s, ?_, h⟩
    have hsize : s.size = elements.size := by
      rw [DenseSet.size, DenseMap.size, Table.size, h.entries_eq, units, Array.size_map]
    rw [Call.run, hsize]
    rfl
  | reserve additional =>
    rw [Call.run, Call.onList]
    rcases h.reserve additional with ⟨s', hok, hnone, h'⟩ | ⟨error, herr, hsome⟩
    · rw [hok, hnone]
      exact ⟨s', rfl, h'⟩
    · rw [herr, hsome]
      exact ⟨s, rfl, h⟩
  | expect hint =>
    have hsize : (units elements).size < maxCapacity := by rwa [units, Array.size_map]
    obtain ⟨m', hok, h'⟩ := DenseMap.Represents.expect h hsize hint
    refine ⟨⟨m'⟩, ?_, h'⟩
    rw [Call.run, DenseSet.reserve, DenseSet.size, hok]
    rfl
  | clear =>
    have hnil : units (#[] : Array T) = #[] := Array.map_empty
    refine ⟨s.clear, rfl, ?_⟩
    rw [Represents, Call.onList, hnil]
    exact DenseMap.Represents.clear h

/-- After a call that ran into a jam, the set shows no list of elements. -/
theorem not_shows_of_jams (h : Represents keys s elements) (hk : keys.Consistent) {call : Call T}
    (hj : call.Jams s) {answer : Answer T} (hrun : call.run s = .ok (answer, s')) :
    ¬ Shows keys s' elements' := by
  cases call with
  | insert element =>
    obtain ⟨map⟩ := s
    obtain ⟨r, hr, hs⟩ := bind_eq_ok_iff.mp hrun
    cases hs
    obtain ⟨r', hr', hs⟩ := bind_eq_ok_iff.mp hr
    cases hs
    obtain ⟨e, he, hlost⟩ :=
      DenseMap.Represents.exists_lost h hk hj (Halt.within_eq_ok_iff.mp hr')
    rintro ⟨-, rfl, -, hcontains, -⟩
    -- The lost key is among the elements, and it is equal to itself.
    have hno := hcontains e.1
    rw [DenseSet.contains, DenseMap.contains, hlost] at hno
    have hmem : e.1 ∈ (⟨r'.2⟩ : DenseSet T).elements.items := Array.mem_map_of_mem he
    have hnone : position? keys (⟨r'.2⟩ : DenseSet T).elements.items e.1 = none :=
      Option.not_isSome_iff_eq_none.mp (by rw [← hno]; decide)
    have hself := Array.findIdx?_eq_none_iff.mp hnone e.1 hmem
    rw [hk.refl] at hself
    cases hself
  | remove | take | get | contains | size | reserve | expect | clear => cases hj

end Represents

/-- Extending a set is making room and then inserting the elements one by one. -/
theorem extend_eq_runCalls (s : DenseSet T) (hint : Nat) (elements : List T) :
    s.extend hint elements = (runCalls Call.run s (extendCalls hint elements)).map Prod.snd := by
  have hinsert (s : DenseSet T) (element : T) : (Call.run s (.insert element)).map Prod.snd =
      (Halt.within DenseSet.mk (s.map.put element ())).map DenseSet.mk := by
    obtain ⟨map⟩ := s
    rw [Call.run, DenseSet.insert, DenseMap.put]
    cases map.insert element () with
    | error e => rfl
    | ok r => rfl
  have hfold (map : DenseMap T Unit) :
      elements.foldlM (fun (s : DenseSet T) element ↦
          (Halt.within DenseSet.mk (s.map.put element ())).map DenseSet.mk) ⟨map⟩ =
        (Halt.within DenseSet.mk
          (elements.foldlM (fun (m : DenseMap T Unit) element ↦ m.put element ()) map)).map
            DenseSet.mk := by
    induction elements generalizing map with
    | nil => rfl
    | cons element elements ih =>
      rw [List.foldlM_cons, List.foldlM_cons]
      cases map.put element () with
      | error e => rfl
      | ok m => exact ih m
  rw [map_snd_runCalls, extendCalls, List.foldlM_cons, extend, DenseMap.extend, Call.run, reserve,
    DenseSet.size]
  simp only [List.foldlM_map, hinsert]
  cases s.map.reserve (min hint (maxCapacity - s.map.size)) with
  | error e => rfl
  | ok m =>
    refine Eq.trans ?_ (hfold m).symm
    change Halt.within DenseSet.mk
      (elements.foldlM (fun (m : DenseMap T Unit) element ↦ m.put element ()) m) >>= _ = _
    cases elements.foldlM (fun (m : DenseMap T Unit) element ↦ m.put element ()) m with
    | error e => rfl
    | ok m => rfl

/-- From an empty set on, a program whose list of elements stays below the ceiling gets the answers
of that list, and a set that shows it, after each call exactly if none of its calls runs into a
jam. -/
theorem follows_list_iff (hk : keys.Consistent) {capacity : Nat} (hc : capacity ≤ maxCapacity) :
    ∃ s : DenseSet T, withCapacity capacity keys = .ok s ∧ ∀ calls : List (Call T),
      (∀ done, done <+: calls → (modelCalls (Call.onList keys) #[] done).2.size < maxCapacity) →
      (Follows Call.run (Call.onList keys) (Shows keys) s #[] calls ↔
        Avoids Call.run (fun s call ↦ call.Jams s) s calls) := by
  obtain ⟨m, hok, hm⟩ : ∃ m : DenseMap T Unit, DenseMap.withCapacity capacity keys = .ok m ∧
      DenseMap.Represents keys m #[] := DenseMap.Represents.withCapacity hc
  have hs : Represents keys ⟨m⟩ #[] := by
    rw [Represents, units, Array.map_empty]
    exact hm
  refine ⟨⟨m⟩, ?_, fun calls hbelow ↦ ?_⟩
  · rw [withCapacity, hok]
    rfl
  · exact follows_iff_avoids (R := Represents keys) (fun s l h ↦ h.shows hk)
      (fun s l call h hfit hj ↦ h.run hk hfit hj)
      (fun s l call h hj answer s' hrun ↦ h.not_shows_of_jams hk hj hrun) hs hbelow

end DenseSet

end RobinHood
