import RobinHood.Proofs.Map.Call
import RobinHood.Proofs.Table.Jam

/-!
# Maps behave like lists of entries

A map represents a list of entries if its table is well-formed and its store is that list. Below the
ceiling, each call on it answers as the list does and leaves a map that represents the list after
the call, with one exception: where the insertion of a new key runs into a jam, the call is given
up, or a stored key is no longer found.
-/

namespace RobinHood

namespace DenseMap

open Table

variable {K V : Type}

/-- The map has these key semantics, its entries are the list, in which no two keys are equal, and
every key is found where a search through the list finds it. -/
structure Shows (keys : KeySemantics K) (m : DenseMap K V) (entries : Array (K × V)) : Prop where
  keys_eq : m.keys = keys
  entries_eq : m.entries = entries
  distinct : DistinctKeys keys entries
  find?_eq : ∀ key, m.find? key = position? keys entries key

/-- The table of the map is well-formed, and its store is the list. -/
structure Represents (keys : KeySemantics K) (m : DenseMap K V) (entries : Array (K × V)) :
    Prop where
  keys_eq : m.keys = keys
  built : m.table.Built
  wellFormed : m.table.WellFormed keys
  entries_eq : m.table.entries = entries

/-- The call inserts a new key, and runs into a jam. -/
def Call.Jams (m : DenseMap K V) : Call K V → Prop
  | .insert key _ | .insertWith key _ _ | .put key _ | .update key _ => m.table.JamsOn m.keys key
  | _ => False

variable {keys : KeySemantics K} {m m' : DenseMap K V} {entries entries' : Array (K × V)} {key : K}
  {value : V} {merge : V → V → V} {additional : Nat}

/-- Updating a stored key is changing its value. -/
theorem update_of_modify [WalkLimit] {f : Option V → V} {stored : V}
    (h : (m.modify key fun stored ↦ f (some stored)).1 = some stored) :
    m.update key f = .ok (some stored, (m.modify key fun stored ↦ f (some stored)).2) := by
  unfold update
  split
  · next stored' m' hm =>
    rw [hm] at h ⊢
    rw [Option.some.inj h]
  · next m' hm =>
    rw [hm] at h
    cases h

/-- Updating a key that is not stored is inserting it. -/
theorem update_of_find?_eq_none [WalkLimit] {f : Option V → V} (h : m.find? key = none) :
    m.update key f = m.insert key (f none) >>= fun r ↦ .ok (none, r.2) := by
  unfold update modify put
  rw [h]
  simp only
  cases m.insert key (f none) with
  | error e => rfl
  | ok r => rfl

namespace Represents

theorem find?_eq (h : Represents keys m entries) (hk : keys.Consistent) (key : K) :
    m.find? key = position? keys entries key := by
  unfold DenseMap.find?
  rw [h.keys_eq, h.wellFormed.find?_eq hk, h.entries_eq]

theorem shows (h : Represents keys m entries) (hk : keys.Consistent) : Shows keys m entries where
  keys_eq := h.keys_eq
  entries_eq := h.entries_eq
  distinct := by
    rw [← h.entries_eq]
    exact h.wellFormed.distinct
  find?_eq := h.find?_eq hk

theorem withCapacity {capacity : Nat} (hc : capacity ≤ maxCapacity) :
    ∃ m : DenseMap K V, withCapacity capacity keys = .ok m ∧ Represents keys m #[] := by
  have hok : Table.withCapacity capacity = .ok (blank (max capacity minCapacity) : Table K V) := by
    rw [Table.withCapacity, if_neg (Nat.not_lt.mpr hc)]
  refine ⟨⟨blank (max capacity minCapacity), keys⟩, ?_, rfl, ?_, .blank _, rfl⟩
  · rw [DenseMap.withCapacity, hok]
    rfl
  · exact (Reachable.withCapacity hok).built

/-! ### Calls that insert -/

theorem insertWith (h : Represents keys m entries) (hk : keys.Consistent)
    (hlt : entries.size < maxCapacity) (hj : ¬ m.table.JamsOn m.keys key) (value : V)
    (merge : V → V → V) :
    ∃ m', m.insertWith key value merge =
        .ok ((EntryList.insertWith keys entries key value merge).1, m') ∧
      Represents keys m' (EntryList.insertWith keys entries key value merge).2 := by
  obtain ⟨table, keys⟩ := m
  obtain ⟨rfl, hb, hw, rfl⟩ := h
  obtain ⟨table', hok, hw', he⟩ :=
    hw.exists_insertWith_of_not_jamsOn hb hk hlt hj value merge
  refine ⟨⟨table', keys⟩, ?_, rfl, hb.insertWith hok, hw', he⟩
  rw [DenseMap.insertWith, hok]
  rfl

/-- An insertion that runs into a jam and returns leaves a stored key that lookups do not find. -/
theorem exists_lost (h : Represents keys m entries) (hk : keys.Consistent)
    (hj : m.table.JamsOn m.keys key) {answer : Option V}
    (hi : m.insertWith key value merge = .ok (answer, m')) :
    ∃ e ∈ m'.entries, m'.find? e.1 = none := by
  obtain ⟨table, keys⟩ := m
  obtain ⟨rfl, hb, hw, rfl⟩ := h
  obtain ⟨⟨stored, table'⟩, hok, hm⟩ := bind_eq_ok_iff.mp hi
  cases hm
  exact hw.exists_lost_of_jamsOn hb hk hj (Halt.within_eq_ok_iff.mp hok)

/-- After an insertion that ran into a jam, the map shows no list of entries. -/
theorem not_shows_of_jamsOn (h : Represents keys m entries) (hk : keys.Consistent)
    (hj : m.table.JamsOn m.keys key) {answer : Option V}
    (hi : m.insertWith key value merge = .ok (answer, m')) : ¬ Shows keys m' entries' := by
  obtain ⟨e, he, hlost⟩ := h.exists_lost hk hj hi
  rintro ⟨-, rfl, -, hfind⟩
  have hnone := (hfind e.1).symm.trans hlost
  obtain ⟨i, hi⟩ := Array.mem_iff_getElem?.mp he
  have hself := not_eq_of_position?_eq_none hnone hi
  rw [hk.refl] at hself
  cases hself

/-! ### Calls that change values -/

theorem modify (h : Represents keys m entries) (hk : keys.Consistent) (key : K) (f : V → V) :
    (m.modify key f).1 = (EntryList.modify keys entries key f).1 ∧
      Represents keys (m.modify key f).2 (EntryList.modify keys entries key f).2 := by
  have hfind := h.find?_eq hk key
  obtain ⟨table, keys⟩ := m
  obtain ⟨rfl, hb, hw, rfl⟩ := h
  unfold DenseMap.modify EntryList.modify
  rw [hfind]
  cases position? keys table.entries key with
  | some entry => exact ⟨rfl, rfl, hb.modifyValue entry f, hw.modifyValue entry f, rfl⟩
  | none => exact ⟨rfl, rfl, hb, hw, rfl⟩

theorem update (h : Represents keys m entries) (hk : keys.Consistent)
    (hlt : entries.size < maxCapacity) (hj : ¬ m.table.JamsOn m.keys key) (f : Option V → V) :
    ∃ m', m.update key f = .ok
        ((EntryList.insertWith keys entries key (f none) fun stored _ ↦ f (some stored)).1, m') ∧
      Represents keys m'
        (EntryList.insertWith keys entries key (f none) fun stored _ ↦ f (some stored)).2 := by
  cases hp : position? keys entries key with
  | some entry =>
    obtain ⟨e, he, -⟩ := position?_eq_some hp
    obtain ⟨hanswer, hmodified⟩ := h.modify hk key fun stored ↦ f (some stored)
    rw [EntryList.insertWith_of_present hp]
    refine ⟨_, ?_, hmodified⟩
    have hstored : (EntryList.modify keys entries key fun stored ↦ f (some stored)).1 =
        some e.2 := by
      rw [EntryList.modify, hp]
      simp [he]
    rw [update_of_modify (hanswer.trans hstored), hstored]
  | none =>
    obtain ⟨m', hok, hinserted⟩ := h.insertWith hk hlt hj (f none) fun _ new ↦ new
    rw [EntryList.insertWith_of_absent hp] at hok hinserted ⊢
    refine ⟨m', ?_, hinserted⟩
    have hfind := h.find?_eq hk key
    rw [hp] at hfind
    rw [update_of_find?_eq_none hfind, DenseMap.insert, hok]
    rfl

/-! ### Calls that remove -/

theorem take (h : Represents keys m entries) (hk : keys.Consistent) (key : K) :
    (m.take key).1 = (EntryList.take keys entries key).1 ∧
      Represents keys (m.take key).2 (EntryList.take keys entries key).2 := by
  obtain ⟨table, keys⟩ := m
  obtain ⟨rfl, hb, hw, rfl⟩ := h
  have hbuilt := hb.remove (keys.hash key) (keys.eq key) keys.hash
  have htake : (⟨table, keys⟩ : DenseMap K V).take key =
      ((table.remove (keys.hash key) (keys.eq key) keys.hash).1,
        ⟨(table.remove (keys.hash key) (keys.eq key) keys.hash).2, keys⟩) := rfl
  rw [htake, EntryList.take]
  cases hp : position? keys table.entries key with
  | some entry =>
    obtain ⟨table', hok, hw', he⟩ := hw.remove_of_present hk hp
    simp only at hok
    rw [hok] at hbuilt ⊢
    exact ⟨rfl, rfl, hbuilt, hw', he⟩
  | none =>
    have hok := hw.searchable.remove_of_absent hk hp keys.hash
    simp only at hok
    rw [hok]
    exact ⟨rfl, rfl, hb, hw, rfl⟩

theorem clear (h : Represents keys m entries) : Represents keys m.clear #[] :=
  ⟨h.keys_eq, h.built.clear, h.wellFormed.clear, rfl⟩

/-! ### Calls that make room -/

theorem reserve (h : Represents keys m entries) (additional : Nat) :
    (∃ m', m.reserve additional = .ok m' ∧ refusal? entries.size additional = none ∧
      Represents keys m' entries) ∨
    ∃ error, m.reserve additional = .error ⟨error, m⟩ ∧
      refusal? entries.size additional = some error := by
  obtain ⟨hkeys, hb, hw, rfl⟩ := h
  unfold refusal? DenseMap.reserve
  rcases reserve_cases hw.rows_size hw.length_liveRows_le additional with
    ⟨table', hok, hg, hle, hroom⟩ | ⟨hgt, herr⟩
  · have hmax := hb.le_maxCapacity
    have hcount : maxCapacity < maxCount := by decide
    have hno : ¬ maxCapacity < m.table.entries.size + additional := by
      rw [Table.size] at hroom
      omega
    rw [hok, if_neg hno]
    exact .inl ⟨_, rfl, rfl, hkeys, hb.reserve hok, hw.of_grown hg, hg.entries_eq⟩
  · rw [Table.size] at hgt herr
    rw [herr, if_pos hgt]
    exact .inr ⟨_, rfl, rfl⟩

/-- The room that `extend` makes at the start is never refused. -/
theorem expect (h : Represents keys m entries) (hlt : entries.size < maxCapacity) (hint : Nat) :
    ∃ m', m.reserve (min hint (maxCapacity - m.size)) = .ok m' ∧ Represents keys m' entries := by
  have hsize : m.size = entries.size := by rw [← h.entries_eq]; rfl
  rcases h.reserve (min hint (maxCapacity - m.size)) with ⟨m', hok, -, h'⟩ | ⟨error, -, hrefused⟩
  · exact ⟨m', hok, h'⟩
  · unfold refusal? at hrefused
    rw [if_neg (by omega)] at hrefused
    cases hrefused

/-! ### All calls -/

/-- Below the ceiling, a call that does not run into a jam answers as the list does. -/
theorem run (h : Represents keys m entries) (hk : keys.Consistent)
    (hlt : entries.size < maxCapacity) {call : Call K V} (hj : ¬ call.Jams m) :
    ∃ m', call.run m = .ok ((call.onList keys entries).1, m') ∧
      Represents keys m' (call.onList keys entries).2 := by
  cases call with
  | insert key value =>
    obtain ⟨m', hok, h'⟩ := h.insertWith hk hlt hj value fun _ new ↦ new
    refine ⟨m', ?_, h'⟩
    rw [Call.run, DenseMap.insert, hok]
    rfl
  | insertWith key value merge =>
    obtain ⟨m', hok, h'⟩ := h.insertWith hk hlt hj value merge
    refine ⟨m', ?_, h'⟩
    rw [Call.run, hok]
    rfl
  | put key value =>
    obtain ⟨m', hok, h'⟩ := h.insertWith hk hlt hj value fun _ new ↦ new
    refine ⟨m', ?_, h'⟩
    rw [Call.run, DenseMap.put, DenseMap.insert, hok]
    rfl
  | update key f =>
    obtain ⟨m', hok, h'⟩ := h.update hk hlt hj f
    refine ⟨m', ?_, h'⟩
    rw [Call.run, hok]
    rfl
  | modify key f =>
    obtain ⟨hanswer, h'⟩ := h.modify hk key f
    refine ⟨_, ?_, h'⟩
    rw [Call.run, hanswer]
    rfl
  | take key =>
    obtain ⟨hanswer, h'⟩ := h.take hk key
    refine ⟨_, ?_, h'⟩
    rw [Call.run, hanswer]
    rfl
  | erase key => exact ⟨m.erase key, rfl, (h.take hk key).2⟩
  | get key =>
    refine ⟨m, ?_, h⟩
    rw [Call.run, DenseMap.get?, DenseMap.getEntry?, h.find?_eq hk, DenseMap.entries, h.entries_eq,
      Option.map_bind]
    rfl
  | getEntry key =>
    refine ⟨m, ?_, h⟩
    rw [Call.run, DenseMap.getEntry?, h.find?_eq hk, DenseMap.entries, h.entries_eq]
    rfl
  | contains key =>
    refine ⟨m, ?_, h⟩
    rw [Call.run, DenseMap.contains, h.find?_eq hk]
    rfl
  | size =>
    refine ⟨m, ?_, h⟩
    rw [Call.run, DenseMap.size, Table.size, h.entries_eq]
    rfl
  | reserve additional =>
    rw [Call.run, Call.onList]
    rcases h.reserve additional with ⟨m', hok, hnone, h'⟩ | ⟨error, herr, hsome⟩
    · rw [hok, hnone]
      exact ⟨m', rfl, h'⟩
    · rw [herr, hsome]
      exact ⟨m, rfl, h⟩
  | expect hint =>
    obtain ⟨m', hok, h'⟩ := h.expect hlt hint
    refine ⟨m', ?_, h'⟩
    rw [Call.run, hok]
    rfl
  | clear => exact ⟨m.clear, rfl, h.clear⟩

/-- After a call that ran into a jam, the map shows no list of entries. -/
theorem not_shows_of_jams (h : Represents keys m entries) (hk : keys.Consistent) {call : Call K V}
    (hj : call.Jams m) {answer : Answer K V} (hrun : call.run m = .ok (answer, m')) :
    ¬ Shows keys m' entries' := by
  cases call with
  | insert key value =>
    obtain ⟨r, hr, hm⟩ := bind_eq_ok_iff.mp hrun
    cases hm
    exact h.not_shows_of_jamsOn hk hj hr
  | insertWith key value merge =>
    obtain ⟨r, hr, hm⟩ := bind_eq_ok_iff.mp hrun
    cases hm
    exact h.not_shows_of_jamsOn hk hj hr
  | put key value =>
    obtain ⟨after, hput, hm⟩ := bind_eq_ok_iff.mp hrun
    cases hm
    obtain ⟨r, hr, hm⟩ := bind_eq_ok_iff.mp hput
    cases hm
    exact h.not_shows_of_jamsOn hk hj hr
  | update key f =>
    obtain ⟨r, hr, hm⟩ := bind_eq_ok_iff.mp hrun
    cases hm
    have hfind := h.find?_eq hk key
    have habsent := hj.absent
    rw [h.keys_eq, h.entries_eq] at habsent
    rw [habsent] at hfind
    rw [update_of_find?_eq_none hfind] at hr
    obtain ⟨r', hr', hm⟩ := bind_eq_ok_iff.mp hr
    cases hm
    exact h.not_shows_of_jamsOn hk hj hr'
  | modify | take | erase | get | getEntry | contains | size | reserve | expect | clear => cases hj

end Represents

/-- Extending a map is making room and then putting the pairs one by one. -/
theorem extend_eq_runCalls (m : DenseMap K V) (hint : Nat) (pairs : List (K × V)) :
    m.extend hint pairs = (runCalls Call.run m (extendCalls hint pairs)).map Prod.snd := by
  have hput (m : DenseMap K V) (pair : K × V) :
      (Call.run m (.put pair.1 pair.2)).map Prod.snd = m.put pair.1 pair.2 := by
    rw [Call.run]
    cases m.put pair.1 pair.2 with
    | error e => rfl
    | ok m => rfl
  rw [map_snd_runCalls, extendCalls, List.foldlM_cons, extend, Call.run]
  simp only [List.foldlM_map, hput]
  cases m.reserve (min hint (maxCapacity - m.size)) with
  | error e => rfl
  | ok m => rfl

/-- From an empty map on, a program whose list of entries stays below the ceiling gets the answers
of that list, and a map that shows it, after each call exactly if none of its calls runs into a jam.
-/
theorem follows_list_iff (hk : keys.Consistent) {capacity : Nat} (hc : capacity ≤ maxCapacity) :
    ∃ m : DenseMap K V, withCapacity capacity keys = .ok m ∧ ∀ calls : List (Call K V),
      (∀ done, done <+: calls → (modelCalls (Call.onList keys) #[] done).2.size < maxCapacity) →
      (Follows Call.run (Call.onList keys) (Shows keys) m #[] calls ↔
        Avoids Call.run (fun m call ↦ call.Jams m) m calls) := by
  obtain ⟨m, hok, hm⟩ : ∃ m : DenseMap K V, withCapacity capacity keys = .ok m ∧
      Represents keys m #[] := Represents.withCapacity hc
  refine ⟨m, hok, fun calls hbelow ↦ ?_⟩
  exact follows_iff_avoids (R := Represents keys) (fun m l h ↦ h.shows hk)
    (fun m l call h hfit hj ↦ h.run hk hfit hj)
    (fun m l call h hj answer m' hrun ↦ h.not_shows_of_jams hk hj hrun) hm hbelow

end DenseMap

end RobinHood
