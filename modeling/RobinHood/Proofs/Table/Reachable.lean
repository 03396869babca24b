import RobinHood.Proofs.Table.Bulk

/-!
# Tables that programs build

A program starts from empty tables and calls operations with whatever functions it likes, different
ones at every call. Whatever it does, in each table that it gets hold of the store and the
index agree, and all that the operations take for granted about their table is so.
-/

namespace RobinHood

namespace Table

open Index Placement

/-- The tables that programs can get hold of. A refused call leaves its table as it was, and a copy
of a table is the same table. -/
inductive Reachable [WalkLimit] {K : Type} : {V : Type} → Table K V → Prop
  | withCapacity {V : Type} {t : Table K V} {capacity : Nat} :
      withCapacity capacity = .ok t → Reachable t
  | insertWith {V : Type} {t t' : Table K V} {hash : UInt64} {key : K} {value : V}
      {eq : K → K → Bool} {merge : V → V → V} {answer : Option V} :
      Reachable t → t.insertWith hash key value eq merge = .ok (answer, t') → Reachable t'
  | remove {V : Type} {t : Table K V} (hash : UInt64) (eq : K → Bool) (hasher : K → UInt64) :
      Reachable t → Reachable (t.remove hash eq hasher).2
  | reserve {V : Type} {t t' : Table K V} {additional : Nat} :
      Reachable t → t.reserve additional = .ok t' → Reachable t'
  | modifyValue {V : Type} {t : Table K V} (entry : Nat) (f : V → V) :
      Reachable t → Reachable (t.modifyValue entry f)
  | clear {V : Type} {t : Table K V} : Reachable t → Reachable t.clear
  | mergeWith {V : Type} {t other : Table K V} {m : Merged K V} {hasher : K → UInt64}
      {eq : K → K → Bool} {merge : V → V → V} :
      Reachable t → Reachable other → t.mergeWith other hasher eq merge = .ok m →
      Reachable m.table
  | select {V W : Type} {t t' : Table K V} {other : Table K W} {hasher : K → UInt64}
      {eq : K → K → Bool} {found : Bool} :
      Reachable t → Reachable other → t.select other hasher eq found = .ok t' → Reachable t'
  | split {V : Type} {t t' : Table K V} {ts : List (Table K V)} {parts : Nat} :
      Reachable t → t.split parts = .ok ts → t' ∈ ts → Reachable t'

variable {K V : Type} {t t' : Table K V}

/-- An indexed table whose capacity is one that tables are given. -/
structure Built (t : Table K V) : Prop where
  indexed : t.Indexed
  minCapacity_le : minCapacity ≤ t.capacity
  le_maxCapacity : t.capacity ≤ maxCapacity

namespace Built

theorem size_le (h : t.Built) : t.size ≤ maxCapacity :=
  Nat.le_trans h.indexed.size_le h.le_maxCapacity

theorem of_grown (h : t.Built) (hg : Grown t t') (hle : t'.capacity ≤ max t.capacity maxCapacity) :
    t'.Built := by
  have hmin := h.minCapacity_le
  have hmax := h.le_maxCapacity
  have hge := hg.capacity_le
  exact ⟨h.indexed.of_grown hg, by omega, by omega⟩

/-- Room for one more entry, once made, is there. -/
theorem reserveOne [WalkLimit] (h : t.Built) (hr : t.reserveOne = .ok t') :
    t'.Built ∧ t'.size = t.size ∧ t'.size < t'.capacity := by
  rcases reserveOne_cases h.indexed.rows_size h.indexed.length_liveRows_le h.indexed.size_le with
    ⟨grown, hok, hg, hle, hroom⟩ | ⟨-, -, herr⟩
  · rw [hok] at hr
    cases hr
    refine ⟨h.of_grown hg hle, hg.size_eq, ?_⟩
    have hmin := h.minCapacity_le
    rw [hg.size_eq]
    unfold minCapacity at hmin
    omega
  · rw [herr] at hr
    cases hr

theorem insertWith [WalkLimit] (h : t.Built) {hash : UInt64} {key : K} {value : V}
    {eq : K → K → Bool} {merge : V → V → V} {answer : Option V}
    (hi : t.insertWith hash key value eq merge = .ok (answer, t')) : t'.Built := by
  obtain ⟨grown, hr, hp⟩ := bind_eq_ok_iff.mp hi
  obtain ⟨hbuilt, -, hroom⟩ := h.reserveOne hr
  have hindexed := hbuilt.indexed.put hroom hbuilt.le_maxCapacity (scramble_ne_zero hash) hp
  have hcap : t'.capacity = grown.capacity := by
    rcases put_cases hp with ⟨entry, -, -, rfl⟩ | ⟨rows, -, -, -, rfl⟩
    · rfl
    · rfl
  refine ⟨hindexed, ?_, ?_⟩
  · rw [hcap]
    exact hbuilt.minCapacity_le
  · rw [hcap]
    exact hbuilt.le_maxCapacity

theorem remove (h : t.Built) (hash : UInt64) (eq : K → Bool) (hasher : K → UInt64) :
    (t.remove hash eq hasher).2.Built := by
  refine ⟨h.indexed.remove hash eq hasher, ?_, ?_⟩
  · rw [capacity_remove]
    exact h.minCapacity_le
  · rw [capacity_remove]
    exact h.le_maxCapacity

theorem modifyValue (h : t.Built) (entry : Nat) (f : V → V) : (t.modifyValue entry f).Built :=
  ⟨h.indexed.modifyValue entry f, h.minCapacity_le, h.le_maxCapacity⟩

theorem clear (h : t.Built) : t.clear.Built :=
  ⟨h.indexed.clear, h.minCapacity_le, h.le_maxCapacity⟩

theorem reserve [WalkLimit] (h : t.Built) {additional : Nat} (hr : t.reserve additional = .ok t') :
    t'.Built := by
  rcases reserve_cases h.indexed.rows_size h.indexed.length_liveRows_le additional with
    ⟨grown, hok, hg, hle, -⟩ | ⟨-, herr⟩
  · rw [hok] at hr
    cases hr
    exact h.of_grown hg hle
  · rw [herr] at hr
    cases hr

theorem grow [WalkLimit] (h : t.Built) {capacity : Nat} (hg : t.grow capacity = .ok t') :
    t'.Built := by
  obtain ⟨hle, -⟩ := grow_cases hg
  obtain ⟨grown, hok, hgrown, hcap⟩ :=
    exists_grow h.indexed.rows_size h.indexed.length_liveRows_le hle
  rw [hok] at hg
  cases hg
  exact h.of_grown hgrown (by omega)

theorem mergeWith [WalkLimit] (h : t.Built) {other : Table K V} {m : Merged K V}
    {hasher : K → UInt64} {eq : K → K → Bool} {merge : V → V → V}
    (hm : t.mergeWith other hasher eq merge = .ok m) : m.table.Built := by
  obtain ⟨grown, hg, hloop⟩ := bind_eq_ok_iff.mp hm
  have hgrown := h.grow (Halt.forget_eq_ok_iff.mp hg)
  refine foldlM_keeps (P := fun m : Merged K V ↦ m.table.Built) ?_ hgrown hloop
  intro m e _ m' hbuilt hinsert
  obtain ⟨⟨answer, table⟩, hi, hok⟩ := bind_eq_ok_iff.mp hinsert
  cases hok
  exact hbuilt.insertWith (Halt.forget_eq_ok_iff.mp hi)

theorem ofRows [WalkLimit] {kept : List (Row × K × V)} (hkept : kept.Sublist t.entriesByRow)
    {capacity : Nat} (hlen : kept.length ≤ capacity) (hle : capacity ≤ maxCapacity) :
    ∃ t', Table.ofRows capacity kept = .ok t' ∧ t'.Built ∧
      t'.entries.toList = kept.map Prod.snd ∧ capacity ≤ t'.capacity := by
  obtain ⟨t', hok, hindexed, -, hcap, hentries, -⟩ :=
    exists_ofRows (fun e he ↦ (mem_entriesByRow (hkept.subset he)).1) hlen hle
  refine ⟨t', hok, ⟨hindexed, ?_, ?_⟩, hentries, ?_⟩
  · rw [hcap]
    exact Nat.le_max_right _ _
  · rw [hcap]
    unfold minCapacity maxCapacity at *
    omega
  · rw [hcap]
    exact Nat.le_max_left _ _

theorem length_entriesByRow_le (h : t.Built) : t.entriesByRow.length ≤ t.size := by
  rw [← h.indexed.length_liveRows]
  exact Table.length_entriesByRow_le t

theorem select [WalkLimit] {W : Type} (h : t.Built) {other : Table K W} {hasher : K → UInt64}
    {eq : K → K → Bool} {found : Bool} (hs : t.select other hasher eq found = .ok t') :
    t'.Built := by
  unfold Table.select at hs
  generalize hfilter : t.entriesByRow.filter _ = kept at hs
  have hkept : kept.Sublist t.entriesByRow := by
    rw [← hfilter]
    exact List.filter_sublist
  obtain ⟨made, hok, hbuilt, -⟩ :=
    ofRows hkept (Nat.le_trans hkept.length_le h.length_entriesByRow_le) h.size_le
  rw [hok] at hs
  cases hs
  exact hbuilt

theorem split [WalkLimit] (h : t.Built) {parts : Nat} {ts : List (Table K V)}
    (hs : t.split parts = .ok ts) (ht : t' ∈ ts) : t'.Built := by
  unfold Table.split at hs
  split at hs
  · cases hs
    cases ht
  · cases hs
    rw [List.mem_singleton.mp ht]
    exact h
  · obtain ⟨kept, hkept, hok⟩ := mem_of_mapM_eq_ok hs ht
    obtain ⟨rows, hrows, rfl⟩ := List.mem_map.mp (List.mem_of_mem_filter hkept)
    have hsub := entriesByRow_block_sublist t hrows
    obtain ⟨made, hmade, hbuilt, -⟩ := ofRows hsub (Nat.le_refl _)
      (Nat.le_trans (Nat.le_trans hsub.length_le h.length_entriesByRow_le) h.size_le)
    rw [hmade] at hok
    cases hok
    exact hbuilt

end Built

/-- A table that is made within the ceiling is blank. -/
theorem withCapacity_eq_ok {capacity : Nat} (h : withCapacity capacity = .ok t) :
    capacity ≤ maxCapacity ∧ t = blank (max capacity minCapacity) := by
  unfold Table.withCapacity at h
  split at h
  · cases h
  · next hle => exact ⟨Nat.not_lt.mp hle, (Except.ok.inj h).symm⟩

/-- Whatever functions a program hands in, the tables that it gets hold of are indexed. -/
theorem Reachable.built [WalkLimit] {t : Table K V} (h : Reachable t) : t.Built := by
  induction h with
  | @withCapacity _ t capacity h =>
    obtain ⟨hle, rfl⟩ := withCapacity_eq_ok h
    refine ⟨.blank _, Nat.le_max_right _ _, ?_⟩
    change max capacity minCapacity ≤ maxCapacity
    unfold minCapacity maxCapacity at *
    omega
  | insertWith _ hi ih => exact ih.insertWith hi
  | remove hash eq hasher _ ih => exact ih.remove hash eq hasher
  | reserve _ hr ih => exact ih.reserve hr
  | modifyValue entry f _ ih => exact ih.modifyValue entry f
  | clear _ ih => exact ih.clear
  | mergeWith _ _ hm ih _ => exact ih.mergeWith hm
  | select _ _ hs ih _ => exact ih.select hs
  | split _ hs ht ih => exact ih.split hs ht

/-- What the operations take for granted about their table, and would fail without. -/
structure Guarded [WalkLimit] (t : Table K V) : Prop where
  /-- Each position of the store has exactly one live row. -/
  owner : ∀ entry < t.size,
    ∃! pos, (rowAt t.rows pos).isLive = true ∧ (rowAt t.rows pos).entry = entry
  /-- No live row points anywhere else. -/
  inside : ∀ pos, (rowAt t.rows pos).isLive = true → (rowAt t.rows pos).entry < t.size
  /-- A row whose key is compared points into the store. -/
  compared : ∀ hash pos, carries (rowAt t.rows pos) (scramble hash) = true →
    (rowAt t.rows pos).entry < t.size
  /-- Where an entry is removed there is a last entry, and its row is found if it has to move. -/
  removable : ∀ hash eq pos, t.findRow? (scramble hash) eq = some pos →
    0 < t.size ∧ ((rowAt t.rows pos).entry ≠ t.size - 1 → ∀ hasher, ∃ moved,
      t.movedRow? (rowAt t.rows pos).entry hasher = some moved ∧
        standsFor (rowAt t.rows moved) (t.size - 1) = true)
  /-- After room was made there is room. -/
  room : ∀ t', t.reserveOne = .ok t' → t'.size = t.size ∧ t'.size < t'.capacity
  /-- A table made of some of the entries has room for each of them when its turn comes. -/
  roomForRows : ∀ kept, kept.Sublist t.entriesByRow → ∀ capacity ≤ maxCapacity,
    kept.length ≤ capacity → ∀ done e rest, kept = done ++ e :: rest →
      ∃ t', ofRows capacity done = .ok t' ∧ t'.size < t'.capacity
  /-- Positions of the store, and the position after them, fit into a row. -/
  fits : t.size ≤ maxCapacity
  /-- In a walk that places a new key, or a live row again, each row that is packed has a hash and
  a position that fits. -/
  packed : ∀ hash, ((∃ h, hash = scramble h) ∨
      ∃ pos, (rowAt t.rows pos).isLive = true ∧ hash = (rowAt t.rows pos).hash) →
    ∀ entry ≤ maxCapacity, ∀ (rows : Index), ∀ pos < rows.size, ∀ n q,
      Reaches (start rows hash entry pos) n q → q.hash ≠ 0 ∧ q.entry ≤ Row.entryMask.toNat

theorem Built.guarded [WalkLimit] (h : t.Built) : t.Guarded where
  owner := by
    intro entry he
    obtain ⟨pos, hl, hentry⟩ := h.indexed.exists_row he
    refine ⟨pos, ⟨hl, hentry⟩, ?_⟩
    rintro other ⟨hl', hentry'⟩
    exact eq_of_entry_eq h.indexed.nodup hl' hl (hentry'.trans hentry.symm)
  inside := fun pos hl ↦ h.indexed.entry_lt hl
  compared := by
    intro hash pos hc
    have hm : Matches (rowAt t.rows pos) (scramble hash) fun _ ↦ true :=
      matches_iff.mp (by rw [hc]; rfl)
    exact h.indexed.entry_lt (hm.isLive (scramble_ne_zero hash))
  removable := by
    intro hash eq pos hfound
    have hentry := h.indexed.entry_lt (isLive_of_findRow? hfound)
    refine ⟨by omega, fun hne hasher ↦ ?_⟩
    obtain ⟨moved, hm, hl, he⟩ := h.indexed.paired.exists_movedRow? hentry hne hasher
    refine ⟨moved, hm, ?_⟩
    rw [standsFor, hl, he]
    simp
  room := by
    intro t' hr
    exact (h.reserveOne hr).2
  roomForRows := by
    rintro kept hsub capacity hle hlen done e rest rfl
    have hdone : done.Sublist t.entriesByRow := (List.sublist_append_left done _).trans hsub
    rw [List.length_append, List.length_cons] at hlen
    obtain ⟨t', hok, -, hentries, hcap⟩ := ofRows hdone (by omega) hle
    refine ⟨t', hok, ?_⟩
    rw [size, ← Array.length_toList, hentries, List.length_map]
    omega
  fits := h.size_le
  packed := by
    intro hash hhash entry he rows pos hpos n q hr
    have hne : hash ≠ 0 := by
      rcases hhash with ⟨key, rfl⟩ | ⟨pos, hl, rfl⟩
      · exact scramble_ne_zero key
      · exact Row.hash_ne_of_isLive hl
    have hvalid := (valid_start hpos hne (lt_entryBound he)).reaches hr
    exact ⟨hvalid.hash_ne, Nat.le_of_lt_succ hvalid.entry_lt⟩

/-- Whatever functions a program hands in, the store and the index of each table that it gets hold
of agree, and no operation on it runs into a missing row, a missing entry or a lack of room. -/
theorem guarded_of_reachable [WalkLimit] {t : Table K V} (h : Reachable t) : t.Guarded :=
  h.built.guarded

/-- The theorem at a table into which one key was put twice, under an equality that no key meets,
and from which it was then removed, under one that each key meets and with another hash. -/
theorem guarded_of_contradictory_calls : ∃ t : Table Nat Nat, Reachable t ∧ t.size = 1 ∧
    t.Guarded := by
  let twice : Except (Halt (Table Nat Nat)) (Option Nat × Table Nat Nat) := do
    let (_, t) ← (blank 4).insertWith 7 0 10 (fun _ _ ↦ false) fun _ new ↦ new
    t.insertWith 7 0 20 (fun _ _ ↦ false) fun _ new ↦ new
  have hsize : twice.map (fun r ↦ (r.2.remove 7 (fun _ ↦ true) Nat.toUInt64).2.size) = .ok 1 := by
    decide +kernel
  cases htwice : twice with
  | error e =>
    rw [htwice] at hsize
    cases hsize
  | ok r =>
    rw [htwice] at hsize
    obtain ⟨⟨_, once⟩, hfirst, hsecond⟩ := bind_eq_ok_iff.mp htwice
    have hblank : withCapacity 4 = .ok (blank 4 : Table Nat Nat) := rfl
    have hr := ((Reachable.withCapacity hblank).insertWith hfirst).insertWith hsecond
    have hreach := hr.remove 7 (fun _ ↦ true) Nat.toUInt64
    exact ⟨_, hreach, Except.ok.inj hsize, guarded_of_reachable hreach⟩

end Table

end RobinHood
