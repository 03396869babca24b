import RobinHood.Proofs.Index.Crowd
import RobinHood.Proofs.Table.Reachable
import RobinHood.Proofs.Table.WellFormed

/-!
# Filling a table with new keys

A table into which only new keys were put has no tombstones, so each insertion below the ceiling
succeeds and appends an entry. The entries are then those put in, in their order; the rows have the
hashes of the keys, whatever the order; and the capacity depends on the number of keys alone.
Nothing is assumed about hash and equality but that no two of the keys count as one.
-/

namespace RobinHood

namespace Table

open Index

variable {K V : Type} {t t' : Table K V} {hash : K → UInt64} {eq : K → K → Bool}
  {merge : V → V → V} {capacity : Nat}

/-- The capacity of a table with `size` entries once there is room for one more. -/
def nextCapacity (capacity size : Nat) : Nat :=
  if size < capacity then capacity else min (capacity * 2) maxCapacity

/-- The capacity of a table once `count` new keys were put into it, which was empty before. -/
def capacityAfter (capacity : Nat) : Nat → Nat
  | 0 => capacity
  | count + 1 => nextCapacity (capacityAfter capacity count) count

/-- The table with the given entries inserted one by one. -/
def insertAll [WalkLimit] (hash : K → UInt64) (eq : K → K → Bool) (merge : V → V → V)
    (t : Table K V) (entries : List (K × V)) : Except Error (Table K V) :=
  entries.foldlM
    (fun t e ↦ do return (← Halt.forget (t.insertWith (hash e.1) e.1 e.2 eq merge)).2) t

/-- The table of a starting capacity with the given entries inserted one by one. -/
def ofEntries [WalkLimit] (hash : K → UInt64) (eq : K → K → Bool) (merge : V → V → V)
    (capacity : Nat) (entries : List (K × V)) : Except Error (Table K V) := do
  insertAll hash eq merge (← withCapacity capacity) entries

/-- Making room for one more entry changes the capacity only if the table is full. -/
theorem Indexed.capacity_reserveOne [WalkLimit] (h : t.Indexed) (hr : t.reserveOne = .ok t') :
    t'.capacity = nextCapacity t.capacity t.size := by
  unfold reserveOne at hr
  unfold nextCapacity
  split at hr
  · next hlt =>
    cases hr
    rw [if_pos hlt]
  · next hge =>
    split at hr
    · cases hr
    · next hmax =>
      obtain ⟨grown, hg, -, hcap⟩ :=
        exists_grow h.rows_size h.length_liveRows_le (Nat.min_le_right (t.capacity * 2) maxCapacity)
      rw [hr] at hg
      cases hg
      rw [if_neg hge, hcap]
      omega

/-- A key that is not stored is put into a table without tombstones, and appended to the store. -/
theorem Built.exists_insertWith_of_new [WalkLimit] (h : t.Built) (hf : Fresh t.rows)
    (hlt : t.size < maxCapacity) {key : K} (hnew : ∀ e ∈ t.entries, eq key e.1 = false)
    (hash : UInt64) (value : V) (merge : V → V → V) :
    ∃ t', t.insertWith hash key value eq merge = .ok (none, t') ∧ t'.Built ∧ Fresh t'.rows ∧
      t'.entries = t.entries.push (key, value) ∧
      (hashes t'.rows).Perm (scramble hash :: hashes t.rows) ∧
      t'.capacity = nextCapacity t.capacity t.size := by
  rcases reserveOne_cases h.indexed.rows_size h.indexed.length_liveRows_le h.indexed.size_le with
    ⟨grown, hr, hg, -⟩ | ⟨hfull, hmax, -⟩
  swap
  · omega
  obtain ⟨hbuilt, hsize, hroom⟩ := h.reserveOne hr
  have hfresh : Fresh grown.rows := by
    rcases hg.layout with hsame | hfresh
    · rwa [hsame]
    · exact hfresh
  have hne := scramble_ne_zero hash
  have hfits : grown.size < Row.entryBound := lt_entryBound hbuilt.size_le
  have hfree : (liveRows grown.rows).length < grown.rows.size := by
    have hcount := lt_rowCount grown.capacity
    rw [hbuilt.indexed.length_liveRows, hbuilt.indexed.rows_size]
    omega
  have habsent (entry : Nat) :
      findSpot grown.rows (scramble hash) (grown.holdsAt (eq key)) ≠ .held entry := by
    intro hheld
    obtain ⟨e, he, heq⟩ := exists_getElem?_of_find? (findSpot_eq_held_iff_find?.mp hheld)
    rw [hg.entries_eq] at he
    rw [hnew e (Array.mem_of_getElem? he)] at heq
    cases heq
  obtain ⟨n, hends⟩ := findSpot_ends grown.size habsent
  obtain ⟨rows, hfill, hfresh'⟩ := hfresh.fill? hfree hne hfits hends
  have hok : t.insertWith hash key value eq merge =
      .ok (none, { grown with rows := rows, entries := grown.entries.push (key, value) }) := by
    apply bind_eq_ok_iff.mpr
    refine ⟨grown, hr, ?_⟩
    exact put_of_fill? habsent hfill
  have hcap := h.indexed.capacity_reserveOne hr
  refine ⟨_, hok, h.insertWith hok, hfresh', ?_, ?_, hcap⟩
  · rw [hg.entries_eq]
  · have hrows := (hends.liveRows_fill? hbuilt.indexed.rows_pos hne hfits hfill).map Row.hash
    rw [List.map_cons, Row.hash_live] at hrows
    exact hrows.trans ((hg.perm.map _).cons _)

/-- What filling an empty table with entries has made of it. -/
structure Filled (hash : K → UInt64) (capacity : Nat) (l : List (K × V)) (t : Table K V) :
    Prop where
  built : t.Built
  fresh : Fresh t.rows
  entries_eq : t.entries.toList = l
  hashes_perm : (hashes t.rows).Perm (l.map fun e ↦ scramble (hash e.1))
  capacity_eq : t.capacity = capacityAfter capacity l.length

/-- No two keys of a list count as one, whichever of them is looked for. -/
def AllNew (eq : K → K → Bool) (keys : List K) : Prop :=
  keys.Pairwise fun a b ↦ eq a b = false ∧ eq b a = false

namespace Filled

variable {l done : List (K × V)}

theorem size_eq (h : Filled hash capacity l t) : t.size = l.length := by
  rw [size, ← Array.length_toList, h.entries_eq]

theorem blank (hmin : minCapacity ≤ capacity) (hmax : capacity ≤ maxCapacity) :
    Filled hash capacity [] (Table.blank capacity : Table K V) where
  built := ⟨.blank capacity, hmin, hmax⟩
  fresh := .blank _
  entries_eq := rfl
  hashes_perm := by
    rw [hashes, Table.blank, liveRows_blank]
    exact .refl _
  capacity_eq := rfl

/-- One more new key. -/
theorem exists_insertWith [WalkLimit] (h : Filled hash capacity l t) (hlt : l.length < maxCapacity)
    {e : K × V} (hnew : ∀ e' ∈ l, eq e.1 e'.1 = false) (merge : V → V → V) :
    ∃ t', t.insertWith (hash e.1) e.1 e.2 eq merge = .ok (none, t') ∧
      Filled hash capacity (l ++ [e]) t' := by
  have hentries : ∀ e' ∈ t.entries, eq e.1 e'.1 = false := by
    intro e' he'
    rw [← Array.mem_toList_iff, h.entries_eq] at he'
    exact hnew e' he'
  obtain ⟨t', hok, hbuilt, hfresh, hpush, hperm, hcap⟩ :=
    h.built.exists_insertWith_of_new h.fresh (by rwa [h.size_eq]) hentries (hash e.1) e.2 merge
  refine ⟨t', hok, hbuilt, hfresh, ?_, ?_, ?_⟩
  · rw [hpush, Array.toList_push, h.entries_eq]
  · rw [List.map_append, List.map_singleton]
    exact (hperm.trans (h.hashes_perm.cons _)).trans (List.perm_append_singleton _ _).symm
  · rw [hcap, h.capacity_eq, h.size_eq, List.length_append, List.length_singleton, capacityAfter]

/-- Filling a table further. -/
theorem exists_insertAll [WalkLimit] (h : Filled hash capacity done t)
    (hlt : done.length + l.length ≤ maxCapacity)
    (hnew : AllNew eq ((done ++ l).map Prod.fst)) (merge : V → V → V) :
    ∃ t', insertAll hash eq merge t l = .ok t' ∧ Filled hash capacity (done ++ l) t' := by
  induction l generalizing t done with
  | nil =>
    rw [List.append_nil]
    exact ⟨t, rfl, h⟩
  | cons e l ih =>
    rw [List.length_cons] at hlt
    have hfirst : ∀ e' ∈ done, eq e.1 e'.1 = false := by
      intro e' he'
      rw [AllNew, List.map_append, List.pairwise_append] at hnew
      exact (hnew.2.2 e'.1 (List.mem_map_of_mem he') e.1 List.mem_cons_self).2
    obtain ⟨next, hok, hnext⟩ := h.exists_insertWith (by omega) hfirst merge
    rw [← List.singleton_append, ← List.append_assoc] at hnew ⊢
    obtain ⟨t', hrest, ht'⟩ := ih hnext
      (by rw [List.length_append, List.length_singleton]; omega) hnew
    refine ⟨t', ?_, ht'⟩
    rw [List.singleton_append, insertAll, List.foldlM_cons]
    exact bind_eq_ok_iff.mpr
      ⟨next, bind_eq_ok_iff.mpr ⟨_, Halt.forget_eq_ok_iff.mpr hok, rfl⟩, hrest⟩

end Filled

/-- Up to the ceiling, an empty table is filled with new keys. -/
theorem exists_ofEntries [WalkLimit] {l : List (K × V)} (hmax : capacity ≤ maxCapacity)
    (hlen : l.length ≤ maxCapacity) (hnew : AllNew eq (l.map Prod.fst)) (hash : K → UInt64)
    (merge : V → V → V) :
    ∃ t, ofEntries hash eq merge capacity l = .ok t ∧
      Filled hash (max capacity minCapacity) l t := by
  have hbound : max capacity minCapacity ≤ maxCapacity := Nat.max_le.mpr ⟨hmax, by decide⟩
  have hblank : Filled hash (max capacity minCapacity) []
      (Table.blank (max capacity minCapacity) : Table K V) := .blank (Nat.le_max_right _ _) hbound
  obtain ⟨t, hok, ht⟩ := hblank.exists_insertAll (l := l)
    (by rwa [List.length_nil, Nat.zero_add]) hnew merge
  refine ⟨t, bind_eq_ok_iff.mpr ⟨_, ?_, hok⟩, ht⟩
  rw [withCapacity, if_neg (Nat.not_lt.mpr hmax)]

/-- Past the ceiling, the first key too many is refused. -/
theorem ofEntries_eq_error [WalkLimit] {l : List (K × V)} (hmax : capacity ≤ maxCapacity)
    (hlen : maxCapacity < l.length) (hnew : AllNew eq (l.map Prod.fst)) (hash : K → UInt64)
    (merge : V → V → V) :
    ofEntries hash eq merge capacity l =
      .error (.capacityExceeded (maxCapacity + 1) maxCapacity) := by
  have hdrop : l.drop maxCapacity = l[maxCapacity] :: l.drop (maxCapacity + 1) :=
    List.drop_eq_getElem_cons hlen
  have hfirst : (l.take maxCapacity).length = maxCapacity :=
    List.length_take_of_le (Nat.le_of_lt hlen)
  have hnew' : AllNew eq ((l.take maxCapacity).map Prod.fst) :=
    hnew.sublist ((List.take_sublist _ _).map _)
  obtain ⟨t, hok, ht⟩ := exists_ofEntries hmax (Nat.le_of_eq hfirst) hnew' hash merge
  obtain ⟨start, hstart, hfull⟩ := bind_eq_ok_iff.mp hok
  have hsize : t.size = maxCapacity := by rw [ht.size_eq, hfirst]
  have hcap : t.capacity = maxCapacity :=
    Nat.le_antisymm ht.built.le_maxCapacity (hsize ▸ ht.built.indexed.size_le)
  have hrefused : t.reserveOne = .error ⟨.capacityExceeded (maxCapacity + 1) maxCapacity, t⟩ := by
    rw [reserveOne, if_neg (by omega), if_pos (by omega), hcap]
  rw [ofEntries, hstart, ← List.take_append_drop maxCapacity l, hdrop]
  change insertAll hash eq merge start _ = _
  unfold insertAll at hfull ⊢
  rw [List.foldlM_append, hfull]
  change List.foldlM _ t _ = _
  rw [List.foldlM_cons, insertWith, hrefused]
  rfl

end Table

end RobinHood
