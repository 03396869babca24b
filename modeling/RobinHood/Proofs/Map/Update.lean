import RobinHood.Proofs.Map.Refinement
import RobinHood.Proofs.Table.Overrun

/-!
# Lookups decide insertions

The walk of an insertion and that of a lookup are two, but where there is room they come to one
decision on every table, also if its rows stand anywhere and its keys are hashed and compared
inconsistently: what a lookup finds is merged into, and what it does not find is appended. So an
update, which looks its key up before it inserts, does what an insertion with a merge does.
-/

namespace RobinHood

namespace DenseMap

open Table

variable {K V : Type} {m : DenseMap K V} {key : K} {entry : Nat}

/-- The value of a key that a lookup finds is replaced. -/
theorem modify_of_find?_eq_some {e : K × V} (h : m.find? key = some entry)
    (he : m.entries[entry]? = some e) (f : V → V) :
    m.modify key f = (some e.2, ⟨m.table.modifyValue entry f, m.keys⟩) := by
  simp only [modify, h, he, Option.map_some]

/-- In a map with room, updating a key is inserting it with the merge that does to stored values
what the update does. -/
theorem update_eq_insertWith [WalkLimit] (hroom : m.size < m.capacity) {f : Option V → V}
    {merge : V → V → V} {value : V} (hnone : f none = value)
    (hsome : ∀ stored, f (some stored) = merge stored value) :
    m.update key f = m.insertWith key value merge := by
  cases hfind : m.find? key with
  | some entry =>
    obtain ⟨e, he, -⟩ := exists_getElem?_of_find? hfind
    have hmodify := modify_of_find?_eq_some hfind he fun stored ↦ f (some stored)
    rw [update_of_modify (congrArg Prod.fst hmodify), hmodify, insertWith,
      insertWith_of_find?_eq_some hroom hfind, he]
    simp only [hsome]
    rfl
  | none =>
    rw [update_of_find?_eq_none hfind, hnone, insert, insertWith, insertWith,
      insertWith_of_find?_eq_none hroom hfind, insertWith_of_find?_eq_none hroom hfind]
    split
    · rfl
    · rfl

/-- On a table with room, whatever its rows are and however a hash and an equality contradict each
other, an insertion merges into the entry that a lookup finds, and into no other. Where a lookup
finds nothing, the insertion appends its entry, and the merge has no part in it, nor in the table
that is left if a walk that overruns is given up. So whatever its key semantics, a map with room is
left the same by an update and by an insertion that merges as the update does. -/
theorem lookup_decides_insertion [WalkLimit] {t : Table K V} (hroom : t.size < t.capacity) :
    (∀ (hash : UInt64) (eq : K → K → Bool) (key : K) (value : V),
      (∀ entry, t.find? hash (eq key) = some entry →
        ∃ e, t.entries[entry]? = some e ∧ ∀ merge, t.insertWith hash key value eq merge =
          .ok (some e.2,
            { t with entries := t.entries.modify entry fun e ↦ (e.1, merge e.2 value) })) ∧
      (t.find? hash (eq key) = none →
        (t.Overruns hash key eq ∧ ∃ rows, ∀ merge, t.insertWith hash key value eq merge =
          .error ⟨.noFreeRow, { t with rows := rows, entries := t.entries.push (key, value) }⟩) ∨
        ∃ rows, ∀ merge, t.insertWith hash key value eq merge =
          .ok (none, { t with rows := rows, entries := t.entries.push (key, value) }))) ∧
    ∀ (keys : KeySemantics K) (key : K) (value : V) (f : Option V → V) (merge : V → V → V),
      f none = value → (∀ stored, f (some stored) = merge stored value) →
        (⟨t, keys⟩ : DenseMap K V).update key f =
          (⟨t, keys⟩ : DenseMap K V).insertWith key value merge := by
  refine ⟨fun hash eq key value ↦ ⟨fun entry hfind ↦ ?_, fun hfind ↦ ?_⟩, ?_⟩
  · obtain ⟨e, he, -⟩ := exists_getElem?_of_find? hfind
    refine ⟨e, he, fun merge ↦ ?_⟩
    rw [insertWith_of_find?_eq_some hroom hfind, he]
    rfl
  · cases hfill : (Index.findSpot t.rows (scramble hash) (t.holdsAt (eq key))).fill t.rows
      (scramble hash) t.size with
    | settled rows =>
      right
      refine ⟨rows, fun merge ↦ ?_⟩
      rw [insertWith_of_find?_eq_none hroom hfind, hfill]
    | onward walk =>
      left
      have herror (merge : V → V → V) : t.insertWith hash key value eq merge = .error
          ⟨.noFreeRow, { t with rows := walk.rows, entries := t.entries.push (key, value) }⟩ := by
        rw [insertWith_of_find?_eq_none hroom hfind, hfill]
      exact ⟨overruns_of_lt hroom (herror fun _ new ↦ new), walk.rows, herror⟩
  · intro keys key value f merge hnone hsome
    exact update_eq_insertWith (m := ⟨t, keys⟩) hroom hnone hsome

/-- Four rows without an empty one, and a key that is stored twice, once under a wrong hash. -/
private def tangled : Table Nat Nat where
  rows := #[.live 6 2, .live 7 1, (Row.live 7 0).toTombstone, .live 6 0]
  entries := #[(60, 0), (70, 1), (70, 2)]
  capacity := 4
  indexMask := 3

/-- An order in place of an equality. -/
private def lopsided : KeySemantics Nat :=
  .ofFunctions (fun k ↦ (k / 10).toUInt64) fun a b ↦ decide (a ≤ b)

/-- The theorem at a table whose rows stand anywhere, under semantics that are not consistent: an
update adds to the value of the entry found for its key, past the end of the index, as an insertion
does; and under a hash where a lookup finds nothing, a key is appended that is stored already. -/
theorem lookup_decides_insertion_in_tangled :
    (⟨tangled, lopsided⟩ : DenseMap Nat Nat).update 65 (fun stored ↦ stored.elim 5 (· + 5)) =
        .ok (some 2, ⟨tangled.modifyValue 2 (· + 5), lopsided⟩) ∧
      ∃ rows, ∀ merge, tangled.insertWith 8 60 9 lopsided.eq merge =
        .ok (none, ⟨rows, #[(60, 0), (70, 1), (70, 2), (60, 9)], 4, 3⟩) := by
  have hroom : tangled.size < tangled.capacity := by decide
  obtain ⟨hinsert, hupdate⟩ := lookup_decides_insertion hroom
  constructor
  · obtain ⟨hfound, -⟩ := hinsert (lopsided.hash 65) lopsided.eq 65 5
    obtain ⟨e, he, hmerge⟩ := hfound 2 (by decide +kernel)
    cases he
    rw [hupdate lopsided 65 5 _ (fun stored new ↦ stored + new) rfl fun stored ↦ rfl, insertWith,
      hmerge]
    rfl
  · obtain ⟨-, habsent⟩ := hinsert 8 lopsided.eq 60 9
    apply (habsent (by decide +kernel)).resolve_left
    rintro ⟨-, rows, herror⟩
    have hok : (tangled.insertWith 8 60 9 lopsided.eq fun _ new ↦ new).isOk = true := by
      decide +kernel
    rw [herror] at hok
    cases hok

end DenseMap

end RobinHood
