import Mathlib.Data.List.Infix
import RobinHood.Proofs.Set.Refinement

/-!
# When maps and sets behave like lists

Programs that stay below the ceiling cannot tell a map from a list of entries, nor a set from a list
of elements, until an insertion runs into a jam. Programs that insert and remove keys of few hashes
do run into jams.
-/

namespace RobinHood

open DenseMap

variable {K V : Type}

/-- From an empty map or set on, a program whose list stays below the ceiling gets the answers of
that list, and a map or set that shows it, after each call exactly if none of its insertions runs
into a jam. Extending a map or set is making room and then inserting one by one. No insertion runs
into a jam while some row is empty. -/
theorem follow_lists_iff_avoid_jams {keys : KeySemantics K} (hk : keys.Consistent) {capacity : Nat}
    (hc : capacity ≤ maxCapacity) :
    (∃ m : DenseMap K V, DenseMap.withCapacity capacity keys = .ok m ∧
      ∀ calls : List (DenseMap.Call K V),
        (∀ done, done <+: calls →
          (modelCalls (DenseMap.Call.onList keys) #[] done).2.size < maxCapacity) →
        (Follows DenseMap.Call.run (DenseMap.Call.onList keys) (DenseMap.Shows keys) m #[] calls ↔
          Avoids DenseMap.Call.run (fun m call ↦ call.Jams m) m calls)) ∧
    (∀ (m : DenseMap K V) hint pairs, m.extend hint pairs =
      (runCalls DenseMap.Call.run m (DenseMap.extendCalls hint pairs)).map Prod.snd) ∧
    (∃ s : DenseSet K, DenseSet.withCapacity capacity keys = .ok s ∧
      ∀ calls : List (DenseSet.Call K),
        (∀ done, done <+: calls →
          (modelCalls (DenseSet.Call.onList keys) #[] done).2.size < maxCapacity) →
        (Follows DenseSet.Call.run (DenseSet.Call.onList keys) (DenseSet.Shows keys) s #[] calls ↔
          Avoids DenseSet.Call.run (fun s call ↦ call.Jams s) s calls)) ∧
    (∀ (s : DenseSet K) hint elements, s.extend hint elements =
      (runCalls DenseSet.Call.run s (DenseSet.extendCalls hint elements)).map Prod.snd) ∧
    (∀ (t grown : Table K V) key, t.reserveOne = .ok grown →
      (∃ pos < grown.rows.size, (Index.rowAt grown.rows pos).isEmpty = true) →
      ¬ t.JamsOn keys key) :=
  ⟨DenseMap.follows_list_iff hk hc, DenseMap.extend_eq_runCalls, DenseSet.follows_list_iff hk hc,
    DenseSet.extend_eq_runCalls, fun _ _ _ hr he ↦ Table.not_jamsOn_of_isEmpty hr he⟩

/-- Calls that jam a map of capacity seven, and then look for a key that was pushed out of reach. -/
private def jamming : List (DenseMap.Call Nat Nat) :=
  [.insert 70 0, .insert 71 1, .insert 72 2, .insert 73 3, .take 71, .take 72, .insert 80 10,
    .insert 81 11, .insert 82 12, .insert 83 13, .take 70, .insert 84 14, .insert 85 15, .get 73]

private theorem jamming_below : ∀ done, done <+: jamming →
    (modelCalls (DenseMap.Call.onList Table.tens) #[] done).2.size < maxCapacity := by
  have hall : ∀ done ∈ jamming.inits,
      (modelCalls (DenseMap.Call.onList Table.tens) #[] done).2.size < maxCapacity := by
    decide +kernel
  exact fun done hd ↦ hall done ((List.mem_inits _ _).mpr hd)

private theorem not_follows_jamming {m : DenseMap Nat Nat}
    (h : DenseMap.withCapacity 7 Table.tens = .ok m) :
    ¬ Follows DenseMap.Call.run (DenseMap.Call.onList Table.tens) (DenseMap.Shows Table.tens) m #[]
      jamming := by
  intro hfollows
  obtain ⟨m', hrun, -⟩ := hfollows jamming (List.prefix_refl _)
  have hm : m = ⟨.blank 7, Table.tens⟩ := (Except.ok.inj h).symm
  have hbad : ((runCalls DenseMap.Call.run ⟨.blank 7, Table.tens⟩ jamming).toOption.map Prod.fst) ≠
      some (modelCalls (DenseMap.Call.onList Table.tens) #[] jamming).1 := by
    decide +kernel
  rw [hm] at hrun
  rw [hrun] at hbad
  exact hbad rfl

/-- With consistent key semantics, from a small capacity and far below the ceiling, a program can
tell a map from a list of entries. -/
theorem not_all_programs_follow : ¬ ∀ keys : KeySemantics Nat, keys.Consistent →
    ∀ capacity ≤ maxCapacity, ∀ calls : List (DenseMap.Call Nat Nat),
      (∀ done, done <+: calls →
        (modelCalls (DenseMap.Call.onList keys) #[] done).2.size < maxCapacity) →
      ∃ m, DenseMap.withCapacity capacity keys = .ok m ∧
        Follows DenseMap.Call.run (DenseMap.Call.onList keys) (DenseMap.Shows keys) m #[]
          calls := by
  intro hall
  obtain ⟨m, hok, hfollows⟩ :=
    hall Table.tens (KeySemantics.consistent_beq _) 7 (by decide) jamming jamming_below
  exact not_follows_jamming hok hfollows

/-- Calls that take keys out and put others in their place, with room and an empty row at each. -/
private def churning : List (DenseMap.Call Nat Nat) :=
  [.insert 70 0, .insert 71 1, .insert 80 2, .take 70, .insert 72 3, .insertWith 71 5 (· + ·),
    .erase 80, .update 90 fun stored ↦ stored.elim 9 (· + 1), .get 72, .contains 80, .get 71]

private theorem churning_below : ∀ done, done <+: churning →
    (modelCalls (DenseMap.Call.onList Table.tens) #[] done).2.size < maxCapacity := by
  have hall : ∀ done ∈ churning.inits,
      (modelCalls (DenseMap.Call.onList Table.tens) #[] done).2.size < maxCapacity := by
    decide +kernel
  exact fun done hd ↦ hall done ((List.mem_inits _ _).mpr hd)

/-- The map has room for one more entry and an empty row. -/
private def isRoomy (m : DenseMap Nat Nat) : Bool :=
  decide (m.table.size < m.table.capacity) && m.table.rows.any Row.isEmpty

private theorem not_jams_of_isRoomy {m : DenseMap Nat Nat} (h : isRoomy m = true)
    (call : DenseMap.Call Nat Nat) : ¬ call.Jams m := by
  simp only [isRoomy, Bool.and_eq_true, decide_eq_true_eq, Array.any_eq_true] at h
  obtain ⟨hroom, pos, hpos, he⟩ := h
  have hempty : (Index.rowAt m.table.rows pos).isEmpty = true := by
    rwa [Index.rowAt_eq_getElem hpos]
  have hno (key : Nat) : ¬ m.table.JamsOn m.keys key :=
    Table.not_jamsOn_of_isEmpty (Table.reserveOne_of_lt hroom) ⟨pos, hpos, hempty⟩
  cases call with
  | insert key | insertWith key | put key | update key => exact hno key
  | modify | take | erase | get | getEntry | contains | size | reserve | expect | clear => exact id

/-- A program that finds room and an empty row at each call runs into no jam. -/
private theorem avoids_of_isRoomy {m : DenseMap Nat Nat} {calls : List (DenseMap.Call Nat Nat)}
    (h : ∀ done ∈ calls.inits,
      ((runCalls DenseMap.Call.run m done).toOption.all fun r ↦ isRoomy r.2) = true) :
    Avoids DenseMap.Call.run (fun m call ↦ call.Jams m) m calls := by
  intro done call hd answers m' hrun
  have hroomy := h done ((List.mem_inits _ _).mpr ((List.prefix_append done [call]).trans hd))
  rw [hrun] at hroomy
  exact not_jams_of_isRoomy hroomy call

/-- The theorem at a map of capacity seven: a program that removes keys and reuses the tombstone of
one of them follows the list of its entries, and one that does not runs into a jam. -/
theorem follow_lists_tens : ∃ m : DenseMap Nat Nat, DenseMap.withCapacity 7 Table.tens = .ok m ∧
    Follows DenseMap.Call.run (DenseMap.Call.onList Table.tens) (DenseMap.Shows Table.tens) m #[]
      churning ∧
    ([3, 4, 5].map fun n ↦ (runCalls DenseMap.Call.run m (churning.take n)).toOption.map
      fun r ↦ Index.tombstones r.2.table.rows) = [some 0, some 1, some 0] ∧
    ∃ calls, ¬ Avoids DenseMap.Call.run (fun m call ↦ call.Jams m) m calls := by
  obtain ⟨⟨m, hok, hiff⟩, -⟩ := follow_lists_iff_avoid_jams (V := Nat)
    (KeySemantics.consistent_beq fun k : Nat ↦ (k / 10).toUInt64) (show 7 ≤ maxCapacity by decide)
  have hm : m = ⟨.blank 7, Table.tens⟩ := (Except.ok.inj hok).symm
  have hroomy : ∀ done ∈ churning.inits, ((runCalls DenseMap.Call.run ⟨.blank 7, Table.tens⟩
      done).toOption.all fun r ↦ isRoomy r.2) = true := by
    decide +kernel
  rw [← hm] at hroomy
  refine ⟨m, hok, (hiff churning churning_below).mpr (avoids_of_isRoomy hroomy), ?_, jamming,
    mt (hiff jamming jamming_below).mpr (not_follows_jamming hok)⟩
  rw [hm]
  decide +kernel

end RobinHood
