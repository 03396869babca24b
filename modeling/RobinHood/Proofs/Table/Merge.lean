import Mathlib.Data.Multiset.Bind
import RobinHood.Proofs.Table.Bulk
import RobinHood.Proofs.Table.Insert
import RobinHood.Proofs.Table.Unrepeated

/-!
# Merging well-formed tables

Growth before the loop makes all the room that the loop can need, and drops the tombstones unless
the rows need not be laid out again. From there each insertion succeeds, and gives its key the
merged value.
-/

namespace RobinHood

namespace Table

open Index

variable {K V : Type} {keys : KeySemantics K} {t t' : Table K V} {merge : V → V → V}

/-! ### The loop -/

/-- The values that keys of a list have in a store, with those that they have in the list. -/
def shared (keys : KeySemantics K) (entries : Array (K × V)) (l : List (K × V)) : List (V × V) :=
  l.filterMap fun e ↦ (value? keys entries e.1).map (·, e.2)

private theorem shared_cons {entries : Array (K × V)} {e : K × V} {l : List (K × V)} :
    shared keys entries (e :: l) =
      ((value? keys entries e.1).map (·, e.2)).toList ++ shared keys entries l := by
  unfold shared
  rw [List.filterMap_cons]
  cases (value? keys entries e.1).map (·, e.2) with
  | none => rfl
  | some pair => rfl

private theorem coe_filterMap_map {α β γ : Type} (p : α → Bool) (g : α → β) (f : β → γ)
    (l : List α) :
    (((l.filterMap fun a ↦ if p a then some (g a) else none).map f : List γ) : Multiset γ) =
      (l : Multiset α).bind fun a ↦ if p a then {f (g a)} else 0 := by
  induction l with
  | nil => rfl
  | cons a l ih =>
    rw [← Multiset.cons_coe, Multiset.cons_bind, ← ih, List.filterMap_cons]
    cases p a with
    | true => rfl
    | false => simp

/-- The shared values are those of all pairs of entries with equal keys. -/
private theorem coe_shared {entries : Array (K × V)} (hk : keys.Consistent)
    (h : DistinctKeys keys entries) (l : List (K × V)) :
    (shared keys entries l : Multiset (V × V)) = (l : Multiset (K × V)).bind fun e ↦
      (entries.toList : Multiset (K × V)).bind fun a ↦
        if keys.eq e.1 a.1 then {(a.2, e.2)} else 0 := by
  induction l with
  | nil => rfl
  | cons e l ih =>
    have hone : ((value? keys entries e.1).map (·, e.2)).toList =
        (entries.toList.filterMap fun a ↦
          if keys.eq e.1 a.1 then some a.2 else none).map (·, e.2) := by
      rw [h.unrepeated.filterMap_eq hk, listed?_toList]
      cases value? keys entries e.1 with
      | none => rfl
      | some stored => rfl
    rw [shared_cons, ← Multiset.cons_coe, Multiset.cons_bind, ← ih, ← Multiset.coe_add, hone,
      coe_filterMap_map]

/-- It does not matter which of two stores is searched for the keys of the other. -/
theorem shared_swap_perm {entries entries' : Array (K × V)} (hk : keys.Consistent)
    (h : DistinctKeys keys entries) (h' : DistinctKeys keys entries') :
    ((shared keys entries entries'.toList).map Prod.swap).Perm
      (shared keys entries' entries.toList) := by
  rw [← Multiset.coe_eq_coe, ← Multiset.map_coe, coe_shared hk h, coe_shared hk h']
  simp only [Multiset.map_bind]
  rw [Multiset.bind_bind]
  refine Multiset.bind_congr fun a _ ↦ Multiset.bind_congr fun e _ ↦ ?_
  have hsymm : keys.eq e.1 a.1 = keys.eq a.1 e.1 :=
    Bool.eq_iff_iff.mpr ⟨hk.symm _ _, hk.symm _ _⟩
  rw [hsymm]
  cases keys.eq a.1 e.1 with
  | true => rfl
  | false => rfl

/-- As many keys of a list are shared as are found in the store. -/
theorem length_shared {entries : Array (K × V)} {l : List (K × V)} :
    (shared keys entries l).length = l.countP fun e ↦ (value? keys entries e.1).isSome := by
  rw [shared, List.length_filterMap_eq_countP]
  congr 1
  funext e
  rw [Option.isSome_map]

/-- The keys of both stores can be counted in either one. -/
theorem length_shared_comm {entries entries' : Array (K × V)} (hk : keys.Consistent)
    (h : DistinctKeys keys entries) (h' : DistinctKeys keys entries') :
    (shared keys entries' entries.toList).length =
      (shared keys entries entries'.toList).length := by
  rw [← (shared_swap_perm hk h h').length_eq, List.length_map]

end Table

end RobinHood
