import RobinHood.Proofs.Table.Reachable

/-!
# The mask of a table

A table carries the mask for the positions of its rows along with the rows. A mask is computed only
where rows are made: for a blank table and for a rebuilt index. Everything else leaves the number of
rows as it is, so the mask that a table carries is never that of another number of rows.
-/

namespace RobinHood

namespace Table

open Index Placement

/-- The mask of the table is the one for as many rows as it has. -/
def Masked {K V : Type} (t : Table K V) : Prop := t.indexMask = t.rows.size - 1

variable {K V : Type} {t t' : Table K V}

namespace Masked

theorem blank (capacity : Nat) : (Table.blank capacity : Table K V).Masked := by
  rw [Masked, Table.blank, size_blank]

theorem clear (h : t.Masked) : t.clear.Masked := by
  rw [Masked, Table.clear, size_blank]
  exact h

theorem modifyValue (h : t.Masked) (entry : Nat) (f : V → V) : (t.modifyValue entry f).Masked := h

/-- Rows that are as many as before have the mask that they had. -/
theorem of_size_eq (h : t.Masked) {rows : Index} (hsize : rows.size = t.rows.size)
    (entries : Array (K × V)) :
    ({ t with rows := rows, entries := entries } : Table K V).Masked := by
  rw [Masked, hsize]
  exact h

theorem grow [WalkLimit] (h : t.Masked) {capacity : Nat} (hg : t.grow capacity = .ok t') :
    t'.Masked := by
  obtain ⟨-, ⟨-, rfl⟩ | ⟨-, ⟨-, rfl⟩ | ⟨-, rows, hre, rfl⟩⟩⟩ := grow_cases hg
  · exact h
  · exact h
  · rw [Masked, size_rebuild? hre]

theorem reserve [WalkLimit] (h : t.Masked) {additional : Nat}
    (hr : t.reserve additional = .ok t') : t'.Masked := by
  rcases reserve_eq_ok hr with rfl | ⟨capacity, hg⟩
  · exact h
  · exact h.grow hg

theorem reserveOne [WalkLimit] (h : t.Masked) (hr : t.reserveOne = .ok t') : t'.Masked := by
  rcases reserveOne_eq_ok hr with rfl | ⟨capacity, hg⟩
  · exact h
  · exact h.grow hg

theorem insertWith [WalkLimit] (h : t.Masked) {hash : UInt64} {key : K} {value : V}
    {eq : K → K → Bool} {merge : V → V → V} {answer : Option V}
    (hi : t.insertWith hash key value eq merge = .ok (answer, t')) : t'.Masked := by
  obtain ⟨grown, hr, hp⟩ := bind_eq_ok_iff.mp hi
  have hgrown := h.reserveOne hr
  rcases put_cases hp with ⟨entry, -, -, rfl⟩ | ⟨rows, -, hfill, -, rfl⟩
  · exact hgrown.modifyValue entry _
  · exact hgrown.of_size_eq (Spot.size_fill? hfill) _

theorem pushNew [WalkLimit] (h : t.Masked) {hash : UInt32} {key : K} {value : V}
    (hp : t.pushNew hash key value = .ok t') : t'.Masked := by
  obtain ⟨rows, hplace, rfl⟩ := append_eq_ok hp
  exact h.of_size_eq (Valid.size_settle? hplace) _

theorem remove (h : t.Masked) (hp : t.Paired) (hash : UInt64) (eq : K → Bool)
    (hasher : K → UInt64) : (t.remove hash eq hasher).2.Masked := by
  unfold Table.remove
  split
  · next pos hfound =>
    rw [Masked, hp.size_rows_removeRow (isLive_of_findRow? hfound) hasher]
    exact h
  · exact h

theorem mergeWith [WalkLimit] (h : t.Masked) {other : Table K V} {m : Merged K V}
    {hasher : K → UInt64} {eq : K → K → Bool} {merge : V → V → V}
    (hm : t.mergeWith other hasher eq merge = .ok m) : m.table.Masked := by
  obtain ⟨grown, hg, hloop⟩ := bind_eq_ok_iff.mp hm
  have hgrown := h.grow (Halt.forget_eq_ok_iff.mp hg)
  refine foldlM_keeps (P := fun m : Merged K V ↦ m.table.Masked) ?_ hgrown hloop
  intro m e _ m' hmasked hinsert
  obtain ⟨⟨answer, table⟩, hi, hok⟩ := bind_eq_ok_iff.mp hinsert
  cases hok
  exact hmasked.insertWith (Halt.forget_eq_ok_iff.mp hi)

/-- A table made of given entries has its own mask. -/
theorem ofRows [WalkLimit] {capacity : Nat} {kept : List (Row × K × V)}
    (ho : Table.ofRows capacity kept = .ok t) : t.Masked := by
  obtain ⟨empty, hempty, hpush⟩ := bind_eq_ok_iff.mp ho
  obtain ⟨-, rfl⟩ := withCapacity_eq_ok hempty
  refine foldlM_keeps (P := Masked) ?_ (.blank _) hpush
  intro t e _ t' hmasked hp
  exact hmasked.pushNew (Halt.forget_eq_ok_iff.mp hp)

theorem split [WalkLimit] (h : t.Masked) {parts : Nat} {ts : List (Table K V)}
    (hs : t.split parts = .ok ts) (ht : t' ∈ ts) : t'.Masked := by
  unfold Table.split at hs
  split at hs
  · cases hs
    cases ht
  · cases hs
    rwa [List.mem_singleton.mp ht]
  · obtain ⟨kept, -, hok⟩ := mem_of_mapM_eq_ok hs ht
    exact .ofRows hok

end Masked

/-- Whatever a program does, the mask of each table that it gets hold of is that of its rows. -/
theorem Reachable.masked [WalkLimit] {t : Table K V} (h : Reachable t) : t.Masked := by
  induction h with
  | withCapacity h =>
    obtain ⟨-, rfl⟩ := withCapacity_eq_ok h
    exact .blank _
  | insertWith _ hi ih => exact ih.insertWith hi
  | remove hash eq hasher hr ih => exact ih.remove hr.built.indexed.paired hash eq hasher
  | reserve _ hr ih => exact ih.reserve hr
  | modifyValue entry f _ ih => exact ih.modifyValue entry f
  | clear _ ih => exact ih.clear
  | mergeWith _ _ hm ih _ => exact ih.mergeWith hm
  | select _ _ hs _ _ => exact .ofRows hs
  | split _ hs ht ih => exact ih.split hs ht

end Table

end RobinHood
