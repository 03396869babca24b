import RobinHood.Proofs.Table.Mask
import RobinHood.Proofs.Table.RowCount
import RobinHood.Proofs.Table.Run

/-!
# Capacity along a run

Whatever calls are made on a table, its sizes stay in proportion: there are as many rows as the
capacity asks for, which is a power of two and more than can be in use, the mask that the table
carries is the one for these rows, and positions of the store fit into a row. The capacity never
shrinks, and a run that starts small and stores little leaves it small: it is at most twice of what
the table once held or was granted room for.
-/

namespace RobinHood

namespace Table

open Index

variable {K V : Type} {start t t' : Table K V} {ops : List (Op K V)}

/-- The sizes of a table are those that go with its capacity, which is one that tables may have. -/
structure Proportioned (t : Table K V) : Prop where
  minCapacity_le : minCapacity ≤ t.capacity
  le_maxCapacity : t.capacity ≤ maxCapacity
  size_le : t.size ≤ t.capacity
  rows_size : t.rows.size = rowCount t.capacity
  exists_two_pow : ∃ k, t.rows.size = 2 ^ k
  /-- At most nineteen rows in twenty are for entries. -/
  load_le : 20 * t.capacity ≤ 19 * t.rows.size
  rows_size_le : t.rows.size ≤ 2 ^ 30
  /-- Some row is not live. -/
  exists_dead : ∃ pos < t.rows.size, (rowAt t.rows pos).isLive = false
  /-- Each position that the store may have fits into a row. -/
  fits : ∀ entry < t.capacity, entry < Row.entryBound
  /-- The mask that the table carries is one less than the number of rows. -/
  indexMask_eq : t.indexMask = t.rows.size - 1
  /-- Masking positions with it is walking the rows. -/
  masked : MaskedBy t.rows.size t.indexMask

theorem Built.proportioned (h : t.Built) (hm : t.Masked) : t.Proportioned where
  minCapacity_le := h.minCapacity_le
  le_maxCapacity := h.le_maxCapacity
  size_le := h.indexed.size_le
  rows_size := h.indexed.rows_size
  exists_two_pow := by
    rw [h.indexed.rows_size]
    exact exists_rowCount_eq_two_pow t.capacity
  load_le := by
    rw [h.indexed.rows_size]
    exact twenty_mul_le t.capacity
  rows_size_le := by
    rw [h.indexed.rows_size]
    exact rowCount_le h.le_maxCapacity
  exists_dead := by
    apply exists_free_of_length_lt
    have hcount := lt_rowCount t.capacity
    rw [h.indexed.rows_size]
    exact Nat.lt_of_le_of_lt h.indexed.length_liveRows_le hcount
  fits := by
    intro entry hentry
    exact lt_entryBound (Nat.le_trans (Nat.le_of_lt hentry) h.le_maxCapacity)
  indexMask_eq := hm
  masked := by
    rw [hm, h.indexed.rows_size]
    exact maskedBy_rowCount h.le_maxCapacity

theorem capacity_withCapacity {capacity : Nat} (h : withCapacity capacity = .ok t) :
    t.capacity = max capacity minCapacity := by
  obtain ⟨-, rfl⟩ := withCapacity_eq_ok h
  rfl

/-- A run never takes room away, and makes no more of it than twice its peak. -/
theorem Reachable.capacity_afterAll [WalkLimit] (h : Reachable t) (ha : afterAll t ops = some t') :
    t.capacity ≤ t'.capacity ∧ t'.capacity ≤ max t.capacity (2 * peak t ops) := by
  induction ops generalizing t with
  | nil =>
    cases ha
    omega
  | cons op ops ih =>
    obtain ⟨next, hnext, hrest⟩ := afterAll_cons.mp ha
    have hstep := h.built.capacity_after hnext
    have hrun := ih (h.of_after hnext) hrest
    rw [peak_cons hnext]
    omega

/-- From a table of capacity `c` on, after each call of a run the sizes are in proportion, and the
capacity is at most what was asked for at the start, the least that there is, or twice the largest
number of entries that the table held or a granted reservation asked for. No call that returns takes
room away. The hashes, equalities, merges and hashers that are handed in may be anything, and others
at every call. -/
theorem capacity_within_twice_peak [WalkLimit] {c : Nat} (hstart : withCapacity c = .ok start)
    (hrun : afterAll start ops = some t) :
    t.Proportioned ∧
    t.capacity ≤ max (max c minCapacity) (2 * peak start ops) ∧
    start.capacity ≤ t.capacity ∧
    ∀ (op : Op K V) t', op.after t = some t' → t.capacity ≤ t'.capacity := by
  have hreach := Reachable.withCapacity hstart
  have hend := hreach.of_afterAll hrun
  have hcap := hreach.capacity_afterAll hrun
  rw [capacity_withCapacity hstart] at hcap ⊢
  refine ⟨hend.built.proportioned hend.masked, hcap.2, hcap.1, fun op t' ha ↦ ?_⟩
  exact (hend.built.capacity_after ha).1

/-- Five entries under one key, as no key meets the equality; then more room than there can be, and
a removal. -/
private def crowding : List (Op Nat Nat) :=
  (List.range 5).map (fun n ↦ .insert 7 70 n (fun _ _ ↦ false) fun _ new ↦ new) ++
    [.reserve maxCapacity, .remove 7 (fun _ ↦ true) fun _ ↦ 0]

/-- The theorem at a table into which one key was put five times, and for which more room was asked
than there can be: that was refused, and the capacity is at most twice the five entries. -/
theorem capacity_within_twice_peak_crowding : ∃ start t : Table Nat Nat,
    withCapacity 3 = .ok start ∧ afterAll start crowding = some t ∧ t.size = 4 ∧
      t.Proportioned ∧ t.capacity ≤ 10 := by
  have hstart : withCapacity 3 = .ok (blank 4 : Table Nat Nat) := rfl
  have hsize : (afterAll (blank 4) crowding).map size = some 4 := by decide +kernel
  have hpeak : peak (blank 4) crowding = 5 := by decide +kernel
  obtain ⟨t, hrun, ht⟩ := Option.map_eq_some_iff.mp hsize
  obtain ⟨hproportioned, hcap, -⟩ := capacity_within_twice_peak hstart hrun
  rw [hpeak] at hcap
  exact ⟨_, t, hstart, hrun, ht, hproportioned, hcap⟩

end Table

end RobinHood
