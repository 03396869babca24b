import RobinHood.Proofs.Table.Filling
import RobinHood.Proofs.Table.Insert

/-!
# Runs of calls on a table

A run is a list of calls on one table, each with the hashes and functions that its caller hands in.
What one call can do to the sizes of its table is said here once: only a full table and a granted
reservation change the capacity, which never shrinks, and only an insertion adds an entry. A call
that finds room left is not refused.
-/

namespace RobinHood

namespace Table

variable {K V : Type} {t t' : Table K V}

/-- A call on a table, with all that its caller hands in. -/
inductive Op (K V : Type) where
  | insert (hash : UInt64) (key : K) (value : V) (eq : K → K → Bool) (merge : V → V → V)
  | remove (hash : UInt64) (eq : K → Bool) (hasher : K → UInt64)
  | reserve (additional : Nat)
  | modify (entry : Nat) (f : V → V)
  | clear

namespace Op

/-- The table that a call makes, unless it fails. -/
def run [WalkLimit] (t : Table K V) : Op K V → Except (Halt (Table K V)) (Table K V)
  | insert hash key value eq merge => do
    return (← t.insertWith hash key value eq merge).2
  | remove hash eq hasher => .ok (t.remove hash eq hasher).2
  | reserve additional => t.reserve additional
  | modify entry f => .ok (t.modifyValue entry f)
  | clear => .ok t.clear

/-- The table after a call, if it returns. One that is refused returns with the table that it has
left; one whose displacement walk is given up does not return. -/
def after [WalkLimit] (t : Table K V) (op : Op K V) : Option (Table K V) :=
  match op.run t with
  | .ok t' => some t'
  | .error halt => if halt.error = .noFreeRow then none else some halt.left

/-- How many entries a call is granted room for, all entries counted; zero for other calls. -/
def asked [WalkLimit] (t : Table K V) : Op K V → Nat
  | reserve additional => if (t.reserve additional).isOk then t.size + additional else 0
  | _ => 0

/-- Whether a call may add an entry. -/
def isInsert : Op K V → Bool
  | insert .. => true
  | _ => false

/-- Whether a call asks for room and nothing else. -/
def isReserve : Op K V → Bool
  | reserve .. => true
  | _ => false

variable {op : Op K V}

/-- A call that is refused leaves the table as it was. -/
theorem left_run [WalkLimit] {halt : Halt (Table K V)} (h : op.run t = .error halt)
    (hne : halt.error ≠ .noFreeRow) : halt.left = t := by
  cases op with
  | insert hash key value eq merge =>
    rcases bind_eq_error_iff.mp h with hi | ⟨r, -, hr⟩
    · exact left_insertWith hi hne
    · cases hr
  | reserve additional => exact left_reserve h
  | remove | modify | clear => cases h

/-- A call that returns was either carried out, or refused, with the table left as it was. -/
theorem after_cases [WalkLimit] (h : op.after t = some t') : op.run t = .ok t' ∨
    (∃ halt, op.run t = .error halt ∧ halt.error ≠ .noFreeRow) ∧ t' = t := by
  unfold after at h
  split at h
  · next hrun =>
    cases h
    exact .inl hrun
  · next halt hrun =>
    split at h
    · cases h
    · next hne =>
      cases h
      exact .inr ⟨⟨halt, hrun, hne⟩, left_run hrun hne⟩

theorem asked_reserve [WalkLimit] {additional : Nat} (h : t.reserve additional = .ok t') :
    (reserve additional : Op K V).asked t = t.size + additional := by
  rw [asked, h]
  rfl

end Op

/-- The table after a list of calls, if each of them returns. -/
def afterAll [WalkLimit] (t : Table K V) (ops : List (Op K V)) : Option
    (Table K V) := ops.foldlM Op.after t

/-- The largest number of entries that a table comes to hold, or is granted room for, in a run. -/
def peak [WalkLimit] : Table K V → List (Op K V) → Nat
  | t, [] => t.size
  | t, op :: ops =>
    max (max t.size (op.asked t)) (((op.after t).map fun t' ↦ peak t' ops).getD 0)

variable {op : Op K V} {ops : List (Op K V)}

theorem afterAll_cons [WalkLimit] : afterAll t (op :: ops) = some t' ↔
    ∃ next, op.after t = some next ∧ afterAll next ops = some t' := by
  unfold afterAll
  rw [List.foldlM_cons]
  exact Option.bind_eq_some_iff

theorem peak_cons [WalkLimit] {next : Table K V} (h : op.after t = some next) :
    peak t (op :: ops) = max (max t.size (op.asked t)) (peak next ops) := by
  rw [peak, h, Option.map_some, Option.getD_some]

/-! ### Reachable tables stay reachable -/

theorem Reachable.of_run [WalkLimit] (h : Reachable t) (hr : op.run t = .ok t') : Reachable t' := by
  cases op with
  | insert hash key value eq merge =>
    obtain ⟨⟨answer, made⟩, hi, hok⟩ := bind_eq_ok_iff.mp hr
    cases hok
    exact h.insertWith hi
  | remove hash eq hasher =>
    cases hr
    exact h.remove hash eq hasher
  | reserve additional => exact h.reserve hr
  | modify entry f =>
    cases hr
    exact h.modifyValue entry f
  | clear =>
    cases hr
    exact h.clear

theorem Reachable.of_after [WalkLimit] (h : Reachable t) (ha : op.after t = some t') :
    Reachable t' := by
  rcases Op.after_cases ha with hr | ⟨-, rfl⟩
  · exact h.of_run hr
  · exact h

theorem Reachable.of_afterAll [WalkLimit] (h : Reachable t) (ha : afterAll t ops = some t') :
    Reachable t' := by
  induction ops generalizing t with
  | nil =>
    cases ha
    exact h
  | cons op ops ih =>
    obtain ⟨next, hnext, hrest⟩ := afterAll_cons.mp ha
    exact ih (h.of_after hnext) hrest

/-! ### Sizes after one call -/

theorem capacity_grow [WalkLimit] {capacity : Nat} (h : t.grow capacity = .ok t') :
    t'.capacity = max t.capacity capacity := by
  obtain ⟨-, ⟨hle, rfl⟩ | ⟨hlt, ⟨-, rfl⟩ | ⟨-, rows, -, rfl⟩⟩⟩ := grow_cases h
  · exact (Nat.max_eq_left hle).symm
  · exact (Nat.max_eq_right (Nat.le_of_lt hlt)).symm
  · exact (Nat.max_eq_right (Nat.le_of_lt hlt)).symm

/-- A reservation that changes the capacity at most doubles what was asked for. -/
theorem capacity_reserve [WalkLimit] {additional : Nat} (h : t.reserve additional = .ok t') :
    t.capacity ≤ t'.capacity ∧ t'.capacity ≤ max t.capacity (2 * (t.size + additional)) := by
  unfold Table.reserve at h
  simp only at h
  split at h
  · cases h
    omega
  · split at h
    · cases h
    · rw [capacity_grow h]
      omega

theorem size_remove_le (hash : UInt64) (eq : K → Bool) (hasher : K → UInt64) :
    (t.remove hash eq hasher).2.size ≤ t.size := by
  unfold Table.remove
  split
  · rw [size_removeRow]
    exact Nat.sub_le _ _
  · exact Nat.le_refl _

theorem size_modifyValue (entry : Nat) (f : V → V) : (t.modifyValue entry f).size = t.size :=
  Array.size_modify

/-- An insertion makes room first, and then adds one entry or none. -/
theorem Built.sizes_insertWith [WalkLimit] (h : t.Built) {hash : UInt64} {key : K} {value : V}
    {eq : K → K → Bool} {merge : V → V → V} {answer : Option V}
    (hi : t.insertWith hash key value eq merge = .ok (answer, t')) :
    t'.capacity = nextCapacity t.capacity t.size ∧ t'.size ≤ t.size + 1 := by
  obtain ⟨grown, hr, hp⟩ := bind_eq_ok_iff.mp hi
  have hcap := h.indexed.capacity_reserveOne hr
  obtain ⟨-, hsize, -⟩ := h.reserveOne hr
  rcases put_cases hp with ⟨entry, -, -, rfl⟩ | ⟨rows, -, -, -, rfl⟩
  · refine ⟨hcap, ?_⟩
    rw [size_modifyValue, hsize]
    exact Nat.le_succ _
  · refine ⟨hcap, ?_⟩
    rw [size, Array.size_push, ← size, hsize]

/-- A call never takes room away, and makes no more of it than twice what the table holds or is
asked for. -/
theorem Built.capacity_after [WalkLimit] (h : t.Built) (ha : op.after t = some t') :
    t.capacity ≤ t'.capacity ∧
      t'.capacity ≤ max t.capacity (2 * max t.size (op.asked t)) := by
  have hmax := h.le_maxCapacity
  have hsize := h.indexed.size_le
  rcases Op.after_cases ha with hr | ⟨-, rfl⟩
  · cases op with
    | insert hash key value eq merge =>
      obtain ⟨⟨answer, made⟩, hi, hok⟩ := bind_eq_ok_iff.mp hr
      cases hok
      rw [(h.sizes_insertWith hi).1, nextCapacity]
      split
      · omega
      · omega
    | remove hash eq hasher =>
      cases hr
      rw [capacity_remove]
      omega
    | reserve additional =>
      have hcap := capacity_reserve hr
      rw [Op.asked_reserve hr]
      omega
    | modify entry f =>
      cases hr
      change t.capacity ≤ t.capacity ∧ t.capacity ≤ _
      omega
    | clear =>
      cases hr
      change t.capacity ≤ t.capacity ∧ t.capacity ≤ _
      omega
  · omega

/-- In a table with room for what a call adds, a call other than a reservation is carried out if it
returns, and no room is made. -/
theorem Built.after_of_room [WalkLimit] (h : t.Built) (hno : op.isReserve = false)
    (hroom : t.size + op.isInsert.toNat ≤ t.capacity) (ha : op.after t = some t') :
    op.run t = .ok t' ∧ t'.capacity = t.capacity ∧ t'.size ≤ t.size + op.isInsert.toNat := by
  cases op with
  | insert hash key value eq merge =>
    have hlt : t.size < t.capacity := hroom
    rcases Op.after_cases ha with hr | ⟨⟨halt, herr, hne⟩, -⟩
    · refine ⟨hr, ?_⟩
      obtain ⟨⟨answer, made⟩, hi, hok⟩ := bind_eq_ok_iff.mp hr
      cases hok
      obtain ⟨hcap, hsize⟩ := h.sizes_insertWith hi
      rw [nextCapacity, if_pos hlt] at hcap
      exact ⟨hcap, hsize⟩
    · rcases bind_eq_error_iff.mp herr with hput | ⟨r, -, hr⟩
      · rw [insertWith_of_lt hlt] at hput
        obtain ⟨pos, walk, -, -, rfl⟩ := put_eq_error hput
        exact absurd rfl hne
      · cases hr
  | remove hash eq hasher =>
    cases ha
    exact ⟨rfl, capacity_remove hash eq hasher, size_remove_le hash eq hasher⟩
  | reserve additional => cases hno
  | modify entry f =>
    cases ha
    exact ⟨rfl, rfl, Nat.le_of_eq (size_modifyValue entry f)⟩
  | clear =>
    cases ha
    exact ⟨rfl, rfl, Nat.zero_le _⟩

end Table

end RobinHood
