import RobinHood.Proofs.Table.Run

/-!
# What a reservation promises

A reservation is refused exactly if it would exceed the ceiling, and then nothing has changed. One
that is granted can be relied on: until as many insertions were made as room was asked for, no call
is refused and no room is made, be the inserted keys new or stored already, and whatever is removed
in between.
-/

namespace RobinHood

namespace Table

variable {K V : Type} {t t' : Table K V} {additional : Nat} {ops : List (Op K V)}

/-- A reservation is refused exactly if the number of entries that it asks for, which is counted up
to the largest count there is, exceeds the ceiling; the table is then left as it was. -/
theorem Built.reserve_eq_error_iff [WalkLimit] (h : t.Built) {halt : Halt (Table K V)} :
    t.reserve additional = .error halt ↔ maxCapacity < min (t.size + additional) maxCount ∧
      halt = ⟨.capacityExceeded (min (t.size + additional) maxCount) maxCapacity, t⟩ := by
  have hceiling : maxCapacity < maxCount := by decide
  rcases reserve_cases h.indexed.rows_size h.indexed.length_liveRows_le additional with
    ⟨grown, hok, -, hle, hroom⟩ | ⟨hover, herr⟩
  · have hmax := h.le_maxCapacity
    simp only [hok, reduceCtorEq, false_iff, not_and]
    omega
  · have hlt : maxCapacity < min (t.size + additional) maxCount := by omega
    simp only [herr, Except.error.injEq, eq_comm, hlt, true_and]

/-- A reservation below the ceiling is granted. -/
theorem Built.exists_reserve [WalkLimit] (h : t.Built)
    (hle : min (t.size + additional) maxCount ≤ maxCapacity) :
    ∃ granted, t.reserve additional = .ok granted ∧ granted.entries = t.entries ∧
      t.size + additional ≤ granted.capacity ∧ t.capacity ≤ granted.capacity := by
  have hceiling : maxCapacity < maxCount := by decide
  rcases reserve_cases h.indexed.rows_size h.indexed.length_liveRows_le additional with
    ⟨granted, hok, hg, -, hroom⟩ | ⟨hover, -⟩
  · exact ⟨granted, hok, hg.entries_eq, by omega, hg.capacity_le⟩
  · omega

/-- While there is room for all that a run may insert, each call that returns is carried out, and no
room is made. -/
theorem Reachable.afterAll_of_room [WalkLimit] (h : Reachable t)
    (hno : ∀ op ∈ ops, op.isReserve = false)
    (hroom : t.size + ops.countP Op.isInsert ≤ t.capacity) (ha : Table.afterAll t ops = some t') :
    ops.foldlM Op.run t = .ok t' ∧ t'.capacity = t.capacity := by
  induction ops generalizing t with
  | nil =>
    cases ha
    exact ⟨rfl, rfl⟩
  | cons op ops ih =>
    obtain ⟨next, hnext, hrest⟩ := afterAll_cons.mp ha
    obtain ⟨hop, hops⟩ := List.forall_mem_cons.mp hno
    have hcount : (op :: ops).countP Op.isInsert = op.isInsert.toNat + ops.countP Op.isInsert := by
      rw [List.countP_cons, Nat.add_comm]
      cases op.isInsert with
      | true => rfl
      | false => rfl
    rw [hcount] at hroom
    obtain ⟨hrun, hcap, hsize⟩ := h.built.after_of_room hop (by omega) hnext
    obtain ⟨hall, hcap'⟩ := ih (h.of_after hnext) hops (by omega) hrest
    refine ⟨?_, hcap'.trans hcap⟩
    rw [List.foldlM_cons, hrun]
    exact hall

/-- A reservation is refused exactly if the number of entries with the additional ones, counted up
to the largest count there is, exceeds the ceiling; it then reports that number, and the table stays
as it was. Otherwise it keeps the entries and leaves room for the additional ones, and whatever
calls but reservations follow with no more insertions than there was room asked for, each of
them that returns is carried out, and neither the capacity nor the number of rows changes. -/
theorem reserve_keeps_its_promise [WalkLimit] (h : Reachable t) (additional : Nat) :
    (∀ halt, t.reserve additional = .error halt ↔
      maxCapacity < min (t.size + additional) maxCount ∧
        halt = ⟨.capacityExceeded (min (t.size + additional) maxCount) maxCapacity, t⟩) ∧
    (maxCapacity < min (t.size + additional) maxCount →
      (Op.reserve additional).after t = some t) ∧
    (min (t.size + additional) maxCount ≤ maxCapacity →
      ∃ granted, t.reserve additional = .ok granted ∧ granted.entries = t.entries ∧
        t.size + additional ≤ granted.capacity ∧ t.capacity ≤ granted.capacity ∧
        ∀ ops t', (∀ op ∈ ops, op.isReserve = false) → ops.countP Op.isInsert ≤ additional →
          afterAll granted ops = some t' →
          ops.foldlM Op.run granted = .ok t' ∧ t'.capacity = granted.capacity ∧
            t'.rows.size = granted.rows.size) := by
  refine ⟨fun halt ↦ h.built.reserve_eq_error_iff, fun hover ↦ ?_, fun hle ↦ ?_⟩
  · have herr := h.built.reserve_eq_error_iff.mpr ⟨hover, rfl⟩
    simp [Op.after, Op.run, herr]
  · obtain ⟨granted, hok, hentries, hroom, hcap⟩ := h.built.exists_reserve hle
    have hgranted := h.reserve hok
    refine ⟨granted, hok, hentries, hroom, hcap, fun ops t' hno hcount hrun ↦ ?_⟩
    have hsize : granted.size = t.size := by rw [size, hentries, size]
    obtain ⟨hall, hcap'⟩ := hgranted.afterAll_of_room hno (by omega) hrun
    have hrows := (hgranted.of_afterAll hrun).built.indexed.rows_size
    exact ⟨hall, hcap', by rw [hrows, hcap', hgranted.built.indexed.rows_size]⟩

/-- Put a number into a table. -/
private def putTens (key : Nat) : Op Nat Nat :=
  .insert (tens.hash key) key key tens.eq fun _ new ↦ new

/-- Take a number out of a table. -/
private def takeTens (key : Nat) : Op Nat Nat := .remove (tens.hash key) (tens.eq key) tens.hash

/-- Four insertions, one of a key that is stored already, and two removals. -/
private def spending : List (Op Nat Nat) :=
  [putTens 71, putTens 70, takeTens 70, putTens 80, takeTens 71, putTens 70]

/-- The theorem at a full table with four entries: as much room as there is in all is refused, room
for four more is granted, and four insertions are then carried out in it. -/
theorem reserve_keeps_its_promise_spending : ∃ t granted t' : Table Nat Nat, Reachable t ∧
    t.size = 4 ∧ t.reserve maxCount = .error ⟨.capacityExceeded maxCount maxCapacity, t⟩ ∧
    t.reserve 4 = .ok granted ∧ spending.foldlM Op.run granted = .ok t' ∧
    t'.capacity = granted.capacity ∧ 8 ≤ t'.capacity := by
  have hsize : (afterAll (blank 4) ([70, 75, 79, 90].map putTens)).map size = some 4 := by
    decide +kernel
  obtain ⟨t, hfill, ht⟩ := Option.map_eq_some_iff.mp hsize
  have hblank : withCapacity 4 = .ok (blank 4 : Table Nat Nat) := rfl
  have hreach := (Reachable.withCapacity hblank).of_afterAll hfill
  have hspent : ((afterAll (blank 4) ([70, 75, 79, 90].map putTens)).bind fun t ↦
      (t.reserve 4).toOption.bind fun granted ↦ afterAll granted spending).isSome = true := by
    decide +kernel
  obtain ⟨herror, -, -⟩ := reserve_keeps_its_promise hreach maxCount
  obtain ⟨-, -, hgrant⟩ := reserve_keeps_its_promise hreach 4
  obtain ⟨granted, hok, -, hroom, -, hrun⟩ := hgrant (by rw [ht]; decide)
  rw [hfill, Option.bind_some, hok] at hspent
  obtain ⟨t', hspent⟩ := Option.isSome_iff_exists.mp hspent
  obtain ⟨hall, hcap, -⟩ := hrun spending t' (by decide) (by decide) hspent
  refine ⟨t, granted, t', hreach, ht, (herror _).mpr ⟨?_, ?_⟩, hok, hall, hcap, ?_⟩
  · rw [ht]
    decide
  · rw [Nat.min_eq_right (Nat.le_add_left _ _)]
  · rw [ht] at hroom
    rw [hcap]
    exact hroom

end Table

end RobinHood
