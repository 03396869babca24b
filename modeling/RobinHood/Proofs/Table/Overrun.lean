import RobinHood.Proofs.Index.Overrun
import RobinHood.Proofs.Table.Insert
import RobinHood.Proofs.Table.Reachable
import RobinHood.Proofs.Table.Searchable

/-!
# Insertions that overrun

An insertion returns unless it hands a row over to a displacement walk that overruns. That takes an
index without an empty row, and such an index can come about: removals leave tombstones, insertions
into a table that does not have to grow use up the empty rows, and only growth brings them back.

An insertion that returns does so under every limit on the rows that a walk may look at, with the
same result. One that overruns is given up under the least limit, with its entry stored and one row
missing. Under a greater limit it may return after all, but there are programs after which no limit
is great enough.
-/

namespace RobinHood

namespace Table

open Index Placement

variable {K V : Type} {t t' grown left : Table K V} {key : K} {value : V} {eq : K → K → Bool}
  {merge : V → V → V}

/-! ### What a greater limit does not change -/

/-- A row that is placed within the least limit is placed the same way under any other. -/
theorem place?_of_round {rows rows' : Index} {hash : UInt32} {entry pos : Nat}
    (h : place? rows hash entry pos = some rows') :
    ∀ [WalkLimit], place? rows hash entry pos = some rows' :=
  place?_of_settle? (Nat.le_refl _) h

theorem rebuild?_of_round {size : Nat} {live : List Row} {rows : Index}
    (h : rebuild? size live = some rows) : ∀ [WalkLimit], rebuild? size live = some rows := by
  intro limit
  unfold rebuild? at h ⊢
  generalize Index.blank size = start at h ⊢
  induction live generalizing start with
  | nil => exact h
  | cons row live ih =>
    rw [List.foldlM_cons] at h ⊢
    obtain ⟨next, hplace, hrest⟩ := Option.bind_eq_some_iff.mp h
    exact Option.bind_eq_some_iff.mpr ⟨next, place?_of_round hplace, ih next hrest⟩

theorem grow_of_round {capacity : Nat} (h : t.grow capacity = .ok t') :
    ∀ [WalkLimit], t.grow capacity = .ok t' := by
  intro limit
  unfold grow at h ⊢
  split at h
  · cases h
  · next hmax =>
    rw [if_neg hmax]
    split at h
    · next hle => rw [if_pos hle, h]
    · next hlt =>
      rw [if_neg hlt]
      split at h
      · next hsame => rw [if_pos hsame, h]
      · next hother =>
        rw [if_neg hother]
        split at h
        · next rows hre =>
          rw [rebuild?_of_round hre]
          exact h
        · cases h

theorem reserveOne_of_round (h : t.reserveOne = .ok t') : ∀ [WalkLimit], t.reserveOne = .ok t' := by
  intro limit
  unfold reserveOne at h ⊢
  split at h
  · next hroom => rw [if_pos hroom, h]
  · next hfull =>
    rw [if_neg hfull]
    split at h
    · cases h
    · next hmax => rw [if_neg hmax, grow_of_round h]

theorem put_of_round {hash : UInt32} {answer : Option V}
    (h : t.put hash key value eq merge = .ok (answer, t')) :
    ∀ [WalkLimit], t.put hash key value eq merge = .ok (answer, t') := by
  rcases put_cases h with ⟨entry, hheld, rfl, rfl⟩ | ⟨rows, habsent, hfill, rfl, rfl⟩
  · exact put_of_held hheld
  · intro limit
    refine put_of_fill? habsent ?_
    cases hspot : findSpot t.rows hash (t.holdsAt (eq key)) with
    | held entry => exact absurd hspot (habsent entry)
    | vacant pos => rwa [hspot] at hfill
    | taken pos =>
      rw [hspot] at hfill
      exact place?_of_round hfill

/-- An insertion that returns under the least limit returns the same under any other. -/
theorem insertWith_of_round {hash : UInt64} {answer : Option V}
    (h : t.insertWith hash key value eq merge = .ok (answer, t')) :
    ∀ [WalkLimit], t.insertWith hash key value eq merge = .ok (answer, t') := by
  obtain ⟨grown, hreserve, hput⟩ := bind_eq_ok_iff.mp h
  intro limit
  rw [insertWith_of_reserveOne (reserveOne_of_round hreserve)]
  exact put_of_round hput

/-! ### What is left when a walk is given up -/

/-- An entry that was stored before its row was: the index lacks the row of some position of the
store, and is as it should be otherwise. -/
structure HalfInserted (t : Table K V) (key : K) (value : V) (left : Table K V) : Prop where
  entries_eq : left.entries = t.entries.push (key, value)
  capacity_le : t.capacity ≤ left.capacity
  rows_size : left.rows.size = rowCount left.capacity
  perm : ∃ missing,
    (missing :: (liveRows left.rows).map Row.entry).Perm (List.range left.size)

/-- No lookup finds the entry whose row is missing. -/
theorem HalfInserted.exists_lost (h : HalfInserted t key value left) :
    ∃ missing < left.size, ∀ hash eq, left.find? hash eq ≠ some missing := by
  obtain ⟨missing, hperm⟩ := h.perm
  have hnodup := hperm.nodup_iff.mpr List.nodup_range
  refine ⟨missing, List.mem_range.mp (hperm.subset List.mem_cons_self), fun hash eq hfound ↦ ?_⟩
  obtain ⟨pos, hrow, hentry⟩ := Option.map_eq_some_iff.mp hfound
  have hl := isLive_of_findRow? hrow
  have hmem : rowAt left.rows pos ∈ liveRows left.rows :=
    mem_liveRows_iff.mpr ⟨hl, pos, lt_size_of_isLive hl, rfl⟩
  exact (List.nodup_cons.mp hnodup).1 (List.mem_map.mpr ⟨_, hmem, hentry⟩)

/-- A walk that is given up has a row in hand, and all other rows are where they can be found. -/
theorem Indexed.halfInserted_of_put [WalkLimit] {hash : UInt32} {halt : Halt (Table K V)}
    (h : t.Indexed) (hfits : t.size < Row.entryBound) (hne : hash ≠ 0)
    (hput : t.put hash key value eq merge = .error halt) :
    halt.error = .noFreeRow ∧ HalfInserted t key value halt.left := by
  obtain ⟨pos, walk, hspot, hplace, rfl⟩ := put_eq_error hput
  have hvalid := valid_start (lt_size_of_isLive (isLive_of_findSpot_eq_taken hspot)) hne hfits
  have hreach := reaches_of_run hplace
  have hrows : walk.rows.size = t.rows.size := (hvalid.reshuffled hreach).size_eq
  have hlive := (hvalid.liveRows_reaches hreach).map Row.entry
  rw [List.map_cons, List.map_cons, inHand, inHand, start, Row.entry_live hash hfits] at hlive
  refine ⟨rfl, rfl, Nat.le_refl _, hrows.trans h.rows_size,
    ⟨(Row.live walk.hash walk.entry).entry, ?_⟩⟩
  have hnew : (t.entries.push (key, value)).size = t.size + 1 := Array.size_push _
  rw [size, hnew, List.range_succ]
  exact hlive.trans ((h.perm.cons _).trans (List.perm_append_singleton _ _).symm)

/-- Whatever the limit, an insertion that is given up leaves its entry stored and a row missing. -/
theorem Built.halfInserted [WalkLimit] {hash : UInt64} (h : t.Built)
    (hi : t.insertWith hash key value eq merge = .error ⟨.noFreeRow, left⟩) :
    HalfInserted t key value left := by
  rcases bind_eq_error_iff.mp hi with hreserve | ⟨grown, hreserve, hput⟩
  · rcases reserveOne_cases h.indexed.rows_size h.indexed.length_liveRows_le h.indexed.size_le with
      ⟨grown, hok, -⟩ | ⟨-, -, herr⟩
    · rw [hreserve] at hok
      cases hok
    · rw [hreserve] at herr
      cases herr
  · have hg := grown_of_reserveOne h.indexed.rows_size h.indexed.length_liveRows_le
      h.indexed.size_le hreserve
    obtain ⟨hbuilt, -, -⟩ := h.reserveOne hreserve
    obtain ⟨-, hhalf⟩ := hbuilt.indexed.halfInserted_of_put (lt_entryBound hbuilt.size_le)
      (scramble_ne_zero hash) hput
    refine ⟨?_, Nat.le_trans hg.capacity_le hhalf.capacity_le, hhalf.rows_size, hhalf.perm⟩
    rw [hhalf.entries_eq, hg.entries_eq]

/-! ### Which insertions overrun -/

/-- Once there is room, the insertion of a key hands over to a walk that overruns. -/
def Overruns (t : Table K V) (hash : UInt64) (key : K) (eq : K → K → Bool) : Prop :=
  ∃ grown pos, t.reserveOne = .ok grown ∧
    findSpot grown.rows (scramble hash) (grown.holdsAt (eq key)) = .taken pos ∧
    Index.Overruns grown.rows (scramble hash) pos

/-- A key whose row cannot be placed within the limit is not put. -/
theorem put_of_place?_eq_none [WalkLimit] {hash : UInt32} {pos : Nat}
    (hspot : findSpot t.rows hash (t.holdsAt (eq key)) = .taken pos)
    (h : place? t.rows hash t.size pos = none) :
    ∃ left, t.put hash key value eq merge = .error ⟨.noFreeRow, left⟩ := by
  cases hput : t.put hash key value eq merge with
  | error halt =>
    obtain ⟨_, walk, -, -, rfl⟩ := put_eq_error hput
    exact ⟨_, rfl⟩
  | ok r =>
    rcases put_cases hput with ⟨entry, hheld, -⟩ | ⟨rows, -, hfill, -⟩
    · rw [hspot] at hheld
      cases hheld
    · rw [hspot, Spot.fill?_taken, h] at hfill
      cases hfill

/-- Among the ways to put a key, only a displacement walk can be given up. -/
theorem put_eq_noFreeRow_iff {hash : UInt32} (hne : hash ≠ 0) :
    (∃ left, t.put hash key value eq merge = .error ⟨.noFreeRow, left⟩) ↔
      ∃ pos, findSpot t.rows hash (t.holdsAt (eq key)) = .taken pos ∧
        Index.Overruns t.rows hash pos := by
  constructor
  · rintro ⟨left, hput⟩
    obtain ⟨pos, walk, hspot, hplace, -⟩ := put_eq_error hput
    refine ⟨pos, hspot, ?_⟩
    rw [← place?_eq_none_iff t.size hne (isLive_of_findSpot_eq_taken hspot), place?, hplace]
    rfl
  · rintro ⟨pos, hspot, hover⟩
    rw [← place?_eq_none_iff t.size hne (isLive_of_findSpot_eq_taken hspot)] at hover
    exact put_of_place?_eq_none hspot hover

/-- Once there is room, an insertion is given up exactly if it overruns. -/
theorem insertWith_eq_noFreeRow_iff_of_reserveOne {hash : UInt64} (h : t.reserveOne = .ok grown) :
    (∃ left, t.insertWith hash key value eq merge = .error ⟨.noFreeRow, left⟩) ↔
      t.Overruns hash key eq := by
  unfold Overruns
  rw [insertWith_of_reserveOne h, h]
  simp only [Except.ok.injEq, exists_and_left, exists_eq_left']
  exact put_eq_noFreeRow_iff (scramble_ne_zero hash)

/-- Where there is room, an insertion is given up only if it overruns, whatever the limit. -/
theorem overruns_of_lt {hash : UInt64} (hroom : t.size < t.capacity) :
    ∀ [WalkLimit] {halt}, t.insertWith hash key value eq merge = .error halt →
      t.Overruns hash key eq := by
  have hreserve : t.reserveOne = .ok t := reserveOne_of_lt hroom
  intro limit halt hi
  rw [insertWith_of_lt hroom] at hi
  obtain ⟨pos, walk, hspot, hplace, -⟩ := put_eq_error hi
  refine ⟨t, pos, hreserve, hspot, ?_⟩
  have hnone : place? t.rows (scramble hash) t.size pos = none := by
    rw [place?, hplace]
    rfl
  exact overruns_of_place?_eq_none (scramble_ne_zero hash) (isLive_of_findSpot_eq_taken hspot) hnone

/-- An insertion is given up exactly if it overruns. -/
theorem Built.insertWith_eq_noFreeRow_iff {hash : UInt64} (h : t.Built) (value : V)
    (merge : V → V → V) :
    (∃ left, t.insertWith hash key value eq merge = .error ⟨.noFreeRow, left⟩) ↔
      t.Overruns hash key eq := by
  rcases reserveOne_cases h.indexed.rows_size h.indexed.length_liveRows_le h.indexed.size_le with
    ⟨grown, hok, -⟩ | ⟨-, -, herr⟩
  · exact insertWith_eq_noFreeRow_iff_of_reserveOne hok
  · unfold Table.insertWith Overruns
    rw [herr]
    constructor
    · rintro ⟨left, hbad⟩
      cases hbad
    · rintro ⟨_, _, hbad, -⟩
      cases hbad

/-- A full table at the ceiling refuses every insertion. -/
theorem Built.insertWith_of_maxCapacity [WalkLimit] {hash : UInt64} (h : t.Built)
    (hfull : t.size = maxCapacity) : t.insertWith hash key value eq merge =
      .error ⟨.capacityExceeded (maxCapacity + 1) maxCapacity, t⟩ := by
  have hcap : t.capacity = maxCapacity :=
    Nat.le_antisymm h.le_maxCapacity (hfull ▸ h.indexed.size_le)
  have herr : t.reserveOne = .error ⟨.capacityExceeded (maxCapacity + 1) maxCapacity, t⟩ := by
    rw [Table.reserveOne, if_neg (by omega), if_pos (by omega), hcap]
  rw [Table.insertWith, herr]
  rfl

/-- An insertion that does not overrun either is refused by a table at the ceiling or succeeds. -/
theorem Built.insertWith_cases {hash : UInt64} (h : t.Built) (hs : ¬ t.Overruns hash key eq)
    (value : V) (merge : V → V → V) :
    t.size = maxCapacity ∨
      ∃ answer t', t.insertWith hash key value eq merge = .ok (answer, t') := by
  cases hi : t.insertWith hash key value eq merge with
  | ok r => exact .inr ⟨r.1, r.2, rfl⟩
  | error halt =>
    left
    rcases bind_eq_error_iff.mp hi with hreserve | ⟨grown, -, hput⟩
    · rcases reserveOne_cases h.indexed.rows_size h.indexed.length_liveRows_le
        h.indexed.size_le with ⟨grown, hok, -⟩ | ⟨hfull, hmax, -⟩
      · rw [hreserve] at hok
        cases hok
      · exact hfull.trans (Nat.le_antisymm h.le_maxCapacity hmax)
    · obtain ⟨_, _, -, -, rfl⟩ := put_eq_error hput
      exact absurd ((h.insertWith_eq_noFreeRow_iff value merge).mp ⟨_, hi⟩) hs

/-- An insertion into a table that a program got hold of is given up, after one row more than there
are, exactly if it overruns; then its entry is stored, and of one entry the row is missing, so that
no lookup finds it. One that does not overrun is refused at the ceiling, with nothing changed, or
leaves store and index in agreement, and a greater limit makes no difference; where it hands over to
a displacement walk, that walk settles at the latest when it looks at its first row again. No
insertion overruns while a row is empty. -/
theorem insertWith_overruns_iff (h : ∃ _limit : WalkLimit, Reachable t) (hash : UInt64) (key : K)
    (value : V) (eq : K → K → Bool) (merge : V → V → V) :
    ((∃ left, t.insertWith hash key value eq merge = .error ⟨.noFreeRow, left⟩) ↔
      t.Overruns hash key eq) ∧
    (∀ left, t.insertWith hash key value eq merge = .error ⟨.noFreeRow, left⟩ →
      HalfInserted t key value left ∧
      ∃ missing < left.size, ∀ hash eq, left.find? hash eq ≠ some missing) ∧
    (¬ t.Overruns hash key eq ↔
      (t.size = maxCapacity ∧ ∀ [WalkLimit], t.insertWith hash key value eq merge =
        .error ⟨.capacityExceeded (maxCapacity + 1) maxCapacity, t⟩) ∨
      ∃ answer t', (∀ [WalkLimit], t.insertWith hash key value eq merge = .ok (answer, t')) ∧
        t'.Indexed) ∧
    (∀ grown pos, t.reserveOne = .ok grown →
      findSpot grown.rows (scramble hash) (grown.holdsAt (eq key)) = .taken pos →
      (¬ Index.Overruns grown.rows (scramble hash) pos ↔ ∃ n ≤ grown.rows.size, ∃ q rows,
        Reaches (start grown.rows (scramble hash) grown.size pos) n q ∧ q.step = .settled rows)) ∧
    (∀ grown, t.reserveOne = .ok grown →
      (∃ pos < grown.rows.size, (rowAt grown.rows pos).isEmpty = true) →
      ¬ t.Overruns hash key eq) := by
  have hbuilt : t.Built := by
    obtain ⟨_, hreachable⟩ := h
    exact hreachable.built
  refine ⟨hbuilt.insertWith_eq_noFreeRow_iff value merge,
    fun left hi ↦ ⟨hbuilt.halfInserted hi, (hbuilt.halfInserted hi).exists_lost⟩,
    ⟨fun hs ↦ ?_, fun hor hs ↦ ?_⟩, ?_, ?_⟩
  · rcases hbuilt.insertWith_cases hs value merge with hfull | ⟨answer, t', hok⟩
    · exact .inl ⟨hfull, fun {_} ↦ hbuilt.insertWith_of_maxCapacity hfull⟩
    · exact .inr ⟨answer, t', insertWith_of_round hok, (hbuilt.insertWith hok).indexed⟩
  · obtain ⟨left, hbad⟩ := (hbuilt.insertWith_eq_noFreeRow_iff value merge).mpr hs
    rcases hor with ⟨-, hrefused⟩ | ⟨answer, t', hok, -⟩
    · rw [hrefused] at hbad
      cases hbad
    · rw [hok] at hbad
      cases hbad
  · intro grown pos _ hspot
    rw [← settle?_eq_none_iff_overruns grown.size (scramble_ne_zero hash)
      (isLive_of_findSpot_eq_taken hspot)]
    constructor
    · intro hsome
      rcases settles_or_reaches (start grown.rows (scramble hash) grown.size pos)
        (grown.rows.size + 1) with ⟨n, hn, q, rows, hr, hq, -⟩ | ⟨q, hr⟩
      · exact ⟨n, Nat.le_of_lt_succ hn, q, rows, hr, hq⟩
      · exact absurd hr.settle?_eq_none hsome
    · rintro ⟨n, hn, q, rows, hr, hq⟩ hnone
      rw [hr.settle?_of_settled hq (Nat.lt_succ_of_le hn)] at hnone
      cases hnone
  · rintro grown hok ⟨pos, hpos, he⟩ ⟨grown', taken, hok', -, hover⟩
    rw [hok] at hok'
    cases hok'
    exact not_overruns_of_isEmpty hpos he hover

/-! ### Programs with fixed key semantics -/

/-- A call of a program that hashes and compares keys in the same way throughout. -/
inductive Call (K V : Type) where
  | insert (key : K) (value : V)
  | remove (key : K)
  | reserve (additional : Nat)
  | clear

/-- The table after a call. -/
def Call.run [WalkLimit] (keys : KeySemantics K) (t : Table K V) :
    Call K V → Except (Halt (Table K V)) (Table K V)
  | .insert key value => do
    return (← t.insertWith (keys.hash key) key value keys.eq fun _ new ↦ new).2
  | .remove key => .ok (t.remove (keys.hash key) (keys.eq key) keys.hash).2
  | .reserve additional => t.reserve additional
  | .clear => .ok t.clear

/-- The table that a program makes. -/
def build [WalkLimit] (keys : KeySemantics K) (capacity : Nat) (calls : List (Call K V)) :
    Except Error (Table K V) := do
  Halt.forget (calls.foldlM (Call.run keys) (← withCapacity capacity))

theorem reachable_of_build [WalkLimit] {keys : KeySemantics K} {capacity : Nat}
    {calls : List (Call K V)} (h : build keys capacity calls = .ok t) : Reachable t := by
  obtain ⟨empty, hempty, hrun⟩ := bind_eq_ok_iff.mp h
  refine foldlM_keeps (P := Reachable) ?_ (.withCapacity hempty) (Halt.forget_eq_ok_iff.mp hrun)
  intro t call _ t' ht hcall
  cases call with
  | insert key value =>
    obtain ⟨⟨answer, t''⟩, hi, hok⟩ := bind_eq_ok_iff.mp hcall
    cases hok
    exact ht.insertWith hi
  | remove key =>
    cases hcall
    exact ht.remove _ _ _
  | reserve additional => exact ht.reserve hcall
  | clear =>
    cases hcall
    exact ht.clear

/-- Calls that use up all empty rows of a table of capacity seven. -/
def usingUp : List (Call Nat Nat) :=
  [.insert 70 0, .insert 71 1, .insert 72 2, .insert 73 3, .insert 74 4, .insert 75 5,
    .insert 76 6, .remove 73, .insert 80 7, .remove 74, .insert 81 8, .remove 70, .remove 71,
    .insert 82 9]

/-- The table that these calls make. -/
def usedUp : Table Nat Nat where
  rows := #[.live 8 5, .live 7 2, (Row.live 7 0).toTombstone, (Row.live 7 4).toTombstone,
    .live 7 1, .live 7 3, .live 8 4, .live 8 0]
  entries := #[(81, 8), (75, 5), (72, 2), (76, 6), (80, 7), (82, 9)]
  capacity := 7
  indexMask := 7

private theorem build_usingUp : build tens 7 usingUp = .ok usedUp := by decide +kernel

/-- Two rounds after it looked at its first row, the walk that places one more key with the hash
eight stands before the same rows, with the same row in hand. -/
private theorem usedUp_circles (limit : Nat) :
    (start usedUp.rows 8 usedUp.size 0).settle? limit = none := by
  let circling : Placement := ⟨usedUp.rows, 8, usedUp.size, 1, 1, none⟩
  have hfirst : (start usedUp.rows 8 usedUp.size 0).run 1 = .onward circling := by decide +kernel
  have hrounds : circling.run 16 = .onward circling := by decide +kernel
  exact (reaches_of_run hfirst).settle?_eq_none_of_loop (reaches_of_run hrounds) limit

/-- A program with consistent key semantics can bring about a table into which a further insertion
is given up whatever the limit. -/
theorem not_all_insertions_end : ¬ ∀ keys : KeySemantics Nat, keys.Consistent →
    ∀ capacity calls (t : Table Nat Nat), build keys capacity calls = .ok t →
      ∀ key value, ∃ _limit : WalkLimit, ∀ left,
        t.insertWith (keys.hash key) key value keys.eq (fun _ new ↦ new) ≠
          .error ⟨.noFreeRow, left⟩ := by
  intro hall
  obtain ⟨_, hends⟩ :=
    hall tens (KeySemantics.consistent_beq _) 7 usingUp usedUp build_usingUp 83 10
  have hroom : usedUp.size < usedUp.capacity := by decide
  have hspot : findSpot usedUp.rows (scramble (tens.hash 83)) (usedUp.holdsAt (tens.eq 83)) =
      .taken 0 := by
    decide +kernel
  obtain ⟨left, hput⟩ := put_of_place?_eq_none hspot (usedUp_circles _)
  exact hends left ((insertWith_of_lt hroom).trans hput)

/-- The theorem at the table that is used up: the insertion of a new key overruns and leaves seven
entries with six rows, that of a stored key does not. -/
theorem insertWith_overruns_in_usedUp : (∃ _limit : WalkLimit, Reachable usedUp) ∧
    (∃ left, usedUp.insertWith (tens.hash 83) 83 10 tens.eq (fun _ new ↦ new) =
        .error ⟨.noFreeRow, left⟩ ∧
      HalfInserted usedUp 83 10 left ∧ left.size = 7 ∧ (liveRows left.rows).length = 6) ∧
    usedUp.Overruns (tens.hash 83) 83 tens.eq ∧ ¬ usedUp.Overruns (tens.hash 81) 81 tens.eq := by
  have hreach : ∃ _limit : WalkLimit, Reachable usedUp := ⟨_, reachable_of_build build_usingUp⟩
  obtain ⟨hnew, hleft, -⟩ :=
    insertWith_overruns_iff hreach (tens.hash 83) 83 10 tens.eq fun _ new ↦ new
  obtain ⟨hstored, -⟩ :=
    insertWith_overruns_iff hreach (tens.hash 81) 81 10 tens.eq fun _ new ↦ new
  have hok : (usedUp.insertWith (tens.hash 81) 81 10 tens.eq fun _ new ↦ new).isOk = true := by
    decide +kernel
  have hbad : ((usedUp.insertWith (tens.hash 83) 83 10 tens.eq fun _ new ↦ new).mapError fun h ↦
      (h.error, h.left.size, (liveRows h.left.rows).length)) = .error (.noFreeRow, 7, 6) := by
    decide +kernel
  cases hi : usedUp.insertWith (tens.hash 83) 83 10 tens.eq fun _ new ↦ new with
  | ok r =>
    rw [hi] at hbad
    cases hbad
  | error halt =>
    obtain ⟨reason, left⟩ := halt
    rw [hi] at hbad
    obtain ⟨rfl, hfigures⟩ := Prod.mk.inj (Except.error.inj hbad)
    obtain ⟨hsize, hlive⟩ := Prod.mk.inj hfigures
    refine ⟨hreach, ⟨left, rfl, (hleft left hi).1, hsize, hlive⟩, hnew.mp ⟨left, hi⟩, fun hover ↦ ?_⟩
    obtain ⟨_, hstop⟩ := hstored.mpr hover
    rw [hstop] at hok
    cases hok

end Table

end RobinHood
