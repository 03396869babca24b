import RobinHood.Index.Lookup

/-!
# Displacement walks

A placement carries one row forward, looking for a free row to settle in. Where it meets a live
row that stands closer to its home than the carried one has come, the two change places and
the walk goes on with the row that was displaced. A tombstone met on the way is reused unless
a live row was passed since that stands farther from its home than the carried row had come.

Such a walk need not end on every array of rows, so `run` takes the number of rows it may look at,
and answers with the walk as it stands when they are not enough.
-/

namespace RobinHood

/-- How many rows a placement may look at before it is given up, by the number of rows there are:
more than one round. Without such a limit a walk that does not end would have no outcome; one that
does end has the same outcome under every limit that it stays within. -/
class WalkLimit where
  /-- How many rows of an index with `size` rows may be looked at. -/
  limit (size : Nat) : Nat
  /-- A whole round, and the first row again, is never too long. -/
  lt_limit (size : Nat) : size < limit size

/-- Unless another limit is given, a walk may go one round and look at the first row again. -/
instance WalkLimit.round : WalkLimit := ⟨fun size => size + 1, Nat.lt_succ_self⟩

namespace Index

/-- A walk with a live row in hand. -/
structure Placement where
  /-- The rows as they stand. -/
  rows : Index
  /-- The scrambled hash of the row in hand. -/
  hash : UInt32
  /-- The store position of the row in hand. -/
  entry : Nat
  /-- The row to look at next. -/
  pos : Nat
  /-- How far the row in hand has come from its home. -/
  dist : Nat
  /-- The tombstone to reuse, if one was met. -/
  reuse : Option Nat
deriving DecidableEq, Repr

namespace Placement

/-- A walk that is about to look at the row `pos`. -/
def start (rows : Index) (hash : UInt32) (entry pos : Nat) : Placement :=
  ⟨rows, hash, entry, pos, distance rows.size hash pos, none⟩

/-- The rows with the row in hand put down at `pos`. -/
def putDown (p : Placement) (pos : Nat) : Index :=
  p.rows.setIfInBounds pos (Row.live p.hash p.entry)

/-- What looking at one row leads to. -/
inductive Outcome where
  /-- The row in hand was put down, and the walk is over. -/
  | settled (rows : Index)
  /-- The walk goes on. -/
  | onward (p : Placement)
deriving DecidableEq, Repr

/-- Look at one row. -/
def step (p : Placement) : Outcome :=
  let row := rowAt p.rows p.pos
  if row.isEmpty then .settled (p.putDown (p.reuse.getD p.pos))
  else
    let rowDist := distance p.rows.size row.hash p.pos
    let reuse := reusable p.rows.size row p.pos p.dist p.reuse
    let ahead := next p.rows.size p.pos
    if rowDist < p.dist then
      match reuse with
      | some free => .settled (p.putDown free)
      | none => .onward ⟨p.putDown p.pos, row.hash, row.entry, ahead, rowDist + 1, none⟩
    else .onward { p with pos := ahead, dist := p.dist + 1, reuse := reuse }

/-- Look at no more than `limit` rows. -/
def run : Nat → Placement → Outcome
  | 0, p => .onward p
  | limit + 1, p =>
    match p.step with
    | .settled rows => .settled rows
    | .onward p => p.run limit

/-- The rows after a walk that is over. -/
def Outcome.rows? : Outcome → Option Index
  | .settled rows => some rows
  | .onward _ => none

theorem Outcome.rows?_eq_some_iff {outcome : Outcome} {rows : Index} :
    outcome.rows? = some rows ↔ outcome = .settled rows := by
  cases outcome with
  | settled rows' => simp [rows?]
  | onward p => simp [rows?]

/-- The rows after the walk, if looking at no more than `limit` rows ends it. -/
def settle? (limit : Nat) (p : Placement) : Option Index := (p.run limit).rows?

/-- A walk that settles at the first row that it looks at is over. -/
theorem run_succ_of_settled {p : Placement} {rows : Index} (h : p.step = .settled rows)
    (limit : Nat) : p.run (limit + 1) = .settled rows := by
  rw [run, h]

/-- A walk that goes on may look at one row less from then on. -/
theorem run_succ_of_onward {p q : Placement} (h : p.step = .onward q) (limit : Nat) :
    p.run (limit + 1) = q.run limit := by
  rw [run, h]

/-- A walk that ends within `limit` rows ends the same way when allowed more. -/
theorem settle?_mono {limit more : Nat} (h : limit ≤ more) {p : Placement} {rows : Index}
    (hr : p.settle? limit = some rows) : p.settle? more = some rows := by
  induction limit generalizing more p with
  | zero => cases hr
  | succ limit ih =>
    obtain ⟨more, rfl⟩ : ∃ k, more = k + 1 := ⟨more - 1, by omega⟩
    cases hs : p.step with
    | settled rows' =>
      rw [settle?, run_succ_of_settled hs] at hr ⊢
      exact hr
    | onward q =>
      rw [settle?, run_succ_of_onward hs] at hr ⊢
      exact ih (Nat.le_of_succ_le_succ h) hr

end Placement

/-- Place a live row for `hash` and `entry` by a walk that starts at `pos`. -/
def place [WalkLimit] (rows : Index) (hash : UInt32) (entry pos : Nat) : Placement.Outcome :=
  (Placement.start rows hash entry pos).run (WalkLimit.limit rows.size)

/-- The rows with a live row for `hash` and `entry` placed by a walk that starts at `pos`. -/
def place? [WalkLimit] (rows : Index) (hash : UInt32) (entry pos : Nat) : Option Index :=
  (place rows hash entry pos).rows?

theorem place?_eq_settle? [WalkLimit] (rows : Index) (hash : UInt32) (entry pos : Nat) :
    place? rows hash entry pos =
      (Placement.start rows hash entry pos).settle? (WalkLimit.limit rows.size) := rfl

/-- A row is placed where its walk settles in one round, or at the second look at its first row. -/
theorem place?_of_settle? [WalkLimit] {rows rows' : Index} {hash : UInt32} {entry pos limit : Nat}
    (hle : limit ≤ rows.size + 1)
    (h : (Placement.start rows hash entry pos).settle? limit = some rows') :
    place? rows hash entry pos = some rows' :=
  Placement.settle?_mono (Nat.le_trans hle (WalkLimit.lt_limit rows.size)) h

/-- The rows with a live row for `hash` and `entry` placed from its home onward. -/
def placeHome? [WalkLimit] (rows : Index) (hash : UInt32) (entry : Nat) : Option Index :=
  place? rows hash entry (home rows.size hash)

end Index

end RobinHood
