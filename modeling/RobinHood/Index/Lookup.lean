import RobinHood.Index.Basic

/-!
# Walks that look for a key

A walk starts at the home row of a hash and goes forward one row at a time. It ends at the row
of the key it looks for, or as soon as a row proves the key absent: an empty row, or a row
that stands closer to its own home than the walk has come, since insertion would have put the
key in front of such a row. No row stands as far as the number of rows from its home, so a
walk ends after one round at the latest, whatever the rows hold.

`find?` is the walk of a lookup; `findSpot` is the walk of an insertion, which also remembers
a tombstone to reuse. Both take the entries that hold the key as a predicate on positions in
the store.
-/

namespace RobinHood

namespace Index

/-- Whether a live row carries this hash. Tombstones keep theirs and do not match. -/
def carries (row : Row) (hash : UInt32) : Bool := row.hash == hash && !row.isTombstone

/-- Whether a row proves that no key `d` rows past its home was ever pushed past it. -/
def bars (size : Nat) (row : Row) (pos d : Nat) : Bool :=
  row.isEmpty || decide (distance size row.hash pos < d)

/-- A walk that has gone a whole round past every home is barred by any row. -/
theorem lt_size_of_not_bars {rows : Index} {pos d : Nat}
    (h : bars rows.size (rowAt rows pos) pos d = false) : d < rows.size := by
  simp only [bars, Bool.or_eq_false_iff, decide_eq_false_iff_not, Nat.not_lt] at h
  by_cases hs : 0 < rows.size
  · exact Nat.lt_of_le_of_lt h.2 (distance_lt hs _ _)
  · rw [rowAt_of_size_le (by omega)] at h
    exact absurd h.1 (by decide)

/-- The rest of a lookup that has come `d` rows past the home of `hash`. -/
def findFrom (rows : Index) (hash : UInt32) (holds : Nat → Bool) (d : Nat) : Option Nat :=
  let pos := walkPos rows.size hash d
  let row := rowAt rows pos
  if carries row hash && holds row.entry then some pos
  else if _h : bars rows.size row pos d then none
  else findFrom rows hash holds (d + 1)
termination_by rows.size - d
decreasing_by
  have := lt_size_of_not_bars (Bool.eq_false_iff.2 _h)
  omega

/-- The position of the live row for a key of the given hash, if there is one. -/
def find? (rows : Index) (hash : UInt32) (holds : Nat → Bool) : Option Nat :=
  findFrom rows hash holds 0

/-- The tombstone to reuse after passing a non-empty row `d` rows into a walk: the first one
met, forgotten when a live row farther from its home than the walk was passed, since putting
a key in front of that row would hide the row from lookups. -/
def reusable (size : Nat) (row : Row) (pos d : Nat) (reuse : Option Nat) : Option Nat :=
  if row.isTombstone then some (reuse.getD pos)
  else if d < distance size row.hash pos then none
  else reuse

/-- Where an insertion goes. -/
inductive Spot where
  /-- The key is stored at this position of the store. -/
  | held (entry : Nat)
  /-- The key is absent, and this row is free for it. -/
  | vacant (pos : Nat)
  /-- The key is absent, and belongs where this row stands. -/
  | taken (pos : Nat)
deriving DecidableEq, Repr

/-- The rest of an insertion's walk that has come `d` rows past the home of `hash`. -/
def findSpotFrom (rows : Index) (hash : UInt32) (holds : Nat → Bool) (d : Nat)
    (reuse : Option Nat) : Spot :=
  let pos := walkPos rows.size hash d
  let row := rowAt rows pos
  if carries row hash && holds row.entry then .held row.entry
  else if row.isEmpty then .vacant (reuse.getD pos)
  else
    let reuse := reusable rows.size row pos d reuse
    if _h : bars rows.size row pos d then
      match reuse with
      | some free => .vacant free
      | none => .taken pos
    else findSpotFrom rows hash holds (d + 1) reuse
termination_by rows.size - d
decreasing_by
  have := lt_size_of_not_bars (Bool.eq_false_iff.2 _h)
  omega

/-- Where a key of the given hash is stored or goes. -/
def findSpot (rows : Index) (hash : UInt32) (holds : Nat → Bool) : Spot :=
  findSpotFrom rows hash holds 0 none

end Index

end RobinHood
