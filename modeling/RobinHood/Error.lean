/-!
# Capacity ceiling and failures

Every table has one ceiling on the number of entries it may hold. Operations which may need
more room, or which are refused by the representation, answer with a value of `Error`;
`Error.message` is the only place where such a failure is put into words.

An operation that changes a value in place may have changed it before it fails. Its failure is a
`Halt`, which holds the value as it then stands.
-/

namespace RobinHood

/-- The largest number of entries a table can hold. -/
def maxCapacity : Nat := 1 <<< 29

/-- The largest count there is. -/
def maxCount : Nat := UInt64.size - 1

/-- The reasons for which an operation is refused. -/
inductive Error where
  /-- More entries were asked for than the ceiling `limit` admits. -/
  | capacityExceeded (requested limit : Nat)
  /-- A single-owner map has no shared, persistent form. -/
  | illegalConversion
  /-- A view was to be divided past its end. -/
  | splitPastEnd
  /-- A displacement walk was cut off before it found a row to settle in. -/
  | noFreeRow
  /-- A sum of counts is larger than any count can be. -/
  | countOverflow
deriving DecidableEq, Repr

namespace Error

/-- The wording of a failure. -/
def message : Error → String
  | capacityExceeded requested limit =>
    s!"capacity of {requested} entries exceeds the maximum of {limit}"
  | illegalConversion =>
    "a linear map cannot be efficiently transformed into a forked representation"
  | splitPastEnd => "mid > len"
  | noFreeRow => "no free row left in the index table"
  | countOverflow => "attempt to add with overflow"

end Error

/-- How an operation ends that changes a value and fails. -/
structure Halt (α : Type) where
  /-- Why it failed. -/
  error : Error
  /-- The value as it was left. -/
  left : α
deriving DecidableEq, Repr

namespace Halt

variable {α β γ : Type}

/-- The same failure of an operation on a value that has the one left as its part. -/
def map (f : α → β) (h : Halt α) : Halt β := ⟨h.error, f h.left⟩

/-- An operation on a part of a value, as one on the whole that `f` makes of the part. -/
def within (f : α → β) (x : Except (Halt α) γ) : Except (Halt β) γ := x.mapError (map f)

/-- An operation on a value that nobody sees once it has failed. -/
def forget (x : Except (Halt α) γ) : Except Error γ := x.mapError error

end Halt

end RobinHood
