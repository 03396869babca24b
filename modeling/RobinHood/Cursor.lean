/-!
# Cursors over a store

A cursor hands out the elements of an array one by one, and always knows how many are left.
-/

namespace RobinHood

/-- A place in an array of elements. -/
structure Cursor (α : Type) where
  /-- All elements. -/
  items : Array α
  /-- How many were handed out. -/
  taken : Nat

namespace Cursor

variable {α : Type}

/-- A cursor before the first element. -/
def ofArray (items : Array α) : Cursor α := ⟨items, 0⟩

/-- The next element, with the cursor past it. -/
def next? (c : Cursor α) : Option (α × Cursor α) :=
  (c.items[c.taken]?).map (·, { c with taken := c.taken + 1 })

/-- How many elements are left. -/
def remaining (c : Cursor α) : Nat := c.items.size - c.taken

/-- The bounds known for the number of elements left: both are exact. -/
def sizeHint (c : Cursor α) : Nat × Option Nat := (c.remaining, some c.remaining)

/-- The next elements, at most `count` of them, with the cursor past them. -/
def take (c : Cursor α) : Nat → List α × Cursor α
  | 0 => ([], c)
  | count + 1 =>
    match c.next? with
    | none => ([], c)
    | some (item, c) =>
      let (items, c) := c.take count
      (item :: items, c)

end Cursor

end RobinHood
