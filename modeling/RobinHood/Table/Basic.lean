import RobinHood.Error
import RobinHood.Hash.Scramble
import RobinHood.Index.Placement

/-!
# Tables

A table keeps its entries densely in a store, in an order of its own, and finds them through an
index of rows. The table neither hashes nor compares keys: every operation is given the hash of
the key and an equality by its caller, and nothing is assumed about them here.

The raw operations are defined on every value of the type; what holds of the tables that
programs build is stated separately.
-/

namespace RobinHood

/-- A dense store of entries with a Robin Hood index over it. -/
structure Table (K V : Type) where
  /-- The rows of the index. -/
  rows : Index
  /-- The stored entries, without gaps. -/
  entries : Array (K × V)
  /-- How many entries the table holds before it grows. -/
  capacity : Nat
  /-- The bits of a number that are its remainder among the rows. -/
  indexMask : Nat
deriving DecidableEq, Repr

namespace Table

variable {K V : Type}

/-- No table has room for fewer entries than this. -/
def minCapacity : Nat := 4

/-- How many rows `capacity` entries need: the least power of two that keeps at most nineteen
rows in twenty in use. -/
def rowCount (capacity : Nat) : Nat := 1 <<< Nat.log2 (2 * ((capacity * 20 + 18) / 19) - 1)

/-- The table of the given capacity without entries. -/
def blank (capacity : Nat) : Table K V :=
  ⟨Index.blank (rowCount capacity), #[], capacity, rowCount capacity - 1⟩

/-- An empty table with room for `capacity` entries. -/
def withCapacity (capacity : Nat) : Except Error (Table K V) :=
  if maxCapacity < capacity then .error (.capacityExceeded capacity maxCapacity)
  else .ok (blank (max capacity minCapacity))

/-- The number of entries. -/
def size (t : Table K V) : Nat := t.entries.size

/-- Whether there are no entries. -/
def isEmpty (t : Table K V) : Bool := t.entries.isEmpty

/-- The table without its entries; room once made is kept. -/
def clear (t : Table K V) : Table K V :=
  { t with rows := Index.blank t.rows.size, entries := #[] }

/-- The entries in the order of the rows that stand for them. A row that points past the store
stands for nothing. -/
def entriesByRow (t : Table K V) : List (Row × K × V) :=
  (Index.liveRows t.rows).filterMap fun row => (t.entries[row.entry]?).map (row, ·)

/-- Whether the entry at a store position has a key that satisfies `eq`. -/
def holdsAt (t : Table K V) (eq : K → Bool) (entry : Nat) : Bool :=
  (t.entries[entry]?).any fun e => eq e.1

/-- The position of the row for a key of the given scrambled hash. -/
def findRow? (t : Table K V) (hash : UInt32) (eq : K → Bool) : Option Nat :=
  Index.find? t.rows hash (t.holdsAt eq)

/-- The store position of a key of the given hash. -/
def find? (t : Table K V) (hash : UInt64) (eq : K → Bool) : Option Nat :=
  (t.findRow? (scramble hash) eq).map fun pos => (Index.rowAt t.rows pos).entry

/-- The table with the value at a store position replaced by its image under `f`. -/
def modifyValue (t : Table K V) (entry : Nat) (f : V → V) : Table K V :=
  { t with entries := t.entries.modify entry fun e => (e.1, f e.2) }

end Table

end RobinHood
