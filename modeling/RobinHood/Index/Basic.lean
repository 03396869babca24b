import RobinHood.Row

/-!
# The index and its geometry

An index is an array of rows that is walked in a circle. Each hash has a home row, and how far
a row stands past its home, going forward and round the end, is its distance. Reading past the
end gives the empty row, so that every walk below is defined on every array whatsoever.
-/

namespace RobinHood

/-- The rows of a table, in order of position. -/
abbrev Index := Array Row

namespace Index

/-- An index of `size` rows that hold nothing. -/
def blank (size : Nat) : Index := Array.replicate size Row.empty

/-- The row at a position; empty past the end. -/
def rowAt (rows : Index) (pos : Nat) : Row := rows.getD pos Row.empty

/-- Where the walk for a hash begins, among `size` rows. -/
def home (size : Nat) (hash : UInt32) : Nat := hash.toNat % size

/-- How far `pos` lies past the home of `hash`, among `size` rows. -/
def distance (size : Nat) (hash : UInt32) (pos : Nat) : Nat :=
  (pos + size - home size hash) % size

/-- Where the walk for `hash` stands after `d` steps, among `size` rows. -/
def walkPos (size : Nat) (hash : UInt32) (d : Nat) : Nat := (home size hash + d) % size

/-- The position after `pos`, among `size` rows that form a circle. -/
def next (size : Nat) (pos : Nat) : Nat := (pos + 1) % size

/-- The rows that stand for entries, in order of position. -/
def liveRows (rows : Index) : List Row := rows.toList.filter Row.isLive

/-- How many tombstones there are. -/
def tombstones (rows : Index) : Nat := rows.countP Row.isTombstone

/-- The rows cut into `parts` blocks of equal length, the last one taking what is left over. -/
def blocks (rows : Index) (parts : Nat) : List Index :=
  let length := rows.size / parts
  (List.range parts).map fun p =>
    rows.extract (p * length) (if p + 1 = parts then rows.size else (p + 1) * length)

/-- A blank index has the rows asked for. -/
theorem size_blank (size : Nat) : (blank size).size = size := Array.size_replicate

/-- A blank index holds nothing anywhere. -/
theorem rowAt_blank (size pos : Nat) : rowAt (blank size) pos = Row.empty := by
  unfold rowAt blank
  rw [Array.getD_eq_getD_getElem?, Array.getElem?_replicate]
  split <;> rfl

/-- Past the end there is nothing. -/
theorem rowAt_of_size_le {rows : Index} {pos : Nat} (h : rows.size ≤ pos) :
    rowAt rows pos = Row.empty := by
  unfold rowAt
  rw [Array.getD_eq_getD_getElem?, Array.getElem?_eq_none h, Option.getD_none]

/-- Among at least one row every distance is less than the number of rows. -/
theorem distance_lt {size : Nat} (h : 0 < size) (hash : UInt32) (pos : Nat) :
    distance size hash pos < size := Nat.mod_lt _ h

/-- Among at least one row every home is a row. -/
theorem home_lt {size : Nat} (h : 0 < size) (hash : UInt32) : home size hash < size :=
  Nat.mod_lt _ h

/-- Among at least one row a walk stays on the rows. -/
theorem walkPos_lt {size : Nat} (h : 0 < size) (hash : UInt32) (d : Nat) :
    walkPos size hash d < size := Nat.mod_lt _ h

end Index

end RobinHood
