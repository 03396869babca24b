import RobinHood.Table.Basic

/-!
# Removal

Removing an entry moves the last entry of the store into its place, so the row of the moved
entry has to be found again. That search goes once round the whole index, beginning where
the moved key's hash says; it looks at store positions alone, and so finds the row whatever
the hash.
-/

namespace RobinHood

namespace Index

/-- Whether this live row stands for the entry at the given store position. -/
def standsFor (row : Row) (entry : Nat) : Bool := row.isLive && row.entry == entry

/-- The first of the next `left` positions from `pos` on whose row stands for `entry`. -/
def ownerFrom (rows : Index) (entry : Nat) : (left pos : Nat) → Option Nat
  | 0, _ => none
  | left + 1, pos =>
    if standsFor (rowAt rows pos) entry then some pos
    else ownerFrom rows entry left (next rows.size pos)

/-- The row that stands for `entry`, searched for once round from the home of `hash`. -/
def owner? (rows : Index) (hash : UInt32) (entry : Nat) : Option Nat :=
  ownerFrom rows entry rows.size (home rows.size hash)

/-- The rows with the row at `pos`, if any, standing for `entry`. -/
def redirect (rows : Index) (pos : Option Nat) (entry : Nat) : Index :=
  match pos with
  | some pos => rows.setIfInBounds pos ((rowAt rows pos).withEntry entry)
  | none => rows

end Index

namespace Table

variable {K V : Type}

/-- The store without the entry at a position, the last entry taking its place. -/
def swapRemove {E : Type} (entries : Array E) (entry : Nat) : Array E :=
  (entries.swapIfInBounds entry (entries.size - 1)).pop

/-- The row of the last entry of the store, which has to stand for position `entry` once that
entry is gone; none if `entry` is itself the last. `hasher` tells where the search begins. -/
def movedRow? (t : Table K V) (entry : Nat) (hasher : K → UInt64) : Option Nat :=
  let last := t.size - 1
  if entry = last then none
  else (t.entries[last]?).bind fun moved =>
    Index.owner? t.rows (scramble (hasher moved.1)) last

/-- The table without the entry that the row at `pos` stands for; the row becomes a
tombstone. -/
def removeRow (t : Table K V) (pos : Nat) (hasher : K → UInt64) : Table K V :=
  let row := Index.rowAt t.rows pos
  let moved := t.movedRow? row.entry hasher
  match t with
  | ⟨rows, entries, capacity, indexMask⟩ =>
    ⟨(Index.redirect rows moved row.entry).setIfInBounds pos row.toTombstone,
      swapRemove entries row.entry, capacity, indexMask⟩

/-- Remove the entry of a key. The answer holds that entry; there is none, and nothing changes,
if no key satisfies `eq`. -/
def remove (t : Table K V) (hash : UInt64) (eq : K → Bool) (hasher : K → UInt64) :
    Option (K × V) × Table K V :=
  match t.findRow? (scramble hash) eq with
  | some pos => (t.entries[(Index.rowAt t.rows pos).entry]?, t.removeRow pos hasher)
  | none => (none, t)

end Table

end RobinHood
