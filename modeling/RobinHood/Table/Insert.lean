import RobinHood.Table.Growth

/-!
# Insertion

A new key is appended to the store and gets a row; for a key that is stored already only the
value changes. Room is made before the key is looked for, so a full table grows even when
the key turns out to be present. An entry is appended before its row is placed, so a walk that is
given up leaves a table with one entry more, and with the row that was last displaced missing.
-/

namespace RobinHood

namespace Table

variable {K V : Type} [WalkLimit]

/-- Append an entry, placing its row by a walk that starts at `pos`. -/
def append (t : Table K V) (hash : UInt32) (key : K) (value : V) (pos : Nat) :
    Except (Halt (Table K V)) (Table K V) :=
  match Index.place t.rows hash t.size pos with
  | .settled rows => .ok { t with rows := rows, entries := t.entries.push (key, value) }
  | .onward walk =>
    .error ⟨.noFreeRow, { t with rows := walk.rows, entries := t.entries.push (key, value) }⟩

/-- Insert into a table that has room. The answer holds the value that was stored for the key
before, if any; the new value is then `merge stored value`. -/
def put (t : Table K V) (hash : UInt32) (key : K) (value : V) (eq : K → K → Bool)
    (merge : V → V → V) : Except (Halt (Table K V)) (Option V × Table K V) :=
  match Index.findSpot t.rows hash (t.holdsAt (eq key)) with
  | .held entry =>
    .ok ((t.entries[entry]?).map Prod.snd, t.modifyValue entry fun stored => merge stored value)
  | .vacant pos =>
    .ok (none, { t with
      rows := t.rows.setIfInBounds pos (Row.live hash t.size)
      entries := t.entries.push (key, value) })
  | .taken pos => do return (none, ← t.append hash key value pos)

/-- Insert, making room first. The answer holds the value that was stored for the key before,
if any; the new value is then `merge stored value`. -/
def insertWith (t : Table K V) (hash : UInt64) (key : K) (value : V) (eq : K → K → Bool)
    (merge : V → V → V) : Except (Halt (Table K V)) (Option V × Table K V) := do
  (← t.reserveOne).put (scramble hash) key value eq merge

/-- Append an entry whose key is known to be absent, placing its row from home. -/
def pushNew (t : Table K V) (hash : UInt32) (key : K) (value : V) :
    Except (Halt (Table K V)) (Table K V) :=
  t.append hash key value (Index.home t.rows.size hash)

end Table

end RobinHood
