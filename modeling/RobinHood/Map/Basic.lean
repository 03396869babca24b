import RobinHood.Associative
import RobinHood.Cursor
import RobinHood.KeySemantics
import RobinHood.Table.Insert
import RobinHood.Table.Remove

/-!
# Maps

A map is a table together with the key semantics under which all its keys are hashed and
compared. Seen from outside it is a list of entries with different keys: a new key goes to the
end, and when an entry is removed the last one takes its place.
-/

namespace RobinHood

/-- A map with a dense store of entries. -/
structure DenseMap (K V : Type) where
  /-- Where the entries are. -/
  table : Table K V
  /-- How keys are hashed and compared. -/
  keys : KeySemantics K

namespace DenseMap

variable {K V : Type} [WalkLimit]

/-- The capacity of a map for which none is given. -/
def defaultCapacity : Nat := 16

/-- The empty map of default capacity. -/
def empty (keys : KeySemantics K) : DenseMap K V := ⟨.blank defaultCapacity, keys⟩

/-- An empty map with room for `capacity` entries. -/
def withCapacity (capacity : Nat) (keys : KeySemantics K) : Except Error (DenseMap K V) := do
  return ⟨← Table.withCapacity capacity, keys⟩

/-- The number of entries. -/
def size (m : DenseMap K V) : Nat := m.table.size

/-- Whether there are no entries. -/
def isEmpty (m : DenseMap K V) : Bool := m.table.isEmpty

/-- How many entries the map holds before it grows. -/
def capacity (m : DenseMap K V) : Nat := m.table.capacity

/-- The entries, in order of storage. -/
def entries (m : DenseMap K V) : Array (K × V) := m.table.entries

/-- A cursor over the entries. -/
def iter (m : DenseMap K V) : Cursor (K × V) := .ofArray m.entries

/-- A cursor over the keys. -/
def iterKeys (m : DenseMap K V) : Cursor K := .ofArray (m.entries.map Prod.fst)

/-- A cursor over the values. -/
def iterValues (m : DenseMap K V) : Cursor V := .ofArray (m.entries.map Prod.snd)

/-- The map without its entries; room once made is kept. -/
def clear (m : DenseMap K V) : DenseMap K V := { m with table := m.table.clear }

/-- The map with room for `additional` more entries. -/
def reserve (m : DenseMap K V) (additional : Nat) :
    Except (Halt (DenseMap K V)) (DenseMap K V) := do
  return ⟨← Halt.within (⟨·, m.keys⟩) (m.table.reserve additional), m.keys⟩

/-- The position in the store of the entry for a key. -/
def find? (m : DenseMap K V) (key : K) : Option Nat :=
  m.table.find? (m.keys.hash key) (m.keys.eq key)

/-- Whether an entry is stored for the key. -/
def contains (m : DenseMap K V) (key : K) : Bool := (m.find? key).isSome

/-- The stored key and value for a key. -/
def getEntry? (m : DenseMap K V) (key : K) : Option (K × V) :=
  (m.find? key).bind fun entry => m.entries[entry]?

/-- The value stored for a key. -/
def get? (m : DenseMap K V) (key : K) : Option V := m.getEntry? key |>.map Prod.snd

/-- The value stored for a key, or `fallback` where there is none. -/
def getD (m : DenseMap K V) (key : K) (fallback : V) : V := (m.get? key).getD fallback

/-- Replace the value stored for a key by its image under `f`. The answer holds the value before;
there is none, and nothing changes, if the key is absent. -/
def modify (m : DenseMap K V) (key : K) (f : V → V) : Option V × DenseMap K V :=
  match m.find? key with
  | some entry =>
    ((m.entries[entry]?).map Prod.snd, ⟨m.table.modifyValue entry f, m.keys⟩)
  | none => (none, m)

/-- Insert an entry; for a key that is stored already the value becomes `merge stored value`.
The answer holds the value that was stored before, if any. -/
def insertWith : DenseMap K V → (key : K) → (value : V) → (merge : V → V → V) →
    Except (Halt (DenseMap K V)) (Option V × DenseMap K V)
  | ⟨table, keys⟩, key, value, merge => do
    let (stored, table) ← Halt.within (⟨·, keys⟩)
      (table.insertWith (keys.hash key) key value keys.eq merge)
    return (stored, ⟨table, keys⟩)

/-- Insert an entry, replacing the value of a key that is stored already. The answer holds the
value that was stored before, if any. -/
def insert (m : DenseMap K V) (key : K) (value : V) :
    Except (Halt (DenseMap K V)) (Option V × DenseMap K V) :=
  m.insertWith key value fun _ value => value

/-- The map with an entry inserted, replacing the value of a key that is stored already. -/
def put (m : DenseMap K V) (key : K) (value : V) :
    Except (Halt (DenseMap K V)) (DenseMap K V) := do
  return (← m.insert key value).2

/-- Set the value for a key to what `f` makes of the value stored before, if any, which is
also the answer. -/
def update (m : DenseMap K V) (key : K) (f : Option V → V) :
    Except (Halt (DenseMap K V)) (Option V × DenseMap K V) :=
  match m.modify key fun stored => f (some stored) with
  | (some stored, m) => .ok (some stored, m)
  | (none, m) => do return (none, ← m.put key (f none))

/-- Remove the entry for a key. The answer holds that entry; there is none, and nothing changes,
if the key is absent. -/
def take : DenseMap K V → (key : K) → Option (K × V) × DenseMap K V
  | ⟨table, keys⟩, key =>
    let (entry, table) := table.remove (keys.hash key) (keys.eq key) keys.hash
    (entry, ⟨table, keys⟩)

/-- The map without the entry for a key. -/
def erase (m : DenseMap K V) (key : K) : DenseMap K V := (m.take key).2

/-- The map after all pairs were put into it in order. `hint` pairs are expected; it decides how
much room is made at the start and nothing else. -/
def extend (m : DenseMap K V) (hint : Nat) (pairs : List (K × V)) :
    Except (Halt (DenseMap K V)) (DenseMap K V) := do
  let m ← m.reserve (min hint (maxCapacity - m.size))
  pairs.foldlM (fun m (key, value) => m.put key value) m

/-- The map of the given pairs, of which later ones win. -/
def ofList (keys : KeySemantics K) (pairs : List (K × V)) : Except Error (DenseMap K V) :=
  Halt.forget ((empty keys).extend pairs.length pairs)

instance : Associative (DenseMap K V) K V where
  size := size
  contains := contains
  get? := get?
  isLinear _ := true
  forked _ := .error .illegalConversion

/-- Maps are equal when they have equally many entries and each of the first is in the second
under the semantics of the second. -/
instance [BEq V] : BEq (DenseMap K V) where
  beq m other :=
    m.size == other.size &&
      m.entries.all fun (key, value) => (other.get? key).any (· == value)

end DenseMap

end RobinHood
