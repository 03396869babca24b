import RobinHood.Map.Bulk
import RobinHood.Set.Elements

/-!
# Sets

A set is a map whose values say nothing. Its elements can also be read by position.
-/

namespace RobinHood

/-- A set with a dense store of elements. -/
structure DenseSet (T : Type) where
  /-- The elements as keys of a map. -/
  map : DenseMap T Unit

namespace DenseSet

variable {T : Type} [WalkLimit]

/-- The empty set of default capacity. -/
def empty (keys : KeySemantics T) : DenseSet T := ⟨.empty keys⟩

/-- An empty set with room for `capacity` elements. -/
def withCapacity (capacity : Nat) (keys : KeySemantics T) : Except Error (DenseSet T) := do
  return ⟨← DenseMap.withCapacity capacity keys⟩

/-- The number of elements. -/
def size (s : DenseSet T) : Nat := s.map.size

/-- Whether there are no elements. -/
def isEmpty (s : DenseSet T) : Bool := s.map.isEmpty

/-- How many elements the set holds before it grows. -/
def capacity (s : DenseSet T) : Nat := s.map.capacity

/-- The view of all elements, in order of storage. -/
def elements (s : DenseSet T) : Elements T := ⟨s.map.entries.map Prod.fst⟩

/-- A cursor over the elements. -/
def iter (s : DenseSet T) : Cursor T := s.elements.iter

/-- The set without its elements; room once made is kept. -/
def clear (s : DenseSet T) : DenseSet T := ⟨s.map.clear⟩

/-- The set with room for `additional` more elements. -/
def reserve (s : DenseSet T) (additional : Nat) : Except (Halt (DenseSet T)) (DenseSet T) := do
  return ⟨← Halt.within (⟨·⟩) (s.map.reserve additional)⟩

/-- The set with an element added. The answer tells whether it is new; an equal element that is
there already stays. -/
def insert : DenseSet T → (element : T) → Except (Halt (DenseSet T)) (Bool × DenseSet T)
  | ⟨map⟩, element => do
    let (stored, map) ← Halt.within (⟨·⟩) (map.insert element ())
    return (stored.isNone, ⟨map⟩)

/-- Whether an equal element is in the set. -/
def contains (s : DenseSet T) (element : T) : Bool := s.map.contains element

/-- The stored element equal to the given one. -/
def get? (s : DenseSet T) (element : T) : Option T := s.map.getEntry? element |>.map Prod.fst

/-- Remove an element. The answer holds the stored element equal to it; there is none, and
nothing changes, if no element is. -/
def take : DenseSet T → (element : T) → Option T × DenseSet T
  | ⟨map⟩, element =>
    let (entry, map) := map.take element
    (entry.map Prod.fst, ⟨map⟩)

/-- The set without an element. -/
def erase (s : DenseSet T) (element : T) : DenseSet T := (s.take element).2

/-- The set after all elements were added in order. `hint` elements are expected; it decides how
much room is made at the start and nothing else. -/
def extend (s : DenseSet T) (hint : Nat) (elements : List T) :
    Except (Halt (DenseSet T)) (DenseSet T) := do
  return ⟨← Halt.within (⟨·⟩) (s.map.extend hint (elements.map (·, ())))⟩

/-- The set of the given elements. -/
def ofList (keys : KeySemantics T) (elements : List T) : Except Error (DenseSet T) :=
  Halt.forget ((empty keys).extend elements.length elements)

/-- Whether every element is in `other`. -/
def isSubset (s other : DenseSet T) : Bool := s.map.isSubset other.map

/-- Whether every element of `other` is in `s`. -/
def isSuperset (s other : DenseSet T) : Bool := other.isSubset s

/-- Whether no element is in `other`. -/
def isDisjoint (s other : DenseSet T) : Bool :=
  !s.elements.items.any other.contains

/-- The elements of both sets. Of equal elements the one of the larger set is kept, and of sets of
one size that of the first. -/
def union (s other : DenseSet T) : Except Error (DenseSet T) := do
  return ⟨(← s.map.mergeWith other.map fun mine _ => mine).map⟩

/-- The elements of `s` that are in `other`. -/
def intersection (s other : DenseSet T) : Except Error (DenseSet T) := do
  return ⟨← s.map.intersection other.map⟩

/-- The elements of `s` that are not in `other`. -/
def difference (s other : DenseSet T) : Except Error (DenseSet T) := do
  return ⟨← s.map.difference other.map⟩

/-- At most `parts` sets, none of them empty, that hold every element once. -/
def split (s : DenseSet T) (parts : Nat) : Except Error (List (DenseSet T)) := do
  return (← s.map.split parts).map fun map => ⟨map⟩

/-- Sets are equal when they have equally many elements and each of the first is in the second
under the semantics of the second. -/
instance : BEq (DenseSet T) where
  beq s other := s.map == other.map

/-- The elements of a set in words. -/
def text [Inspect T] (s : DenseSet T) (style : Text.Style) : String :=
  style.set (s.elements.items.toList.map Inspect.inspect)

end DenseSet

namespace DenseMap

variable {K V : Type} [WalkLimit]

/-- Whether every element of `elements` has an entry in `m`. -/
def containsAllKeys (m : DenseMap K V) (elements : DenseSet K) : Bool :=
  m.containsAll elements.map

/-- The entries of `m` whose key is an element of `elements`. -/
def intersectionKeys (m : DenseMap K V) (elements : DenseSet K) : Except Error (DenseMap K V) :=
  m.intersection elements.map

end DenseMap

end RobinHood
