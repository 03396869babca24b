import RobinHood.Map.Basic
import RobinHood.Table.Bulk

/-!
# Whole maps at once

Merging, selecting, comparing and splitting maps. Keys of one map are looked up in another
under the semantics of the map they are looked up in; a map made out of another one keeps
the semantics of that one.
-/

namespace RobinHood

namespace DenseMap

variable {K V W : Type} [WalkLimit]

/-- Whether every key of `m` has an entry in `other`. -/
def isSubset (m : DenseMap K V) (other : DenseMap K W) : Bool :=
  m.table.isSubset other.table other.keys.hash other.keys.eq

/-- Whether every key of `other` has an entry in `m`. -/
def containsAll (m : DenseMap K V) (other : DenseMap K W) : Bool := other.isSubset m

/-- A merged map, with the values that had to be combined. -/
structure Merged (K V : Type) where
  /-- The map that holds all entries. -/
  map : DenseMap K V
  /-- My value and theirs for each key of both maps, in the order they were met. -/
  combined : Array (V × V)

/-- The entries of both maps, with `merge mine theirs` for keys of both. The larger map is
copied and the smaller one inserted into the copy, which also decides whose key semantics
the result has; of maps of one size the first is copied. -/
def mergeWith (m other : DenseMap K V) (merge : V → V → V) : Except Error (Merged K V) :=
  if m.size < other.size then do
    let r ← other.table.mergeWith m.table other.keys.hash other.keys.eq
      fun theirs mine => merge mine theirs
    return ⟨⟨r.table, other.keys⟩, r.combined.map Prod.swap⟩
  else do
    let r ← m.table.mergeWith other.table m.keys.hash m.keys.eq merge
    return ⟨⟨r.table, m.keys⟩, r.combined⟩

/-- The entries of both maps, with the value of the second for keys of both. -/
def union (m other : DenseMap K V) : Except Error (DenseMap K V) := do
  return (← m.mergeWith other fun _ theirs => theirs).map

/-- The entries of `m` whose key is in `other`, or with `found` false the others. -/
def select (m : DenseMap K V) (other : DenseMap K W) (found : Bool) :
    Except Error (DenseMap K V) := do
  return ⟨← m.table.select other.table other.keys.hash other.keys.eq found, m.keys⟩

/-- The entries of `m` whose key is not in `other`. -/
def difference (m : DenseMap K V) (other : DenseMap K W) : Except Error (DenseMap K V) :=
  m.select other false

/-- The entries of `m` whose key is in `other`. -/
def intersection (m : DenseMap K V) (other : DenseMap K W) : Except Error (DenseMap K V) :=
  m.select other true

/-- At most `parts` maps, none of them empty, that hold every entry once. How entries are
divided follows the layout of the index. -/
def split (m : DenseMap K V) (parts : Nat) : Except Error (List (DenseMap K V)) := do
  return (← m.table.split parts).map fun table => ⟨table, m.keys⟩

end DenseMap

end RobinHood
