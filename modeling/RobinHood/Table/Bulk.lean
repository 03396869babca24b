import RobinHood.Table.Insert

/-!
# Whole tables at once

Merging, selecting, comparing and splitting tables. Each walks the rows of one table in order
of position. Tables cut out of another one keep its stored hashes; only looking into a
different table hashes keys again. The table that is being made is nobody's until it is done, so of
a failure only the reason is told.
-/

namespace RobinHood

namespace Table

variable {K V W : Type} [WalkLimit]

/-- A merged table, with the values that had to be combined. -/
structure Merged (K V : Type) where
  /-- The table that holds all entries. -/
  table : Table K V
  /-- The stored and the incoming value for each key met twice, in the order they were met. -/
  combined : Array (V × V)

/-- Insert one more entry into a merged table. -/
def Merged.insert (m : Merged K V) (hash : UInt64) (key : K) (value : V) (eq : K → K → Bool)
    (merge : V → V → V) : Except Error (Merged K V) := do
  let (stored, table) ← Halt.forget (m.table.insertWith hash key value eq merge)
  return ⟨table, match stored with
    | some stored => m.combined.push (stored, value)
    | none => m.combined⟩

/-- The table `t` with all entries of `other` inserted. `hasher` and `eq` are the key semantics
of `t`; for a key in both, the value becomes `merge stored incoming`. -/
def mergeWith (t other : Table K V) (hasher : K → UInt64) (eq : K → K → Bool)
    (merge : V → V → V) : Except Error (Merged K V) := do
  let grown ← Halt.forget (t.grow (min (t.size + other.size) maxCapacity))
  other.entriesByRow.foldlM
    (fun m (_, key, value) => m.insert (hasher key) key value eq merge) ⟨grown, #[]⟩

/-- Whether `other`, whose key semantics are `hasher` and `eq`, holds the key. -/
def holdsKey (other : Table K W) (hasher : K → UInt64) (eq : K → K → Bool) (key : K) : Bool :=
  (other.find? (hasher key) (eq key)).isSome

/-- A table of the given entries, whose keys are known to differ, under their stored hashes. -/
def ofRows (capacity : Nat) (kept : List (Row × K × V)) : Except Error (Table K V) := do
  kept.foldlM (fun t (row, key, value) => Halt.forget (t.pushNew row.hash key value))
    (← withCapacity capacity)

/-- The entries of `t` whose key is held by `other`, or with `found` false the others. `hasher`
and `eq` are the key semantics of `other`; several keys of `t` may match one key of it, so
there is room for every entry of `t` either way. -/
def select (t : Table K V) (other : Table K W) (hasher : K → UInt64) (eq : K → K → Bool)
    (found : Bool) : Except Error (Table K V) :=
  ofRows t.size (t.entriesByRow.filter fun (_, key, _) => other.holdsKey hasher eq key == found)

/-- Whether `other`, whose key semantics are `hasher` and `eq`, holds every key of `t`. -/
def isSubset (t : Table K V) (other : Table K W) (hasher : K → UInt64) (eq : K → K → Bool) :
    Bool :=
  t.entriesByRow.all fun (_, key, _) => other.holdsKey hasher eq key

/-- The table cut into at most `parts` tables along blocks of its rows. Blocks without entries
give no table, and there are never more blocks than entries. -/
def split (t : Table K V) (parts : Nat) : Except Error (List (Table K V)) :=
  match min (max parts 1) t.size with
  | 0 => .ok []
  | 1 => .ok [t]
  | parts =>
    let kept := (Index.blocks t.rows parts).map fun rows => entriesByRow { t with rows := rows }
    (kept.filter (!·.isEmpty)).mapM fun kept => ofRows kept.length kept

end Table

end RobinHood
