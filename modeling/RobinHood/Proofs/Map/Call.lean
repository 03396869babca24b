import RobinHood.Map.Basic
import RobinHood.Proofs.Simulation
import RobinHood.Proofs.Table.Store

/-!
# Calls on maps

What a program can ask of a map, call by call, beside what the same calls do to a plain list of
entries. A reservation that is refused counts as answered, with the map that it leaves. Other calls
that are refused end the program.
-/

namespace RobinHood

open Table

variable {K V : Type}

namespace DenseMap

/-- A call on a map. -/
inductive Call (K V : Type) where
  | insert (key : K) (value : V)
  | insertWith (key : K) (value : V) (merge : V → V → V)
  | put (key : K) (value : V)
  | update (key : K) (f : Option V → V)
  | modify (key : K) (f : V → V)
  | take (key : K)
  | erase (key : K)
  | get (key : K)
  | getEntry (key : K)
  | contains (key : K)
  | size
  | reserve (additional : Nat)
  /-- Make the room that `extend` makes at the start. -/
  | expect (hint : Nat)
  | clear

/-- What a call answers. -/
inductive Answer (K V : Type) where
  | done
  | refused (error : Error)
  | flag (b : Bool)
  | count (n : Nat)
  | value (stored : Option V)
  | entry (stored : Option (K × V))
deriving DecidableEq

/-- The answer of a map to a call, and the map after it. -/
def Call.run [WalkLimit] (m : DenseMap K V) :
    Call K V → Except (Halt (DenseMap K V)) (Answer K V × DenseMap K V)
  | .insert key value => do
    let r ← m.insert key value
    return (.value r.1, r.2)
  | .insertWith key value merge => do
    let r ← m.insertWith key value merge
    return (.value r.1, r.2)
  | .put key value => do return (.done, ← m.put key value)
  | .update key f => do
    let r ← m.update key f
    return (.value r.1, r.2)
  | .modify key f => .ok (.value (m.modify key f).1, (m.modify key f).2)
  | .take key => .ok (.entry (m.take key).1, (m.take key).2)
  | .erase key => .ok (.done, m.erase key)
  | .get key => .ok (.value (m.get? key), m)
  | .getEntry key => .ok (.entry (m.getEntry? key), m)
  | .contains key => .ok (.flag (m.contains key), m)
  | .size => .ok (.count m.size, m)
  | .reserve additional =>
    match m.reserve additional with
    | .ok m => .ok (.done, m)
    | .error halt => .ok (.refused halt.error, halt.left)
  | .expect hint => do return (.done, ← m.reserve (min hint (maxCapacity - m.size)))
  | .clear => .ok (.done, m.clear)

/-- The answer of a list of entries to a call, and the list after it. -/
def Call.onList (keys : KeySemantics K) (entries : Array (K × V)) :
    Call K V → Answer K V × Array (K × V)
  | .insert key value =>
    let r := EntryList.insertWith keys entries key value fun _ new ↦ new
    (.value r.1, r.2)
  | .insertWith key value merge =>
    let r := EntryList.insertWith keys entries key value merge
    (.value r.1, r.2)
  | .put key value => (.done, (EntryList.insertWith keys entries key value fun _ new ↦ new).2)
  | .update key f =>
    let r := EntryList.insertWith keys entries key (f none) fun stored _ ↦ f (some stored)
    (.value r.1, r.2)
  | .modify key f =>
    let r := EntryList.modify keys entries key f
    (.value r.1, r.2)
  | .take key =>
    let r := EntryList.take keys entries key
    (.entry r.1, r.2)
  | .erase key => (.done, (EntryList.take keys entries key).2)
  | .get key => (.value (value? keys entries key), entries)
  | .getEntry key =>
    (.entry ((position? keys entries key).bind fun entry ↦ entries[entry]?), entries)
  | .contains key => (.flag (position? keys entries key).isSome, entries)
  | .size => (.count entries.size, entries)
  | .reserve additional => ((refusal? entries.size additional).elim .done .refused, entries)
  | .expect _ => (.done, entries)
  | .clear => (.done, #[])

/-- The calls that extending a map amounts to. -/
def extendCalls (hint : Nat) (pairs : List (K × V)) : List (Call K V) :=
  .expect hint :: pairs.map fun pair ↦ .put pair.1 pair.2

end DenseMap

end RobinHood
