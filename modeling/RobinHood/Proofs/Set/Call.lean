import RobinHood.Proofs.Map.Call
import RobinHood.Set.Basic

/-!
# Calls on sets

What a program can ask of a set, beside what the same calls do to a plain list of elements.
-/

namespace RobinHood

namespace DenseSet

variable {T : Type}

/-- A call on a set. -/
inductive Call (T : Type) where
  | insert (element : T)
  | remove (element : T)
  | take (element : T)
  | get (element : T)
  | contains (element : T)
  | size
  | reserve (additional : Nat)
  /-- Make the room that `extend` makes at the start. -/
  | expect (hint : Nat)
  | clear

/-- What a call answers. -/
inductive Answer (T : Type) where
  | done
  | refused (error : Error)
  | flag (b : Bool)
  | count (n : Nat)
  | element (stored : Option T)
deriving DecidableEq

/-- The answer of a set to a call, and the set after it. -/
def Call.run [WalkLimit] (s : DenseSet T) :
    Call T → Except (Halt (DenseSet T)) (Answer T × DenseSet T)
  | .insert element => do
    let r ← s.insert element
    return (.flag r.1, r.2)
  | .remove element => .ok (.flag (s.take element).1.isSome, (s.take element).2)
  | .take element => .ok (.element (s.take element).1, (s.take element).2)
  | .get element => .ok (.element (s.get? element), s)
  | .contains element => .ok (.flag (s.contains element), s)
  | .size => .ok (.count s.size, s)
  | .reserve additional =>
    match s.reserve additional with
    | .ok s => .ok (.done, s)
    | .error halt => .ok (.refused halt.error, halt.left)
  | .expect hint => do return (.done, ← s.reserve (min hint (maxCapacity - s.size)))
  | .clear => .ok (.done, s.clear)

/-- Where a search through a list finds an element. -/
def position? (keys : KeySemantics T) (elements : Array T) (element : T) : Option Nat :=
  elements.findIdx? (keys.eq element)

/-- The answer of a list of elements to a call, and the list after it. -/
def Call.onList (keys : KeySemantics T) (elements : Array T) : Call T → Answer T × Array T
  | .insert element =>
    match position? keys elements element with
    | some _ => (.flag false, elements)
    | none => (.flag true, elements.push element)
  | .remove element =>
    match position? keys elements element with
    | some i => (.flag true, Table.swapRemove elements i)
    | none => (.flag false, elements)
  | .take element =>
    match position? keys elements element with
    | some i => (.element elements[i]?, Table.swapRemove elements i)
    | none => (.element none, elements)
  | .get element =>
    (.element ((position? keys elements element).bind fun i ↦ elements[i]?), elements)
  | .contains element => (.flag (position? keys elements element).isSome, elements)
  | .size => (.count elements.size, elements)
  | .reserve additional =>
    ((refusal? elements.size additional).elim .done .refused, elements)
  | .expect _ => (.done, elements)
  | .clear => (.done, #[])

/-- The calls that extending a set amounts to. -/
def extendCalls (hint : Nat) (elements : List T) : List (Call T) :=
  .expect hint :: elements.map .insert

end DenseSet

end RobinHood
