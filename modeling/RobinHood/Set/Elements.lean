import RobinHood.Cursor
import RobinHood.Error
import RobinHood.Text.Inspect
import RobinHood.Text.Layout

/-!
# Views of the elements of a set

A view is a contiguous run of the elements of a set, in order of storage. It gives access by
position and can be divided, so that parts of one set can be read side by side.
-/

namespace RobinHood

/-- A run of the elements of a set. -/
structure Elements (T : Type) where
  /-- The elements seen, in order. -/
  items : Array T

namespace Elements

variable {T : Type}

/-- The number of elements in the view. -/
def size (e : Elements T) : Nat := e.items.size

/-- Whether the view holds no elements. -/
def isEmpty (e : Elements T) : Bool := e.items.isEmpty

/-- The element at a position. -/
def get? (e : Elements T) (pos : Nat) : Option T := e.items[pos]?

/-- A cursor over the view. -/
def iter (e : Elements T) : Cursor T := .ofArray e.items

/-- The first `mid` elements and the others. A view cannot be divided past its end. -/
def splitAt (e : Elements T) (mid : Nat) : Except Error (Elements T × Elements T) :=
  if e.size < mid then .error .splitPastEnd
  else .ok (⟨e.items.extract 0 mid⟩, ⟨e.items.extract mid e.size⟩)

/-- The elements in words. -/
def text [Inspect T] (e : Elements T) (style : Text.Style) : String :=
  style.list (e.items.toList.map Inspect.inspect)

end Elements

end RobinHood
