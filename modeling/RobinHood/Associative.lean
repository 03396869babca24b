import RobinHood.Error

/-!
# Read-only views of maps

What every map representation offers to code that only reads. A representation with a single
owner cannot be turned into a persistent one in place, and says so.
-/

namespace RobinHood

/-- Maps `M` from keys `K` to values `V`, as far as reading goes. -/
class Associative (M : Type) (K V : outParam Type) where
  /-- The number of entries. -/
  size : M → Nat
  /-- Whether an entry is stored for the key. -/
  contains : M → K → Bool
  /-- The value stored for the key. -/
  get? : M → K → Option V
  /-- Whether the map has a single owner and is changed in place. -/
  isLinear : M → Bool
  /-- The same map in a persistent form. -/
  forked : M → Except Error M

namespace Associative

variable {M K V : Type} [Associative M K V]

/-- Whether there are no entries. -/
def isEmpty (m : M) : Bool := size m == 0

/-- The value stored for the key, or `fallback` where there is none. -/
def getD (m : M) (key : K) (fallback : V) : V := (get? m key).getD fallback

end Associative

end RobinHood
