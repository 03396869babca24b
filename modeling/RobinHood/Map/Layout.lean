import RobinHood.Map.Basic
import RobinHood.Text.Inspect
import RobinHood.Text.Layout

/-!
# The text of a map

A map is written as its entries, key before value, in order of storage.
-/

namespace RobinHood

namespace DenseMap

variable {K V : Type} [Inspect K] [Inspect V]

/-- The entries of a map in words. -/
def text (m : DenseMap K V) (style : Text.Style) : String :=
  style.map (m.entries.toList.map fun (key, value) =>
    (Inspect.inspect key, Inspect.inspect value))

end DenseMap

end RobinHood
