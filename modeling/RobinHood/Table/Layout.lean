import RobinHood.Table.Basic
import RobinHood.Text.Inspect
import RobinHood.Text.Layout

/-!
# The layout of a table in words

A table is written with its two counts and all its rows, position by position. Keys and values
do not appear: the text shows how the index is laid out and nothing else.
-/

namespace RobinHood

namespace Table

variable {K V : Type}

/-- The counts and rows of a table. -/
def layout (t : Table K V) (style : Text.Style) : String :=
  style.record "HashTable" [
    ("populated", Inspect.inspect t.size),
    ("capacity", Inspect.inspect t.capacity),
    ("rows", style.list (t.rows.toList.map Row.text))]

end Table

end RobinHood
