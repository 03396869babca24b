import RobinHood.Table.Basic

/-!
# Room for more entries

A table that runs out of room doubles its capacity. When more rows are needed, every live row
is placed again in a blank index, in the order of the old one, and tombstones are left behind;
the store is untouched. A table that cannot be given more room stays as it is.
-/

namespace RobinHood

namespace Table

variable {K V : Type} [WalkLimit]

/-- A blank index of `size` rows after placing the given rows one by one, each from its home. -/
def rebuild? (size : Nat) (live : List Row) : Option Index :=
  live.foldlM (fun rows row => Index.placeHome? rows row.hash row.entry) (Index.blank size)

/-- The table with room for `capacity` entries. Asking for less than there is changes nothing. -/
def grow (t : Table K V) (capacity : Nat) : Except (Halt (Table K V)) (Table K V) :=
  if maxCapacity < capacity then .error ⟨.capacityExceeded capacity maxCapacity, t⟩
  else if capacity ≤ t.capacity then .ok t
  else if rowCount capacity = t.rows.size then .ok { t with capacity := capacity }
  else
    match rebuild? (rowCount capacity) (Index.liveRows t.rows) with
    | some rows => .ok ⟨rows, t.entries, capacity, rowCount capacity - 1⟩
    | none => .error ⟨.noFreeRow, t⟩

/-- The table with room for `additional` more entries. -/
def reserve (t : Table K V) (additional : Nat) : Except (Halt (Table K V)) (Table K V) :=
  let needed := min (t.size + additional) maxCount
  if needed ≤ t.capacity then .ok t
  else if maxCapacity < needed then .error ⟨.capacityExceeded needed maxCapacity, t⟩
  else t.grow (min (max needed (t.capacity * 2)) maxCapacity)

/-- The table with room for one more entry; a full table doubles its capacity. -/
def reserveOne (t : Table K V) : Except (Halt (Table K V)) (Table K V) :=
  if t.size < t.capacity then .ok t
  else if maxCapacity ≤ t.capacity then
    .error ⟨.capacityExceeded (t.capacity + 1) maxCapacity, t⟩
  else t.grow (min (t.capacity * 2) maxCapacity)

end Table

end RobinHood
