import RobinHood.Decimal.Fixed
import RobinHood.Histogram
import RobinHood.Table.Basic

/-!
# Occupancy of a table

How many entries, rows and tombstones a table has, and how far rows stand from home.
-/

namespace RobinHood

/-- Occupancy figures of a table. -/
structure Stats where
  /-- The number of entries. -/
  populated : Nat
  /-- How many entries there is room for. -/
  capacity : Nat
  /-- The number of rows. -/
  rowCount : Nat
  /-- The number of tombstones. -/
  tombstones : Nat
  /-- The largest distance of a live row from its home. -/
  maxDistance : Nat
  /-- Entries over capacity. -/
  loadFactor : Float
  /-- Entries and tombstones over rows. -/
  rowUtilization : Float
  /-- The bytes that rows and store take up. -/
  totalBytes : Nat

/-- The figures as a short report. -/
def Stats.text (s : Stats) : String :=
  "=== Hash Table Debug Statistics ===\n"
    ++ s!"Population: {s.populated}/{s.capacity} ({percent s.loadFactor}% load factor)\n"
    ++ s!"Row Usage: {s.populated}+{s.tombstones} tombstones/{s.rowCount} "
    ++ s!"({percent s.rowUtilization}% utilization)\n"
    ++ s!"Max probe distance: {s.maxDistance}\n"
    ++ s!"Total Allocated: {s.totalBytes} bytes\n"

namespace Table

variable {K V : Type}

/-- How far each live row stands from its home, in order of position. -/
def distances (t : Table K V) : List Nat :=
  t.rows.toList.zipIdx.filterMap fun (row, pos) =>
    if row.isLive then some (Index.distance t.rows.size row.hash pos) else none

/-- The histogram of distances from home. -/
def histogram (t : Table K V) : Histogram := Histogram.ofDistances t.distances

/-- The quotient of two counts. -/
def ratio (part whole : Nat) : Float := part.toUInt64.toFloat / whole.toUInt64.toFloat

/-- The bytes that one row takes up. -/
def rowBytes : Nat := 8

/-- The occupancy figures of a table whose entries take up `entryBytes` bytes each. -/
def stats (t : Table K V) (entryBytes : Nat) : Stats where
  populated := t.size
  capacity := t.capacity
  rowCount := t.rows.size
  tombstones := Index.tombstones t.rows
  maxDistance := t.histogram.maxDistance
  loadFactor := ratio t.size t.capacity
  rowUtilization := ratio (t.size + Index.tombstones t.rows) t.rows.size
  totalBytes := t.rows.size * rowBytes + t.capacity * entryBytes

end Table

end RobinHood
