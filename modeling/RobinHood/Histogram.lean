import RobinHood.Error

/-!
# Histograms of probe distances

Bin `d` counts the live rows that stand `d` rows past their home. A histogram is drawn as one
bar for each bin, in eighths of a block: the largest bin has sixty full blocks and the others
are in proportion, rounded up, so that no bin but an empty one is left without a bar.
-/

namespace RobinHood

/-- How many rows there are at each distance. -/
structure Histogram where
  /-- The counts, by distance. -/
  bins : Array Nat
deriving DecidableEq, Repr

namespace Histogram

/-- One more row at distance `d`. Bins up to it are added as needed. -/
def tally (h : Histogram) (d : Nat) : Histogram :=
  ⟨(h.bins ++ Array.replicate (d + 1 - h.bins.size) 0).modify d (· + 1)⟩

/-- The histogram of the given distances. -/
def ofDistances (distances : List Nat) : Histogram := distances.foldl tally ⟨#[]⟩

/-- How many rows were counted, unless that is too many to be a count. -/
def total (h : Histogram) : Except Error Nat :=
  let sum := h.bins.foldl (· + ·) 0
  if sum ≤ maxCount then .ok sum else .error .countOverflow

/-- The largest distance of a counted row, zero if there is none. -/
def maxDistance (h : Histogram) : Nat := h.bins.size - 1

/-- The largest count. -/
def highest (h : Histogram) : Nat := h.bins.foldl max 0

/-- The length of the longest bar, in eighths of a block. -/
def fullBar : Nat := 480

/-- The length of the bar for `count` where `highest` is the largest count, in eighths of a
block, rounded up. -/
def barEighths (count highest : Nat) : Nat := (count * fullBar + (highest - 1)) / highest

/-- The block that fills the given number of eighths; nothing for none. -/
def partialBlock : Nat → List Char
  | 1 => ['▏']
  | 2 => ['▎']
  | 3 => ['▍']
  | 4 => ['▌']
  | 5 => ['▋']
  | 6 => ['▊']
  | 7 => ['▉']
  | _ => []

/-- A bar of the given number of eighths: full blocks, then the rest as one partial block. -/
def bar (eighths : Nat) : List Char :=
  List.replicate (eighths / 8) '█' ++ partialBlock (eighths % 8)

/-- The line for the bin at distance `d`. -/
def line (highest d count : Nat) : String :=
  String.ofList ((Nat.toDigits 10 d).leftpad 3 ' ') ++ " | "
    ++ String.ofList (bar (barEighths count highest)) ++ s!" ({count})\n"

/-- The histogram drawn as a chart of horizontal bars, one line for each bin. -/
def text (h : Histogram) : Except Error String :=
  let highest := h.highest
  if highest = 0 then .ok "probe histogram: empty\n"
  else do
    let total ← h.total
    return String.join (s!"probe histogram ({total} entries):\n"
      :: h.bins.toList.zipIdx.map fun (count, d) => line highest d count)

end Histogram

end RobinHood
