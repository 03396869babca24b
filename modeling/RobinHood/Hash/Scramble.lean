/-!
# Folding hashes to 32 bits

A row keeps 32 bits of a key's hash. Poor hash functions leave the low bits, which choose the
home row, badly distributed, so the high bits are folded into them twice. Zero marks an
empty row and is therefore never the hash of a key.
-/

namespace RobinHood

/-- The 32 bits that a row stores for a key of the given hash; never zero. -/
def scramble (hash : UInt64) : UInt32 :=
  let folded := (hash ^^^ (hash >>> 32)).toUInt32
  let mixed := folded ^^^ (folded >>> 20) ^^^ (folded >>> 12)
  let mixed := mixed ^^^ (mixed >>> 7) ^^^ (mixed >>> 4)
  if mixed = 0 then 1 else mixed

/-- No key is stored under the hash that marks an empty row. -/
theorem scramble_ne_zero (hash : UInt64) : scramble hash ≠ 0 := by
  unfold scramble
  dsimp only
  split
  · decide
  · assumption

end RobinHood
