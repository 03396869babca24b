/-!
# The FNV-1a hash

FNV-1a takes in one byte at a time: the byte is mixed into the low bits, and the state is
multiplied by a fixed prime modulo 2^64.
-/

namespace RobinHood

/-- Values that a hash takes in as a sequence of bytes. -/
class HashBytes (α : Type) where
  /-- The bytes of a value. -/
  bytes : α → List UInt8

/-- A number is its eight bytes, the lowest first. -/
instance : HashBytes UInt64 :=
  ⟨fun n => (List.range 8).map fun i => (n >>> (8 * i).toUInt64).toUInt8⟩

/-- A text is its UTF-8 bytes and a closing byte that no text contains. -/
instance : HashBytes String := ⟨fun s => s.toUTF8.toList ++ [0xff]⟩

namespace Fnv

/-- The state before the first byte. -/
def offsetBasis : UInt64 := 0xcbf29ce484222325

/-- The multiplier. -/
def prime : UInt64 := 0x100000001b3

/-- The state after one more byte. -/
def absorb (state : UInt64) (byte : UInt8) : UInt64 := (state ^^^ byte.toUInt64) * prime

/-- The hash of a sequence of bytes. -/
def hashBytes (bytes : List UInt8) : UInt64 := bytes.foldl absorb offsetBasis

/-- The hash of a value. -/
def hash {α : Type} [HashBytes α] (a : α) : UInt64 := hashBytes (HashBytes.bytes a)

end Fnv

end RobinHood
