/-!
# Rows of the index

A row packs three fields into one 64-bit word: bits 0 to 31 hold the scrambled hash of a key,
bits 32 to 62 the position of its entry in the store, and bit 63 the tombstone flag. A zero
hash marks an empty row. A tombstone keeps the hash and entry of the row that it replaced, so
that walks passing over it still know how far from home that row stood.
-/

namespace RobinHood

/-- One packed row. -/
structure Row where
  /-- The packed fields. -/
  word : UInt64
deriving DecidableEq, Repr

namespace Row

/-- The bits of the word that hold the entry position, moved down to bit 0. -/
def entryMask : UInt64 := 0x7fffffff

/-- Positions below this one fit into a row. -/
def entryBound : Nat := 0x80000000

/-- The bit that marks a tombstone. -/
def tombstoneBit : UInt64 := 0x8000000000000000

/-- The row that holds nothing. -/
def empty : Row := ⟨0⟩

/-- The row of a key with the given scrambled hash, stored at position `entry`. -/
def live (hash : UInt32) (entry : Nat) : Row :=
  ⟨hash.toUInt64 ||| ((entry.toUInt64 &&& entryMask) <<< 32)⟩

/-- The scrambled hash. -/
def hash (r : Row) : UInt32 := r.word.toUInt32

/-- The position of the entry in the store. -/
def entry (r : Row) : Nat := ((r.word >>> 32) &&& entryMask).toNat

/-- A row without a hash holds nothing. -/
def isEmpty (r : Row) : Bool := r.hash == 0

/-- Whether the row's key was removed. -/
def isTombstone (r : Row) : Bool := (r.word &&& tombstoneBit) != 0

/-- Whether the row stands for an entry: neither empty nor a tombstone. -/
def isLive (r : Row) : Bool := !r.isEmpty && !r.isTombstone

/-- The tombstone left where the row stood. -/
def toTombstone (r : Row) : Row := ⟨r.word ||| tombstoneBit⟩

/-- The live row of the same hash for an entry that has moved to `entry`. -/
def withEntry (r : Row) (entry : Nat) : Row := live r.hash entry

/-- The hash of a row as eight hexadecimal digits. -/
def hexHash (r : Row) : String :=
  String.ofList ((Nat.toDigits 16 r.hash.toNat).leftpad 8 '0')

/-- A row in words: its hash and entry, `x` for the entry of a tombstone, dots for nothing. -/
def text (r : Row) : String :=
  if r.isEmpty then "........"
  else if r.isTombstone then r.hexHash ++ "@x"
  else r.hexHash ++ "@" ++ toString r.entry

private theorem getElem_entryMask {i : Nat} (hi : i < 64) :
    entryMask.toBitVec[i] = decide (i < 31) := by
  have : entryMask.toBitVec = BitVec.ofNat 64 (2 ^ 31 - 1) := rfl
  rw [this, ← BitVec.getLsbD_eq_getElem, BitVec.getLsbD_ofNat, Nat.testBit_two_pow_sub_one]
  simp [hi]

private theorem getElem_tombstoneBit {i : Nat} (hi : i < 64) :
    tombstoneBit.toBitVec[i] = decide (i = 63) := by
  have : tombstoneBit.toBitVec = BitVec.ofNat 64 (2 ^ 63) := rfl
  rw [this, ← BitVec.getLsbD_eq_getElem, BitVec.getLsbD_ofNat, Nat.testBit_two_pow]
  simp [hi, eq_comm]

private theorem getElem_lowHalf (w : UInt64) {i : Nat} (hi : i < 64) :
    w.toUInt32.toUInt64.toBitVec[i] = (decide (i < 32) && w.toBitVec[i]) := by
  rw [UInt32.toBitVec_toUInt64, UInt64.toBitVec_toUInt32, BitVec.getElem_setWidth,
    BitVec.getLsbD_setWidth, BitVec.getLsbD_eq_getElem hi]

private theorem getElem_highHalf (w : UInt64) {i : Nat} (hi : i < 64) :
    (((w >>> 32) &&& entryMask &&& entryMask) <<< 32).toBitVec[i] =
      (decide (32 ≤ i ∧ i < 63) && w.toBitVec[i]) := by
  rw [UInt64.toBitVec_shiftLeft, show (32 : UInt64).toBitVec % 64 = 32#64 from rfl,
    BitVec.shiftLeft_eq', BitVec.getElem_shiftLeft]
  by_cases h32 : i < 32
  · simp [h32, show ¬ 32 ≤ i by omega]
  · have hm := getElem_entryMask (i := i - 32) (by omega)
    by_cases h63 : i < 63
    · simp [h32, h63, hm, show 32 + (i - 32) = i by omega, show i - 32 < 31 by omega,
        show 32 ≤ i by omega, BitVec.getLsbD_eq_getElem hi]
    · simp [h32, h63, hm, show ¬ i - 32 < 31 by omega]

/-- Masking keeps what of a number fits into a row. -/
theorem toNat_and_entryMask (w : UInt64) : (w &&& entryMask).toNat = w.toNat % entryBound := by
  rw [UInt64.toNat_and]
  exact Nat.and_two_pow_sub_one_eq_mod w.toNat 31

private theorem entry_word (h : UInt32) (e : UInt64) :
    ((h.toUInt64 ||| ((e &&& entryMask) <<< 32)) >>> 32) &&& entryMask = e &&& entryMask := by
  apply UInt64.toBitVec_inj.1
  apply BitVec.eq_of_getElem_eq
  intro i hi
  have := getElem_entryMask hi
  by_cases h31 : i < 31
  · simp [h31, this, show 32 + i < 64 by omega]
  · simp [h31, this]

/-- A packed hash is read back. -/
theorem hash_live (hash : UInt32) (entry : Nat) : (live hash entry).hash = hash := by
  apply UInt32.toBitVec_inj.1
  apply BitVec.eq_of_getLsbD_eq
  intro i hi
  simp [live, Row.hash, hi, entryMask]

/-- A packed entry position is read back if it fits. -/
theorem entry_live (hash : UInt32) {entry : Nat} (h : entry < entryBound) :
    (live hash entry).entry = entry := by
  unfold live Row.entry
  rw [entry_word, toNat_and_entryMask]
  unfold entryBound at *
  simp
  omega

/-- The tombstone flag is the top bit. -/
theorem isTombstone_eq (r : Row) : r.isTombstone = r.word.toBitVec[63] := by
  unfold isTombstone
  have : r.word &&& tombstoneBit = if r.word.toBitVec[63] then tombstoneBit else 0 := by
    apply UInt64.toBitVec_inj.1
    apply BitVec.eq_of_getElem_eq
    intro i hi
    have := getElem_tombstoneBit hi
    by_cases h : i = 63
    · subst h
      split <;> simp_all
    · split <;> simp_all
  rw [this]
  split <;> simp_all [tombstoneBit]

/-- A fresh row is no tombstone. -/
theorem isTombstone_live (hash : UInt32) (entry : Nat) :
    (live hash entry).isTombstone = false := by
  rw [isTombstone_eq]
  have := getElem_entryMask (i := 31) (by decide)
  simp [live, this]

/-- Entombing marks a row as removed. -/
theorem isTombstone_toTombstone (r : Row) : r.toTombstone.isTombstone = true := by
  rw [isTombstone_eq]
  have := getElem_tombstoneBit (i := 63) (by decide)
  simp [toTombstone, this]

/-- A tombstone keeps the hash. -/
theorem hash_toTombstone (r : Row) : r.toTombstone.hash = r.hash := by
  simp [toTombstone, Row.hash, UInt64.toUInt32_or, show tombstoneBit.toUInt32 = 0 from rfl]

/-- A tombstone keeps the entry position. -/
theorem entry_toTombstone (r : Row) : r.toTombstone.entry = r.entry := by
  unfold Row.entry toTombstone
  congr 1
  apply UInt64.toBitVec_inj.1
  apply BitVec.eq_of_getElem_eq
  intro i hi
  have := getElem_entryMask hi
  by_cases h31 : i < 31
  · have h2 := getElem_tombstoneBit (i := 32 + i) (by omega)
    rw [show decide (32 + i = 63) = false from decide_eq_false (by omega)] at h2
    simp [h31, this, show 32 + i < 64 by omega, h2]
  · simp [h31, this]

/-- A fresh row under the hash of a key stands for an entry. -/
theorem isLive_live {hash : UInt32} (h : hash ≠ 0) (entry : Nat) :
    (live hash entry).isLive = true := by
  simp [isLive, isEmpty, hash_live, isTombstone_live, h]

/-- A fresh row under the hash of a key is not empty. -/
theorem isEmpty_live {hash : UInt32} (h : hash ≠ 0) (entry : Nat) :
    (live hash entry).isEmpty = false := by
  simp [isEmpty, hash_live, h]

/-- A row stands for an entry exactly if it is neither empty nor a tombstone. -/
theorem isLive_iff {r : Row} :
    r.isLive = true ↔ r.isEmpty = false ∧ r.isTombstone = false := by
  simp [isLive]

/-- An empty row stands for no entry. -/
theorem isLive_of_isEmpty {r : Row} (h : r.isEmpty = true) : r.isLive = false := by
  simp [isLive, h]

/-- A row marked as removed stands for no entry. -/
theorem isLive_of_isTombstone {r : Row} (h : r.isTombstone = true) : r.isLive = false := by
  simp [isLive, h]

/-- Only empty rows have the hash zero. -/
theorem isEmpty_eq_false_iff {r : Row} : r.isEmpty = false ↔ r.hash ≠ 0 := by
  simp [isEmpty]

/-- The row of an entry has the hash of a key. -/
theorem hash_ne_of_isLive {r : Row} (h : r.isLive = true) : r.hash ≠ 0 :=
  isEmpty_eq_false_iff.mp (isLive_iff.mp h).1

/-- What a row holds fits into a row. -/
theorem entry_lt (r : Row) : r.entry < entryBound := by
  unfold Row.entry
  rw [toNat_and_entryMask]
  exact Nat.mod_lt _ (by decide)

/-- A row that is no tombstone is its hash and entry position and nothing else. -/
theorem live_hash_entry {r : Row} (h : r.isTombstone = false) : live r.hash r.entry = r := by
  rw [isTombstone_eq] at h
  obtain ⟨word⟩ := r
  unfold live Row.entry Row.hash
  rw [Nat.toUInt64, UInt64.ofNat_toNat]
  congr 1
  apply UInt64.toBitVec_inj.1
  apply BitVec.eq_of_getElem_eq
  intro i hi
  rw [UInt64.toBitVec_or, BitVec.getElem_or, getElem_lowHalf word hi, getElem_highHalf word hi]
  by_cases h63 : i < 63
  · by_cases h32 : i < 32
    · simp [h32, show ¬ 32 ≤ i by omega]
    · simp [h32, h63, show 32 ≤ i by omega]
  · obtain rfl : i = 63 := by omega
    simp [h]

/-- A tombstone stands for no entry. -/
theorem isLive_toTombstone (r : Row) : r.toTombstone.isLive = false :=
  isLive_of_isTombstone (isTombstone_toTombstone r)

/-- The empty row stands for no entry. -/
theorem isLive_empty : empty.isLive = false := rfl

end Row

end RobinHood
