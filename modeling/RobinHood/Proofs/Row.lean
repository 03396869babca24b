import Mathlib.Algebra.Ring.Nat
import Mathlib.Logic.ExistsUnique
import RobinHood.Error
import RobinHood.Row

/-!
# The fields of a row

The three fields of a row lie side by side in its word and fill it, so they can be read and changed
without regard to each other, and together they determine the row. A row is told to be empty, a
tombstone or live by a test for each; the tests exclude each other as long as no row without a hash
is marked as a tombstone. Tables write rows of a few forms only, and of these that is so.
-/

namespace RobinHood

namespace Row

/-- The kinds of rows. -/
inductive Kind where
  /-- Nothing was ever stored in the row. -/
  | empty
  /-- The row of a removed key. -/
  | tombstone
  /-- The row stands for an entry. -/
  | live
deriving DecidableEq, Repr

/-- The kind of a row. A row without a hash is empty, whatever its other bits. -/
def kind (r : Row) : Kind :=
  if r.isEmpty then .empty else if r.isTombstone then .tombstone else .live

/-- Whether a row passes the test by which operations tell rows of a kind. -/
def passes (r : Row) : Kind → Bool
  | .empty => r.isEmpty
  | .tombstone => r.isTombstone
  | .live => r.isLive

/-- What is read off a row: its hash, its entry position, and the one kind whose test it passes. -/
structure Reads (r : Row) (hash : UInt32) (entry : Nat) (kind : Kind) : Prop where
  hash_eq : r.hash = hash
  entry_eq : r.entry = entry
  passes_iff : ∀ other, r.passes other = true ↔ other = kind

variable {r r' : Row} {hash : UInt32} {entry : Nat}

/-! ### The word of a row -/

private theorem toNat_hash (r : Row) : r.hash.toNat = r.word.toNat % 2 ^ 32 :=
  UInt64.toNat_toUInt32 r.word

private theorem entry_eq_div_mod (r : Row) : r.entry = r.word.toNat / 2 ^ 32 % 2 ^ 31 := by
  unfold entry
  rw [toNat_and_entryMask, UInt64.toNat_shiftRight, Nat.shiftRight_eq_div_pow]
  rfl

private theorem toNat_isTombstone (r : Row) : r.isTombstone.toNat = r.word.toNat / 2 ^ 63 := by
  have hlt := r.word.toNat_lt
  have hbit : r.word.toBitVec[63] = r.word.toNat.testBit 63 := rfl
  rw [isTombstone_eq, hbit, Nat.toNat_testBit]
  omega

/-- The word of a row is its fields side by side: 32 bits of hash, 31 bits of entry position and the
tombstone flag. -/
theorem word_toNat (r : Row) :
    r.word.toNat = r.hash.toNat + 2 ^ 32 * r.entry + 2 ^ 63 * r.isTombstone.toNat := by
  have hlt := r.word.toNat_lt
  rw [toNat_hash, entry_eq_div_mod, toNat_isTombstone]
  omega

/-- The three fields determine a row. -/
theorem ext_fields (hh : r.hash = r'.hash) (he : r.entry = r'.entry)
    (ht : r.isTombstone = r'.isTombstone) : r = r' := by
  have hword : r.word = r'.word := by
    apply UInt64.toNat_inj.mp
    rw [word_toNat, word_toNat, hh, he, ht]
  cases r
  cases r'
  exact congrArg Row.mk hword

/-! ### Kinds of rows -/

theorem kind_of_isEmpty (h : r.isEmpty = true) : r.kind = .empty := by
  rw [kind, if_pos h]

theorem kind_of_isTombstone (he : r.isEmpty = false) (ht : r.isTombstone = true) :
    r.kind = .tombstone := by
  rw [kind, if_neg (by simp [he]), if_pos ht]

theorem kind_of_isLive (h : r.isLive = true) : r.kind = .live := by
  obtain ⟨he, ht⟩ := isLive_iff.mp h
  rw [kind, if_neg (by simp [he]), if_neg (by simp [ht])]

/-- A row that is marked as a tombstone only with a hash passes the test for its kind and no other
one. -/
theorem passes_iff_eq_kind (h : r.isTombstone = true → r.hash ≠ 0) (other : Kind) :
    r.passes other = true ↔ other = r.kind := by
  cases he : r.isEmpty with
  | true =>
    have ht : r.isTombstone = false := by
      rw [← Bool.not_eq_true]
      intro ht
      rw [isEmpty_eq_false_iff.mpr (h ht)] at he
      cases he
    rw [kind_of_isEmpty he]
    cases other <;> simp [passes, isLive, he, ht]
  | false =>
    cases ht : r.isTombstone with
    | true =>
      rw [kind_of_isTombstone he ht]
      cases other <;> simp [passes, isLive, he, ht]
    | false =>
      rw [kind_of_isLive (isLive_iff.mpr ⟨he, ht⟩)]
      cases other <;> simp [passes, isLive, he, ht]

/-- A row passes exactly one of the three tests exactly if it is marked as a tombstone only with a
hash. -/
theorem existsUnique_passes_iff :
    (∃! kind, r.passes kind = true) ↔ (r.isTombstone = true → r.hash ≠ 0) := by
  constructor
  · rintro ⟨kind, -, hunique⟩ ht hz
    have hempty : r.isEmpty = true := beq_iff_eq.mpr hz
    have heq := (hunique .empty hempty).trans (hunique .tombstone ht).symm
    cases heq
  · intro h
    exact ⟨r.kind, (passes_iff_eq_kind h _).mpr rfl, fun other ↦ (passes_iff_eq_kind h other).mp⟩

/-! ### What is read off packed rows -/

theorem reads_live (hne : hash ≠ 0) (he : entry < entryBound) :
    (live hash entry).Reads hash entry .live where
  hash_eq := hash_live hash entry
  entry_eq := entry_live hash he
  passes_iff := by
    rw [← kind_of_isLive (isLive_live hne entry)]
    apply passes_iff_eq_kind
    rw [hash_live]
    exact fun _ ↦ hne

/-- A tombstone reads as the row in whose place it was left, but for its kind. -/
theorem reads_toTombstone (hne : r.hash ≠ 0) :
    r.toTombstone.Reads r.hash r.entry .tombstone where
  hash_eq := r.hash_toTombstone
  entry_eq := r.entry_toTombstone
  passes_iff := by
    have hne' : r.toTombstone.hash ≠ 0 := by rwa [hash_toTombstone]
    rw [← kind_of_isTombstone (isEmpty_eq_false_iff.mpr hne') r.isTombstone_toTombstone]
    exact passes_iff_eq_kind fun _ ↦ hne'

theorem reads_withEntry (hl : r.isLive = true) (he : entry < entryBound) :
    (r.withEntry entry).Reads r.hash entry .live :=
  reads_live (hash_ne_of_isLive hl) he

/-! ### The rows that are written -/

/-- The rows that tables write: the empty row, rows of keys, and the tombstones left in their place.
The entry positions are those that a store can have. -/
inductive Written : Row → Prop
  | empty : Written empty
  | live {hash : UInt32} {entry : Nat} :
      hash ≠ 0 → entry < maxCapacity → Written (live hash entry)
  | toTombstone {hash : UInt32} {entry : Nat} :
      hash ≠ 0 → entry < maxCapacity → Written (live hash entry).toTombstone

private theorem entry_live_of_lt (he : entry < maxCapacity) : (live hash entry).entry = entry :=
  entry_live hash (Nat.lt_trans he (by decide))

/-- Without a hash only the row of all zeros is written; with a hash, each row whose position a
store can have. -/
theorem written_iff : r.Written ↔ r = empty ∨ r.hash ≠ 0 ∧ r.entry < maxCapacity := by
  constructor
  · intro h
    cases h with
    | empty => exact .inl rfl
    | live hne he => exact .inr ⟨by rwa [hash_live], by rwa [entry_live_of_lt he]⟩
    | toTombstone hne he =>
      rw [hash_toTombstone, entry_toTombstone, hash_live, entry_live_of_lt he]
      exact .inr ⟨hne, he⟩
  · rintro (rfl | ⟨hne, he⟩)
    · exact .empty
    · cases ht : r.isTombstone with
      | false =>
        rw [← live_hash_entry ht]
        exact .live hne he
      | true =>
        have heq : (Row.live r.hash r.entry).toTombstone = r := by
          apply ext_fields
          · rw [hash_toTombstone, hash_live]
          · rw [entry_toTombstone, entry_live_of_lt he]
          · rw [isTombstone_toTombstone, ht]
        rw [← heq]
        exact .toTombstone hne he

instance : Decidable r.Written := decidable_of_iff _ written_iff.symm

namespace Written

/-- A row with a hash has the position of an entry. -/
theorem entry_lt (h : r.Written) (hne : r.hash ≠ 0) : r.entry < maxCapacity := by
  rcases written_iff.mp h with rfl | ⟨-, he⟩
  · exact absurd rfl hne
  · exact he

/-- Only rows with a hash are marked as tombstones. -/
theorem hash_ne (h : r.Written) (ht : r.isTombstone = true) : r.hash ≠ 0 := by
  rcases written_iff.mp h with rfl | ⟨hne, -⟩
  · cases ht
  · exact hne

/-- The row of a key may be placed again. -/
theorem again (h : r.Written) (hne : r.hash ≠ 0) : (Row.live r.hash r.entry).Written :=
  .live hne (h.entry_lt hne)

/-- The row of a key may be marked as removed. -/
theorem entomb (h : r.Written) (hne : r.hash ≠ 0) : r.toTombstone.Written := by
  rw [written_iff, hash_toTombstone, entry_toTombstone]
  exact .inr ⟨hne, h.entry_lt hne⟩

end Written

end Row

end RobinHood
