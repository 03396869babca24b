import Mathlib.Data.Nat.ModEq
import RobinHood.Index.Basic

/-!
# Walking by a mask

Among a power of two of rows, taking positions modulo the number of rows is masking them with one
less. The mask serves for distances as well, which are differences of words: going back past the
first row then wraps around at 64 bits.
-/

namespace RobinHood

namespace Index

/-- The geometry of an index of `size` rows is that of masking positions with `mask`. -/
structure MaskedBy (size mask : Nat) : Prop where
  home_eq : ∀ hash, home size hash = hash.toNat &&& mask
  next_eq : ∀ pos, next size pos = (pos + 1) &&& mask
  distance_eq : ∀ hash, ∀ pos < size,
    distance size hash pos = ((pos.toUInt64 - hash.toUInt64) &&& mask.toUInt64).toNat

variable {k : Nat}

private theorem toNat_toUInt64 {n : Nat} (h : n < 2 ^ 64) : n.toUInt64.toNat = n := by
  rw [Nat.toUInt64, UInt64.toNat_ofNat', Nat.mod_eq_of_lt h]

private theorem toNat_and_mask (hk : k ≤ 64) (word : UInt64) :
    (word &&& (2 ^ k - 1).toUInt64).toNat = word.toNat % 2 ^ k := by
  have hle : 2 ^ k ≤ 2 ^ 64 := Nat.pow_le_pow_right (by decide) hk
  rw [UInt64.toNat_and, toNat_toUInt64 (by omega), Nat.and_two_pow_sub_one_eq_mod]

/-- A difference that wraps around at 64 bits is one modulo each smaller power of two. -/
private theorem toNat_sub_mod (hk : k ≤ 64) (hash : UInt32) {pos : Nat} (hpos : pos < 2 ^ k) :
    (pos.toUInt64 - hash.toUInt64).toNat % 2 ^ k = (pos + 2 ^ k - hash.toNat % 2 ^ k) % 2 ^ k := by
  have hle : 2 ^ k ≤ 2 ^ 64 := Nat.pow_le_pow_right (by decide) hk
  have hdvd : 2 ^ k ∣ 2 ^ 64 := Nat.pow_dvd_pow 2 hk
  have hhash : hash.toNat < 2 ^ 32 := hash.toNat_lt
  have hmod := Nat.mod_lt hash.toNat (Nat.two_pow_pos k)
  have hround : pos + 2 ^ 64 ≡ pos + 2 ^ k [MOD 2 ^ k] := by
    apply Nat.ModEq.add_left
    rw [Nat.ModEq, Nat.mod_eq_zero_of_dvd hdvd, Nat.mod_self]
  rw [UInt64.toNat_sub, toNat_toUInt64 (by omega), UInt32.toNat_toUInt64,
    Nat.mod_mod_of_dvd _ hdvd]
  -- Once the hash is added, both sides are the position and some rounds.
  apply Nat.ModEq.add_right_cancel' hash.toNat
  calc 2 ^ 64 - hash.toNat + pos + hash.toNat
    _ = pos + 2 ^ 64 := by omega
    _ ≡ pos + 2 ^ k [MOD 2 ^ k] := hround
    _ = pos + 2 ^ k - hash.toNat % 2 ^ k + hash.toNat % 2 ^ k := by omega
    _ ≡ pos + 2 ^ k - hash.toNat % 2 ^ k + hash.toNat [MOD 2 ^ k] :=
        Nat.ModEq.add_left _ (Nat.mod_modEq hash.toNat (2 ^ k))

/-- A power of two of rows is walked by the mask that is one less. -/
theorem maskedBy_two_pow (hk : k ≤ 64) : MaskedBy (2 ^ k) (2 ^ k - 1) where
  home_eq := by
    intro hash
    rw [home, Nat.and_two_pow_sub_one_eq_mod]
  next_eq := by
    intro pos
    rw [next, Nat.and_two_pow_sub_one_eq_mod]
  distance_eq := by
    intro hash pos hpos
    rw [toNat_and_mask hk, toNat_sub_mod hk hash hpos, distance, home]

end Index

end RobinHood
