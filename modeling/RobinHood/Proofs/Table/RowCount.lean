import RobinHood.Proofs.Index.Mask
import RobinHood.Table.Basic

/-!
# How many rows a capacity takes

The number of rows is the least power of two that has at most nineteen rows in twenty in use when
the table is full. Below the ceiling it is far from what a hash or a position can hold.
-/

namespace RobinHood

namespace Table

/-- The number of rows is a power of two. -/
theorem exists_rowCount_eq_two_pow (capacity : Nat) : ∃ k, rowCount capacity = 2 ^ k :=
  ⟨_, Nat.one_shiftLeft _⟩

/-- The powers of two that are enough rows are those that leave one row in twenty free. -/
theorem rowCount_le_two_pow_iff {capacity k : Nat} :
    rowCount capacity ≤ 2 ^ k ↔ 20 * capacity ≤ 19 * 2 ^ k := by
  unfold rowCount
  rw [Nat.one_shiftLeft, Nat.pow_le_pow_iff_right (by decide)]
  by_cases hzero : capacity = 0
  · simp [hzero]
  · generalize hj : Nat.log2 (2 * ((capacity * 20 + 18) / 19) - 1) = j
    rw [Nat.log2_eq_iff (by omega), Nat.pow_succ] at hj
    constructor
    · intro hle
      have hpow : 2 ^ j ≤ 2 ^ k := Nat.pow_le_pow_right (by decide) hle
      omega
    · intro hload
      have hpow : 2 ^ j < 2 ^ (k + 1) := by
        rw [Nat.pow_succ]
        omega
      exact Nat.le_of_lt_succ ((Nat.pow_lt_pow_iff_right (by decide)).mp hpow)

/-- A full table leaves one row in twenty free. -/
theorem twenty_mul_le (capacity : Nat) : 20 * capacity ≤ 19 * rowCount capacity := by
  obtain ⟨k, hk⟩ := exists_rowCount_eq_two_pow capacity
  rw [hk]
  apply rowCount_le_two_pow_iff.mp
  rw [hk]

/-- The table of the highest capacity has 2 ^ 30 rows, and no table has more. -/
theorem rowCount_le {capacity : Nat} (h : capacity ≤ maxCapacity) :
    rowCount capacity ≤ 2 ^ 30 := by
  apply rowCount_le_two_pow_iff.mpr
  unfold maxCapacity at h
  omega

/-- The rows of a table are walked by masking positions. -/
theorem maskedBy_rowCount {capacity : Nat} (h : capacity ≤ maxCapacity) :
    Index.MaskedBy (rowCount capacity) (rowCount capacity - 1) := by
  have hle := rowCount_le h
  obtain ⟨k, hk⟩ := exists_rowCount_eq_two_pow capacity
  rw [hk] at hle ⊢
  apply Index.maskedBy_two_pow
  have hk30 := (Nat.pow_le_pow_iff_right (by decide)).mp hle
  omega

end Table

end RobinHood
