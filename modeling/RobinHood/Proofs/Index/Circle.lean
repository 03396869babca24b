import Mathlib.Data.Nat.ModEq
import RobinHood.Index.Basic

/-!
# Arithmetic of the circle of rows

Where a walk stands and how far a position lies past a home are inverse to each other within
one round. Two walks that meet stay together, forward and backward, so that a stretch of rows
can be counted in the steps of either.
-/

namespace RobinHood

namespace Index

variable {size : Nat}

/-- Within one round a walk has come as far as its steps. -/
theorem distance_walkPos (hash : UInt32) {d : Nat} (h : d < size) :
    distance size hash (walkPos size hash d) = d := by
  have hh := home_lt (by omega : 0 < size) hash
  unfold distance walkPos
  rcases Nat.lt_or_ge (home size hash + d) size with hlt | hge
  · rw [Nat.mod_eq_of_lt hlt, show home size hash + d + size - home size hash = d + size by omega,
      Nat.add_mod_right, Nat.mod_eq_of_lt h]
  · rw [Nat.mod_eq_sub_mod hge, Nat.mod_eq_of_lt (a := home size hash + d - size) (by omega),
      show home size hash + d - size + size - home size hash = d by omega, Nat.mod_eq_of_lt h]

/-- A walk reaches a position after as many steps as it is far from home. -/
theorem walkPos_distance (hash : UInt32) {pos : Nat} (h : pos < size) :
    walkPos size hash (distance size hash pos) = pos := by
  have hh := home_lt (by omega : 0 < size) hash
  unfold distance walkPos
  by_cases hlt : pos < home size hash
  · rw [Nat.mod_eq_of_lt (a := pos + size - home size hash) (by omega),
      show home size hash + (pos + size - home size hash) = pos + size by omega,
      Nat.add_mod_right, Nat.mod_eq_of_lt h]
  · rw [show pos + size - home size hash = pos - home size hash + size by omega,
      Nat.add_mod_right, Nat.mod_eq_of_lt (a := pos - home size hash) (by omega),
      show home size hash + (pos - home size hash) = pos by omega, Nat.mod_eq_of_lt h]

/-- A walk begins at home. -/
theorem walkPos_zero (h : 0 < size) (hash : UInt32) : walkPos size hash 0 = home size hash :=
  Nat.mod_eq_of_lt (home_lt h hash)

/-- A home lies no way past itself. -/
theorem distance_home (h : 0 < size) (hash : UInt32) :
    distance size hash (home size hash) = 0 := by
  rw [← walkPos_zero h, distance_walkPos hash h]

/-- The next row is one step further into the walk. -/
theorem next_walkPos (hash : UInt32) (d : Nat) :
    next size (walkPos size hash d) = walkPos size hash (d + 1) := by
  unfold next walkPos
  rw [Nat.mod_add_mod, Nat.add_assoc]

/-- A round more leads to the same row. -/
theorem walkPos_add_size (hash : UInt32) (d : Nat) :
    walkPos size hash (d + size) = walkPos size hash d := by
  unfold walkPos
  rw [← Nat.add_assoc, Nat.add_mod_right]

/-- Less than a round apart, a walk is at different rows. -/
theorem walkPos_ne (hash : UInt32) {d e : Nat} (hde : d < e) (he : e < d + size) :
    walkPos size hash d ≠ walkPos size hash e := by
  intro h
  unfold walkPos at h
  have hm : (home size hash + d + 0) % size = (home size hash + d + (e - d)) % size := by
    rw [Nat.add_zero, h]
    congr 1
    omega
  have hz : 0 % size = (e - d) % size := Nat.ModEq.add_left_cancel' _ hm
  rw [Nat.zero_mod, Nat.mod_eq_of_lt (by omega)] at hz
  omega

variable {hash other : UInt32} {d e : Nat}

/-- Less than a round apart, a walk is at a row once. -/
theorem eq_of_walkPos_eq (h : walkPos size hash d = walkPos size hash e) (hd : d < e + size)
    (he : e < d + size) : d = e := by
  rcases Nat.lt_trichotomy d e with hlt | heq | hgt
  · exact absurd h (walkPos_ne hash hlt he)
  · exact heq
  · exact absurd h.symm (walkPos_ne hash hgt hd)

/-- Walks that meet go on together. -/
theorem walkPos_add (h : walkPos size hash d = walkPos size other e) (i : Nat) :
    walkPos size hash (d + i) = walkPos size other (e + i) := by
  unfold walkPos at h ⊢
  rw [← Nat.add_assoc, ← Nat.add_assoc, ← Nat.mod_add_mod, h, Nat.mod_add_mod]

/-- Walks that meet have come together, as far back as both reach. -/
theorem walkPos_sub (h : walkPos size hash d = walkPos size other e) {i : Nat} (hd : i ≤ d)
    (he : i ≤ e) : walkPos size hash (d - i) = walkPos size other (e - i) := by
  unfold walkPos at h ⊢
  apply Nat.ModEq.add_right_cancel' i
  change (home size hash + (d - i) + i) % size = (home size other + (e - i) + i) % size
  rw [show home size hash + (d - i) + i = home size hash + d by omega, h]
  congr 1
  omega

/-- Every row is met within a round of any step of a walk. -/
theorem exists_walkPos (hash : UInt32) (d : Nat) {pos : Nat} (h : pos < size) :
    ∃ i < size, walkPos size hash (d + i) = pos := by
  have hs : 0 < size := by omega
  refine ⟨(distance size hash pos + (size - d % size)) % size, Nat.mod_lt _ hs, ?_⟩
  have hd := Nat.mod_lt d hs
  have hm : d % size + size * (d / size) = d := Nat.mod_add_div d size
  have hr : home size hash + d + (distance size hash pos + (size - d % size)) =
      home size hash + distance size hash pos + size * (d / size + 1) := by
    rw [Nat.mul_add]
    omega
  calc
    walkPos size hash (d + (distance size hash pos + (size - d % size)) % size)
    _ = (home size hash + d + (distance size hash pos + (size - d % size))) % size := by
        unfold walkPos
        rw [← Nat.add_assoc, Nat.add_mod_mod]
    _ = walkPos size hash (distance size hash pos) := by
        rw [hr, Nat.add_mul_mod_self_left]
        rfl
    _ = pos := walkPos_distance hash h

end Index

end RobinHood
