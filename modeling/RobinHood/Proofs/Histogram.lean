import Mathlib.Algebra.Ring.Nat
import Mathlib.Order.Bounds.Basic
import RobinHood.Histogram

/-!
# What a histogram counts

The bins of a histogram are added as they are needed, so the list of distances that it was made of
is read off it: each bin counts how often its distance occurs, all bins together count the list, and
the last bin belongs to the largest distance.
-/

namespace RobinHood

namespace Histogram

/-- The count at distance `d`; zero where no bin was added. -/
def count (h : Histogram) (d : Nat) : Nat := h.bins[d]?.getD 0

variable {h : Histogram} {d : Nat} {distances : List Nat}

/-! ### One more distance -/

theorem size_tally (h : Histogram) (d : Nat) :
    (h.tally d).bins.size = max h.bins.size (d + 1) := by
  simp only [tally, Array.size_modify, Array.size_append, Array.size_replicate]
  omega

/-- Added bins are empty. -/
private theorem getD_append_replicate (bins : Array Nat) (n i : Nat) :
    (bins ++ Array.replicate n 0)[i]?.getD 0 = bins[i]?.getD 0 := by
  rw [Array.getElem?_append]
  split
  · rfl
  · next hge =>
    rw [Array.getElem?_eq_none (Nat.not_lt.mp hge), Array.getElem?_replicate]
    split
    · rfl
    · rfl

theorem count_tally (h : Histogram) (d n : Nat) :
    (h.tally d).count n = h.count n + if d = n then 1 else 0 := by
  unfold count
  rw [tally, Array.getElem?_modify, ← getD_append_replicate h.bins (d + 1 - h.bins.size)]
  split
  · next hd =>
    subst hd
    have hlt : d < (h.bins ++ Array.replicate (d + 1 - h.bins.size) 0).size := by
      rw [Array.size_append, Array.size_replicate]
      omega
    rw [Array.getElem?_eq_getElem hlt]
    rfl
  · rfl

private theorem sum_modify {l : List Nat} (hd : d < l.length) :
    (l.modify d (· + 1)).sum = l.sum + 1 := by
  induction l generalizing d with
  | nil => cases hd
  | cons n l ih =>
    cases d with
    | zero =>
      rw [List.modify_zero_cons, List.sum_cons, List.sum_cons]
      omega
    | succ d =>
      rw [List.modify_succ_cons, List.sum_cons, List.sum_cons, ih (Nat.lt_of_succ_lt_succ hd)]
      omega

theorem sum_tally (h : Histogram) (d : Nat) : (h.tally d).bins.sum = h.bins.sum + 1 := by
  have hlt : d < (h.bins ++ Array.replicate (d + 1 - h.bins.size) 0).toList.length := by
    rw [Array.length_toList, Array.size_append, Array.size_replicate]
    omega
  rw [tally, ← Array.sum_toList, Array.toList_modify, sum_modify hlt, Array.sum_toList]
  simp

/-! ### A list of distances -/

private theorem count_foldl (distances : List Nat) (h : Histogram) (d : Nat) :
    (distances.foldl tally h).count d = h.count d + distances.count d := by
  induction distances generalizing h with
  | nil => rfl
  | cons first distances ih =>
    rw [List.foldl_cons, ih, count_tally, List.count_cons]
    simp only [beq_iff_eq]
    omega

private theorem sum_foldl (distances : List Nat) (h : Histogram) :
    (distances.foldl tally h).bins.sum = h.bins.sum + distances.length := by
  induction distances generalizing h with
  | nil => rfl
  | cons first distances ih =>
    rw [List.foldl_cons, ih, sum_tally, List.length_cons]
    omega

private theorem lt_size_foldl_iff (distances : List Nat) (h : Histogram) (d : Nat) :
    d < (distances.foldl tally h).bins.size ↔ d < h.bins.size ∨ ∃ far ∈ distances, d ≤ far := by
  induction distances generalizing h with
  | nil => simp
  | cons first distances ih =>
    have hmax : d < max h.bins.size (first + 1) ↔ d < h.bins.size ∨ d ≤ first := by omega
    rw [List.foldl_cons, ih, size_tally, hmax, or_assoc]
    simp only [List.mem_cons, or_and_right, exists_or, exists_eq_left]

/-- Each bin counts how often its distance occurs. -/
theorem count_ofDistances (distances : List Nat) (d : Nat) :
    (ofDistances distances).count d = distances.count d := by
  rw [ofDistances, count_foldl]
  simp [count]

/-- There is a bin for each distance up to the largest one that occurs. -/
theorem lt_size_ofDistances_iff :
    d < (ofDistances distances).bins.size ↔ ∃ far ∈ distances, d ≤ far := by
  rw [ofDistances, lt_size_foldl_iff]
  simp

/-- All bins together count the distances. -/
theorem total_ofDistances (hle : distances.length ≤ maxCount) :
    (ofDistances distances).total = .ok distances.length := by
  have hsum := sum_foldl distances ⟨#[]⟩
  rw [Array.sum_eq_foldl, ← ofDistances] at hsum
  have hlen : (ofDistances distances).bins.foldl (· + ·) 0 = distances.length :=
    hsum.trans (Nat.zero_add _)
  simp only [total, hlen, if_pos hle]

/-- A distance that occurs has its bin. -/
theorem lt_size_of_mem (hd : d ∈ distances) : d < (ofDistances distances).bins.size :=
  lt_size_ofDistances_iff.mpr ⟨d, hd, Nat.le_refl d⟩

/-- The last bin belongs to a distance that occurs. -/
theorem mem_of_size_ofDistances (hsize : (ofDistances distances).bins.size = d + 1) :
    d ∈ distances := by
  obtain ⟨far, hfar, hle⟩ : ∃ far ∈ distances, d ≤ far :=
    lt_size_ofDistances_iff.mp (hsize.symm ▸ Nat.lt_succ_self d)
  have hlt := lt_size_of_mem hfar
  rwa [show d = far by omega]

/-- The largest distance is one that occurs. -/
theorem isGreatest_maxDistance (hne : distances ≠ []) :
    IsGreatest {d | d ∈ distances} (ofDistances distances).maxDistance := by
  obtain ⟨first, hfirst⟩ := List.exists_mem_of_ne_nil distances hne
  have hsize : (ofDistances distances).bins.size = (ofDistances distances).maxDistance + 1 := by
    have hlt := lt_size_of_mem hfirst
    unfold maxDistance
    omega
  constructor
  · exact mem_of_size_ofDistances hsize
  · intro d hd
    have hlt := lt_size_of_mem hd
    omega

end Histogram

end RobinHood
