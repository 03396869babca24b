import RobinHood.Proofs.Index.Spot

/-!
# Displacement walks that start from a live row

A scan that ends at a live row, without a tombstone to reuse, hands over to a displacement walk
that goes round at most once. In a chained index the rows that this walk has passed, and those that
it is still to meet, bound how far the row in hand has come from either side. In particular no live
row ever makes it forget a tombstone that it has met.
-/

namespace RobinHood

namespace Index

/-- Among the first `m` rows of the walk for `hash` a live row that stands farther from its home
than the walk has come follows after row `d`. -/
def Covered (rows : Index) (hash : UInt32) (m d : Nat) : Prop :=
  ∃ e, d < e ∧ e < m ∧ (rowAt rows (walkPos rows.size hash e)).isLive = true ∧
    e < distAt rows (walkPos rows.size hash e)

namespace Placement

variable {rows : Index} {hash : UInt32} {entry b k m n : Nat} {p q : Placement}

/-- A scan remembers no tombstone exactly if each one that it met is covered. -/
theorem scanReuse_eq_none_iff (h : Clear rows hash n) : scanReuse rows hash n = none ↔
    ∀ d < n, (rowAt rows (walkPos rows.size hash d)).isTombstone = true →
      Covered rows hash n d := by
  induction n with
  | zero => exact ⟨fun _ d hd ↦ absurd hd (Nat.not_lt_zero d), fun _ ↦ rfl⟩
  | succ n ih =>
    have hpass : scanReuse rows hash (n + 1) = none ↔
        (rowAt rows (walkPos rows.size hash n)).isTombstone = false ∧
          (n < distAt rows (walkPos rows.size hash n) ∨ scanReuse rows hash n = none) :=
      reuse_pass_eq_none_iff (p := scan rows hash 0 n)
    rw [hpass, ih (h.mono (Nat.le_succ n))]
    constructor
    · rintro ⟨htomb, hor⟩ d hd ht
      have hne : d ≠ n := by
        rintro rfl
        rw [htomb] at ht
        cases ht
      rcases hor with hlt | hall
      · have he := h.isEmpty_eq_false (Nat.lt_succ_self n)
        exact ⟨n, by omega, Nat.lt_succ_self n, Row.isLive_iff.mpr ⟨he, htomb⟩, hlt⟩
      · obtain ⟨e, h1, h2, hl, hlt⟩ := hall d (by omega) ht
        exact ⟨e, h1, by omega, hl, hlt⟩
    · intro hall
      have htomb : (rowAt rows (walkPos rows.size hash n)).isTombstone = false := by
        rw [← Bool.not_eq_true]
        intro ht
        obtain ⟨e, h1, h2, -⟩ := hall n (Nat.lt_succ_self n) ht
        omega
      refine ⟨htomb, ?_⟩
      by_cases hlt : n < distAt rows (walkPos rows.size hash n)
      · exact .inl hlt
      · refine .inr fun d hd ht ↦ ?_
        obtain ⟨e, h1, h2, hl, hlt⟩ := hall d (by omega) ht
        have hne : e ≠ n := by
          rintro rfl
          omega
        exact ⟨e, h1, by omega, hl, hlt⟩

/-- A scan is a sound walk: before it ends it has come less than a round. -/
theorem sound_scan (hc : Chained rows) (hs : 0 < rows.size) (hne : hash ≠ 0)
    (he : entry < Row.entryBound) (h : Clear rows hash n) : (scan rows hash entry n).Sound := by
  have hstart := sound_start hc hs hne he
  rw [start_home hs] at hstart
  apply hstart.reaches (reaches_scan h)
  intro m hm r hr hlap
  have hle := h.le_size
  rw [hr.unique (reaches_scan (h.mono (Nat.le_of_lt hm)))] at hlap
  have hround : m = rows.size := hlap.1
  omega

/-- A scan for `hash` that ends at its row `b` and hands the live row there over to a displacement
walk. -/
structure HandsOver (rows : Index) (hash : UInt32) (b : Nat) : Prop where
  chained : Chained rows
  clear : Clear rows hash b
  reuse : scanReuse rows hash b = none
  isLive : (rowAt rows (walkPos rows.size hash b)).isLive = true
  dist_lt : distAt rows (walkPos rows.size hash b) < b
  lt_size : b < rows.size

/-- What is known of the walk that took over at row `b` of a scan and is about to look at row `k`.
-/
structure Sweep (rows : Index) (hash : UInt32) (entry b k : Nat) (p : Placement) : Prop where
  size_eq : p.rows.size = rows.size
  pos_eq : p.pos = walkPos rows.size hash k
  walkPos_dist : walkPos rows.size p.hash p.dist = walkPos rows.size hash k
  dist_le_size : p.dist ≤ rows.size
  dist_le : p.dist ≤ k
  /-- The rows still to be met are as they were. -/
  ahead : ∀ j, k ≤ j → j < b + rows.size →
    rowAt p.rows (walkPos rows.size hash j) = rowAt rows (walkPos rows.size hash j)
  /-- The new row stands where the walk took over. -/
  first : rowAt p.rows (walkPos rows.size hash b) = Row.live hash entry
  /-- No live row still to be met has its home before that of the row in hand. -/
  front : ∀ j, k ≤ j → (rowAt rows (walkPos rows.size hash j)).isLive = true →
    distAt rows (walkPos rows.size hash j) ≤ p.dist + (j - k)
  /-- No row passed has its home behind that of the row in hand. -/
  back : ∀ j < k, j + p.dist ≤ k + distAt rows (walkPos rows.size hash j)
  spare : p.reuse = none → ∀ j, b < j → j < k →
    (rowAt rows (walkPos rows.size hash j)).isTombstone = false
  /-- From the remembered tombstone on, the rows are as they were. -/
  kept : ∀ t ∈ p.reuse, ∃ j, b < j ∧ j < k ∧ t = walkPos rows.size hash j ∧
    (rowAt rows (walkPos rows.size hash j)).isTombstone = true ∧
    ∀ i, j ≤ i → i < b + rows.size →
      rowAt p.rows (walkPos rows.size hash i) = rowAt rows (walkPos rows.size hash i)

namespace HandsOver

/-- The walk takes over by changing places with the row that it was handed. -/
theorem step_scan (h : HandsOver rows hash b) :
    (scan rows hash entry b).step = .onward (scan rows hash entry b).swap :=
  step_of_lt h.isLive h.dist_lt h.reuse

theorem sweep_swap (h : HandsOver rows hash b) :
    Sweep rows hash entry b (b + 1) (scan rows hash entry b).swap where
  size_eq := size_set ..
  pos_eq := next_walkPos hash b
  walkPos_dist := by
    change walkPos rows.size (rowAt rows (walkPos rows.size hash b)).hash
      (distAt rows (walkPos rows.size hash b) + 1) = _
    rw [← next_walkPos, walkPos_distAt (lt_size_of_isLive h.isLive), next_walkPos]
  dist_le_size := Nat.le_trans (Nat.succ_le_of_lt h.dist_lt) (Nat.le_of_lt h.lt_size)
  dist_le := Nat.succ_le_succ (Nat.le_of_lt h.dist_lt)
  ahead := fun j h1 h2 ↦ rowAt_set_ne rows (walkPos_ne hash (by omega) (by omega)) _
  first := rowAt_set_self (lt_size_of_isLive h.isLive) _
  front := by
    intro j hj hl
    have hle := h.chained.ahead hl (Nat.le_of_succ_le hj)
    change _ ≤ distAt rows (walkPos rows.size hash b) + 1 + (j - (b + 1))
    omega
  back := by
    intro j hj
    have hle := h.chained.ahead h.isLive (Nat.le_of_lt_succ hj)
    change j + (distAt rows (walkPos rows.size hash b) + 1) ≤ _
    omega
  spare := fun _ j h1 h2 ↦ by omega
  kept := fun t ht ↦ by cases ht

end HandsOver

namespace Sweep

theorem facing_eq (h : Sweep rows hash entry b k p) (hk : k < b + rows.size) :
    p.facing = rowAt rows (walkPos rows.size hash k) := by
  rw [facing, h.pos_eq, h.ahead k (Nat.le_refl k) hk]

theorem distAt_eq (h : Sweep rows hash entry b k p) (hk : k < b + rows.size) :
    distAt p.rows p.pos = distAt rows (walkPos rows.size hash k) := by
  rw [distAt, h.size_eq, ← facing, h.facing_eq hk, h.pos_eq, distAt]

/-- No tombstone is forgotten: the rows still to be met are no farther from home than the row in
hand. -/
private theorem mem_reuse_pass (h : Sweep rows hash entry b k p) (hk : k < b + rows.size) {t : Nat}
    (ht : t ∈ p.pass.reuse) : t ∈ p.reuse ∨ p.reuse = none ∧ t = walkPos rows.size hash k ∧
      (rowAt rows (walkPos rows.size hash k)).isTombstone = true := by
  rcases mem_reusable ht with ⟨hr, htomb, rfl⟩ | ⟨ht, -⟩
  · rw [h.facing_eq hk] at htomb
    exact .inr ⟨hr, h.pos_eq, htomb⟩
  · exact .inl ht

private theorem spare_pass (h : Sweep rows hash entry b k p) (hk : k < b + rows.size)
    (he : p.facing.isEmpty = false) (hr : p.pass.reuse = none) :
    ∀ j, b < j → j < k + 1 →
      (rowAt rows (walkPos rows.size hash j)).isTombstone = false := by
  obtain ⟨htomb, hor⟩ := reuse_pass_eq_none_iff.mp hr
  have hnone : p.reuse = none := by
    refine hor.resolve_left fun hlt ↦ ?_
    have hl : p.facing.isLive = true := Row.isLive_iff.mpr ⟨he, htomb⟩
    rw [h.facing_eq hk] at hl
    rw [h.distAt_eq hk] at hlt
    have hle := h.front k (Nat.le_refl k) hl
    omega
  intro j h1 h2
  by_cases hlt : j < k
  · exact h.spare hnone j h1 hlt
  · obtain rfl : j = k := by omega
    rwa [h.facing_eq hk] at htomb

private theorem pass (h : Sweep rows hash entry b k p) (hbk : b < k) (hk : k < b + rows.size)
    (he : p.facing.isEmpty = false) (hd : p.dist ≤ distAt p.rows p.pos) :
    Sweep rows hash entry b (k + 1) p.pass where
  size_eq := h.size_eq
  pos_eq := by rw [Placement.pass, h.size_eq, h.pos_eq, next_walkPos]
  walkPos_dist := by
    change walkPos rows.size p.hash (p.dist + 1) = _
    rw [← next_walkPos, h.walkPos_dist, next_walkPos]
  dist_le_size := by
    have hlt : distAt p.rows p.pos < rows.size := by
      rw [h.distAt_eq hk]
      exact distAt_lt (by omega)
    exact Nat.succ_le_of_lt (Nat.lt_of_le_of_lt hd hlt)
  dist_le := Nat.succ_le_succ h.dist_le
  ahead := fun j h1 h2 ↦ h.ahead j (by omega) h2
  first := h.first
  front := by
    intro j hj hl
    have hle := h.front j (by omega) hl
    change _ ≤ p.dist + 1 + (j - (k + 1))
    omega
  back := by
    intro j hj
    change j + (p.dist + 1) ≤ _
    by_cases hlt : j < k
    · have hle := h.back j hlt
      omega
    · obtain rfl : j = k := by omega
      rw [h.distAt_eq hk] at hd
      omega
  spare := h.spare_pass hk he
  kept := by
    intro t ht
    rcases h.mem_reuse_pass hk ht with ht | ⟨-, rfl, htomb⟩
    · obtain ⟨j, h1, h2, hj⟩ := h.kept t ht
      exact ⟨j, h1, by omega, hj⟩
    · exact ⟨k, hbk, Nat.lt_succ_self k, rfl, htomb, h.ahead⟩

private theorem swap (h : Sweep rows hash entry b k p) (hc : Chained rows) (hbk : b < k)
    (hk : k < b + rows.size) (hl : p.facing.isLive = true) (hd : distAt p.rows p.pos < p.dist)
    (hr : p.reuse = none) : Sweep rows hash entry b (k + 1) p.swap := by
  rw [h.facing_eq hk] at hl
  rw [h.distAt_eq hk] at hd
  have hdist : p.swap.dist = distAt rows (walkPos rows.size hash k) + 1 := by
    rw [← h.distAt_eq hk]
    rfl
  refine ⟨?_, ?_, ?_, ?_, ?_, fun j h1 h2 ↦ ?_, ?_, fun j hj hlj ↦ ?_, fun j hj ↦ ?_,
    fun _ j h1 h2 ↦ ?_, fun t ht ↦ by cases ht⟩
  · rw [Placement.swap, putDown, size_set, h.size_eq]
  · rw [Placement.swap, h.size_eq, h.pos_eq, next_walkPos]
  · rw [hdist, Placement.swap, h.facing_eq hk, ← next_walkPos,
      walkPos_distAt (lt_size_of_isLive hl), next_walkPos]
  · rw [hdist]
    exact Nat.succ_le_of_lt (distAt_lt (by omega))
  · rw [hdist]
    have hle := h.dist_le
    omega
  · rw [Placement.swap, putDown, h.pos_eq,
      rowAt_set_ne p.rows (walkPos_ne hash (by omega) (by omega))]
    exact h.ahead j (by omega) h2
  · rw [Placement.swap, putDown, h.pos_eq,
      rowAt_set_ne p.rows (walkPos_ne hash hbk (by omega)).symm]
    exact h.first
  · have hle := hc.ahead hlj (Nat.le_of_succ_le hj)
    omega
  · rw [hdist]
    by_cases hlt : j < k
    · have hle := h.back j hlt
      omega
    · obtain rfl : j = k := by omega
      omega
  · by_cases hlt : j < k
    · exact h.spare hr j h1 hlt
    · obtain rfl : j = k := by omega
      exact (Row.isLive_iff.mp hl).2

/-- Looking at one row keeps what is known. -/
theorem onward (h : Sweep rows hash entry b k p) (hc : Chained rows) (hbk : b < k)
    (hk : k < b + rows.size) (hs : p.step = .onward q) : Sweep rows hash entry b (k + 1) q := by
  obtain ⟨he, ⟨hd, rfl⟩ | ⟨hd, hl, hr, rfl⟩⟩ := step_onward hs
  · exact h.pass hbk hk he hd
  · exact h.swap hc hbk hk hl hd hr

end Sweep

/-- A walk that took over is known throughout its first round. -/
theorem HandsOver.sweep (h : HandsOver rows hash b) (hm : m < rows.size)
    (hr : Reaches (scan rows hash entry b) (m + 1) q) :
    Sweep rows hash entry b (b + (m + 1)) q := by
  induction m generalizing q with
  | zero =>
    rw [hr.unique (.onward (.refl _) h.step_scan)]
    exact h.sweep_swap
  | succ m ih =>
    cases hr with
    | onward hr hs => exact (ih (by omega) hr).onward h.chained (by omega) (by omega) hs

end Placement

end Index

end RobinHood
