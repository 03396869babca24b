import RobinHood.Proofs.Index.Chain
import RobinHood.Proofs.Index.Walk

/-!
# Displacement keeps chains unbroken

A walk is `Sound` while the index is chained, nothing has stopped the row in hand on its way from
home, and no chain that crosses the remembered tombstone would be cut by the row in hand.
Looking at a row keeps this, and settling leaves a chained index, with one exception: a row that
has come a full round is back at its own home, where it counts as having come no way at all. A
walk in that state with no tombstone to reuse has `Lapped`.

An index with an empty row stops every walk before it can lap.
-/

namespace RobinHood

namespace Index

namespace Placement

/-- The row in hand is back at its home and has no tombstone to settle in. -/
def Lapped (p : Placement) : Prop := p.dist = p.rows.size ∧ p.reuse = none

/-- The row in hand may be put down here, or in the remembered tombstone. -/
structure Sound (p : Placement) : Prop where
  valid : p.Valid
  pos_eq : p.pos = walkPos p.rows.size p.hash p.dist
  chained : Chained p.rows
  clear : Clear p.rows p.hash p.dist
  /-- No live row passed since the remembered tombstone stands farther from home than the row in
  hand had come. -/
  reuse : ∀ t ∈ p.reuse, ∃ d < p.dist, t = walkPos p.rows.size p.hash d ∧
    ∀ e, d < e → e < p.dist → (rowAt p.rows (walkPos p.rows.size p.hash e)).isLive = true →
      distAt p.rows (walkPos p.rows.size p.hash e) ≤ e

namespace Sound

variable {p q : Placement} {rows : Index} {n : Nat}

theorem dist_le (h : p.Sound) : p.dist ≤ p.rows.size := h.clear.le_size

theorem size_pos (h : p.Sound) : 0 < p.rows.size :=
  Nat.lt_of_le_of_lt (Nat.zero_le _) h.valid.pos_lt

/-- A row that is not back at its home has come less than a round. -/
theorem dist_lt (h : p.Sound) (hl : ¬ p.Lapped) (hr : p.reuse = none) : p.dist < p.rows.size := by
  have hle := h.dist_le
  have hne : p.dist ≠ p.rows.size := fun he ↦ hl ⟨he, hr⟩
  omega

/-- Where the walk goes on, what is in front is no emptier than what it has passed. -/
private theorem clear_pass (h : p.Sound) (he : p.facing.isEmpty = false)
    (hd : p.dist ≤ distAt p.rows p.pos) : Clear p.rows p.hash (p.dist + 1) := by
  apply h.clear.succ
  rw [← h.pos_eq, bars_eq_false_iff]
  exact ⟨he, hd⟩

private theorem reuse_pass (h : p.Sound) : ∀ t ∈ p.pass.reuse, ∃ d < p.dist + 1,
    t = walkPos p.rows.size p.hash d ∧ ∀ e, d < e → e < p.dist + 1 →
      (rowAt p.rows (walkPos p.rows.size p.hash e)).isLive = true →
        distAt p.rows (walkPos p.rows.size p.hash e) ≤ e := by
  intro t ht
  rcases mem_reusable ht with ⟨-, -, rfl⟩ | ⟨ht, hor⟩
  · exact ⟨p.dist, by omega, h.pos_eq, fun e h1 h2 ↦ by omega⟩
  · obtain ⟨d, hd, htd, hpass⟩ := h.reuse t ht
    refine ⟨d, by omega, htd, fun e h1 h2 hl ↦ ?_⟩
    by_cases hlt : e < p.dist
    · exact hpass e h1 hlt hl
    · obtain rfl : e = p.dist := by omega
      rw [← h.pos_eq] at hl ⊢
      rcases hor with htomb | hle
      · have hdead := Row.isLive_of_isTombstone htomb
        rw [facing, hl] at hdead
        cases hdead
      · exact hle

private theorem chained_putDown (h : p.Sound) (hlt : p.dist < p.rows.size)
    (hbar : p.facing.isEmpty = true ∨ distAt p.rows p.pos < p.dist) :
    Chained (p.putDown p.pos) := by
  rw [putDown, h.pos_eq]
  apply h.chained.set h.valid.hash_ne hlt h.clear
  intro pos hl _ e he hw
  -- A live row pushed past this place came no farther here than the row that stands here.
  have hclear := h.chained pos hl
  have hne := hclear.isEmpty_eq_false (d := e) (by omega)
  have hle := hclear.le_distAt (d := e) (by omega)
  rw [hw, ← h.pos_eq] at hne hle
  rcases hbar with hem | hlt'
  · rw [facing, hne] at hem
    cases hem
  · omega

private theorem chained_reuse (h : p.Sound) {t : Nat} (ht : t ∈ p.reuse)
    (hbar : p.facing.isEmpty = true ∨ distAt p.rows p.pos < p.dist) :
    Chained (p.putDown t) := by
  obtain ⟨d, hd, rfl, hpass⟩ := h.reuse t ht
  have hle := h.dist_le
  rw [putDown]
  apply h.chained.set h.valid.hash_ne (by omega) (h.clear.mono (by omega))
  intro pos hl hne e he hw
  -- Counted along the walk, the live row stands `i` rows past the tombstone.
  obtain ⟨i, hi⟩ : ∃ i, distAt p.rows pos = e + i := ⟨distAt p.rows pos - e, by omega⟩
  have hpos : pos = walkPos p.rows.size p.hash (d + i) := by
    rw [walkPos_add hw.symm, ← hi, walkPos_distAt (lt_size_of_isLive hl)]
  have hi0 : i ≠ 0 := by
    rintro rfl
    exact hne hpos
  rw [hpos] at hi hl
  rcases Nat.lt_or_ge (d + i) p.dist with hlt | hge
  · have := hpass (d + i) (by omega) hlt hl
    omega
  · have hb := h.chained.behind hl hge (by omega)
    rw [← h.pos_eq] at hb
    rcases hbar with hem | hlt'
    · rw [facing, hb.1] at hem
      cases hem
    · omega

/-- The row taken up has come unhindered as far as the place that it leaves, and past it. -/
private theorem clear_swap (h : p.Sound) (hlt : p.dist < p.rows.size)
    (hlive : p.facing.isLive = true) (hd : distAt p.rows p.pos < p.dist) :
    Clear (p.putDown p.pos) p.facing.hash (distAt p.rows p.pos + 1) := by
  have hw : walkPos p.rows.size p.facing.hash (distAt p.rows p.pos) = p.pos :=
    walkPos_distAt h.valid.pos_lt
  have hself : rowAt (p.putDown p.pos) p.pos = p.inHand := rowAt_set_self h.valid.pos_lt _
  intro e he
  rw [show (p.putDown p.pos).size = p.rows.size from size_set ..]
  by_cases hlt' : e < distAt p.rows p.pos
  · have hlt'' : distAt p.rows p.pos < p.rows.size := distAt_lt h.size_pos
    have hne : walkPos p.rows.size p.facing.hash e ≠
        walkPos p.rows.size p.facing.hash (distAt p.rows p.pos) :=
      walkPos_ne p.facing.hash hlt' (by omega)
    rw [hw] at hne
    rw [putDown, rowAt_set_ne p.rows hne.symm]
    exact h.chained p.pos hlive e he
  · obtain rfl : e = distAt p.rows p.pos := by omega
    rw [hw, hself, bars_eq_false_iff, inHand, Row.hash_live, h.pos_eq, distance_walkPos _ hlt,
      ← h.pos_eq]
    exact ⟨Row.isEmpty_live h.valid.hash_ne _, by omega⟩

/-- A walk that settles before it laps leaves a chained index. -/
theorem chained_settled (h : p.Sound) (hl : ¬ p.Lapped) (hs : p.step = .settled rows) :
    Chained rows := by
  obtain ⟨rfl, hbar⟩ := step_settled hs
  have hbar' := hbar.imp_right And.left
  unfold target
  cases hr : p.reuse with
  | none => exact h.chained_putDown (h.dist_lt hl hr) hbar'
  | some t => exact h.chained_reuse hr hbar'

/-- A walk that goes on before it laps stays sound. -/
theorem onward (h : p.Sound) (hl : ¬ p.Lapped) (hs : p.step = .onward q) : q.Sound := by
  have hv := h.valid.onward hs
  obtain ⟨he, ⟨hd, rfl⟩ | ⟨hd, hlive, hr, rfl⟩⟩ := step_onward hs
  · refine ⟨hv, ?_, h.chained, h.clear_pass he hd, h.reuse_pass⟩
    rw [pass, h.pos_eq, next_walkPos]
  · have hlt := h.dist_lt hl hr
    refine ⟨hv, ?_, h.chained_putDown hlt (.inr hd), h.clear_swap hlt hlive hd,
      fun t ht ↦ by cases ht⟩
    rw [swap, putDown, size_set, facing, ← next_walkPos, walkPos_distAt h.valid.pos_lt]

/-- A run that never laps stays sound. -/
theorem reaches (h : p.Sound) (hr : Reaches p n q)
    (hl : ∀ m < n, ∀ r, Reaches p m r → ¬ r.Lapped) : q.Sound := by
  induction hr with
  | refl => exact h
  | onward hr hs ih =>
    have hq := ih fun m hm ↦ hl m (by omega)
    exact hq.onward (hl _ (by omega) _ hr) hs

end Sound

/-! ### Indexes with an empty row -/

variable {p q : Placement} {hash : UInt32} {d n : Nat}

/-- A walk settles at the latest at the first empty row, whatever the rows hold. -/
theorem settles_of_isEmpty {i : Nat} (hp : p.pos = walkPos p.rows.size hash d)
    (hi : i < p.rows.size)
    (he : (rowAt p.rows (walkPos p.rows.size hash (d + i))).isEmpty = true) :
    ∃ rows, p.settle? (i + 1) = some rows := by
  induction i generalizing p d with
  | zero =>
    have hs := step_of_isEmpty (p := p) (by rw [facing, hp]; exact he)
    exact ⟨_, (Reaches.refl p).settle?_of_settled hs (Nat.lt_succ_self 0)⟩
  | succ i ih =>
    cases hs : p.step with
    | settled rows => exact ⟨rows, (Reaches.refl p).settle?_of_settled hs (by omega)⟩
    | onward q =>
      have hne : p.pos ≠ walkPos p.rows.size hash (d + (i + 1)) := by
        rw [hp]
        exact walkPos_ne hash (by omega) (by omega)
      have hq : q.rows.size = p.rows.size ∧ q.pos = walkPos p.rows.size hash (d + 1) ∧
          rowAt q.rows (walkPos p.rows.size hash (d + (i + 1))) =
            rowAt p.rows (walkPos p.rows.size hash (d + (i + 1))) := by
        obtain ⟨-, ⟨-, rfl⟩ | ⟨-, -, -, rfl⟩⟩ := step_onward hs
        · exact ⟨rfl, by rw [pass, hp, next_walkPos], rfl⟩
        · exact ⟨size_set .., by rw [swap, hp, next_walkPos], rowAt_set_ne p.rows hne _⟩
      obtain ⟨hsize, hpos, hrow⟩ := hq
      obtain ⟨rows, hrows⟩ := ih (p := q) (d := d + 1) (by rw [hpos, hsize])
        (by omega) (by rw [hsize, Nat.add_assoc, Nat.add_comm 1 i, hrow]; exact he)
      refine ⟨rows, ?_⟩
      rw [settle?, run_succ_of_onward hs]
      exact hrows

/-- In an index with an empty row every sound walk settles within one round and leaves a chained
index. -/
theorem Sound.settles_of_exists_isEmpty (h : p.Sound)
    (he : ∃ pos < p.rows.size, (rowAt p.rows pos).isEmpty = true) :
    ∃ rows, p.settle? p.rows.size = some rows ∧ Chained rows := by
  obtain ⟨pos, hpos, he⟩ := he
  obtain ⟨i, hi, rfl⟩ := exists_walkPos p.hash p.dist hpos
  obtain ⟨rows, hrows⟩ := settles_of_isEmpty h.pos_eq hi he
  have hmore := settle?_mono (Nat.succ_le_of_lt hi) hrows
  -- The empty row stays where it is, and no walk comes full round past it.
  have hlap (m : Nat) (q : Placement) (hr : Reaches p m q) (hq : q.Sound) : ¬ q.Lapped := by
    rintro ⟨hd, -⟩
    have hsame := h.valid.reshuffled hr
    have hempty := hsame.rowAt_eq _ (Row.isLive_of_isEmpty he)
    obtain ⟨j, hj, hw⟩ := exists_walkPos q.hash 0 (walkPos_lt h.size_pos p.hash (p.dist + i))
    have hne := hq.clear.isEmpty_eq_false (d := 0 + j) (by rw [hd, hsame.size_eq]; omega)
    rw [hsame.size_eq, hw, hempty, he] at hne
    cases hne
  refine ⟨rows, hmore, ?_⟩
  obtain ⟨n, -, q, hr, hs⟩ := reaches_of_settle? hmore
  have hsound {m : Nat} {r : Placement} (hr : Reaches p m r) : r.Sound := by
    induction hr with
    | refl => exact h
    | onward hr hs ih => exact ih.onward (hlap _ _ hr ih) hs
  exact (hsound hr).chained_settled (hlap n q hr (hsound hr)) hs

/-- A walk that is about to look at the row of its home. -/
theorem sound_start {rows : Index} {entry : Nat} (hc : Chained rows) (hs : 0 < rows.size)
    (hne : hash ≠ 0) (he : entry < Row.entryBound) :
    (start rows hash entry (home rows.size hash)).Sound where
  valid := ⟨home_lt hs hash, hne, he, fun t ht ↦ by cases ht⟩
  pos_eq := by rw [start, distance_home hs, walkPos_zero hs]
  chained := hc
  clear := by
    intro d hd
    rw [start, distance_home hs] at hd
    cases hd
  reuse := fun t ht ↦ by cases ht

end Placement

end Index

end RobinHood
