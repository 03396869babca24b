import RobinHood.Proofs.Index.Jam

/-!
# What becomes of the row of a new key

In a jam the walk of a new key carries a row back to its home and puts it down there, in front of a
row that was pushed past the place, or overruns. So a jam is exactly what keeps the row of a new key
from being placed with the chains unbroken, by a walk that is given up when it overruns.
-/

namespace RobinHood

namespace Index

open Placement

variable {rows rows' : Index} {hash : UInt32} {entry b d g k m n : Nat} {spot : Spot}

/-- No tombstone past a row closer to its home than the walk has come is covered. -/
private theorem Chained.not_covered (hc : Chained rows)
    (hd : distAt rows (walkPos rows.size hash b) < b) (hbd : b ≤ d) :
    ¬ Covered rows hash m d := by
  rintro ⟨e, h1, -, hl, hlt⟩
  have hle := hc.le_of_dist_lt hd (Nat.le_trans hbd (Nat.le_of_lt h1)) hl
  omega

/-- A chain that crosses a row in its home is broken. -/
private theorem not_chained_of_distAt_eq_zero {size : Nat} (hs : rows.size = size) (hgd : g ≤ d)
    (hl : (rowAt rows (walkPos size hash d)).isLive = true)
    (hd : d < distAt rows (walkPos size hash d)) (hz : distAt rows (walkPos size hash g) = 0) :
    ¬ Chained rows := by
  subst hs
  intro hc
  have hle := hc.ahead hl hgd
  omega

/-- A row put down over a tombstone that is met when the round is over breaks a chain: the live row
that covers the tombstone is still where it was. -/
private theorem Placement.HandsOver.not_chained_putDown {p : Placement}
    (ho : HandsOver rows hash b) {j : Nat} (hgj : g + rows.size ≤ j) (hj : j < b + rows.size)
    (hsize : p.rows.size = rows.size)
    (htomb : (rowAt rows (walkPos rows.size hash j)).isTombstone = true)
    (hsame : ∀ i, j ≤ i → i < b + rows.size →
      rowAt p.rows (walkPos rows.size hash i) = rowAt rows (walkPos rows.size hash i))
    (hz : distAt (p.putDown (walkPos rows.size hash j)) (walkPos rows.size hash g) = 0) :
    ¬ Chained (p.putDown (walkPos rows.size hash j)) := by
  have hb := ho.lt_size
  have htomb' : (rowAt rows (walkPos rows.size hash (j - rows.size))).isTombstone = true := by
    rw [← walkPos_add_size, show j - rows.size + rows.size = j by omega]
    exact htomb
  obtain ⟨e, h1, h2, hl, hlt⟩ := ho.covered (by omega) htomb'
  have hput : (p.putDown (walkPos rows.size hash j)).size = rows.size := by
    rw [putDown, size_set, hsize]
  have hrow : rowAt (p.putDown (walkPos rows.size hash j)) (walkPos rows.size hash e) =
      rowAt rows (walkPos rows.size hash e) := by
    have hne : walkPos rows.size hash j ≠ walkPos rows.size hash e := by
      rw [← walkPos_add_size hash e]
      exact walkPos_ne hash (by omega) (by omega)
    have hkept := hsame (e + rows.size) (by omega) (by omega)
    rw [walkPos_add_size] at hkept
    rw [putDown, rowAt_set_ne p.rows hne, hkept]
  refine not_chained_of_distAt_eq_zero hput (d := e) (by omega) ?_ ?_ hz
  · rw [hrow]
    exact hl
  · rw [distAt, hput, hrow]
    exact hlt

/-- A tombstone met before the walk took over is not in its home. -/
private theorem Placement.HandsOver.distAt_ne_zero (ho : HandsOver rows hash b) (hgb : g < b)
    (ht : (rowAt rows (walkPos rows.size hash g)).isTombstone = true) :
    distAt rows (walkPos rows.size hash g) ≠ 0 := by
  intro hz
  obtain ⟨e, h1, -, hl, hlt⟩ := ho.covered hgb ht
  exact not_chained_of_distAt_eq_zero rfl (Nat.le_of_lt h1) hl hlt hz ho.chained

namespace JammedAt

variable {p q : Placement}

/-- From the row where a walk took over to the end of the round there is no tombstone. -/
private theorem le_of_isTombstone (h : JammedAt rows hash g) (ho : HandsOver rows hash b)
    (hk : b < k) (ht : (rowAt rows (walkPos rows.size hash k)).isTombstone = true) :
    g + rows.size ≤ k := by
  have hg := h.le_of_dist_lt ho.dist_lt
  by_cases hlt : k < rows.size
  · have hcovered := h.covered k (by omega) hlt ht
    exact absurd hcovered (ho.chained.not_covered ho.dist_lt (Nat.le_of_lt hk))
  · by_cases hfirm : k - rows.size < g
    · have hno := h.firm (k - rows.size) hfirm
      rw [← walkPos_add_size, show k - rows.size + rows.size = k by omega, ht] at hno
      cases hno
    · omega

/-- What a jam adds to what is known of a walk that took over: until the round is over, the row in
hand has its home no later than row `g`, and then a row stands there in its home. -/
private structure Squeezes (rows : Index) (hash : UInt32) (g k : Nat) (p : Placement) : Prop where
  before : k ≤ g + rows.size → k ≤ g + p.dist
  after : g + rows.size < k → distAt p.rows (walkPos rows.size hash g) = 0

/-- A row that is put down when the round is over stands in its home. -/
private theorem Squeezes.distance_eq_zero (hq : Squeezes rows hash g k p)
    (hs : Sweep rows hash entry b k p) (hk : k = g + rows.size) (hsize : 0 < rows.size) :
    distance rows.size p.hash (walkPos rows.size hash g) = 0 := by
  have hle := hs.dist_le_size
  have hge := hq.before (Nat.le_of_eq hk)
  have hw := hs.walkPos_dist
  rw [show p.dist = 0 + rows.size by omega, hk, walkPos_add_size, walkPos_add_size] at hw
  rw [← hw, distance_walkPos p.hash hsize]

private theorem squeezes_swap (h : JammedAt rows hash g) (ho : HandsOver rows hash b) :
    Squeezes rows hash g (b + 1) (scan rows hash entry b).swap := by
  have hg := h.le_of_dist_lt ho.dist_lt
  have hb := ho.lt_size
  refine ⟨fun _ ↦ ?_, fun hlt ↦ by omega⟩
  have hround := (h.round (b - g) (by omega)).2
  rw [show g + (b - g) = b by omega] at hround
  change b + 1 ≤ g + (distAt rows (walkPos rows.size hash b) + 1)
  omega

private theorem Squeezes.onward (hq : Squeezes rows hash g k p) (h : JammedAt rows hash g)
    (ho : HandsOver rows hash b) (hs : Sweep rows hash entry b k p) (hbk : b < k)
    (hk : k < b + rows.size) (hstep : p.step = .onward q) : Squeezes rows hash g (k + 1) q := by
  have hg := h.le_of_dist_lt ho.dist_lt
  have hb := ho.lt_size
  have hsize : 0 < rows.size := by omega
  have hlt : distAt p.rows p.pos < rows.size := by
    rw [hs.distAt_eq hk]
    exact distAt_lt hsize
  obtain ⟨-, ⟨hd, rfl⟩ | ⟨hd, -, -, rfl⟩⟩ := step_onward hstep
  · refine ⟨fun hle ↦ ?_, fun hgt ↦ ?_⟩
    · have hbefore := hq.before (by omega)
      change k + 1 ≤ g + (p.dist + 1)
      omega
    · have hne : k ≠ g + rows.size := by
        intro hround
        have hbefore := hq.before (Nat.le_of_eq hround)
        omega
      exact hq.after (by omega)
  · refine ⟨fun hle ↦ ?_, fun hgt ↦ ?_⟩
    · have hround := (h.round (k - g) (by omega)).2
      rw [show g + (k - g) = k by omega, ← hs.distAt_eq hk] at hround
      change k + 1 ≤ g + (distAt p.rows p.pos + 1)
      omega
    · have hp : distAt p.swap.rows (walkPos rows.size hash g) = distance rows.size
          (rowAt p.swap.rows (walkPos rows.size hash g)).hash (walkPos rows.size hash g) := by
        rw [distAt, swap, putDown, size_set, hs.size_eq]
      rcases Nat.eq_or_lt_of_le (Nat.le_of_lt_succ hgt) with heq | hlt'
      · have hpos : p.pos = walkPos rows.size hash g := by
          rw [hs.pos_eq, ← heq, walkPos_add_size]
        have hin : rowAt p.swap.rows (walkPos rows.size hash g) = p.inHand := by
          rw [← hpos]
          apply rowAt_set_self
          rw [hs.size_eq, hpos]
          exact walkPos_lt hsize hash g
        rw [hp, hin, inHand, Row.hash_live]
        exact hq.distance_eq_zero hs heq.symm hsize
      · have hne : p.pos ≠ walkPos rows.size hash g := by
          rw [hs.pos_eq, ← walkPos_add_size hash g]
          exact (walkPos_ne hash hlt' (by omega)).symm
        rw [swap, putDown, distAt_set_ne p.rows hne]
        exact hq.after hlt'

private theorem squeezes (h : JammedAt rows hash g) (ho : HandsOver rows hash b)
    (hm : m < rows.size) (hr : Reaches (scan rows hash entry b) (m + 1) q) :
    Squeezes rows hash g (b + (m + 1)) q := by
  induction m generalizing q with
  | zero =>
    rw [hr.unique (.onward (.refl _) ho.step_scan)]
    exact h.squeezes_swap ho
  | succ m ih =>
    cases hr with
    | onward hr hs =>
      have hsweep := ho.sweep (by omega) hr
      exact (ih (by omega) hr).onward h ho hsweep (by omega) (by omega) hs

/-- A row put down elsewhere leaves row `g` in its home. -/
private theorem Squeezes.distAt_putDown (hq : Squeezes rows hash g k p) {j : Nat}
    (hgj : g + rows.size < j) (hj : j < g + rows.size + rows.size) (hjk : j ≤ k) :
    distAt (p.putDown (walkPos rows.size hash j)) (walkPos rows.size hash g) = 0 := by
  have hne : walkPos rows.size hash j ≠ walkPos rows.size hash g := by
    rw [← walkPos_add_size hash g]
    exact (walkPos_ne hash hgj hj).symm
  rw [putDown, distAt_set_ne p.rows hne]
  exact hq.after (by omega)

/-- A walk that settles at a remembered tombstone in a jam breaks a chain. -/
private theorem not_chained_reuse (h : JammedAt rows hash g) (ho : HandsOver rows hash b)
    (hs : Sweep rows hash entry b k p) (hq : Squeezes rows hash g k p) (hk : k ≤ b + rows.size)
    {t : Nat} (hr : p.reuse = some t) : ¬ Chained (p.putDown t) := by
  have hg := h.le_of_dist_lt ho.dist_lt
  have hb := ho.lt_size
  obtain ⟨j, hbj, hj, rfl, htomb, hsame⟩ := hs.kept t hr
  have hgj := h.le_of_isTombstone ho hbj htomb
  apply ho.not_chained_putDown hgj (by omega) hs.size_eq htomb hsame
  rcases Nat.eq_or_lt_of_le hgj with heq | hlt
  · have hz := hq.after (by omega)
    have hsame' := hsame j (Nat.le_refl j) (by omega)
    rw [← heq, walkPos_add_size] at hsame' htomb
    rw [distAt, hs.size_eq, hsame'] at hz
    exact absurd hz (ho.distAt_ne_zero (by omega) htomb)
  · exact hq.distAt_putDown hlt (by omega) (Nat.le_of_lt hj)

/-- A walk that settles at the tombstone it faces in a jam breaks a chain. -/
private theorem not_chained_facing (h : JammedAt rows hash g) (ho : HandsOver rows hash b)
    (hs : Sweep rows hash entry b k p) (hq : Squeezes rows hash g k p) (hbk : b < k)
    (hk : k < b + rows.size)
    (ht : (rowAt rows (walkPos rows.size hash k)).isTombstone = true) :
    ¬ Chained (p.putDown (walkPos rows.size hash k)) := by
  have hg := h.le_of_dist_lt ho.dist_lt
  have hb := ho.lt_size
  have hsize : 0 < rows.size := by omega
  have hgk := h.le_of_isTombstone ho hbk ht
  apply ho.not_chained_putDown hgk hk hs.size_eq ht hs.ahead
  rcases Nat.eq_or_lt_of_le hgk with heq | hlt
  · have hpos : walkPos rows.size hash g < p.rows.size := by
      rw [hs.size_eq]
      exact walkPos_lt hsize hash g
    rw [← heq, walkPos_add_size, putDown, distAt, size_set, hs.size_eq, rowAt_set_self hpos,
      Row.hash_live]
    exact hq.distance_eq_zero hs heq.symm hsize
  · exact hq.distAt_putDown hlt (by omega) (Nat.le_refl k)

/-- Wherever the row in hand settles in a jam, it breaks a chain. -/
private theorem not_chained_settled (h : JammedAt rows hash g) (ho : HandsOver rows hash b)
    (hs : Sweep rows hash entry b k p) (hq : Squeezes rows hash g k p) (hbk : b < k)
    (hk : k ≤ b + rows.size) (hne : hash ≠ 0) (hstep : p.step = .settled rows') :
    ¬ Chained rows' := by
  obtain ⟨rfl, hbar⟩ := step_settled hstep
  unfold target
  cases hr : p.reuse with
  | some t => exact h.not_chained_reuse ho hs hq hk hr
  | none =>
    rw [hr] at hbar
    rw [Option.getD_none, hs.pos_eq]
    rcases Nat.eq_or_lt_of_le hk with heq | hlt
    · -- Back where it took over, the walk faces the new row.
      have hpos : p.pos = walkPos rows.size hash b := by rw [hs.pos_eq, heq, walkPos_add_size]
      have hlive : p.facing.isLive = true := by
        rw [facing, hpos, hs.first]
        exact Row.isLive_live hne entry
      obtain ⟨he, ht⟩ := Row.isLive_iff.mp hlive
      rw [he, ht] at hbar
      simp at hbar
    · apply h.not_chained_facing ho hs hq hbk hlt
      rw [hs.facing_eq hlt, h.isEmpty_eq_false k] at hbar
      rcases hbar with hempty | ⟨-, ht | hsome⟩
      · cases hempty
      · exact ht
      · cases hsome

/-- In a jam, a walk that took over breaks a chain or overruns. -/
theorem not_chained_place? (h : JammedAt rows hash g) (ho : HandsOver rows hash b)
    (hne : hash ≠ 0) (hp : place? rows hash entry (walkPos rows.size hash b) = some rows') :
    ¬ Chained rows' := by
  rw [place?_eq_settle?, start_walkPos ho.lt_size ho.reuse] at hp
  obtain ⟨m, hm, q, hr, hs⟩ := reaches_of_settle? hp
  cases m with
  | zero =>
    rw [hr.unique (.refl _), ho.step_scan] at hs
    cases hs
  | succ m =>
    have hlt : m < rows.size := Nat.lt_of_succ_lt_succ hm
    have hsweep := ho.sweep hlt hr
    have hsqueeze := h.squeezes ho hlt hr
    exact h.not_chained_settled ho hsweep hsqueeze (by omega) (by omega) hne hs

/-- In a jam the scan remembers no tombstone where it ends. -/
private theorem scanReuse_eq_none (h : JammedAt rows hash g) (hc : Chained rows)
    (hclear : Clear rows hash n) (hd : distAt rows (walkPos rows.size hash n) < n) :
    scanReuse rows hash n = none := by
  rw [scanReuse_eq_none_iff hclear]
  intro d hdn ht
  have hn := hclear.le_size
  have hgd : g ≤ d := by
    rcases Nat.lt_or_ge d g with hlt | hge
    · rw [h.firm d hlt] at ht
      cases ht
    · exact hge
  obtain ⟨e, h1, -, hl, hlt⟩ := h.covered d hgd (by omega) ht
  rcases Nat.lt_or_ge e n with hen | hne
  · exact ⟨e, h1, hen, hl, hlt⟩
  · have hle := hc.le_of_dist_lt hd hne hl
    omega

/-- A scan that settles in a jam has gone round, and settles at a tombstone in its home. -/
private theorem not_chained_scan (h : JammedAt rows hash g) (hc : Chained rows)
    (hclear : Clear rows hash n) (hs : (scan rows hash entry n).step = .settled rows') :
    ¬ Chained rows' := by
  have hsize : 0 < rows.size := Nat.lt_of_le_of_lt (Nat.zero_le g) h.lt_size
  obtain ⟨rfl, hbar⟩ := step_settled hs
  rcases hbar with hempty | ⟨hd, hor⟩
  · have hno : (scan rows hash entry n).facing.isEmpty = false := h.isEmpty_eq_false n
    rw [hempty] at hno
    cases hno
  · have hr : (scan rows hash entry n).reuse = none := h.scanReuse_eq_none hc hclear hd
    have ht : (rowAt rows (walkPos rows.size hash n)).isTombstone = true := by
      rw [hr] at hor
      exact hor.resolve_right (by decide)
    have hgn : g ≤ n := h.le_of_dist_lt hd
    have hn : n = rows.size := by
      rcases Nat.eq_or_lt_of_le hclear.le_size with heq | hlt
      · exact heq
      · exact absurd (h.covered n hgn hlt ht) (hc.not_covered hd (Nat.le_refl n))
    subst hn
    have hround : walkPos rows.size hash rows.size = walkPos rows.size hash 0 := by
      rw [← walkPos_add_size hash 0, Nat.zero_add]
    have hg : g = 0 := by
      rcases Nat.eq_zero_or_pos g with hg | hg
      · exact hg
      · rw [hround, h.firm 0 hg] at ht
        cases ht
    rw [hround] at ht
    obtain ⟨e, h1, h2, hl, hlt⟩ := h.covered 0 (Nat.le_of_eq hg) hsize ht
    have hput : (scan rows hash entry rows.size).putDown (scan rows hash entry rows.size).target =
        rows.setIfInBounds (walkPos rows.size hash 0) (Row.live hash entry) := by
      rw [putDown, target, hr, ← hround]
      rfl
    have hne : walkPos rows.size hash 0 ≠ walkPos rows.size hash e := walkPos_ne hash h1 (by omega)
    rw [hput]
    have hz : distAt (rows.setIfInBounds (walkPos rows.size hash 0) (Row.live hash entry))
        (walkPos rows.size hash 0) = 0 := by
      rw [distAt, size_set, rowAt_set_self (walkPos_lt hsize hash 0), Row.hash_live,
        distance_walkPos hash hsize]
    refine not_chained_of_distAt_eq_zero (size_set ..) (Nat.zero_le e) ?_ ?_ hz
    · rw [rowAt_set_ne rows hne]
      exact hl
    · rw [distAt_set_ne rows hne]
      exact hlt

end JammedAt

/-- A scan that goes round and hands over starts a walk that overruns. -/
private theorem place?_eq_none_of_clear (h : Clear rows hash rows.size) (hs : 0 < rows.size)
    (hr : scanReuse rows hash rows.size = none)
    (hl : (rowAt rows (walkPos rows.size hash rows.size)).isLive = true)
    (hd : distAt rows (walkPos rows.size hash rows.size) < rows.size) :
    place? rows hash entry (walkPos rows.size hash rows.size) = none := by
  rw [place?_eq_settle?, start_walkPos_size hs]
  have hstep := step_of_lt (p := scan rows hash entry rows.size) hl hd hr
  exact (Reaches.onward (reaches_scan h) hstep).settle?_eq_none

namespace Ends

private theorem exists_fill?_of_not_jammed (h : Ends rows hash entry n spot) (hc : Chained rows)
    (hne : hash ≠ 0) (he : entry < Row.entryBound)
    (hfree : (liveRows rows).length < rows.size) (hj : ¬ Jammed rows hash) :
    ∃ rows', spot.fill? rows hash entry = some rows' ∧ Chained rows' := by
  by_cases hempty : ∃ pos < rows.size, (rowAt rows pos).isEmpty = true
  · exact h.chained_fill? hc hne he hempty
  have hfull : ∀ pos < rows.size, (rowAt rows pos).isEmpty = false := by
    simpa using hempty
  have hs : 0 < rows.size := by omega
  have hround (hr : scanReuse rows hash n = none) : n ≠ rows.size := by
    rintro rfl
    exact hj ⟨0, h.clear.jammedAt_zero hs hr⟩
  rcases h.ends with ⟨rfl, hstep⟩ | ⟨rfl, hr, hl, hd⟩
  · have hsound := sound_scan hc hs hne he h.clear
    refine ⟨_, rfl, hsound.chained_settled ?_ hstep⟩
    rintro ⟨hdist, hr⟩
    exact hround hr hdist
  · have hle := h.clear.le_size
    have hlt : n < rows.size := Nat.lt_of_le_of_ne hle (hround hr)
    exact HandsOver.exists_place? ⟨hc, h.clear, hr, hl, hd, hlt⟩ hne he hfull hfree hj

private theorem not_chained_fill? (h : Ends rows hash entry n spot) (hc : Chained rows)
    (hne : hash ≠ 0) (hj : JammedAt rows hash g) (hf : spot.fill? rows hash entry = some rows') :
    ¬ Chained rows' := by
  rcases h.ends with ⟨rfl, hstep⟩ | ⟨rfl, hr, hl, hd⟩
  · cases hf
    exact hj.not_chained_scan hc h.clear hstep
  · rcases Nat.eq_or_lt_of_le h.clear.le_size with heq | hlt
    · subst heq
      have hs : 0 < rows.size := Nat.lt_of_le_of_lt (Nat.zero_le _) hd
      rw [Spot.fill?_taken, place?_eq_none_of_clear h.clear hs hr hl hd] at hf
      cases hf
    · exact hj.not_chained_place? ⟨hc, h.clear, hr, hl, hd, hlt⟩ hne hf

/-- The spot for a new key is filled without breaking a chain exactly if there is no jam. -/
theorem exists_chained_fill?_iff (h : Ends rows hash entry n spot) (hc : Chained rows)
    (hne : hash ≠ 0) (he : entry < Row.entryBound)
    (hfree : (liveRows rows).length < rows.size) :
    (∃ rows', spot.fill? rows hash entry = some rows' ∧ Chained rows') ↔ ¬ Jammed rows hash := by
  constructor
  · rintro ⟨rows', hf, hchained⟩ ⟨g, hj⟩
    exact h.not_chained_fill? hc hne hj hf hchained
  · exact h.exists_fill?_of_not_jammed hc hne he hfree

end Ends

end Index

end RobinHood
