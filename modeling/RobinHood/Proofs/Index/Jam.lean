import RobinHood.Proofs.Index.Sweep

/-!
# Jams

In an index without an empty row, a displacement walk may carry a row once round, back to its home,
without meeting a row that stops it and without a tombstone to reuse. Put down there, the row counts
as having come no way at all, and whatever was pushed past the place is out of reach from then on.
Whether this happens to the walk of a new key can be read off the rows and the hash of the key, and
it is all that can go wrong with the walk: otherwise its row is placed and the chains stay unbroken.
-/

namespace RobinHood

namespace Index

/-- Nothing stops a walk that begins at row `g` of the walk for `hash` in its first round. The scan
for `hash` meets no tombstone before it gets to that row, and none after it that is not covered. -/
structure JammedAt (rows : Index) (hash : UInt32) (g : Nat) : Prop where
  lt_size : g < rows.size
  round : ∀ d < rows.size, (rowAt rows (walkPos rows.size hash (g + d))).isEmpty = false ∧
    d ≤ distAt rows (walkPos rows.size hash (g + d))
  firm : ∀ d < g, (rowAt rows (walkPos rows.size hash d)).isTombstone = false
  covered : ∀ d, g ≤ d → d < rows.size →
    (rowAt rows (walkPos rows.size hash d)).isTombstone = true → Covered rows hash rows.size d

/-- A new key of this hash cannot be added without breaking a chain. -/
def Jammed (rows : Index) (hash : UInt32) : Prop := ∃ g, JammedAt rows hash g

variable {rows rows' : Index} {hash : UInt32} {entry b d g k m n : Nat} {spot : Spot}

theorem Covered.mono (h : Covered rows hash m d) (hmn : m ≤ n) : Covered rows hash n d := by
  obtain ⟨e, h1, h2, hl, hlt⟩ := h
  exact ⟨e, h1, by omega, hl, hlt⟩

/-- From a row closer to its home than the walk has come, no live row further on is farther. -/
theorem Chained.le_of_dist_lt (hc : Chained rows)
    (hd : distAt rows (walkPos rows.size hash b) < b) (hbk : b ≤ k)
    (hl : (rowAt rows (walkPos rows.size hash k)).isLive = true) :
    distAt rows (walkPos rows.size hash k) < k := by
  have hle := hc.ahead hl hbk
  omega

namespace JammedAt

/-- A jammed index has no empty row. -/
theorem isEmpty_eq_false (h : JammedAt rows hash g) (d : Nat) :
    (rowAt rows (walkPos rows.size hash d)).isEmpty = false := by
  have hlt := h.lt_size
  have hs : 0 < rows.size := by omega
  obtain ⟨i, hi, hw⟩ := exists_walkPos hash g (walkPos_lt hs hash d)
  rw [← hw]
  exact (h.round i hi).1

/-- Before it gets to row `g`, the scan for `hash` meets no row closer to its home than it has
come. -/
theorem le_of_dist_lt (h : JammedAt rows hash g)
    (hd : distAt rows (walkPos rows.size hash b) < b) : g ≤ b := by
  have hlt := h.lt_size
  rcases Nat.lt_or_ge b g with hbg | hgb
  · have hle := (h.round (b + rows.size - g) (by omega)).2
    rw [show g + (b + rows.size - g) = b + rows.size by omega, walkPos_add_size] at hle
    omega
  · exact hgb

end JammedAt

/-- A scan that goes a whole round without a tombstone to reuse meets a jam. -/
theorem Clear.jammedAt_zero (h : Clear rows hash rows.size) (hs : 0 < rows.size)
    (hr : Placement.scanReuse rows hash rows.size = none) : JammedAt rows hash 0 where
  lt_size := hs
  round := by
    intro d hd
    rw [Nat.zero_add]
    exact ⟨h.isEmpty_eq_false hd, h.le_distAt hd⟩
  firm := fun d hd ↦ absurd hd (Nat.not_lt_zero d)
  covered := fun d _ hd ht ↦ (Placement.scanReuse_eq_none_iff h).mp hr d hd ht

namespace Placement

variable {p q : Placement}

theorem HandsOver.covered (h : HandsOver rows hash b) (hd : d < b)
    (ht : (rowAt rows (walkPos rows.size hash d)).isTombstone = true) : Covered rows hash b d :=
  (scanReuse_eq_none_iff h.clear).mp h.reuse d hd ht

namespace Sweep

/-- The row in hand and the scan have come the same way, as far back as the home of the row. -/
theorem walkPos_sub (h : Sweep rows hash entry b k p) {i : Nat} (hi : i ≤ p.dist) :
    walkPos rows.size p.hash (p.dist - i) = walkPos rows.size hash (k - i) :=
  Index.walkPos_sub h.walkPos_dist hi (Nat.le_trans hi h.dist_le)

/-! ### Without a jam -/

/-- A walk laps only in a jam. -/
theorem jammedAt_of_lapped (h : Sweep rows hash entry b k p) (ho : HandsOver rows hash b)
    (hk : k ≤ b + rows.size) (hl : p.Lapped)
    (hfull : ∀ pos < rows.size, (rowAt rows pos).isEmpty = false) :
    JammedAt rows hash (k - rows.size) := by
  obtain ⟨hdist, hreuse⟩ := hl
  rw [h.size_eq] at hdist
  have hge := h.dist_le
  have hb := ho.lt_size
  have hs : 0 < rows.size := by omega
  refine ⟨by omega, fun d hd ↦ ⟨hfull _ (walkPos_lt hs hash _), ?_⟩, fun d hd ↦ ?_,
    fun d _ hd ht ↦ ?_⟩
  · have hback := h.back (k - rows.size + d) (by omega)
    omega
  · rw [← walkPos_add_size]
    exact h.spare hreuse (d + rows.size) (by omega) (by omega)
  · -- Past the row where the walk took over there is no tombstone; those before it are covered.
    rcases Nat.lt_trichotomy d b with hlt | heq | hgt
    · exact (ho.covered hlt ht).mono (Nat.le_of_lt hb)
    · have hdead := Row.isLive_of_isTombstone ht
      rw [heq, ho.isLive] at hdead
      cases hdead
    · have hno := h.spare hreuse d hgt (by omega)
      rw [ht] at hno
      cases hno

/-- Without a tombstone in its way, a walk that is back where it took over has passed live rows
only. -/
private theorem isLive_of_spare (h : Sweep rows hash entry b (b + rows.size) p)
    (ho : HandsOver rows hash b) (hr : p.reuse = none)
    (hfull : ∀ pos < rows.size, (rowAt rows pos).isEmpty = false) {pos : Nat}
    (hpos : pos < rows.size) : (rowAt rows pos).isLive = true := by
  obtain ⟨i, hi, rfl⟩ := exists_walkPos hash b hpos
  rcases Nat.eq_zero_or_pos i with rfl | hi0
  · exact ho.isLive
  · exact Row.isLive_iff.mpr ⟨hfull _ hpos, h.spare hr (b + i) (by omega) (by omega)⟩

/-- Back where it took over, a sound walk settles. -/
theorem not_onward_around (h : Sweep rows hash entry b (b + rows.size) p)
    (ho : HandsOver rows hash b) (hsound : p.Sound)
    (hfull : ∀ pos < rows.size, (rowAt rows pos).isEmpty = false)
    (hfree : (liveRows rows).length < rows.size) : ¬ ∃ q, p.step = .onward q := by
  rw [exists_onward_iff]
  rintro ⟨-, hgo⟩
  cases hr : p.reuse with
  | none =>
    obtain ⟨pos, hpos, hdead⟩ := exists_free_of_length_lt hfree
    rw [h.isLive_of_spare ho hr hfull hpos] at hdead
    cases hdead
  | some t =>
    have hb := ho.lt_size
    have hdist : p.dist ≤ b := by
      have hpos : p.pos = walkPos rows.size hash b := by rw [h.pos_eq, walkPos_add_size]
      have hface : distAt p.rows p.pos = b := by
        rw [distAt, h.size_eq, hpos, h.first, Row.hash_live, distance_walkPos hash hb]
      rw [hface, hr] at hgo
      rcases Nat.lt_or_ge b p.dist with hlt | hge
      · cases (hgo hlt).2
      · exact hge
    -- The remembered tombstone lies less than `b` rows back, where it was covered before the walk.
    obtain ⟨j, hbj, hj, ht, htomb, hsame⟩ := h.kept t hr
    obtain ⟨d, hd, htd, hpass⟩ := hsound.reuse t hr
    rw [h.size_eq] at htd hpass
    obtain ⟨i, hi⟩ : ∃ i, d = p.dist - i ∧ 0 < i ∧ i ≤ p.dist := ⟨p.dist - d, by omega⟩
    have hji : j = b + rows.size - i := by
      rw [hi.1, h.walkPos_sub hi.2.2] at htd
      exact eq_of_walkPos_eq (ht.symm.trans htd) (by omega) (by omega)
    have htomb' : (rowAt rows (walkPos rows.size hash (b - i))).isTombstone = true := by
      rw [← walkPos_add_size, show b - i + rows.size = j by omega]
      exact htomb
    obtain ⟨e, h1, h2, hl, hlt⟩ := ho.covered (by omega) htomb'
    have hrow := hsame (e + rows.size) (by omega) (by omega)
    have hback := h.walkPos_sub (i := b - e) (by omega)
    rw [show b + rows.size - (b - e) = e + rows.size by omega] at hback
    rw [walkPos_add_size] at hrow hback
    have hle := hpass (p.dist - (b - e)) (by omega) (by omega)
    rw [hback, distAt, h.size_eq, hrow] at hle
    have hle' := hle hl
    unfold distAt at hlt
    omega

end Sweep

/-- Without a jam, a walk that took over places its row, and the chains stay unbroken. -/
theorem HandsOver.exists_place? [WalkLimit] (h : HandsOver rows hash b) (hne : hash ≠ 0)
    (he : entry < Row.entryBound)
    (hfull : ∀ pos < rows.size, (rowAt rows pos).isEmpty = false)
    (hfree : (liveRows rows).length < rows.size) (hj : ¬ Jammed rows hash) :
    ∃ rows', place? rows hash entry (walkPos rows.size hash b) = some rows' ∧ Chained rows' := by
  have hb := h.lt_size
  have hrun (m : Nat) (hm : m ≤ rows.size) (q : Placement)
      (hr : Reaches (scan rows hash entry b) m q) : q.Sound ∧ ¬ q.Lapped := by
    induction m generalizing q with
    | zero =>
      rw [hr.unique (.refl _)]
      refine ⟨sound_scan h.chained (by omega) hne he h.clear, fun hlap ↦ ?_⟩
      have hround : b = rows.size := hlap.1
      omega
    | succ m ih =>
      cases hr with
      | onward hr hs =>
        obtain ⟨hsound, hlap⟩ := ih (by omega) _ hr
        refine ⟨hsound.onward hlap hs, fun hlap' ↦ hj ?_⟩
        have hsweep := h.sweep (by omega) (.onward hr hs)
        exact ⟨_, hsweep.jammedAt_of_lapped h (by omega) hlap' hfull⟩
  rcases settles_or_reaches (scan rows hash entry b) (rows.size + 1) with
    ⟨m, hm, q, rows', hr, hs, hsettle⟩ | ⟨q, hr⟩
  · obtain ⟨hsound, hlap⟩ := hrun m (Nat.le_of_lt_succ hm) q hr
    rw [← start_walkPos hb h.reuse] at hsettle
    exact ⟨rows', place?_of_settle? (Nat.le_refl _) hsettle, hsound.chained_settled hlap hs⟩
  · cases hr with
    | onward hr hs =>
      obtain ⟨m, hm⟩ : ∃ m, rows.size = m + 1 := ⟨rows.size - 1, by omega⟩
      have hsound := (hrun rows.size (Nat.le_refl _) _ hr).1
      rw [hm] at hr
      have hsweep := h.sweep (by omega) hr
      rw [← hm] at hsweep
      exact absurd ⟨_, hs⟩ (hsweep.not_onward_around h hsound hfull hfree)

end Placement

end Index

end RobinHood
