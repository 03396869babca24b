import RobinHood.Proofs.Index.Spot

/-!
# Walks that overrun

A displacement walk overruns if it has looked at each row once, and at its first row again, and has
still a row in hand. Whether it does can be read off the rows as they are before the walk: within
the first round each row is met unchanged, so how far the row in hand has come, and whether a
tombstone is remembered, follow from the distances of the rows already met. The one row met twice is
the first one.

A walk that overruns may settle later, or come back to where it was and never settle.
-/

namespace RobinHood

namespace Index

/-- How far the row in hand has come when a walk that began `d` rows from the home of `hash` has
looked at some rows: it is the row that comes farther, at every row that was met. -/
def carriedDist (rows : Index) (hash : UInt32) (d : Nat) : Nat → Nat
  | 0 => d
  | j + 1 =>
    min (carriedDist rows hash d j) (distAt rows (walkPos rows.size hash (d + j))) + 1

/-- Each tombstone among the first rows that such a walk meets is followed, among them, by a live
row that stands farther from its home than the row in hand has come there. -/
def Hidden (rows : Index) (hash : UInt32) (d j : Nat) : Prop :=
  ∀ i < j, (rowAt rows (walkPos rows.size hash (d + i))).isTombstone = true →
    ∃ k, i < k ∧ k < j ∧ (rowAt rows (walkPos rows.size hash (d + k))).isLive = true ∧
      carriedDist rows hash d k < distAt rows (walkPos rows.size hash (d + k))

/-- Nothing settles a walk that begins `d` rows from the home of `hash` in its first round or at the
row after it: no row is empty, and wherever a row is closer to its home than the row in hand, it is
live and no tombstone met before can be reused. The second look at the first row finds there
whichever of two rows is the farther from home: the one that stood there or the one that set out. -/
structure OverrunsAt (rows : Index) (hash : UInt32) (d : Nat) : Prop where
  full : ∀ j < rows.size, (rowAt rows (walkPos rows.size hash (d + j))).isEmpty = false
  onward : ∀ j < rows.size,
    distAt rows (walkPos rows.size hash (d + j)) < carriedDist rows hash d j →
      (rowAt rows (walkPos rows.size hash (d + j))).isLive = true ∧ Hidden rows hash d j
  around : max d (distAt rows (walkPos rows.size hash d)) < carriedDist rows hash d rows.size →
    Hidden rows hash d rows.size

/-- A walk that begins at `pos` is not over when it has looked at one row more than there are. -/
def Overruns (rows : Index) (hash : UInt32) (pos : Nat) : Prop :=
  OverrunsAt rows hash (distance rows.size hash pos)

namespace Placement

variable {rows : Index} {hash : UInt32} {d j n entry pos : Nat} {p q : Placement}

/-- Where a walk stands that has looked at some rows of its first round. -/
private structure Tracks (rows : Index) (hash : UInt32) (d entry j : Nat) (p : Placement) :
    Prop where
  size_eq : p.rows.size = rows.size
  pos_eq : p.pos = walkPos rows.size hash (d + j)
  dist_eq : p.dist = carriedDist rows hash d j
  reuse_eq : p.reuse = none ↔ Hidden rows hash d j
  ahead : ∀ i, j ≤ i → i < rows.size → rowAt p.rows (walkPos rows.size hash (d + i)) =
    rowAt rows (walkPos rows.size hash (d + i))
  first : 0 < j → rowAt p.rows (walkPos rows.size hash d) =
    if distAt rows (walkPos rows.size hash d) < d then Row.live hash entry
    else rowAt rows (walkPos rows.size hash d)

private theorem Tracks.facing_eq (h : Tracks rows hash d entry j p) (hj : j < rows.size) :
    p.facing = rowAt rows (walkPos rows.size hash (d + j)) := by
  rw [facing, h.pos_eq, h.ahead j (Nat.le_refl j) hj]

private theorem Tracks.distAt_eq (h : Tracks rows hash d entry j p) (hj : j < rows.size) :
    distAt p.rows p.pos = distAt rows (walkPos rows.size hash (d + j)) := by
  rw [distAt, h.size_eq, ← facing, h.facing_eq hj, h.pos_eq, distAt]

/-- After one row more, the tombstones met are hidden if that row is live and hides them, or leaves
them hidden. -/
private theorem hidden_succ_iff
    (he : (rowAt rows (walkPos rows.size hash (d + j))).isEmpty = false) :
    Hidden rows hash d (j + 1) ↔
      (rowAt rows (walkPos rows.size hash (d + j))).isTombstone = false ∧
        (carriedDist rows hash d j < distAt rows (walkPos rows.size hash (d + j)) ∨
          Hidden rows hash d j) := by
  constructor
  · intro h
    have htomb : (rowAt rows (walkPos rows.size hash (d + j))).isTombstone = false := by
      rw [← Bool.not_eq_true]
      intro ht
      obtain ⟨k, h1, h2, -⟩ := h j (Nat.lt_succ_self j) ht
      omega
    refine ⟨htomb, ?_⟩
    rcases Nat.lt_or_ge (carriedDist rows hash d j)
      (distAt rows (walkPos rows.size hash (d + j))) with hlt | hge
    · exact .inl hlt
    · refine .inr fun i hi ht ↦ ?_
      obtain ⟨k, hik, hk, hlive, hlt⟩ := h i (by omega) ht
      have hne : k ≠ j := by
        rintro rfl
        omega
      exact ⟨k, hik, by omega, hlive, hlt⟩
  · rintro ⟨htomb, hor⟩ i hi ht
    have hne : i ≠ j := by
      rintro rfl
      rw [htomb] at ht
      cases ht
    rcases hor with hlt | h
    · exact ⟨j, by omega, Nat.lt_succ_self j, Row.isLive_iff.mpr ⟨he, htomb⟩, hlt⟩
    · obtain ⟨k, hik, hk, hlive, hlt⟩ := h i (by omega) ht
      exact ⟨k, hik, by omega, hlive, hlt⟩

private theorem Tracks.pass (h : Tracks rows hash d entry j p) (hj : j < rows.size)
    (he : p.facing.isEmpty = false) (hd : p.dist ≤ distAt p.rows p.pos) :
    Tracks rows hash d entry (j + 1) p.pass := by
  have hface := h.facing_eq hj
  have hdist := h.distAt_eq hj
  refine ⟨h.size_eq, ?_, ?_, ?_, fun i hi ↦ h.ahead i (by omega), fun _ ↦ ?_⟩
  · rw [Placement.pass, h.size_eq, h.pos_eq, next_walkPos, Nat.add_assoc]
  · rw [h.dist_eq, hdist] at hd
    rw [Placement.pass, h.dist_eq, carriedDist, Nat.min_eq_left hd]
  · rw [hface] at he
    rw [reuse_pass_eq_none_iff, hidden_succ_iff he, hface, h.dist_eq, hdist, h.reuse_eq]
  · rcases Nat.eq_zero_or_pos j with rfl | hpos
    · rw [h.dist_eq, hdist, carriedDist] at hd
      have hrow := h.ahead 0 (Nat.le_refl 0) hj
      rw [Nat.add_zero] at hd hrow
      rw [if_neg (Nat.not_lt.mpr hd)]
      exact hrow
    · exact h.first hpos

private theorem Tracks.swap (h : Tracks rows hash d entry j p) (hj : j < rows.size)
    (hin : j = 0 → p.inHand = Row.live hash entry) (hl : p.facing.isLive = true)
    (hd : distAt p.rows p.pos < p.dist) (hr : p.reuse = none) :
    Tracks rows hash d entry (j + 1) p.swap := by
  have hface := h.facing_eq hj
  have hdist := h.distAt_eq hj
  have hlive := Row.isLive_iff.mp hl
  refine ⟨?_, ?_, ?_, ?_, fun i hi hlt ↦ ?_, fun _ ↦ ?_⟩
  · rw [Placement.swap, putDown, size_set, h.size_eq]
  · rw [Placement.swap, h.size_eq, h.pos_eq, next_walkPos, Nat.add_assoc]
  · rw [Placement.swap, carriedDist, hdist]
    rw [h.dist_eq, hdist] at hd
    rw [Nat.min_eq_right (Nat.le_of_lt hd)]
  · rw [hface] at hlive
    rw [hidden_succ_iff hlive.1]
    exact ⟨fun _ ↦ ⟨hlive.2, .inr (h.reuse_eq.mp hr)⟩, fun _ ↦ rfl⟩
  · have hne : p.pos ≠ walkPos rows.size hash (d + i) := by
      rw [h.pos_eq]
      exact walkPos_ne hash (by omega) (by omega)
    rw [Placement.swap, putDown, rowAt_set_ne p.rows hne, h.ahead i (by omega) hlt]
  · rcases Nat.eq_zero_or_pos j with rfl | hpos
    · have hp := h.pos_eq
      rw [h.dist_eq, hdist, carriedDist] at hd
      rw [Nat.add_zero] at hd hp
      rw [if_pos hd, ← hp, ← hin rfl]
      exact rowAt_set_self (lt_size_of_isLive hl) _
    · have hne : p.pos ≠ walkPos rows.size hash d := by
        rw [h.pos_eq]
        exact (walkPos_ne hash (by omega) (by omega)).symm
      rw [Placement.swap, putDown, rowAt_set_ne p.rows hne]
      exact h.first hpos

private theorem tracks_start (hpos : pos < rows.size) :
    Tracks rows hash (distance rows.size hash pos) entry 0 (start rows hash entry pos) where
  size_eq := rfl
  pos_eq := by rw [Nat.add_zero, walkPos_distance hash hpos, start]
  dist_eq := rfl
  reuse_eq := ⟨fun _ i hi ↦ absurd hi (Nat.not_lt_zero i), fun _ ↦ rfl⟩
  ahead := fun _ _ _ ↦ rfl
  first := fun h ↦ absurd h (Nat.lt_irrefl 0)

private theorem tracks_of_reaches (hpos : pos < rows.size) (hj : j ≤ rows.size)
    (hr : Reaches (start rows hash entry pos) j q) :
    Tracks rows hash (distance rows.size hash pos) entry j q := by
  induction j generalizing q with
  | zero =>
    rw [hr.unique (.refl _)]
    exact tracks_start hpos
  | succ j ih =>
    cases hr with
    | @onward _ p _ hr hs =>
      have ht := ih (by omega) hr
      obtain ⟨he, ⟨hd, rfl⟩ | ⟨hd, hl, hreuse, rfl⟩⟩ := step_onward hs
      · exact ht.pass hj he hd
      · refine ht.swap hj ?_ hl hd hreuse
        rintro rfl
        rw [hr.unique (.refl _)]
        rfl

/-- Within the first round, a walk goes on at a row exactly if that row as it was lets it. -/
private theorem Tracks.exists_onward_iff (h : Tracks rows hash d entry j p) (hj : j < rows.size) :
    (∃ q, p.step = .onward q) ↔
      (rowAt rows (walkPos rows.size hash (d + j))).isEmpty = false ∧
        (distAt rows (walkPos rows.size hash (d + j)) < carriedDist rows hash d j →
          (rowAt rows (walkPos rows.size hash (d + j))).isLive = true ∧ Hidden rows hash d j) := by
  rw [Placement.exists_onward_iff, h.facing_eq hj, h.distAt_eq hj, h.dist_eq, h.reuse_eq]

/-- Back at its first row, a walk goes on unless it can reuse a tombstone there. -/
private theorem Tracks.exists_onward_around_iff (h : Tracks rows hash d entry rows.size p)
    (hd : d < rows.size) (hne : hash ≠ 0)
    (hl : (rowAt rows (walkPos rows.size hash d)).isLive = true) :
    (∃ q, p.step = .onward q) ↔
      (max d (distAt rows (walkPos rows.size hash d)) < carriedDist rows hash d rows.size →
        Hidden rows hash d rows.size) := by
  have hpos : p.pos = walkPos rows.size hash d := by rw [h.pos_eq, walkPos_add_size]
  have hfirst := h.first (by omega)
  rw [← hpos, ← facing] at hfirst
  have hlive : p.facing.isLive = true := by
    rw [hfirst]
    split
    · exact Row.isLive_live hne entry
    · rwa [hpos]
  have hdist : distAt p.rows p.pos = max d (distAt rows (walkPos rows.size hash d)) := by
    rw [distAt, ← facing, hfirst, h.size_eq, ← hpos]
    split
    · next hlt =>
      rw [Row.hash_live, Nat.max_eq_left (Nat.le_of_lt hlt), hpos, distance_walkPos hash hd]
    · next hge => rw [Nat.max_eq_right (Nat.not_lt.mp hge), distAt]
  rw [Placement.exists_onward_iff, hdist, h.dist_eq, h.reuse_eq]
  constructor
  · rintro ⟨-, hgo⟩ hlt
    exact (hgo hlt).2
  · intro hgo
    exact ⟨(Row.isLive_iff.mp hlive).1, fun hlt ↦ ⟨hlive, hgo hlt⟩⟩

end Placement

open Placement

variable {rows : Index} {hash : UInt32} {pos : Nat}

/-- Whether a walk that begins at a live row overruns can be told from the rows. -/
theorem settle?_eq_none_iff_overruns (entry : Nat) (hne : hash ≠ 0)
    (hl : (rowAt rows pos).isLive = true) :
    (start rows hash entry pos).settle? (rows.size + 1) = none ↔ Overruns rows hash pos := by
  have hpos := lt_size_of_isLive hl
  have hs : 0 < rows.size := by omega
  have hd := distance_lt hs hash pos
  have hw : walkPos rows.size hash (distance rows.size hash pos) = pos := walkPos_distance hash hpos
  have hl' := hl
  rw [← hw] at hl'
  rw [settle?_eq_none_iff]
  constructor
  · rintro ⟨q, hr⟩
    -- The run goes on at each row of the first round, and once more at the first row.
    have hgo (j : Nat) (hj : j ≤ rows.size) : ∃ p, (∃ r, p.step = .onward r) ∧
        Tracks rows hash (distance rows.size hash pos) entry j p := by
      obtain ⟨p, r, hp, hs'⟩ := hr.exists_onward (m := j) (by omega)
      exact ⟨p, ⟨r, hs'⟩, tracks_of_reaches hpos hj hp⟩
    refine ⟨fun j hj ↦ ?_, fun j hj ↦ ?_, ?_⟩
    · obtain ⟨p, hs', ht⟩ := hgo j (Nat.le_of_lt hj)
      exact ((ht.exists_onward_iff hj).mp hs').1
    · obtain ⟨p, hs', ht⟩ := hgo j (Nat.le_of_lt hj)
      exact ((ht.exists_onward_iff hj).mp hs').2
    · obtain ⟨p, hs', ht⟩ := hgo rows.size (Nat.le_refl _)
      exact (ht.exists_onward_around_iff hd hne hl').mp hs'
  · intro h
    have hround (j : Nat) (hj : j ≤ rows.size) : ∃ q, Reaches (start rows hash entry pos) j q := by
      induction j with
      | zero => exact ⟨_, .refl _⟩
      | succ j ih =>
        obtain ⟨p, hp⟩ := ih (by omega)
        have ht := tracks_of_reaches hpos (by omega) hp
        obtain ⟨q, hs'⟩ := (ht.exists_onward_iff hj).mpr ⟨h.full j hj, h.onward j hj⟩
        exact ⟨q, .onward hp hs'⟩
    obtain ⟨p, hp⟩ := hround rows.size (Nat.le_refl _)
    have ht := tracks_of_reaches hpos (Nat.le_refl _) hp
    obtain ⟨q, hs'⟩ := (ht.exists_onward_around_iff hd hne hl').mpr h.around
    exact ⟨q, .onward hp hs'⟩

/-- Under the least limit, a placement is given up exactly if its walk overruns. -/
theorem place?_eq_none_iff (entry : Nat) (hne : hash ≠ 0) (hl : (rowAt rows pos).isLive = true) :
    place? rows hash entry pos = none ↔ Overruns rows hash pos :=
  settle?_eq_none_iff_overruns entry hne hl

/-- Whatever the limit, a placement is given up only if its walk overruns. -/
theorem overruns_of_place?_eq_none [WalkLimit] {entry : Nat} (hne : hash ≠ 0)
    (hl : (rowAt rows pos).isLive = true) (h : place? rows hash entry pos = none) :
    Overruns rows hash pos := by
  rw [← settle?_eq_none_iff_overruns entry hne hl]
  cases hs : (start rows hash entry pos).settle? (rows.size + 1) with
  | none => rfl
  | some rows' =>
    rw [place?_of_settle? (Nat.le_refl _) hs] at h
    cases h

/-- A walk does not overrun in an index with an empty row. -/
theorem not_overruns_of_isEmpty {empty : Nat} (hempty : empty < rows.size)
    (he : (rowAt rows empty).isEmpty = true) : ¬ Overruns rows hash pos := by
  intro h
  obtain ⟨j, hj, hw⟩ := exists_walkPos hash (distance rows.size hash pos) hempty
  have hfull := h.full j hj
  rw [hw, he] at hfull
  cases hfull

end Index

end RobinHood
