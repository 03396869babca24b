import RobinHood.Proofs.Index.Displacement
import RobinHood.Proofs.Index.Lookup

/-!
# Where an insertion goes

The walk of an insertion for an absent key is the beginning of a displacement walk: up to the row
that ends it, both pass the same rows and remember the same tombstone. `scan` is that common
part. It ends at a free row, or where the displacement walk takes over and starts anew from the
row it was handed.
-/

namespace RobinHood

namespace Index

namespace Placement

/-- The tombstone that a walk for `hash` remembers after passing `d` rows. -/
def scanReuse (rows : Index) (hash : UInt32) : Nat → Option Nat
  | 0 => none
  | d + 1 =>
    let pos := walkPos rows.size hash d
    reusable rows.size (rowAt rows pos) pos d (scanReuse rows hash d)

/-- The walk from home with a new row in hand, after passing `d` rows. -/
def scan (rows : Index) (hash : UInt32) (entry d : Nat) : Placement :=
  ⟨rows, hash, entry, walkPos rows.size hash d, d, scanReuse rows hash d⟩

variable {rows : Index} {hash : UInt32} {entry d n : Nat}

theorem pass_scan : (scan rows hash entry d).pass = scan rows hash entry (d + 1) := by
  unfold scan pass
  rw [next_walkPos]
  rfl

/-- A walk that nothing stopped has passed one row after the other. -/
theorem reaches_scan (h : Clear rows hash n) :
    Reaches (scan rows hash entry 0) n (scan rows hash entry n) := by
  induction n with
  | zero => exact .refl _
  | succ n ih =>
    have he := h.isEmpty_eq_false (Nat.lt_succ_self n)
    have hd := h.le_distAt (Nat.lt_succ_self n)
    have hs := step_of_le (p := scan rows hash entry n) he hd
    rw [pass_scan] at hs
    exact .onward (ih (h.mono (Nat.le_succ n))) hs

/-- Walks begin at home. -/
theorem start_home (hs : 0 < rows.size) :
    start rows hash entry (home rows.size hash) = scan rows hash entry 0 := by
  rw [start, scan, distance_home hs, walkPos_zero hs]
  rfl

/-- A displacement walk that is handed a row goes on where the scan for it ended. -/
theorem start_walkPos (hn : n < rows.size) (hr : scanReuse rows hash n = none) :
    start rows hash entry (walkPos rows.size hash n) = scan rows hash entry n := by
  rw [start, scan, distance_walkPos hash hn, hr]

/-- A displacement walk that is handed a row a full round from home starts from home. -/
theorem start_walkPos_size (hs : 0 < rows.size) :
    start rows hash entry (walkPos rows.size hash rows.size) = scan rows hash entry 0 := by
  have hw : walkPos rows.size hash rows.size = home rows.size hash := by
    have hround : walkPos rows.size hash (0 + rows.size) = walkPos rows.size hash 0 :=
      walkPos_add_size hash 0
    rwa [Nat.zero_add, walkPos_zero hs] at hround
  rw [hw, start_home hs]

theorem valid_scan_zero (hs : 0 < rows.size) (hne : hash ≠ 0) (he : entry < Row.entryBound) :
    (scan rows hash entry 0).Valid :=
  ⟨walkPos_lt hs hash 0, hne, he, fun t ht ↦ by cases ht⟩

theorem valid_start {pos : Nat} (hpos : pos < rows.size) (hne : hash ≠ 0)
    (he : entry < Row.entryBound) : (start rows hash entry pos).Valid :=
  ⟨hpos, hne, he, fun t ht ↦ by cases ht⟩

end Placement

open Placement

variable {rows : Index} {hash : UInt32} {holds : Nat → Bool} {entry d n pos : Nat}

/-- An insertion finds its key stored exactly where a lookup does. -/
theorem findSpot_eq_held_iff : findSpot rows hash holds = .held entry ↔
    ∃ pos, find? rows hash holds = some pos ∧ (rowAt rows pos).entry = entry := by
  unfold findSpot find?
  generalize (none : Option Nat) = reuse
  generalize 0 = d
  fun_induction findSpotFrom rows hash holds d reuse with
  | case1 d reuse at' row hm =>
    unfold findFrom
    rw [if_pos hm]
    simp [at', row]
  | case2 d reuse at' row hm he =>
    have hb : bars rows.size row at' d = true := by simp [bars, he]
    unfold findFrom
    rw [if_neg hm, dif_pos hb]
    simp
  | case3 d reuse at' row hm he reuse' hb free hf =>
    unfold findFrom
    rw [if_neg hm, dif_pos hb]
    simp
  | case4 d reuse at' row hm he reuse' hb hf =>
    unfold findFrom
    rw [if_neg hm, dif_pos hb]
    simp
  | case5 d reuse at' row hm he reuse' hb ih =>
    rw [ih]
    conv => rhs; unfold findFrom
    rw [if_neg hm, dif_neg hb]

/-- Where the scan for an absent key ends: at a row to settle in, or at a live row closer to its
home, without a tombstone to reuse. -/
structure Ends (rows : Index) (hash : UInt32) (entry n : Nat) (spot : Spot) : Prop where
  clear : Clear rows hash n
  ends : spot = .vacant (scan rows hash entry n).target ∧
      (scan rows hash entry n).step =
        .settled (rows.setIfInBounds (scan rows hash entry n).target (Row.live hash entry)) ∨
    spot = .taken (walkPos rows.size hash n) ∧ scanReuse rows hash n = none ∧
      (rowAt rows (walkPos rows.size hash n)).isLive = true ∧
      distAt rows (walkPos rows.size hash n) < n

private theorem lt_of_bars {size : Nat} {row : Row} (hb : bars size row pos d = true)
    (he : ¬ row.isEmpty = true) : distance size row.hash pos < d := by
  unfold bars at hb
  simpa [he] using hb

private theorem reusable_of_lt {size : Nat} {row : Row} {reuse : Option Nat}
    (hd : distance size row.hash pos < d) : reusable size row pos d reuse =
      if row.isTombstone then some (reuse.getD pos) else reuse := by
  have hn : ¬ d < distance size row.hash pos := by omega
  rw [reusable, if_neg hn]

private theorem findSpotFrom_ends (hclear : Clear rows hash d)
    (habsent : ∀ e, findSpotFrom rows hash holds d (scanReuse rows hash d) ≠ .held e) :
    ∃ n, Ends rows hash entry n (findSpotFrom rows hash holds d (scanReuse rows hash d)) := by
  generalize hr : scanReuse rows hash d = reuse at habsent ⊢
  fun_induction findSpotFrom rows hash holds d reuse with
  | case1 d reuse at' row hm => exact absurd rfl (habsent _)
  | case2 d reuse at' row hm he =>
    subst hr
    exact ⟨d, hclear, .inl ⟨rfl, step_of_isEmpty he⟩⟩
  | case3 d reuse at' row hm he reuse' hb free hf =>
    subst hr
    have hd := lt_of_bars hb he
    have hs : row.isTombstone = true ∨ (scanReuse rows hash d).isSome = true := by
      by_cases ht : row.isTombstone = true
      · exact .inl ht
      · rw [show reuse' = _ from reusable_of_lt hd, if_neg ht] at hf
        exact .inr (by rw [hf]; rfl)
    have htarget : (scan rows hash entry d).target = free := by
      rw [show reuse' = _ from reusable_of_lt hd] at hf
      split at hf
      · exact Option.some.inj hf
      · rw [target, show (scan rows hash entry d).reuse = some free from hf, Option.getD_some]
    refine ⟨d, hclear, .inl ⟨by rw [htarget], ?_⟩⟩
    exact step_of_reusable (p := scan rows hash entry d) hd hs
  | case4 d reuse at' row hm he reuse' hb hf =>
    subst hr
    have hd := lt_of_bars hb he
    rw [show reuse' = _ from reusable_of_lt hd] at hf
    split at hf
    · cases hf
    · next ht =>
      have hl : row.isLive = true := by simp [Row.isLive, he, ht]
      exact ⟨d, hclear, .inr ⟨rfl, hf, hl, hd⟩⟩
  | case5 d reuse at' row hm he reuse' hb ih =>
    subst hr
    exact ih (hclear.succ (Bool.eq_false_iff.mpr hb)) rfl habsent

/-- The scan for an absent key ends after some rows. -/
theorem findSpot_ends (entry : Nat) (habsent : ∀ e, findSpot rows hash holds ≠ .held e) :
    ∃ n, Ends rows hash entry n (findSpot rows hash holds) :=
  findSpotFrom_ends (d := 0) (fun d hd ↦ absurd hd (Nat.not_lt_zero d)) habsent

/-- An insertion takes over a row only from a live one. -/
theorem isLive_of_findSpot_eq_taken (h : findSpot rows hash holds = .taken pos) :
    (rowAt rows pos).isLive = true := by
  have habsent : ∀ e, findSpot rows hash holds ≠ .held e := by
    intro e hheld
    rw [h] at hheld
    cases hheld
  obtain ⟨n, hends⟩ := findSpot_ends 0 habsent
  rcases hends.ends with ⟨hvacant, -⟩ | ⟨htaken, -, hl, -⟩
  · rw [h] at hvacant
    cases hvacant
  · rw [h] at htaken
    cases htaken
    exact hl

/-- What becomes of putting a live row where the spot for its key is. -/
def Spot.fill [WalkLimit] (rows : Index) (hash : UInt32) (entry : Nat) :
    Spot → Placement.Outcome
  | .held _ => .settled rows
  | .vacant pos => .settled (rows.setIfInBounds pos (Row.live hash entry))
  | .taken pos => place rows hash entry pos

/-- The rows with a live row put where the spot for its key is; none if its walk is given up. -/
def Spot.fill? [WalkLimit] (rows : Index) (hash : UInt32) (entry : Nat) (spot : Spot) :
    Option Index :=
  (spot.fill rows hash entry).rows?

theorem Spot.fill?_taken [WalkLimit] (rows : Index) (hash : UInt32) (entry pos : Nat) :
    (Spot.taken pos).fill? rows hash entry = place? rows hash entry pos := rfl

theorem Spot.fill?_eq_some_iff [WalkLimit] {spot : Spot} {rows' : Index} :
    spot.fill? rows hash entry = some rows' ↔ spot.fill rows hash entry = .settled rows' :=
  Outcome.rows?_eq_some_iff

/-- Filling a spot does not change the number of rows. -/
theorem Spot.size_fill? [WalkLimit] {spot : Spot} {rows' : Index}
    (h : spot.fill? rows hash entry = some rows') : rows'.size = rows.size := by
  cases spot with
  | held =>
    cases h
    rfl
  | vacant pos =>
    cases h
    exact size_set ..
  | taken pos => exact Valid.size_settle? h

namespace Ends

variable {spot : Spot} {rows' : Index}

/-- However it is found, the spot for an absent key is filled by a displacement walk. -/
theorem exists_settle? [WalkLimit] (h : Ends rows hash entry n spot) (hs : 0 < rows.size)
    (hne : hash ≠ 0) (he : entry < Row.entryBound) :
    ∃ (p : Placement) (limit : Nat), p.Valid ∧ p.rows = rows ∧ p.hash = hash ∧ p.entry = entry ∧
      spot.fill? rows hash entry = p.settle? limit := by
  rcases h.ends with ⟨rfl, hstep⟩ | ⟨rfl, -⟩
  · refine ⟨scan rows hash entry 0, n + 1, valid_scan_zero hs hne he, rfl, rfl, rfl, ?_⟩
    exact ((reaches_scan h.clear).settle?_of_settled hstep (Nat.lt_succ_self n)).symm
  · exact ⟨start rows hash entry (walkPos rows.size hash n), WalkLimit.limit rows.size,
      valid_start (walkPos_lt hs hash n) hne he, rfl, rfl, rfl, rfl⟩

/-- Filling a spot adds the new row to the live rows and loses none. -/
theorem liveRows_fill? [WalkLimit] (h : Ends rows hash entry n spot) (hs : 0 < rows.size)
    (hne : hash ≠ 0) (he : entry < Row.entryBound) (hf : spot.fill? rows hash entry = some rows') :
    (liveRows rows').Perm (Row.live hash entry :: liveRows rows) := by
  obtain ⟨p, limit, hv, rfl, rfl, rfl, hfill⟩ := h.exists_settle? hs hne he
  rw [hfill] at hf
  exact hv.liveRows_settle? hf

/-- In a chained index with an empty row, the spot for an absent key is filled, and the index stays
chained. -/
theorem chained_fill? [WalkLimit] (h : Ends rows hash entry n spot) (hc : Chained rows)
    (hne : hash ≠ 0) (he : entry < Row.entryBound)
    (hempty : ∃ pos < rows.size, (rowAt rows pos).isEmpty = true) :
    ∃ rows', spot.fill? rows hash entry = some rows' ∧ Chained rows' := by
  have hs : 0 < rows.size := by
    obtain ⟨pos, hpos, -⟩ := hempty
    omega
  have hsound : (scan rows hash entry 0).Sound := by
    rw [← start_home hs]
    exact sound_start hc hs hne he
  obtain ⟨rows', hsettle, hchained⟩ := hsound.settles_of_exists_isEmpty hempty
  have hreach : Reaches (scan rows hash entry 0) n (scan rows hash entry n) :=
    reaches_scan h.clear
  refine ⟨rows', ?_, hchained⟩
  rcases h.ends with ⟨rfl, hstep⟩ | ⟨rfl, hreuse, -⟩
  · have hnow := hreach.settle?_of_settled hstep (Nat.lt_succ_self n)
    have hlate := settle?_mono (Nat.le_max_left rows.size (n + 1)) hsettle
    rw [settle?_mono (Nat.le_max_right rows.size (n + 1)) hnow] at hlate
    exact hlate
  · -- The empty row stops the scan before it has gone a full round.
    have hn : n < rows.size := by
      obtain ⟨pos, hpos, hem⟩ := hempty
      obtain ⟨i, hi, hw⟩ := exists_walkPos hash 0 hpos
      rw [Nat.zero_add] at hw
      by_cases hlt : i < n
      · have hno := h.clear.isEmpty_eq_false hlt
        rw [hw, hem] at hno
        cases hno
      · omega
    have hlate := settle?_mono (Nat.le_add_left rows.size n) hsettle
    rw [hreach.settle?_add, ← start_walkPos hn hreuse] at hlate
    exact place?_of_settle? (Nat.le_succ rows.size) hlate

end Ends

end Index

end RobinHood
