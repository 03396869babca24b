import Mathlib.Data.Finset.Card
import Mathlib.Order.Interval.Finset.Nat
import RobinHood.Proofs.Index.Pristine

/-!
# Where rows stand without tombstones

Count the live rows whose homes lie on a stretch of rows that ends at some position or before it. If
they are more than the stretch has rows in front of the position, one of them was pushed up to
the position or past it, so no walk from that far back is stopped there. Without tombstones and
with an empty row somewhere the converse holds too: the rows from the last empty row up to the
position are such a stretch. Counting homes says nothing about which row stands where, so how
far from home the rows stand depends on the hashes alone.
-/

namespace RobinHood

namespace Index

/-- The hashes of the live rows, in order of position. -/
def hashes (rows : Index) : List UInt32 := (liveRows rows).map Row.hash

/-- How many of the given hashes have their home at least `near` and at most `far` rows before
`pos`, among `size` rows. -/
def homesBefore (size : Nat) (hashes : List UInt32) (pos near far : Nat) : Nat :=
  hashes.countP fun hash ↦
    decide (near ≤ distance size hash pos) && decide (distance size hash pos ≤ far)

/-- The positions of the live rows that have their home at least `near` and at most `far` rows
before `pos`. -/
def comers (rows : Index) (pos near far : Nat) : Finset Nat :=
  {q ∈ Finset.range rows.size | (rowAt rows q).isLive = true ∧
    near ≤ distance rows.size (rowAt rows q).hash pos ∧
      distance rows.size (rowAt rows q).hash pos ≤ far}

variable {rows rows' : Index} {pos d near far : Nat}

theorem mem_comers_iff {q : Nat} : q ∈ comers rows pos near far ↔
    (rowAt rows q).isLive = true ∧ near ≤ distance rows.size (rowAt rows q).hash pos ∧
      distance rows.size (rowAt rows q).hash pos ≤ far := by
  simp only [comers, Finset.mem_filter, Finset.mem_range, and_iff_right_iff_imp]
  exact fun h ↦ lt_size_of_isLive h.1

/-- Homes are counted by the positions of the live rows that have them. -/
theorem homesBefore_hashes (rows : Index) (pos near far : Nat) :
    homesBefore rows.size (hashes rows) pos near far = (comers rows pos near far).card := by
  unfold homesBefore hashes liveRows comers
  rw [toList_eq_map_rowAt, List.filter_map, List.map_map, List.countP_map, List.countP_filter,
    List.countP_eq_length_filter, ← List.toFinset_card_of_nodup (List.nodup_range.filter _)]
  congr 1
  ext q
  simp [and_comm]

/-- A row lets pass each walk that has come no farther than one that it lets pass. -/
theorem bars_eq_false_of_le {size e : Nat} {row : Row} (h : bars size row pos e = false)
    (hd : d ≤ e) : bars size row pos d = false := by
  rw [bars_eq_false_iff] at h ⊢
  exact ⟨h.1, Nat.le_trans hd h.2⟩

/-- Rows that stand as far before a position as each other are one row. -/
private theorem eq_of_sub_distAt_eq {q q' : Nat} (hpos : pos < rows.size) (hq : q < rows.size)
    (hq' : q' < rows.size) (hle : distAt rows q ≤ distance rows.size (rowAt rows q).hash pos)
    (hle' : distAt rows q' ≤ distance rows.size (rowAt rows q').hash pos)
    (h : distance rows.size (rowAt rows q).hash pos - distAt rows q =
      distance rows.size (rowAt rows q').hash pos - distAt rows q') : q = q' := by
  have hmeet : walkPos rows.size (rowAt rows q).hash (distance rows.size (rowAt rows q).hash pos) =
      walkPos rows.size (rowAt rows q').hash (distance rows.size (rowAt rows q').hash pos) := by
    rw [walkPos_distance _ hpos, walkPos_distance _ hpos]
  have hback := walkPos_sub hmeet (Nat.sub_le _ (distAt rows q)) (by rw [h]; exact Nat.sub_le _ _)
  rw [Nat.sub_sub_self hle, h, Nat.sub_sub_self hle', walkPos_distAt hq,
    walkPos_distAt hq'] at hback
  exact hback

/-- Where more rows have their homes on a stretch than it has rows before the position, one of them
has come as far as the position. -/
theorem Chained.bars_eq_false_of_crowded (hc : Chained rows) (hpos : pos < rows.size)
    (h : far < homesBefore rows.size (hashes rows) pos d far) :
    bars rows.size (rowAt rows pos) pos d = false := by
  by_contra hbars
  -- Otherwise each of them stands before the position, as no two others do.
  have hshort : ∀ q ∈ comers rows pos d far,
      distAt rows q < distance rows.size (rowAt rows q).hash pos := by
    intro q hq
    obtain ⟨hl, hd, -⟩ := mem_comers_iff.mp hq
    by_contra hfar
    have hpass := hc q hl _ (Nat.lt_succ_of_le (Nat.not_lt.mp hfar))
    rw [walkPos_distance _ hpos] at hpass
    exact hbars (bars_eq_false_of_le hpass hd)
  have hcard : (comers rows pos d far).card ≤ (Finset.Icc 1 far).card := by
    apply Finset.card_le_card_of_injOn
      fun q ↦ distance rows.size (rowAt rows q).hash pos - distAt rows q
    · intro q hq
      have hlt := hshort q hq
      obtain ⟨-, -, hle⟩ := mem_comers_iff.mp hq
      simp only [Finset.coe_Icc, Set.mem_Icc]
      omega
    · intro q hq q' hq' heq
      have hl := (mem_comers_iff.mp hq).1
      have hl' := (mem_comers_iff.mp hq').1
      exact eq_of_sub_distAt_eq hpos (lt_size_of_isLive hl) (lt_size_of_isLive hl')
        (Nat.le_of_lt (hshort q hq)) (Nat.le_of_lt (hshort q' hq')) heq
  rw [← homesBefore_hashes, Nat.card_Icc, Nat.add_sub_cancel] at hcard
  omega

/-- Going back from a live row, one first meets live rows and then an empty one. -/
private theorem Pristine.exists_run (hp : Pristine rows)
    (he : ∃ q < rows.size, (rowAt rows q).isEmpty = true)
    (hl : (rowAt rows pos).isLive = true) {hash : UInt32} {n : Nat}
    (hn : walkPos rows.size hash n = pos) (hsize : rows.size ≤ n) :
    ∃ far < rows.size, (rowAt rows (walkPos rows.size hash (n - (far + 1)))).isEmpty = true ∧
      ∀ k ≤ far, (rowAt rows (walkPos rows.size hash (n - k))).isLive = true := by
  have hback : ∃ k < rows.size, (rowAt rows (walkPos rows.size hash (n - k))).isEmpty = true := by
    obtain ⟨q, hq, hempty⟩ := he
    obtain ⟨i, hi, hw⟩ := exists_walkPos hash (n + 1 - rows.size) hq
    refine ⟨rows.size - 1 - i, by omega, ?_⟩
    rwa [show n - (rows.size - 1 - i) = n + 1 - rows.size + i by omega, hw]
  classical
  have hfirst := Nat.find_spec hback
  have hbefore (k : Nat) (hk : k < Nat.find hback) := Nat.find_min hback hk
  generalize Nat.find hback = first at hfirst hbefore
  cases first with
  | zero =>
    rw [Nat.sub_zero, hn] at hfirst
    rw [Row.isLive_of_isEmpty hfirst.2] at hl
    cases hl
  | succ far =>
    refine ⟨far, Nat.lt_of_succ_lt hfirst.1, hfirst.2, fun k hk ↦ ?_⟩
    have hfull : (rowAt rows (walkPos rows.size hash (n - k))).isEmpty = false := by
      rw [← Bool.not_eq_true]
      exact fun hempty ↦ hbefore k (Nat.lt_succ_of_le hk) ⟨by omega, hempty⟩
    exact Row.isLive_iff.mpr ⟨hfull, hp _⟩

/-- A row that stands `k` rows before a position has come that much less than the way from its home
to the position. -/
private theorem distance_of_before {hash : UInt32} {n k : Nat} (hk : k ≤ n)
    (hn : walkPos rows.size hash n = pos)
    (hlt : distAt rows (walkPos rows.size hash (n - k)) + k < rows.size) :
    distance rows.size (rowAt rows (walkPos rows.size hash (n - k))).hash pos =
      distAt rows (walkPos rows.size hash (n - k)) + k := by
  have hstands : walkPos rows.size (rowAt rows (walkPos rows.size hash (n - k))).hash
      (distAt rows (walkPos rows.size hash (n - k))) = walkPos rows.size hash (n - k) :=
    walkPos_distAt (walkPos_lt (Nat.zero_lt_of_lt hlt) hash (n - k))
  have hon := walkPos_add hstands k
  rw [Nat.sub_add_cancel hk, hn] at hon
  have hcome := distance_walkPos (rowAt rows (walkPos rows.size hash (n - k))).hash hlt
  rwa [hon] at hcome

/-- Without tombstones, and with an empty row somewhere, the rows up to a position that a walk
passes are crowded. -/
theorem Chained.exists_crowded (hc : Chained rows) (hp : Pristine rows)
    (he : ∃ q < rows.size, (rowAt rows q).isEmpty = true)
    (h : bars rows.size (rowAt rows pos) pos d = false) :
    ∃ far < rows.size, far < homesBefore rows.size (hashes rows) pos d far := by
  obtain ⟨hfull, hd : d ≤ distAt rows pos⟩ := bars_eq_false_iff.mp h
  have hl : (rowAt rows pos).isLive = true := Row.isLive_iff.mpr ⟨hfull, hp pos⟩
  -- Steps are counted in the walk from the row's home, a round ahead so that none is below zero.
  obtain ⟨hash, n, hsize, hw⟩ : ∃ hash n, rows.size ≤ n ∧ walkPos rows.size hash n = pos :=
    ⟨_, distAt rows pos + rows.size, Nat.le_add_left _ _,
      (walkPos_add_size _ _).trans (walkPos_distAt (lt_size_of_isLive hl))⟩
  obtain ⟨far, hfar, hempty, hrun⟩ := hp.exists_run he hl hw hsize
  refine ⟨far, hfar, ?_⟩
  have hcard : (Finset.range (far + 1)).card ≤ (comers rows pos d far).card := by
    apply Finset.card_le_card_of_injOn fun k ↦ walkPos rows.size hash (n - k)
    · intro k hk
      have hkf : k ≤ far := Nat.lt_succ_iff.mp (Finset.mem_range.mp hk)
      have hlive := hrun k hkf
      have hnear := hc.ahead (k := n - k) (by rwa [hw]) (Nat.sub_le n k)
      rw [hw] at hnear
      -- No row of the run was pushed past the empty row before it.
      have hreach : distAt rows (walkPos rows.size hash (n - k)) + k ≤ far := by
        by_contra hover
        have hcross := (hc.behind hlive (k := n - (far + 1)) (by omega) (by omega)).1
        rw [hempty] at hcross
        cases hcross
      apply mem_comers_iff.mpr
      rw [distance_of_before (by omega) hw (by omega)]
      exact ⟨hlive, by omega, hreach⟩
    · intro k hk k' hk' heq
      have hkf : k ≤ far := Nat.lt_succ_iff.mp (Finset.mem_range.mp hk)
      have hkf' : k' ≤ far := Nat.lt_succ_iff.mp (Finset.mem_range.mp hk')
      have hsame := eq_of_walkPos_eq heq (by omega) (by omega)
      omega
  rw [Finset.card_range, ← homesBefore_hashes] at hcard
  exact hcard

/-- Whether a walk is stopped at a position depends on the hashes of the live rows alone. -/
theorem bars_eq_of_hashes_perm (hc : Chained rows) (hc' : Chained rows') (hp : Pristine rows)
    (hp' : Pristine rows') (hsize : rows'.size = rows.size)
    (he : ∃ q < rows.size, (rowAt rows q).isEmpty = true)
    (he' : ∃ q < rows'.size, (rowAt rows' q).isEmpty = true)
    (hperm : (hashes rows').Perm (hashes rows)) (hpos : pos < rows.size) :
    bars rows.size (rowAt rows' pos) pos d = bars rows.size (rowAt rows pos) pos d := by
  have hcount (far : Nat) : homesBefore rows.size (hashes rows') pos d far =
      homesBefore rows.size (hashes rows) pos d far := hperm.countP_eq _
  rw [Bool.eq_iff_iff, ← not_iff_not, Bool.not_eq_true, Bool.not_eq_true]
  constructor
  · intro h
    rw [← hsize] at h
    obtain ⟨far, -, hfar⟩ := hc'.exists_crowded hp' he' h
    rw [hsize, hcount] at hfar
    exact hc.bars_eq_false_of_crowded hpos hfar
  · intro h
    obtain ⟨far, -, hfar⟩ := hc.exists_crowded hp he h
    rw [← hcount, ← hsize] at hfar
    rw [← hsize]
    exact hc'.bars_eq_false_of_crowded (by rwa [hsize]) hfar

/-- Two indexes with live rows at the same positions, as far from home, and else empty. -/
structure Alike (rows rows' : Index) : Prop where
  size_eq : rows'.size = rows.size
  row : ∀ pos, (rowAt rows pos).isEmpty = true ∧ (rowAt rows' pos).isEmpty = true ∨
    (rowAt rows pos).isLive = true ∧ (rowAt rows' pos).isLive = true ∧
      distAt rows' pos = distAt rows pos

/-- Without tombstones, and with an empty row in each, chained indexes of one size whose live rows
have the same hashes are alike. -/
theorem alike_of_hashes_perm (hc : Chained rows) (hc' : Chained rows') (hp : Pristine rows)
    (hp' : Pristine rows') (hsize : rows'.size = rows.size)
    (he : ∃ q < rows.size, (rowAt rows q).isEmpty = true)
    (he' : ∃ q < rows'.size, (rowAt rows' q).isEmpty = true)
    (hperm : (hashes rows').Perm (hashes rows)) : Alike rows rows' := by
  refine ⟨hsize, fun pos ↦ ?_⟩
  rcases Nat.lt_or_ge pos rows.size with hpos | hpos
  · have hpass (d : Nat) :
        ((rowAt rows' pos).isEmpty = false ∧ d ≤ distAt rows' pos) ↔
          (rowAt rows pos).isEmpty = false ∧ d ≤ distAt rows pos := by
      have hbars := bars_eq_of_hashes_perm (d := d) hc hc' hp hp' hsize he he' hperm hpos
      rw [distAt, distAt, hsize, ← bars_eq_false_iff, ← bars_eq_false_iff, hbars]
    cases hem : (rowAt rows pos).isEmpty with
    | true =>
      refine .inl ⟨rfl, ?_⟩
      rw [← Bool.not_eq_false]
      intro hfull
      have hno := ((hpass 0).mp ⟨hfull, Nat.zero_le _⟩).1
      rw [hem] at hno
      cases hno
    | false =>
      obtain ⟨hem', hle⟩ := (hpass _).mpr ⟨hem, Nat.le_refl _⟩
      have hge := ((hpass _).mp ⟨hem', Nat.le_refl _⟩).2
      exact .inr ⟨Row.isLive_iff.mpr ⟨hem, hp pos⟩, Row.isLive_iff.mpr ⟨hem', hp' pos⟩,
        Nat.le_antisymm hge hle⟩
  · rw [rowAt_of_size_le hpos, rowAt_of_size_le (by rwa [hsize])]
    exact .inl ⟨rfl, rfl⟩

end Index

end RobinHood
