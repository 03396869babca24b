import Mathlib.Data.Nat.Find
import RobinHood.Proofs.Index.Mask
import RobinHood.Proofs.Index.Spot

/-!
# How many rows a search looks at

The walk of a lookup and that of an insertion are loops without a bound, which need neither an empty
row nor an unbroken chain to end: the row where they stop is the first one met again at the latest.
Here both are run in the arithmetic of words, with masked positions and distances, and given up
after a number of rows.
-/

namespace RobinHood

namespace Index

/-- How far `pos` lies past the home of `hash`, by a masked difference of words. -/
def maskedDistance (mask : Nat) (hash : UInt32) (pos : Nat) : Nat :=
  ((pos.toUInt64 - hash.toUInt64) &&& mask.toUInt64).toNat

/-- The answer of a search that has come `d` rows and stands at `pos`, if looking at no more than
`limit` rows ends it. Looking at a row leads to an answer, or to what is remembered from then on. -/
def searchFrom {A S : Type} (look : (pos d : Nat) → S → A ⊕ S) (mask : Nat) :
    (limit pos d : Nat) → S → Option A
  | 0, _, _, _ => none
  | limit + 1, pos, d, memory =>
    match look pos d memory with
    | .inl answer => some answer
    | .inr memory => searchFrom look mask limit ((pos + 1) &&& mask) (d + 1) memory

/-- A lookup looks at a row. -/
def lookForKey (rows : Index) (mask : Nat) (hash : UInt32) (holds : Nat → Bool) (pos d : Nat)
    (_ : Unit) : Option Nat ⊕ Unit :=
  let row := rowAt rows pos
  if carries row hash && holds row.entry then .inl (some pos)
  else if row.isEmpty || decide (maskedDistance mask row.hash pos < d) then .inl none
  else .inr ()

/-- An insertion looks at a row, with a tombstone in mind, if any. -/
def lookForSpot (rows : Index) (mask : Nat) (hash : UInt32) (holds : Nat → Bool) (pos d : Nat)
    (reuse : Option Nat) : Spot ⊕ Option Nat :=
  let row := rowAt rows pos
  if carries row hash && holds row.entry then .inl (.held row.entry)
  else
    let dist := maskedDistance mask row.hash pos
    let reuse :=
      if row.isTombstone then some (reuse.getD pos)
      else if !row.isEmpty && decide (d < dist) then none
      else reuse
    if row.isEmpty || decide (dist < d) then
      match reuse with
      | some free => .inl (.vacant free)
      | none => if row.isEmpty || row.isTombstone then .inl (.vacant pos) else .inl (.taken pos)
    else .inr reuse

/-- The answer of a lookup that looks at no more than `limit` rows. -/
def findWithin (rows : Index) (hash : UInt32) (holds : Nat → Bool) (limit : Nat) :
    Option (Option Nat) :=
  let mask := rows.size - 1
  searchFrom (lookForKey rows mask hash holds) mask limit (hash.toNat &&& mask) 0 ()

/-- Where an insertion goes that looks at no more than `limit` rows. -/
def findSpotWithin (rows : Index) (hash : UInt32) (holds : Nat → Bool) (limit : Nat) :
    Option Spot :=
  let mask := rows.size - 1
  searchFrom (lookForSpot rows mask hash holds) mask limit (hash.toNat &&& mask) 0 none

variable {rows : Index} {hash : UInt32} {holds : Nat → Bool} {size mask n d : Nat}

/-- A search that goes on at the first `n` rows of a walk and has its answer at the next one looks
at just these rows. -/
theorem searchFrom_eq {A S : Type} {look : Nat → Nat → S → A ⊕ S} (memory : Nat → S) {answer : A}
    (limit : Nat) (hm : MaskedBy size mask)
    (honward : ∀ e < n, look (walkPos size hash e) e (memory e) = .inr (memory (e + 1)))
    (hstop : look (walkPos size hash n) n (memory n) = .inl answer) (hd : d ≤ n) :
    searchFrom look mask limit (walkPos size hash d) d (memory d) =
      if n < d + limit then some answer else none := by
  -- What the search remembers is determined by how far it has come.
  induction limit generalizing d with
  | zero => rw [searchFrom, if_neg (by omega)]
  | succ limit ih =>
    rcases Nat.eq_or_lt_of_le hd with rfl | hlt
    · rw [searchFrom, hstop, if_pos (by omega)]
    · rw [searchFrom, honward d hlt]
      change searchFrom look mask limit ((walkPos size hash d + 1) &&& mask) (d + 1) _ = _
      rw [← hm.next_eq, next_walkPos, ih hlt, Nat.succ_add_eq_add_succ]

/-! ### Where a search stops -/

/-- Both walks for a key stop at row `n`: there, and at no row before, is what they look for or what
proves it absent. -/
structure StopsAt (rows : Index) (hash : UInt32) (holds : Nat → Bool) (n : Nat) : Prop where
  unmatched : ∀ d < n, ¬ Matches (rowAt rows (walkPos rows.size hash d)) hash holds
  clear : Clear rows hash n
  stops : Matches (rowAt rows (walkPos rows.size hash n)) hash holds ∨
    bars rows.size (rowAt rows (walkPos rows.size hash n)) (walkPos rows.size hash n) n = true

/-- A search stops within a round: no row stands as far from its home as there are rows. -/
theorem exists_stopsAt (hs : 0 < rows.size) (hash : UInt32) (holds : Nat → Bool) :
    ∃ n ≤ rows.size, StopsAt rows hash holds n := by
  classical
  have hround : bars rows.size (rowAt rows (walkPos rows.size hash rows.size))
      (walkPos rows.size hash rows.size) rows.size = true := by
    have hlt : distAt rows (walkPos rows.size hash rows.size) < rows.size := distAt_lt hs
    unfold distAt at hlt
    simp [bars, hlt]
  have hstops : ∃ d, Matches (rowAt rows (walkPos rows.size hash d)) hash holds ∨
      bars rows.size (rowAt rows (walkPos rows.size hash d)) (walkPos rows.size hash d) d = true :=
    ⟨rows.size, .inr hround⟩
  refine ⟨Nat.find hstops, Nat.find_min' hstops (.inr hround), fun d hd hmatch ↦ ?_, fun d hd ↦ ?_,
    Nat.find_spec hstops⟩
  · exact Nat.find_min hstops hd (.inl hmatch)
  · rw [Bool.eq_false_iff]
    exact fun hbar ↦ Nat.find_min hstops hd (.inr hbar)

namespace StopsAt

/-- A row where the walks have not come to an end is passed. -/
private theorem eq_of_le (h : StopsAt rows hash holds n) (hd : d ≤ n)
    (hstop : Matches (rowAt rows (walkPos rows.size hash d)) hash holds ∨
      bars rows.size (rowAt rows (walkPos rows.size hash d)) (walkPos rows.size hash d) d = true) :
    d = n := by
  rcases Nat.eq_or_lt_of_le hd with heq | hlt
  · exact heq
  · rcases hstop with hmatch | hbar
    · exact absurd hmatch (h.unmatched d hlt)
    · rw [h.clear d hlt] at hbar
      cases hbar

end StopsAt

/-- Walks that go by words and masks look at the same distances. -/
private theorem MaskedBy.maskedDistance_eq (hm : MaskedBy rows.size mask) (hs : 0 < rows.size)
    (row : Row) (d : Nat) : maskedDistance mask row.hash (walkPos rows.size hash d) =
      distance rows.size row.hash (walkPos rows.size hash d) :=
  (hm.distance_eq row.hash _ (walkPos_lt hs hash d)).symm

private theorem lookForKey_walkPos (hm : MaskedBy rows.size mask) (hs : 0 < rows.size) (d : Nat) :
    lookForKey rows mask hash holds (walkPos rows.size hash d) d () =
      if carries (rowAt rows (walkPos rows.size hash d)) hash &&
          holds (rowAt rows (walkPos rows.size hash d)).entry then
        .inl (some (walkPos rows.size hash d))
      else if bars rows.size (rowAt rows (walkPos rows.size hash d))
          (walkPos rows.size hash d) d then .inl none
      else .inr () := by
  rw [lookForKey, hm.maskedDistance_eq hs]
  rfl

theorem StopsAt.lookForKey_onward (h : StopsAt rows hash holds n) (hm : MaskedBy rows.size mask)
    (hs : 0 < rows.size) (hd : d < n) :
    lookForKey rows mask hash holds (walkPos rows.size hash d) d () = .inr () := by
  have hno := h.unmatched d hd
  rw [← matches_iff] at hno
  rw [lookForKey_walkPos hm hs, if_neg hno, h.clear d hd]
  rfl

theorem StopsAt.lookForKey_stop (h : StopsAt rows hash holds n) (hm : MaskedBy rows.size mask)
    (hs : 0 < rows.size) (hd : d ≤ n) :
    lookForKey rows mask hash holds (walkPos rows.size hash n) n () =
      .inl (findFrom rows hash holds d) := by
  fun_induction findFrom rows hash holds d with
  | case1 d pos row hmatch =>
    obtain rfl := h.eq_of_le hd (.inl (matches_iff.mp hmatch))
    rw [lookForKey_walkPos hm hs, if_pos hmatch]
  | case2 d pos row hmatch hbar =>
    obtain rfl := h.eq_of_le hd (.inr hbar)
    rw [lookForKey_walkPos hm hs, if_neg hmatch, if_pos hbar]
  | case3 d pos row hmatch hbar ih =>
    have hne : d ≠ n := by
      rintro rfl
      exact h.stops.elim (fun hm ↦ hmatch (matches_iff.mpr hm)) hbar
    exact ih (by omega)

open Placement

/-- What an insertion has in mind when it looks at a row. -/
private theorem lookForSpot_walkPos (hm : MaskedBy rows.size mask) (hs : 0 < rows.size) (d : Nat)
    (reuse : Option Nat) :
    lookForSpot rows mask hash holds (walkPos rows.size hash d) d reuse =
      if carries (rowAt rows (walkPos rows.size hash d)) hash &&
          holds (rowAt rows (walkPos rows.size hash d)).entry then
        .inl (.held (rowAt rows (walkPos rows.size hash d)).entry)
      else if (rowAt rows (walkPos rows.size hash d)).isEmpty then
        .inl (.vacant (reuse.getD (walkPos rows.size hash d)))
      else if bars rows.size (rowAt rows (walkPos rows.size hash d))
          (walkPos rows.size hash d) d then
        match reusable rows.size (rowAt rows (walkPos rows.size hash d))
          (walkPos rows.size hash d) d reuse with
        | some free => .inl (.vacant free)
        | none => .inl (.taken (walkPos rows.size hash d))
      else .inr (reusable rows.size (rowAt rows (walkPos rows.size hash d))
        (walkPos rows.size hash d) d reuse) := by
  rw [lookForSpot, hm.maskedDistance_eq hs]
  unfold bars reusable
  -- The order of the tests is all that is left to compare, so the row may be any.
  generalize walkPos rows.size hash d = pos
  generalize rowAt rows pos = row
  by_cases hmatch : (carries row hash && holds row.entry) = true
  · rw [if_pos hmatch, if_pos hmatch]
  · rw [if_neg hmatch, if_neg hmatch]
    cases he : row.isEmpty with
    | true =>
      cases ht : row.isTombstone with
      | true => rfl
      | false => cases reuse <;> rfl
    | false =>
      cases ht : row.isTombstone with
      | true => rfl
      | false => simp

theorem StopsAt.lookForSpot_onward (h : StopsAt rows hash holds n) (hm : MaskedBy rows.size mask)
    (hs : 0 < rows.size) (hd : d < n) :
    lookForSpot rows mask hash holds (walkPos rows.size hash d) d (scanReuse rows hash d) =
      .inr (scanReuse rows hash (d + 1)) := by
  have hno := h.unmatched d hd
  have hfull := h.clear.isEmpty_eq_false hd
  rw [← matches_iff] at hno
  rw [lookForSpot_walkPos hm hs, if_neg hno, hfull, h.clear d hd]
  rfl

theorem StopsAt.lookForSpot_stop (h : StopsAt rows hash holds n) (hm : MaskedBy rows.size mask)
    (hs : 0 < rows.size) (hd : d ≤ n) :
    lookForSpot rows mask hash holds (walkPos rows.size hash n) n (scanReuse rows hash n) =
      .inl (findSpotFrom rows hash holds d (scanReuse rows hash d)) := by
  generalize hr : scanReuse rows hash d = reuse
  fun_induction findSpotFrom rows hash holds d reuse with
  | case1 d reuse pos row hmatch =>
    obtain rfl := h.eq_of_le hd (.inl (matches_iff.mp hmatch))
    rw [lookForSpot_walkPos hm hs, if_pos hmatch]
  | case2 d reuse pos row hmatch hempty =>
    obtain rfl := h.eq_of_le hd (.inr (by simp [bars, row, pos, hempty]))
    rw [lookForSpot_walkPos hm hs, if_neg hmatch, if_pos hempty, hr]
  | case3 d reuse pos row hmatch hempty reuse' hbar free hfree =>
    obtain rfl := h.eq_of_le hd (.inr hbar)
    rw [lookForSpot_walkPos hm hs, if_neg hmatch, if_neg hempty, if_pos hbar, hr,
      show reusable rows.size (rowAt rows (walkPos rows.size hash d)) _ d reuse = _ from hfree]
  | case4 d reuse pos row hmatch hempty reuse' hbar hfree =>
    obtain rfl := h.eq_of_le hd (.inr hbar)
    rw [lookForSpot_walkPos hm hs, if_neg hmatch, if_neg hempty, if_pos hbar, hr,
      show reusable rows.size (rowAt rows (walkPos rows.size hash d)) _ d reuse = _ from hfree]
  | case5 d reuse pos row hmatch hempty reuse' hbar ih =>
    have hne : d ≠ n := by
      rintro rfl
      exact h.stops.elim (fun hm ↦ hmatch (matches_iff.mpr hm)) hbar
    exact ih (by omega) (by rw [scanReuse, hr])

/-! ### Answers within a number of rows -/

private theorem MaskedBy.and_mask_eq (hm : MaskedBy rows.size mask) (hs : 0 < rows.size)
    (hash : UInt32) : hash.toNat &&& mask = walkPos rows.size hash 0 := by
  rw [walkPos_zero hs, hm.home_eq]

/-- A lookup has its answer once it may look at the row where the walks stop. -/
theorem StopsAt.findWithin_eq (h : StopsAt rows hash holds n)
    (hm : MaskedBy rows.size (rows.size - 1)) (hs : 0 < rows.size) (limit : Nat) :
    findWithin rows hash holds limit =
      if n < limit then some (find? rows hash holds) else none := by
  have hlook := searchFrom_eq (fun _ ↦ ()) limit hm
    (fun d hd ↦ h.lookForKey_onward hm hs hd) (h.lookForKey_stop hm hs (Nat.zero_le n))
    (Nat.zero_le n)
  rw [Nat.zero_add] at hlook
  rw [findWithin, hm.and_mask_eq hs]
  exact hlook

/-- An insertion knows where it goes once it may look at the row where the walks stop. -/
theorem StopsAt.findSpotWithin_eq (h : StopsAt rows hash holds n)
    (hm : MaskedBy rows.size (rows.size - 1)) (hs : 0 < rows.size) (limit : Nat) :
    findSpotWithin rows hash holds limit =
      if n < limit then some (findSpot rows hash holds) else none := by
  have hlook := searchFrom_eq (scanReuse rows hash) limit hm
    (fun d hd ↦ h.lookForSpot_onward hm hs hd) (h.lookForSpot_stop hm hs (Nat.zero_le n))
    (Nat.zero_le n)
  rw [Nat.zero_add] at hlook
  rw [findSpotWithin, hm.and_mask_eq hs]
  exact hlook

/-- An insertion that does not find its key is one whose lookup finds nothing. -/
private theorem find?_eq_none_of_findSpot
    (hf : ∀ entry, findSpot rows hash holds ≠ .held entry) : find? rows hash holds = none := by
  rw [Option.eq_none_iff_forall_ne_some]
  intro pos hpos
  exact hf _ (findSpot_eq_held_iff.mpr ⟨pos, hpos, rfl⟩)

/-- Walks that find nothing were stopped by a row that proves their key absent. -/
theorem StopsAt.bars_of_find?_eq_none (h : StopsAt rows hash holds n)
    (hf : find? rows hash holds = none) :
    bars rows.size (rowAt rows (walkPos rows.size hash n)) (walkPos rows.size hash n) n = true := by
  rcases h.stops with hmatch | hbar
  · exact absurd hmatch (not_matches_of_find?_eq_none hf h.clear)
  · exact hbar

/-- Both searches of a power of two of rows, whatever these hold and whatever keys are taken for
equal, look at the rows up to one row `n` and no more: given that many, and only then, they have the
answers of `find?` and `findSpot`. It is the first row met again at the latest. Where a search ends
without its key, that row is empty or stands closer to its home than the search has come. -/
theorem searches_stop_within_round {k : Nat} (hk : k < 64) (hsize : rows.size = 2 ^ k)
    (hash : UInt32) (holds : Nat → Bool) :
    ∃ n ≤ rows.size,
      (∀ limit, findWithin rows hash holds limit =
        if n < limit then some (find? rows hash holds) else none) ∧
      (∀ limit, findSpotWithin rows hash holds limit =
        if n < limit then some (findSpot rows hash holds) else none) ∧
      (find? rows hash holds = none ∨ (∀ entry, findSpot rows hash holds ≠ .held entry) →
        (rowAt rows (walkPos rows.size hash n)).isEmpty = true ∨
          distAt rows (walkPos rows.size hash n) < n) := by
  have hs : 0 < rows.size := by
    rw [hsize]
    exact Nat.two_pow_pos k
  have hm : MaskedBy rows.size (rows.size - 1) := by
    rw [hsize]
    exact maskedBy_two_pow (Nat.le_of_lt hk)
  obtain ⟨n, hn, hstop⟩ := exists_stopsAt hs hash holds
  refine ⟨n, hn, hstop.findWithin_eq hm hs, hstop.findSpotWithin_eq hm hs, fun hmiss ↦ ?_⟩
  have hbar := hstop.bars_of_find?_eq_none (hmiss.elim id find?_eq_none_of_findSpot)
  simpa [bars, distAt] using hbar

/-- Four rows without an empty one, each as far from its home as can be; one is a tombstone. -/
private def outlying : Index := #[.live 1 0, (Row.live 2 1).toTombstone, .live 3 2, .live 4 3]

/-- The theorem at a search that looks at one row more than there are: only the first row stops it,
when it is met again. -/
theorem searches_stop_within_round_outlying :
    findWithin outlying 8 (fun _ ↦ true) 4 = none ∧
      findWithin outlying 8 (fun _ ↦ true) 5 = some none ∧
      findSpotWithin outlying 8 (fun _ ↦ true) 4 = none ∧
      findSpotWithin outlying 8 (fun _ ↦ true) 5 = some (.taken 0) ∧
      distAt outlying 0 < 4 := by
  have hsize : outlying.size = 2 ^ 2 := rfl
  obtain ⟨n, hn, hfind, hspot, hmiss⟩ :=
    searches_stop_within_round (by decide) hsize 8 fun _ ↦ true
  have hshort : findWithin outlying 8 (fun _ ↦ true) 4 = none := by decide +kernel
  have hnone : find? outlying 8 (fun _ ↦ true) = none := by decide +kernel
  have htaken : findSpot outlying 8 (fun _ ↦ true) = .taken 0 := by decide +kernel
  have hround : n = 4 := by
    rw [hfind, hnone] at hshort
    split at hshort
    · cases hshort
    · change n ≤ 4 at hn
      omega
  subst hround
  refine ⟨hshort, (hfind 5).trans (by rw [hnone]; rfl), (hspot 4).trans rfl,
    (hspot 5).trans (by rw [htaken]; rfl), ?_⟩
  rcases hmiss (.inl hnone) with hempty | hlt
  · exact absurd hempty (by decide +kernel)
  · exact hlt

end Index

end RobinHood
