import RobinHood.Index.Placement
import RobinHood.Proofs.Index.Contents

/-!
# Runs of a displacement walk

What looking at one row can lead to is said once, by `step_settled` and `step_onward`; every
invariant of a walk is derived from these two. `Reaches` is the run of a walk, row by row, and
`settle?` follows it. Nothing here depends on how the rows are laid out: a walk never loses a
live row, and turns exactly one row that was not live into a live one.
-/

namespace RobinHood

namespace Index

namespace Placement

/-- The row that a walk has in hand. -/
def inHand (p : Placement) : Row := Row.live p.hash p.entry

/-- The row that a walk looks at. -/
def facing (p : Placement) : Row := rowAt p.rows p.pos

/-- Where the row in hand goes if the walk ends here. -/
def target (p : Placement) : Nat := p.reuse.getD p.pos

/-- The walk one row on, with the same row in hand. -/
def pass (p : Placement) : Placement :=
  { p with
    pos := next p.rows.size p.pos
    dist := p.dist + 1
    reuse := reusable p.rows.size p.facing p.pos p.dist p.reuse }

/-- The walk one row on, with the row that it looked at in hand. -/
def swap (p : Placement) : Placement :=
  ⟨p.putDown p.pos, p.facing.hash, p.facing.entry, next p.rows.size p.pos,
    distAt p.rows p.pos + 1, none⟩

variable {p q r : Placement} {rows : Index} {n m : Nat}

/-- A walk settles at an empty row, or at a row closer to its home if a tombstone can be reused. -/
theorem step_settled (h : p.step = .settled rows) :
    rows = p.putDown p.target ∧ (p.facing.isEmpty = true ∨
      distAt p.rows p.pos < p.dist ∧
        (p.facing.isTombstone = true ∨ p.reuse.isSome = true)) := by
  unfold step at h
  simp only at h
  split at h
  · next he =>
    cases h
    exact ⟨rfl, .inl he⟩
  · split at h
    · next hd =>
      split at h
      · next free hf =>
        cases h
        have hd' : ¬ p.dist < distance p.rows.size (rowAt p.rows p.pos).hash p.pos := by omega
        unfold reusable at hf
        rw [if_neg hd'] at hf
        split at hf
        · next ht =>
          cases hf
          exact ⟨rfl, .inr ⟨hd, .inl ht⟩⟩
        · refine ⟨?_, .inr ⟨hd, .inr (by rw [hf]; rfl)⟩⟩
          rw [target, hf, Option.getD_some]
      · cases h
    · cases h

/-- A walk goes on past a row at least as far from its home, and changes places with a live row
that is closer if there is no tombstone to reuse. -/
theorem step_onward (h : p.step = .onward q) :
    p.facing.isEmpty = false ∧ (p.dist ≤ distAt p.rows p.pos ∧ q = p.pass ∨
      distAt p.rows p.pos < p.dist ∧ p.facing.isLive = true ∧ p.reuse = none ∧ q = p.swap) := by
  unfold step at h
  simp only at h
  split at h
  · cases h
  · next he =>
    have hne : p.facing.isEmpty = false := by simpa [facing] using he
    refine ⟨hne, ?_⟩
    split at h
    · next hd =>
      split at h
      · cases h
      · next hf =>
        cases h
        have hd' : ¬ p.dist < distance p.rows.size (rowAt p.rows p.pos).hash p.pos := by omega
        unfold reusable at hf
        rw [if_neg hd'] at hf
        split at hf
        · cases hf
        · next ht =>
          have htomb : p.facing.isTombstone = false := by simpa [facing] using ht
          exact .inr ⟨hd, Row.isLive_iff.mpr ⟨hne, htomb⟩, hf, rfl⟩
    · next hd =>
      cases h
      exact .inl ⟨Nat.not_lt.mp hd, rfl⟩

/-- An empty row ends a walk. -/
theorem step_of_isEmpty (h : p.facing.isEmpty = true) : p.step = .settled (p.putDown p.target) := by
  cases hs : p.step with
  | settled rows => rw [(step_settled hs).1]
  | onward q =>
    have hne := (step_onward hs).1
    rw [h] at hne
    cases hne

/-- A row closer to its home ends a walk that has a tombstone to reuse. -/
theorem step_of_reusable (hd : distAt p.rows p.pos < p.dist)
    (ht : p.facing.isTombstone = true ∨ p.reuse.isSome = true) :
    p.step = .settled (p.putDown p.target) := by
  cases hs : p.step with
  | settled rows => rw [(step_settled hs).1]
  | onward q =>
    rcases (step_onward hs).2 with ⟨hle, -⟩ | ⟨-, hl, hr, -⟩
    · omega
    · have hf := (Row.isLive_iff.mp hl).2
      rcases ht with ht | ht
      · rw [ht] at hf
        cases hf
      · rw [hr] at ht
        cases ht

/-- A row at least as far from its home is passed. -/
theorem step_of_le (he : p.facing.isEmpty = false) (hd : p.dist ≤ distAt p.rows p.pos) :
    p.step = .onward p.pass := by
  cases hs : p.step with
  | settled rows =>
    rcases (step_settled hs).2 with h | ⟨h, -⟩
    · rw [he] at h
      cases h
    · omega
  | onward q =>
    rcases (step_onward hs).2 with ⟨-, rfl⟩ | ⟨h, -⟩
    · rfl
    · omega

/-- A live row closer to its home changes places with the row in hand if there is no tombstone to
reuse. -/
theorem step_of_lt (hl : p.facing.isLive = true) (hd : distAt p.rows p.pos < p.dist)
    (hr : p.reuse = none) : p.step = .onward p.swap := by
  have hlive := Row.isLive_iff.mp hl
  cases hs : p.step with
  | settled rows =>
    rcases (step_settled hs).2 with h | ⟨-, h | h⟩
    · rw [hlive.1] at h
      cases h
    · rw [hlive.2] at h
      cases h
    · rw [hr] at h
      cases h
  | onward q =>
    rcases (step_onward hs).2 with ⟨h, -⟩ | ⟨-, -, -, rfl⟩
    · omega
    · rfl

/-- A tombstone is remembered unless a live row farther from its home is passed after it. -/
theorem reuse_pass_eq_none_iff : p.pass.reuse = none ↔
    p.facing.isTombstone = false ∧ (p.dist < distAt p.rows p.pos ∨ p.reuse = none) := by
  change reusable p.rows.size p.facing p.pos p.dist p.reuse = none ↔ _
  unfold reusable
  rw [show distance p.rows.size p.facing.hash p.pos = distAt p.rows p.pos from rfl]
  cases p.facing.isTombstone with
  | true => simp
  | false =>
    by_cases hd : p.dist < distAt p.rows p.pos
    · simp [hd]
    · simp [hd]

/-- A walk goes on exactly if what it faces is either passed or displaced. -/
theorem exists_onward_iff : (∃ q, p.step = .onward q) ↔ p.facing.isEmpty = false ∧
    (distAt p.rows p.pos < p.dist → p.facing.isLive = true ∧ p.reuse = none) := by
  constructor
  · rintro ⟨q, hs⟩
    obtain ⟨he, hor⟩ := step_onward hs
    refine ⟨he, fun hd ↦ ?_⟩
    rcases hor with ⟨hle, -⟩ | ⟨-, hl, hr, -⟩
    · omega
    · exact ⟨hl, hr⟩
  · rintro ⟨he, hgo⟩
    rcases Nat.lt_or_ge (distAt p.rows p.pos) p.dist with hd | hd
    · obtain ⟨hl, hr⟩ := hgo hd
      exact ⟨_, step_of_lt hl hd hr⟩
    · exact ⟨_, step_of_le he hd⟩

/-! ### Runs -/

/-- The second walk is the first one after looking at `n` rows. -/
inductive Reaches : Placement → Nat → Placement → Prop
  | refl (p : Placement) : Reaches p 0 p
  | onward {p q r : Placement} {n : Nat} :
      Reaches p n q → q.step = .onward r → Reaches p (n + 1) r

namespace Reaches

/-- The rest of a run ends as the whole run does. -/
theorem run_add (h : Reaches p n q) (limit : Nat) : p.run (n + limit) = q.run limit := by
  induction h generalizing limit with
  | refl => rw [Nat.zero_add]
  | onward hr hs ih =>
    rw [Nat.add_assoc, Nat.add_comm 1, ih, run_succ_of_onward hs]

/-- The rest of a run settles as the whole run does. -/
theorem settle?_add (h : Reaches p n q) (limit : Nat) :
    p.settle? (n + limit) = q.settle? limit := by
  rw [settle?, h.run_add, settle?]

/-- A run that ends in its last row settles. -/
theorem settle?_of_settled (h : Reaches p n q) (hs : q.step = .settled rows) {limit : Nat}
    (hl : n < limit) : p.settle? limit = some rows := by
  obtain ⟨k, rfl⟩ : ∃ k, limit = n + (k + 1) := ⟨limit - n - 1, by omega⟩
  rw [h.settle?_add, settle?, run_succ_of_settled hs, Outcome.rows?]

/-- A run that goes on does not settle in the rows that it has looked at. -/
theorem settle?_eq_none (h : Reaches p n q) : p.settle? n = none := by
  rw [← Nat.add_zero n, h.settle?_add, settle?, run, Outcome.rows?]

/-- A run has gone on at each of its rows. -/
theorem exists_onward (h : Reaches p n q) (hm : m < n) :
    ∃ r r', Reaches p m r ∧ r.step = .onward r' := by
  induction h with
  | refl => cases hm
  | @onward q r n hr hs ih =>
    by_cases hlt : m < n
    · exact ih hlt
    · obtain rfl : m = n := by omega
      exact ⟨q, r, hr, hs⟩

/-- A walk is determined by the number of rows that it has looked at. -/
theorem unique (h : Reaches p n q) (h' : Reaches p n r) : q = r := by
  induction h generalizing r with
  | refl =>
    cases h'
    rfl
  | onward _ hs ih =>
    cases h' with
    | onward hr hs' =>
      rw [ih hr, hs'] at hs
      cases hs
      rfl

/-- A run goes on where another one ended. -/
theorem trans (h : Reaches p n q) (h' : Reaches q m r) : Reaches p (n + m) r := by
  induction h' with
  | refl => exact h
  | onward _ hs ih => exact .onward ih hs

/-- A walk that comes back to where it was never settles. -/
theorem settle?_eq_none_of_loop (h : Reaches p n q) (hloop : Reaches q (m + 1) q) (limit : Nat) :
    p.settle? limit = none := by
  have hlaps (laps : Nat) : Reaches q (laps * (m + 1)) q := by
    induction laps with
    | zero =>
      rw [Nat.zero_mul]
      exact .refl q
    | succ laps ih =>
      rw [Nat.succ_mul]
      exact ih.trans hloop
  have hfar := (h.trans (hlaps limit)).settle?_eq_none
  cases hs : p.settle? limit with
  | none => rfl
  | some rows =>
    have hle : limit ≤ n + limit * (m + 1) :=
      Nat.le_trans (Nat.le_mul_of_pos_right limit (Nat.succ_pos m)) (Nat.le_add_left ..)
    rw [settle?_mono hle hs] at hfar
    cases hfar

end Reaches

/-- A walk either settles within a number of rows or is still going. -/
theorem settles_or_reaches (p : Placement) (limit : Nat) :
    (∃ n < limit, ∃ q rows, Reaches p n q ∧ q.step = .settled rows ∧
      p.settle? limit = some rows) ∨ ∃ q, Reaches p limit q := by
  induction limit with
  | zero => exact .inr ⟨p, .refl p⟩
  | succ limit ih =>
    rcases ih with ⟨n, hn, q, rows, hr, hs, -⟩ | ⟨q, hr⟩
    · exact .inl ⟨n, by omega, q, rows, hr, hs, hr.settle?_of_settled hs (by omega)⟩
    · cases hs : q.step with
      | settled rows =>
        exact .inl ⟨limit, by omega, q, rows, hr, hs, hr.settle?_of_settled hs (by omega)⟩
      | onward r => exact .inr ⟨r, .onward hr hs⟩

/-- A walk that settles does so at the end of a run. -/
theorem reaches_of_settle? {limit : Nat} (h : p.settle? limit = some rows) :
    ∃ n < limit, ∃ q, Reaches p n q ∧ q.step = .settled rows := by
  rcases settles_or_reaches p limit with ⟨n, hn, q, rows', hr, hs, he⟩ | ⟨q, hr⟩
  · rw [h] at he
    cases he
    exact ⟨n, hn, q, hr, hs⟩
  · rw [hr.settle?_eq_none] at h
    cases h

/-- A walk does not settle within a number of rows exactly if it is still going then. -/
theorem settle?_eq_none_iff {limit : Nat} :
    p.settle? limit = none ↔ ∃ q, Reaches p limit q := by
  constructor
  · intro h
    rcases settles_or_reaches p limit with ⟨n, -, q, rows, -, -, hs⟩ | hr
    · rw [h] at hs
      cases hs
    · exact hr
  · rintro ⟨q, hr⟩
    exact hr.settle?_eq_none

/-- A walk that is given up has gone on at each row that it has looked at. -/
theorem reaches_of_run {limit : Nat} (h : p.run limit = .onward q) : Reaches p limit q := by
  have hnone : p.settle? limit = none := by rw [settle?, h, Outcome.rows?]
  obtain ⟨q', hr⟩ := settle?_eq_none_iff.mp hnone
  have hrun := hr.run_add 0
  rw [Nat.add_zero, h, run] at hrun
  cases hrun
  exact hr

/-! ### What a walk keeps -/

/-- A walk with a proper row in hand that remembers a tombstone, if anything. -/
structure Valid (p : Placement) : Prop where
  pos_lt : p.pos < p.rows.size
  hash_ne : p.hash ≠ 0
  entry_lt : p.entry < Row.entryBound
  reuse : ∀ t ∈ p.reuse, (rowAt p.rows t).isEmpty = false ∧ (rowAt p.rows t).isTombstone = true

/-- What is remembered after a row is a tombstone just met or was remembered before. -/
theorem mem_reusable {size pos d t : Nat} {row : Row} {reuse : Option Nat}
    (h : t ∈ reusable size row pos d reuse) :
    reuse = none ∧ row.isTombstone = true ∧ t = pos ∨
      t ∈ reuse ∧ (row.isTombstone = true ∨ distance size row.hash pos ≤ d) := by
  unfold reusable at h
  split at h
  · next ht =>
    cases reuse with
    | none =>
      cases h
      exact .inl ⟨rfl, ht, rfl⟩
    | some u => exact .inr ⟨h, .inl ht⟩
  · split at h
    · cases h
    · next hd => exact .inr ⟨h, .inr (Nat.not_lt.mp hd)⟩

namespace Valid

/-- The row in hand is live. -/
theorem isLive_inHand (hv : p.Valid) : p.inHand.isLive = true := Row.isLive_live hv.hash_ne _

/-- A walk that goes on has a proper row in hand. -/
theorem onward (hv : p.Valid) (hs : p.step = .onward q) : q.Valid := by
  have hsize : 0 < p.rows.size := Nat.lt_of_le_of_lt (Nat.zero_le _) hv.pos_lt
  obtain ⟨he, ⟨-, rfl⟩ | ⟨-, hl, -, rfl⟩⟩ := step_onward hs
  · refine ⟨Nat.mod_lt _ hsize, hv.hash_ne, hv.entry_lt, ?_⟩
    intro t ht
    rcases mem_reusable ht with ⟨-, htomb, rfl⟩ | ⟨ht, -⟩
    · exact ⟨he, htomb⟩
    · exact hv.reuse t ht
  · refine ⟨?_, Row.isEmpty_eq_false_iff.mp he, Row.entry_lt _, ?_⟩
    · rw [swap, putDown, size_set]
      exact Nat.mod_lt _ hsize
    · intro t ht
      cases ht

/-- A run keeps a proper row in hand. -/
theorem reaches (hv : p.Valid) (hr : Reaches p n q) : q.Valid := by
  induction hr with
  | refl => exact hv
  | onward _ hs ih => exact ih.onward hs

/-- A walk ends at a row of the index that is not live. -/
theorem target_free (hv : p.Valid) (hs : p.step = .settled rows) :
    p.target < p.rows.size ∧ (rowAt p.rows p.target).isLive = false := by
  unfold target
  cases hr : p.reuse with
  | some t =>
    have ht := hv.reuse t hr
    exact ⟨lt_size_of_not_isEmpty ht.1, Row.isLive_of_isTombstone ht.2⟩
  | none =>
    refine ⟨hv.pos_lt, ?_⟩
    rcases (step_settled hs).2 with he | ⟨-, ht | ht⟩
    · exact Row.isLive_of_isEmpty he
    · exact Row.isLive_of_isTombstone ht
    · rw [hr] at ht
      cases ht

/-- A row that settles joins the live rows. -/
theorem liveRows_settled (hv : p.Valid) (hs : p.step = .settled rows) :
    (liveRows rows).Perm (p.inHand :: liveRows p.rows) := by
  have hf := hv.target_free hs
  rw [(step_settled hs).1]
  exact liveRows_set_of_free hf.1 hv.isLive_inHand hf.2

/-- Going on loses no row: what is put down and what is taken up change places. -/
theorem liveRows_onward (hv : p.Valid) (hs : p.step = .onward q) :
    (q.inHand :: liveRows q.rows).Perm (p.inHand :: liveRows p.rows) := by
  obtain ⟨-, ⟨-, rfl⟩ | ⟨-, hl, -, rfl⟩⟩ := step_onward hs
  · exact .refl _
  · have htaken : p.swap.inHand = p.facing := Row.live_hash_entry (Row.isLive_iff.mp hl).2
    rw [htaken]
    exact liveRows_set_of_live hv.pos_lt hv.isLive_inHand hl

/-- A run loses no live row. -/
theorem liveRows_reaches (hv : p.Valid) (hr : Reaches p n q) :
    (q.inHand :: liveRows q.rows).Perm (p.inHand :: liveRows p.rows) := by
  induction hr with
  | refl => exact .refl _
  | onward hr hs ih => exact ((hv.reaches hr).liveRows_onward hs).trans ih

/-- A walk that settles adds its row to the live rows and loses none. -/
theorem liveRows_settle? (hv : p.Valid) {limit : Nat} (h : p.settle? limit = some rows) :
    (liveRows rows).Perm (p.inHand :: liveRows p.rows) := by
  obtain ⟨n, -, q, hr, hs⟩ := reaches_of_settle? h
  exact ((hv.reaches hr).liveRows_settled hs).trans (hv.liveRows_reaches hr)

/-- Looking at a row does not change the number of rows. -/
theorem size_onward (hs : p.step = .onward q) : q.rows.size = p.rows.size := by
  obtain ⟨-, ⟨-, rfl⟩ | ⟨-, -, -, rfl⟩⟩ := step_onward hs
  · rfl
  · exact size_set ..

/-- A walk does not change the number of rows. -/
theorem size_settle? {limit : Nat} (h : p.settle? limit = some rows) : rows.size = p.rows.size := by
  obtain ⟨n, -, q, hr, hs⟩ := reaches_of_settle? h
  have hq : q.rows.size = p.rows.size := by
    clear hs h
    induction hr with
    | refl => rfl
    | onward _ hs ih => rw [size_onward hs, ih]
  rw [(step_settled hs).1, putDown, size_set, hq]

end Valid

end Placement

/-- The second index differs from the first only in which live row stands where. -/
structure Reshuffled (rows rows' : Index) : Prop where
  size_eq : rows'.size = rows.size
  isLive_eq : ∀ pos, (rowAt rows' pos).isLive = (rowAt rows pos).isLive
  rowAt_eq : ∀ pos, (rowAt rows pos).isLive = false → rowAt rows' pos = rowAt rows pos

namespace Reshuffled

/-- An index differs from itself in nothing. -/
theorem refl (rows : Index) : Reshuffled rows rows := ⟨rfl, fun _ ↦ rfl, fun _ _ ↦ rfl⟩

/-- Live rows may be exchanged repeatedly. -/
theorem trans {a b c : Index} (h : Reshuffled a b) (h' : Reshuffled b c) : Reshuffled a c := by
  refine ⟨h'.size_eq.trans h.size_eq, fun pos ↦ (h'.isLive_eq pos).trans (h.isLive_eq pos), ?_⟩
  intro pos hl
  rw [h'.rowAt_eq pos (by rw [h.isLive_eq, hl]), h.rowAt_eq pos hl]

/-- Writing a live row over a live row exchanges live rows. -/
theorem set {rows : Index} {pos : Nat} {row : Row} (hf : (rowAt rows pos).isLive = true)
    (hl : row.isLive = true) : Reshuffled rows (rows.setIfInBounds pos row) := by
  have hp := lt_size_of_isLive hf
  refine ⟨size_set .., fun other ↦ ?_, fun other ho ↦ ?_⟩
  · by_cases h : pos = other
    · subst h
      rw [rowAt_set_self hp, hl, hf]
    · rw [rowAt_set_ne rows h]
  · have h : pos ≠ other := by
      rintro rfl
      rw [hf] at ho
      cases ho
    rw [rowAt_set_ne rows h]

end Reshuffled

namespace Placement

variable {p q : Placement} {n : Nat}

/-- A run only exchanges live rows until it settles. -/
theorem Valid.reshuffled (hv : p.Valid) (hr : Reaches p n q) : Reshuffled p.rows q.rows := by
  induction hr with
  | refl => exact .refl _
  | onward hr hs ih =>
    apply ih.trans
    obtain ⟨-, ⟨-, rfl⟩ | ⟨-, hl, -, rfl⟩⟩ := step_onward hs
    · exact .refl _
    · exact .set hl (hv.reaches hr).isLive_inHand

/-- A placement turns one row that is not live into a live one and otherwise only exchanges live
rows. -/
theorem Valid.fills (hv : p.Valid) {limit : Nat} {rows : Index}
    (h : p.settle? limit = some rows) : ∃ mid free row, Reshuffled p.rows mid ∧
      free < mid.size ∧ (rowAt mid free).isLive = false ∧ row.isLive = true ∧
      rows = mid.setIfInBounds free row := by
  obtain ⟨n, -, q, hr, hs⟩ := reaches_of_settle? h
  have hq := hv.reaches hr
  exact ⟨q.rows, q.target, q.inHand, hv.reshuffled hr, (hq.target_free hs).1,
    (hq.target_free hs).2, hq.isLive_inHand, (step_settled hs).1⟩

end Placement

end Index

end RobinHood
