import RobinHood.Index.Lookup
import RobinHood.Proofs.Index.Circle
import RobinHood.Proofs.Index.Contents

/-!
# Unbroken chains

A key is found only if nothing on the way from its home stops the walk. An index is `Chained` if
that holds for each of its live rows: every row from home up to the live row holds something,
and stands at least as far from its own home as the walk has come. Tombstones take part like
any other row, which is why they keep the hash of the row that they replace.
-/

namespace RobinHood

namespace Index

/-- No row stops a walk for `hash` in its first `steps` rows. -/
def Clear (rows : Index) (hash : UInt32) (steps : Nat) : Prop :=
  ∀ d < steps,
    bars rows.size (rowAt rows (walkPos rows.size hash d)) (walkPos rows.size hash d) d = false

/-- Each live row is in reach of a walk from its home. -/
def Chained (rows : Index) : Prop :=
  ∀ pos, (rowAt rows pos).isLive = true →
    Clear rows (rowAt rows pos).hash (distAt rows pos + 1)

/-- Only the rows of the index have to be looked at. -/
theorem chained_iff {rows : Index} : Chained rows ↔ ∀ pos < rows.size,
    (rowAt rows pos).isLive = true → ∀ d < distAt rows pos + 1,
      bars rows.size (rowAt rows (walkPos rows.size (rowAt rows pos).hash d))
        (walkPos rows.size (rowAt rows pos).hash d) d = false := by
  constructor
  · exact fun h pos _ hl ↦ h pos hl
  · exact fun h pos hl ↦ h pos (lt_size_of_isLive hl) hl

instance (rows : Index) : Decidable (Chained rows) := decidable_of_iff' _ chained_iff

/-- A row lets a walk pass if it holds something and stands at least as far from its home. -/
theorem bars_eq_false_iff {size : Nat} {row : Row} {pos d : Nat} :
    bars size row pos d = false ↔ row.isEmpty = false ∧ d ≤ distance size row.hash pos := by
  simp [bars]

namespace Clear

variable {rows : Index} {hash : UInt32} {steps d : Nat}

/-- A walk that was not stopped has passed no empty row. -/
theorem isEmpty_eq_false (h : Clear rows hash steps) (hd : d < steps) :
    (rowAt rows (walkPos rows.size hash d)).isEmpty = false :=
  (bars_eq_false_iff.mp (h d hd)).1

/-- A walk that was not stopped has passed no row closer to its home. -/
theorem le_distAt (h : Clear rows hash steps) (hd : d < steps) :
    d ≤ distAt rows (walkPos rows.size hash d) :=
  (bars_eq_false_iff.mp (h d hd)).2

/-- The beginning of a walk that was not stopped was not stopped either. -/
theorem mono (h : Clear rows hash steps) (hd : d ≤ steps) : Clear rows hash d :=
  fun e he ↦ h e (Nat.lt_of_lt_of_le he hd)

/-- A walk goes one row further past a row that does not stop it. -/
theorem succ (h : Clear rows hash steps)
    (hb : bars rows.size (rowAt rows (walkPos rows.size hash steps))
      (walkPos rows.size hash steps) steps = false) : Clear rows hash (steps + 1) := by
  intro d hd
  by_cases hlt : d < steps
  · exact h d hlt
  · obtain rfl : d = steps := by omega
    exact hb

/-- No walk passes more rows than there are. -/
theorem le_size (h : Clear rows hash steps) : steps ≤ rows.size := by
  rcases Nat.lt_or_ge rows.size steps with hlt | hge
  · have hlt' := lt_size_of_not_bars (h rows.size hlt)
    omega
  · exact hge

end Clear

variable {rows : Index}

/-- A live row stands as far into the walk from its home as it is far from home. -/
theorem walkPos_distAt {pos : Nat} (h : pos < rows.size) :
    walkPos rows.size (rowAt rows pos).hash (distAt rows pos) = pos :=
  walkPos_distance _ h

/-- Every row stands less than a round from its home. -/
theorem distAt_lt {pos : Nat} (h : 0 < rows.size) : distAt rows pos < rows.size :=
  distance_lt h _ _

namespace Chained

variable {hash : UInt32} {j k pos : Nat}

/-- The rows a live row was pushed past hold something, and stand as far from home as it did when
it was pushed past them. -/
theorem behind (hc : Chained rows) (hl : (rowAt rows (walkPos rows.size hash j)).isLive = true)
    (hk : k ≤ j) (hd : j ≤ k + distAt rows (walkPos rows.size hash j)) :
    (rowAt rows (walkPos rows.size hash k)).isEmpty = false ∧
      distAt rows (walkPos rows.size hash j) ≤
        distAt rows (walkPos rows.size hash k) + (j - k) := by
  have hw := walkPos_distAt (lt_size_of_isLive hl)
  have hm := walkPos_sub hw.symm (i := j - k) (by omega) (by omega)
  have hlt : distAt rows (walkPos rows.size hash j) - (j - k) <
      distAt rows (walkPos rows.size hash j) + 1 := by omega
  have hclear := hc _ hl
  have he := hclear.isEmpty_eq_false hlt
  have hle := hclear.le_distAt hlt
  rw [← hm, show j - (j - k) = k by omega] at he hle
  exact ⟨he, by omega⟩

/-- A live row further on started no earlier than a row it may have been pushed past. -/
theorem ahead (hc : Chained rows) (hl : (rowAt rows (walkPos rows.size hash j)).isLive = true)
    (hk : k ≤ j) : distAt rows (walkPos rows.size hash j) ≤
      distAt rows (walkPos rows.size hash k) + (j - k) := by
  rcases Nat.lt_or_ge (k + distAt rows (walkPos rows.size hash j)) j with hlt | hge
  · omega
  · exact (hc.behind hl hk hge).2

/-- An index without live rows is chained. -/
theorem blank (size : Nat) : Chained (blank size) := by
  intro pos hl
  rw [rowAt_blank, Row.isLive_empty] at hl
  cases hl

/-- Chains depend on the hashes alone, as long as no row comes to life. -/
theorem of_hash_eq {rows' : Index} (hc : Chained rows) (hs : rows'.size = rows.size)
    (hh : ∀ pos, (rowAt rows' pos).hash = (rowAt rows pos).hash)
    (hl : ∀ pos, (rowAt rows' pos).isLive = true → (rowAt rows pos).isLive = true) :
    Chained rows' := by
  intro pos hlive d hd
  have hb := hc pos (hl pos hlive) d
  unfold distAt at hb hd
  rw [hs, hh] at hd
  have he := hb hd
  unfold bars Row.isEmpty at he ⊢
  rwa [hs, hh, hh]

/-- A live row may be written where its own walk arrives, in less than a round, if no live row
that was pushed past the place had come farther there. -/
theorem set {d entry : Nat} (hc : Chained rows) (hne : hash ≠ 0) (hd : d < rows.size)
    (hown : Clear rows hash d)
    (hothers : ∀ pos, (rowAt rows pos).isLive = true → pos ≠ walkPos rows.size hash d →
      ∀ e ≤ distAt rows pos,
        walkPos rows.size (rowAt rows pos).hash e = walkPos rows.size hash d → e ≤ d) :
    Chained (rows.setIfInBounds (walkPos rows.size hash d) (Row.live hash entry)) := by
  have hlt : walkPos rows.size hash d < rows.size := walkPos_lt (by omega) hash d
  -- The written row lets pass whatever had come no farther than it.
  have hpass (e : Nat) (he : e ≤ d) : bars rows.size (Row.live hash entry)
      (walkPos rows.size hash d) e = false := by
    rw [bars_eq_false_iff, Row.hash_live, distance_walkPos hash hd]
    exact ⟨Row.isEmpty_live hne entry, he⟩
  intro pos hl e he
  rw [size_set]
  by_cases hp : walkPos rows.size hash d = pos
  · subst hp
    rw [distAt, size_set, rowAt_set_self hlt, Row.hash_live, distance_walkPos hash hd] at he
    rw [rowAt_set_self hlt, Row.hash_live]
    by_cases hed : e < d
    · have hne' : walkPos rows.size hash d ≠ walkPos rows.size hash e :=
        (walkPos_ne hash hed (by omega)).symm
      rw [rowAt_set_ne rows hne']
      exact hown e hed
    · obtain rfl : e = d := by omega
      rw [rowAt_set_self hlt]
      exact hpass e (Nat.le_refl e)
  · rw [rowAt_set_ne rows hp] at hl ⊢
    rw [distAt_set_ne rows hp] at he
    by_cases hw : walkPos rows.size hash d = walkPos rows.size (rowAt rows pos).hash e
    · rw [← hw, rowAt_set_self hlt]
      exact hpass e (hothers pos hl (Ne.symm hp) e (by omega) hw.symm)
    · rw [rowAt_set_ne rows hw]
      exact hc pos hl e he

end Chained

end Index

end RobinHood
