import RobinHood.Proofs.Index.Chain

/-!
# Lookups

What a lookup answers, on any index whatsoever: the row it finds carries the hash and is accepted,
and where it finds nothing, no such row lies on the way up to the row that stopped it. In a
chained index nothing stops a walk too early, so lookups are exact.
-/

namespace RobinHood

namespace Index

variable {rows : Index} {hash : UInt32} {holds : Nat → Bool} {pos d : Nat}

/-- A row that a lookup accepts: a live row of the hash whose entry is accepted. -/
structure Matches (row : Row) (hash : UInt32) (holds : Nat → Bool) : Prop where
  hash_eq : row.hash = hash
  isTombstone_eq : row.isTombstone = false
  holds_entry : holds row.entry = true

theorem matches_iff {row : Row} :
    (carries row hash && holds row.entry) = true ↔ Matches row hash holds := by
  simp only [carries, Bool.and_eq_true, beq_iff_eq, Bool.not_eq_true']
  constructor
  · rintro ⟨⟨hh, ht⟩, he⟩
    exact ⟨hh, ht, he⟩
  · rintro ⟨hh, ht, he⟩
    exact ⟨⟨hh, ht⟩, he⟩

/-- Under the hash of a key, rows that match are live. -/
theorem Matches.isLive {row : Row} (h : Matches row hash holds) (hne : hash ≠ 0) :
    row.isLive = true := by
  have hh := h.hash_eq
  rw [Row.isLive_iff, Row.isEmpty_eq_false_iff, hh]
  exact ⟨hne, h.isTombstone_eq⟩

private theorem findFrom_some (h : findFrom rows hash holds d = some pos) :
    ∃ e, d ≤ e ∧ pos = walkPos rows.size hash e ∧ Matches (rowAt rows pos) hash holds ∧
      ∀ i, d ≤ i → i < e →
        bars rows.size (rowAt rows (walkPos rows.size hash i)) (walkPos rows.size hash i) i =
          false := by
  fun_induction findFrom rows hash holds d with
  | case1 d at' row hm =>
    obtain rfl := Option.some.inj h
    exact ⟨d, Nat.le_refl d, rfl, matches_iff.mp hm, fun i h1 h2 ↦ by omega⟩
  | case2 => cases h
  | case3 d at' row hm hb ih =>
    obtain ⟨e, hde, hpos, hmatch, hclear⟩ := ih h
    refine ⟨e, by omega, hpos, hmatch, fun i h1 h2 ↦ ?_⟩
    by_cases hlt : d < i
    · exact hclear i (by omega) h2
    · obtain rfl : i = d := by omega
      exact Bool.eq_false_iff.mpr hb

private theorem findFrom_none (h : findFrom rows hash holds d = none) {e : Nat} (hde : d ≤ e)
    (hclear : Clear rows hash e) :
    ¬ Matches (rowAt rows (walkPos rows.size hash e)) hash holds := by
  fun_induction findFrom rows hash holds d with
  | case1 => cases h
  | case2 d at' row hm hb =>
    by_cases hlt : d < e
    · rw [hclear d hlt] at hb
      cases hb
    · obtain rfl : e = d := by omega
      exact fun hmatch ↦ hm (matches_iff.mpr hmatch)
  | case3 d at' row hm hb ih =>
    by_cases hlt : d < e
    · exact ih h hlt
    · obtain rfl : e = d := by omega
      exact fun hmatch ↦ hm (matches_iff.mpr hmatch)

/-- A lookup finds a row that matches, and nothing on the way there stopped it. -/
theorem find?_eq_some (h : find? rows hash holds = some pos) :
    Matches (rowAt rows pos) hash holds ∧
      ∃ e, pos = walkPos rows.size hash e ∧ Clear rows hash e := by
  obtain ⟨e, -, hpos, hmatch, hclear⟩ := findFrom_some h
  exact ⟨hmatch, e, hpos, fun i hi ↦ hclear i (Nat.zero_le i) hi⟩

/-- A lookup that finds nothing has passed no row that matches. -/
theorem not_matches_of_find?_eq_none (h : find? rows hash holds = none) {e : Nat}
    (hclear : Clear rows hash e) :
    ¬ Matches (rowAt rows (walkPos rows.size hash e)) hash holds :=
  findFrom_none h (Nat.zero_le e) hclear

/-- In a chained index a lookup finds nothing exactly if no row matches. -/
theorem Chained.find?_eq_none_iff (hc : Chained rows) (hne : hash ≠ 0) :
    find? rows hash holds = none ↔ ∀ pos, ¬ Matches (rowAt rows pos) hash holds := by
  constructor
  · intro h pos hm
    have hl := hm.isLive hne
    have hclear := (hc pos hl).mono (Nat.le_succ _)
    have hw := walkPos_distAt (lt_size_of_isLive hl)
    rw [hm.hash_eq] at hclear hw
    have hno := not_matches_of_find?_eq_none h hclear
    rw [hw] at hno
    exact hno hm
  · intro h
    cases hf : find? rows hash holds with
    | none => rfl
    | some pos => exact absurd (find?_eq_some hf).1 (h pos)

/-- A chained index in which a single row matches has it found. -/
theorem Chained.find?_eq_some_of_unique (hc : Chained rows) (hne : hash ≠ 0)
    (hm : Matches (rowAt rows pos) hash holds)
    (hu : ∀ other, Matches (rowAt rows other) hash holds → other = pos) :
    find? rows hash holds = some pos := by
  cases hf : find? rows hash holds with
  | none => exact absurd hm ((hc.find?_eq_none_iff hne).mp hf pos)
  | some other => rw [hu other (find?_eq_some hf).1]

end Index

end RobinHood
