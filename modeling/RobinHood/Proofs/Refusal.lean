import RobinHood.Error

/-!
# Computations that may be refused

How a computation that was not refused came about, step by step.
-/

namespace RobinHood

variable {ε α β γ : Type}

/-- A sequence that is not refused is made of steps that are not refused. -/
theorem bind_eq_ok_iff {x : Except ε α} {f : α → Except ε β} {b : β} :
    x >>= f = .ok b ↔ ∃ a, x = .ok a ∧ f a = .ok b := by
  cases x with
  | error e =>
    constructor
    · intro h
      cases h
    · rintro ⟨a, ha, -⟩
      cases ha
  | ok a =>
    constructor
    · intro h
      exact ⟨a, rfl, h⟩
    · rintro ⟨a', ha, h⟩
      cases ha
      exact h

/-- A sequence is refused by its first step or by what follows it. -/
theorem bind_eq_error_iff {x : Except ε α} {f : α → Except ε β} {e : ε} :
    x >>= f = .error e ↔ x = .error e ∨ ∃ a, x = .ok a ∧ f a = .error e := by
  cases x with
  | error e' =>
    constructor
    · intro h
      cases h
      exact .inl rfl
    · rintro (h | ⟨a, ha, -⟩)
      · cases h
        rfl
      · cases ha
  | ok a =>
    constructor
    · intro h
      exact .inr ⟨a, rfl, h⟩
    · rintro (h | ⟨a', ha, h⟩)
      · cases h
      · cases ha
        exact h

/-- What each step keeps is kept by a run through a list. -/
theorem foldlM_keeps {f : β → α → Except ε β} {P : β → Prop} {l : List α} {b b' : β}
    (hstep : ∀ b, ∀ a ∈ l, ∀ b', P b → f b a = .ok b' → P b') (hb : P b)
    (h : l.foldlM f b = .ok b') : P b' := by
  induction l generalizing b with
  | nil =>
    cases h
    exact hb
  | cons a l ih =>
    rw [List.foldlM_cons] at h
    obtain ⟨next, hn, hrest⟩ := bind_eq_ok_iff.mp h
    have hnext := hstep b a List.mem_cons_self next hb hn
    exact ih (fun b a ha ↦ hstep b a (List.mem_cons_of_mem _ ha)) hnext hrest

/-- The answers to all elements of a list are answers to its elements. -/
theorem mem_of_mapM_eq_ok {f : α → Except ε β} {l : List α} {bs : List β} {b : β}
    (h : l.mapM f = .ok bs) (hb : b ∈ bs) : ∃ a ∈ l, f a = .ok b := by
  induction l generalizing bs with
  | nil =>
    cases h
    cases hb
  | cons a l ih =>
    rw [List.mapM_cons] at h
    obtain ⟨first, hf, hrest⟩ := bind_eq_ok_iff.mp h
    obtain ⟨rest, hr, hbs⟩ := bind_eq_ok_iff.mp hrest
    cases hbs
    rcases List.mem_cons.mp hb with rfl | hmem
    · exact ⟨a, List.mem_cons_self, hf⟩
    · obtain ⟨a', ha', hfa⟩ := ih hr hmem
      exact ⟨a', List.mem_cons_of_mem a ha', hfa⟩

/-- However errors are told, a computation succeeds with the same answer. -/
theorem mapError_eq_ok_iff {x : Except ε α} {f : ε → β} {a : α} :
    x.mapError f = .ok a ↔ x = .ok a := by
  cases x with
  | error e =>
    constructor
    · intro h
      cases h
    · intro h
      cases h
  | ok b =>
    constructor
    · intro h
      cases h
      rfl
    · intro h
      cases h
      rfl

namespace Halt

variable {f : α → β} {x : Except (Halt α) γ} {a : γ}

/-- Where the part is that an operation works on has no influence on its success. -/
@[simp]
theorem within_eq_ok_iff : within f x = .ok a ↔ x = .ok a := mapError_eq_ok_iff

@[simp]
theorem forget_eq_ok_iff : forget x = .ok a ↔ x = .ok a := mapError_eq_ok_iff

end Halt

end RobinHood
