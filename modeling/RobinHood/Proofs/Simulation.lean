import Mathlib.Data.List.Induction
import RobinHood.Proofs.Refusal

/-!
# Programs that follow a model

A program is a list of calls. It follows a model if, after each of its calls, every answer so far is
the model's, and the state shows what the model has come to. If a relation to the model survives
each call but a bad one, and no bad call is followed, then the programs that follow the model are
those that make no bad call.
-/

namespace RobinHood

variable {S L C A E : Type}

/-- The answers so far and the state, after one more call. -/
def runCall (step : S → C → Except E (A × S)) (r : List A × S) (call : C) :
    Except E (List A × S) := do
  let next ← step r.2 call
  return (r.1 ++ [next.1], next.2)

/-- The answers to a list of calls and the state after it. -/
def runCalls (step : S → C → Except E (A × S)) (s : S) (calls : List C) :
    Except E (List A × S) :=
  calls.foldlM (runCall step) ([], s)

/-- The answers that a model gives to a list of calls and what it has come to after it. -/
def modelCalls (model : L → C → A × L) (l : L) (calls : List C) : List A × L :=
  calls.foldl (fun r call ↦ (r.1 ++ [(model r.2 call).1], (model r.2 call).2)) ([], l)

/-- After each call, the answers so far are the model's and the state shows what it has come to. -/
def Follows (step : S → C → Except E (A × S)) (model : L → C → A × L) (shows : S → L → Prop)
    (s : S) (l : L) (calls : List C) : Prop :=
  ∀ done, done <+: calls → ∃ s', runCalls step s done = .ok ((modelCalls model l done).1, s') ∧
    shows s' (modelCalls model l done).2

/-- No call is a bad one for the state in which it is made. -/
def Avoids (step : S → C → Except E (A × S)) (bad : S → C → Prop) (s : S) (calls : List C) :
    Prop :=
  ∀ done call, done ++ [call] <+: calls → ∀ answers s',
    runCalls step s done = .ok (answers, s') → ¬ bad s' call

variable {step : S → C → Except E (A × S)} {model : L → C → A × L} {shows R : S → L → Prop}
  {bad : S → C → Prop} {fits : L → Prop} {s s' : S} {l : L} {calls : List C} {call : C}
  {answers : List A}

theorem modelCalls_concat : modelCalls model l (calls ++ [call]) =
    ((modelCalls model l calls).1 ++ [(model (modelCalls model l calls).2 call).1],
      (model (modelCalls model l calls).2 call).2) := by
  unfold modelCalls
  rw [List.foldl_append]
  rfl

/-- After a list of calls, one more call is made in the state after them. -/
theorem runCalls_concat (h : runCalls step s calls = .ok (answers, s')) :
    runCalls step s (calls ++ [call]) =
      step s' call >>= fun next ↦ .ok (answers ++ [next.1], next.2) := by
  unfold runCalls at h ⊢
  rw [List.foldlM_append, h]
  simp only [List.foldlM_cons, List.foldlM_nil, bind_pure]
  rfl

/-- The states alone, when nobody listens to the answers. -/
theorem map_snd_runCalls : (runCalls step s calls).map Prod.snd =
    calls.foldlM (fun s call ↦ (step s call).map Prod.snd) s := by
  -- The induction is over the calls still to be made, with any answers given before.
  have hall (answers : List A) (s : S) :
      (calls.foldlM (runCall step) (answers, s)).map Prod.snd =
        calls.foldlM (fun s call ↦ (step s call).map Prod.snd) s := by
    induction calls generalizing s answers with
    | nil => rfl
    | cons call calls ih =>
      rw [List.foldlM_cons, List.foldlM_cons, runCall]
      cases step s call with
      | error e => rfl
      | ok next => exact ih (answers ++ [next.1]) next.2
  exact hall [] s

theorem Follows.concat_iff : Follows step model shows s l (calls ++ [call]) ↔
    Follows step model shows s l calls ∧ ∃ s',
      runCalls step s (calls ++ [call]) = .ok ((modelCalls model l (calls ++ [call])).1, s') ∧
        shows s' (modelCalls model l (calls ++ [call])).2 := by
  constructor
  · intro h
    exact ⟨fun done hd ↦ h done (hd.trans (List.prefix_append calls [call])),
      h _ (List.prefix_refl _)⟩
  · rintro ⟨hall, hlast⟩ done hd
    rcases List.prefix_concat_iff.mp hd with rfl | hd
    · exact hlast
    · exact hall done hd

theorem Avoids.nil : Avoids step bad s [] := by
  intro done call hd
  simp at hd

theorem Avoids.concat_iff : Avoids step bad s (calls ++ [call]) ↔
    Avoids step bad s calls ∧ ∀ answers s', runCalls step s calls = .ok (answers, s') →
      ¬ bad s' call := by
  constructor
  · intro h
    exact ⟨fun done c hd ↦ h done c (hd.trans (List.prefix_append calls [call])),
      h calls call (List.prefix_refl _)⟩
  · rintro ⟨hall, hlast⟩ done c hd
    rcases List.prefix_concat_iff.mp hd with heq | hd
    · obtain ⟨rfl, hc⟩ := List.append_inj' heq rfl
      rw [List.singleton_inj] at hc
      rw [hc]
      exact hlast
    · exact hall done c hd

/-- A program follows the model exactly if it makes no bad call. -/
theorem follows_iff_avoids (hshows : ∀ s l, R s l → shows s l)
    (hgood : ∀ s l call, R s l → fits l → ¬ bad s call →
      ∃ s', step s call = .ok ((model l call).1, s') ∧ R s' (model l call).2)
    (hbad : ∀ s l call, R s l → bad s call → ∀ answer s', step s call = .ok (answer, s') →
      ¬ shows s' (model l call).2)
    (hR : R s l) (hfits : ∀ done, done <+: calls → fits (modelCalls model l done).2) :
    Follows step model shows s l calls ↔ Avoids step bad s calls := by
  -- Together with the claim, the relation is carried to the end of a run without a bad call.
  suffices hboth : (Follows step model shows s l calls ↔ Avoids step bad s calls) ∧
      (Avoids step bad s calls → ∃ s',
        runCalls step s calls = .ok ((modelCalls model l calls).1, s') ∧
          R s' (modelCalls model l calls).2) from hboth.1
  induction calls using List.reverseRecOn with
  | nil =>
    refine ⟨⟨fun _ ↦ .nil, fun _ done hd ↦ ?_⟩, fun _ ↦ ⟨s, rfl, hR⟩⟩
    rw [List.prefix_nil.mp hd]
    exact ⟨s, rfl, hshows s l hR⟩
  | append_singleton calls call ih =>
    obtain ⟨hiff, hrel⟩ := ih fun done hd ↦ hfits done (hd.trans (List.prefix_append calls [call]))
    have hfit := hfits calls (List.prefix_append calls [call])
    rw [Follows.concat_iff, Avoids.concat_iff, modelCalls_concat, hiff]
    refine ⟨⟨?_, ?_⟩, ?_⟩
    · rintro ⟨havoid, last, hrun, hlast⟩
      refine ⟨havoid, fun answers s' hs' hb ↦ ?_⟩
      obtain ⟨s'', hs'', hR'⟩ := hrel havoid
      rw [hs'] at hs''
      cases hs''
      rw [runCalls_concat hs'] at hrun
      obtain ⟨next, hstep, hnext⟩ := bind_eq_ok_iff.mp hrun
      obtain rfl := (Prod.mk.inj (Except.ok.inj hnext)).2
      exact hbad s' _ call hR' hb next.1 next.2 hstep hlast
    · rintro ⟨havoid, hno⟩
      obtain ⟨s', hs', hR'⟩ := hrel havoid
      obtain ⟨next, hstep, hnext⟩ := hgood s' _ call hR' hfit (hno _ s' hs')
      refine ⟨havoid, next, ?_, hshows _ _ hnext⟩
      rw [runCalls_concat hs', hstep]
      rfl
    · rintro ⟨havoid, hno⟩
      obtain ⟨s', hs', hR'⟩ := hrel havoid
      obtain ⟨next, hstep, hnext⟩ := hgood s' _ call hR' hfit (hno _ s' hs')
      refine ⟨next, ?_, hnext⟩
      rw [runCalls_concat hs', hstep]
      rfl

end RobinHood
