import Mathlib.Tactic
import ChronosUvm.Foundations.Transitions

/-!
Refinement mappings between two transition systems. Each step of the lower system takes
effect as a list of calls of the upper one, none of them for a step that is not seen from
above; then a run of the lower system is seen as the run of its effects.
-/
namespace Refinement
open Transitions

variable {σ τ α β ε ε' : Type}

/-- What a run takes effect as, in the order of its steps. -/
def effects (step : σ → α → Except ε σ) (effect : σ → α → List β) : σ → List α → List β
  | _, [] => []
  | s, a :: rest => effect s a ++ match step s a with
    | .ok s' => effects step effect s' rest
    | .error _ => []

theorem effects_cons {step : σ → α → Except ε σ} {effect : σ → α → List β} {s t : σ} {a : α}
    {rest : List α} (h : step s a = .ok t) :
    effects step effect s (a :: rest) = effect s a ++ effects step effect t rest := by
  rw [effects, h]

/-- The refinement rule. Only steps that do not satisfy `N` have to be seen as their effects. -/
theorem run_effects {step : σ → α → Except ε σ} {step' : τ → β → Except ε' τ}
    {effect : σ → α → List β} {view : σ → τ} {N : σ → α → Prop} {s s' : σ} {as : List α}
    (hview : ∀ a t t', ¬ N t a → step t a = .ok t' →
      run step' (view t) (effect t a) = .ok (view t'))
    (hnever : ¬ Occurs step s as N) (hrun : run step s as = .ok s') :
    run step' (view s) (effects step effect s as) = .ok (view s') := by
  induction as generalizing s with
  | nil =>
    cases hrun
    rfl
  | cons a as ih =>
    obtain ⟨t, hstep, hrest⟩ := run_cons_eq_ok.mp hrun
    obtain ⟨hfirst, hlater⟩ := not_or.mp ((occurs_cons hstep).not.mp hnever)
    rw [effects_cons hstep]
    exact run_append_eq_ok.mpr ⟨view t, hview a s t hfirst hstep, ih hlater hrest⟩

/-- The functional rule. Where each step of the one system is the image of the other's, errors
included, so is each run. -/
theorem run_map {step : σ → α → Except ε σ} {step' : τ → α → Except ε τ} {f : σ → τ}
    (hstep : ∀ s a, step' (f s) a = (step s a).map f) (s : σ) (as : List α) :
    run step' (f s) as = (run step s as).map f := by
  induction as generalizing s with
  | nil => rfl
  | cons a as ih =>
    unfold run
    rw [hstep]
    cases step s a with
    | error e => rfl
    | ok t => exact ih t

end Refinement
