import Mathlib.Tactic
import ChronosUvm.Foundations.Panicking

/-!
Runs of a fallible transition function, with the invariant rule and the
simulation rule that every result about whole runs goes through.
-/
namespace Transitions
open Panicking

variable {σ α ε : Type}

/-- Perform the actions from left to right; the first error ends the run. -/
def run (step : σ → α → Except ε σ) : σ → List α → Except ε σ
  | s, [] => .ok s
  | s, a :: rest => step s a >>= fun s' => run step s' rest

@[simp] theorem run_nil (step : σ → α → Except ε σ) (s : σ) : run step s [] = .ok s := rfl

theorem run_cons_eq_ok {step : σ → α → Except ε σ} {s s' : σ} {a : α} {rest : List α} :
    run step s (a :: rest) = .ok s' ↔
      ∃ t, step s a = .ok t ∧ run step t rest = .ok s' := bind_returned

theorem run_append_eq_ok {step : σ → α → Except ε σ} {s s' : σ} {as bs : List α} :
    run step s (as ++ bs) = .ok s' ↔
      ∃ t, run step s as = .ok t ∧ run step t bs = .ok s' := by
  induction as generalizing s with
  | nil => simp
  | cons a as ih =>
    simp only [List.cons_append, run_cons_eq_ok, ih]
    constructor
    · rintro ⟨u, hu, t, ht, h⟩
      exact ⟨t, ⟨u, hu, ht⟩, h⟩
    · rintro ⟨t, ⟨u, hu, ht⟩, h⟩
      exact ⟨u, hu, t, ht, h⟩

/-- The rest of a run goes on from where its first part ends. -/
theorem run_of_append {step : σ → α → Except ε σ} {s t s' : σ} {as bs : List α}
    (hrun : run step s (as ++ bs) = .ok s') (has : run step s as = .ok t) :
    run step t bs = .ok s' := by
  obtain ⟨u, hu, hbs⟩ := run_append_eq_ok.mp hrun
  obtain rfl : t = u := Except.ok.inj (has.symm.trans hu)
  exact hbs

/-- An invariant of every action that occurs in the run holds where the run ends. -/
theorem run_invariant {step : σ → α → Except ε σ} {P : σ → Prop} {s s' : σ} {as : List α}
    (hstep : ∀ a ∈ as, ∀ t t', P t → step t a = .ok t' → P t')
    (h0 : P s) (hrun : run step s as = .ok s') : P s' := by
  induction as generalizing s with
  | nil => cases hrun; exact h0
  | cons a as ih =>
    obtain ⟨t, ht, hrest⟩ := run_cons_eq_ok.mp hrun
    exact ih (fun b hb => hstep b (List.mem_cons_of_mem _ hb))
      (hstep a List.mem_cons_self s t h0 ht) hrest

/-- What holds at the end of a run and not at its start came about in one of its steps. -/
theorem exists_step_of_run {step : σ → α → Except ε σ} {P : σ → Prop} {s s' : σ} {as : List α}
    (h0 : ¬ P s) (hend : P s') (hrun : run step s as = .ok s') :
    ∃ pre a post t t', as = pre ++ a :: post ∧ run step s pre = .ok t ∧ step t a = .ok t' ∧
      run step t' post = .ok s' ∧ ¬ P t ∧ P t' := by
  induction as generalizing s with
  | nil =>
    cases hrun
    exact absurd hend h0
  | cons a as ih =>
    obtain ⟨u, hstep, hrest⟩ := run_cons_eq_ok.mp hrun
    by_cases hu : P u
    · exact ⟨[], a, as, s, u, rfl, rfl, hstep, hrest, h0, hu⟩
    · obtain ⟨pre, b, post, t, t', rfl, hpre, hb, hpost, hgain⟩ := ih hu hrest
      exact ⟨a :: pre, b, post, t, t', rfl, run_cons_eq_ok.mpr ⟨u, hstep, hpre⟩, hb, hpost, hgain⟩

/-- Somewhere in the run an action is performed in a state with which it satisfies `Q`. -/
def Occurs (step : σ → α → Except ε σ) (s : σ) (as : List α) (Q : σ → α → Prop) : Prop :=
  ∃ pre a post t, as = pre ++ a :: post ∧ run step s pre = .ok t ∧ Q t a

theorem not_occurs_nil (step : σ → α → Except ε σ) (s : σ) (Q : σ → α → Prop) :
    ¬ Occurs step s [] Q := by
  rintro ⟨pre, a, post, t, hsplit, -⟩
  simp at hsplit

theorem occurs_cons {step : σ → α → Except ε σ} {s t : σ} {a : α} {rest : List α}
    {Q : σ → α → Prop} (hstep : step s a = .ok t) :
    Occurs step s (a :: rest) Q ↔ Q s a ∨ Occurs step t rest Q := by
  constructor
  · rintro ⟨pre, b, post, u, hsplit, hrun, hQ⟩
    cases pre with
    | nil =>
      cases hsplit
      cases hrun
      exact .inl hQ
    | cons c pre =>
      cases hsplit
      obtain ⟨t', ht', hrun⟩ := run_cons_eq_ok.mp hrun
      obtain rfl : t = t' := Except.ok.inj (hstep.symm.trans ht')
      exact .inr ⟨pre, b, post, u, rfl, hrun, hQ⟩
  · rintro (hQ | ⟨pre, b, post, u, rfl, hrun, hQ⟩)
    · exact ⟨[], a, rest, s, rfl, rfl, hQ⟩
    · exact ⟨a :: pre, b, post, u, rfl, run_cons_eq_ok.mpr ⟨t, hstep, hrun⟩, hQ⟩

theorem occurs_append {step : σ → α → Except ε σ} {s t : σ} {as bs : List α}
    {Q : σ → α → Prop} (hrun : run step s as = .ok t) :
    Occurs step s (as ++ bs) Q ↔ Occurs step s as Q ∨ Occurs step t bs Q := by
  induction as generalizing s with
  | nil =>
    obtain rfl : s = t := Except.ok.inj hrun
    simp [not_occurs_nil]
  | cons a as ih =>
    obtain ⟨u, hstep, hrest⟩ := run_cons_eq_ok.mp hrun
    rw [List.cons_append, occurs_cons hstep, occurs_cons hstep, ih hrest, or_assoc]

/-- What every step keeps that does not satisfy `Q` holds at the end if `Q` never occurred. -/
theorem run_invariant_of_not_occurs {step : σ → α → Except ε σ} {P : σ → Prop}
    {Q : σ → α → Prop} {s s' : σ} {as : List α}
    (hstep : ∀ a ∈ as, ∀ t t', P t → ¬ Q t a → step t a = .ok t' → P t')
    (hnever : ¬ Occurs step s as Q) (h0 : P s) (hrun : run step s as = .ok s') : P s' := by
  induction as generalizing s with
  | nil => cases hrun; exact h0
  | cons a as ih =>
    obtain ⟨t, ht, hrest⟩ := run_cons_eq_ok.mp hrun
    obtain ⟨hQ, hnever⟩ := not_or.mp ((occurs_cons ht).not.mp hnever)
    exact ih (fun b hb => hstep b (List.mem_cons_of_mem _ hb)) hnever
      (hstep a List.mem_cons_self s t h0 hQ ht) hrest

/-- What every step keeps unless it satisfies `Q`, and what is never regained once it is lost,
holds at the end of a run exactly when it held at the start and `Q` never occurred. Steps that
satisfy `N` do not occur. -/
theorem run_iff_not_occurs_of_not_occurs {step : σ → α → Except ε σ} {I P : σ → Prop}
    {N Q : σ → α → Prop} {s s' : σ} {as : List α}
    (hI : ∀ a ∈ as, ∀ t t', I t → ¬ N t a → step t a = .ok t' → I t')
    (hP : ∀ a ∈ as, ∀ t t', I t → ¬ N t a → step t a = .ok t' → (P t' ↔ P t ∧ ¬ Q t a))
    (hN : ¬ Occurs step s as N) (h0 : I s) (hrun : run step s as = .ok s') :
    P s' ↔ P s ∧ ¬ Occurs step s as Q := by
  induction as generalizing s with
  | nil =>
    obtain rfl : s = s' := Except.ok.inj hrun
    exact ⟨fun h => ⟨h, not_occurs_nil step s Q⟩, And.left⟩
  | cons a as ih =>
    obtain ⟨t, hstep, hrest⟩ := run_cons_eq_ok.mp hrun
    obtain ⟨hNa, hN⟩ := not_or.mp ((occurs_cons hstep).not.mp hN)
    rw [ih (fun b hb => hI b (List.mem_cons_of_mem _ hb))
        (fun b hb => hP b (List.mem_cons_of_mem _ hb)) hN
        (hI a List.mem_cons_self s t h0 hNa hstep) hrest,
      hP a List.mem_cons_self s t h0 hNa hstep, occurs_cons hstep, not_or, and_assoc]

theorem run_iff_not_occurs {step : σ → α → Except ε σ} {I P : σ → Prop} {Q : σ → α → Prop}
    {s s' : σ} {as : List α} (hI : ∀ a ∈ as, ∀ t t', I t → step t a = .ok t' → I t')
    (hP : ∀ a ∈ as, ∀ t t', I t → step t a = .ok t' → (P t' ↔ P t ∧ ¬ Q t a))
    (h0 : I s) (hrun : run step s as = .ok s') : P s' ↔ P s ∧ ¬ Occurs step s as Q := by
  have hnever : ¬ Occurs step s as fun _ _ => False := by
    rintro ⟨-, -, -, -, -, -, h⟩
    exact h
  exact run_iff_not_occurs_of_not_occurs (fun a ha t t' ht _ => hI a ha t t' ht)
    (fun a ha t t' ht _ => hP a ha t t' ht) hnever h0 hrun

/-- The state is on a run of such actions that ends in `final`. -/
def Reaches (step : σ → α → Except ε σ) (P : α → Prop) (s final : σ) : Prop :=
  ∃ as, (∀ a ∈ as, P a) ∧ run step s as = .ok final

section Simulation
variable {σ' α' ε' β : Type} {step : σ → α → Except ε σ} {step' : σ' → α' → Except ε' σ'}
  {R : σ → σ' → Prop} {P : α → Prop} {P' : α' → Prop}

/-- Actions of the second system that need no counterpart all succeed and keep the relation. -/
theorem run_stuttering {s : σ} {s' : σ'} {as' : List α'}
    (hright : ∀ a ∈ as', ∀ t', R s t' → ∃ u', step' t' a = .ok u' ∧ R s u') (h0 : R s s') :
    ∃ u', run step' s' as' = .ok u' ∧ R s u' := by
  induction as' generalizing s' with
  | nil => exact ⟨s', rfl, h0⟩
  | cons a as' ih =>
    obtain ⟨t', ht', hR⟩ := hright a List.mem_cons_self s' h0
    obtain ⟨u', hu', hR'⟩ := ih (fun b hb => hright b (List.mem_cons_of_mem _ hb)) hR
    exact ⟨u', run_cons_eq_ok.mpr ⟨t', ht', hu'⟩, hR'⟩

/-- Two runs that returned and share their visible actions: what every step without
counterpart keeps, and every two steps with the same visible action, holds at the end. -/
theorem run_lockstep {visible : α → Option β} {visible' : α' → Option β} {as : List α}
    {as' : List α'} {s final : σ} {s' final' : σ'}
    (hleft : ∀ a t u t', visible a = none → R t t' → step t a = .ok u → R u t')
    (hright : ∀ a' t t' u', visible' a' = none → R t t' → step' t' a' = .ok u' → R t u')
    (hboth : ∀ a a' b t u t' u', visible a = some b → visible' a' = some b → R t t' →
      step t a = .ok u → step' t' a' = .ok u' → R u u')
    (hsame : as'.filterMap visible' = as.filterMap visible) (h0 : R s s')
    (hrun : run step s as = .ok final) (hrun' : run step' s' as' = .ok final') :
    R final final' := by
  induction as generalizing s s' as' with
  | nil =>
    cases hrun
    have hinvisible := List.filterMap_eq_nil_iff.mp hsame
    exact run_invariant (fun a ha t' u' => hright a _ t' u' (hinvisible a ha)) h0 hrun'
  | cons a as ih =>
    obtain ⟨t, hstep, hrest⟩ := run_cons_eq_ok.mp hrun
    cases hvisible : visible a with
    | none =>
      rw [List.filterMap_cons_none hvisible] at hsame
      exact ih hsame (hleft a s t s' hvisible h0 hstep) hrest hrun'
    | some v =>
      rw [List.filterMap_cons_some hvisible] at hsame
      obtain ⟨pre, a', post, rfl, hpre, ha', hpost⟩ := List.filterMap_eq_cons_iff.mp hsame
      obtain ⟨t', hrun₁, hrun₂⟩ := run_append_eq_ok.mp hrun'
      obtain ⟨u', hstep', hrest'⟩ := run_cons_eq_ok.mp hrun₂
      have hR : R s t' := run_invariant (fun b hb t' u' => hright b s t' u' (hpre b hb)) h0 hrun₁
      exact ih hpost (hboth a a' v s t t' u' hvisible ha' hR hstep hstep') hrest hrest'

/-- Two systems in lockstep on their visible actions. Where the first run returned, so does
every run of the second with the same visible actions, and the relation holds at the end. A
step of the first system is only asked about on the way to the end of its run. -/
theorem run_simulation {visible : α → Option β} {visible' : α' → Option β} {as : List α}
    {as' : List α'} {s final : σ} {s' : σ'}
    (hleft : ∀ a t u t', P a → visible a = none → R t t' → step t a = .ok u →
      Reaches step P u final → R u t')
    (hright : ∀ a' t t', P' a' → visible' a' = none → R t t' → ∃ u', step' t' a' = .ok u' ∧ R t u')
    (hboth : ∀ a a' b t u t', P a → P' a' → visible a = some b → visible' a' = some b →
      R t t' → step t a = .ok u → Reaches step P u final → ∃ u', step' t' a' = .ok u' ∧ R u u')
    (hP : ∀ a ∈ as, P a) (hP' : ∀ a' ∈ as', P' a')
    (hsame : as'.filterMap visible' = as.filterMap visible) (h0 : R s s')
    (hrun : run step s as = .ok final) :
    ∃ final', run step' s' as' = .ok final' ∧ R final final' := by
  induction as generalizing s s' as' with
  | nil =>
    cases hrun
    have hinvisible := List.filterMap_eq_nil_iff.mp hsame
    exact run_stuttering (fun a ha t' => hright a _ t' (hP' a ha) (hinvisible a ha)) h0
  | cons a as ih =>
    obtain ⟨t, hstep, hrest⟩ := run_cons_eq_ok.mp hrun
    have ha := hP a List.mem_cons_self
    have has : ∀ b ∈ as, P b := fun b hb => hP b (List.mem_cons_of_mem _ hb)
    cases hvisible : visible a with
    | none =>
      rw [List.filterMap_cons_none hvisible] at hsame
      have hR := hleft a s t s' ha hvisible h0 hstep ⟨as, has, hrest⟩
      exact ih has hP' hsame hR hrest
    | some v =>
      rw [List.filterMap_cons_some hvisible] at hsame
      obtain ⟨pre, a', post, rfl, hpre, ha', hpost⟩ := List.filterMap_eq_cons_iff.mp hsame
      -- the second system first performs what needs no counterpart
      obtain ⟨t', ht', hR⟩ := run_stuttering
        (fun b hb t' => hright b s t' (hP' b (by simp [hb])) (hpre b hb)) h0
      obtain ⟨u', hu', hR'⟩ := hboth a a' v s t t' ha (hP' a' (by simp)) hvisible ha' hR hstep
        ⟨as, has, hrest⟩
      obtain ⟨final', hfinal, hend⟩ := ih has (fun b hb => hP' b (by simp [hb])) hpost hR' hrest
      exact ⟨final', run_append_eq_ok.mpr ⟨t', ht', run_cons_eq_ok.mpr ⟨u', hu', hfinal⟩⟩, hend⟩

end Simulation
end Transitions
