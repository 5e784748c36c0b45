import Mathlib.Tactic
import ChronosUvm.Foundations.Transitions

/-!
The backlog of a bounded queue under a load of arrivals and services, where a service
of an empty queue is wasted. Started empty, the queue stays within its capacity exactly
when no stretch of the load has more than that many arrivals above its services.
-/
namespace Backlog
open Transitions

inductive Load where
  | arrival
  | service
  | other
  deriving DecidableEq, Repr

def advance (n : ℕ) : Load → ℕ
  | .arrival => n + 1
  | .service => n - 1
  | .other => n

/-- The backlog after a load, were the queue unbounded. -/
def level (n : ℕ) (load : List Load) : ℕ := load.foldl advance n

/-- In every stretch of the load the arrivals exceed the services by at most the capacity. -/
def Within (capacity : ℕ) (load : List Load) : Prop :=
  ∀ stretch, stretch <:+: load → stretch.count .arrival ≤ capacity + stretch.count .service

theorem level_append_singleton (n : ℕ) (load : List Load) (l : Load) :
    level n (load ++ [l]) = advance (level n load) l := by
  unfold level
  rw [List.foldl_append]
  rfl

/-- The backlog is the largest excess of arrivals over services in any suffix. -/
theorem level_le_iff (capacity : ℕ) (load : List Load) :
    level 0 load ≤ capacity ↔
      ∀ suffix, suffix <:+ load → suffix.count .arrival ≤ capacity + suffix.count .service := by
  induction load using List.reverseRecOn generalizing capacity with
  | nil =>
    constructor
    · intro _ suffix hsuffix
      rw [List.suffix_nil.mp hsuffix]
      exact Nat.zero_le _
    · exact fun _ => Nat.zero_le _
  | append_singleton load l ih =>
    have hsuffixes (P : List Load → Prop) : (∀ suffix, suffix <:+ load ++ [l] → P suffix) ↔
        P [] ∧ ∀ suffix, suffix <:+ load → P (suffix ++ [l]) := by
      constructor
      · intro h
        refine ⟨h [] (List.nil_suffix), fun suffix hsuffix => h _ ?_⟩
        obtain ⟨pre, rfl⟩ := hsuffix
        exact ⟨pre, (List.append_assoc _ _ _).symm⟩
      · rintro ⟨hnil, hrest⟩ suffix ⟨pre, hpre⟩
        rcases List.eq_nil_or_concat suffix with rfl | ⟨init, last, rfl⟩
        · exact hnil
        · rw [List.concat_eq_append, ← List.append_assoc] at hpre
          obtain ⟨hinit, hlast⟩ := List.append_inj' hpre rfl
          rw [List.concat_eq_append, hlast]
          exact hrest init ⟨pre, hinit⟩
    rw [level_append_singleton, hsuffixes]
    simp only [List.count_append, List.count_nil, Nat.zero_le, true_and]
    cases l with
    | arrival =>
      cases capacity with
      | zero =>
        simp only [advance, Nat.le_zero_eq, Nat.succ_ne_zero, false_iff, not_forall]
        exact ⟨[], List.nil_suffix, by simp⟩
      | succ capacity =>
        simp only [advance, Nat.add_le_add_iff_right, ih]
        apply forall₂_congr
        intro suffix _
        simp only [List.count_singleton_self, List.count_singleton, beq_iff_eq, reduceCtorEq,
          if_false]
        omega
    | service =>
      simp only [advance, Nat.sub_le_iff_le_add, ih]
      apply forall₂_congr
      intro suffix _
      simp only [List.count_singleton_self, List.count_singleton, beq_iff_eq, reduceCtorEq,
        if_false]
      omega
    | other =>
      simp only [advance, ih]
      apply forall₂_congr
      intro suffix _
      simp only [List.count_singleton, beq_iff_eq, reduceCtorEq, if_false]
      omega

/-- Within the capacity at every moment. -/
theorem within_iff (capacity : ℕ) (load : List Load) :
    Within capacity load ↔ ∀ pre, pre <+: load → level 0 pre ≤ capacity := by
  simp only [level_le_iff]
  constructor
  · intro h pre hpre suffix hsuffix
    exact h suffix (hsuffix.isInfix.trans hpre.isInfix)
  · rintro h stretch ⟨before, after, rfl⟩
    exact h (before ++ stretch) (List.prefix_append _ _) stretch (List.suffix_append _ _)

section Runs
variable {σ α ε : Type}

/-- The load that a run puts on a queue. -/
def loads (step : σ → α → Except ε σ) (load : σ → α → Load) : σ → List α → List Load
  | _, [] => []
  | s, a :: rest => load s a :: match step s a with
    | .ok s' => loads step load s' rest
    | .error _ => []

theorem loads_cons {step : σ → α → Except ε σ} {load : σ → α → Load} {s t : σ} {a : α}
    {rest : List α} (h : step s a = .ok t) :
    loads step load s (a :: rest) = load s a :: loads step load t rest := by
  rw [loads, h]

/-- The queue of a system whose arrivals are turned away only when the queue is full. As long
as none is turned away its length is the level of the load, so none is turned away in a run
exactly when the level stays within the capacity. -/
theorem not_occurs_iff_level {step : σ → α → Except ε σ} {load : σ → α → Load}
    {blocked : σ → α → Prop} {I : σ → Prop} {q : σ → ℕ} {capacity : ℕ} {s s' : σ}
    {as : List α} (hI : ∀ a ∈ as, ∀ t t', I t → step t a = .ok t' → I t')
    (hle : ∀ t, I t → q t ≤ capacity)
    (hblocked : ∀ a ∈ as, ∀ t t', I t → step t a = .ok t' →
      (blocked t a ↔ load t a = .arrival ∧ q t = capacity))
    (hlength : ∀ a ∈ as, ∀ t t', I t → step t a = .ok t' → ¬ blocked t a →
      q t' = advance (q t) (load t a))
    (h0 : I s) (hrun : run step s as = .ok s') :
    ¬ Occurs step s as blocked ↔
      ∀ pre, pre <+: loads step load s as → level (q s) pre ≤ capacity := by
  induction as generalizing s with
  | nil =>
    simp only [not_occurs_nil, not_false_eq_true, loads, List.prefix_nil, forall_eq, true_iff]
    exact hle s h0
  | cons a as ih =>
    obtain ⟨t, hstep, hrest⟩ := run_cons_eq_ok.mp hrun
    have hhead := List.mem_cons_self (a := a) (l := as)
    have htail (b : α) (hb : b ∈ as) : b ∈ a :: as := List.mem_cons_of_mem _ hb
    have hnext := ih (fun b hb => hI b (htail b hb)) (fun b hb => hblocked b (htail b hb))
      (fun b hb => hlength b (htail b hb)) (hI a hhead s t h0 hstep) hrest
    rw [occurs_cons hstep, not_or, hnext, loads_cons hstep]
    have hprefixes : (∀ pre, pre <+: load s a :: loads step load t as →
          level (q s) pre ≤ capacity) ↔
        ∀ pre, pre <+: loads step load t as →
          level (advance (q s) (load s a)) pre ≤ capacity := by
      constructor
      · intro h pre hpre
        exact h (load s a :: pre) (List.cons_prefix_cons.mpr ⟨rfl, hpre⟩)
      · intro h pre hpre
        cases pre with
        | nil => exact hle s h0
        | cons l pre =>
          obtain ⟨rfl, hpre'⟩ := List.cons_prefix_cons.mp hpre
          exact h pre hpre'
    rw [hprefixes]
    by_cases hnow : blocked s a
    · -- one arrival more than there is room for
      obtain ⟨harrival, hfull⟩ := (hblocked a hhead s t h0 hstep).mp hnow
      simp only [hnow, not_true_eq_false, false_and, false_iff]
      intro h
      have := h [] ⟨_, rfl⟩
      rw [harrival, hfull] at this
      exact Nat.not_succ_le_self capacity this
    · rw [← hlength a hhead s t h0 hstep hnow]
      simp only [hnow, not_false_eq_true, true_and]

end Runs
end Backlog
