import Mathlib.Tactic

/-!
What the past of a run says about now: an event that nothing has undone since.
A step appends one event, so one equation carries every induction over a past.
-/
namespace Histories

variable {α : Type} {P Q : α → Prop}

/-- A place in a past that one event was appended to is an old one, or it is that event. -/
theorem append_singleton_eq_append_cons {history before after : List α} {e a : α}
    (h : history ++ [e] = before ++ a :: after) :
    (∃ after', history = before ++ a :: after') ∨ (history = before ∧ e = a) := by
  rcases List.eq_nil_or_concat' after with rfl | ⟨init, last, rfl⟩
  · obtain ⟨hbefore, he⟩ := List.append_inj' h rfl
    exact .inr ⟨hbefore, List.singleton_inj.mp he⟩
  · left
    refine ⟨init, ?_⟩
    rw [← List.cons_append, ← List.append_assoc] at h
    exact (List.append_inj' h rfl).1

/-- Some event satisfied `P`, and no later one satisfied `Q`. -/
def Since (P Q : α → Prop) (history : List α) : Prop :=
  ∃ before e after, history = before ++ e :: after ∧ P e ∧ ∀ x ∈ after, ¬ Q x

theorem not_since_nil : ¬ Since P Q [] := by
  rintro ⟨before, e, after, hsplit, -⟩
  simp at hsplit

/-- The last event decides: it satisfies `P`, or it lets the past stand. -/
theorem since_concat {history : List α} {e : α} :
    Since P Q (history ++ [e]) ↔ P e ∨ ¬ Q e ∧ Since P Q history := by
  constructor
  · rintro ⟨before, a, after, hsplit, ha, hafter⟩
    rcases List.eq_nil_or_concat' after with rfl | ⟨after, last, rfl⟩
    · obtain ⟨-, he⟩ := List.append_inj' hsplit rfl
      obtain rfl := (List.cons.inj he).1
      exact .inl ha
    · rw [← List.cons_append, ← List.append_assoc] at hsplit
      obtain ⟨hhistory, hlast⟩ := List.append_inj' hsplit rfl
      obtain rfl := (List.cons.inj hlast).1
      exact .inr ⟨hafter e (by simp), before, a, after, hhistory, ha,
        fun x hx => hafter x (by simp [hx])⟩
  · rintro (he | ⟨he, before, a, after, rfl, ha, hafter⟩)
    · exact ⟨history, e, [], rfl, he, by simp⟩
    · refine ⟨before, a, after ++ [e], by simp, ha, ?_⟩
      intro x hx
      rcases List.mem_append.mp hx with hx | hx
      · exact hafter x hx
      · obtain rfl := List.mem_singleton.mp hx
        exact he

theorem Since.exists_mem {history : List α} (h : Since P Q history) : ∃ e ∈ history, P e := by
  obtain ⟨before, e, after, rfl, he, -⟩ := h
  exact ⟨e, by simp, he⟩

end Histories
