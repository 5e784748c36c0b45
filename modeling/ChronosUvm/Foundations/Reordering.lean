import Mathlib.Tactic

/-!
Steps that commute when their keys differ. Performing a list of them in another order
that keeps the order of equal keys leads to the same state, and every element gives the
same output at its new place.
-/
namespace Reorderings

variable {α κ σ β : Type} {key : α → κ}

/-- The outputs of the elements performed one after the other. -/
def outputs (step : σ → α → σ) (out : σ → α → β) : σ → List α → List β
  | _, [] => []
  | s, a :: l => out s a :: outputs step out (step s a) l

theorem length_outputs (step : σ → α → σ) (out : σ → α → β) (s : σ) (l : List α) :
    (outputs step out s l).length = l.length := by
  induction l generalizing s with
  | nil => rfl
  | cons a l ih => simp [outputs, ih]

/-- The second list has the elements of the first at other places, and no two elements with
the same key have changed their order. -/
structure Reordering (key : α → κ) (l l' : List α) where
  place : Fin l.length ≃ Fin l'.length
  get_place : ∀ i, l'.get (place i) = l.get i
  place_lt : ∀ i j, i < j → key (l.get i) = key (l.get j) → place i < place j

theorem Reordering.mem {l l' : List α} (r : Reordering key l l') {a : α} (h : a ∈ l') :
    a ∈ l := by
  obtain ⟨j, rfl⟩ := List.mem_iff_get.mp h
  rw [← r.place.apply_symm_apply j, r.get_place]
  exact List.get_mem l _

section Commuting
variable [DecidableEq κ] {step : σ → α → σ}

/-- An element may be performed before all that have other keys. -/
theorem foldl_move {a : α} {before : List α}
    (hcomm : ∀ b ∈ before, ∀ s, step (step s b) a = step (step s a) b) (s : σ) :
    step (before.foldl step s) a = before.foldl step (step s a) := by
  induction before generalizing s with
  | nil => rfl
  | cons b before ih =>
    rw [List.foldl_cons, ih fun c hc => hcomm c (List.mem_cons_of_mem _ hc), List.foldl_cons,
      hcomm b List.mem_cons_self]

/-- Lists with the same elements of each key, in the same order, lead to the same state. -/
theorem foldl_eq_of_filter_eq {l l' : List α}
    (hcomm : ∀ a ∈ l, ∀ b ∈ l, key a ≠ key b → ∀ s, step (step s a) b = step (step s b) a)
    (h : ∀ k, l'.filter (key · = k) = l.filter (key · = k)) (s : σ) :
    l'.foldl step s = l.foldl step s := by
  induction l generalizing l' s with
  | nil =>
    have hnil : l' = [] := by
      cases l' with
      | nil => rfl
      | cons a l' =>
        have := h (key a)
        simp at this
    rw [hnil]
  | cons a l ih =>
    -- the first element is the first of its key in the other list too
    have hfirst := h (key a)
    rw [List.filter_cons_of_pos (by simp)] at hfirst
    obtain ⟨before, after, rfl, hbefore, -, hafter⟩ := List.filter_eq_cons_iff.mp hfirst
    have hne : ∀ b ∈ before, key b ≠ key a := fun b hb => by simpa using hbefore b hb
    have hmem : ∀ b ∈ before, b ∈ l := by
      intro b hb
      have hb' : b ∈ (a :: l).filter (key · = key b) := by
        rw [← h (key b)]
        simp [hb]
      rcases List.mem_cons.mp (List.mem_filter.mp hb').1 with rfl | hl
      · exact absurd rfl (hne b hb)
      · exact hl
    have hrest : ∀ k, (before ++ after).filter (key · = k) = l.filter (key · = k) := by
      intro k
      have hk := h k
      by_cases hak : key a = k
      · subst hak
        rw [List.filter_append, List.filter_cons_of_pos (by simp),
          List.filter_cons_of_pos (by simp), List.filter_eq_nil_iff.mpr (by simpa using hne)] at hk
        rw [List.filter_append, List.filter_eq_nil_iff.mpr (by simpa using hne)]
        exact (List.cons.inj hk).2
      · rw [List.filter_append, List.filter_cons_of_neg (by simpa using hak),
          List.filter_cons_of_neg (by simpa using hak)] at hk
        rw [List.filter_append, hk]
    have hmove : step (before.foldl step s) a = before.foldl step (step s a) :=
      foldl_move (fun b hb => hcomm b (List.mem_cons_of_mem _ (hmem b hb)) a List.mem_cons_self
        (hne b hb)) s
    rw [List.foldl_append, List.foldl_cons, hmove, ← List.foldl_append, List.foldl_cons]
    exact ih (fun b hb c hc => hcomm b (List.mem_cons_of_mem _ hb) c (List.mem_cons_of_mem _ hc))
      hrest (step s a)

end Commuting

section Labels
variable {ι : Type} [DecidableEq ι]

/-- Perform a labelled element and note its output under its label. -/
def note (step : σ → α → σ) (out : σ → α → β) (s : σ × (ι → Option β)) (e : ι × α) :
    σ × (ι → Option β) :=
  (step s.1 e.2, Function.update s.2 e.1 (some (out s.1 e.2)))

variable {step : σ → α → σ} {out : σ → α → β}

theorem foldl_note_fst (s : σ) (g : ι → Option β) (l : List (ι × α)) :
    (l.foldl (note step out) (s, g)).1 = (l.map Prod.snd).foldl step s := by
  induction l generalizing s g with
  | nil => rfl
  | cons e l ih => exact ih _ _

theorem foldl_note_of_notMem {i : ι} {l : List (ι × α)} (hi : i ∉ l.map Prod.fst) (s : σ)
    (g : ι → Option β) : (l.foldl (note step out) (s, g)).2 i = g i := by
  induction l generalizing s g with
  | nil => rfl
  | cons e l ih =>
    rw [List.map_cons, List.mem_cons, not_or] at hi
    rw [List.foldl_cons, note, ih hi.2, Function.update_of_ne hi.1]

/-- Each label ends with the output of its own element. -/
theorem foldl_note_of_getElem? (step : σ → α → σ) (out : σ → α → β) {l : List (ι × α)}
    (hnodup : (l.map Prod.fst).Nodup) {j : ℕ} {e : ι × α} (he : l[j]? = some e) (s : σ)
    (g : ι → Option β) :
    (l.foldl (note step out) (s, g)).2 e.1 = (outputs step out s (l.map Prod.snd))[j]? := by
  induction l generalizing s g j with
  | nil => cases he
  | cons first l ih =>
    obtain ⟨hnot, hnodup⟩ := List.nodup_cons.mp hnodup
    rw [List.foldl_cons, note]
    cases j with
    | zero =>
      cases he
      rw [foldl_note_of_notMem hnot, Function.update_self]
      rfl
    | succ j => exact ih hnodup he _ _

end Labels

namespace Reordering
variable {l l' : List α}

/-- Every element with its place in the first list. -/
def labelled (l : List α) : List (Fin l.length × α) :=
  (List.finRange l.length).map fun i => (i, l.get i)

/-- The second list, every element with its place in the first. -/
def moved (r : Reordering key l l') : List (Fin l.length × α) :=
  (List.finRange l'.length).map fun j => (r.place.symm j, l'.get j)

theorem snd_labelled (l : List α) : (labelled l).map Prod.snd = l := by
  unfold labelled
  rw [List.map_map]
  exact List.map_get_finRange l

theorem snd_moved (r : Reordering key l l') : r.moved.map Prod.snd = l' := by
  unfold moved
  rw [List.map_map]
  exact List.map_get_finRange l'

theorem nodup_labelled (l : List α) : ((labelled l).map Prod.fst).Nodup := by
  unfold labelled
  rw [List.map_map]
  exact (List.nodup_finRange _).map fun _ _ h => h

theorem nodup_moved (r : Reordering key l l') : (r.moved.map Prod.fst).Nodup := by
  unfold moved
  rw [List.map_map]
  exact (List.nodup_finRange _).map r.place.symm.injective

variable [DecidableEq κ]

/-- The places of a key are moved in their order. -/
theorem filter_finRange (r : Reordering key l l') (k : κ) :
    (List.finRange l'.length).filter (fun j => key (l'.get j) = k) =
      ((List.finRange l.length).filter fun i => key (l.get i) = k).map r.place := by
  have hperm : ((List.finRange l'.length).filter (fun j => key (l'.get j) = k)).Perm
      (((List.finRange l.length).filter fun i => key (l.get i) = k).map r.place) := by
    rw [List.perm_ext_iff_of_nodup ((List.nodup_finRange _).filter _)
      (((List.nodup_finRange _).filter _).map r.place.injective)]
    intro j
    simp only [List.mem_filter, List.mem_finRange, true_and, List.mem_map, decide_eq_true_eq]
    constructor
    · intro hj
      refine ⟨r.place.symm j, ?_, r.place.apply_symm_apply j⟩
      rw [← r.get_place, r.place.apply_symm_apply]
      exact hj
    · rintro ⟨i, hi, rfl⟩
      rw [r.get_place]
      exact hi
  apply hperm.eq_of_pairwise' (r := (· ≤ ·))
  · exact ((List.pairwise_lt_finRange _).imp fun h => le_of_lt h).filter _
  · rw [List.pairwise_map]
    apply ((List.pairwise_lt_finRange _).filter _).imp_of_mem
    intro i j hi hj hlt
    simp only [List.mem_filter, List.mem_finRange, true_and, decide_eq_true_eq] at hi hj
    exact (r.place_lt i j hlt (hi.trans hj.symm)).le

theorem filter_moved (r : Reordering key l l') (k : κ) :
    r.moved.filter (fun e => key e.2 = k) = (labelled l).filter fun e => key e.2 = k := by
  unfold moved labelled
  rw [List.filter_map, List.filter_map]
  change ((List.finRange l'.length).filter fun j => key (l'.get j) = k).map _ =
    ((List.finRange l.length).filter fun i => key (l.get i) = k).map _
  rw [r.filter_finRange, List.map_map]
  apply List.map_congr_left
  intro i _
  simp only [Function.comp_apply, Equiv.symm_apply_apply]
  exact congrArg (Prod.mk i) (r.get_place i)

variable {step : σ → α → σ} {out : σ → α → β}

/-- Steps with different keys commute, and neither changes the other's output. Then a
reordering changes neither the final state nor the output of any element. -/
theorem foldl_eq_and_outputs_eq (r : Reordering key l l')
    (hstep : ∀ a b, key a ≠ key b → ∀ s, step (step s a) b = step (step s b) a)
    (hout : ∀ a b, key a ≠ key b → ∀ s, out (step s a) b = out s b) (s : σ) :
    l'.foldl step s = l.foldl step s ∧
      ∀ i, (outputs step out s l')[(r.place i).val]? = (outputs step out s l)[i.val]? := by
  have hcomm : ∀ a ∈ labelled l, ∀ b ∈ labelled l, key a.2 ≠ key b.2 →
      ∀ t : σ × (Fin l.length → Option β),
        note step out (note step out t a) b = note step out (note step out t b) a := by
    intro a ha b hb hne t
    obtain ⟨i, -, rfl⟩ := List.mem_map.mp ha
    obtain ⟨j, -, rfl⟩ := List.mem_map.mp hb
    have hij : i ≠ j := by
      rintro rfl
      exact hne rfl
    simp only [note]
    rw [hstep _ _ hne, hout _ _ hne, hout _ _ hne.symm, Function.update_comm hij]
  have hfold := foldl_eq_of_filter_eq hcomm r.filter_moved (s, fun _ => none)
  constructor
  · have hfst := congrArg Prod.fst hfold
    rw [foldl_note_fst, foldl_note_fst, snd_labelled, snd_moved] at hfst
    exact hfst
  · intro i
    have hplace : r.moved[(r.place i).val]? = some (i, l'.get (r.place i)) := by simp [moved]
    have hlabel : (labelled l)[i.val]? = some (i, l.get i) := by simp [labelled]
    have hnew := foldl_note_of_getElem? step out r.nodup_moved hplace s fun _ => none
    have hold := foldl_note_of_getElem? step out (nodup_labelled l) hlabel s fun _ => none
    rw [snd_moved] at hnew
    rw [snd_labelled] at hold
    rw [← hnew, ← hold, hfold]

end Reordering
end Reorderings
