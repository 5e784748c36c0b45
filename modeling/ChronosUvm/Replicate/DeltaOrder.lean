import Mathlib.Tactic
import ChronosUvm.Foundations.Reordering
import ChronosUvm.Replicate.Standby

/-!
Which order of deltas a standby depends on. Applying a delta grows both vectors and
stores one page; two such stores at different pages commute, growth included, so only
the order of the deltas of the same page matters.
-/
namespace ChronosUvm
open Panicking Reorderings

section Store
variable {α : Type}

/-- Grow the vector up to the index where that is needed, and store there. -/
def store (l : List α) (i : ℕ) (d x : α) : List α :=
  (if l.length ≤ i then resize l (i + 1) d else l).set i x

theorem getElem?_store (l : List α) (i : ℕ) (d x : α) (j : ℕ) :
    (store l i d x)[j]? =
      if j = i then some x else if j < l.length then l[j]? else if j < i then some d else none := by
  unfold store
  split_ifs with hlen hj hlt hji hj hlt hji
  · subst hj
    rw [List.getElem?_set_self (by rw [length_resize]; omega)]
  · rw [List.getElem?_set_ne (Ne.symm hj), resize, List.take_of_length_le (by omega),
      List.getElem?_append_left hlt]
  · rw [List.getElem?_set_ne (Ne.symm hj), resize, List.take_of_length_le (by omega),
      List.getElem?_append_right (by omega), List.getElem?_replicate_of_lt (by omega)]
  · rw [List.getElem?_set_ne (Ne.symm hj), List.getElem?_eq_none (by rw [length_resize]; omega)]
  · subst hj
    rw [List.getElem?_set_self (by omega)]
  · rw [List.getElem?_set_ne (Ne.symm hj)]
  · omega
  · rw [List.getElem?_set_ne (Ne.symm hj), List.getElem?_eq_none (by omega)]

theorem length_store (l : List α) (i : ℕ) (d x : α) :
    (store l i d x).length = max l.length (i + 1) := by
  unfold store
  split_ifs with h
  · rw [List.length_set, length_resize]
    omega
  · rw [List.length_set]
    omega

/-- Stores at different indices commute, whichever of them grows the vector. -/
theorem store_comm (l : List α) {i j : ℕ} (h : i ≠ j) (d x y : α) :
    store (store l i d x) j d y = store (store l j d y) i d x := by
  apply List.ext_getElem?
  intro k
  simp only [getElem?_store, length_store]
  grind

end Store

namespace DeltaEngine

theorem baseline_applied (e : DeltaEngine) (d : PageDelta) :
    (e.applied d).baseline =
      store e.baseline d.idx zeroPage (patch (e.pageOrZero d.idx) d) := by
  unfold applied commit grown resized store
  split_ifs <;> rfl

theorem haveBaseline_applied (e : DeltaEngine) (d : PageDelta) :
    (e.applied d).haveBaseline = store e.haveBaseline d.idx false true := by
  unfold applied commit grown resized store
  rw [e.length_eq]
  split_ifs <;> rfl

/-- A delta changes the copy of its own page only. -/
theorem pageOrZero_applied_of_ne (e : DeltaEngine) {d d' : PageDelta}
    (h : d.idx ≠ d'.idx) : (e.applied d).pageOrZero d'.idx = e.pageOrZero d'.idx := by
  unfold pageOrZero
  rw [page?_applied, if_neg h.symm]

theorem applied_comm (e : DeltaEngine) {d d' : PageDelta} (h : d.pageIdx ≠ d'.pageIdx) :
    (e.applied d).applied d' = (e.applied d').applied d := by
  have h : d.idx ≠ d'.idx := fun heq => h (PageDelta.idx_inj.mp heq)
  have hbase : ((e.applied d).applied d').baseline = ((e.applied d').applied d).baseline := by
    simp only [baseline_applied, pageOrZero_applied_of_ne e h, pageOrZero_applied_of_ne e h.symm]
    exact store_comm _ h _ _ _
  have hhave : ((e.applied d).applied d').haveBaseline =
      ((e.applied d').applied d).haveBaseline := by
    simp only [haveBaseline_applied]
    exact store_comm _ h _ _ _
  generalize (e.applied d).applied d' = a at hbase hhave
  generalize (e.applied d').applied d = b at hbase hhave
  cases a
  cases b
  cases hbase
  cases hhave
  rfl

/-- Apply the deltas one after the other and keep what each call returns. -/
def applyEach (e : DeltaEngine) : List PageDelta → Checked (List Page × DeltaEngine)
  | [] => .ok ([], e)
  | d :: ds => do
    let (out, e) ← e.apply d
    let (outs, e) ← e.applyEach ds
    return (out :: outs, e)

/-- The page that applying a delta returns. -/
def returned (e : DeltaEngine) (d : PageDelta) : Page := patch (e.pageOrZero d.idx) d

theorem returned_applied_of_ne (e : DeltaEngine) {d d' : PageDelta}
    (h : d.pageIdx ≠ d'.pageIdx) : (e.applied d).returned d' = e.returned d' := by
  unfold returned
  rw [pageOrZero_applied_of_ne e fun heq => h (PageDelta.idx_inj.mp heq)]

/-- The vectors never get shorter. -/
theorem HasRoom.applied {e : DeltaEngine} {i : UInt64} (h : e.HasRoom i) (d : PageDelta) :
    (e.applied d).HasRoom i := by
  refine h.imp_left fun hlt => ?_
  rw [baseline_applied, length_store]
  exact hlt.trans_le (le_max_left _ _)

theorem applyEach_eq {e : DeltaEngine} {ds : List PageDelta}
    (hroom : ∀ d ∈ ds, e.HasRoom d.pageIdx) :
    e.applyEach ds = .ok (outputs applied returned e ds, ds.foldl applied e) := by
  induction ds generalizing e with
  | nil => rfl
  | cons d ds ih =>
    unfold applyEach
    rw [apply_of_hasRoom (hroom d List.mem_cons_self), ok_bind]
    change (applyEach (e.applied d) ds >>= _) = _
    rw [ih fun d' hd' => (hroom d' (List.mem_cons_of_mem d hd')).applied d]
    rfl

/-- Any order that keeps the order of the deltas of the same page leads to the same engine,
and each delta returns the same page at its new place. The vectors have room for every page,
or can be resized for it. -/
theorem applyEach_reordering (e : DeltaEngine) {ds ds' : List PageDelta}
    (hroom : ∀ d ∈ ds, e.HasRoom d.pageIdx) (r : Reordering PageDelta.pageIdx ds ds') :
    ∃ outs outs' final, e.applyEach ds = .ok (outs, final) ∧
      e.applyEach ds' = .ok (outs', final) ∧
      ∀ i, ∃ page, outs[i.val]? = some page ∧ outs'[(r.place i).val]? = some page := by
  obtain ⟨hfinal, houts⟩ := r.foldl_eq_and_outputs_eq (fun _ _ h e => applied_comm e h)
    (fun _ _ h e => returned_applied_of_ne e h) e
  have happly' := applyEach_eq fun d hd => hroom d (r.mem hd)
  rw [hfinal] at happly'
  refine ⟨_, _, _, applyEach_eq hroom, happly', ?_⟩
  intro i
  have hi : i.val < (outputs applied returned e ds).length := by
    rw [length_outputs]
    exact i.isLt
  refine ⟨_, List.getElem?_eq_getElem hi, ?_⟩
  rw [houts, List.getElem?_eq_getElem hi]

/-- Two deltas of different pages may change places. -/
def swapped (d d' : PageDelta) (h : d.pageIdx ≠ d'.pageIdx) :
    Reordering PageDelta.pageIdx [d, d'] [d', d] where
  place := (Equiv.swap 0 1 : Fin 2 ≃ Fin 2)
  get_place := by
    intro i
    fin_cases i <;> rfl
  place_lt := by
    intro i j hlt hkey
    fin_cases i <;> fin_cases j
    · exact absurd hlt (lt_irrefl _)
    · exact absurd hkey h
    · exact absurd hlt (Nat.not_lt_zero 1)
    · exact absurd hlt (lt_irrefl _)

theorem applyEach_raw_past_xor :
    ∃ outs outs' final,
      (fresh 1).applyEach [.xor 0 [⟨7, [255]⟩], .raw 5 zeroPage] = .ok (outs, final) ∧
      (fresh 1).applyEach [.raw 5 zeroPage, .xor 0 [⟨7, [255]⟩]] = .ok (outs', final) ∧
      ∀ i, ∃ page, outs[i.val]? = some page ∧
        outs'[((swapped (.xor 0 [⟨7, [255]⟩]) (.raw 5 zeroPage) (by decide)).place i).val]? =
          some page :=
  applyEach_reordering (fresh 1) (by decide)
    (swapped (.xor 0 [⟨7, [255]⟩]) (.raw 5 zeroPage) (by decide))

end DeltaEngine
end ChronosUvm
