import Mathlib.Tactic
import ChronosUvm.Foundations.Histories
import ChronosUvm.Foundations.Transitions
import ChronosUvm.Mem.Dirty

/-!
The dirty bitmap as the finite set it stands for. The words and the cached count
are two records of the same pages; `Represents` says that both agree with one
finite set, and every call keeps that agreement.
-/
namespace ChronosUvm
open Panicking Histories
namespace DirtyPageSet

/-- The calls that change a dirty set. -/
inductive Op where
  | mark (pageIdx : ℕ)
  | clearAll

def step (d : DirtyPageSet) : Op → Checked DirtyPageSet
  | .mark p => d.mark p
  | .clearAll => .ok d.clearAll

/-- The same calls on the finite set of pages. -/
def Op.onPages (s : Finset ℕ) : Op → Finset ℕ
  | .mark p => insert p s
  | .clearAll => ∅

def pagesAfter (s : Finset ℕ) (ops : List Op) : Finset ℕ := ops.foldl Op.onPages s

/-- The page was marked and no later call cleared the set. -/
def MarkedSinceClear (ops : List Op) (p : ℕ) : Prop :=
  Since (· = .mark p) (· = .clearAll) ops

structure Represents (d : DirtyPageSet) (s : Finset ℕ) : Prop where
  isDirty_iff : ∀ p, d.isDirty p = true ↔ p ∈ s
  count_eq : d.count = s.card

theorem represents_new (capacity : ℕ) : (new capacity).Represents ∅ where
  isDirty_iff p := by simp
  count_eq := rfl

theorem represents_clearAll (d : DirtyPageSet) : d.clearAll.Represents ∅ where
  isDirty_iff p := by simp
  count_eq := rfl

/-- The count moves exactly when the page was clean. -/
theorem count_mark {d d' : DirtyPageSet} {p : ℕ} (h : d.mark p = .ok d') :
    d'.count = if d.isDirty p then d.count else d.count + 1 := by
  simp only [mark] at h
  split_ifs at h with hlen hclear
  · cases h
    simp [isDirty, List.getElem?_eq_getElem hlen, hclear]
  · cases h
    simp [isDirty, List.getElem?_eq_getElem hlen, hclear]

theorem Represents.mark {d d' : DirtyPageSet} {s : Finset ℕ} {p : ℕ} (h : d.Represents s)
    (hmark : d.mark p = .ok d') : d'.Represents (insert p s) where
  isDirty_iff q := by
    rw [isDirty_mark hmark, Bool.or_eq_true, decide_eq_true_eq, h.isDirty_iff, Finset.mem_insert]
  count_eq := by
    rw [count_mark hmark, h.count_eq]
    split_ifs with hp
    · rw [Finset.insert_eq_of_mem ((h.isDirty_iff p).mp hp)]
    · rw [Finset.card_insert_of_notMem (mt (h.isDirty_iff p).mpr hp)]

/-- A page within the capacity has its word. -/
theorem div_lt_of_lt_capacityPages {d : DirtyPageSet} {p : ℕ} (h : p < d.capacityPages) :
    p / 64 < d.bits.length := by
  rw [d.words_eq]
  omega

/-- The bitmap runs with the finite set: no call in range panics, and both end alike. -/
theorem run_represents {d : DirtyPageSet} {s : Finset ℕ} {ops : List Op}
    (hops : ∀ p, Op.mark p ∈ ops → p < d.capacityPages) (h : d.Represents s) :
    ∃ d', Transitions.run step d ops = .ok d' ∧ d'.Represents (pagesAfter s ops) := by
  induction ops generalizing d s with
  | nil => exact ⟨d, rfl, h⟩
  | cons op ops ih =>
    cases op with
    | mark p =>
      have hp : p < d.capacityPages := hops p List.mem_cons_self
      obtain ⟨d₁, hmark⟩ := mark_returns (div_lt_of_lt_capacityPages hp)
      have hrest : ∀ q, Op.mark q ∈ ops → q < d₁.capacityPages := by
        intro q hq
        rw [mark_capacityPages hmark]
        exact hops q (List.mem_cons_of_mem _ hq)
      obtain ⟨d', hrun, h'⟩ := ih hrest (h.mark hmark)
      exact ⟨d', Transitions.run_cons_eq_ok.mpr ⟨d₁, hmark, hrun⟩, h'⟩
    | clearAll =>
      have hrest : ∀ q, Op.mark q ∈ ops → q < d.clearAll.capacityPages :=
        fun q hq => hops q (List.mem_cons_of_mem _ hq)
      obtain ⟨d', hrun, h'⟩ := ih hrest (represents_clearAll d)
      exact ⟨d', Transitions.run_cons_eq_ok.mpr ⟨_, rfl, hrun⟩, h'⟩

theorem mem_pagesAfter (ops : List Op) (p : ℕ) :
    p ∈ pagesAfter ∅ ops ↔ MarkedSinceClear ops p := by
  induction ops using List.reverseRecOn with
  | nil => simp [pagesAfter, MarkedSinceClear, not_since_nil]
  | append_singleton ops op ih =>
    rw [MarkedSinceClear, since_concat, ← MarkedSinceClear, ← ih, pagesAfter, List.foldl_concat,
      ← pagesAfter]
    cases op with
    | mark q => simp [Op.onPages, eq_comm]
    | clearAll => simp [Op.onPages]

/-- The listing goes up from word to word and, in a word, from bit to bit. -/
theorem iterDirty_pairwise (d : DirtyPageSet) : d.iterDirty.Pairwise (· < ·) := by
  unfold iterDirty
  rw [List.pairwise_flatMap]
  constructor
  · rintro ⟨w, i⟩ -
    rw [List.pairwise_filterMap]
    apply List.Pairwise.imp _ (List.pairwise_lt_range (n := 64))
    intro a b hab x hx y hy
    split_ifs at hx hy
    cases hx
    cases hy
    omega
  · rw [List.pairwise_iff_getElem]
    intro i j hi hj hij x hx y hy
    simp only [List.getElem_zipIdx, List.mem_filterMap, List.mem_range] at hx hy
    obtain ⟨a, ha, hx⟩ := hx
    obtain ⟨b, hb, hy⟩ := hy
    split_ifs at hx hy
    cases hx
    cases hy
    omega

theorem Represents.iterDirty_length {d : DirtyPageSet} {s : Finset ℕ} (h : d.Represents s) :
    d.iterDirty.length = s.card := by
  have hnodup : d.iterDirty.Nodup := d.iterDirty_pairwise.imp fun hlt => hlt.ne
  have hset : d.iterDirty.toFinset = s := by
    ext p
    rw [List.mem_toFinset, mem_iterDirty, h.isDirty_iff]
  rw [← List.toFinset_card_of_nodup hnodup, hset]

/-- No page beyond the capacity is ever counted, so the counter stays within its 64 bits. -/
theorem card_pagesAfter_le {capacity : ℕ} {ops : List Op}
    (hops : ∀ p, Op.mark p ∈ ops → p < capacity) : (pagesAfter ∅ ops).card ≤ capacity := by
  have hsub : pagesAfter ∅ ops ⊆ Finset.range capacity := by
    intro p hp
    obtain ⟨op, hop, rfl⟩ := ((mem_pagesAfter ops p).mp hp).exists_mem
    exact Finset.mem_range.mpr (hops p hop)
  simpa using Finset.card_le_card hsub

/-- Whatever is marked within the capacity and cleared, in whatever order: no call panics,
and the four observers show the pages marked since the last clear. -/
theorem run_observers (capacity : ℕ) (ops : List Op)
    (hops : ∀ p, Op.mark p ∈ ops → p < capacity) :
    ∃ d, Transitions.run step (new capacity) ops = .ok d ∧
      d.iterDirty.Pairwise (· < ·) ∧
      (∀ p, p ∈ d.iterDirty ↔ MarkedSinceClear ops p) ∧
      (∀ p, d.isDirty p = true ↔ MarkedSinceClear ops p) ∧
      d.len = d.iterDirty.length ∧ d.len ≤ capacity ∧
      (d.isEmpty = true ↔ ∀ p, ¬ MarkedSinceClear ops p) := by
  obtain ⟨d, hrun, h⟩ := run_represents hops (represents_new capacity)
  have hdirty (p : ℕ) : d.isDirty p = true ↔ MarkedSinceClear ops p :=
    (h.isDirty_iff p).trans (mem_pagesAfter ops p)
  refine ⟨d, hrun, d.iterDirty_pairwise, ?_, hdirty, ?_, ?_, ?_⟩
  · intro p
    exact (mem_iterDirty d p).trans (hdirty p)
  · rw [h.iterDirty_length]
    exact h.count_eq
  · exact h.count_eq.trans_le (card_pagesAfter_le hops)
  · unfold isEmpty
    rw [beq_iff_eq, h.count_eq, Finset.card_eq_zero, Finset.eq_empty_iff_forall_notMem]
    simp only [mem_pagesAfter]

theorem run_observers_across_words :
    ∃ d, Transitions.run step (new 200)
        [.mark 5, .clearAll, .mark 64, .mark 63, .mark 64, .mark 199] = .ok d ∧
      d.iterDirty.Pairwise (· < ·) ∧
      (∀ p, p ∈ d.iterDirty ↔ MarkedSinceClear
        [.mark 5, .clearAll, .mark 64, .mark 63, .mark 64, .mark 199] p) ∧
      (∀ p, d.isDirty p = true ↔ MarkedSinceClear
        [.mark 5, .clearAll, .mark 64, .mark 63, .mark 64, .mark 199] p) ∧
      d.len = d.iterDirty.length ∧ d.len ≤ 200 ∧
      (d.isEmpty = true ↔ ∀ p, ¬ MarkedSinceClear
        [.mark 5, .clearAll, .mark 64, .mark 63, .mark 64, .mark 199] p) :=
  run_observers 200 _ (by
    intro p hp
    simp at hp
    omega)

end DirtyPageSet
end ChronosUvm
