import Mathlib.Algebra.Order.Floor.Div
import Mathlib.Order.Bounds.Basic
import Mathlib.Tactic
import ChronosUvm.Foundations.Histories

/-!
Samples taken at turns. At each turn a sample is taken if enough time has passed since
the last one; where the turns come regularly, the samples are an arithmetic progression.
-/
namespace Cadence

/-- The earliest sample, and the distance from any sample to the next. -/
structure Regular (turn : ℕ → Prop) (interval first gap : ℕ) : Prop where
  first_least : IsLeast {t | turn t ∧ interval ≤ t} first
  gap_least : ∀ a, turn a → IsLeast {g | turn (a + g) ∧ interval ≤ g} gap
  gap_pos : 0 < gap

/-- The samples are all the members of the progression up to now. -/
def OnBeat (first gap now : ℕ) (samples : List ℕ) : Prop :=
  samples = (List.range samples.length).map (fun j => first + j * gap) ∧
    ∀ j, first + j * gap ≤ now ↔ j < samples.length

variable {turn : ℕ → Prop} {interval first gap now : ℕ} {samples : List ℕ}

theorem Regular.turn_sample (h : Regular turn interval first gap) (j : ℕ) :
    turn (first + j * gap) := by
  induction j with
  | zero => simpa using h.first_least.1.1
  | succ j ih =>
    have hnext := (h.gap_least _ ih).1.1
    rwa [Nat.add_assoc, ← Nat.succ_mul] at hnext

theorem onBeat_nil (h : 0 < first) : OnBeat first gap 0 [] := by
  refine ⟨rfl, ?_⟩
  intro j
  simp only [List.length_nil, Nat.not_lt_zero, iff_false]
  omega

theorem OnBeat.getLast? {j : ℕ} (h : OnBeat first gap now samples) (hj : samples.length = j + 1) :
    samples.getLast? = some (first + j * gap) := by
  rw [h.1, hj, List.range_succ, List.map_append, List.map_singleton, List.getLast?_concat]

/-- The next sample is due exactly when the progression says so. -/
theorem OnBeat.due_iff (hreg : Regular turn interval first gap) (h : OnBeat first gap now samples) :
    (turn (now + 1) ∧ interval ≤ now + 1 - samples.getLast?.getD 0) ↔
      now + 1 = first + samples.length * gap := by
  cases hlen : samples.length with
  | zero =>
    have hnil : samples = [] := List.length_eq_zero_iff.mp hlen
    have hlt : now < first := by
      have hzero := h.2 0
      omega
    rw [hnil, List.getLast?_nil, Option.getD_none, Nat.sub_zero, Nat.zero_mul, Nat.add_zero]
    constructor
    · intro hdue
      have hle := hreg.first_least.2 hdue
      omega
    · intro heq
      rw [heq]
      exact hreg.first_least.1
  | succ j =>
    have hlast : first + j * gap ≤ now := (h.2 j).mpr (by omega)
    have hnext : now < first + (j + 1) * gap := by
      have hbound := h.2 (j + 1)
      omega
    have hleast := hreg.gap_least _ (hreg.turn_sample j)
    have hsucc : first + (j + 1) * gap = first + j * gap + gap := by ring
    rw [h.getLast? hlen, Option.getD_some]
    constructor
    · rintro ⟨hturn, hinterval⟩
      have hsum : first + j * gap + (now + 1 - (first + j * gap)) = now + 1 := by omega
      have hle := hleast.2 (show turn _ ∧ _ from ⟨by rwa [hsum], hinterval⟩)
      omega
    · intro heq
      have hsub : now + 1 - (first + j * gap) = gap := by omega
      rw [hsub, heq, hsucc]
      exact hleast.1

theorem OnBeat.take (hgap : 0 < gap) (h : OnBeat first gap now samples)
    (hdue : now + 1 = first + samples.length * gap) :
    OnBeat first gap (now + 1) (samples ++ [now + 1]) := by
  constructor
  · rw [List.length_append, List.length_singleton, List.range_succ, List.map_append, ← h.1, hdue,
      List.map_singleton]
  · intro j
    rw [List.length_append, List.length_singleton, hdue, Nat.add_le_add_iff_left,
      Nat.mul_le_mul_right_iff hgap, Nat.lt_succ_iff]

theorem OnBeat.skip (h : OnBeat first gap now samples)
    (hdue : now + 1 ≠ first + samples.length * gap) : OnBeat first gap (now + 1) samples := by
  refine ⟨h.1, ?_⟩
  intro j
  have hj := h.2 j
  constructor
  · intro hle
    by_contra hlt
    -- the first member that is not yet a sample would be due now
    have hmono : samples.length * gap ≤ j * gap := Nat.mul_le_mul_right gap (not_lt.mp hlt)
    have hfirst := h.2 samples.length
    omega
  · omega

theorem OnBeat.mem_iff (h : OnBeat first gap now samples) (t : ℕ) :
    t ∈ samples ↔ t ≤ now ∧ ∃ j, t = first + j * gap := by
  constructor
  · intro ht
    rw [h.1] at ht
    obtain ⟨j, hj, rfl⟩ := List.mem_map.mp ht
    exact ⟨(h.2 j).mpr (List.mem_range.mp hj), j, rfl⟩
  · rintro ⟨hle, j, rfl⟩
    rw [h.1]
    exact List.mem_map.mpr ⟨j, List.mem_range.mpr ((h.2 j).mp hle), rfl⟩

theorem OnBeat.pairwise_lt (hgap : 0 < gap) (h : OnBeat first gap now samples) :
    samples.Pairwise (· < ·) := by
  rw [h.1, List.pairwise_map]
  apply List.pairwise_lt_range.imp
  intro i j hij
  have := Nat.mul_lt_mul_of_pos_right hij hgap
  omega

theorem OnBeat.head? (h : OnBeat first gap now samples) {t : ℕ} (ht : samples.head? = some t) :
    t = first := by
  rw [h.1] at ht
  cases hlen : samples.length with
  | zero => simp [hlen] at ht
  | succ m =>
    rw [hlen, List.range_succ_eq_map] at ht
    simpa using ht.symm

theorem OnBeat.isChain (h : OnBeat first gap now samples) :
    samples.IsChain fun a b => b = a + gap := by
  rw [h.1, List.isChain_map, List.isChain_iff_getElem]
  intro i hi
  simp only [List.getElem_range]
  ring

/-- The `p`-th of `n` members of a round robin has its turns at `p`, `p + n`, and so on. -/
theorem regular_roundRobin {n p : ℕ} (hn : 0 < n) (hinterval : 1 ≤ interval) :
    Regular (fun t => ∃ k, t = p + k * n) interval (p + n * ((interval - p) ⌈/⌉ n))
      (n * (interval ⌈/⌉ n)) := by
  have hceil (b : ℕ) : b ≤ n * (b ⌈/⌉ n) := (ceilDiv_le_iff_le_mul hn).mp le_rfl
  refine ⟨⟨⟨⟨_, by rw [Nat.mul_comm]⟩, ?_⟩, ?_⟩, ?_, ?_⟩
  · have := hceil (interval - p)
    omega
  · rintro t ⟨⟨k, rfl⟩, hle⟩
    have hk : (interval - p) ⌈/⌉ n ≤ k := by
      rw [ceilDiv_le_iff_le_mul hn, Nat.mul_comm]
      omega
    have := Nat.mul_le_mul_left n hk
    rw [Nat.mul_comm k n]
    omega
  · rintro a ⟨j, rfl⟩
    constructor
    · refine ⟨⟨j + interval ⌈/⌉ n, ?_⟩, hceil interval⟩
      ring
    · rintro g ⟨⟨k, hk⟩, hle⟩
      -- the gap is a whole number of rounds
      have hjk : j < k := by
        by_contra hkj
        have := Nat.mul_le_mul_right n (not_lt.mp hkj)
        omega
      obtain ⟨m, rfl⟩ := Nat.exists_eq_add_of_lt hjk
      have hg : g = n * (m + 1) := by
        have : (j + m + 1) * n = j * n + n * (m + 1) := by ring
        omega
      rw [hg] at hle ⊢
      exact Nat.mul_le_mul_left n ((ceilDiv_le_iff_le_mul hn).mpr hle)
  · have := hceil interval
    omega

/-- No sample comes more than the gap after the one before it, or after 0. -/
def Dense (gap : ℕ) (samples : List ℕ) : Prop :=
  ∀ before t after, samples = before ++ t :: after → t ≤ before.getLast?.getD 0 + gap

theorem dense_nil (gap : ℕ) : Dense gap [] := by
  intro before t after h
  simp at h

theorem Dense.concat {t : ℕ} (h : Dense gap samples) (ht : t ≤ samples.getLast?.getD 0 + gap) :
    Dense gap (samples ++ [t]) := by
  intro before s after hsplit
  rcases Histories.append_singleton_eq_append_cons hsplit with ⟨after', hold⟩ | ⟨rfl, rfl⟩
  · exact h before s after' hold
  · exact ht

/-- The last of the samples is no further off than so many gaps. -/
theorem Dense.getLast_le {older newer : List ℕ} (h : Dense gap (older ++ newer)) :
    (older ++ newer).getLast?.getD 0 ≤ older.getLast?.getD 0 + newer.length * gap := by
  induction newer using List.reverseRecOn with
  | nil => simp
  | append_singleton newer t ih =>
    have hnew := h (older ++ newer) t [] (List.append_assoc _ _ _).symm
    have hold := ih fun before s after hsplit => h before s (after ++ [t]) (by
      rw [← List.append_assoc, hsplit, List.append_assoc, List.cons_append])
    rw [← List.append_assoc, List.getLast?_concat, Option.getD_some, List.length_append,
      List.length_singleton, Nat.succ_mul]
    omega

end Cadence
