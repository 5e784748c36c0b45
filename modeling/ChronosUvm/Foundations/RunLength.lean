import Mathlib.Tactic

/-!
Run lists of zeros and literals, and what they stand for: the concatenation of
all runs. Reading a run list means reading this expansion, zero-padded.
-/
namespace RunLength

variable {α : Type} [Zero α]

structure Run (α : Type) where
  zeroRun : ℕ
  literal : List α
  deriving DecidableEq, Repr

def expand (runs : List (Run α)) : List α :=
  runs.flatMap fun r => List.replicate r.zeroRun 0 ++ r.literal

@[simp] theorem expand_nil : expand ([] : List (Run α)) = [] := rfl

@[simp] theorem expand_cons (r : Run α) (runs : List (Run α)) :
    expand (r :: runs) = List.replicate r.zeroRun 0 ++ r.literal ++ expand runs := by
  simp [expand]

/-- The `i`-th element of the zero-padded list. -/
def padded (l : List α) (i : ℕ) : α := l.getD i 0

theorem padded_append_left {l l' : List α} {i : ℕ} (h : i < l.length) :
    padded (l ++ l') i = padded l i := by
  simp [padded, List.getElem?_append_left h]

theorem padded_append_right {l l' : List α} {i : ℕ} (h : l.length ≤ i) :
    padded (l ++ l') i = padded l' (i - l.length) := by
  simp [padded, List.getElem?_append_right h]

theorem padded_of_length_le {l : List α} {i : ℕ} (h : l.length ≤ i) : padded l i = 0 := by
  simp [padded, List.getElem?_eq_none h]

theorem padded_replicate (n i : ℕ) : padded (List.replicate n (0 : α)) i = 0 := by
  unfold padded
  simp only [List.getD_eq_getElem?_getD, List.getElem?_replicate]
  split_ifs <;> rfl

/-- Appending one run: zeros up to the literal, then the literal, then padding. -/
theorem padded_append_run (l : List α) (r : Run α) (i : ℕ) :
    padded (l ++ (List.replicate r.zeroRun 0 ++ r.literal)) i =
      if l.length + r.zeroRun ≤ i then padded r.literal (i - (l.length + r.zeroRun))
      else padded l i := by
  split_ifs with h
  · rw [← List.append_assoc, padded_append_right (by simpa using h)]
    simp
  · by_cases hl : i < l.length
    · exact padded_append_left hl
    · rw [padded_append_right (by omega), padded_append_left (by simp; omega),
        padded_replicate, padded_of_length_le (by omega)]

end RunLength
