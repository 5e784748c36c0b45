import Mathlib.Tactic
import ChronosUvm.Foundations.RunLength

/-!
The canonical run list of a list. Among the run lists with the same expansion one
has no zero in a literal and no record that could be merged with its neighbour; it
is built here from the last element to the first, and its size is counted.
-/
namespace RunLength

variable {α : Type} [Zero α]

/-- Zeros stand in zero runs only, a literal ends where a zero follows, and a zero run ends
where a literal follows. -/
structure Canonical (runs : List (Run α)) : Prop where
  literal_ne_zero : ∀ r ∈ runs, ∀ a ∈ r.literal, a ≠ 0
  zeroRun_pos : ∀ r ∈ runs.tail, 0 < r.zeroRun
  literal_ne_nil : ∀ r ∈ runs.dropLast, r.literal ≠ []

theorem Canonical.of_cons {r : Run α} {runs : List (Run α)} (h : Canonical (r :: runs)) :
    Canonical runs where
  literal_ne_zero s hs := h.literal_ne_zero s (List.mem_cons_of_mem _ hs)
  zeroRun_pos s hs := h.zeroRun_pos s (List.mem_of_mem_tail hs)
  literal_ne_nil s hs := by
    apply h.literal_ne_nil
    cases runs with
    | nil => simp at hs
    | cons t runs => exact List.mem_cons_of_mem _ hs

theorem length_expand (runs : List (Run α)) :
    (expand runs).length = (runs.map fun r => r.zeroRun + r.literal.length).sum := by
  induction runs with
  | nil => rfl
  | cons r runs ih =>
    rw [expand_cons, List.map_cons, List.sum_cons, ← ih]
    simp [Nat.add_assoc]

variable [DecidableEq α]

/-- Put one element in front of a canonical run list. -/
def push (a : α) : List (Run α) → List (Run α)
  | [] => if a = 0 then [⟨1, []⟩] else [⟨0, [a]⟩]
  | r :: runs =>
    if a = 0 then ⟨r.zeroRun + 1, r.literal⟩ :: runs
    else if r.zeroRun = 0 then ⟨0, a :: r.literal⟩ :: runs
    else ⟨0, [a]⟩ :: r :: runs

def encode (l : List α) : List (Run α) := l.foldr push []

@[simp] theorem encode_nil : encode ([] : List α) = [] := rfl

@[simp] theorem encode_cons (a : α) (l : List α) : encode (a :: l) = push a (encode l) := rfl

theorem push_zero (r : Run α) (runs : List (Run α)) :
    push 0 (r :: runs) = ⟨r.zeroRun + 1, r.literal⟩ :: runs := by
  simp [push]

theorem expand_push (a : α) (runs : List (Run α)) : expand (push a runs) = a :: expand runs := by
  cases runs with
  | nil =>
    unfold push
    split_ifs with ha
    · simp [ha]
    · simp
  | cons r runs =>
    simp only [push]
    split_ifs with ha hr
    · simp [ha, List.replicate_succ]
    · simp [hr]
    · simp

theorem expand_encode (l : List α) : expand (encode l) = l := by
  induction l with
  | nil => rfl
  | cons a l ih => rw [encode_cons, expand_push, ih]

theorem canonical_push (a : α) {runs : List (Run α)} (h : Canonical runs) :
    Canonical (push a runs) := by
  cases runs with
  | nil =>
    unfold push
    split_ifs with ha
    · constructor <;> simp
    · constructor <;> simp [ha]
  | cons r runs =>
    have hr := h.literal_ne_zero r List.mem_cons_self
    have hruns := h.of_cons.literal_ne_zero
    have hpos : ∀ s ∈ runs, 0 < s.zeroRun := h.zeroRun_pos
    have hlit : runs ≠ [] → r.literal ≠ [] ∧ ∀ s ∈ runs.dropLast, s.literal ≠ [] := by
      intro hne
      have hall := h.literal_ne_nil
      rw [List.dropLast_cons_of_ne_nil hne] at hall
      exact List.forall_mem_cons.mp hall
    simp only [push]
    split_ifs with ha hz
    · refine ⟨List.forall_mem_cons.mpr ⟨hr, hruns⟩, hpos, ?_⟩
      cases runs with
      | nil => simp
      | cons s runs => exact List.forall_mem_cons.mpr (hlit (by simp))
    · refine ⟨List.forall_mem_cons.mpr ⟨List.forall_mem_cons.mpr ⟨ha, hr⟩, hruns⟩, hpos, ?_⟩
      cases runs with
      | nil => simp
      | cons s runs => exact List.forall_mem_cons.mpr ⟨by simp, (hlit (by simp)).2⟩
    · refine ⟨List.forall_mem_cons.mpr ⟨by simpa using ha, h.literal_ne_zero⟩,
        List.forall_mem_cons.mpr ⟨Nat.pos_of_ne_zero hz, hpos⟩, ?_⟩
      exact List.forall_mem_cons.mpr ⟨by simp, h.literal_ne_nil⟩

theorem canonical_encode (l : List α) : Canonical (encode l) := by
  induction l with
  | nil => constructor <;> simp
  | cons a l ih => exact canonical_push a ih

/-- The first record opens with a zero run exactly when the list opens with a zero. -/
theorem encode_zeroRun_eq_zero {a : α} {l : List α} {r : Run α} {runs : List (Run α)}
    (h : encode (a :: l) = r :: runs) : r.zeroRun = 0 ↔ a ≠ 0 := by
  rw [encode_cons] at h
  cases hl : encode l with
  | nil =>
    rw [hl, push] at h
    split_ifs at h with ha
    · cases h
      simp [ha]
    · cases h
      simp [ha]
  | cons s rest =>
    rw [hl, push] at h
    split_ifs at h with ha hz
    · cases h
      simp [ha]
    · cases h
      simp [ha]
    · cases h
      simp [ha]

/-- A literal before a zero, or before the end, is one record. -/
theorem encode_literal {lit rest : List α} (hlit : ∀ a ∈ lit, a ≠ 0) (hne : lit ≠ [])
    (hrest : ∀ a ∈ rest.head?, a = 0) : encode (lit ++ rest) = ⟨0, lit⟩ :: encode rest := by
  induction lit with
  | nil => exact absurd rfl hne
  | cons a lit ih =>
    have ha : a ≠ 0 := hlit a List.mem_cons_self
    rw [List.cons_append, encode_cons]
    cases lit with
    | nil =>
      rw [List.nil_append]
      cases rest with
      | nil => simp [push, ha]
      | cons b rest =>
        have hb : b = 0 := hrest b rfl
        cases henc : encode (b :: rest) with
        | nil => simp [push, ha]
        | cons r runs =>
          have hz : r.zeroRun ≠ 0 := by
            intro hz
            exact (encode_zeroRun_eq_zero henc).mp hz hb
          simp [push, ha, hz]
    | cons b lit =>
      rw [ih (fun c hc => hlit c (List.mem_cons_of_mem _ hc)) (by simp)]
      simp [push, ha]

/-- One round of an encoder: zeros, then a literal up to the next zero or the end. -/
theorem encode_round {n : ℕ} {lit rest : List α} (hlit : ∀ a ∈ lit, a ≠ 0)
    (hrest : ∀ a ∈ rest.head?, a = 0) (hlast : lit = [] → rest = []) (hne : 0 < n ∨ lit ≠ []) :
    encode (List.replicate n 0 ++ lit ++ rest) = ⟨n, lit⟩ :: encode rest := by
  induction n with
  | zero => exact encode_literal hlit (hne.resolve_left (lt_irrefl 0)) hrest
  | succ n ih =>
    rw [List.replicate_succ, List.cons_append, List.cons_append, encode_cons]
    by_cases hround : 0 < n ∨ lit ≠ []
    · rw [ih hround, push_zero]
    · -- the last zero of a list that ends in zeros
      obtain ⟨hn, hnil⟩ := not_or.mp hround
      obtain rfl : n = 0 := by omega
      obtain rfl : lit = [] := not_not.mp hnil
      obtain rfl := hlast rfl
      simp [push]

/-- Encoding gives back every canonical run list, so a list has only one. -/
theorem encode_expand {runs : List (Run α)} (h : Canonical runs)
    (hhead : ∀ r ∈ runs.head?, 0 < r.zeroRun ∨ r.literal ≠ []) :
    encode (expand runs) = runs := by
  induction runs with
  | nil => rfl
  | cons r runs ih =>
    have hpos : ∀ s ∈ runs, 0 < s.zeroRun := h.zeroRun_pos
    have hrest : encode (expand runs) = runs :=
      ih h.of_cons fun s hs => .inl (hpos s (List.mem_of_mem_head? hs))
    have hstarts : ∀ a ∈ (expand runs).head?, a = 0 := by
      cases runs with
      | nil => simp
      | cons s runs =>
        obtain ⟨n, hn⟩ := Nat.exists_eq_succ_of_ne_zero (hpos s List.mem_cons_self).ne'
        simp [hn, List.replicate_succ]
    have hlast : r.literal = [] → expand runs = [] := by
      intro hnil
      cases runs with
      | nil => rfl
      | cons s runs => exact absurd hnil (h.literal_ne_nil r (by simp))
    rw [expand_cons, encode_round (h.literal_ne_zero r List.mem_cons_self) hstarts hlast
      (hhead r rfl), hrest]

section Counting

/-- The maximal blocks of non-zero elements: what stands between the zeros. -/
def blocks (l : List α) : List (List α) := (l.splitOnP (· = 0)).filter (· ≠ [])

/-- One when the last element is zero. -/
def trailing (l : List α) : ℕ := if l.getLast? = some 0 then 1 else 0

@[simp] theorem blocks_nil : blocks ([] : List α) = [] := rfl

@[simp] theorem blocks_zero_cons (l : List α) : blocks (0 :: l) = blocks l := by
  unfold blocks
  rw [List.splitOnP_cons_eq_if_modifyHead]
  simp

/-- A non-zero element opens a block of its own before a zero and at the end, and joins the
first block before another non-zero element. -/
theorem length_blocks_cons {a : α} (ha : a ≠ 0) (l : List α) :
    (blocks (a :: l)).length =
      (blocks l).length + if ∃ b, l.head? = some b ∧ b ≠ 0 then 0 else 1 := by
  unfold blocks
  rw [List.splitOnP_cons_eq_if_modifyHead, if_neg (by simpa using ha)]
  cases l with
  | nil => simp
  | cons b l =>
    rw [List.splitOnP_cons_eq_if_modifyHead]
    by_cases hb : b = 0
    · simp [hb]
    · cases hsplit : l.splitOnP (· = 0) with
      | nil => exact absurd hsplit (List.splitOnP_ne_nil _ _)
      | cons first others => simp [hb]

/-- A list has one record for each block, and one more for zeros at its end. -/
theorem length_encode (l : List α) :
    (encode l).length = (blocks l).length + trailing l := by
  induction l with
  | nil => rfl
  | cons a l ih =>
    rw [encode_cons]
    cases l with
    | nil =>
      by_cases ha : a = 0
      · simp [ha, push, trailing]
      · simp [ha, push, length_blocks_cons ha, trailing]
    | cons b l =>
      have htrailing : trailing (a :: b :: l) = trailing (b :: l) := by
        unfold trailing
        rw [List.getLast?_cons_cons]
      rw [htrailing]
      cases henc : encode (b :: l) with
      | nil =>
        have hexpand := expand_encode (b :: l)
        rw [henc] at hexpand
        cases hexpand
      | cons r runs =>
        have hstarts := encode_zeroRun_eq_zero henc
        rw [henc, List.length_cons] at ih
        simp only [push]
        split_ifs with ha hz
        · rw [ha, blocks_zero_cons, List.length_cons, ih]
        · rw [length_blocks_cons ha, if_pos ⟨b, rfl, hstarts.mp hz⟩, List.length_cons, ih]
          rfl
        · have hb : ¬ ∃ c, (b :: l).head? = some c ∧ c ≠ 0 := by
            rintro ⟨c, hc, hne⟩
            obtain rfl : b = c := Option.some.inj hc
            exact hz (hstarts.mpr hne)
          rw [length_blocks_cons ha, if_neg hb, List.length_cons, List.length_cons, ih]
          omega

/-- The literals hold the non-zero elements. -/
theorem sum_literal_encode (l : List α) :
    ((encode l).map fun r => r.literal.length).sum = l.countP (· ≠ 0) := by
  induction l with
  | nil => rfl
  | cons a l ih =>
    rw [encode_cons, List.countP_cons, ← ih]
    cases encode l with
    | nil => by_cases ha : a = 0 <;> simp [push, ha]
    | cons r runs =>
      by_cases ha : a = 0
      · simp [push, ha]
      · by_cases hz : r.zeroRun = 0
        · simp [push, ha, hz]
          omega
        · simp [push, ha, hz]
          omega

end Counting
end RunLength
