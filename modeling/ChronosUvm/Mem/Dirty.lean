import Mathlib.Tactic
import ChronosUvm.Foundations.Panicking

/-!
The dirty-page bitmap shared by the checkpoint and the replication pipelines.
Both pipelines use it only through the pages it lists, so each operation has one
lemma that says what it does to `isDirty`.
-/
namespace ChronosUvm
open Panicking

/-- The number of words never changes after `new`, so it is part of the type. -/
structure DirtyPageSet where
  bits : List (BitVec 64)
  capacityPages : ℕ
  count : ℕ
  words_eq : bits.length = max ((capacityPages + 63) / 64) 1

namespace DirtyPageSet

def new (capacityPages : ℕ) : DirtyPageSet where
  bits := List.replicate (max ((capacityPages + 63) / 64) 1) 0#64
  capacityPages := capacityPages
  count := 0
  words_eq := List.length_replicate

/-- The range assertion is a debug assertion; what always holds is that the word
index is checked against the vector. -/
def mark (d : DirtyPageSet) (pageIdx : ℕ) : Checked DirtyPageSet :=
  let word := pageIdx / 64
  let mask := 1#64 <<< (pageIdx % 64)
  if h : word < d.bits.length then
    if d.bits[word] &&& mask = 0#64 then
      .ok { d with
        bits := d.bits.set word (d.bits[word] ||| mask)
        count := d.count + 1
        words_eq := by rw [List.length_set, d.words_eq] }
    else .ok d
  else .error .indexOutOfRange

def isDirty (d : DirtyPageSet) (pageIdx : ℕ) : Bool :=
  match d.bits[pageIdx / 64]? with
  | some w => w &&& (1#64 <<< (pageIdx % 64)) != 0#64
  | none => false

def iterDirty (d : DirtyPageSet) : List ℕ :=
  d.bits.zipIdx.flatMap fun e =>
    (List.range 64).filterMap fun bit =>
      if e.1 &&& (1#64 <<< bit) ≠ 0#64 then some (e.2 * 64 + bit) else none

def len (d : DirtyPageSet) : ℕ := d.count

def isEmpty (d : DirtyPageSet) : Bool := d.count == 0

def clearAll (d : DirtyPageSet) : DirtyPageSet where
  bits := d.bits.map fun _ => 0#64
  capacityPages := d.capacityPages
  count := 0
  words_eq := by rw [List.length_map, d.words_eq]

private theorem getLsbD_bit {a b : ℕ} (hb : b < 64) :
    (1#64 <<< b).getLsbD a = decide (a = b) := by
  rw [BitVec.getLsbD_shiftLeft, BitVec.getLsbD_one]
  rcases lt_trichotomy a b with h | h | h
  · simp [h, h.ne]
  · simp [h, hb]
  · simp [h.ne', Nat.sub_ne_zero_of_lt h]

private theorem and_bit_ne_zero (w : BitVec 64) {b : ℕ} (hb : b < 64) :
    w &&& (1#64 <<< b) ≠ 0#64 ↔ w.getLsbD b = true := by
  have hbit (i : ℕ) : (w &&& (1#64 <<< b)).getLsbD i = (w.getLsbD i && decide (i = b)) := by
    rw [BitVec.getLsbD_and, getLsbD_bit hb]
  constructor
  · intro h
    by_contra hw
    apply h
    apply BitVec.eq_of_getLsbD_eq
    intro i _
    rw [hbit, BitVec.getLsbD_zero]
    by_cases hib : i = b
    · simpa [hib] using hw
    · simp [hib]
  · intro h hz
    have hzero := hbit b
    rw [hz, BitVec.getLsbD_zero, h] at hzero
    simp at hzero

theorem isDirty_eq (d : DirtyPageSet) (p : ℕ) :
    d.isDirty p = ((d.bits[p / 64]?).map (·.getLsbD (p % 64))).getD false := by
  unfold isDirty
  cases h : d.bits[p / 64]? with
  | none => rfl
  | some w =>
    have hw := and_bit_ne_zero w (Nat.mod_lt p (by decide : 0 < 64))
    cases hb : w.getLsbD (p % 64) <;> simp_all

@[simp] theorem isDirty_new (c p : ℕ) : (new c).isDirty p = false := by
  rw [isDirty_eq, new, List.getElem?_replicate]
  split_ifs <;> simp

@[simp] theorem isDirty_clearAll (d : DirtyPageSet) (p : ℕ) : d.clearAll.isDirty p = false := by
  rw [isDirty_eq, clearAll, List.getElem?_map]
  cases d.bits[p / 64]? <;> simp

/-- Marking cannot panic on a page whose word exists. -/
theorem mark_returns {d : DirtyPageSet} {p : ℕ} (h : p / 64 < d.bits.length) :
    ∃ d', d.mark p = .ok d' := by
  unfold mark
  simp only [h, ↓reduceDIte]
  split_ifs
  · exact ⟨_, rfl⟩
  · exact ⟨_, rfl⟩

theorem mark_lt {d d' : DirtyPageSet} {p : ℕ} (h : d.mark p = .ok d') :
    p / 64 < d.bits.length := by
  by_contra hlen
  simp [mark, hlen] at h

theorem mark_capacityPages {d d' : DirtyPageSet} {p : ℕ} (h : d.mark p = .ok d') :
    d'.capacityPages = d.capacityPages := by
  simp only [mark] at h
  split_ifs at h <;> cases h <;> rfl

/-- A mark adds exactly its page. -/
theorem isDirty_mark {d d' : DirtyPageSet} {p : ℕ} (h : d.mark p = .ok d') (q : ℕ) :
    d'.isDirty q = (decide (q = p) || d.isDirty q) := by
  have hp : p % 64 < 64 := Nat.mod_lt p (by decide)
  have hq : q % 64 < 64 := Nat.mod_lt q (by decide)
  simp only [mark] at h
  split_ifs at h with hlen hclear
  · cases h
    simp only [isDirty_eq, List.getElem?_set]
    by_cases hw : p / 64 = q / 64
    · have hget : d.bits[q / 64]? = some d.bits[p / 64] := by
        rw [← hw, List.getElem?_eq_getElem hlen]
      have heq : q % 64 = p % 64 ↔ q = p := by omega
      simp [hw, hw ▸ hlen, BitVec.getLsbD_or, getLsbD_bit hp, heq, Bool.or_comm]
    · have hne : q ≠ p := by rintro rfl; exact hw rfl
      simp [hw, hne]
  · cases h
    by_cases hqp : q = p
    · subst hqp
      have hset := (and_bit_ne_zero d.bits[q / 64] hq).mp hclear
      simp [isDirty_eq, List.getElem?_eq_getElem hlen, hset]
    · simp [hqp]

theorem isDirty_lt {d : DirtyPageSet} {p : ℕ} (h : d.isDirty p = true) :
    p < 64 * d.bits.length := by
  rw [isDirty_eq] at h
  by_contra hp
  have : d.bits.length ≤ p / 64 := by omega
  simp [List.getElem?_eq_none this] at h

/-- The listed pages are the dirty ones. -/
theorem mem_iterDirty (d : DirtyPageSet) (p : ℕ) :
    p ∈ d.iterDirty ↔ d.isDirty p = true := by
  rw [isDirty_eq]
  unfold iterDirty
  simp only [List.mem_flatMap, List.mem_filterMap, List.mem_range]
  constructor
  · rintro ⟨⟨w, i⟩, hmem, b, hb, hsome⟩
    have hget : d.bits[i]? = some w := List.mem_zipIdx_iff_getElem?.mp hmem
    split_ifs at hsome with hbit
    obtain rfl := Option.some.inj hsome
    have hdiv : (i * 64 + b) / 64 = i := by omega
    have hmod : (i * 64 + b) % 64 = b := by omega
    simpa [hdiv, hmod, hget] using (and_bit_ne_zero w hb).mp hbit
  · intro h
    cases hget : d.bits[p / 64]? with
    | none => simp [hget] at h
    | some w =>
      have hmod : p % 64 < 64 := Nat.mod_lt p (by decide)
      have hbit : w.getLsbD (p % 64) = true := by simpa [hget] using h
      refine ⟨(w, p / 64), List.mem_zipIdx_iff_getElem?.mpr hget, p % 64, hmod, ?_⟩
      rw [if_pos ((and_bit_ne_zero w hmod).mpr hbit)]
      congr 1
      omega

end DirtyPageSet
end ChronosUvm
