import Mathlib.Tactic
import ChronosUvm.Mem.Delta

/-!
The codec against the canonical run lists. The encoder builds the canonical list of
its page and the decoder reads any run list as its expansion, so the two are inverse
to each other between pages and canonical lists.
-/
namespace ChronosUvm
open Panicking RunLength

/-- The run lists of whole pages in which nothing could be merged or moved. -/
structure CanonicalPage (runs : List RunLiteral) : Prop where
  total : (runs.map fun r => r.zeroRun + r.literal.length).sum = pageSize
  literal_ne_zero : ∀ r ∈ runs, ∀ a ∈ r.literal, a ≠ 0
  zeroRun_pos : ∀ r ∈ runs.tail, 1 ≤ r.zeroRun
  literal_ne_nil : ∀ r ∈ runs.dropLast, r.literal ≠ []

theorem canonicalPage_rleEncode (b : Page) : CanonicalPage (rleEncode b) := by
  have h := canonical_encode b.toList
  rw [← rleEncode_eq] at h
  refine ⟨?_, h.literal_ne_zero, h.zeroRun_pos, h.literal_ne_nil⟩
  rw [← length_expand, rleEncode_eq, expand_encode, List.length_ofFn]

/-- The first page of the expansion, padded with zeros where it is shorter. -/
theorem toList_expandPage (runs : List RunLiteral) :
    (expandPage runs).toList = (expand runs ++ List.replicate pageSize 0).take pageSize := by
  apply List.ext_getElem?
  intro i
  rw [List.getElem?_take]
  split_ifs with hi
  · rw [getElem?_toList _ hi]
    by_cases hlen : i < (expand runs).length
    · rw [List.getElem?_append_left hlen, List.getElem?_eq_getElem hlen]
      simp [expandPage, padded, List.getElem?_eq_getElem hlen]
    · rw [List.getElem?_append_right (not_lt.mp hlen), List.getElem?_replicate_of_lt (by omega)]
      exact congrArg some (padded_of_length_le (not_lt.mp hlen))
  · exact List.getElem?_eq_none (by simpa using not_lt.mp hi)

theorem rleEncode_expandPage {runs : List RunLiteral} (h : CanonicalPage runs) :
    rleEncode (expandPage runs) = runs := by
  have hlen : (expand runs).length = pageSize := (length_expand runs).trans h.total
  rw [rleEncode_eq, toList_expandPage, ← hlen, List.take_left]
  apply encode_expand ⟨h.literal_ne_zero, h.zeroRun_pos, h.literal_ne_nil⟩
  intro r hr
  -- an empty record is not allowed, since the page it would have to be all of is not empty
  by_contra hempty
  obtain ⟨hzero, hnil⟩ := not_or.mp hempty
  have hnil : r.literal = [] := not_not.mp hnil
  cases runs with
  | nil => cases hr
  | cons s rest =>
    obtain rfl : s = r := Option.some.inj hr
    cases rest with
    | nil =>
      have htotal := h.total
      rw [List.map_singleton, List.sum_singleton, hnil, List.length_nil] at htotal
      have := pageSize_pos
      omega
    | cons t rest => exact h.literal_ne_nil s (by simp) hnil

/-- Encoding and decoding are inverse to each other between pages and canonical run lists. -/
theorem rle_bijection :
    (∀ b : Page, CanonicalPage (rleEncode b) ∧ rleDecode (rleEncode b) = .ok b) ∧
      ∀ runs, CanonicalPage runs → ∃ b, rleDecode runs = .ok b ∧ rleEncode b = runs := by
  constructor
  · intro b
    refine ⟨canonicalPage_rleEncode b, ?_⟩
    rw [rleDecode_eq, expandPage_rleEncode]
  · intro runs h
    exact ⟨expandPage runs, rleDecode_eq runs, rleEncode_expandPage h⟩

/-- Any run list at all decodes, to the first page of its expansion padded with zeros. -/
theorem rleDecode_any (runs : List RunLiteral) :
    ∃ b, rleDecode runs = .ok b ∧
      b.toList = ((runs.flatMap fun r : RunLiteral => List.replicate r.zeroRun 0 ++ r.literal) ++
        List.replicate pageSize 0).take pageSize :=
  ⟨expandPage runs, rleDecode_eq runs, toList_expandPage runs⟩

end ChronosUvm
