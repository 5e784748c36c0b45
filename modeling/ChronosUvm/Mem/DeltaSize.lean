import Mathlib.Tactic
import ChronosUvm.Mem.DeltaEngine
import ChronosUvm.Mem.RleCanonical

/-!
What a delta costs on the wire, from the bytes that changed alone: eight bytes for
each block of changes and for unchanged bytes at the end of the page, and the
changed bytes themselves. A delta never costs more than the page.
-/
namespace ChronosUvm
open Panicking RunLength

/-- The number of maximal blocks of non-zero bytes. -/
def blockCount (x : Page) : ℕ := (blocks x.toList).length

/-- One when the last byte is zero. -/
def endsInZero (x : Page) : ℕ := if x.toList.getLast? = some 0 then 1 else 0

def nonzeroCount (x : Page) : ℕ := x.toList.countP (· ≠ 0)

/-- The size of the run list of a page. -/
def xorSize (x : Page) : ℕ := 8 * (blockCount x + endsInZero x) + nonzeroCount x

/-- The size that the choice of the encoding compares with the page size. -/
theorem sum_rleEncode (x : Page) :
    ((rleEncode x).map fun r => 8 + r.literal.length).sum = xorSize x := by
  have hsum (runs : List RunLiteral) : (runs.map fun r => 8 + r.literal.length).sum =
      8 * runs.length + (runs.map fun r => r.literal.length).sum := by
    rw [List.sum_map_add, List.map_const', List.sum_replicate, smul_eq_mul, Nat.mul_comm]
  rw [rleEncode_eq, hsum, length_encode, sum_literal_encode]
  rfl

namespace DeltaEngine

theorem encodedLen_deltaFrom_some (prev : Page) (i : UInt64) (page : Page) :
    (deltaFrom (some prev) i page).encodedLen = min pageSize (xorSize (xorPage prev page)) ∧
      ((∃ runs, deltaFrom (some prev) i page = .xor i runs) ↔
        xorSize (xorPage prev page) < pageSize) := by
  simp only [deltaFrom, sum_rleEncode]
  split_ifs with hsize
  · constructor
    · rw [min_eq_right hsize.le]
      exact sum_rleEncode _
    · exact ⟨fun _ => hsize, fun _ => ⟨_, rfl⟩⟩
  · constructor
    · exact (min_eq_left (not_lt.mp hsize)).symm
    · simp [hsize]

theorem encodedLen_deltaFrom_le (prev? : Option Page) (i : UInt64) (page : Page) :
    (deltaFrom prev? i page).encodedLen ≤ pageSize := by
  cases prev? with
  | none => exact le_rfl
  | some prev =>
    rw [(encodedLen_deltaFrom_some prev i page).1]
    exact min_le_left _ _

/-- A page with a baseline has its place in the vectors. -/
theorem hasRoom_of_page? {e : DeltaEngine} {i : UInt64} {prev : Page}
    (h : e.page? i.toNat = some prev) : e.HasRoom i := by
  by_contra hroom
  have hlen : e.haveBaseline.length ≤ i.toNat := by
    rw [e.length_eq]
    exact not_lt.mp fun hlt => hroom (.inl hlt)
  unfold page? at h
  rw [List.getD_eq_getElem?_getD, List.getElem?_eq_none hlen] at h
  cases h

/-- The delta of a page: taken wherever the vectors have room, never larger than the page, and
with a baseline its exact size and form are those of the run list, as long as that is smaller
than the page. -/
theorem encodedLen_diffAndCommit (e : DeltaEngine) (i : UInt64) (current : Page) :
    (e.HasRoom i → ∃ d e', e.diffAndCommit i current.toList = .ok (d, e')) ∧
    (∀ d e', e.diffAndCommit i current.toList = .ok (d, e') → d.encodedLen ≤ pageSize) ∧
    ∀ prev, e.page? i.toNat = some prev →
      ∃ d e', e.diffAndCommit i current.toList = .ok (d, e') ∧
        d.encodedLen = min pageSize (xorSize (xorPage prev current)) ∧
        ((∃ runs, d = .xor i runs) ↔ xorSize (xorPage prev current) < pageSize) := by
  refine ⟨?_, ?_, ?_⟩
  · intro hroom
    exact ⟨_, _, diffAndCommit_of_hasRoom hroom current⟩
  · intro d e' h
    obtain ⟨-, hd⟩ := diffAndCommit_eq_ok.mp h
    rw [(Prod.mk.inj hd).1]
    exact encodedLen_deltaFrom_le _ i current
  · intro prev hprev
    refine ⟨_, _, diffAndCommit_of_hasRoom (hasRoom_of_page? hprev) current, ?_⟩
    rw [hprev]
    exact encodedLen_deltaFrom_some prev i current

end DeltaEngine
end ChronosUvm
