import Mathlib.Data.UInt
import Mathlib.Tactic
import ChronosUvm.Foundations.CanonicalRuns
import ChronosUvm.Mem.GuardedMemory

/-!
The delta codec. Vectors are lists; a slice operation that Rust would reject is a
panic of the model. The nested scans of the encoder are the recursions `scan` and
`rleEncodeFrom`.
-/
namespace ChronosUvm
open Panicking RunLength

abbrev RunLiteral := Run UInt8

inductive PageDelta where
  | xor (pageIdx : UInt64) (runs : List RunLiteral)
  | raw (pageIdx : UInt64) (bytes : Page)

namespace PageDelta

def pageIdx : PageDelta → UInt64
  | xor p _ => p
  | raw p _ => p

/-- `page_idx() as usize`, on the 64-bit targets that the mapping needs. -/
def idx (d : PageDelta) : ℕ := d.pageIdx.toNat

theorem idx_raw_ofNat {p : ℕ} (h : p < 2 ^ 32) (bytes : Page) :
    (raw (.ofNat p) bytes).idx = p := by
  show (UInt64.ofNat p).toNat = p
  rw [UInt64.toNat_ofNat', Nat.mod_eq_of_lt (by omega)]

theorem idx_inj {d d' : PageDelta} : d.idx = d'.idx ↔ d.pageIdx = d'.pageIdx := UInt64.toNat_inj

def encodedLen : PageDelta → ℕ
  | xor _ runs => (runs.map fun r => 4 + 4 + r.literal.length).sum
  | raw _ _ => pageSize

end PageDelta

/-- `buf[start..stop]`, for bounds that are in range. -/
def slice {n : ℕ} (buf : Bytes n) (start stop : ℕ) : List UInt8 :=
  (buf.toList.drop start).take (stop - start)

/-- `while i < PAGE_SIZE && p(buf[i]) { i += 1 }` -/
def scan (p : UInt8 → Bool) (buf : Page) (i : ℕ) : ℕ :=
  if h : i < pageSize then
    if p (buf ⟨i, h⟩) then scan p buf (i + 1) else i
  else i
termination_by pageSize - i

theorem le_scan (p : UInt8 → Bool) (buf : Page) (i : ℕ) : i ≤ scan p buf i := by
  fun_induction scan p buf i with
  | case1 i h hp ih => omega
  | case2 i h hp => exact le_rfl
  | case3 i h => exact le_rfl

theorem lt_scan {p : UInt8 → Bool} {buf : Page} {i : ℕ} (h : i < pageSize)
    (hp : p (buf ⟨i, h⟩) = true) : i < scan p buf i := by
  unfold scan
  rw [dif_pos h, if_pos hp]
  exact le_scan p buf (i + 1)

/-- Everything the scan passes satisfies its condition. -/
theorem of_mem_scan (p : UInt8 → Bool) (buf : Page) (i : ℕ) {j : ℕ} (hij : i ≤ j)
    (hj : j < scan p buf i) : ∃ h : j < pageSize, p (buf ⟨j, h⟩) = true := by
  fun_induction scan p buf i with
  | case1 i h hp ih =>
    rcases Nat.eq_or_lt_of_le hij with rfl | hlt
    · exact ⟨h, hp⟩
    · exact ih hlt hj
  | case2 i h hp => omega
  | case3 i h => omega

/-- One round of the encoder's outer loop always moves forward. -/
theorem lt_scan_scan (buf : Page) {i : ℕ} (h : i < pageSize) :
    i < scan (· != 0) buf (scan (· == 0) buf i) := by
  by_cases hz : buf ⟨i, h⟩ = 0
  · exact (lt_scan (p := (· == 0)) h (by simp [hz])).trans_le (le_scan _ _ _)
  · have hstop : scan (· == 0) buf i = i := by
      unfold scan
      rw [dif_pos h, if_neg (by simpa using hz)]
    rw [hstop]
    exact lt_scan h (by simpa using hz)

def rleEncodeFrom (buf : Page) (i : ℕ) : List RunLiteral :=
  if h : i < pageSize then
    let litStart := scan (· == 0) buf i
    let zeroRun := litStart - i
    let stop := scan (· != 0) buf litStart
    let literal := slice buf litStart stop
    have : pageSize - stop < pageSize - i := by
      have hlt : i < stop := lt_scan_scan buf h
      omega
    if 0 < zeroRun ∨ literal ≠ [] then ⟨zeroRun, literal⟩ :: rleEncodeFrom buf stop
    else rleEncodeFrom buf stop
  else []
termination_by pageSize - i

def rleEncode (buf : Page) : List RunLiteral := rleEncodeFrom buf 0

/-- `out[start..stop].copy_from_slice(src)` -/
def copyFromSlice {n : ℕ} (out : Bytes n) (start stop : ℕ) (src : List UInt8) :
    Checked (Bytes n) :=
  if start ≤ stop ∧ stop ≤ n ∧ src.length = stop - start then
    .ok fun i => if start ≤ i ∧ i < stop then padded src (i - start) else out i
  else .error .indexOutOfRange

/-- `src[..stop]` -/
def sliceTo (src : List UInt8) (stop : ℕ) : Checked (List UInt8) :=
  if stop ≤ src.length then .ok (src.take stop) else .error .indexOutOfRange

/-- The body of the decoder's loop, on the output and the position. -/
def rleDecodeStep (out : Page) (pos : ℕ) (r : RunLiteral) : Checked (Page × ℕ) := do
  let pos := pos + r.zeroRun
  let stop := min (pos + r.literal.length) pageSize
  if pos < pageSize then
    let src ← sliceTo r.literal (stop - pos)
    let out ← copyFromSlice out pos stop src
    return (out, stop)
  else
    return (out, stop)

def rleDecodeFrom (out : Page) (pos : ℕ) : List RunLiteral → Checked Page
  | [] => .ok out
  | r :: runs => rleDecodeStep out pos r >>= fun st => rleDecodeFrom st.1 st.2 runs

def rleDecode (runs : List RunLiteral) : Checked Page := rleDecodeFrom zeroPage 0 runs

/-- The page that a run list stands for: its expansion, cut or padded to a page. -/
def expandPage (runs : List RunLiteral) : Page := fun i => padded (expand runs) i

/-- The decoder's position is the expanded length so far, clamped to the page. -/
theorem rleDecodeStep_eq (l : List UInt8) (r : RunLiteral) :
    rleDecodeStep (fun i => padded l i) (min l.length pageSize) r =
      .ok (fun i => padded (l ++ (List.replicate r.zeroRun 0 ++ r.literal)) i,
        min (l ++ (List.replicate r.zeroRun 0 ++ r.literal)).length pageSize) := by
  have hstop : min (min l.length pageSize + r.zeroRun + r.literal.length) pageSize =
      min (l ++ (List.replicate r.zeroRun 0 ++ r.literal)).length pageSize := by
    simp only [List.length_append, List.length_replicate]
    omega
  unfold rleDecodeStep
  simp only [hstop, padded_append_run]
  split_ifs with hpos
  · have hl : min l.length pageSize = l.length := by omega
    rw [hl] at hpos ⊢
    generalize hs : min (l ++ (List.replicate r.zeroRun 0 ++ r.literal)).length pageSize = stop
    simp only [List.length_append, List.length_replicate] at hs
    have hsrc : stop - (l.length + r.zeroRun) ≤ r.literal.length := by omega
    have hcopy : l.length + r.zeroRun ≤ stop ∧ stop ≤ pageSize ∧
        (r.literal.take (stop - (l.length + r.zeroRun))).length =
          stop - (l.length + r.zeroRun) := by
      rw [List.length_take]
      omega
    unfold sliceTo
    simp only [if_pos hsrc, copyFromSlice, if_pos hcopy, ok_bind, pure_ok,
      Except.ok.injEq, Prod.mk.injEq, and_true]
    funext i
    have hi := i.isLt
    split_ifs with h1 h2 h2
    · unfold padded
      simp only [List.getD_eq_getElem?_getD, List.getElem?_take]
      rw [if_pos (by omega)]
    · omega
    · -- past the copied literal both sides are padding
      rw [padded_of_length_le (by omega), padded_of_length_le (by omega)]
    · rfl
  · simp only [pure_ok, Except.ok.injEq, Prod.mk.injEq, and_true]
    funext i
    have hi := i.isLt
    rw [if_neg (by omega)]

theorem rleDecodeFrom_eq (l : List UInt8) (runs : List RunLiteral) :
    rleDecodeFrom (fun i => padded l i) (min l.length pageSize) runs =
      .ok fun i => padded (l ++ expand runs) i := by
  induction runs generalizing l with
  | nil => simp [rleDecodeFrom]
  | cons r runs ih =>
    unfold rleDecodeFrom
    rw [rleDecodeStep_eq, ok_bind, ih, expand_cons]
    simp only [List.append_assoc]

/-- Decoding never panics and reads the expansion, whatever the run list is. -/
theorem rleDecode_eq (runs : List RunLiteral) : rleDecode runs = .ok (expandPage runs) := by
  have h := rleDecodeFrom_eq [] runs
  rw [List.nil_append] at h
  exact h

/-- The bytes from `i` on are the zeros passed, the literal passed, and the rest. -/
theorem drop_eq_round (buf : Page) (i : ℕ) :
    let litStart := scan (· == 0) buf i
    let stop := scan (· != 0) buf litStart
    buf.toList.drop i = List.replicate (litStart - i) 0 ++ slice buf litStart stop ++
      buf.toList.drop stop := by
  intro litStart stop
  have hi : i ≤ litStart := le_scan _ _ _
  have hs : litStart ≤ stop := le_scan _ _ _
  have hzeros : (buf.toList.drop i).take (litStart - i) = List.replicate (litStart - i) 0 := by
    apply List.ext_getElem?
    intro k
    rw [List.getElem?_take, List.getElem?_drop, List.getElem?_replicate]
    split_ifs with hk
    · obtain ⟨hlt, hz⟩ := of_mem_scan (· == 0) buf i (j := i + k) (by omega)
        (by show i + k < litStart; omega)
      rw [List.getElem?_ofFn, dif_pos hlt]
      exact congrArg some (beq_iff_eq.mp hz)
    · rfl
  have hsplit (a b : ℕ) (h : a ≤ b) : buf.toList.drop a =
      (buf.toList.drop a).take (b - a) ++ buf.toList.drop b := by
    conv_lhs => rw [← List.take_append_drop (b - a) (buf.toList.drop a)]
    rw [List.drop_drop, Nat.add_sub_cancel' h]
  rw [hsplit i litStart hi, hzeros, hsplit litStart stop hs, List.append_assoc, slice]

theorem scan_stops {p : UInt8 → Bool} {buf : Page} {i : ℕ} (h : scan p buf i < pageSize) :
    p (buf ⟨scan p buf i, h⟩) = false := by
  fun_induction scan p buf i with
  | case1 i hi hp ih => exact ih h
  | case2 i hi hp => simpa using hp
  | case3 i hi => exact absurd h hi

theorem getElem?_toList {n : ℕ} (buf : Bytes n) {i : ℕ} (h : i < n) :
    buf.toList[i]? = some (buf ⟨i, h⟩) := by
  rw [List.getElem?_ofFn, dif_pos h]

/-- A literal holds no zero. -/
theorem ne_zero_of_mem_literal {buf : Page} {i : ℕ} {a : UInt8}
    (ha : a ∈ slice buf i (scan (· != 0) buf i)) : a ≠ 0 := by
  obtain ⟨k, hk⟩ := List.mem_iff_getElem?.mp ha
  rw [slice, List.getElem?_take] at hk
  split_ifs at hk with hlt
  rw [List.getElem?_drop] at hk
  obtain ⟨hpage, hne⟩ := of_mem_scan (· != 0) buf i (j := i + k) (by omega) (by omega)
  rw [getElem?_toList buf hpage] at hk
  cases hk
  simpa using hne

/-- A literal ends at a zero or at the end of the page. -/
theorem eq_zero_of_head?_drop {buf : Page} {i : ℕ} {a : UInt8}
    (ha : a ∈ (buf.toList.drop (scan (· != 0) buf i)).head?) : a = 0 := by
  rw [List.head?_drop, Option.mem_def] at ha
  have hlt : scan (· != 0) buf i < pageSize := by
    obtain ⟨hlt, -⟩ := List.getElem?_eq_some_iff.mp ha
    simpa using hlt
  rw [getElem?_toList buf hlt] at ha
  cases ha
  simpa using scan_stops hlt

/-- An empty literal after the zeros means that the page is at its end. -/
theorem drop_eq_nil_of_literal_eq_nil {buf : Page} {i : ℕ}
    (h : slice buf (scan (· == 0) buf i) (scan (· != 0) buf (scan (· == 0) buf i)) = []) :
    buf.toList.drop (scan (· != 0) buf (scan (· == 0) buf i)) = [] := by
  generalize hstart : scan (· == 0) buf i = litStart at h ⊢
  by_cases hlt : litStart < pageSize
  · have hne : (buf ⟨litStart, hlt⟩ != 0) = true := by
      subst hstart
      simpa using scan_stops hlt
    have hstop : litStart < scan (· != 0) buf litStart := lt_scan hlt hne
    have hlen := congrArg List.length h
    simp only [slice, List.length_take, List.length_drop, List.length_ofFn, List.length_nil]
      at hlen
    omega
  · have hle := le_scan (· != 0) buf litStart
    apply List.drop_eq_nil_of_le
    rw [List.length_ofFn]
    omega

/-- The nested loops build the canonical run list of the bytes they are given. -/
theorem rleEncodeFrom_eq (buf : Page) (i : ℕ) :
    rleEncodeFrom buf i = encode (buf.toList.drop i) := by
  fun_induction rleEncodeFrom buf i with
  | case1 i h litStart zeroRun stop literal _ hrec ih =>
    have hround := drop_eq_round buf i
    change _ = List.replicate zeroRun 0 ++ literal ++ buf.toList.drop stop at hround
    rw [ih, hround]
    exact (encode_round (fun a ha => ne_zero_of_mem_literal ha)
      (fun a ha => eq_zero_of_head?_drop ha) drop_eq_nil_of_literal_eq_nil hrec).symm
  | case2 i h litStart zeroRun stop literal _ hrec ih =>
    obtain ⟨hzero, hnil⟩ := not_or.mp hrec
    have hround := drop_eq_round buf i
    change _ = List.replicate zeroRun 0 ++ literal ++ buf.toList.drop stop at hround
    rw [Nat.eq_zero_of_not_pos hzero, not_not.mp hnil] at hround
    rw [ih, hround]
    rfl
  | case3 i h => simp [List.drop_eq_nil_of_le, not_lt.mp h]

theorem rleEncode_eq (buf : Page) : rleEncode buf = encode buf.toList := by
  rw [rleEncode, rleEncodeFrom_eq, List.drop_zero]

theorem expandPage_rleEncode (buf : Page) : expandPage (rleEncode buf) = buf := by
  funext i
  unfold expandPage
  rw [rleEncode_eq, expand_encode, padded, List.getD_eq_getElem?_getD,
    getElem?_toList buf i.isLt, Option.getD_some]

end ChronosUvm
