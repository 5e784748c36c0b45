import Mathlib.Tactic
import ChronosUvm.Mem.Delta

/-!
The stateful diff engine and the lockstep of a primary and a standby engine. The
two vectors grow lazily; what they say about a page is `page?`, its baseline if
there is one, and each operation has one lemma in terms of it. A vector has at most
`isize::MAX` bytes, so an index can be too large for them.
-/
namespace ChronosUvm
open Panicking RunLength

/-- Both vectors always have the same length. -/
structure DeltaEngine where
  baseline : List Page
  haveBaseline : List Bool
  length_eq : haveBaseline.length = baseline.length

/-- `Vec::resize` -/
def resize {α : Type} (l : List α) (n : ℕ) (d : α) : List α :=
  l.take n ++ List.replicate (n - l.length) d

theorem length_resize {α : Type} (l : List α) (n : ℕ) (d : α) : (resize l n d).length = n := by
  unfold resize
  simp only [List.length_append, List.length_take, List.length_replicate]
  omega

theorem getD_resize {α : Type} (l : List α) {n : ℕ} (h : l.length ≤ n) (d : α) (i : ℕ) :
    (resize l n d).getD i d = l.getD i d := by
  unfold resize
  rw [List.take_of_length_le h]
  simp only [List.getD_eq_getElem?_getD]
  by_cases hi : i < l.length
  · rw [List.getElem?_append_left hi]
  · rw [List.getElem?_append_right (not_lt.mp hi), List.getElem?_replicate,
      List.getElem?_eq_none (not_lt.mp hi)]
    split_ifs <;> rfl

def xorPage (a b : Page) : Page := fun i => a i ^^^ b i

theorem xorPage_xorPage (a b : Page) : xorPage a (xorPage a b) = b := by
  funext i
  show a i ^^^ (a i ^^^ b i) = b i
  rw [← UInt8.xor_assoc, UInt8.xor_self, UInt8.zero_xor]

namespace DeltaEngine

/-- An engine without any baseline. -/
def fresh (capacityPages : ℕ) : DeltaEngine where
  baseline := List.replicate capacityPages zeroPage
  haveBaseline := List.replicate capacityPages false
  length_eq := by simp

def new (initialCapacityPages : ℕ) : Checked DeltaEngine :=
  if initialCapacityPages * pageSize < 2 ^ 63 then .ok (fresh initialCapacityPages)
  else .error .capacityOverflow

def resized (e : DeltaEngine) (len : ℕ) : DeltaEngine where
  baseline := resize e.baseline len zeroPage
  haveBaseline := resize e.haveBaseline len false
  length_eq := by rw [length_resize, length_resize]

def ensureCapacity (e : DeltaEngine) (pageIdx : UInt64) : Checked DeltaEngine :=
  if e.baseline.length ≤ pageIdx.toNat then do
    let len ← addU64 pageIdx 1
    if len.toNat * pageSize < 2 ^ 63 then .ok (e.resized len.toNat)
    else .error .capacityOverflow
  else .ok e

/-- `self.baseline[idx] = page; self.have_baseline[idx] = true` -/
def commit (e : DeltaEngine) (idx : ℕ) (page : Page) : DeltaEngine where
  baseline := e.baseline.set idx page
  haveBaseline := e.haveBaseline.set idx true
  length_eq := by rw [List.length_set, List.length_set, e.length_eq]

/-- The index is in range once the capacity is ensured (`lt_length_grown`), so the default
of `getD` is never read. The first branch sets `have_baseline`, the others find it set. -/
def diffAndCommit (e : DeltaEngine) (pageIdx : UInt64) (current : List UInt8) :
    Checked (PageDelta × DeltaEngine) :=
  if h : current.length = pageSize then do
    let bytes : Page := fun i => current.get (i.cast h.symm)
    let idx := pageIdx.toNat
    let e ← e.ensureCapacity pageIdx
    if e.haveBaseline.getD idx false = false then
      return (.raw pageIdx bytes, e.commit idx bytes)
    else
      let prev := e.baseline.getD idx zeroPage
      let runs := rleEncode (xorPage prev bytes)
      let rleSize := (runs.map fun r => 8 + r.literal.length).sum
      let e := e.commit idx bytes
      if rleSize < pageSize then return (.xor pageIdx runs, e)
      else return (.raw pageIdx bytes, e)
  else .error .assertion

def apply (e : DeltaEngine) (delta : PageDelta) : Checked (Page × DeltaEngine) := do
  let idx := delta.idx
  let e ← e.ensureCapacity delta.pageIdx
  let out ← match delta with
    | .raw _ bytes => pure bytes
    | .xor _ runs => do
      let prev := if e.haveBaseline.getD idx false then e.baseline.getD idx zeroPage else zeroPage
      let xorBuf ← rleDecode runs
      pure (xorPage prev xorBuf)
  return (out, e.commit idx out)

/-- The vectors can be resized for the page: one more than its index is a length that they
may have. -/
def Resizable (pageIdx : UInt64) : Prop := (pageIdx.toNat + 1) * pageSize < 2 ^ 63

instance (pageIdx : UInt64) : Decidable (Resizable pageIdx) :=
  inferInstanceAs (Decidable (_ < _))

/-- The vectors can be resized for every page of a 32-bit address space. -/
theorem resizable_ofNat {p : ℕ} (h : p < 2 ^ 32) : Resizable (.ofNat p) := by
  unfold Resizable pageSize
  rw [UInt64.toNat_ofNat', Nat.mod_eq_of_lt (by omega)]
  omega

/-- The page has its place in the vectors, or they can be resized for it. -/
def HasRoom (e : DeltaEngine) (pageIdx : UInt64) : Prop :=
  pageIdx.toNat < e.baseline.length ∨ Resizable pageIdx

instance (e : DeltaEngine) (pageIdx : UInt64) : Decidable (e.HasRoom pageIdx) :=
  inferInstanceAs (Decidable (_ ∨ _))

/-- Both vectors, as long as the index needs. -/
def grown (e : DeltaEngine) (idx : ℕ) : DeltaEngine :=
  if e.baseline.length ≤ idx then e.resized (idx + 1) else e

/-- The capacity is ensured, or the call panics: the length overflows or is too large. -/
theorem ensureCapacity_eq_ok {e e' : DeltaEngine} {i : UInt64} :
    e.ensureCapacity i = .ok e' ↔ e.HasRoom i ∧ e' = e.grown i.toNat := by
  have hone : (1 : UInt64).toNat = 1 := rfl
  unfold ensureCapacity HasRoom grown Resizable
  split_ifs with h
  · constructor
    · intro hok
      obtain ⟨len, hlen, hok⟩ := bind_returned.mp hok
      rw [addU64_eq_ok, hone] at hlen
      rw [hlen] at hok
      split_ifs at hok with hroom
      exact ⟨.inr hroom, (Except.ok.inj hok).symm⟩
    · rintro ⟨hroom, rfl⟩
      have hroom := hroom.resolve_left (not_lt.mpr h)
      have hlt : i.toNat + 1 < 2 ^ 64 := by
        unfold pageSize at hroom
        omega
      have hlen : (i + 1).toNat = i.toNat + 1 := by
        rw [UInt64.toNat_add, hone, Nat.mod_eq_of_lt hlt]
      rw [addU64_of_lt (by rwa [hone]), ok_bind, hlen, if_pos hroom]
  · rw [Except.ok.injEq]
    constructor
    · rintro rfl
      exact ⟨.inl (not_le.mp h), rfl⟩
    · rintro ⟨-, rfl⟩
      rfl

theorem ensureCapacity_of_hasRoom {e : DeltaEngine} {i : UInt64} (h : e.HasRoom i) :
    e.ensureCapacity i = .ok (e.grown i.toNat) := ensureCapacity_eq_ok.mpr ⟨h, rfl⟩

theorem new_eq_ok {capacity : ℕ} {e : DeltaEngine} :
    new capacity = .ok e ↔ capacity * pageSize < 2 ^ 63 ∧ e = fresh capacity := by
  unfold new
  split_ifs with h
  · rw [Except.ok.injEq]
    exact ⟨fun heq => ⟨h, heq.symm⟩, fun heq => heq.2.symm⟩
  · exact ⟨fun heq => (by cases heq), fun heq => absurd heq.1 h⟩

theorem lt_length_grown (e : DeltaEngine) (i : ℕ) : i < (e.grown i).baseline.length := by
  unfold grown resized
  split_ifs with h
  · rw [length_resize]
    omega
  · omega

/-- The baseline of a page, if the engine has one. -/
def page? (e : DeltaEngine) (i : ℕ) : Option Page :=
  if e.haveBaseline.getD i false then some (e.baseline.getD i zeroPage) else none

/-- The engine's copy of a page, all zeros where there is no baseline. -/
def pageOrZero (e : DeltaEngine) (i : ℕ) : Page := (e.page? i).getD zeroPage

@[simp] theorem page?_fresh (n i : ℕ) : (fresh n).page? i = none := by
  have h : (List.replicate n false).getD i false = false := by
    simp only [List.getD_eq_getElem?_getD, List.getElem?_replicate]
    split_ifs <;> rfl
  unfold page?
  simp only [fresh, h, Bool.false_eq_true, if_false]

@[simp] theorem page?_grown (e : DeltaEngine) (i j : ℕ) :
    (e.grown i).page? j = e.page? j := by
  unfold grown resized
  split_ifs with h
  · have hb : e.baseline.length ≤ i + 1 := by omega
    have hh : e.haveBaseline.length ≤ i + 1 := by rw [e.length_eq]; omega
    unfold page?
    simp only [getD_resize _ hb, getD_resize _ hh]
  · rfl

/-- Committing changes the baseline of its own page only. -/
theorem page?_commit {e : DeltaEngine} {i : ℕ} (h : i < e.baseline.length) (page : Page)
    (j : ℕ) : (e.commit i page).page? j = if j = i then some page else e.page? j := by
  have hh : i < e.haveBaseline.length := by rwa [e.length_eq]
  by_cases hj : j = i
  · subst hj
    simp [page?, commit, h, hh]
  · simp [page?, commit, hj, Ne.symm hj]

/-- The page a delta produces against the standby's copy. -/
def patch (prev : Page) : PageDelta → Page
  | .raw _ bytes => bytes
  | .xor _ runs => xorPage prev (expandPage runs)

/-- The engine after a delta. -/
def applied (e : DeltaEngine) (d : PageDelta) : DeltaEngine :=
  (e.grown d.idx).commit d.idx (patch (e.pageOrZero d.idx) d)

theorem apply_of_hasRoom {e : DeltaEngine} {d : PageDelta} (h : e.HasRoom d.pageIdx) :
    e.apply d = .ok (patch (e.pageOrZero d.idx) d, e.applied d) := by
  unfold apply
  rw [ensureCapacity_of_hasRoom h]
  cases d with
  | raw p bytes => rfl
  | xor p runs =>
    have hprev : (if (e.grown p.toNat).haveBaseline.getD p.toNat false then
        (e.grown p.toNat).baseline.getD p.toNat zeroPage else zeroPage) =
          e.pageOrZero p.toNat := by
      unfold pageOrZero
      rw [← page?_grown e p.toNat p.toNat, page?]
      split_ifs <;> rfl
    simp only [rleDecode_eq, ok_bind, pure_ok, patch]
    exact congrArg (fun prev => Except.ok (xorPage prev (expandPage runs),
      (e.grown p.toNat).commit p.toNat (xorPage prev (expandPage runs)))) hprev

/-- Applying returns the patched page and stores it, or there is no room and it panics. -/
theorem apply_eq_ok {e : DeltaEngine} {d : PageDelta} {r : Page × DeltaEngine} :
    e.apply d = .ok r ↔
      e.HasRoom d.pageIdx ∧ r = (patch (e.pageOrZero d.idx) d, e.applied d) := by
  constructor
  · intro h
    obtain ⟨e₁, hgrown, -⟩ := bind_returned.mp h
    have hroom := (ensureCapacity_eq_ok.mp hgrown).1
    rw [apply_of_hasRoom hroom] at h
    exact ⟨hroom, (Except.ok.inj h).symm⟩
  · rintro ⟨hroom, rfl⟩
    exact apply_of_hasRoom hroom

/-- A delta stores its page and touches no other. -/
theorem page?_applied (e : DeltaEngine) (d : PageDelta) (j : ℕ) :
    (e.applied d).page? j =
      if j = d.idx then some (patch (e.pageOrZero d.idx) d) else e.page? j := by
  unfold applied
  rw [page?_commit (lt_length_grown e _), page?_grown]

/-- The delta taken of a page against its baseline, if there is one. -/
def deltaFrom (prev? : Option Page) (i : UInt64) (page : Page) : PageDelta :=
  match prev? with
  | none => .raw i page
  | some prev =>
    let runs := rleEncode (xorPage prev page)
    if (runs.map fun r => 8 + r.literal.length).sum < pageSize then .xor i runs
    else .raw i page

/-- The engine once the page is its baseline at the index. -/
def committed (e : DeltaEngine) (i : UInt64) (page : Page) : DeltaEngine :=
  (e.grown i.toNat).commit i.toNat page

theorem page?_committed (e : DeltaEngine) (i : UInt64) (page : Page) (j : ℕ) :
    (e.committed i page).page? j = if j = i.toNat then some page else e.page? j := by
  unfold committed
  rw [page?_commit (lt_length_grown e _), page?_grown]

theorem diffAndCommit_of_hasRoom {e : DeltaEngine} {i : UInt64} (h : e.HasRoom i)
    (page : Page) : e.diffAndCommit i page.toList =
      .ok (deltaFrom (e.page? i.toNat) i page, e.committed i page) := by
  have hlen : page.toList.length = pageSize := List.length_ofFn
  have hbytes : (fun k : Fin pageSize => page.toList.get (k.cast hlen.symm)) = page := by
    funext k
    simp
  have hpage := page?_grown e i.toNat i.toNat
  unfold page? at hpage
  unfold diffAndCommit
  simp only [dif_pos hlen, hbytes, ensureCapacity_of_hasRoom h, ok_bind]
  cases hhave : (e.grown i.toNat).haveBaseline.getD i.toNat false with
  | false =>
    rw [hhave] at hpage
    rw [page?, ← hpage]
    rfl
  | true =>
    rw [hhave] at hpage
    rw [page?, ← hpage]
    simp only [deltaFrom, Bool.true_eq_false, if_false, if_true]
    split_ifs <;> rfl

/-- The primary's step returns exactly where there is room for the page. -/
theorem diffAndCommit_eq_ok {e : DeltaEngine} {i : UInt64} {page : Page}
    {r : PageDelta × DeltaEngine} : e.diffAndCommit i page.toList = .ok r ↔
      e.HasRoom i ∧ r = (deltaFrom (e.page? i.toNat) i page, e.committed i page) := by
  constructor
  · intro h
    have hroom : e.HasRoom i := by
      unfold diffAndCommit at h
      split_ifs at h
      obtain ⟨e₁, hgrown, -⟩ := bind_returned.mp h
      exact (ensureCapacity_eq_ok.mp hgrown).1
    rw [diffAndCommit_of_hasRoom hroom] at h
    exact ⟨hroom, (Except.ok.inj h).symm⟩
  · rintro ⟨hroom, rfl⟩
    exact diffAndCommit_of_hasRoom hroom page

theorem pageIdx_deltaFrom (prev? : Option Page) (i : UInt64) (page : Page) :
    (deltaFrom prev? i page).pageIdx = i := by
  cases prev? with
  | none => rfl
  | some prev =>
    simp only [deltaFrom]
    split_ifs <;> rfl

theorem idx_deltaFrom (prev? : Option Page) (i : UInt64) (page : Page) :
    (deltaFrom prev? i page).idx = i.toNat :=
  congrArg UInt64.toNat (pageIdx_deltaFrom prev? i page)

theorem patch_deltaFrom (prev? : Option Page) (i : UInt64) (page : Page) :
    patch (prev?.getD zeroPage) (deltaFrom prev? i page) = page := by
  cases prev? with
  | none => rfl
  | some prev =>
    simp only [deltaFrom]
    split_ifs
    · rw [patch, expandPage_rleEncode]
      exact xorPage_xorPage prev page
    · rfl

/-- Feed every delta of the primary to the standby, collecting what the standby returns. -/
def lockstep (primary standby : DeltaEngine) :
    List (UInt64 × Page) → Checked (List Page × DeltaEngine × DeltaEngine)
  | [] => .ok ([], primary, standby)
  | (i, page) :: rest => do
    let (delta, primary) ← primary.diffAndCommit i page.toList
    let (out, standby) ← standby.apply delta
    let (outs, primary, standby) ← lockstep primary standby rest
    return (out :: outs, primary, standby)

theorem lockstep_spec {primary standby : DeltaEngine}
    (hagree : ∀ j, primary.page? j = standby.page? j) {contents : List (UInt64 × Page)}
    (hroom : ∀ c ∈ contents, Resizable c.1) :
    ∃ primary' standby', lockstep primary standby contents =
        .ok (contents.map Prod.snd, primary', standby') ∧
      ∀ j, primary'.page? j = standby'.page? j := by
  induction contents generalizing primary standby with
  | nil => exact ⟨primary, standby, rfl, hagree⟩
  | cons c rest ih =>
    obtain ⟨i, page⟩ := c
    have hi : Resizable i := hroom (i, page) List.mem_cons_self
    have hdiff := primary.diffAndCommit_of_hasRoom (.inr hi) page
    have hidx := pageIdx_deltaFrom (primary.page? i.toNat) i page
    have hpatch := patch_deltaFrom (primary.page? i.toNat) i page
    generalize deltaFrom (primary.page? i.toNat) i page = d at hdiff hidx hpatch
    subst hidx
    -- both sides diff and patch against the same baseline
    have hout : patch (standby.pageOrZero d.idx) d = page := by
      rw [pageOrZero, ← hagree]
      exact hpatch
    have happly := standby.apply_of_hasRoom (d := d) (.inr hi)
    rw [hout] at happly
    have hnext (j : ℕ) :
        (primary.committed d.pageIdx page).page? j = (standby.applied d).page? j := by
      rw [page?_committed, page?_applied, hout, hagree]
      rfl
    obtain ⟨p', s', hrest, hend⟩ := ih hnext fun c hc => hroom c (List.mem_cons_of_mem _ hc)
    refine ⟨p', s', ?_, hend⟩
    unfold lockstep
    simp only [hdiff, happly, hrest, ok_bind, pure_ok, List.map_cons]

/-- Whatever the two capacities and the sequence of pages that the vectors can be resized
for: every delta reproduces the page it was taken of, and the engines agree on every baseline.
A prefix of the sequence is itself such a sequence, so this holds after every step. -/
theorem codec_lockstep {primaryCapacity standbyCapacity : ℕ} {primary standby : DeltaEngine}
    (hprimary : new primaryCapacity = .ok primary) (hstandby : new standbyCapacity = .ok standby)
    (contents : List (UInt64 × Page)) (hroom : ∀ c ∈ contents, Resizable c.1) :
    ∃ primary' standby',
      lockstep primary standby contents = .ok (contents.map Prod.snd, primary', standby') ∧
      ∀ j, primary'.page? j = standby'.page? j := by
  obtain ⟨-, rfl⟩ := new_eq_ok.mp hprimary
  obtain ⟨-, rfl⟩ := new_eq_ok.mp hstandby
  exact lockstep_spec (by simp) hroom

/-- A page written three times, around a page far beyond both capacities. -/
theorem codec_lockstep_rewritten :
    ∃ primary standby, new 4 = .ok primary ∧ new 0 = .ok standby ∧
      ∃ primary' standby', lockstep primary standby
          [(1, fun _ => 7), (1, fun _ => 9), (1000, fun _ => 1), (1, fun _ => 9)] =
          .ok ([fun _ => 7, fun _ => 9, fun _ => 1, fun _ => 9], primary', standby') ∧
        ∀ j, primary'.page? j = standby'.page? j := by
  refine ⟨fresh 4, fresh 0, new_eq_ok.mpr ⟨by decide, rfl⟩, new_eq_ok.mpr ⟨by decide, rfl⟩, ?_⟩
  exact codec_lockstep (new_eq_ok.mpr ⟨by decide, rfl⟩) (new_eq_ok.mpr ⟨by decide, rfl⟩)
    [(1, fun _ => 7), (1, fun _ => 9), (1000, fun _ => 1), (1, fun _ => 9)]
    (by simp [Resizable, pageSize])

end DeltaEngine
end ChronosUvm
