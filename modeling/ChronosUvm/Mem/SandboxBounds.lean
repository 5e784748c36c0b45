import Mathlib.Tactic
import ChronosUvm.Mem.GuestWrites

/-!
The bounds of a guest's memory over whole runs of growth. The size is counted in bytes
of 32 bits, the quota is rounded to pages in 64, and the bitmap in words; what the
fields of the memory state about them suffices for every approved access.
-/
namespace ChronosUvm
namespace MmapGuardedMemory
open Panicking

/-- A sequence of `grow` calls, whatever each of them returns. -/
def growAll (m : MmapGuardedMemory) (deltas : List UInt32) : MmapGuardedMemory :=
  deltas.foldl (fun m d => (m.grow d).2) m

/-- The pages granted by the successful calls of the sequence. -/
def granted (m : MmapGuardedMemory) : List UInt32 → ℕ
  | [] => 0
  | d :: rest =>
    (match (m.grow d).1 with
      | .ok _ => d.toNat
      | .error _ => 0) + (m.grow d).2.granted rest

/-- Where the guard page starts, as an offset from the base of the mapping. -/
def guardOffset (m : MmapGuardedMemory) : ℕ := m.mappedLen - pageSize

theorem guardOffset_eq (m : MmapGuardedMemory) :
    m.guardOffset = quotaPages m.quotaBytes * pageSize := by
  unfold guardOffset
  rw [m.mappedLen_eq, Nat.add_sub_cancel]

theorem quota_le_guardOffset (m : MmapGuardedMemory) : m.quotaBytes.toNat ≤ m.guardOffset := by
  rw [guardOffset_eq]
  unfold quotaPages pageSize
  omega

theorem grow_cases (m : MmapGuardedMemory) (d : UInt32) :
    ((m.grow d).1 = .ok (m.sizeBytes / UInt32.ofNat pageSize) ∧
      (m.grow d).2.sizeBytes.toNat = m.sizeBytes.toNat + pageSize * d.toNat) ∨
    (m.quotaBytes.toNat < m.sizeBytes.toNat + d.toNat * pageSize ∧
      (m.grow d).1 = .error (.quotaExceeded
        (UInt32.ofNat (m.sizeBytes.toNat + d.toNat * pageSize)) m.quotaBytes) ∧
      (m.grow d).2 = m) := by
  have hquota := m.quotaBytes.toNat_lt
  simp only [grow]
  split_ifs with h
  · exact .inr ⟨h, rfl, rfl⟩
  · refine .inl ⟨rfl, ?_⟩
    show (UInt32.ofNat _).toNat = _
    rw [UInt32.toNat_ofNat', Nat.mod_eq_of_lt (by omega), Nat.mul_comm]

theorem sizeBytes_growAll (m : MmapGuardedMemory) (deltas : List UInt32) :
    (m.growAll deltas).sizeBytes.toNat = m.sizeBytes.toNat + pageSize * m.granted deltas := by
  induction deltas generalizing m with
  | nil => simp [growAll, granted]
  | cons d deltas ih =>
    have hrest := ih (m.grow d).2
    unfold granted
    rcases m.grow_cases d with ⟨hok, hsize⟩ | ⟨-, herror, hsame⟩
    · rw [hsize] at hrest
      rw [hok, Nat.mul_add, ← Nat.add_assoc]
      exact hrest
    · rw [hsame] at hrest
      rw [herror, hsame, Nat.zero_add]
      unfold growAll at hrest ⊢
      rw [List.foldl_cons, hsame]
      exact hrest

theorem quotaBytes_growAll (m : MmapGuardedMemory) (deltas : List UInt32) :
    (m.growAll deltas).quotaBytes = m.quotaBytes := by
  induction deltas generalizing m with
  | nil => rfl
  | cons d deltas ih => exact (ih (m.grow d).2).trans (grow_quotaBytes m d)

/-- What every access approved in this state may rely on. -/
structure Sandboxed (m : MmapGuardedMemory) : Prop where
  approved_iff : ∀ ptr len, (∃ addr, m.translate ptr len = .ok addr) ↔
    ptr.toNat + len.toNat ≤ m.sizeBytes.toNat
  before_guard : ∀ ptr len addr, m.translate ptr len = .ok addr →
    addr + len.toNat ≤ m.guardOffset ∧ m.guardOffset + pageSize = m.mappedLen
  tracked : ∀ ptr len addr, m.translate ptr len = .ok addr → ∀ p ∈ storePages ptr len,
    p < m.dirty.capacityPages ∧ p / 64 < m.dirty.bits.length ∧ ∃ m', m.markDirty p = .ok m'
  window : ∀ ptr len addr, m.translate ptr len = .ok addr → ∀ p ∈ storePages ptr len,
    p * pageSize + pageSize ≤ m.guardOffset

/-- A touched page lies below the page count that the quota is rounded to. -/
theorem lt_quotaPages {m : MmapGuardedMemory} {ptr len : UInt32} {addr p : ℕ}
    (h : m.translate ptr len = .ok addr) (hp : p ∈ storePages ptr len) :
    p < quotaPages m.quotaBytes := by
  obtain ⟨hend, -⟩ := translate_eq_ok.mp h
  have hquota := m.size_le_quota
  unfold storePages at hp
  obtain ⟨k, hk, rfl⟩ := List.mem_map.mp hp
  have hk := List.mem_range.mp hk
  unfold quotaPages pageSize
  omega

/-- The bounds hold in every state, since they follow from the fields of the memory. -/
theorem sandboxed (m : MmapGuardedMemory) : Sandboxed m where
  approved_iff ptr len := by
    constructor
    · rintro ⟨addr, h⟩
      exact (translate_eq_ok.mp h).1
    · intro h
      exact ⟨_, translate_eq_ok.mpr ⟨h, rfl⟩⟩
  before_guard ptr len addr h := by
    obtain ⟨hend, rfl⟩ := translate_eq_ok.mp h
    refine ⟨(hend.trans m.size_le_quota).trans m.quota_le_guardOffset, ?_⟩
    rw [guardOffset_eq, m.mappedLen_eq]
  tracked ptr len addr h p hp := by
    have hlt : p < m.dirty.capacityPages := by
      rw [m.capacity_eq]
      exact lt_quotaPages h hp
    have hword : p / 64 < m.dirty.bits.length := by
      rw [m.dirty.words_eq]
      omega
    obtain ⟨d, hd⟩ := DirtyPageSet.mark_returns hword
    exact ⟨hlt, hword, markDirty_returns hd⟩
  window ptr len addr h p hp := by
    rw [guardOffset_eq, ← Nat.succ_mul]
    exact Nat.mul_le_mul_right _ (lt_quotaPages h hp)

/-- Sandbox bounds in every reachable memory state. Every memory that is asked for within its
quota is built; after any growth its size is what was granted, within the quota and without
wrap-around, a refused growth leaves it unchanged, and approved accesses stay in bounds. -/
theorem sandbox_bounds (initialBytes quotaBytes : UInt32)
    (h : initialBytes.toNat ≤ quotaBytes.toNat) (deltas : List UInt32) :
    ∃ m, new initialBytes quotaBytes = .ok m ∧
      (m.growAll deltas).sizeBytes.toNat = initialBytes.toNat + pageSize * m.granted deltas ∧
      (m.growAll deltas).sizeBytes.toNat ≤ quotaBytes.toNat ∧
      (∀ d fault, ((m.growAll deltas).grow d).1 = .error fault →
        ((m.growAll deltas).grow d).2 = m.growAll deltas) ∧
      Sandboxed (m.growAll deltas) := by
  have hquota := quotaBytes.toNat_lt
  have hlayout : quotaPages quotaBytes * pageSize < 2 ^ 64 ∧
      quotaPages quotaBytes * pageSize + pageSize < 2 ^ 64 := by
    unfold quotaPages pageSize
    omega
  obtain ⟨m, hm⟩ : ∃ m, new initialBytes quotaBytes = .ok m := by
    unfold new
    rw [dif_neg (not_lt.mpr h), if_pos hlayout]
    exact ⟨_, rfl⟩
  obtain ⟨-, hsize, hquotaEq, -⟩ := new_eq_ok hm
  refine ⟨m, hm, ?_, ?_, ?_, sandboxed _⟩
  · rw [sizeBytes_growAll, hsize]
  · have hle := (m.growAll deltas).size_le_quota
    rwa [quotaBytes_growAll, hquotaEq] at hle
  · intro d fault hfault
    rcases (m.growAll deltas).grow_cases d with ⟨hok, -⟩ | ⟨-, -, hsame⟩
    · rw [hok] at hfault
      cases hfault
    · exact hsame

/-- A quota that ends inside a page, one growth granted and one refused. -/
theorem sandbox_bounds_partial_quota :
    ∃ m, new 4096 10000 = .ok m ∧ (m.growAll [1, 5]).sizeBytes.toNat = 8192 ∧
      Sandboxed (m.growAll [1, 5]) := by
  obtain ⟨m, hm, hsize, -, -, hbounds⟩ := sandbox_bounds 4096 10000 (by decide) [1, 5]
  have hgranted : returnsWith (new 4096 10000) (fun m => m.granted [1, 5] == 1) = true := by
    decide +kernel
  obtain ⟨m', hm', htest⟩ := returnsWith_eq_true.mp hgranted
  obtain rfl : m = m' := Except.ok.inj (hm.symm.trans hm')
  rw [beq_iff_eq] at htest
  rw [htest] at hsize
  exact ⟨m, hm, hsize, hbounds⟩

/-- What `page_bytes` documents as its precondition. -/
def Readable (m : MmapGuardedMemory) (pageIdx : ℕ) : Prop :=
  pageIdx < m.sizeBytes.toNat / pageSize

/-- The documented precondition is what the debug assertion of `page_bytes` checks. -/
theorem readable_iff {m : MmapGuardedMemory} {p : ℕ} :
    m.Readable p ↔ p * pageSize + pageSize ≤ m.sizeBytes.toNat := by
  unfold Readable
  rw [Nat.lt_iff_add_one_le, Nat.le_div_iff_mul_le pageSize_pos, Nat.succ_mul]

theorem growAll_append (m : MmapGuardedMemory) (deltas later : List UInt32) :
    m.growAll (deltas ++ later) = (m.growAll deltas).growAll later := List.foldl_append

/-- Every page that an approved access touches can be read by a later checkpoint, exactly when
the memory was built with a whole number of pages. -/
theorem touched_readable_iff (initialBytes quotaBytes : UInt32) (m : MmapGuardedMemory)
    (hnew : new initialBytes quotaBytes = .ok m) (deltas : List UInt32) :
    (∀ ptr len addr, 0 < len.toNat → (m.growAll deltas).translate ptr len = .ok addr →
      ∀ p ∈ storePages ptr len, ∀ later, (m.growAll (deltas ++ later)).Readable p) ↔
    initialBytes.toNat % pageSize = 0 := by
  obtain ⟨-, hinitial, -, -⟩ := new_eq_ok hnew
  have hsize := m.sizeBytes_growAll deltas
  rw [hinitial] at hsize
  have hmod : (m.growAll deltas).sizeBytes.toNat % pageSize = initialBytes.toNat % pageSize := by
    rw [hsize, Nat.add_mul_mod_self_left]
  have hlt := (m.growAll deltas).sizeBytes.toNat_lt
  constructor
  · intro h
    by_contra hpartial
    -- the last committed byte lies in a page that is not committed in full
    have hptr : (UInt32.ofNat ((m.growAll deltas).sizeBytes.toNat - 1)).toNat =
        (m.growAll deltas).sizeBytes.toNat - 1 := by
      rw [UInt32.toNat_ofNat', Nat.mod_eq_of_lt (by omega)]
    have hpos : 0 < (m.growAll deltas).sizeBytes.toNat := by
      by_contra hzero
      rw [Nat.eq_zero_of_not_pos hzero] at hmod
      exact hpartial hmod.symm
    have happroved : (m.growAll deltas).translate
        (UInt32.ofNat ((m.growAll deltas).sizeBytes.toNat - 1)) 1 =
          .ok ((m.growAll deltas).sizeBytes.toNat - 1) := by
      rw [translate_eq_ok, hptr]
      exact ⟨(Nat.sub_add_cancel hpos).le, rfl⟩
    have hpage : ((m.growAll deltas).sizeBytes.toNat - 1) / pageSize ∈
        storePages (UInt32.ofNat ((m.growAll deltas).sizeBytes.toNat - 1)) 1 := by
      unfold storePages
      exact List.mem_map.mpr ⟨0, List.mem_range.mpr (by decide), by rw [hptr, Nat.add_zero]⟩
    have hread := h _ 1 _ (by decide) happroved _ hpage []
    rw [List.append_nil, readable_iff] at hread
    rw [← hmod] at hpartial
    unfold pageSize at hread hpartial
    omega
  · intro haligned ptr len addr _ happroved p hp later
    obtain ⟨hend, -⟩ := translate_eq_ok.mp happroved
    have hgrown := (m.growAll deltas).sizeBytes_growAll later
    rw [← growAll_append] at hgrown
    unfold storePages at hp
    obtain ⟨k, hk, rfl⟩ := List.mem_map.mp hp
    have hk := List.mem_range.mp hk
    rw [readable_iff, hgrown]
    rw [haligned] at hmod
    unfold pageSize at hmod ⊢
    omega

/-- Two pages, grown by a third one. -/
theorem touched_readable_iff_three_pages :
    ∃ m, new 8192 12288 = .ok m ∧
      ∀ ptr len addr, 0 < len.toNat → (m.growAll [1]).translate ptr len = .ok addr →
        ∀ p ∈ storePages ptr len, (m.growAll [1]).Readable p := by
  have hnew : returnsWith (new 8192 12288) (fun _ => true) = true := by decide +kernel
  obtain ⟨m, hm, -⟩ := returnsWith_eq_true.mp hnew
  refine ⟨m, hm, ?_⟩
  intro ptr len addr hlen happroved p hp
  exact (touched_readable_iff 8192 12288 m hm [1]).mpr (by decide) ptr len addr hlen happroved p hp
    []

/-- A memory of a single byte: the access to it is approved and touches page 0, which is not
committed in full. -/
theorem touched_unreadable :
    ∃ m, new 1 4096 = .ok m ∧ m.translate 0 1 = .ok 0 ∧ 0 ∈ storePages 0 1 ∧
      ¬ m.Readable 0 := by
  have hnew : returnsWith (new 1 4096) (fun m => decide (m.translate 0 1 = .ok 0) &&
      m.sizeBytes == 1) = true := by
    decide +kernel
  obtain ⟨m, hm, htest⟩ := returnsWith_eq_true.mp hnew
  simp only [Bool.and_eq_true, decide_eq_true_eq, beq_iff_eq] at htest
  obtain ⟨happroved, hsize⟩ := htest
  refine ⟨m, hm, happroved, by decide, ?_⟩
  unfold Readable
  rw [hsize]
  decide

/-- Where the fault is a quota error, it names the quota and the size that was asked for. -/
def ReportsRequest (asked : ℕ) (quotaBytes : UInt32) (fault : MemFault) : Prop :=
  ∀ requested quota, fault = .quotaExceeded requested quota →
    quota = quotaBytes ∧ requested.toNat = asked ∧ quota.toNat < requested.toNat

theorem reportsRequest_new {initialBytes quotaBytes : UInt32} {fault : MemFault}
    (h : new initialBytes quotaBytes = .error fault) :
    ReportsRequest initialBytes.toNat quotaBytes fault := by
  rintro requested quota rfl
  simp only [new] at h
  split_ifs at h with hquota
  · cases h
    exact ⟨rfl, rfl, hquota⟩
  · cases h

/-- A request of `2 ^ 32` bytes or more is refused, and reported by its last 32 bits. -/
theorem reportsRequest_grow_iff (m : MmapGuardedMemory) (d : UInt32) :
    (∀ fault, (m.grow d).1 = .error fault →
      ReportsRequest (m.sizeBytes.toNat + d.toNat * pageSize) m.quotaBytes fault ∧
        (m.grow d).2 = m) ↔
    m.sizeBytes.toNat + d.toNat * pageSize < 2 ^ 32 := by
  have hquota := m.quotaBytes.toNat_lt
  rcases m.grow_cases d with ⟨hok, hsize⟩ | ⟨hover, herror, hsame⟩
  · have hle := (m.grow d).2.size_le_quota
    rw [grow_quotaBytes, hsize, Nat.mul_comm] at hle
    simp only [hok, reduceCtorEq, false_implies, implies_true, true_iff]
    omega
  · constructor
    · intro h
      obtain ⟨-, hrequested, -⟩ := (h _ herror).1 _ _ rfl
      rw [← hrequested]
      exact UInt32.toNat_lt _
    · intro hlt fault hfault
      rw [herror] at hfault
      cases hfault
      refine ⟨?_, hsame⟩
      rintro requested quota hreported
      cases hreported
      have hrequested : (UInt32.ofNat (m.sizeBytes.toNat + d.toNat * pageSize)).toNat =
          m.sizeBytes.toNat + d.toNat * pageSize := by
        rw [UInt32.toNat_ofNat', Nat.mod_eq_of_lt hlt]
      exact ⟨rfl, hrequested, by rw [hrequested]; exact hover⟩

/-- What quota errors report. The error of `new` names the request; the error of a growth in a
reachable memory does exactly if the size that was asked for has 32 bits. -/
theorem quota_errors_report_iff (initialBytes quotaBytes : UInt32) :
    (∀ fault, new initialBytes quotaBytes = .error fault →
      ReportsRequest initialBytes.toNat quotaBytes fault) ∧
    ∀ m, new initialBytes quotaBytes = .ok m → ∀ deltas d,
      ((∀ fault, ((m.growAll deltas).grow d).1 = .error fault →
        ReportsRequest ((m.growAll deltas).sizeBytes.toNat + d.toNat * pageSize) quotaBytes fault ∧
          ((m.growAll deltas).grow d).2 = m.growAll deltas) ↔
      (m.growAll deltas).sizeBytes.toNat + d.toNat * pageSize < 2 ^ 32) := by
  refine ⟨fun fault => reportsRequest_new, ?_⟩
  intro m hnew deltas d
  have hquota : (m.growAll deltas).quotaBytes = quotaBytes := by
    rw [quotaBytes_growAll, (new_eq_ok hnew).2.2.1]
  have hiff := (m.growAll deltas).reportsRequest_grow_iff d
  rwa [hquota] at hiff

/-- A memory of one page is asked to grow to `2 ^ 32` bytes, and reports a request of zero. -/
theorem quota_error_reports_zero :
    ∃ m, new 4096 65536 = .ok m ∧
      (m.grow 1048575).1 = .error (.quotaExceeded 0 65536) ∧
      ¬ ReportsRequest (m.sizeBytes.toNat + 1048575 * pageSize) 65536
        (.quotaExceeded 0 65536) := by
  have hnew : returnsWith (new 4096 65536)
      (fun m => decide ((m.grow 1048575).1 = .error (.quotaExceeded 0 65536))) = true := by
    decide +kernel
  obtain ⟨m, hm, htest⟩ := returnsWith_eq_true.mp hnew
  refine ⟨m, hm, of_decide_eq_true htest, ?_⟩
  intro hreports
  obtain ⟨-, -, hlt⟩ := hreports 0 65536 rfl
  exact absurd hlt (by decide)

end MmapGuardedMemory
end ChronosUvm
