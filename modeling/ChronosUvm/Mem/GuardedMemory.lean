import Mathlib.Tactic
import ChronosUvm.Mem.Dirty

/-!
Guarded linear memory. The mapping is represented by its bytes, addressed from
its base; a fresh anonymous mapping reads as zeros, and `mmap` and `mprotect` are
assumed to succeed. What `new` fixes for the lifetime of the mapping is stated in
the fields of the structure.
-/
namespace ChronosUvm
open Panicking

/-- Logical scheduler tick. -/
abbrev Tick := UInt64

def pageSize : ℕ := 4096

theorem pageSize_pos : 0 < pageSize := by decide

/-- A fixed-size byte array. -/
abbrev Bytes (n : ℕ) := Fin n → UInt8

abbrev Bytes.toList {n : ℕ} (b : Bytes n) : List UInt8 := List.ofFn b

abbrev Page := Bytes pageSize

def zeroPage : Page := fun _ => 0

inductive MemFault where
  | outOfBounds (ptr len size : UInt32)
  | quotaExceeded (requested quota : UInt32)
  | layoutOverflow
  deriving DecidableEq, Repr

def quotaPages (quotaBytes : UInt32) : ℕ := (quotaBytes.toNat + pageSize - 1) / pageSize

structure MmapGuardedMemory where
  bytes : ℕ → UInt8
  mappedLen : ℕ
  sizeBytes : UInt32
  quotaBytes : UInt32
  dirty : DirtyPageSet
  size_le_quota : sizeBytes.toNat ≤ quotaBytes.toNat
  mappedLen_eq : mappedLen = quotaPages quotaBytes * pageSize + pageSize
  capacity_eq : dirty.capacityPages = quotaPages quotaBytes

namespace MmapGuardedMemory

def new (initialBytes quotaBytes : UInt32) : Except MemFault MmapGuardedMemory :=
  if h : quotaBytes.toNat < initialBytes.toNat then
    .error (.quotaExceeded initialBytes quotaBytes)
  else
    let quotaRounded := quotaPages quotaBytes * pageSize
    if quotaRounded < 2 ^ 64 ∧ quotaRounded + pageSize < 2 ^ 64 then
      .ok { bytes := fun _ => 0
            mappedLen := quotaRounded + pageSize
            sizeBytes := initialBytes
            quotaBytes := quotaBytes
            dirty := DirtyPageSet.new (quotaPages quotaBytes)
            size_le_quota := not_lt.mp h
            mappedLen_eq := rfl
            capacity_eq := rfl }
    else .error .layoutOverflow

/-- The approved host address, as an offset from the base of the mapping. -/
def translate (m : MmapGuardedMemory) (guestPtr len : UInt32) : Except MemFault ℕ :=
  if guestPtr.toNat + len.toNat < 2 ^ 32 then
    if m.sizeBytes.toNat < guestPtr.toNat + len.toNat then
      .error (.outOfBounds guestPtr len m.sizeBytes)
    else .ok guestPtr.toNat
  else .error (.outOfBounds guestPtr len m.sizeBytes)

/-- The comparison is made in 64 bits, the reported request is truncated to 32. -/
def grow (m : MmapGuardedMemory) (deltaPages : UInt32) :
    Except MemFault UInt32 × MmapGuardedMemory :=
  let newSize := m.sizeBytes.toNat + deltaPages.toNat * pageSize
  if h : m.quotaBytes.toNat < newSize then
    (.error (.quotaExceeded (UInt32.ofNat newSize) m.quotaBytes), m)
  else
    (.ok (m.sizeBytes / UInt32.ofNat pageSize),
      { m with
        sizeBytes := UInt32.ofNat newSize
        size_le_quota := (Nat.mod_le _ _).trans (not_lt.mp h) })

def markDirty (m : MmapGuardedMemory) (pageIdx : ℕ) : Checked MmapGuardedMemory :=
  match h : m.dirty.mark pageIdx with
  | .ok d => .ok { m with
      dirty := d
      capacity_eq := (DirtyPageSet.mark_capacityPages h).trans m.capacity_eq }
  | .error p => .error p

/-- The slice of a release build, which checks nothing. Every page below the committed size is
there to be read; a page at or past the guard page is not. -/
def pageBytes (m : MmapGuardedMemory) (pageIdx : ℕ) : Page :=
  fun j => m.bytes (pageIdx * pageSize + j)

/-- `mark_dirty` of a debug build: `mark` asserts that the page is tracked. -/
def markDirtyAsserted (m : MmapGuardedMemory) (pageIdx : ℕ) : Checked MmapGuardedMemory :=
  if pageIdx < m.dirty.capacityPages then m.markDirty pageIdx else .error .assertion

/-- `page_bytes` of a debug build: it asserts that the page is committed. -/
def pageBytesAsserted (m : MmapGuardedMemory) (pageIdx : ℕ) : Checked Page :=
  if pageIdx * pageSize + pageSize ≤ m.sizeBytes.toNat then .ok (m.pageBytes pageIdx)
  else .error .assertion

/-- `dirty_pages_mut().clear_all()`, the supervisor's only use of the accessor. -/
def clearDirtyPages (m : MmapGuardedMemory) : MmapGuardedMemory :=
  { m with dirty := m.dirty.clearAll, capacity_eq := m.capacity_eq }

/-- A guest write through an approved address. -/
def write (m : MmapGuardedMemory) (addr : ℕ) {n : ℕ} (data : Bytes n) : MmapGuardedMemory :=
  { m with bytes := fun a => if h : addr ≤ a ∧ a < addr + n then data ⟨a - addr, by omega⟩
      else m.bytes a }

theorem new_eq_ok {i q : UInt32} {m : MmapGuardedMemory} (h : new i q = .ok m) :
    m.bytes = (fun _ => 0) ∧ m.sizeBytes = i ∧ m.quotaBytes = q ∧
      ∀ p, m.dirty.isDirty p = false := by
  simp only [new] at h
  split_ifs at h
  cases h
  exact ⟨rfl, rfl, rfl, fun p => DirtyPageSet.isDirty_new _ p⟩

theorem pageBytes_congr {m m' : MmapGuardedMemory} (h : m'.bytes = m.bytes) (p : ℕ) :
    m'.pageBytes p = m.pageBytes p := by
  funext j
  unfold pageBytes
  simp only [h]

theorem new_pageBytes {i q : UInt32} {m : MmapGuardedMemory} (h : new i q = .ok m) (p : ℕ) :
    m.pageBytes p = zeroPage := by
  funext j
  unfold pageBytes
  simp only [(new_eq_ok h).1, zeroPage]

theorem translate_eq_ok {m : MmapGuardedMemory} {ptr len : UInt32} {addr : ℕ} :
    m.translate ptr len = .ok addr ↔
      ptr.toNat + len.toNat ≤ m.sizeBytes.toNat ∧ addr = ptr.toNat := by
  have hsize := m.sizeBytes.toNat_lt
  unfold translate
  split_ifs with h1 h2
  · simp only [false_iff]
    omega
  · simp only [Except.ok.injEq]
    omega
  · simp only [false_iff]
    omega

theorem grow_sizeBytes_le (m : MmapGuardedMemory) (d : UInt32) :
    m.sizeBytes.toNat ≤ (m.grow d).2.sizeBytes.toNat := by
  have hq := m.quotaBytes.toNat_lt
  simp only [grow]
  split_ifs with h
  · exact le_rfl
  · change _ ≤ (UInt32.ofNat _).toNat
    rw [UInt32.toNat_ofNat', Nat.mod_eq_of_lt (by omega)]
    omega

@[simp] theorem grow_bytes (m : MmapGuardedMemory) (d : UInt32) :
    (m.grow d).2.bytes = m.bytes := by
  simp only [grow]
  split_ifs <;> rfl

@[simp] theorem grow_quotaBytes (m : MmapGuardedMemory) (d : UInt32) :
    (m.grow d).2.quotaBytes = m.quotaBytes := by
  simp only [grow]
  split_ifs <;> rfl

@[simp] theorem grow_dirty (m : MmapGuardedMemory) (d : UInt32) :
    (m.grow d).2.dirty = m.dirty := by
  simp only [grow]
  split_ifs <;> rfl

theorem markDirty_eq_ok {m m' : MmapGuardedMemory} {p : ℕ} (h : m.markDirty p = .ok m') :
    m.dirty.mark p = .ok m'.dirty ∧ m'.bytes = m.bytes ∧ m'.sizeBytes = m.sizeBytes ∧
      m'.quotaBytes = m.quotaBytes := by
  unfold markDirty at h
  split at h
  next d hd =>
    cases h
    exact ⟨hd, rfl, rfl, rfl⟩
  next => cases h

theorem markDirty_returns {m : MmapGuardedMemory} {p : ℕ} {d : DirtyPageSet}
    (h : m.dirty.mark p = .ok d) : ∃ m', m.markDirty p = .ok m' := by
  unfold markDirty
  split
  next => exact ⟨_, rfl⟩
  next hd =>
    rw [h] at hd
    cases hd

theorem page_of_offset (p : ℕ) (j : Fin pageSize) : (p * pageSize + j) / pageSize = p := by
  rw [Nat.mul_comm, Nat.mul_add_div pageSize_pos, Nat.div_eq_of_lt j.isLt, Nat.add_zero]

/-- A write leaves every page alone that none of its bytes lies in. -/
theorem write_pageBytes_of_untouched {m : MmapGuardedMemory} {addr n : ℕ}
    {data : Bytes n} {p : ℕ} (h : ∀ k < n, (addr + k) / pageSize ≠ p) :
    (m.write addr data).pageBytes p = m.pageBytes p := by
  funext j
  unfold pageBytes
  simp only [write]
  rw [dif_neg]
  rintro ⟨h1, h2⟩
  apply h (p * pageSize + j - addr) (by omega)
  rw [Nat.add_sub_cancel' h1, page_of_offset]

/-- Dirty pages lie far below the leaf range of the checkpoint tree. -/
theorem isDirty_lt {m : MmapGuardedMemory} {p : ℕ} (h : m.dirty.isDirty p = true) :
    p < 2 ^ 32 := by
  have hlt := DirtyPageSet.isDirty_lt h
  have hq := m.quotaBytes.toNat_lt
  rw [m.dirty.words_eq, m.capacity_eq, quotaPages, pageSize] at hlt
  omega

theorem lt_of_mem_iterDirty {m : MmapGuardedMemory} {p : ℕ} (h : p ∈ m.dirty.iterDirty) :
    p < 2 ^ 32 := isDirty_lt ((DirtyPageSet.mem_iterDirty _ p).mp h)

end MmapGuardedMemory
end ChronosUvm
