import Mathlib.Tactic
import ChronosUvm.Mem.GuardedMemory

/-!
What a guest may do to its memory during a quantum: write through approved
addresses, mark pages, and grow. The pipelines rely only on the summary
`GuestEffect` of a quantum that marks every page it writes.
-/
namespace ChronosUvm
namespace MmapGuardedMemory
open Panicking

inductive MemOp where
  | write (ptr len : UInt32) (data : Bytes len.toNat)
  | markDirty (pageIdx : ℕ)
  | grow (deltaPages : UInt32)

/-- Operations performed one after the other. A refused write does not happen,
so only approved writes occur; a refused growth leaves the memory as it was. -/
inductive Performs : MmapGuardedMemory → List MemOp → MmapGuardedMemory → Prop where
  | nil (m : MmapGuardedMemory) : Performs m [] m
  | write {m m' : MmapGuardedMemory} {ptr len : UInt32} {data : Bytes len.toNat} {addr : ℕ}
      {ops : List MemOp} (happroved : m.translate ptr len = .ok addr)
      (hrest : Performs (m.write addr data) ops m') : Performs m (.write ptr len data :: ops) m'
  | markDirty {m m₁ m' : MmapGuardedMemory} {pageIdx : ℕ} {ops : List MemOp}
      (hmark : m.markDirty pageIdx = .ok m₁) (hrest : Performs m₁ ops m') :
      Performs m (.markDirty pageIdx :: ops) m'
  | grow {m m' : MmapGuardedMemory} {deltaPages : UInt32} {ops : List MemOp}
      (hrest : Performs (m.grow deltaPages).2 ops m') : Performs m (.grow deltaPages :: ops) m'

/-- Every page that is written in the quantum is also marked in it. -/
def MarksWrites (ops : List MemOp) : Prop :=
  ∀ ptr len data, MemOp.write ptr len data ∈ ops →
    ∀ k < len.toNat, MemOp.markDirty ((ptr.toNat + k) / pageSize) ∈ ops

/-- The guest wrote only inside approved ranges and marked every page it wrote. -/
def GuestWrites (m m' : MmapGuardedMemory) : Prop :=
  ∃ ops, Performs m ops m' ∧ MarksWrites ops

/-- The part of a quantum's effect on memory that the pipelines depend on. -/
structure GuestEffect (m m' : MmapGuardedMemory) : Prop where
  quota_eq : m'.quotaBytes = m.quotaBytes
  size_le : m.sizeBytes.toNat ≤ m'.sizeBytes.toNat
  keeps_dirty : ∀ p, m.dirty.isDirty p = true → m'.dirty.isDirty p = true
  marks_changed : ∀ p, m'.pageBytes p ≠ m.pageBytes p → m'.dirty.isDirty p = true
  outside_eq : ∀ a, m'.sizeBytes.toNat ≤ a → m'.bytes a = m.bytes a

/-- A page that is clean after the quantum was clean before it and has not changed. -/
theorem GuestEffect.of_clean {m m' : MmapGuardedMemory} (h : GuestEffect m m') {p : ℕ}
    (hclean : m'.dirty.isDirty p = false) :
    m.dirty.isDirty p = false ∧ m'.pageBytes p = m.pageBytes p := by
  constructor
  · by_contra hdirty
    have := h.keeps_dirty p (by simpa using hdirty)
    rw [hclean] at this
    cases this
  · by_contra hchanged
    have := h.marks_changed p hchanged
    rw [hclean] at this
    cases this

/-- Pages touched by the approved writes of a quantum. -/
def Touches (ops : List MemOp) (p : ℕ) : Prop :=
  ∃ ptr len data, MemOp.write ptr len data ∈ ops ∧ ∃ k < len.toNat, (ptr.toNat + k) / pageSize = p

theorem Touches.cons {op : MemOp} {ops : List MemOp} {p : ℕ} (h : Touches ops p) :
    Touches (op :: ops) p := by
  obtain ⟨ptr, len, data, hmem, hk⟩ := h
  exact ⟨ptr, len, data, List.mem_cons_of_mem _ hmem, hk⟩

namespace Performs
variable {m m' : MmapGuardedMemory} {ops : List MemOp}

theorem quota_eq (h : Performs m ops m') : m'.quotaBytes = m.quotaBytes := by
  induction h with
  | nil => rfl
  | write _ _ ih => exact ih
  | markDirty hmark _ ih => exact ih.trans (markDirty_eq_ok hmark).2.2.2
  | grow _ ih => exact ih.trans (grow_quotaBytes _ _)

theorem size_le (h : Performs m ops m') : m.sizeBytes.toNat ≤ m'.sizeBytes.toNat := by
  induction h with
  | nil => exact le_rfl
  | write _ _ ih => exact ih
  | markDirty hmark _ ih => rwa [(markDirty_eq_ok hmark).2.2.1] at ih
  | grow _ ih => exact (grow_sizeBytes_le _ _).trans ih

/-- The dirty set at the end is the one at the start plus the marks of the quantum. -/
theorem isDirty_iff (h : Performs m ops m') (p : ℕ) :
    m'.dirty.isDirty p = true ↔ MemOp.markDirty p ∈ ops ∨ m.dirty.isDirty p = true := by
  induction h with
  | nil => simp
  | write _ _ ih => simpa [MmapGuardedMemory.write] using ih
  | markDirty hmark _ ih =>
    rw [ih, DirtyPageSet.isDirty_mark (markDirty_eq_ok hmark).1]
    simp only [Bool.or_eq_true, decide_eq_true_eq, List.mem_cons, MemOp.markDirty.injEq]
    tauto
  | grow _ ih => simpa using ih

theorem pageBytes_of_untouched (h : Performs m ops m') {p : ℕ} (hp : ¬ Touches ops p) :
    m'.pageBytes p = m.pageBytes p := by
  induction h with
  | nil => rfl
  | @write m m' ptr len data addr ops happroved _ ih =>
    rw [ih (fun ht => hp ht.cons)]
    obtain ⟨-, rfl⟩ := translate_eq_ok.mp happroved
    apply write_pageBytes_of_untouched
    intro k hk hpk
    exact hp ⟨ptr, len, data, List.mem_cons_self, k, hk, hpk⟩
  | markDirty hmark _ ih =>
    rw [ih (fun ht => hp ht.cons), pageBytes_congr (markDirty_eq_ok hmark).2.1]
  | grow _ ih =>
    rw [ih (fun ht => hp ht.cons), pageBytes_congr (grow_bytes _ _)]

theorem outside_eq (h : Performs m ops m') {a : ℕ} (ha : m'.sizeBytes.toNat ≤ a) :
    m'.bytes a = m.bytes a := by
  induction h with
  | nil => rfl
  | write happroved hrest ih =>
    rw [ih ha]
    obtain ⟨hend, rfl⟩ := translate_eq_ok.mp happroved
    have hsize := hrest.size_le
    simp only [MmapGuardedMemory.write] at hsize ⊢
    rw [dif_neg (by omega)]
  | markDirty hmark _ ih => rw [ih ha, (markDirty_eq_ok hmark).2.1]
  | grow _ ih => rw [ih ha, grow_bytes]

end Performs

theorem GuestWrites.effect {m m' : MmapGuardedMemory} (h : GuestWrites m m') :
    GuestEffect m m' := by
  obtain ⟨ops, hops, hmarks⟩ := h
  refine ⟨hops.quota_eq, hops.size_le, fun p hp => (hops.isDirty_iff p).mpr (.inr hp), ?_,
    fun a ha => hops.outside_eq ha⟩
  intro p hp
  by_contra hclean
  apply hp
  apply hops.pageBytes_of_untouched
  rintro ⟨ptr, len, data, hmem, k, hk, rfl⟩
  exact hclean ((hops.isDirty_iff _).mpr (.inl (hmarks ptr len data hmem k hk)))

theorem Performs.append {m m₁ m₂ : MmapGuardedMemory} {ops ops' : List MemOp}
    (h : Performs m ops m₁) (h' : Performs m₁ ops' m₂) : Performs m (ops ++ ops') m₂ := by
  induction h with
  | nil => exact h'
  | write happroved _ ih => exact .write happroved (ih h')
  | markDirty hmark _ ih => exact .markDirty hmark (ih h')
  | grow _ ih => exact .grow (ih h')

theorem GuestWrites.refl (m : MmapGuardedMemory) : GuestWrites m m :=
  ⟨[], .nil m, by simp [MarksWrites]⟩

theorem MarksWrites.append {ops ops' : List MemOp} (h : MarksWrites ops) (h' : MarksWrites ops') :
    MarksWrites (ops ++ ops') := by
  intro ptr len data hmem k hk
  rcases List.mem_append.mp hmem with hmem | hmem
  · exact List.mem_append_left _ (h ptr len data hmem k hk)
  · exact List.mem_append_right _ (h' ptr len data hmem k hk)

theorem GuestWrites.trans {m m₁ m₂ : MmapGuardedMemory} (h : GuestWrites m m₁)
    (h' : GuestWrites m₁ m₂) : GuestWrites m m₂ := by
  obtain ⟨ops, hops, hmarks⟩ := h
  obtain ⟨ops', hops', hmarks'⟩ := h'
  exact ⟨ops ++ ops', hops.append hops', hmarks.append hmarks'⟩

/-- The pages a store touches. -/
def storePages (ptr len : UInt32) : List ℕ :=
  (List.range len.toNat).map fun k => (ptr.toNat + k) / pageSize

def markPages (m : MmapGuardedMemory) : List ℕ → Checked MmapGuardedMemory
  | [] => .ok m
  | p :: pages => m.markDirty p >>= fun m => m.markPages pages

/-- The store path: the address is approved, the bytes are written, and then every page
written is marked. -/
def store (m : MmapGuardedMemory) (ptr len : UInt32) (data : Bytes len.toNat) :
    Checked (Except MemFault Unit × MmapGuardedMemory) :=
  match m.translate ptr len with
  | .error fault => .ok (.error fault, m)
  | .ok addr => do
    let m ← (m.write addr data).markPages (storePages ptr len)
    return (.ok (), m)

theorem performs_markPages {m m' : MmapGuardedMemory} {pages : List ℕ}
    (h : m.markPages pages = .ok m') : Performs m (pages.map MemOp.markDirty) m' := by
  induction pages generalizing m with
  | nil =>
    cases h
    exact .nil _
  | cons p pages ih =>
    obtain ⟨m₁, hmark, h⟩ := bind_returned.mp h
    exact .markDirty hmark (ih h)

/-- What a store amounts to: the write and the marks if the range is approved. -/
def storeOps (ptr len : UInt32) (data : Bytes len.toNat) : Except MemFault Unit → List MemOp
  | .error _ => []
  | .ok () => .write ptr len data :: (storePages ptr len).map MemOp.markDirty

theorem performs_store {m m' : MmapGuardedMemory} {ptr len : UInt32}
    {data : Bytes len.toNat} {result : Except MemFault Unit}
    (h : m.store ptr len data = .ok (result, m')) :
    Performs m (storeOps ptr len data result) m' := by
  unfold MmapGuardedMemory.store at h
  split at h
  · cases h
    exact .nil m
  · next addr happroved =>
    obtain ⟨m₁, hmarks, h⟩ := bind_returned.mp h
    cases h
    exact .write happroved (performs_markPages hmarks)

theorem marksWrites_storeOps (ptr len : UInt32) (data : Bytes len.toNat)
    (result : Except MemFault Unit) : MarksWrites (storeOps ptr len data result) := by
  cases result with
  | error fault => simp [storeOps, MarksWrites]
  | ok u =>
    intro ptr' len' data' hmem k hk
    rcases List.mem_cons.mp hmem with heq | hmem
    · cases heq
      unfold storeOps storePages
      simp only [List.map_map, List.mem_cons, List.mem_map, List.mem_range]
      exact .inr ⟨k, hk, rfl⟩
    · simp at hmem

theorem GuestWrites.store {m m' : MmapGuardedMemory} {ptr len : UInt32}
    {data : Bytes len.toNat} {result : Except MemFault Unit}
    (h : m.store ptr len data = .ok (result, m')) : GuestWrites m m' :=
  ⟨_, performs_store h, marksWrites_storeOps ptr len data result⟩

theorem GuestWrites.markDirty {m m' : MmapGuardedMemory} {p : ℕ}
    (h : m.markDirty p = .ok m') : GuestWrites m m' :=
  ⟨[.markDirty p], .markDirty h (.nil m'), by simp [MarksWrites]⟩

theorem GuestWrites.grow (m : MmapGuardedMemory) (deltaPages : UInt32) :
    GuestWrites m (m.grow deltaPages).2 :=
  ⟨[.grow deltaPages], .grow (.nil _), by simp [MarksWrites]⟩

end MmapGuardedMemory
end ChronosUvm
