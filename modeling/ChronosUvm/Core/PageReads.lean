import Mathlib.Tactic
import ChronosUvm.Core.CheckpointCadence
import ChronosUvm.Mem.SandboxBounds

/-!
What checkpoints and flushes read. Both read every page of the dirty set in full,
through `page_bytes`, which documents that the page must be committed. It is, in every
run, if the cells start with whole pages and guests mark only pages they store to.
-/
namespace ChronosUvm
open Panicking Tables Transitions MmapGuardedMemory

namespace MmapGuardedMemory

/-- The guest wrote only inside approved ranges and marked exactly the pages it wrote. -/
def MarksExactly (m m' : MmapGuardedMemory) : Prop :=
  ∃ ops, Performs m ops m' ∧ ∀ p, MemOp.markDirty p ∈ ops ↔ Touches ops p

theorem touches_append {ops ops' : List MemOp} {p : ℕ} :
    Touches (ops ++ ops') p ↔ Touches ops p ∨ Touches ops' p := by
  constructor
  · rintro ⟨ptr, len, data, hmem, hk⟩
    rcases List.mem_append.mp hmem with hmem | hmem
    · exact .inl ⟨ptr, len, data, hmem, hk⟩
    · exact .inr ⟨ptr, len, data, hmem, hk⟩
  · rintro (⟨ptr, len, data, hmem, hk⟩ | ⟨ptr, len, data, hmem, hk⟩)
    · exact ⟨ptr, len, data, List.mem_append_left _ hmem, hk⟩
    · exact ⟨ptr, len, data, List.mem_append_right _ hmem, hk⟩

namespace MarksExactly
variable {m m₁ m₂ : MmapGuardedMemory}

theorem refl (m : MmapGuardedMemory) : MarksExactly m m :=
  ⟨[], .nil m, fun p => ⟨fun h => (by cases h), fun ⟨_, _, _, h, _⟩ => (by cases h)⟩⟩

theorem trans (h : MarksExactly m m₁) (h' : MarksExactly m₁ m₂) : MarksExactly m m₂ := by
  obtain ⟨ops, hops, hmarks⟩ := h
  obtain ⟨ops', hops', hmarks'⟩ := h'
  refine ⟨ops ++ ops', hops.append hops', fun p => ?_⟩
  rw [List.mem_append, hmarks, hmarks', touches_append]

theorem grow (m : MmapGuardedMemory) (deltaPages : UInt32) :
    MarksExactly m (m.grow deltaPages).2 := by
  refine ⟨[.grow deltaPages], .grow (.nil _), fun p => ?_⟩
  simp [Touches]

theorem store {ptr len : UInt32} {data : Bytes len.toNat} {result : Except MemFault Unit}
    (h : m.store ptr len data = .ok (result, m₁)) : MarksExactly m m₁ := by
  refine ⟨_, performs_store h, fun p => ?_⟩
  cases result with
  | error fault => simp [storeOps, Touches]
  | ok u =>
    constructor
    · intro hmark
      unfold storeOps storePages at hmark
      simp only [List.map_map, List.mem_cons, reduceCtorEq, List.mem_map, List.mem_range,
        Function.comp_apply, MemOp.markDirty.injEq, false_or] at hmark
      obtain ⟨k, hk, hpage⟩ := hmark
      exact ⟨ptr, len, data, List.mem_cons_self, k, hk, hpage⟩
    · rintro ⟨ptr', len', data', hmem, k, hk, rfl⟩
      exact marksWrites_storeOps ptr len data (.ok ()) ptr' len' data' hmem k hk

end MarksExactly

/-- Whole pages are committed, the dirty ones among them. -/
structure PagesCommitted (m : MmapGuardedMemory) : Prop where
  aligned : m.sizeBytes.toNat % pageSize = 0
  readable : ∀ p, m.dirty.isDirty p = true → m.Readable p

theorem Readable.mono {m m' : MmapGuardedMemory} {p : ℕ} (h : m.Readable p)
    (hsize : m.sizeBytes.toNat ≤ m'.sizeBytes.toNat) : m'.Readable p :=
  readable_iff.mpr ((readable_iff.mp h).trans hsize)

theorem grow_aligned {m : MmapGuardedMemory} (h : m.sizeBytes.toNat % pageSize = 0)
    (deltaPages : UInt32) : (m.grow deltaPages).2.sizeBytes.toNat % pageSize = 0 := by
  rcases m.grow_cases deltaPages with ⟨-, hsize⟩ | ⟨-, -, hsame⟩
  · rw [hsize, Nat.add_mul_mod_self_left, h]
  · rw [hsame, h]

/-- A byte below a committed size of whole pages lies in a committed page. -/
theorem readable_of_lt {m : MmapGuardedMemory} (h : m.sizeBytes.toNat % pageSize = 0) {a : ℕ}
    (ha : a < m.sizeBytes.toNat) : m.Readable (a / pageSize) := by
  unfold Readable
  unfold pageSize at *
  omega

namespace Performs
variable {m m' : MmapGuardedMemory} {ops : List MemOp}

theorem aligned (h : Performs m ops m') (haligned : m.sizeBytes.toNat % pageSize = 0) :
    m'.sizeBytes.toNat % pageSize = 0 := by
  induction h with
  | nil => exact haligned
  | write _ _ ih => exact ih haligned
  | markDirty hmark _ ih => exact ih (by rwa [(markDirty_eq_ok hmark).2.2.1])
  | grow _ ih => exact ih (grow_aligned haligned _)

/-- A touched page was committed when it was touched, and stays so. -/
theorem readable_of_touches (h : Performs m ops m')
    (haligned : m.sizeBytes.toNat % pageSize = 0) {p : ℕ} (hp : Touches ops p) :
    m'.Readable p := by
  induction h with
  | nil =>
    obtain ⟨_, _, _, hmem, _⟩ := hp
    cases hmem
  | @write m m' ptr len data addr ops happroved hrest ih =>
    obtain ⟨ptr', len', data', hmem, k, hk, hpage⟩ := hp
    rcases List.mem_cons.mp hmem with heq | hmem
    · cases heq
      obtain ⟨hend, rfl⟩ := translate_eq_ok.mp happroved
      have hlt : ptr.toNat + k < m.sizeBytes.toNat := by omega
      rw [← hpage]
      exact (readable_of_lt haligned hlt).mono hrest.size_le
    · exact ih haligned ⟨ptr', len', data', hmem, k, hk, hpage⟩
  | markDirty hmark _ ih =>
    refine ih (by rwa [(markDirty_eq_ok hmark).2.2.1]) ?_
    obtain ⟨ptr', len', data', hmem, hk⟩ := hp
    exact ⟨ptr', len', data', (List.mem_cons.mp hmem).resolve_left (by simp), hk⟩
  | grow _ ih =>
    refine ih (grow_aligned haligned _) ?_
    obtain ⟨ptr', len', data', hmem, hk⟩ := hp
    exact ⟨ptr', len', data', (List.mem_cons.mp hmem).resolve_left (by simp), hk⟩

end Performs

theorem PagesCommitted.quantum {m m' : MmapGuardedMemory} (h : PagesCommitted m)
    (hmarks : MarksExactly m m') : PagesCommitted m' := by
  obtain ⟨ops, hops, hexactly⟩ := hmarks
  refine ⟨hops.aligned h.aligned, ?_⟩
  intro p hdirty
  rcases (hops.isDirty_iff p).mp hdirty with hmarked | hbefore
  · exact hops.readable_of_touches h.aligned ((hexactly p).mp hmarked)
  · exact (h.readable p hbefore).mono hops.size_le

theorem pagesCommitted_new {initialBytes quotaBytes : UInt32} {m : MmapGuardedMemory}
    (h : new initialBytes quotaBytes = .ok m) (haligned : initialBytes.toNat % pageSize = 0) :
    PagesCommitted m := by
  obtain ⟨-, hsize, -, hclean⟩ := new_eq_ok h
  refine ⟨by rwa [hsize], ?_⟩
  intro p hdirty
  rw [hclean p] at hdirty
  cases hdirty

theorem PagesCommitted.cleared {m : MmapGuardedMemory} (h : PagesCommitted m) :
    PagesCommitted m.clearDirtyPages := by
  refine ⟨h.aligned, ?_⟩
  intro p hdirty
  simp [clearDirtyPages] at hdirty

end MmapGuardedMemory

/-- The executor writes only inside approved ranges and marks exactly the pages it writes. -/
def QuantumExecutor.MarksExactly {E : Type} (executor : QuantumExecutor E) : Prop :=
  ∀ e cell n result ran e', executor.runQuantum e cell n = .ok (result, ran, e') →
    cell.memory.MarksExactly ran.memory

/-- The program leaves the marking to its stores. -/
def GuestProgram.StoresOnly {S : Type} : GuestProgram S → Prop
  | .finish _ _ => True
  | .store _ _ _ next => ∀ result, (next result).StoresOnly
  | .markDirty _ _ => False
  | .grow _ next => ∀ result, (next result).StoresOnly
  | .hostCall _ next => ∀ result, (next result).StoresOnly

theorem GuestProgram.StoresOnly.marksExactly {S Ω : Type} {host : HostSource Ω}
    {program : GuestProgram S} (hprogram : program.StoresOnly) {c ran : Cell} {ω : Ω}
    {calls : List HostEvent} {result : Except QuantumFault UInt64} {e : GuestState S Ω}
    (h : program.run host c ω calls = .ok (result, ran, e)) :
    c.memory.MarksExactly ran.memory := by
  induction program generalizing c ω calls with
  | finish r s =>
    cases h
    exact .refl _
  | store ptr len data next ih =>
    obtain ⟨⟨r, memory⟩, hstore, h⟩ := bind_returned.mp h
    exact (MarksExactly.store hstore).trans (ih r (hprogram r) h)
  | markDirty p next ih => exact hprogram.elim
  | grow d next ih => exact (MarksExactly.grow c.memory d).trans (ih _ (hprogram _) h)
  | hostCall call next ih =>
    obtain ⟨⟨r, recorder, ω₁⟩, -, h⟩ := bind_returned.mp h
    exact ih r (hprogram r) (c := { c with recorder := recorder }) h

theorem Guest.executor_marksExactly {S Ω : Type} {g : Guest S} (host : HostSource Ω)
    (h : ∀ s view n, (g.program s view n).StoresOnly) : (g.executor host).MarksExactly :=
  fun _ _ _ _ _ _ hran => (h _ _ _).marksExactly hran

namespace World
variable {E : Type} {blake3 : Blake3} {executor : QuantumExecutor E} {w w' : World E}
  {a : Action}

/-- Every memory of a cell, and every memory that a quantum left. -/
structure ReadsCommitted (w : World E) : Prop where
  cells : ∀ id c, w.supervisor.cells.get? id = some c → c.memory.PagesCommitted
  quanta : ∀ q ∈ w.quanta, q.memory.PagesCommitted

theorem readsCommitted_new (max : UInt64) (e : E) (standbyPages : ℕ) :
    ReadsCommitted (new max e standbyPages) :=
  ⟨fun _ _ h => (by cases h), fun _ h => (by cases h)⟩

theorem ReadsCommitted.step (h : ReadsCommitted w)
    (hquantum : ∀ id c, w.supervisor.cells.get? id = some c → ∀ result ran e',
      executor.runQuantum w.executor c.delivered w.supervisor.maxInstructionsPerQuantum =
        .ok (result, ran, e') → ran.memory.PagesCommitted)
    (haligned : ∀ config, a.config? = some config →
      config.initialMemoryBytes.toNat % pageSize = 0)
    (hstep : World.step blake3 executor w a = .ok w') : ReadsCommitted w' := by
  cases step_cases hstep with
  | idle => exact h
  | @spawned _ config memory recorder haction hmemory hfresh =>
    refine ⟨?_, h.quanta⟩
    intro id c hget
    rw [HashMap.get?_insert] at hget
    split_ifs at hget with hid
    · cases hget
      refine pagesCommitted_new hmemory (haligned config ?_)
      rcases haction with ⟨mode, rfl, -⟩ | ⟨entries, rfl, -⟩ <;> rfl
    · exact h.cells id c hget
  | enabled => exact ⟨h.cells, h.quanta⟩
  | cycled d =>
    have hran := hquantum d.id d.before d.before_eq _ _ _ d.ran_eq
    constructor
    · intro id c hget
      rw [d.cells_eq, HashMap.get?_insert] at hget
      split_ifs at hget with hid
      · cases hget
        rcases d.ended.stored_cases with ⟨-, hstored⟩ | ⟨-, -, hstored | hstored⟩
        · rwa [hstored]
        · rw [hstored]
          exact hran
        · rw [hstored]
          exact hran.cleared
      · exact h.cells id c hget
    · intro q hq
      rcases List.mem_append.mp hq with hq | hq
      · exact h.quanta q hq
      · obtain rfl := List.mem_singleton.mp hq
        exact hran
  | popped => exact ⟨h.cells, h.quanta⟩
  | accepted => exact ⟨h.cells, h.quanta⟩
  | refused => exact ⟨h.cells, h.quanta⟩

/-- Checkpoints and flushes read committed pages only. If every cell is spawned with whole
pages and guests mark exactly the pages they store to, then in every reachable world all dirty
pages of all cells, and all those of the memories that quanta left, meet the precondition of
`page_bytes`, with the whole window before the guard page, and so do the pages of all batches. -/
theorem dirty_pages_readable (blake3 : Blake3) (executor : QuantumExecutor E)
    (hexecutor : executor.MarksExactly) (max : UInt64) (e : E) (standbyPages : ℕ)
    (actions : List Action) (w : World E)
    (haligned : ∀ a ∈ actions, ∀ config, a.config? = some config →
      config.initialMemoryBytes.toNat % pageSize = 0)
    (hrun : run (World.step blake3 executor) (new max e standbyPages) actions = .ok w) :
    (∀ id c, w.supervisor.cell id = some c → ∀ p ∈ c.memory.dirty.iterDirty,
      c.memory.Readable p ∧ p * pageSize + pageSize ≤ c.memory.guardOffset) ∧
    (∀ q ∈ w.quanta, ∀ p ∈ q.memory.dirty.iterDirty,
      q.memory.Readable p ∧ p * pageSize + pageSize ≤ q.memory.guardOffset) ∧
    ∀ f ∈ w.flushes, ∀ delta ∈ f.batch.deltas, f.memory.Readable delta.idx ∧
      delta.idx * pageSize + pageSize ≤ f.memory.guardOffset := by
  have hc := (chronicle_new max e standbyPages).of_run hrun
  have hstep (a : Action) (ha : a ∈ actions) (u v : World E) (hu : ReadsCommitted u)
      (hs : World.step blake3 executor u a = .ok v) : ReadsCommitted v := by
    refine hu.step ?_ (haligned a ha) hs
    intro id c hget result ran e' hran
    have hbefore : c.delivered.memory.PagesCommitted := hu.cells id c hget
    exact hbefore.quantum (hexecutor _ _ _ _ _ _ hran)
  have h : ReadsCommitted w := run_invariant hstep (readsCommitted_new max e standbyPages) hrun
  have hreads {m : MmapGuardedMemory} (hm : m.PagesCommitted) (p : ℕ)
      (hp : p ∈ m.dirty.iterDirty) :
      m.Readable p ∧ p * pageSize + pageSize ≤ m.guardOffset := by
    have hreadable := hm.readable p ((DirtyPageSet.mem_iterDirty _ p).mp hp)
    exact ⟨hreadable, ((readable_iff.mp hreadable).trans m.size_le_quota).trans
      m.quota_le_guardOffset⟩
  refine ⟨fun id c hcell => hreads (h.cells id c hcell), fun q hq => hreads (h.quanta q hq), ?_⟩
  intro f hf delta hdelta
  rw [hc.flushes_raw f hf] at hdelta
  obtain ⟨p, hp, rfl⟩ := List.mem_map.mp hdelta
  rw [PageDelta.idx_raw_ofNat (lt_of_mem_iterDirty hp)]
  exact hreads (h.quanta _ (hc.flushes_mem f hf)) p hp

/-- A store to the second page of a cell of two pages. -/
theorem dirty_pages_readable_second_page :
    ∃ w c, run Guest.scriptedStep (Guest.scriptedWorld [.poke 4097 7])
        [.spawn ⟨1, 8192, 8192, 5⟩ .record, .ascendingCycle] = .ok w ∧
      w.supervisor.cell 1 = some c ∧ 1 ∈ c.memory.dirty.iterDirty ∧ c.memory.Readable 1 := by
  have hreturns : returnsWith
      (run Guest.scriptedStep (Guest.scriptedWorld [.poke 4097 7])
        [.spawn ⟨1, 8192, 8192, 5⟩ .record, .ascendingCycle])
      (fun w => (w.supervisor.cell 1).any fun c => decide (1 ∈ c.memory.dirty.iterDirty)) =
      true := by
    decide +kernel
  obtain ⟨w, hrun, htest⟩ := returnsWith_eq_true.mp hreturns
  obtain ⟨c, hcell, hdirty⟩ := (Option.any_eq_true _ _).mp htest
  have hscripted (s : List Guest.Instruction) (view : GuestView) (n : UInt64) :
      (Guest.scripted.program s view n).StoresOnly := by
    unfold Guest.scripted
    cases s with
    | nil => trivial
    | cons i s =>
      cases i with
      | rest => trivial
      | poke ptr byte => exact fun _ => trivial
      | stamp tick ptr =>
        intro result
        simp only
        split
        · exact fun _ => trivial
        · trivial
  have hall := dirty_pages_readable _ _ (Guest.executor_marksExactly _ hscripted) _ _ _ _ w
    (by simp [Action.config?, pageSize]) hrun
  have hmem := of_decide_eq_true hdirty
  exact ⟨w, c, hrun, hcell, hmem, (hall.1 1 c hcell 1 hmem).1⟩

end World
end ChronosUvm
