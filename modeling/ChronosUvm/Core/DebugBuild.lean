import Mathlib.Tactic
import ChronosUvm.Core.PageReads

/-!
The debug build. Marking a page asserts that it is tracked, and reading one for a
checkpoint or a flush that it is committed; nothing else differs. Guests that mark only
committed pages meet both assertions, and then the builds do the same in every cycle.
-/
namespace ChronosUvm
open Panicking Tables Transitions MmapGuardedMemory

namespace MmapGuardedMemory

def markPagesAsserted (m : MmapGuardedMemory) : List ℕ → Checked MmapGuardedMemory
  | [] => .ok m
  | p :: pages => m.markDirtyAsserted p >>= fun m => m.markPagesAsserted pages

def storeAsserted (m : MmapGuardedMemory) (ptr len : UInt32) (data : Bytes len.toNat) :
    Checked (Except MemFault Unit × MmapGuardedMemory) :=
  match m.translate ptr len with
  | .error fault => .ok (.error fault, m)
  | .ok addr => do
    let m ← (m.write addr data).markPagesAsserted (storePages ptr len)
    return (.ok (), m)

theorem markDirtyAsserted_of_lt {m : MmapGuardedMemory} {p : ℕ}
    (h : p < quotaPages m.quotaBytes) : m.markDirtyAsserted p = m.markDirty p := by
  unfold markDirtyAsserted
  rw [if_pos (by rwa [m.capacity_eq])]

theorem markPagesAsserted_of_lt {m : MmapGuardedMemory} {pages : List ℕ}
    (h : ∀ p ∈ pages, p < quotaPages m.quotaBytes) :
    m.markPagesAsserted pages = m.markPages pages := by
  induction pages generalizing m with
  | nil => rfl
  | cons p pages ih =>
    unfold markPagesAsserted markPages
    rw [markDirtyAsserted_of_lt (h p List.mem_cons_self)]
    refine bind_congr_ok fun m₁ hmark => ih fun q hq => ?_
    rw [(markDirty_eq_ok hmark).2.2.2]
    exact h q (List.mem_cons_of_mem p hq)

/-- What is approved is tracked, so a store never fails the assertion. -/
theorem storeAsserted_eq (m : MmapGuardedMemory) (ptr len : UInt32) (data : Bytes len.toNat) :
    m.storeAsserted ptr len data = m.store ptr len data := by
  unfold storeAsserted store
  cases happroved : m.translate ptr len with
  | error fault => rfl
  | ok addr =>
    have hpages : ∀ p ∈ storePages ptr len, p < quotaPages (m.write addr data).quotaBytes :=
      fun p hp => lt_quotaPages happroved hp
    simp only [markPagesAsserted_of_lt hpages]

theorem Readable.lt_quotaPages {m : MmapGuardedMemory} {p : ℕ} (h : m.Readable p) :
    p < quotaPages m.quotaBytes := by
  have hsize := readable_iff.mp h
  have hquota := m.size_le_quota
  unfold quotaPages
  unfold pageSize at hsize ⊢
  omega

theorem pageBytesAsserted_of_readable {m : MmapGuardedMemory} {p : ℕ} (h : m.Readable p) :
    m.pageBytesAsserted p = .ok (m.pageBytes p) := by
  unfold pageBytesAsserted
  rw [if_pos (readable_iff.mp h)]

namespace PagesCommitted
variable {m m' : MmapGuardedMemory}

theorem stored (h : m.PagesCommitted) {ptr len : UInt32} {data : Bytes len.toNat}
    {result : Except MemFault Unit} (hstore : m.store ptr len data = .ok (result, m')) :
    m'.PagesCommitted := h.quantum (.store hstore)

theorem grown (h : m.PagesCommitted) (deltaPages : UInt32) :
    (m.grow deltaPages).2.PagesCommitted := h.quantum (.grow m deltaPages)

theorem marked (h : m.PagesCommitted) {p : ℕ} (hp : m.Readable p)
    (hmark : m.markDirty p = .ok m') : m'.PagesCommitted := by
  obtain ⟨hdirty, -, hsize, -⟩ := markDirty_eq_ok hmark
  refine ⟨by rw [hsize]; exact h.aligned, ?_⟩
  intro q hq
  rw [DirtyPageSet.isDirty_mark hdirty, Bool.or_eq_true, decide_eq_true_eq] at hq
  have hle : m.sizeBytes.toNat ≤ m'.sizeBytes.toNat := by rw [hsize]
  rcases hq with rfl | hq
  · exact hp.mono hle
  · exact (h.readable q hq).mono hle

end PagesCommitted

/-- As many whole pages as were committed before the growth, and those granted. -/
theorem pages_grow (m : MmapGuardedMemory) (deltaPages : UInt32) {previous : UInt32}
    (h : (m.grow deltaPages).1 = .ok previous) :
    (m.grow deltaPages).2.sizeBytes.toNat / pageSize =
      m.sizeBytes.toNat / pageSize + deltaPages.toNat := by
  rcases m.grow_cases deltaPages with ⟨-, hsize⟩ | ⟨-, herror, -⟩
  · rw [hsize, Nat.add_mul_div_left _ _ pageSize_pos]
  · rw [herror] at h
    cases h

end MmapGuardedMemory

/-- The program makes at most `n` host calls, and marks by hand only pages that are committed
in full: the first `pages` and those that it is granted. -/
def GuestProgram.Budgeted {S : Type} (pages : ℕ) : GuestProgram S → ℕ → Prop
  | .finish _ _, _ => True
  | .store _ _ _ next, n => ∀ result, (next result).Budgeted pages n
  | .markDirty p next, n => p < pages ∧ next.Budgeted pages n
  | .grow deltaPages next, n =>
    (∀ previous, (next (.ok previous)).Budgeted (pages + deltaPages.toNat) n) ∧
      ∀ fault, (next (.error fault)).Budgeted pages n
  | .hostCall _ next, n => 0 < n ∧ ∀ result, (next result).Budgeted pages (n - 1)

/-- Every quantum of `max` instructions makes at most so many host calls and marks by hand only
committed pages. -/
def Guest.Budgeted {S : Type} (g : Guest S) (max : UInt64) : Prop :=
  ∀ state view, (g.program state view max).Budgeted (view.sizeBytes.toNat / pageSize) max.toNat

namespace GuestProgram
variable {S Ω : Type}

/-- The quantum of a debug build. -/
def runAsserted (host : HostSource Ω) : GuestProgram S → Cell → Ω → List HostEvent →
    Checked (Except QuantumFault UInt64 × Cell × GuestState S Ω)
  | finish result state, c, ω, calls => .ok (result, c, ⟨state, ω, calls⟩)
  | store ptr len data next, c, ω, calls => do
    let (result, memory) ← c.memory.storeAsserted ptr len data
    (next result).runAsserted host { c with memory := memory } ω calls
  | markDirty pageIdx next, c, ω, calls => do
    let memory ← c.memory.markDirtyAsserted pageIdx
    next.runAsserted host { c with memory := memory } ω calls
  | grow deltaPages next, c, ω, calls =>
    (next (c.memory.grow deltaPages).1).runAsserted host
      { c with memory := (c.memory.grow deltaPages).2 } ω calls
  | hostCall call next, c, ω, calls => do
    let (result, recorder, ω) ← call.perform host c.recorder ω
    (next result).runAsserted host { c with recorder := recorder } ω
      (calls ++ [⟨c.config.id, call, result⟩])

/-- What a growth answers decides how many pages the program may mark. -/
theorem Budgeted.grown {pages n : ℕ} {deltaPages : UInt32}
    {next : Except MemFault UInt32 → GuestProgram S}
    (h : (GuestProgram.grow deltaPages next).Budgeted pages n) {m : MmapGuardedMemory}
    (hpages : pages ≤ m.sizeBytes.toNat / pageSize) :
    ∃ pages', pages' ≤ (m.grow deltaPages).2.sizeBytes.toNat / pageSize ∧
      (next (m.grow deltaPages).1).Budgeted pages' n := by
  cases hanswer : (m.grow deltaPages).1 with
  | ok previous =>
    refine ⟨_, ?_, h.1 previous⟩
    rw [m.pages_grow deltaPages hanswer]
    omega
  | error fault =>
    exact ⟨_, hpages.trans (Nat.div_le_div_right (m.grow_sizeBytes_le deltaPages)), h.2 fault⟩

/-- No assertion fails during the quantum, and every dirty page it leaves is committed. -/
theorem Budgeted.runAsserted_eq {program : GuestProgram S} {c : Cell} {pages n : ℕ}
    (h : program.Budgeted pages n) (hpages : pages ≤ c.memory.sizeBytes.toNat / pageSize)
    (hc : c.memory.PagesCommitted) (host : HostSource Ω) (ω : Ω) (calls : List HostEvent) :
    program.runAsserted host c ω calls = program.run host c ω calls ∧
      ∀ result ran e, program.run host c ω calls = .ok (result, ran, e) →
        ran.memory.PagesCommitted := by
  induction program generalizing c pages n ω calls with
  | finish r s =>
    refine ⟨rfl, ?_⟩
    intro result ran e hrun
    cases hrun
    exact hc
  | store ptr len data next ih =>
    have hnext {r : Except MemFault Unit} {memory : MmapGuardedMemory}
        (hstore : c.memory.store ptr len data = .ok (r, memory)) :=
      ih r (c := { c with memory := memory }) (h r)
        (hpages.trans (Nat.div_le_div_right (performs_store hstore).size_le)) (hc.stored hstore)
        ω calls
    constructor
    · unfold runAsserted run
      rw [storeAsserted_eq]
      exact bind_congr_ok fun r hstore => (hnext hstore).1
    · intro result ran e hrun
      obtain ⟨⟨r, memory⟩, hstore, hrest⟩ := bind_returned.mp hrun
      exact (hnext hstore).2 result ran e hrest
  | markDirty p next ih =>
    have hp : c.memory.Readable p := lt_of_lt_of_le h.1 hpages
    have hnext {memory : MmapGuardedMemory} (hmark : c.memory.markDirty p = .ok memory) :=
      ih (c := { c with memory := memory }) h.2
        (by rw [(markDirty_eq_ok hmark).2.2.1]; exact hpages) (hc.marked hp hmark) ω calls
    constructor
    · unfold runAsserted run
      rw [markDirtyAsserted_of_lt hp.lt_quotaPages]
      exact bind_congr_ok fun memory hmark => (hnext hmark).1
    · intro result ran e hrun
      obtain ⟨memory, hmark, hrest⟩ := bind_returned.mp hrun
      exact (hnext hmark).2 result ran e hrest
  | grow deltaPages next ih =>
    obtain ⟨pages', hpages', hnext⟩ := h.grown hpages
    exact ih _ (c := { c with memory := (c.memory.grow deltaPages).2 }) hnext hpages'
      (hc.grown deltaPages) ω calls
  | hostCall call next ih =>
    have hnext (r : Except ReplayError HostValue) (recorder : EventRecorder) (ω₁ : Ω) :=
      ih r (c := { c with recorder := recorder }) (h.2 r) hpages hc ω₁
        (calls ++ [⟨c.config.id, call, r⟩])
    constructor
    · unfold runAsserted run
      exact bind_congr_ok fun r _ => (hnext r.1 r.2.1 r.2.2).1
    · intro result ran e hrun
      obtain ⟨⟨r, recorder, ω₁⟩, -, hrest⟩ := bind_returned.mp hrun
      exact (hnext r recorder ω₁).2 result ran e hrest

end GuestProgram

/-- The executor of a debug build. -/
def Guest.executorAsserted {S Ω : Type} (g : Guest S) (host : HostSource Ω) :
    QuantumExecutor (GuestState S Ω) where
  runQuantum e cell n := (g.program e.state cell.view n).runAsserted host cell e.host e.calls
  registerDigest e cell := g.registerDigest e.state cell.view

/-- The pages that a checkpoint reads; the flush reads the same ones once more. -/
def Cell.readsAsserted (c : Cell) : Checked (List Page) :=
  c.memory.dirty.iterDirty.mapM c.memory.pageBytesAsserted

theorem Cell.readsAsserted_returns {c : Cell} (h : c.memory.PagesCommitted) :
    ∃ pages, c.readsAsserted = .ok pages := by
  have hread : ∀ p ∈ c.memory.dirty.iterDirty,
      c.memory.pageBytesAsserted p = .ok (c.memory.pageBytes p) := fun p hp =>
    pageBytesAsserted_of_readable (h.readable p ((DirtyPageSet.mem_iterDirty _ p).mp hp))
  unfold readsAsserted
  generalize c.memory.dirty.iterDirty = pages at hread
  induction pages with
  | nil => exact ⟨[], rfl⟩
  | cons p pages ih =>
    obtain ⟨rest, hrest⟩ := ih fun q hq => hread q (List.mem_cons_of_mem p hq)
    refine ⟨c.memory.pageBytes p :: rest, ?_⟩
    rw [List.mapM_cons, hread p List.mem_cons_self, hrest]
    rfl

/-- `run_one_cycle` of a debug build. -/
def Supervisor.runOneCycleAsserted {E : Type} (blake3 : Blake3) (executor : QuantumExecutor E)
    (visit : VisitOrder) (s : Supervisor) (e : E) :
    Checked (Except SupervisorError (Option (CellId × Tick)) × Supervisor × E) := do
  let (outcome, scheduler) ← s.scheduler.nextDispatch s.cells
  let s := { s with scheduler := scheduler }
  match outcome with
  | none => return (.ok none, s, e)
  | some outcome =>
    match s.cells.get? outcome.cellId with
    | none => .error .expect
    | some cell =>
      let (result, cell, e) ← executor.runQuantum e cell.delivered s.maxInstructionsPerQuantum
      let registerDigest := executor.registerDigest e cell
      let _ ← if result.toBool && outcome.checkpointDue then cell.readsAsserted else .ok []
      let (reported, s) := s.finishCycle blake3 visit outcome result registerDigest cell
      return (reported, s, e)

namespace Supervisor
variable {E : Type} {executor executor' : QuantumExecutor E} {s : Supervisor} {e : E}

/-- In the next quantum of any cell the executor of a debug build does what the other does, and
leaves no page dirty that is not committed. -/
structure MeetsAssertions (executor executor' : QuantumExecutor E) (s : Supervisor) (e : E) :
    Prop where
  digest : executor'.registerDigest = executor.registerDigest
  quantum : ∀ id c, s.cells.get? id = some c →
    executor'.runQuantum e c.delivered s.maxInstructionsPerQuantum =
      executor.runQuantum e c.delivered s.maxInstructionsPerQuantum
  reads : ∀ id c, s.cells.get? id = some c → ∀ result ran e',
    executor.runQuantum e c.delivered s.maxInstructionsPerQuantum = .ok (result, ran, e') →
      ran.memory.PagesCommitted

theorem MeetsAssertions.runOneCycle (h : MeetsAssertions executor executor' s e)
    (blake3 : Blake3) (visit : VisitOrder) :
    s.runOneCycleAsserted blake3 executor' visit e = s.runOneCycle blake3 executor visit e := by
  unfold runOneCycleAsserted Supervisor.runOneCycle
  refine bind_congr_ok fun dispatched _ => ?_
  obtain ⟨outcome, scheduler⟩ := dispatched
  cases outcome with
  | none => rfl
  | some outcome =>
    dsimp only
    cases hcell : s.cells.get? outcome.cellId with
    | none => rfl
    | some cell =>
      dsimp only
      rw [h.quantum _ _ hcell, h.digest]
      refine bind_congr_ok fun x hran => ?_
      obtain ⟨result, ran, e'⟩ := x
      dsimp only
      split_ifs with hdue
      · -- The checkpoint finds all dirty pages committed.
        obtain ⟨pages, hpages⟩ :=
          Cell.readsAsserted_returns (h.reads _ _ hcell result ran e' hran)
        rw [hpages, ok_bind]
      · rfl

theorem MeetsAssertions.quantumOf (h : MeetsAssertions executor executor' s e) :
    s.quantumOf executor' e = s.quantumOf executor e :=
  quantumOf_map (f := id) fun id c hget => by
    show executor'.runQuantum e c.delivered _ = _
    rw [h.quantum id c hget]
    cases executor.runQuantum e c.delivered s.maxInstructionsPerQuantum <;> rfl

end Supervisor

namespace World
variable {E : Type} {executor executor' : QuantumExecutor E} {w : World E}

/-- The actions of a debug build. -/
def stepAsserted (blake3 : Blake3) (executor : QuantumExecutor E) (w : World E) :
    Action → Checked (World E)
  | .cycle visit => do
    let (_, s, e) ← w.supervisor.runOneCycleAsserted blake3 executor visit w.executor
    return { w with
      supervisor := s
      executor := e
      quanta := w.quanta ++ observeQuantum executor w.supervisor s w.executor
      flushes := w.flushes ++ observeFlush executor w.supervisor s w.executor }
  | a => step blake3 executor w a

theorem stepAsserted_eq (h : w.supervisor.MeetsAssertions executor executor' w.executor)
    (blake3 : Blake3) (a : Action) :
    stepAsserted blake3 executor' w a = step blake3 executor w a := by
  cases a with
  | cycle visit =>
    unfold stepAsserted step observeQuantum observeFlush
    simp only [h.runOneCycle, h.quantumOf]
  | spawn config mode => rfl
  | spawnReplay config entries => rfl
  | enableReplication capacity => rfl
  | pop => rfl
  | apply => rfl

end World
end ChronosUvm
