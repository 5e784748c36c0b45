import Mathlib.Tactic
import ChronosUvm.Core.GuestProgram
import ChronosUvm.Core.Transit

/-!
Incremental checkpoints against full rehashes. A checkpoint rehashes the dirty pages
only; the invariant that makes its root the root of the complete tree is that every
page outside the dirty set has a current leaf, stored or default.
-/
namespace ChronosUvm
open Panicking Tables Transitions MmapGuardedMemory

/-- A page of the committed memory; beyond the committed size every page is zero. -/
def MmapGuardedMemory.committedPage (m : MmapGuardedMemory) (i : ℕ) : Page :=
  if i * pageSize < m.sizeBytes.toNat then m.pageBytes i else zeroPage

namespace Cell

/-- Every page outside the dirty set has a current leaf. -/
structure LeavesCurrent (blake3 : Blake3) (c : Cell) : Prop where
  current : ∀ i, c.memory.dirty.isDirty i = false →
    c.checkpoints.tree.leafHash blake3 i = blake3 (c.memory.pageBytes i).toList
  leaf_lt : ∀ i ∈ c.checkpoints.tree.leaves, i < 2 ^ treeDepth
  zero_beyond : ∀ a, c.memory.sizeBytes.toNat ≤ a → c.memory.bytes a = 0

variable {blake3 : Blake3} {c ran : Cell}

theorem leavesCurrent_new {config : CellConfig} {memory : MmapGuardedMemory}
    {recorder : EventRecorder}
    (h : MmapGuardedMemory.new config.initialMemoryBytes config.quotaBytes = .ok memory) :
    LeavesCurrent blake3 ⟨config, memory, recorder, CheckpointChain.new, FdTable.new,
      PendingCompletions.new, 0⟩ := by
  refine ⟨?_, fun i hi => absurd hi Finmap.notMem_empty, ?_⟩
  · intro i _
    rw [MmapGuardedMemory.new_pageBytes h]
    rfl
  · intro a _
    rw [(MmapGuardedMemory.new_eq_ok h).1]

namespace LeavesCurrent

/-- A page beyond the committed size has never been written. -/
theorem committedPage_eq (h : LeavesCurrent blake3 c) (i : ℕ) :
    c.memory.committedPage i = c.memory.pageBytes i := by
  unfold MmapGuardedMemory.committedPage
  split_ifs with hi
  · rfl
  · funext j
    simp only [pageBytes, zeroPage]
    rw [h.zero_beyond]
    omega

/-- A quantum keeps the leaves of the pages that are clean after it current. -/
theorem quantum (h : LeavesCurrent blake3 c) (heffect : GuestEffect c.memory ran.memory)
    (hchain : ran.checkpoints = c.checkpoints) : LeavesCurrent blake3 ran := by
  refine ⟨?_, ?_, ?_⟩
  · intro i hclean
    obtain ⟨hbefore, hsame⟩ := heffect.of_clean hclean
    rw [hchain, hsame]
    exact h.current i hbefore
  · rw [hchain]
    exact h.leaf_lt
  · intro a ha
    rw [heffect.outside_eq a ha]
    exact h.zero_beyond a (heffect.size_le.trans ha)

/-- After a checkpoint every leaf is current, the clean ones by the invariant. -/
theorem leafHash_checkpointed (h : LeavesCurrent blake3 c) (visit : VisitOrder) (tick : Tick)
    (digest : Hash) (i : ℕ) :
    (c.checkpointed blake3 visit tick digest).checkpoints.tree.leafHash blake3 i =
      blake3 (c.memory.pageBytes i).toList := by
  unfold SparseMerkleTree.leafHash
  rw [get?_checkpointed]
  split_ifs with hdirty
  · rfl
  · exact h.current i (by simpa using hdirty)

theorem checkpointed (h : LeavesCurrent blake3 c) (visit : VisitOrder) (tick : Tick)
    (digest : Hash) : LeavesCurrent blake3 (c.checkpointed blake3 visit tick digest) :=
  ⟨fun i _ => h.leafHash_checkpointed visit tick digest i,
    leaf_lt_checkpointed blake3 visit h.leaf_lt tick digest, h.zero_beyond⟩

theorem cleared (h : LeavesCurrent blake3 c) (visit : VisitOrder) (tick : Tick)
    (digest : Hash) :
    LeavesCurrent blake3 (c.checkpointed blake3 visit tick digest).clearDirtyPages :=
  ⟨fun i _ => h.leafHash_checkpointed visit tick digest i,
    leaf_lt_checkpointed blake3 visit h.leaf_lt tick digest, h.zero_beyond⟩

/-- A checkpoint appends one entry, whose root is the root of the full tree. -/
theorem entries_checkpointed (h : LeavesCurrent blake3 c) (visit : VisitOrder) (tick : Tick)
    (digest : Hash) :
    ∃ entry, (c.checkpointed blake3 visit tick digest).checkpoints.entries =
        c.checkpoints.entries ++ [entry] ∧ entry.tick = tick ∧
      entry.smtRoot = SparseMerkleTree.fullRoot blake3 fun i =>
        (c.memory.committedPage i).toList := by
  refine ⟨_, rfl, rfl, ?_⟩
  show (c.checkpointed blake3 visit tick digest).checkpoints.tree.root blake3 visit = _
  rw [SparseMerkleTree.root_eq_node blake3 visit
      (leaf_lt_checkpointed blake3 visit h.leaf_lt tick digest),
    funext (h.leafHash_checkpointed visit tick digest), SparseMerkleTree.fullRoot]
  simp only [h.committedPage_eq]

end LeavesCurrent
end Cell

namespace World
variable {E : Type} {blake3 : Blake3} {executor : QuantumExecutor E} {w w' : World E}
  {a : Action}

/-- The entry is the checkpoint of a quantum of the cell, with the root of the full tree. -/
def FullyRehashed (blake3 : Blake3) (quanta : List Quantum) (id : CellId)
    (entry : CheckpointEntry) : Prop :=
  ∃ q ∈ quanta, q.cell = id ∧ q.tick = entry.tick ∧
    entry.smtRoot = SparseMerkleTree.fullRoot blake3 fun i => (q.memory.committedPage i).toList

/-- The invariant of all cells and of all entries of their chains. -/
def Rehashed (blake3 : Blake3) (w : World E) : Prop :=
  ∀ id c, w.supervisor.cells.get? id = some c → c.LeavesCurrent blake3 ∧
    ∀ entry ∈ c.checkpoints.entries, FullyRehashed blake3 w.quanta id entry

theorem Rehashed.cycled (hwrites : executor.MarksWrites) (hchain : executor.KeepsChain)
    (h : Rehashed blake3 w) {visit : VisitOrder}
    {reported : Except SupervisorError (Option (CellId × Tick))} {s' : Supervisor} {e' : E}
    {flushes : List Flush}
    (d : Supervisor.Dispatch blake3 executor visit w.supervisor s' w.executor e' reported) :
    Rehashed blake3 (⟨s', e', w.standby, w.inflight,
      w.quanta ++ [⟨d.id, d.tick, d.ran.memory⟩], w.flushes ++ flushes, w.applied⟩ : World E) := by
  have hkept {id : CellId} {entry : CheckpointEntry}
      (hold : FullyRehashed blake3 w.quanta id entry) :
      FullyRehashed blake3 (w.quanta ++ [⟨d.id, d.tick, d.ran.memory⟩]) id entry := by
    obtain ⟨q, hq, hrest⟩ := hold
    exact ⟨q, List.mem_append_left _ hq, hrest⟩
  obtain ⟨hbefore, hentries⟩ := h d.id d.before d.before_eq
  have hentries' := hchain _ _ _ _ _ _ d.ran_eq
  have hran : d.ran.LeavesCurrent blake3 :=
    Cell.LeavesCurrent.quantum (c := d.before.delivered)
      ⟨hbefore.current, hbefore.leaf_lt, hbefore.zero_beyond⟩
      (hwrites _ _ _ _ _ _ d.ran_eq).effect hentries'
  have hold (entry : CheckpointEntry) (hentry : entry ∈ d.ran.checkpoints.entries) :
      FullyRehashed blake3 (w.quanta ++ [⟨d.id, d.tick, d.ran.memory⟩]) d.id entry := by
    rw [hentries'] at hentry
    exact hkept (hentries entry hentry)
  obtain ⟨new, hnew, htick, hroot⟩ := hran.entries_checkpointed visit d.tick
    (executor.registerDigest e' d.ran)
  have hall (entry : CheckpointEntry) (hentry : entry ∈
      (d.ran.checkpointed blake3 visit d.tick
        (executor.registerDigest e' d.ran)).checkpoints.entries) :
      FullyRehashed blake3 (w.quanta ++ [⟨d.id, d.tick, d.ran.memory⟩]) d.id entry := by
    rw [hnew] at hentry
    rcases List.mem_append.mp hentry with hentry | hentry
    · exact hold entry hentry
    · obtain rfl := List.mem_singleton.mp hentry
      exact ⟨_, List.mem_append_right _ (List.mem_singleton.mpr rfl), rfl, htick.symm, hroot⟩
  intro id c hget
  rw [d.cells_eq, HashMap.get?_insert] at hget
  split_ifs at hget with hid
  · cases hget
    subst hid
    rcases d.ended.stored_cases with ⟨-, hstored⟩ | ⟨-, -, hstored | hstored⟩
    · rw [hstored]
      exact ⟨hran, hold⟩
    · rw [hstored]
      exact ⟨hran.checkpointed visit d.tick _, hall⟩
    · rw [hstored]
      exact ⟨hran.cleared visit d.tick _, hall⟩
  · obtain ⟨hcurrent, hother⟩ := h id c hget
    exact ⟨hcurrent, fun entry hentry => hkept (hother entry hentry)⟩

theorem Rehashed.step (hwrites : executor.MarksWrites) (hchain : executor.KeepsChain)
    (h : Rehashed blake3 w) (hstep : World.step blake3 executor w a = .ok w') :
    Rehashed blake3 w' := by
  cases step_cases hstep with
  | idle => exact h
  | spawned haction hmemory hfresh =>
    intro id c hget
    rw [HashMap.get?_insert] at hget
    split_ifs at hget with hid
    · cases hget
      exact ⟨Cell.leavesCurrent_new hmemory, fun entry hentry => by cases hentry⟩
    · exact h id c hget
  | enabled => exact h
  | cycled d hflushed => exact h.cycled hwrites hchain d
  | popped => exact h
  | accepted => exact h
  | refused => exact h

/-- Incremental checkpointing equals a full rehash: in every reachable world each entry of
each cell's chain belongs to a quantum of the cell, and its root is the root of the complete
tree over the cell's pages as that quantum left them. -/
theorem incremental_root_eq_fullRoot (blake3 : Blake3) (executor : QuantumExecutor E)
    (hwrites : executor.MarksWrites) (hchain : executor.KeepsChain) (max : UInt64) (e : E)
    (standbyPages : ℕ) (actions : List Action) (w : World E)
    (hrun : run (World.step blake3 executor) (new max e standbyPages) actions = .ok w)
    (id : CellId) (c : Cell) (hcell : w.supervisor.cell id = some c)
    (entry : CheckpointEntry) (hentry : entry ∈ c.checkpoints.entries) :
    (∃ q ∈ w.quanta, q.cell = id ∧ q.tick = entry.tick) ∧
    ∀ q ∈ w.quanta, q.tick = entry.tick → q.cell = id ∧ entry.smtRoot =
      SparseMerkleTree.fullRoot blake3 fun i => (q.memory.committedPage i).toList := by
  have hc := (chronicle_new max e standbyPages).of_run hrun
  have h : Rehashed blake3 w := run_invariant (fun _ _ _ _ hw hs => hw.step hwrites hchain hs)
    (fun _ _ h => by cases h) hrun
  obtain ⟨q, hq, hid, htick, hroot⟩ := (h id c hcell).2 entry hentry
  refine ⟨⟨q, hq, hid, htick⟩, ?_⟩
  intro q' hq' htick'
  obtain rfl := hc.quantum_unique hq' hq (htick'.trans htick.symm)
  exact ⟨hid, hroot⟩

/-- Two checkpoints, the second of which meets a full ring. -/
theorem incremental_root_eq_fullRoot_backpressure :
    ∃ w c entry q,
      run Guest.scriptedStep (Guest.scriptedWorld [.poke 5 7, .poke 4097 8])
        [.spawn ⟨1, 8192, 8192, 1⟩ .record, .enableReplication 1, .ascendingCycle,
          .ascendingCycle] = .ok w ∧
      w.supervisor.cell 1 = some c ∧ c.checkpoints.entries.getLast? = some entry ∧
      q ∈ w.quanta ∧ q.tick = entry.tick ∧ entry.smtRoot =
        SparseMerkleTree.fullRoot (fun _ _ => 0) fun i => (q.memory.committedPage i).toList := by
  have hreturns : returnsWith
      (run Guest.scriptedStep (Guest.scriptedWorld [.poke 5 7, .poke 4097 8])
        [.spawn ⟨1, 8192, 8192, 1⟩ .record, .enableReplication 1, .ascendingCycle,
          .ascendingCycle])
      (fun w => match w.supervisor.cell 1 with
        | some c => c.checkpoints.entries.getLast?.isSome
        | none => false) = true := by
    decide +kernel
  obtain ⟨w, hrun, htest⟩ := returnsWith_eq_true.mp hreturns
  split at htest
  · next c hcell =>
    obtain ⟨entry, hlast⟩ := Option.isSome_iff_exists.mp htest
    obtain ⟨⟨q, hq, -, htick⟩, hroot⟩ := incremental_root_eq_fullRoot _ _
      (Guest.executor_marksWrites _ _) (Guest.executor_keepsChain _ _) _ _ _ _ w hrun 1 c hcell
      entry (List.mem_of_getLast? hlast)
    exact ⟨w, c, entry, q, hrun, hcell, hlast, hq, htick, (hroot q hq htick).2⟩
  · cases htest

end World
end ChronosUvm
