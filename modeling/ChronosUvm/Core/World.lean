import Mathlib.Tactic
import ChronosUvm.Core.Supervisor
import ChronosUvm.Foundations.Transitions
import ChronosUvm.Mem.GuestWrites
import ChronosUvm.Replicate.Standby

/-!
The whole system: a primary's supervisor, the consumer of its ring, and the standby.
The cycle touches the ring only when it pushes, so a pop between any two of its
instructions is a pop before or after the cycle, and runs are sequences of atomic
actions. The last three fields record what happened and are read by no action.
-/
namespace ChronosUvm
open Panicking Tables

/-- A cell's memory as one of its quanta left it. -/
structure Quantum where
  cell : CellId
  tick : Tick
  memory : MmapGuardedMemory

/-- A batch that entered the ring, with the cell and the memory it was taken of. -/
structure Flush where
  cell : CellId
  memory : MmapGuardedMemory
  batch : TickBatch

def TickBatch.pages (b : TickBatch) : List ℕ := b.deltas.map PageDelta.idx

structure World (E : Type) where
  supervisor : Supervisor
  executor : E
  standby : StandbyApplyLoop
  /-- Popped and not yet handed to the standby. -/
  inflight : List TickBatch
  quanta : List Quantum
  flushes : List Flush
  applied : List TickBatch

inductive Action where
  | spawn (config : CellConfig) (mode : RecorderMode)
  | spawnReplay (config : CellConfig) (entries : List (Tick × UInt64 × ReplayEntry))
  | enableReplication (ringCapacity : ℕ)
  | cycle (visit : VisitOrder)
  | pop
  | apply

/-- The part of a run that a replay repeats: the spawns and the cycles. -/
def Action.visible : Action → Option (Option CellConfig)
  | .spawn config _ | .spawnReplay config _ => some (some config)
  | .cycle _ => some none
  | .enableReplication _ | .pop | .apply => none

/-- Spawn a cell and replace its recorder by one that replays the entries. -/
def Supervisor.spawnReplayCell (s : Supervisor) (config : CellConfig)
    (entries : List (Tick × UInt64 × ReplayEntry)) : Supervisor :=
  match s.spawnCell config .replay with
  | (.error _, s) => s
  | (.ok (), s) =>
    match s.cells.get? config.id with
    | none => s
    | some cell => { s with
        cells := s.cells.insert config.id
          { cell with recorder := EventRecorder.fromReplayLog entries } }

/-- The cycles and the consumer at work, once everything is set up. -/
def Action.Running : Action → Prop
  | .cycle _ | .pop | .apply => True
  | .spawn _ _ | .spawnReplay _ _ | .enableReplication _ => False

/-- The executor writes only inside approved ranges and marks every page it writes. -/
def QuantumExecutor.MarksWrites {E : Type} (executor : QuantumExecutor E) : Prop :=
  ∀ e cell n result ran e', executor.runQuantum e cell n = .ok (result, ran, e') →
    cell.memory.GuestWrites ran.memory

/-- The executor leaves the cell's checkpoint chain alone. -/
def QuantumExecutor.KeepsChain {E : Type} (executor : QuantumExecutor E) : Prop :=
  ∀ e cell n result ran e', executor.runQuantum e cell n = .ok (result, ran, e') →
    ran.checkpoints = cell.checkpoints

namespace Supervisor

/-- What a spawn does, given the recorder that the cell starts with. -/
def spawnWith (s : Supervisor) (config : CellConfig) (recorder : EventRecorder) : Supervisor :=
  if config.id ∈ s.cells then s
  else
    match MmapGuardedMemory.new config.initialMemoryBytes config.quotaBytes with
    | .error _ => s
    | .ok memory => { s with
        cells := s.cells.insert config.id ⟨config, memory, recorder, CheckpointChain.new,
          FdTable.new, PendingCompletions.new, 0⟩
        scheduler := s.scheduler.registerCell config.id }

theorem spawnCell_eq_spawnWith (s : Supervisor) (config : CellConfig) (mode : RecorderMode) :
    (s.spawnCell config mode).2 = s.spawnWith config (EventRecorder.new mode) := by
  by_cases hmem : config.id ∈ s.cells
  · simp only [spawnCell, spawnWith, if_pos hmem]
  · unfold spawnCell
    simp only [spawnWith, Cell.new, if_neg hmem]
    cases MmapGuardedMemory.new config.initialMemoryBytes config.quotaBytes with
    | error fault => rfl
    | ok memory => rfl

theorem spawnReplayCell_eq_spawnWith (s : Supervisor) (config : CellConfig)
    (entries : List (Tick × UInt64 × ReplayEntry)) :
    s.spawnReplayCell config entries =
      s.spawnWith config (EventRecorder.fromReplayLog entries) := by
  by_cases hmem : config.id ∈ s.cells
  · unfold spawnReplayCell
    simp only [spawnCell, spawnWith, if_pos hmem]
  · unfold spawnReplayCell
    simp only [spawnCell, spawnWith, Cell.new, if_neg hmem]
    cases MmapGuardedMemory.new config.initialMemoryBytes config.quotaBytes with
    | error fault => rfl
    | ok memory => simp only [ok_bind, pure_ok, HashMap.get?_insert_self, Finmap.insert_insert]

theorem spawnWith_cases (s : Supervisor) (config : CellConfig) (recorder : EventRecorder) :
    s.spawnWith config recorder = s ∨
    ∃ memory, MmapGuardedMemory.new config.initialMemoryBytes config.quotaBytes = .ok memory ∧
      config.id ∉ s.cells ∧ s.spawnWith config recorder = { s with
        cells := s.cells.insert config.id ⟨config, memory, recorder, CheckpointChain.new,
          FdTable.new, PendingCompletions.new, 0⟩
        scheduler := s.scheduler.registerCell config.id } := by
  unfold spawnWith
  split_ifs with hmem
  · exact .inl rfl
  · cases MmapGuardedMemory.new config.initialMemoryBytes config.quotaBytes with
    | error fault => exact .inl rfl
    | ok memory => exact .inr ⟨memory, rfl, hmem, rfl⟩

end Supervisor

namespace World
variable {E : Type}

/-- The standby is what its `new` returns, for a capacity that its vectors can have. -/
def new (maxInstructionsPerQuantum : UInt64) (e : E) (standbyPages : ℕ) : World E :=
  ⟨Supervisor.new maxInstructionsPerQuantum, e, .fresh standbyPages, [], [], [], []⟩

/-- What a cycle from `s` to `s'` adds to the records. -/
def observeQuantum (executor : QuantumExecutor E) (s s' : Supervisor) (e : E) : List Quantum :=
  match s.quantumOf executor e with
  | none => []
  | some (id, ran) => [⟨id, s'.scheduler.currentTick, ran.memory⟩]

def observeFlush (executor : QuantumExecutor E) (s s' : Supervisor) (e : E) : List Flush :=
  match s.quantumOf executor e with
  | none => []
  | some (id, ran) => (s'.queued.drop s.queued.length).map fun batch => ⟨id, ran.memory, batch⟩

def step (blake3 : Blake3) (executor : QuantumExecutor E) (w : World E) : Action → Checked (World E)
  | .spawn config mode => .ok { w with supervisor := (w.supervisor.spawnCell config mode).2 }
  | .spawnReplay config entries =>
    .ok { w with supervisor := w.supervisor.spawnReplayCell config entries }
  | .enableReplication ringCapacity => do
    let s ← w.supervisor.enableReplication ringCapacity
    return { w with supervisor := s }
  | .cycle visit => do
    let (_, s, e) ← w.supervisor.runOneCycle blake3 executor visit w.executor
    return { w with
      supervisor := s
      executor := e
      quanta := w.quanta ++ observeQuantum executor w.supervisor s w.executor
      flushes := w.flushes ++ observeFlush executor w.supervisor s w.executor }
  | .pop =>
    match w.supervisor.replication with
    | none => .ok w
    | some ring =>
      match ring.pop with
      | (none, _) => .ok w
      | (some batch, ring) => .ok { w with
          supervisor := { w.supervisor with replication := some ring }
          inflight := w.inflight ++ [batch] }
  | .apply =>
    match w.inflight with
    | [] => .ok w
    | batch :: rest => do
      let (result, standby) ← w.standby.applyBatch batch
      return { w with
        standby := standby
        inflight := rest
        applied := match result with
          | .ok () => w.applied ++ [batch]
          | .error _ => w.applied }

/-- What a dispatched cycle puts into the ring. Without a push the queue stays as it was, and the
dirty pages stay marked unless there is no ring at all. -/
inductive Flushed {blake3 : Blake3} {executor : QuantumExecutor E} {visit : VisitOrder}
    {s s' : Supervisor} {e e' : E} {reported : Except SupervisorError (Option (CellId × Tick))}
    (d : Supervisor.Dispatch blake3 executor visit s s' e e' reported) : List Flush → Prop where
  | nothing (hqueued : s'.queued = s.queued)
      (hmemory : d.stored.memory = d.ran.memory ∨
        s.replication = none ∧ d.stored.memory = d.ran.memory.clearDirtyPages) : Flushed d []
  | pushed (hqueued : s'.queued = s.queued ++ [d.ran.flushBatch d.tick])
      (hmemory : d.stored.memory = d.ran.memory.clearDirtyPages) :
      Flushed d [⟨d.id, d.ran.memory, d.ran.flushBatch d.tick⟩]

/-- Everything an action can do. -/
inductive Stepped (blake3 : Blake3) (executor : QuantumExecutor E) (w : World E) :
    Action → World E → Prop where
  | idle (a : Action) : Stepped blake3 executor w a w
  | spawned {a : Action} {config : CellConfig} {memory : MmapGuardedMemory}
      {recorder : EventRecorder}
      (haction : (∃ mode, a = .spawn config mode ∧ recorder = .new mode) ∨
        ∃ entries, a = .spawnReplay config entries ∧ recorder = .fromReplayLog entries)
      (hmemory : MmapGuardedMemory.new config.initialMemoryBytes config.quotaBytes = .ok memory)
      (hfresh : config.id ∉ w.supervisor.cells) :
      Stepped blake3 executor w a { w with supervisor := { w.supervisor with
        cells := w.supervisor.cells.insert config.id ⟨config, memory, recorder,
          CheckpointChain.new, FdTable.new, PendingCompletions.new, 0⟩
        scheduler := w.supervisor.scheduler.registerCell config.id } }
  | enabled {ringCapacity : ℕ} {ring : DeltaRing} (hempty : ring.queue.items = []) :
      Stepped blake3 executor w (.enableReplication ringCapacity)
        { w with supervisor := { w.supervisor with replication := some ring } }
  | cycled {visit : VisitOrder} {reported : Except SupervisorError (Option (CellId × Tick))}
      {s' : Supervisor} {e' : E} {flushes : List Flush}
      (d : Supervisor.Dispatch blake3 executor visit w.supervisor s' w.executor e' reported)
      (hflushed : Flushed d flushes) :
      Stepped blake3 executor w (.cycle visit) ⟨s', e', w.standby, w.inflight,
        w.quanta ++ [⟨d.id, d.tick, d.ran.memory⟩], w.flushes ++ flushes, w.applied⟩
  | popped {ring ring' : DeltaRing} {batch : TickBatch}
      (hring : w.supervisor.replication = some ring)
      (hitems : ring.queue.items = batch :: ring'.queue.items) :
      Stepped blake3 executor w .pop { w with
        supervisor := { w.supervisor with replication := some ring' }
        inflight := w.inflight ++ [batch] }
  | accepted {batch : TickBatch} {rest : List TickBatch} {standby : StandbyApplyLoop}
      (hinflight : w.inflight = batch :: rest)
      (happly : w.standby.applyBatch batch = .ok (.ok (), standby)) :
      Stepped blake3 executor w .apply { w with
        standby := standby
        inflight := rest
        applied := w.applied ++ [batch] }
  | refused {batch : TickBatch} {rest : List TickBatch} {error : ApplyError}
      (hinflight : w.inflight = batch :: rest)
      (happly : w.standby.applyBatch batch = .ok (.error error, w.standby)) :
      Stepped blake3 executor w .apply { w with inflight := rest }

section Observed
variable {blake3 : Blake3} {executor : QuantumExecutor E} {visit : VisitOrder}
  {s s' : Supervisor} {e e' : E} {reported : Except SupervisorError (Option (CellId × Tick))}

theorem observeQuantum_eq (d : Supervisor.Dispatch blake3 executor visit s s' e e' reported) :
    observeQuantum executor s s' e = [⟨d.id, d.tick, d.ran.memory⟩] := by
  unfold observeQuantum
  simp only [d.quantumOf_eq, d.scheduler_eq, Scheduler.currentTick, LogicalClock.snapshot]

theorem observeFlush_eq (d : Supervisor.Dispatch blake3 executor visit s s' e e' reported) :
    observeFlush executor s s' e =
      (s'.queued.drop s.queued.length).map fun batch => ⟨d.id, d.ran.memory, batch⟩ := by
  unfold observeFlush
  simp only [d.quantumOf_eq]

end Observed

theorem flushed_of_dispatch {blake3 : Blake3} {executor : QuantumExecutor E} {visit : VisitOrder}
    {s s' : Supervisor} {e e' : E} {reported : Except SupervisorError (Option (CellId × Tick))}
    (d : Supervisor.Dispatch blake3 executor visit s s' e e' reported) :
    Flushed d (observeFlush executor s s' e) := by
  rw [observeFlush_eq d]
  rcases d.ended.flush_cases with ⟨hqueued, hmemory⟩ | ⟨hqueued, hmemory⟩
  · have hnew : s'.queued = s.queued := hqueued
    rw [hnew, List.drop_length, List.map_nil]
    exact .nothing hnew hmemory
  · have hnew : s'.queued = s.queued ++ [d.ran.flushBatch d.tick] := hqueued
    rw [hnew, List.drop_left, List.map_singleton]
    exact .pushed hnew hmemory

/-- Either way of spawning, refused or not. -/
theorem stepped_spawnWith {blake3 : Blake3} {executor : QuantumExecutor E} {w : World E}
    {a : Action} {config : CellConfig} {recorder : EventRecorder}
    (haction : (∃ mode, a = .spawn config mode ∧ recorder = .new mode) ∨
      ∃ entries, a = .spawnReplay config entries ∧ recorder = .fromReplayLog entries) :
    Stepped blake3 executor w a
      { w with supervisor := w.supervisor.spawnWith config recorder } := by
  rcases w.supervisor.spawnWith_cases config recorder with h | ⟨memory, hmemory, hfresh, h⟩
  · rw [h]
    exact .idle _
  · rw [h]
    exact .spawned haction hmemory hfresh

theorem step_cases {blake3 : Blake3} {executor : QuantumExecutor E} {w w' : World E}
    {a : Action} (h : step blake3 executor w a = .ok w') : Stepped blake3 executor w a w' := by
  cases a with
  | spawn config mode =>
    cases h
    rw [Supervisor.spawnCell_eq_spawnWith]
    exact stepped_spawnWith (.inl ⟨mode, rfl, rfl⟩)
  | spawnReplay config entries =>
    cases h
    rw [Supervisor.spawnReplayCell_eq_spawnWith]
    exact stepped_spawnWith (.inr ⟨entries, rfl, rfl⟩)
  | enableReplication cap =>
    unfold step at h
    obtain ⟨s, hs, h⟩ := bind_returned.mp h
    obtain ⟨ring, hring, hs⟩ := bind_returned.mp hs
    cases hs
    cases h
    exact .enabled (DeltaRing.new_eq_ok hring)
  | cycle visit =>
    unfold step at h
    obtain ⟨⟨reported, s, e⟩, hcycle, h⟩ := bind_returned.mp h
    cases h
    rcases Supervisor.runOneCycle_cases hcycle with ⟨horder, -, rfl, rfl⟩ | ⟨⟨d⟩⟩
    · have hnone := Supervisor.quantumOf_idle executor w.executor horder
      unfold observeQuantum
      simp only [observeFlush, hnone, List.append_nil]
      exact .idle _
    · simp only [observeQuantum_eq d]
      exact .cycled d (flushed_of_dispatch d)
  | pop =>
    unfold step at h
    cases hring : w.supervisor.replication with
    | none =>
      simp only [hring, Except.ok.injEq] at h
      subst h
      exact .idle _
    | some ring =>
      cases hitems : ring.queue.items with
      | nil =>
        simp only [hring, DeltaRing.pop, BoundedQueue.ArrayQueue.pop, hitems, List.head?_nil,
          Except.ok.injEq] at h
        subst h
        exact .idle _
      | cons b rest =>
        simp only [hring, DeltaRing.pop, BoundedQueue.ArrayQueue.pop, hitems, List.head?_cons,
          Except.ok.injEq] at h
        subst h
        exact .popped hring (by simp only [hitems, List.tail_cons])
  | apply =>
    unfold step at h
    cases hinflight : w.inflight with
    | nil =>
      simp only [hinflight, Except.ok.injEq] at h
      subst h
      exact .idle _
    | cons b rest =>
      simp only [hinflight] at h
      obtain ⟨⟨result, standby⟩, happly, h⟩ := bind_returned.mp h
      cases h
      cases result with
      | ok u => exact .accepted hinflight happly
      | error error =>
        obtain rfl := StandbyApplyLoop.applyBatch_refused happly
        exact .refused hinflight happly

/-- The cell that a cycle stores has the recorder of the quantum. -/
theorem recorder_stored {blake3 : Blake3} {executor : QuantumExecutor E} {visit : VisitOrder}
    {s s' : Supervisor} {e e' : E} {reported : Except SupervisorError (Option (CellId × Tick))}
    (d : Supervisor.Dispatch blake3 executor visit s s' e e' reported) :
    d.stored.recorder = d.ran.recorder ∧ d.stored.config = d.ran.config := by
  rcases d.ended.stored_cases with ⟨-, hstored⟩ | ⟨-, -, hstored | hstored⟩ <;>
    rw [hstored] <;> exact ⟨rfl, rfl⟩

/-- Everything besides spawns and cycles leaves the cells, the schedule and the guests. -/
theorem invisible_step {blake3 : Blake3} {executor : QuantumExecutor E} {w w' : World E}
    {a : Action} (ha : a.visible = none) (hstep : step blake3 executor w a = .ok w') :
    (∃ ring, w'.supervisor = { w.supervisor with replication := ring }) ∧
      w'.executor = w.executor ∧ w'.quanta = w.quanta := by
  cases step_cases hstep with
  | idle => exact ⟨⟨_, rfl⟩, rfl, rfl⟩
  | spawned haction =>
    rcases haction with ⟨mode, rfl, -⟩ | ⟨entries, rfl, -⟩ <;> cases ha
  | enabled => exact ⟨⟨_, rfl⟩, rfl, rfl⟩
  | cycled => cases ha
  | popped => exact ⟨⟨_, rfl⟩, rfl, rfl⟩
  | accepted => exact ⟨⟨_, rfl⟩, rfl, rfl⟩
  | refused => exact ⟨⟨_, rfl⟩, rfl, rfl⟩

/-- Every id in the dispatch order has a cell. -/
def Registered (w : World E) : Prop :=
  ∀ id ∈ w.supervisor.scheduler.order, id ∈ w.supervisor.cells

theorem registered_new (max : UInt64) (e : E) (pages : ℕ) : Registered (new max e pages) := by
  intro id h
  cases h

theorem Registered.step {blake3 : Blake3} {executor : QuantumExecutor E} {w w' : World E}
    {a : Action} (h : Registered w) (hstep : step blake3 executor w a = .ok w') :
    Registered w' := by
  cases step_cases hstep with
  | idle => exact h
  | spawned =>
    intro id hid
    rcases List.mem_append.mp hid with hid | hid
    · exact Finmap.mem_insert.mpr (.inr (h id hid))
    · exact Finmap.mem_insert.mpr (.inl (List.mem_singleton.mp hid))
  | enabled => exact h
  | cycled d =>
    intro id hid
    rw [d.cells_eq]
    rw [d.scheduler_eq] at hid
    have hold : id ∈ w.supervisor.scheduler.order := by
      rw [d.order_eq]
      simpa [or_comm] using hid
    exact Finmap.mem_insert.mpr (.inr (h id hold))
  | popped => exact h
  | accepted => exact h
  | refused => exact h

end World
end ChronosUvm
