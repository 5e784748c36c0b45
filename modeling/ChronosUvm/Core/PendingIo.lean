import Mathlib.Tactic
import ChronosUvm.Core.GuestProgram
import ChronosUvm.Foundations.Refinement

/-!
What becomes of completions that wait for a cell. A cycle takes them out of the queue
before the quantum and hands them to nobody, so it makes no difference to anything else in
the system what the quanta leave in the queues.
-/
namespace ChronosUvm
open Panicking Tables Transitions Refinement

/-- The executor whose quanta leave nothing pending. -/
def QuantumExecutor.settling {E : Type} (executor : QuantumExecutor E) : QuantumExecutor E where
  runQuantum e cell n := (executor.runQuantum e cell n).map fun x => (x.1, x.2.1.delivered, x.2.2)
  registerDigest := executor.registerDigest

/-- The digest covers registers and execution context, no completions that wait. -/
def QuantumExecutor.DigestsContext {E : Type} (executor : QuantumExecutor E) : Prop :=
  ∀ e cell, executor.registerDigest e cell.delivered = executor.registerDigest e cell

/-- The executor whose quanta each leave one more completion to wait. -/
def QuantumExecutor.pushing {E : Type} (executor : QuantumExecutor E) (completion : IoCompletion) :
    QuantumExecutor E where
  runQuantum e cell n := (executor.runQuantum e cell n).map fun x =>
    (x.1, { x.2.1 with pendingIo := x.2.1.pendingIo.push completion }, x.2.2)
  registerDigest := executor.registerDigest

namespace Supervisor
variable {E : Type}

/-- The supervisor with nothing pending in any cell. -/
def settled (s : Supervisor) : Supervisor := { s with cells := s.cells.mapValues Cell.delivered }

theorem insert_settled (s : Supervisor) (id : CellId) (c : Cell) :
    s.settled.cells.insert id c.delivered =
      HashMap.mapValues Cell.delivered (s.cells.insert id c) :=
  (HashMap.mapValues_insert Cell.delivered s.cells id c).symm

theorem finishCycle_settled (blake3 : Blake3) (visit : VisitOrder) (s : Supervisor)
    (outcome : DispatchOutcome) (result : Except QuantumFault UInt64) (digest : Hash) (c : Cell) :
    s.settled.finishCycle blake3 visit outcome result digest c.delivered =
      ((s.finishCycle blake3 visit outcome result digest c).1,
        (s.finishCycle blake3 visit outcome result digest c).2.settled) := by
  have hcheckpointed : c.delivered.checkpointed blake3 visit outcome.tick digest =
      (c.checkpointed blake3 visit outcome.tick digest).delivered := rfl
  have hcleared : (c.checkpointed blake3 visit outcome.tick digest).delivered.clearDirtyPages =
      (c.checkpointed blake3 visit outcome.tick digest).clearDirtyPages.delivered := rfl
  have hflush : c.delivered.flushBatch outcome.tick = c.flushBatch outcome.tick := rfl
  have hring : s.settled.replication = s.replication := rfl
  unfold finishCycle
  cases result with
  | error fault =>
    simp only [insert_settled]
    rfl
  | ok n =>
    simp only [hring, hflush, hcheckpointed, hcleared, insert_settled]
    split_ifs with hdue
    · cases s.replication with
      | none => rfl
      | some ring =>
        simp only
        rcases ring.push (c.flushBatch outcome.tick) with ⟨_ | _, ring'⟩ <;> rfl
    · rfl

theorem nextDispatch_settled (s : Supervisor) :
    s.settled.scheduler.nextDispatch s.settled.cells = s.scheduler.nextDispatch s.cells := by
  unfold settled Scheduler.nextDispatch
  cases s.scheduler.order with
  | nil => rfl
  | cons id rest =>
    simp only [HashMap.get?_mapValues, Option.map_map]
    rfl

/-- A cycle of the settled supervisor is the cycle, settled, panics included. -/
theorem runOneCycle_settled (blake3 : Blake3) {executor : QuantumExecutor E}
    (hdigest : executor.DigestsContext) (visit : VisitOrder) (s : Supervisor) (e : E) :
    s.settled.runOneCycle blake3 executor.settling visit e =
      (s.runOneCycle blake3 executor visit e).map fun x => (x.1, x.2.1.settled, x.2.2) := by
  unfold runOneCycle
  rw [nextDispatch_settled]
  cases s.scheduler.nextDispatch s.cells with
  | error p => rfl
  | ok dispatched =>
    obtain ⟨outcome, scheduler⟩ := dispatched
    cases outcome with
    | none => rfl
    | some outcome =>
      have hget : s.settled.cells.get? outcome.cellId =
          (s.cells.get? outcome.cellId).map Cell.delivered := HashMap.get?_mapValues _ _ _
      simp only [ok_bind, hget]
      cases hcell : s.cells.get? outcome.cellId with
      | none => rfl
      | some cell =>
        have hdelivered : cell.delivered.delivered = cell.delivered := rfl
        have hmax : s.settled.maxInstructionsPerQuantum = s.maxInstructionsPerQuantum := rfl
        simp only [Option.map_some, hdelivered, hmax]
        unfold QuantumExecutor.settling
        simp only
        cases executor.runQuantum e cell.delivered s.maxInstructionsPerQuantum with
        | error p => rfl
        | ok x =>
          obtain ⟨result, ran, e'⟩ := x
          let next : Supervisor :=
            ⟨s.cells, scheduler, s.replication, s.maxInstructionsPerQuantum⟩
          have hfinish : finishCycle blake3 visit ⟨s.settled.cells, scheduler,
              s.settled.replication, s.maxInstructionsPerQuantum⟩ outcome result
              (executor.registerDigest e' ran) ran.delivered = _ :=
            next.finishCycle_settled blake3 visit outcome result _ ran
          simp only [Except.map, ok_bind, hdigest e' ran, hfinish, pure_ok]
          rfl

theorem quantumOf_settled (executor : QuantumExecutor E) (s : Supervisor) (e : E) :
    s.settled.quantumOf executor.settling e =
      (s.quantumOf executor e).map fun q => (q.1, q.2.delivered) := by
  have horder : s.settled.scheduler.order = s.scheduler.order := rfl
  have hmax : s.settled.maxInstructionsPerQuantum = s.maxInstructionsPerQuantum := rfl
  unfold quantumOf
  rw [horder]
  cases s.scheduler.order with
  | nil => rfl
  | cons id rest =>
    have hget : s.settled.cells.get? id = (s.cells.get? id).map Cell.delivered :=
      HashMap.get?_mapValues _ _ _
    simp only [hget, hmax]
    cases s.cells.get? id with
    | none => rfl
    | some cell =>
      have hdelivered : cell.delivered.delivered = cell.delivered := rfl
      unfold QuantumExecutor.settling
      simp only [Option.map_some, hdelivered]
      cases executor.runQuantum e cell.delivered s.maxInstructionsPerQuantum <;> rfl

theorem spawnWith_settled (s : Supervisor) (config : CellConfig) (recorder : EventRecorder) :
    s.settled.spawnWith config recorder = (s.spawnWith config recorder).settled := by
  have hmem : config.id ∈ s.settled.cells ↔ config.id ∈ s.cells := HashMap.mem_mapValues _ _ _
  unfold spawnWith
  simp only [hmem]
  split_ifs
  · rfl
  · cases MmapGuardedMemory.new config.initialMemoryBytes config.quotaBytes with
    | error fault => rfl
    | ok memory =>
      have hinsert := s.insert_settled config.id ⟨config, memory, recorder, CheckpointChain.new,
        FdTable.new, PendingCompletions.new, 0⟩
      have hfresh : Cell.delivered ⟨config, memory, recorder, CheckpointChain.new, FdTable.new,
          PendingCompletions.new, 0⟩ = ⟨config, memory, recorder, CheckpointChain.new,
          FdTable.new, PendingCompletions.new, 0⟩ := rfl
      rw [hfresh] at hinsert
      simp only [hinsert]
      rfl

end Supervisor

namespace World
variable {E : Type}

/-- The world with nothing pending in any cell. -/
def settled (w : World E) : World E := { w with supervisor := w.supervisor.settled }

/-- Each action of the settled world is the action, settled, panics included. -/
theorem step_settled (blake3 : Blake3) {executor : QuantumExecutor E}
    (hdigest : executor.DigestsContext) (w : World E) (a : Action) :
    World.step blake3 executor.settling w.settled a =
      (World.step blake3 executor w a).map settled := by
  cases a with
  | spawn config mode =>
    have hspawn := Supervisor.spawnWith_settled w.supervisor config (.new mode)
    unfold World.step
    simp only [Supervisor.spawnCell_eq_spawnWith]
    unfold settled
    simp only [hspawn, Except.map]
  | spawnReplay config entries =>
    have hspawn := Supervisor.spawnWith_settled w.supervisor config (.fromReplayLog entries)
    unfold World.step
    simp only [Supervisor.spawnReplayCell_eq_spawnWith]
    unfold settled
    simp only [hspawn, Except.map]
  | enableReplication cap =>
    unfold World.step Supervisor.enableReplication
    dsimp only
    cases DeltaRing.new cap <;> rfl
  | cycle visit =>
    have hcycle := Supervisor.runOneCycle_settled blake3 hdigest visit w.supervisor w.executor
    have hquantum := Supervisor.quantumOf_settled executor w.supervisor w.executor
    unfold World.step settled observeQuantum observeFlush
    simp only [hcycle, hquantum]
    cases w.supervisor.runOneCycle blake3 executor visit w.executor with
    | error p => rfl
    | ok x =>
      cases w.supervisor.quantumOf executor w.executor <;> rfl
  | pop =>
    have hring : w.supervisor.settled.replication = w.supervisor.replication := rfl
    unfold World.step settled
    simp only [hring]
    cases w.supervisor.replication with
    | none => rfl
    | some ring =>
      simp only
      rcases ring.pop with ⟨_ | batch, ring'⟩ <;> rfl
  | apply =>
    unfold World.step settled
    simp only
    cases hinflight : w.inflight with
    | nil => simp [Except.map, hinflight]
    | cons batch rest =>
      simp only
      cases w.standby.applyBatch batch <;> rfl

/-- Completions that wait for a cell never reach it. Whatever the quanta leave in the queues of
pending completions, the run is the run in which they leave nothing, down to the panic it may
end in: the same memories, recorders, chains, batches and standby, the queues apart. -/
theorem pending_io_never_delivered (blake3 : Blake3) (executor : QuantumExecutor E)
    (hdigest : executor.DigestsContext) (max : UInt64) (e : E) (standbyPages : ℕ)
    (actions : List Action) :
    run (World.step blake3 executor.settling) (new max e standbyPages) actions =
      (run (World.step blake3 executor) (new max e standbyPages) actions).map settled := by
  have hstart : (new max e standbyPages).settled = new max e standbyPages := rfl
  have hrun := run_map (step_settled blake3 hdigest) (new max e standbyPages) actions
  rwa [hstart] at hrun

/-- Two quanta each leave a completion; the first is gone when the second begins. -/
theorem pending_io_never_delivered_twice :
    ∃ w c, run (World.step (fun _ _ => 0) ((Guest.scripted.executor (HostSource.frozen 7)).pushing
        ⟨1, 3, 0, 1⟩)) (Guest.scriptedWorld [.poke 5 7, .poke 5 9])
        [.spawn ⟨1, 4096, 4096, 1⟩ .record, .ascendingCycle, .ascendingCycle] = .ok w ∧
      w.supervisor.cell 1 = some c ∧ c.pendingIo.queue = [⟨1, 3, 0, 1⟩] ∧
      run (World.step (fun _ _ => 0) ((Guest.scripted.executor (HostSource.frozen 7)).pushing
        ⟨1, 3, 0, 1⟩).settling) (Guest.scriptedWorld [.poke 5 7, .poke 5 9])
        [.spawn ⟨1, 4096, 4096, 1⟩ .record, .ascendingCycle, .ascendingCycle] =
          .ok w.settled := by
  have hreturns : returnsWith
      (run (World.step (fun _ _ => 0) ((Guest.scripted.executor (HostSource.frozen 7)).pushing
        ⟨1, 3, 0, 1⟩)) (Guest.scriptedWorld [.poke 5 7, .poke 5 9])
        [.spawn ⟨1, 4096, 4096, 1⟩ .record, .ascendingCycle, .ascendingCycle])
      (fun w => (w.supervisor.cell 1).any fun c =>
        decide (c.pendingIo.queue = [⟨1, 3, 0, 1⟩])) = true := by
    decide +kernel
  obtain ⟨w, hrun, htest⟩ := returnsWith_eq_true.mp hreturns
  obtain ⟨c, hcell, hqueue⟩ := (Option.any_eq_true _ _).mp htest
  refine ⟨w, c, hrun, hcell, of_decide_eq_true hqueue, ?_⟩
  have hsettled := pending_io_never_delivered (fun _ _ => 0)
    ((Guest.scripted.executor (HostSource.frozen 7)).pushing ⟨1, 3, 0, 1⟩) (fun _ _ => rfl) 100
    ⟨[.poke 5 7, .poke 5 9], (), []⟩ 1
    [.spawn ⟨1, 4096, 4096, 1⟩ .record, .ascendingCycle, .ascendingCycle]
  rw [hsettled, hrun]
  rfl

end World
end ChronosUvm
