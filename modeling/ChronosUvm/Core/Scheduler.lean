import Mathlib.Tactic
import ChronosUvm.Core.EventLog
import ChronosUvm.Io.FdTable
import ChronosUvm.Mem.CheckpointChain

/-! The logical clock, the cells, and strict round-robin dispatch over them. -/
namespace ChronosUvm
open Panicking Tables

structure LogicalClock where
  tick : Tick

namespace LogicalClock

def new : LogicalClock := ⟨0⟩

def advance (c : LogicalClock) : Checked (Tick × LogicalClock) := do
  let tick ← addU64 c.tick 1
  return (tick, ⟨tick⟩)

def snapshot (c : LogicalClock) : Tick := c.tick

end LogicalClock

structure CellConfig where
  id : CellId
  initialMemoryBytes : UInt32
  quotaBytes : UInt32
  checkpointIntervalTicks : UInt64
  deriving DecidableEq, Repr

structure Cell where
  config : CellConfig
  memory : MmapGuardedMemory
  recorder : EventRecorder
  checkpoints : CheckpointChain
  fdTable : FdTable
  pendingIo : PendingCompletions
  lastCheckpointTick : Tick

namespace Cell

def new (config : CellConfig) (recorderMode : RecorderMode) : Except MemFault Cell := do
  let memory ← MmapGuardedMemory.new config.initialMemoryBytes config.quotaBytes
  return { config := config
           memory := memory
           recorder := EventRecorder.new recorderMode
           checkpoints := CheckpointChain.new
           fdTable := FdTable.new
           pendingIo := PendingCompletions.new
           lastCheckpointTick := 0 }

/-- Natural subtraction saturates, as `saturating_sub` does. -/
def checkpointDue (c : Cell) (currentTick : Tick) : Bool :=
  decide (c.config.checkpointIntervalTicks.toNat ≤ currentTick.toNat - c.lastCheckpointTick.toNat)

theorem new_eq_ok {config : CellConfig} {mode : RecorderMode} {c : Cell}
    (h : new config mode = .ok c) :
    ∃ m, MmapGuardedMemory.new config.initialMemoryBytes config.quotaBytes = .ok m ∧
      c = ⟨config, m, EventRecorder.new mode, CheckpointChain.new, FdTable.new,
        PendingCompletions.new, 0⟩ := by
  unfold new at h
  obtain ⟨m, hm, h⟩ := bind_returned.mp h
  cases h
  exact ⟨m, hm, rfl⟩

end Cell

structure DispatchOutcome where
  cellId : CellId
  tick : Tick
  checkpointDue : Bool

structure Scheduler where
  order : List CellId
  clock : LogicalClock

namespace Scheduler

def new (cellIds : List CellId) : Scheduler := ⟨cellIds, LogicalClock.new⟩

def registerCell (s : Scheduler) (cellId : CellId) : Scheduler :=
  { s with order := s.order ++ [cellId] }

def deregisterCell (s : Scheduler) (cellId : CellId) : Scheduler :=
  { s with order := s.order.filter fun id => id != cellId }

def currentTick (s : Scheduler) : Tick := s.clock.snapshot

def nextDispatch (s : Scheduler) (cells : HashMap CellId Cell) :
    Checked (Option DispatchOutcome × Scheduler) :=
  match s.order with
  | [] => .ok (none, s)
  | cellId :: rest => do
    let order := rest ++ [cellId]
    let (tick, clock) ← s.clock.advance
    let checkpointDue := ((cells.get? cellId).map fun c => c.checkpointDue tick).getD false
    return (some ⟨cellId, tick, checkpointDue⟩, ⟨order, clock⟩)

/-- Either nobody is registered, or the front cell is dispatched at the next tick. -/
theorem nextDispatch_cases {s s' : Scheduler} {cells : HashMap CellId Cell}
    {o : Option DispatchOutcome} (h : s.nextDispatch cells = .ok (o, s')) :
    (s.order = [] ∧ o = none ∧ s' = s) ∨
    ∃ id rest tick, s.order = id :: rest ∧ tick.toNat = s.clock.tick.toNat + 1 ∧
      o = some ⟨id, tick, ((cells.get? id).map fun c => c.checkpointDue tick).getD false⟩ ∧
      s' = ⟨rest ++ [id], ⟨tick⟩⟩ := by
  unfold nextDispatch at h
  split at h
  next horder =>
    cases h
    exact .inl ⟨horder, rfl, rfl⟩
  next id rest horder =>
    obtain ⟨⟨tick, clock⟩, hclock, h⟩ := bind_returned.mp h
    obtain ⟨t, ht, hclock⟩ := bind_returned.mp hclock
    cases hclock
    cases h
    exact .inr ⟨id, rest, tick, horder, addU64_eq_ok.mp ht, rfl, rfl⟩

end Scheduler
end ChronosUvm
