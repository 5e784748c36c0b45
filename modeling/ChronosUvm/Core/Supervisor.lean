import Mathlib.Tactic
import ChronosUvm.Core.Scheduler
import ChronosUvm.Replicate.Ring

/-!
The supervisor and its cycle: dispatch, quantum, checkpoint, replication flush.
The executor is whatever the deployment plugs in, so a quantum is an arbitrary
function of the executor's state and the cell, and it may panic.
-/
namespace ChronosUvm
open Panicking Tables

inductive SupervisorError where
  | duplicateCell (id : CellId)
  | memoryInit (id : CellId) (fault : MemFault)
  | replicationBackpressure (id : CellId) (error : RingError)
  deriving DecidableEq, Repr

inductive QuantumFault where
  | trap (message : String)
  | memory (fault : MemFault)
  deriving DecidableEq, Repr

structure QuantumExecutor (E : Type) where
  runQuantum : E → Cell → UInt64 → Checked (Except QuantumFault UInt64 × Cell × E)
  registerDigest : E → Cell → Hash

structure Supervisor where
  cells : HashMap CellId Cell
  scheduler : Scheduler
  replication : Option DeltaRing
  maxInstructionsPerQuantum : UInt64

namespace Cell

/-- The completions queued since the last dispatch are taken out. -/
def delivered (c : Cell) : Cell := { c with pendingIo := c.pendingIo.drainForDispatch.2 }

def checkpointed (blake3 : Blake3) (visit : VisitOrder) (c : Cell) (tick : Tick)
    (registerDigest : Hash) : Cell :=
  { c with
    checkpoints := (c.checkpoints.checkpoint blake3 visit tick c.memory c.memory.dirty
      registerDigest).2
    lastCheckpointTick := tick }

/-- `clear_cell_dirty_pages` -/
def clearDirtyPages (c : Cell) : Cell := { c with memory := c.memory.clearDirtyPages }

/-- The batch flushed at a checkpoint: every dirty page, in full. -/
def flushBatch (c : Cell) (tick : Tick) : TickBatch :=
  ⟨tick, c.memory.dirty.iterDirty.map fun pageIdx =>
    .raw (.ofNat pageIdx) (c.memory.pageBytes pageIdx)⟩

/-- A checkpoint appends one entry, of its own tick. -/
theorem entries_checkpointed (blake3 : Blake3) (visit : VisitOrder) (c : Cell) (tick : Tick)
    (digest : Hash) : ∃ entry, entry.tick = tick ∧
      (c.checkpointed blake3 visit tick digest).checkpoints.entries =
        c.checkpoints.entries ++ [entry] := ⟨_, rfl, rfl⟩

/-- After a checkpoint the dirty pages have current leaves and the others keep theirs. -/
theorem get?_checkpointed (blake3 : Blake3) (visit : VisitOrder) (c : Cell) (tick : Tick)
    (digest : Hash) (i : ℕ) :
    (c.checkpointed blake3 visit tick digest).checkpoints.tree.leaves.get? i =
      if c.memory.dirty.isDirty i then some (blake3 (c.memory.pageBytes i).toList)
      else c.checkpoints.tree.leaves.get? i :=
  CheckpointChain.get?_checkpoint blake3 visit c.checkpoints tick c.memory digest i

theorem leaf_lt_checkpointed (blake3 : Blake3) (visit : VisitOrder) {c : Cell}
    (h : ∀ i ∈ c.checkpoints.tree.leaves, i < 2 ^ treeDepth) (tick : Tick) (digest : Hash) :
    ∀ i ∈ (c.checkpointed blake3 visit tick digest).checkpoints.tree.leaves,
      i < 2 ^ treeDepth := by
  intro i hi
  obtain ⟨v, hv⟩ := HashMap.mem_iff_get?.mp hi
  rw [get?_checkpointed] at hv
  split_ifs at hv with hdirty
  · exact MmapGuardedMemory.isDirty_lt hdirty
  · exact h i (HashMap.mem_iff_get?.mpr ⟨v, hv⟩)

end Cell

namespace Supervisor
variable {E : Type}

def new (maxInstructionsPerQuantum : UInt64) : Supervisor :=
  ⟨∅, Scheduler.new [], none, maxInstructionsPerQuantum⟩

def enableReplication (s : Supervisor) (ringCapacity : ℕ) : Checked Supervisor := do
  let ring ← DeltaRing.new ringCapacity
  return { s with replication := some ring }

def spawnCell (s : Supervisor) (config : CellConfig) (mode : RecorderMode) :
    Except SupervisorError Unit × Supervisor :=
  let id := config.id
  if id ∈ s.cells then (.error (.duplicateCell id), s)
  else
    match Cell.new config mode with
    | .error fault => (.error (.memoryInit id fault), s)
    | .ok cell =>
      (.ok (), { s with
        cells := s.cells.insert id cell
        scheduler := s.scheduler.registerCell id })

def cell (s : Supervisor) (id : CellId) : Option Cell := s.cells.get? id

/-- What the cycle does with the quantum's result. The cell is mutated in place, so it is
stored on every path, and a failed push leaves its dirty pages marked. -/
def finishCycle (blake3 : Blake3) (visit : VisitOrder) (s : Supervisor) (outcome : DispatchOutcome)
    (result : Except QuantumFault UInt64) (registerDigest : Hash) (cell : Cell) :
    Except SupervisorError (Option (CellId × Tick)) × Supervisor :=
  let id := outcome.cellId
  let tick := outcome.tick
  match result with
  | .error _ => (.ok (some (id, tick)), { s with cells := s.cells.insert id cell })
  | .ok _ =>
    if outcome.checkpointDue then
      let flushed := cell.checkpointed blake3 visit tick registerDigest
      match s.replication with
      | none =>
        (.ok (some (id, tick)), { s with cells := s.cells.insert id flushed.clearDirtyPages })
      | some ring =>
        match ring.push (cell.flushBatch tick) with
        | (.error error, ring) =>
          (.error (.replicationBackpressure id error),
            { s with cells := s.cells.insert id flushed, replication := some ring })
        | (.ok (), ring) =>
          (.ok (some (id, tick)), { s with
            cells := s.cells.insert id flushed.clearDirtyPages
            replication := some ring })
    else (.ok (some (id, tick)), { s with cells := s.cells.insert id cell })

def runOneCycle (blake3 : Blake3) (executor : QuantumExecutor E) (visit : VisitOrder)
    (s : Supervisor) (e : E) :
    Checked (Except SupervisorError (Option (CellId × Tick)) × Supervisor × E) := do
  let (outcome, scheduler) ← s.scheduler.nextDispatch s.cells
  let s := { s with scheduler := scheduler }
  match outcome with
  | none => return (.ok none, s, e)
  | some outcome =>
    match s.cells.get? outcome.cellId with
    | none => .error .expect
    | some cell =>
      let (result, cell, e) ← executor.runQuantum e cell.delivered s.maxInstructionsPerQuantum
      let registerDigest := executor.registerDigest e cell
      let (reported, s) := s.finishCycle blake3 visit outcome result registerDigest cell
      return (reported, s, e)

/-- A spawn registers a fresh cell, or is refused without any effect. -/
theorem spawnCell_cases (s : Supervisor) (config : CellConfig) (mode : RecorderMode) :
    (∃ error, s.spawnCell config mode = (.error error, s)) ∨
    ∃ cell, Cell.new config mode = .ok cell ∧ config.id ∉ s.cells ∧
      s.spawnCell config mode = (.ok (), { s with
        cells := s.cells.insert config.id cell
        scheduler := s.scheduler.registerCell config.id }) := by
  by_cases hmem : config.id ∈ s.cells
  · left
    refine ⟨.duplicateCell config.id, ?_⟩
    unfold spawnCell
    simp only [if_pos hmem]
  · cases hnew : Cell.new config mode with
    | error fault =>
      left
      refine ⟨.memoryInit config.id fault, ?_⟩
      unfold spawnCell
      simp only [if_neg hmem, hnew]
    | ok cell =>
      right
      refine ⟨cell, rfl, hmem, ?_⟩
      unfold spawnCell
      simp only [if_neg hmem, hnew]

/-- How a cycle can end after its quantum left the cell as `ran`: what it reports, the cell
it stores, and the ring afterwards. -/
inductive CycleEnd (blake3 : Blake3) (visit : VisitOrder) (replication : Option DeltaRing)
    (outcome : DispatchOutcome) (result : Except QuantumFault UInt64) (registerDigest : Hash)
    (ran : Cell) :
    Except SupervisorError (Option (CellId × Tick)) → Cell → Option DeltaRing → Prop where
  | kept (h : (∃ fault, result = .error fault) ∨ outcome.checkpointDue = false) :
      CycleEnd blake3 visit replication outcome result registerDigest ran
        (.ok (some (outcome.cellId, outcome.tick))) ran replication
  | unreplicated {n : UInt64} (hresult : result = .ok n) (hdue : outcome.checkpointDue = true)
      (hoff : replication = none) :
      CycleEnd blake3 visit replication outcome result registerDigest ran
        (.ok (some (outcome.cellId, outcome.tick)))
        (ran.checkpointed blake3 visit outcome.tick registerDigest).clearDirtyPages none
  | flushed {n : UInt64} {ring ring' : DeltaRing} (hresult : result = .ok n)
      (hdue : outcome.checkpointDue = true) (hring : replication = some ring)
      (hitems : ring'.queue.items = ring.queue.items ++ [ran.flushBatch outcome.tick])
      (hroom : ring.queue.items.length < ring.queue.capacity) :
      CycleEnd blake3 visit replication outcome result registerDigest ran
        (.ok (some (outcome.cellId, outcome.tick)))
        (ran.checkpointed blake3 visit outcome.tick registerDigest).clearDirtyPages (some ring')
  | backpressure {n : UInt64} {ring : DeltaRing} (hresult : result = .ok n)
      (hdue : outcome.checkpointDue = true) (hring : replication = some ring)
      (hfull : ring.queue.items.length = ring.queue.capacity) :
      CycleEnd blake3 visit replication outcome result registerDigest ran
        (.error (.replicationBackpressure outcome.cellId (.full ring.queue.capacity)))
        (ran.checkpointed blake3 visit outcome.tick registerDigest) (some ring)

theorem finishCycle_cases (blake3 : Blake3) (visit : VisitOrder) (s : Supervisor)
    (outcome : DispatchOutcome) (result : Except QuantumFault UInt64) (digest : Hash)
    (ran : Cell) :
    ∃ reported stored ring?,
      s.finishCycle blake3 visit outcome result digest ran =
        (reported, ⟨s.cells.insert outcome.cellId stored, s.scheduler, ring?,
          s.maxInstructionsPerQuantum⟩) ∧
      CycleEnd blake3 visit s.replication outcome result digest ran reported stored ring? := by
  cases result with
  | error fault => exact ⟨_, _, _, rfl, .kept (.inl ⟨fault, rfl⟩)⟩
  | ok n =>
    cases hdue : outcome.checkpointDue with
    | false =>
      refine ⟨_, _, _, ?_, .kept (.inr hdue)⟩
      unfold finishCycle
      simp only [hdue, Bool.false_eq_true, if_false]
    | true =>
      cases hring : s.replication with
      | none =>
        refine ⟨_, _, _, ?_, .unreplicated rfl hdue rfl⟩
        unfold finishCycle
        simp only [hdue, if_true, hring]
      | some ring =>
        rcases ring.push_cases (ran.flushBatch outcome.tick) with
          ⟨hok, hroom, hitems⟩ | ⟨herr, hfull, hsame⟩
        · refine ⟨_, _, some (ring.push (ran.flushBatch outcome.tick)).2, ?_,
            .flushed rfl hdue rfl hitems hroom⟩
          unfold finishCycle
          simp only [hdue, if_true, hring]
          split
          · next error r hpush => simp [hpush] at hok
          · next r hpush => rw [hpush]
        · refine ⟨_, _, _, ?_, .backpressure rfl hdue rfl hfull⟩
          unfold finishCycle
          simp only [hdue, if_true, hring]
          split
          · next error r hpush =>
            simp only [hpush, Except.error.injEq] at herr hsame
            rw [herr, hsame]
          · next r hpush => simp [hpush] at herr

/-- One dispatched cycle, taken apart: the cell of the front id runs its quantum at the
next tick, goes to the back of the order, and is stored as the cycle's end leaves it. -/
structure Dispatch (blake3 : Blake3) (executor : QuantumExecutor E) (visit : VisitOrder)
    (s s' : Supervisor) (e e' : E) (reported : Except SupervisorError (Option (CellId × Tick)))
    where
  id : CellId
  rest : List CellId
  tick : Tick
  before : Cell
  result : Except QuantumFault UInt64
  ran : Cell
  stored : Cell
  order_eq : s.scheduler.order = id :: rest
  tick_eq : tick.toNat = s.scheduler.clock.tick.toNat + 1
  before_eq : s.cells.get? id = some before
  ran_eq : executor.runQuantum e before.delivered s.maxInstructionsPerQuantum =
    .ok (result, ran, e')
  ended : CycleEnd blake3 visit s.replication ⟨id, tick, before.checkpointDue tick⟩ result
    (executor.registerDigest e' ran) ran reported stored s'.replication
  cells_eq : s'.cells = s.cells.insert id stored
  scheduler_eq : s'.scheduler = ⟨rest ++ [id], ⟨tick⟩⟩
  max_eq : s'.maxInstructionsPerQuantum = s.maxInstructionsPerQuantum

theorem runOneCycle_cases {blake3 : Blake3} {executor : QuantumExecutor E} {visit : VisitOrder}
    {s s' : Supervisor} {e e' : E} {reported : Except SupervisorError (Option (CellId × Tick))}
    (h : s.runOneCycle blake3 executor visit e = .ok (reported, s', e')) :
    (s.scheduler.order = [] ∧ reported = .ok none ∧ s' = s ∧ e' = e) ∨
      Nonempty (Dispatch blake3 executor visit s s' e e' reported) := by
  unfold runOneCycle at h
  obtain ⟨⟨outcome, scheduler⟩, hdispatch, h⟩ := bind_returned.mp h
  rcases Scheduler.nextDispatch_cases hdispatch with
    ⟨horder, rfl, rfl⟩ | ⟨id, rest, tick, horder, htick, rfl, rfl⟩
  · cases h
    exact .inl ⟨horder, rfl, rfl, rfl⟩
  · right
    dsimp only at h
    split at h
    · cases h
    · next cell hcell =>
      obtain ⟨⟨result, ran, e₁⟩, hran, h⟩ := bind_returned.mp h
      have hcell' : s.cells.get? id = some cell := hcell
      obtain ⟨reported₁, stored, ring?, hfinish, hend⟩ := finishCycle_cases blake3 visit
        { s with scheduler := ⟨rest ++ [id], ⟨tick⟩⟩ }
        ⟨id, tick, ((s.cells.get? id).map fun c => c.checkpointDue tick).getD false⟩
        result (executor.registerDigest e₁ ran) ran
      rw [hfinish] at h
      cases h
      rw [hcell'] at hend
      exact ⟨⟨id, rest, tick, cell, result, ran, stored, horder, htick, hcell', hran, hend, rfl,
        rfl, rfl⟩⟩

theorem runOneCycle_idle (blake3 : Blake3) (executor : QuantumExecutor E) (visit : VisitOrder)
    {s : Supervisor} (e : E) (h : s.scheduler.order = []) :
    s.runOneCycle blake3 executor visit e = .ok (.ok none, s, e) := by
  unfold runOneCycle
  simp only [Scheduler.nextDispatch, h, ok_bind, pure_ok]

/-- A cycle returns if the clock does not overflow, the front id has a cell and the
quantum returns. -/
theorem runOneCycle_returns (blake3 : Blake3) {executor : QuantumExecutor E} (visit : VisitOrder)
    {s : Supervisor} {e e' : E} {id : CellId} {rest : List CellId} {tick : Tick}
    {before ran : Cell} {result : Except QuantumFault UInt64}
    (horder : s.scheduler.order = id :: rest)
    (htick : tick.toNat = s.scheduler.clock.tick.toNat + 1)
    (hbefore : s.cells.get? id = some before)
    (hran : executor.runQuantum e before.delivered s.maxInstructionsPerQuantum =
      .ok (result, ran, e')) :
    ∃ reported s', s.runOneCycle blake3 executor visit e = .ok (reported, s', e') := by
  have hadvance : addU64 s.scheduler.clock.tick 1 = .ok tick := addU64_eq_ok.mpr htick
  unfold runOneCycle
  simp only [Scheduler.nextDispatch, horder, LogicalClock.advance, hadvance, ok_bind,
    pure_ok, hbefore, hran]
  exact ⟨_, _, rfl⟩

/-- The cell that the next cycle dispatches, as its quantum leaves it. -/
def quantumOf (executor : QuantumExecutor E) (s : Supervisor) (e : E) : Option (CellId × Cell) :=
  match s.scheduler.order with
  | [] => none
  | id :: _ =>
    match s.cells.get? id with
    | none => none
    | some cell =>
      match executor.runQuantum e cell.delivered s.maxInstructionsPerQuantum with
      | .ok (_, ran, _) => some (id, ran)
      | .error _ => none

theorem quantumOf_idle (executor : QuantumExecutor E) {s : Supervisor} (e : E)
    (h : s.scheduler.order = []) : s.quantumOf executor e = none := by
  unfold quantumOf
  simp only [h]

/-- Executors whose quanta leave the same cells. -/
theorem quantumOf_map {E' : Type} {executor : QuantumExecutor E} {executor' : QuantumExecutor E'}
    {f : E → E'} {s : Supervisor} {e : E}
    (h : ∀ id c, s.cells.get? id = some c →
      executor'.runQuantum (f e) c.delivered s.maxInstructionsPerQuantum =
        (executor.runQuantum e c.delivered s.maxInstructionsPerQuantum).map
          fun x => (x.1, x.2.1, f x.2.2)) :
    s.quantumOf executor' (f e) = s.quantumOf executor e := by
  unfold quantumOf
  cases s.scheduler.order with
  | nil => rfl
  | cons id rest =>
    dsimp only
    cases hcell : s.cells.get? id with
    | none => rfl
    | some cell =>
      simp only [h _ _ hcell]
      cases executor.runQuantum e cell.delivered s.maxInstructionsPerQuantum <;> rfl

/-- The batches waiting in the ring, if there is one. -/
def waiting : Option DeltaRing → List TickBatch
  | none => []
  | some ring => ring.queue.items

def queued (s : Supervisor) : List TickBatch := waiting s.replication

/-- Without a push the queue stays as it was, and the dirty pages stay marked unless there
is no ring at all. -/
theorem CycleEnd.flush_cases {blake3 : Blake3} {visit : VisitOrder}
    {replication replication' : Option DeltaRing} {outcome : DispatchOutcome}
    {result : Except QuantumFault UInt64} {digest : Hash} {ran stored : Cell}
    {reported : Except SupervisorError (Option (CellId × Tick))}
    (h : CycleEnd blake3 visit replication outcome result digest ran reported stored replication') :
    (waiting replication' = waiting replication ∧ (stored.memory = ran.memory ∨
      replication = none ∧ stored.memory = ran.memory.clearDirtyPages)) ∨
    (waiting replication' = waiting replication ++ [ran.flushBatch outcome.tick] ∧
      stored.memory = ran.memory.clearDirtyPages) := by
  cases h with
  | kept h => exact .inl ⟨rfl, .inl rfl⟩
  | unreplicated hresult hdue hoff => exact .inl ⟨by rw [hoff], .inr ⟨hoff, rfl⟩⟩
  | flushed hresult hdue hring hitems hroom =>
    rw [hring]
    exact .inr ⟨hitems, rfl⟩
  | backpressure hresult hdue hring hfull => exact .inl ⟨by rw [hring], .inl rfl⟩

/-- The cell that a cycle stores is as the quantum left it if there is a fault or no
checkpoint is due; else it is checkpointed, with the dirty pages cleared or not. -/
theorem CycleEnd.stored_cases {blake3 : Blake3} {visit : VisitOrder}
    {replication replication' : Option DeltaRing} {outcome : DispatchOutcome}
    {result : Except QuantumFault UInt64} {digest : Hash} {ran stored : Cell}
    {reported : Except SupervisorError (Option (CellId × Tick))}
    (h : CycleEnd blake3 visit replication outcome result digest ran reported stored replication') :
    (((∃ fault, result = .error fault) ∨ outcome.checkpointDue = false) ∧ stored = ran) ∨
    ((∃ n, result = .ok n) ∧ outcome.checkpointDue = true ∧
      (stored = ran.checkpointed blake3 visit outcome.tick digest ∨
        stored = (ran.checkpointed blake3 visit outcome.tick digest).clearDirtyPages)) := by
  cases h with
  | kept h => exact .inl ⟨h, rfl⟩
  | unreplicated hresult hdue hoff => exact .inr ⟨⟨_, hresult⟩, hdue, .inr rfl⟩
  | flushed hresult hdue hring hitems hroom => exact .inr ⟨⟨_, hresult⟩, hdue, .inr rfl⟩
  | backpressure hresult hdue hring hfull => exact .inr ⟨⟨_, hresult⟩, hdue, .inl rfl⟩

/-- With a ring, a checkpoint is taken in any case and its batch enters the ring if there is
room for it. -/
theorem CycleEnd.ring_cases {blake3 : Blake3} {visit : VisitOrder}
    {replication replication' : Option DeltaRing} {outcome : DispatchOutcome}
    {result : Except QuantumFault UInt64} {digest : Hash} {ran stored : Cell}
    {reported : Except SupervisorError (Option (CellId × Tick))}
    (h : CycleEnd blake3 visit replication outcome result digest ran reported stored replication')
    {ring : DeltaRing} (hon : replication = some ring) :
    (((∃ fault, result = .error fault) ∨ outcome.checkpointDue = false) ∧ stored = ran ∧
      waiting replication' = waiting replication) ∨
    ((∃ n, result = .ok n) ∧ outcome.checkpointDue = true ∧
      ((ring.queue.items.length < ring.queue.capacity ∧
          stored = (ran.checkpointed blake3 visit outcome.tick digest).clearDirtyPages ∧
          waiting replication' = waiting replication ++ [ran.flushBatch outcome.tick]) ∨
        (ring.queue.items.length = ring.queue.capacity ∧
          stored = ran.checkpointed blake3 visit outcome.tick digest ∧
          waiting replication' = waiting replication))) := by
  cases h with
  | kept h => exact .inl ⟨h, rfl, rfl⟩
  | unreplicated hresult hdue hoff =>
    rw [hoff] at hon
    cases hon
  | flushed hresult hdue hring hitems hroom =>
    rw [hring] at hon
    cases hon
    rw [hring]
    exact .inr ⟨⟨_, hresult⟩, hdue, .inl ⟨hroom, rfl, hitems⟩⟩
  | backpressure hresult hdue hring hfull =>
    rw [hring] at hon
    cases hon
    rw [hring]
    exact .inr ⟨⟨_, hresult⟩, hdue, .inr ⟨hfull, rfl, rfl⟩⟩

theorem CycleEnd.replication_isSome {blake3 : Blake3} {visit : VisitOrder}
    {replication replication' : Option DeltaRing} {outcome : DispatchOutcome}
    {result : Except QuantumFault UInt64} {digest : Hash} {ran stored : Cell}
    {reported : Except SupervisorError (Option (CellId × Tick))}
    (h : CycleEnd blake3 visit replication outcome result digest ran reported stored replication') :
    replication'.isSome = replication.isSome := by
  cases h with
  | kept h => rfl
  | unreplicated hresult hdue hoff => rw [hoff]
  | flushed hresult hdue hring hitems hroom =>
    rw [hring]
    rfl
  | backpressure hresult hdue hring hfull => rw [hring]

theorem Dispatch.quantumOf_eq {blake3 : Blake3} {executor : QuantumExecutor E}
    {visit : VisitOrder} {s s' : Supervisor} {e e' : E}
    {reported : Except SupervisorError (Option (CellId × Tick))}
    (d : Dispatch blake3 executor visit s s' e e' reported) :
    s.quantumOf executor e = some (d.id, d.ran) := by
  unfold quantumOf
  simp only [d.order_eq, d.before_eq, d.ran_eq]

/-- Equal schedules dispatch the same cell at the same tick. -/
theorem Dispatch.turn_eq {E' : Type} {blake3 blake3' : Blake3} {executor : QuantumExecutor E}
    {executor' : QuantumExecutor E'} {visit visit' : VisitOrder} {s₁ s₂ s₁' s₂' : Supervisor}
    {e₁ e₂ : E} {e₁' e₂' : E'}
    {reported reported' : Except SupervisorError (Option (CellId × Tick))}
    (d : Dispatch blake3 executor visit s₁ s₂ e₁ e₂ reported)
    (d' : Dispatch blake3' executor' visit' s₁' s₂' e₁' e₂' reported')
    (h : s₁'.scheduler = s₁.scheduler) :
    d'.id = d.id ∧ d'.rest = d.rest ∧ d'.tick = d.tick := by
  have horder := d'.order_eq
  rw [h, d.order_eq] at horder
  refine ⟨(List.cons.inj horder).1.symm, (List.cons.inj horder).2.symm, ?_⟩
  apply UInt64.toNat_inj.mp
  rw [d'.tick_eq, h, d.tick_eq]

theorem Dispatch.replication_eq_none {blake3 : Blake3} {executor : QuantumExecutor E}
    {visit : VisitOrder} {s s' : Supervisor} {e e' : E}
    {reported : Except SupervisorError (Option (CellId × Tick))}
    (d : Dispatch blake3 executor visit s s' e e' reported) (h : s.replication = none) :
    s'.replication = none := by
  have hsome := d.ended.replication_isSome
  rw [h] at hsome
  exact Option.isNone_iff_eq_none.mp (Option.isSome_eq_false_iff.mp hsome)

end Supervisor
end ChronosUvm
