import Mathlib.Tactic
import ChronosUvm.Core.World

/-!
Executors that run guests. During a quantum a guest is a tree of memory operations
and host calls: each continues with what the operation returned, and the tree itself
depends only on the executor's own state and on what a guest can see of its cell,
which the dirty bits and the recorder are not part of.
-/
namespace ChronosUvm
open Panicking Tables

/-- What a guest can see of its cell. -/
structure GuestView where
  config : CellConfig
  bytes : ℕ → UInt8
  sizeBytes : UInt32
  quotaBytes : UInt32
  checkpoints : CheckpointChain
  fdTable : FdTable
  pendingIo : PendingCompletions
  lastCheckpointTick : Tick

def Cell.view (c : Cell) : GuestView :=
  ⟨c.config, c.memory.bytes, c.memory.sizeBytes, c.memory.quotaBytes, c.checkpoints, c.fdTable,
    c.pendingIo, c.lastCheckpointTick⟩

inductive GuestProgram (S : Type) where
  | finish (result : Except QuantumFault UInt64) (state : S)
  | store (ptr len : UInt32) (data : Bytes len.toNat) (next : Except MemFault Unit → GuestProgram S)
  | markDirty (pageIdx : ℕ) (next : GuestProgram S)
  | grow (deltaPages : UInt32) (next : Except MemFault UInt32 → GuestProgram S)
  | hostCall (call : HostCall) (next : Except ReplayError HostValue → GuestProgram S)

/-- The quanta of a guest and the digest of its registers. -/
structure Guest (S : Type) where
  program : S → GuestView → UInt64 → GuestProgram S
  registerDigest : S → GuestView → Hash

/-- A host call made during the run, and what it returned. -/
structure HostEvent where
  cell : CellId
  call : HostCall
  result : Except ReplayError HostValue

/-- The executor's state: the guests' own, the host's, and the record of all host calls. -/
structure GuestState (S Ω : Type) where
  state : S
  host : Ω
  calls : List HostEvent

variable {S Ω : Type}

namespace GuestProgram

def run (host : HostSource Ω) : GuestProgram S → Cell → Ω → List HostEvent →
    Checked (Except QuantumFault UInt64 × Cell × GuestState S Ω)
  | finish result state, c, ω, calls => .ok (result, c, ⟨state, ω, calls⟩)
  | store ptr len data next, c, ω, calls => do
    let (result, memory) ← c.memory.store ptr len data
    (next result).run host { c with memory := memory } ω calls
  | markDirty pageIdx next, c, ω, calls => do
    let memory ← c.memory.markDirty pageIdx
    next.run host { c with memory := memory } ω calls
  | grow deltaPages next, c, ω, calls =>
    (next (c.memory.grow deltaPages).1).run host
      { c with memory := (c.memory.grow deltaPages).2 } ω calls
  | hostCall call next, c, ω, calls => do
    let (result, recorder, ω) ← call.perform host c.recorder ω
    (next result).run host { c with recorder := recorder } ω
      (calls ++ [⟨c.config.id, call, result⟩])

/-- A program writes only its memory, marking what it writes, and its recorder. -/
theorem run_effect {host : HostSource Ω} {program : GuestProgram S} {c ran : Cell} {ω : Ω}
    {calls : List HostEvent} {result : Except QuantumFault UInt64} {e : GuestState S Ω}
    (h : program.run host c ω calls = .ok (result, ran, e)) :
    c.memory.GuestWrites ran.memory ∧
      ran = { c with memory := ran.memory, recorder := ran.recorder } := by
  induction program generalizing c ω calls with
  | finish r s =>
    cases h
    exact ⟨.refl _, rfl⟩
  | store ptr len data next ih =>
    obtain ⟨⟨r, memory⟩, hstore, h⟩ := bind_returned.mp h
    obtain ⟨hwrites, hrest⟩ := ih r h
    exact ⟨(MmapGuardedMemory.GuestWrites.store hstore).trans hwrites, hrest⟩
  | markDirty p next ih =>
    obtain ⟨memory, hmark, h⟩ := bind_returned.mp h
    obtain ⟨hwrites, hrest⟩ := ih h
    exact ⟨(MmapGuardedMemory.GuestWrites.markDirty hmark).trans hwrites, hrest⟩
  | grow d next ih =>
    obtain ⟨hwrites, hrest⟩ := ih _ h
    exact ⟨(MmapGuardedMemory.GuestWrites.grow c.memory d).trans hwrites, hrest⟩
  | hostCall call next ih =>
    obtain ⟨⟨r, recorder, ω₁⟩, -, h⟩ := bind_returned.mp h
    obtain ⟨hwrites, hrest⟩ := ih r h
    exact ⟨hwrites, hrest⟩

end GuestProgram

namespace Guest

def executor (g : Guest S) (host : HostSource Ω) : QuantumExecutor (GuestState S Ω) where
  runQuantum e cell n := (g.program e.state cell.view n).run host cell e.host e.calls
  registerDigest e cell := g.registerDigest e.state cell.view

theorem executor_marksWrites (g : Guest S) (host : HostSource Ω) :
    (g.executor host).MarksWrites := fun _ _ _ _ _ _ h => (GuestProgram.run_effect h).1

theorem executor_keepsChain (g : Guest S) (host : HostSource Ω) :
    (g.executor host).KeepsChain := by
  intro e cell n result ran e' h
  rw [(GuestProgram.run_effect h).2]

/-- One instruction of a scripted guest: store a byte, store the low byte of the clock, or
do nothing. -/
inductive Instruction where
  | poke (ptr : UInt32) (byte : UInt8)
  | stamp (tick : Tick) (ptr : UInt32)
  | rest

/-- A guest that executes one instruction of its script in each quantum. -/
def scripted : Guest (List Instruction) where
  program script _ _ :=
    match script with
    | [] => .finish (.ok 0) []
    | .rest :: script => .finish (.ok 1) script
    | .poke ptr byte :: script => .store ptr 1 (fun _ => byte) fun _ => .finish (.ok 1) script
    | .stamp tick ptr :: script => .hostCall (.clock tick) fun result =>
      match result with
      | .ok (.clock v) => .store ptr 1 (fun _ => v.toUInt8) fun _ => .finish (.ok 2) script
      | _ => .finish (.error (.trap "clock")) script
  registerDigest _ _ := fun _ => 0

/-- A world in which scripted guests run, and its steps under a constant hash. -/
abbrev scriptedWorld (script : List Instruction) : World (GuestState (List Instruction) Unit) :=
  World.new 100 ⟨script, (), []⟩ 1

abbrev scriptedStep (w : World (GuestState (List Instruction) Unit)) (a : Action) :
    Checked (World (GuestState (List Instruction) Unit)) :=
  World.step (fun _ _ => 0) (scripted.executor (HostSource.frozen 7)) w a

end Guest

/-- A cycle that visits every table in ascending order. -/
abbrev Action.ascendingCycle : Action := .cycle fun _ => Iteration.ascending

end ChronosUvm
