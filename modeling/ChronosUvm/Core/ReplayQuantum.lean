import Mathlib.Tactic
import ChronosUvm.Core.AlikeCells
import ChronosUvm.Core.RecordReplay

/-!
One quantum recorded and replayed. The recording cell and the replaying cell differ in
their recorders and in dirty bits of pages whose stored leaf is current; a guest
program run on both makes the same host calls, obtains the same values and leaves
the cells related as before.
-/
namespace ChronosUvm
open Panicking Tables EventRecorder

/-- The ticks of a cell's host calls, in order. -/
def callTicks (id : CellId) (calls : List HostEvent) : List Tick :=
  (calls.filter fun ev => ev.cell = id).map fun ev => ev.call.tick

theorem callTicks_append (id : CellId) (calls calls' : List HostEvent) :
    callTicks id (calls ++ calls') = callTicks id calls ++ callTicks id calls' := by
  unfold callTicks
  simp only [List.filter_append, List.map_append]

theorem callTicks_self (id : CellId) (call : HostCall) (result : Except ReplayError HostValue) :
    callTicks id [⟨id, call, result⟩] = [call.tick] := by
  simp [callTicks]

theorem callTicks_other {id : CellId} {calls : List HostEvent} (h : ∀ ev ∈ calls, ev.cell ≠ id) :
    callTicks id calls = [] := by
  unfold callTicks
  rw [List.map_eq_nil_iff, List.filter_eq_nil_iff]
  intro ev hev
  simpa using h ev hev

variable {S Ω Ω' : Type}

namespace GuestProgram
variable {host : HostSource Ω} {program : GuestProgram S} {c ran : Cell} {ω : Ω}
  {calls : List HostEvent} {result : Except QuantumFault UInt64} {e : GuestState S Ω}

/-- A program only adds calls of its own cell to the record, and in record mode they all
succeed. -/
theorem run_calls (h : program.run host c ω calls = .ok (result, ran, e)) :
    ∃ more, e.calls = calls ++ more ∧ ∀ ev ∈ more, ev.cell = c.config.id ∧
      (c.recorder.mode = .record → ∃ value, ev.result = .ok value) := by
  induction program generalizing c ω calls with
  | finish r s =>
    cases h
    exact ⟨[], (List.append_nil _).symm, by simp⟩
  | store ptr len data next ih =>
    obtain ⟨⟨r, memory⟩, -, h⟩ := bind_returned.mp h
    have hrest := ih r h
    exact hrest
  | markDirty p next ih =>
    obtain ⟨memory, -, h⟩ := bind_returned.mp h
    have hrest := ih h
    exact hrest
  | grow d next ih =>
    have hrest := ih _ h
    exact hrest
  | hostCall call next ih =>
    obtain ⟨⟨r, recorder, ω₁⟩, hcall, h⟩ := bind_returned.mp h
    obtain ⟨more, hmore, hcell⟩ := ih r h
    refine ⟨⟨c.config.id, call, r⟩ :: more, by rw [hmore]; simp, ?_⟩
    intro ev hev
    rcases List.mem_cons.mp hev with rfl | hev
    · refine ⟨rfl, fun hmode => ?_⟩
      obtain ⟨value, -, hvalue, -⟩ := HostCall.perform_record hmode hcall
      exact ⟨value, hvalue⟩
    · refine ⟨(hcell ev hev).1, fun hmode => (hcell ev hev).2 ?_⟩
      obtain ⟨value, next, -, -, -, hrecorder⟩ := HostCall.perform_record hmode hcall
      rw [hrecorder]
      exact hmode

/-- In record mode a quantum under the tick discipline keeps it and loses no entry. -/
theorem run_recorded (h : program.run host c ω calls = .ok (result, ran, e))
    (hrecorded : Recorded (callTicks c.config.id calls) c.recorder)
    (hticks : NoReturn (callTicks c.config.id e.calls)) :
    Recorded (callTicks c.config.id e.calls) ran.recorder ∧
      Extends c.recorder.log ran.recorder.log := by
  induction program generalizing c ω calls with
  | finish r s =>
    cases h
    exact ⟨hrecorded, fun _ _ hv => hv⟩
  | store ptr len data next ih =>
    obtain ⟨⟨r, memory⟩, -, h⟩ := bind_returned.mp h
    have hrest := ih r h hrecorded hticks
    exact hrest
  | markDirty p next ih =>
    obtain ⟨memory, -, h⟩ := bind_returned.mp h
    have hrest := ih h hrecorded hticks
    exact hrest
  | grow d next ih =>
    have hrest := ih _ h hrecorded hticks
    exact hrest
  | hostCall call next ih =>
    obtain ⟨⟨r, recorder, ω₁⟩, hcall, h⟩ := bind_returned.mp h
    obtain ⟨more, hmore, -⟩ := run_calls h
    have hprefix : NoReturn (callTicks c.config.id calls ++ [call.tick]) := by
      rw [hmore, callTicks_append, callTicks_append, callTicks_self] at hticks
      exact hticks.left
    obtain ⟨hrecorded₁, hext₁⟩ := hrecorded.perform hprefix hcall
    have hcalls : callTicks c.config.id (calls ++ [⟨c.config.id, call, r⟩]) =
        callTicks c.config.id calls ++ [call.tick] := by rw [callTicks_append, callTicks_self]
    obtain ⟨hrecorded₂, hext₂⟩ := ih r h (by rw [hcalls]; exact hrecorded₁) hticks
    exact ⟨hrecorded₂, fun key v hv => hext₂ key v (hext₁ key v hv)⟩

end GuestProgram

namespace Cell

/-- A cell that replays another one, with the whole log in its recorder. -/
structure Replays (blake3 : Blake3) (log : HashMap EventKey RecordedValue) (c c' : Cell) :
    Prop where
  config_eq : c'.config = c.config
  checkpoints_eq : c'.checkpoints = c.checkpoints
  fdTable_eq : c'.fdTable = c.fdTable
  pendingIo_eq : c'.pendingIo = c.pendingIo
  last_eq : c'.lastCheckpointTick = c.lastCheckpointTick
  leaf_lt : ∀ i ∈ c.checkpoints.tree.leaves, i < 2 ^ treeDepth
  memory : MmapGuardedMemory.Alike (c.checkpoints.Settled blake3) c.memory c'.memory
  recorder : InStep c.recorder c'.recorder
  log_eq : c'.recorder.log = log

variable {blake3 : Blake3} {log : HashMap EventKey RecordedValue} {c c' : Cell}

theorem Replays.alike (h : Replays blake3 log c c') : Alike blake3 c c' :=
  ⟨h.config_eq, h.checkpoints_eq, h.fdTable_eq, h.pendingIo_eq, h.last_eq, h.leaf_lt, h.memory⟩

theorem Alike.replays (h : Alike blake3 c c') (hrecorder : InStep c.recorder c'.recorder)
    (hlog : c'.recorder.log = log) : Replays blake3 log c c' :=
  ⟨h.config_eq, h.checkpoints_eq, h.fdTable_eq, h.pendingIo_eq, h.last_eq, h.leaf_lt, h.memory,
    hrecorder, hlog⟩

theorem Replays.withMemory (h : Replays blake3 log c c') {memory memory' : MmapGuardedMemory}
    (halike : MmapGuardedMemory.Alike (c.checkpoints.Settled blake3) memory memory') :
    Replays blake3 log { c with memory := memory } { c' with memory := memory' } :=
  ⟨h.config_eq, h.checkpoints_eq, h.fdTable_eq, h.pendingIo_eq, h.last_eq, h.leaf_lt, halike,
    h.recorder, h.log_eq⟩

theorem Replays.withRecorder (h : Replays blake3 log c c') {recorder recorder' : EventRecorder}
    (hstep : InStep recorder recorder') (hlog : recorder'.log = c'.recorder.log) :
    Replays blake3 log { c with recorder := recorder } { c' with recorder := recorder' } :=
  ⟨h.config_eq, h.checkpoints_eq, h.fdTable_eq, h.pendingIo_eq, h.last_eq, h.leaf_lt, h.memory,
    hstep, hlog.trans h.log_eq⟩

end Cell

namespace GuestProgram
variable {host : HostSource Ω} {program : GuestProgram S} {c c' ran : Cell} {ω : Ω}
  {calls : List HostEvent} {result : Except QuantumFault UInt64} {e : GuestState S Ω}
  {blake3 : Blake3} {log : HashMap EventKey RecordedValue}

/-- A recorded quantum replays: the same result, the same calls with the same values, none
of them an error, and related cells. -/
theorem run_replayed (host' : HostSource Ω') (ω' : Ω')
    (h : program.run host c ω calls = .ok (result, ran, e))
    (hrecorded : Recorded (callTicks c.config.id calls) c.recorder)
    (hticks : NoReturn (callTicks c.config.id e.calls)) (hext : Extends ran.recorder.log log)
    (hreplays : c.Replays blake3 log c') :
    ∃ ran', program.run host' c' ω' calls = .ok (result, ran', ⟨e.state, ω', e.calls⟩) ∧
      ran.Replays blake3 log ran' := by
  induction program generalizing c c' ω calls with
  | finish r s =>
    cases h
    exact ⟨c', rfl, hreplays⟩
  | store ptr len data next ih =>
    obtain ⟨⟨r, memory⟩, hstore, h⟩ := bind_returned.mp h
    obtain ⟨memory', hstore', halike⟩ := hreplays.memory.store hstore
    obtain ⟨ran', hrun', hran'⟩ := ih r h hrecorded hticks
      (hreplays.withMemory halike)
    exact ⟨ran', bind_returned.mpr ⟨_, hstore', hrun'⟩, hran'⟩
  | markDirty p next ih =>
    obtain ⟨memory, hmark, h⟩ := bind_returned.mp h
    obtain ⟨memory', hmark', halike⟩ :=
      (hreplays.memory.mono fun _ _ hsettled => .inr hsettled).markDirty hmark
    obtain ⟨ran', hrun', hran'⟩ := ih h hrecorded hticks
      (hreplays.withMemory halike)
    exact ⟨ran', bind_returned.mpr ⟨_, hmark', hrun'⟩, hran'⟩
  | grow d next ih =>
    obtain ⟨hresult, halike⟩ := hreplays.memory.grow d
    obtain ⟨ran', hrun', hran'⟩ := ih _ h hrecorded hticks
      (hreplays.withMemory halike)
    exact ⟨ran', by rw [run, hresult]; exact hrun', hran'⟩
  | hostCall call next ih =>
    obtain ⟨⟨r, recorder, ω₁⟩, hcall, h⟩ := bind_returned.mp h
    obtain ⟨more, hmore, -⟩ := run_calls h
    have hcalls : callTicks c.config.id (calls ++ [⟨c.config.id, call, r⟩]) =
        callTicks c.config.id calls ++ [call.tick] := by rw [callTicks_append, callTicks_self]
    have hprefix : NoReturn (callTicks c.config.id calls ++ [call.tick]) := by
      rw [hmore, callTicks_append, hcalls] at hticks
      exact hticks.left
    obtain ⟨hrecorded₁, -⟩ := hrecorded.perform hprefix hcall
    -- what the call recorded is still in the log at the end of the run
    have hkept := (run_recorded h (by rw [hcalls]; exact hrecorded₁) hticks).2
    obtain ⟨v, recorder', rfl, hcall', hstep, hlog⟩ := hreplays.recorder.perform host' ω'
      hrecorded.mode_eq rfl hcall (by
        rw [hreplays.log_eq]
        exact fun key v hv => hext key v (hkept key v hv))
    obtain ⟨ran', hrun', hran'⟩ := ih (.ok v) h (by rw [hcalls]; exact hrecorded₁) hticks
      (hreplays.withRecorder hstep hlog)
    refine ⟨ran', bind_returned.mpr ⟨_, hcall', ?_⟩, hran'⟩
    have hid : c'.config.id = c.config.id := by rw [hreplays.config_eq]
    dsimp only
    rw [hid]
    exact hrun'

end GuestProgram
end ChronosUvm
