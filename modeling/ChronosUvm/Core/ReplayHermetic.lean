import Mathlib.Tactic
import ChronosUvm.Core.ReplayRun

/-!
A replay is hermetic. When every cell was spawned with a log, no host call reaches the
real clock or the real random source: the host can be exchanged for any other without
changing a single result, panics included, and every value a guest was given is an
entry of the log its own cell was spawned with.
-/
namespace ChronosUvm
open Panicking Tables Transitions EventRecorder

variable {S Ω Ω' : Type}

/-- The same guests on another host. -/
def GuestState.withHost (e : GuestState S Ω) (ω' : Ω') : GuestState S Ω' :=
  ⟨e.state, ω', e.calls⟩

theorem HostCall.perform_overflow (host : HostSource Ω) (c : HostCall) {r : EventRecorder} (ω : Ω)
    {p : Panic} (hnext : addU64 (r.ordinalAt c.tick) 1 = .error p) :
    c.perform host r ω = .error p := by
  cases c with
  | clock t =>
    unfold tick at hnext
    simp [perform, wallClockNow, nextOrdinal_eq, hnext, bind, Except.bind, Except.map]
  | random t buf =>
    unfold tick at hnext
    simp [perform, randomBytes, nextOrdinal_eq, hnext, bind, Except.bind, Except.map]

/-- A replayed call is the same call on every host. -/
theorem HostCall.perform_replay_host (host : HostSource Ω) (host' : HostSource Ω') (c : HostCall)
    {r : EventRecorder} (ω : Ω) (ω' : Ω') (hmode : r.mode = .replay) :
    c.perform host' r ω' = (c.perform host r ω).map fun x => (x.1, x.2.1, ω') := by
  cases hnext : addU64 (r.ordinalAt c.tick) 1 with
  | error p =>
    rw [perform_overflow host c ω hnext, perform_overflow host' c ω' hnext]
    rfl
  | ok next =>
    rw [perform_replay_eq host c ω hmode hnext, perform_replay_eq host' c ω' hmode hnext]
    rfl

/-- What a replayed call leaves: the recorder's mode and log, and a result read off the log. -/
theorem HostCall.perform_replay_frame {host : HostSource Ω} {c : HostCall} {r r' : EventRecorder}
    {ω ω₁ : Ω} {result : Except ReplayError HostValue} (hmode : r.mode = .replay)
    (h : c.perform host r ω = .ok (result, r', ω₁)) :
    r'.mode = .replay ∧ r'.log = r.log ∧
      ∀ v, result = .ok v → ∃ ordinal, r.log.get? ⟨c.tick, ordinal⟩ = some v := by
  obtain ⟨next, hnext⟩ := addU64_of_perform h
  rw [perform_replay_eq host c ω hmode hnext] at h
  cases h
  refine ⟨hmode, rfl, ?_⟩
  intro v hv
  refine ⟨r.ordinalAt c.tick, ?_⟩
  unfold replayed at hv
  cases hget : r.log.get? ⟨c.tick, r.ordinalAt c.tick⟩ with
  | none => simp [hget] at hv
  | some value =>
    simp only [hget] at hv
    split_ifs at hv
    cases hv
    rfl

namespace GuestProgram

/-- A quantum of a replaying cell, on one host and on another. -/
theorem run_replay_host (host : HostSource Ω) (host' : HostSource Ω') (program : GuestProgram S)
    {c : Cell} (ω : Ω) (ω' : Ω') (calls : List HostEvent) (hmode : c.recorder.mode = .replay) :
    program.run host' c ω' calls =
      (program.run host c ω calls).map fun x => (x.1, x.2.1, x.2.2.withHost ω') := by
  induction program generalizing c ω calls with
  | finish r s => rfl
  | store ptr len data next ih =>
    unfold run
    cases c.memory.store ptr len data with
    | error p => rfl
    | ok stored => exact ih stored.1 ω calls hmode
  | markDirty p next ih =>
    unfold run
    cases c.memory.markDirty p with
    | error p => rfl
    | ok memory => exact ih ω calls hmode
  | grow d next ih => exact ih _ ω calls hmode
  | hostCall call next ih =>
    unfold run
    rw [call.perform_replay_host host host' ω ω' hmode]
    cases hcall : call.perform host c.recorder ω with
    | error p => rfl
    | ok called =>
      obtain ⟨result, recorder, ω₁⟩ := called
      exact ih result ω₁ _ (HostCall.perform_replay_frame hmode hcall).1

/-- A quantum of a replaying cell keeps the log, and every value it was given is in it. -/
theorem run_replay_frame {host : HostSource Ω} {program : GuestProgram S} {c ran : Cell} {ω : Ω}
    {calls : List HostEvent} {result : Except QuantumFault UInt64} {e : GuestState S Ω}
    (hmode : c.recorder.mode = .replay)
    (h : program.run host c ω calls = .ok (result, ran, e)) :
    ran.recorder.mode = .replay ∧ ran.recorder.log = c.recorder.log ∧
      ∃ more, e.calls = calls ++ more ∧ ∀ ev ∈ more, ev.cell = c.config.id ∧
        ∀ v, ev.result = .ok v →
          ∃ ordinal, c.recorder.log.get? ⟨ev.call.tick, ordinal⟩ = some v := by
  induction program generalizing c ω calls with
  | finish r s =>
    cases h
    exact ⟨hmode, rfl, [], by simp, by simp⟩
  | store ptr len data next ih =>
    obtain ⟨⟨r, memory⟩, -, h⟩ := bind_returned.mp h
    exact ih r (c := { c with memory := memory }) hmode h
  | markDirty p next ih =>
    obtain ⟨memory, -, h⟩ := bind_returned.mp h
    exact ih (c := { c with memory := memory }) hmode h
  | grow d next ih => exact ih _ (c := { c with memory := (c.memory.grow d).2 }) hmode h
  | hostCall call next ih =>
    obtain ⟨⟨r, recorder, ω₁⟩, hcall, h⟩ := bind_returned.mp h
    obtain ⟨hmode₁, hlog₁, hvalue⟩ := HostCall.perform_replay_frame hmode hcall
    obtain ⟨hmode₂, hlog₂, more, hcalls, hmore⟩ := ih r hmode₁ h
    refine ⟨hmode₂, hlog₂.trans hlog₁, ⟨c.config.id, call, r⟩ :: more, ?_, ?_⟩
    · rw [hcalls, List.append_assoc, List.singleton_append]
    · intro ev hev
      rcases List.mem_cons.mp hev with rfl | hev
      · exact ⟨rfl, hvalue⟩
      · obtain ⟨hcell, hfrom⟩ := hmore ev hev
        refine ⟨hcell, fun v hv => ?_⟩
        obtain ⟨ordinal, hget⟩ := hfrom v hv
        exact ⟨ordinal, hlog₁ ▸ hget⟩

end GuestProgram

namespace Supervisor
variable {E E' : Type}

/-- The executors do the same with every cell of the supervisor, up to their own states. -/
structure SameQuanta (executor : QuantumExecutor E) (executor' : QuantumExecutor E')
    (f : E → E') (s : Supervisor) (e : E) : Prop where
  quantum : ∀ id cell, s.cells.get? id = some cell → ∀ n,
    executor'.runQuantum (f e) cell.delivered n =
      (executor.runQuantum e cell.delivered n).map fun x => (x.1, x.2.1, f x.2.2)
  digest : ∀ e cell, executor'.registerDigest (f e) cell = executor.registerDigest e cell

variable {executor : QuantumExecutor E} {executor' : QuantumExecutor E'} {f : E → E'}
  {s : Supervisor} {e : E}

/-- A cycle under the one executor is the cycle under the other, panics included. -/
theorem SameQuanta.runOneCycle (h : SameQuanta executor executor' f s e) (blake3 : Blake3)
    (visit : VisitOrder) :
    s.runOneCycle blake3 executor' visit (f e) =
      (s.runOneCycle blake3 executor visit e).map fun x => (x.1, x.2.1, f x.2.2) := by
  unfold Supervisor.runOneCycle
  cases s.scheduler.nextDispatch s.cells with
  | error p => rfl
  | ok dispatched =>
    obtain ⟨outcome, scheduler⟩ := dispatched
    cases outcome with
    | none => rfl
    | some outcome =>
      simp only [ok_bind]
      cases hcell : s.cells.get? outcome.cellId with
      | none => rfl
      | some cell =>
        simp only [h.quantum _ _ hcell]
        cases executor.runQuantum e cell.delivered s.maxInstructionsPerQuantum with
        | error p => rfl
        | ok x => simp [Except.map, h.digest]

theorem SameQuanta.quantumOf (h : SameQuanta executor executor' f s e) :
    s.quantumOf executor' (f e) = s.quantumOf executor e :=
  quantumOf_map fun id c hget => h.quantum id c hget _

end Supervisor

/-- Every cell of the run is spawned with a log to replay. -/
def Action.SpawnsReplay : Action → Prop
  | .spawn _ _ => False
  | .spawnReplay _ _ | .enableReplication _ | .cycle _ | .pop | .apply => True

namespace World
variable {blake3 : Blake3} {guest : Guest S} {host : HostSource Ω} {host' : HostSource Ω'}
  {w w' : World (GuestState S Ω)} {a : Action} {actions : List Action}

/-- The same world on another host. -/
def withHost (w : World (GuestState S Ω)) (ω' : Ω') : World (GuestState S Ω') :=
  ⟨w.supervisor, w.executor.withHost ω', w.standby, w.inflight, w.quanta, w.flushes, w.applied⟩

/-- Every cell replays, and every value that a guest was given stands in its own cell's log. -/
structure Sealed (w : World (GuestState S Ω)) : Prop where
  cells : ∀ id c, w.supervisor.cells.get? id = some c → c.config.id = id ∧
    c.recorder.mode = .replay
  values : ∀ ev ∈ w.executor.calls, ∀ v, ev.result = .ok v →
    ∃ c ordinal, w.supervisor.cells.get? ev.cell = some c ∧
      c.recorder.log.get? ⟨ev.call.tick, ordinal⟩ = some v

theorem sealed_new (max : UInt64) (state : S) (ω : Ω) (pages : ℕ) :
    Sealed (new max (⟨state, ω, []⟩ : GuestState S Ω) pages) where
  cells _ _ h := by cases h
  values _ h := by cases h

/-- Whatever leaves the cells and the calls alone leaves the seal. -/
theorem Sealed.congr (h : Sealed w) (hcells : w'.supervisor.cells = w.supervisor.cells)
    (hcalls : w'.executor.calls = w.executor.calls) : Sealed w' := by
  constructor
  · rw [hcells]
    exact h.cells
  · rw [hcells, hcalls]
    exact h.values

theorem Sealed.step (h : Sealed w) (ha : a.SpawnsReplay)
    (hstep : World.step blake3 (guest.executor host) w a = .ok w') : Sealed w' := by
  cases step_cases hstep with
  | idle => exact h
  | @spawned _ config memory recorder haction hmemory hfresh =>
    rcases haction with ⟨mode, rfl, -⟩ | ⟨entries, rfl, rfl⟩
    · cases ha
    · constructor
      · intro id c hget
        rw [HashMap.get?_insert] at hget
        split_ifs at hget with hid
        · cases hget
          exact ⟨hid.symm, rfl⟩
        · exact h.cells id c hget
      · intro ev hev v hv
        obtain ⟨c, ordinal, hget, hlog⟩ := h.values ev hev v hv
        have hne : ev.cell ≠ config.id := by
          intro heq
          rw [heq] at hget
          exact hfresh (HashMap.mem_iff_get?.mpr ⟨c, hget⟩)
        exact ⟨c, ordinal, by rw [HashMap.get?_insert_ne _ hne]; exact hget, hlog⟩
  | enabled => exact h.congr rfl rfl
  | cycled d =>
    obtain ⟨hid, hmode⟩ := h.cells _ _ d.before_eq
    obtain ⟨hmode', hlog', more, hcalls, hmore⟩ := GuestProgram.run_replay_frame
      (c := d.before.delivered) hmode d.ran_eq
    obtain ⟨hrecorder, hconfig⟩ := recorder_stored d
    have hran : d.ran.config = d.before.config := by
      rw [(GuestProgram.run_effect d.ran_eq).2]
      rfl
    have hstored : d.stored.recorder.log = d.before.recorder.log := by
      rw [hrecorder, hlog']
      rfl
    constructor
    · intro id c hget
      dsimp only at hget
      rw [d.cells_eq, HashMap.get?_insert] at hget
      split_ifs at hget with hthis
      · cases hget
        subst hthis
        exact ⟨by rw [hconfig, hran, hid], by rw [hrecorder, hmode']⟩
      · exact h.cells id c hget
    · intro ev hev v hv
      dsimp only at hev ⊢
      rw [hcalls] at hev
      rw [d.cells_eq]
      rcases List.mem_append.mp hev with hev | hev
      · obtain ⟨c, ordinal, hget, hfrom⟩ := h.values ev hev v hv
        by_cases hthis : ev.cell = d.id
        · rw [hthis, d.before_eq] at hget
          cases hget
          exact ⟨d.stored, ordinal, by rw [hthis, HashMap.get?_insert_self], by rw [hstored, hfrom]⟩
        · exact ⟨c, ordinal, by rw [HashMap.get?_insert_ne _ hthis, hget], hfrom⟩
      · obtain ⟨hthis, hvalue⟩ := hmore ev hev
        obtain ⟨ordinal, hfrom⟩ := hvalue v hv
        refine ⟨d.stored, ordinal, ?_, by rw [hstored]; exact hfrom⟩
        have hev : ev.cell = d.id := hthis.trans hid
        rw [hev, HashMap.get?_insert_self]
  | popped => exact h.congr rfl rfl
  | accepted => exact h.congr rfl rfl
  | refused => exact h.congr rfl rfl

theorem Sealed.run (h : Sealed w) (hactions : ∀ a ∈ actions, a.SpawnsReplay)
    (hrun : Transitions.run (World.step blake3 (guest.executor host)) w actions = .ok w') :
    Sealed w' :=
  run_invariant (fun a ha _ _ hw hs => hw.step (hactions a ha) hs) h hrun

/-- The cell is there and replays this log. -/
def ReplaysLog (id : CellId) (log : HashMap EventKey RecordedValue)
    (w : World (GuestState S Ω)) : Prop :=
  ∃ c, w.supervisor.cells.get? id = some c ∧ c.recorder.mode = .replay ∧ c.recorder.log = log

/-- No action gives a replaying cell another log. -/
theorem ReplaysLog.step {id : CellId} {log : HashMap EventKey RecordedValue}
    (h : ReplaysLog id log w) (hstep : World.step blake3 (guest.executor host) w a = .ok w') :
    ReplaysLog id log w' := by
  obtain ⟨c, hget, hmode, hlog⟩ := h
  cases step_cases hstep with
  | idle => exact ⟨c, hget, hmode, hlog⟩
  | @spawned _ config memory recorder haction hmemory hfresh =>
    have hne : id ≠ config.id := by
      rintro rfl
      exact hfresh (HashMap.mem_iff_get?.mpr ⟨c, hget⟩)
    exact ⟨c, by rw [HashMap.get?_insert_ne _ hne]; exact hget, hmode, hlog⟩
  | enabled => exact ⟨c, hget, hmode, hlog⟩
  | cycled d =>
    by_cases hthis : id = d.id
    · rw [hthis, d.before_eq] at hget
      cases hget
      obtain ⟨hmode', hlog', -⟩ := GuestProgram.run_replay_frame
        (c := d.before.delivered) hmode d.ran_eq
      obtain ⟨hrecorder, -⟩ := recorder_stored d
      refine ⟨d.stored, ?_, by rw [hrecorder, hmode'], by rw [hrecorder, hlog']; exact hlog⟩
      dsimp only
      rw [d.cells_eq, hthis, HashMap.get?_insert_self]
    · refine ⟨c, ?_, hmode, hlog⟩
      dsimp only
      rw [d.cells_eq, HashMap.get?_insert_ne _ hthis]
      exact hget
  | popped => exact ⟨c, hget, hmode, hlog⟩
  | accepted => exact ⟨c, hget, hmode, hlog⟩
  | refused => exact ⟨c, hget, hmode, hlog⟩

/-- The action spawns the cell with these entries, and is not refused. -/
def SpawnsWith (id : CellId) (entries : List (Tick × UInt64 × ReplayEntry))
    (w : World (GuestState S Ω)) (a : Action) : Prop :=
  ∃ config, a = .spawnReplay config entries ∧ config.id = id ∧ id ∉ w.supervisor.cells ∧
    id ∈ (w.supervisor.spawnReplayCell config entries).cells

theorem spawnsWith_of_step {id : CellId} (ha : a.SpawnsReplay)
    (hstep : World.step blake3 (guest.executor host) w a = .ok w')
    (hbefore : id ∉ w.supervisor.cells) (hafter : id ∈ w'.supervisor.cells) :
    ∃ entries, SpawnsWith id entries w a ∧ ReplaysLog id (fromReplayLog entries).log w' := by
  cases step_cases hstep with
  | idle => exact absurd hafter hbefore
  | @spawned _ config memory recorder haction hmemory hfresh =>
    rcases haction with ⟨mode, rfl, -⟩ | ⟨entries, rfl, rfl⟩
    · cases ha
    · obtain rfl : id = config.id := (Finmap.mem_insert.mp hafter).resolve_right hbefore
      have hspawned := congrArg (fun w => w.supervisor.cells) (Except.ok.inj hstep)
      dsimp only at hspawned
      refine ⟨entries, ⟨config, rfl, rfl, hbefore, by rw [hspawned]; exact hafter⟩, _,
        HashMap.get?_insert_self _ _ _, rfl, rfl⟩
  | enabled => exact absurd hafter hbefore
  | cycled d =>
    dsimp only at hafter
    rw [d.cells_eq] at hafter
    rcases Finmap.mem_insert.mp hafter with rfl | hold
    · exact absurd (HashMap.mem_iff_get?.mpr ⟨d.before, d.before_eq⟩) hbefore
    · exact absurd hold hbefore
  | popped => exact absurd hafter hbefore
  | accepted => exact absurd hafter hbefore
  | refused => exact absurd hafter hbefore

/-- A cell replays to its end the log that it was spawned with. -/
theorem replaysLog_of_run {id : CellId} (hactions : ∀ a ∈ actions, a.SpawnsReplay)
    (hbefore : id ∉ w.supervisor.cells) (hafter : id ∈ w'.supervisor.cells)
    (hrun : Transitions.run (World.step blake3 (guest.executor host)) w actions = .ok w') :
    ∃ entries, Occurs (World.step blake3 (guest.executor host)) w actions
        (SpawnsWith id entries) ∧ ReplaysLog id (fromReplayLog entries).log w' := by
  obtain ⟨pre, a, post, t, t', rfl, hpre, hstep, hpost, hnot, hgain⟩ :=
    exists_step_of_run (P := fun w => id ∈ w.supervisor.cells) hbefore hafter hrun
  obtain ⟨entries, hspawns, hlog⟩ := spawnsWith_of_step (hactions a (by simp)) hstep hnot hgain
  exact ⟨entries, ⟨pre, a, post, t, rfl, hpre, hspawns⟩,
    run_invariant (fun _ _ _ _ hw hs => hw.step hs) hlog hpost⟩

/-- One action of a sealed world, on one host and on another. -/
theorem Sealed.step_withHost (h : Sealed w) (blake3 : Blake3) (guest : Guest S)
    (host : HostSource Ω) (host' : HostSource Ω') (ω' : Ω') (a : Action) :
    World.step blake3 (guest.executor host') (w.withHost ω') a =
      (World.step blake3 (guest.executor host) w a).map fun w => w.withHost ω' := by
  cases a with
  | spawn config mode => rfl
  | spawnReplay config entries => rfl
  | enableReplication cap =>
    unfold World.step withHost
    dsimp only
    cases w.supervisor.enableReplication cap <;> rfl
  | cycle visit =>
    have hsame : Supervisor.SameQuanta (guest.executor host) (guest.executor host')
        (fun e => e.withHost ω') w.supervisor w.executor := by
      constructor
      · intro id cell hget n
        exact GuestProgram.run_replay_host host host' _ _ _ _ (h.cells id cell hget).2
      · intro e cell
        rfl
    unfold World.step
    have hcycle := hsame.runOneCycle blake3 visit
    have hquantum := hsame.quantumOf
    unfold withHost observeQuantum observeFlush
    simp only [hcycle, hquantum]
    cases w.supervisor.runOneCycle blake3 (guest.executor host) visit w.executor <;> rfl
  | pop =>
    unfold World.step withHost
    dsimp only
    cases w.supervisor.replication with
    | none => rfl
    | some ring =>
      dsimp only
      rcases ring.pop with ⟨_ | batch, ring'⟩ <;> rfl
  | apply =>
    unfold World.step withHost
    dsimp only
    cases hinflight : w.inflight with
    | nil => simp [Except.map, hinflight]
    | cons batch rest =>
      dsimp only
      cases w.standby.applyBatch batch <;> rfl

/-- A whole run of a sealed world, on one host and on another. -/
theorem Sealed.run_withHost (h : Sealed w) (blake3 : Blake3) (guest : Guest S)
    (host : HostSource Ω) (host' : HostSource Ω') (ω' : Ω')
    (hactions : ∀ a ∈ actions, a.SpawnsReplay) :
    Transitions.run (World.step blake3 (guest.executor host')) (w.withHost ω') actions =
      (Transitions.run (World.step blake3 (guest.executor host)) w actions).map
        fun w => w.withHost ω' := by
  induction actions generalizing w with
  | nil => rfl
  | cons a actions ih =>
    unfold Transitions.run
    rw [h.step_withHost blake3 guest host host' ω' a]
    cases hstep : World.step blake3 (guest.executor host) w a with
    | error p => rfl
    | ok w₁ =>
      have hnext : Sealed w₁ := h.step (hactions a List.mem_cons_self) hstep
      exact ih hnext fun b hb => hactions b (List.mem_cons_of_mem a hb)

/-- Replay is hermetic. A run in which every cell is spawned with a log is, on any other host
and in any other state of it, the same run, down to the panic it may end in. The host is never
consulted, so its state is what it was at the start, and every value that a guest was given is the
last entry under a key of its tick in the very log that its cell came into being with. -/
theorem replay_hermetic (blake3 : Blake3) (guest : Guest S) (host : HostSource Ω)
    (host' : HostSource Ω') (max : UInt64) (state : S) (ω : Ω) (ω' : Ω') (pages : ℕ)
    (actions : List Action) (hactions : ∀ a ∈ actions, a.SpawnsReplay) :
    Transitions.run (World.step blake3 (guest.executor host')) (new max ⟨state, ω', []⟩ pages)
        actions =
      (Transitions.run (World.step blake3 (guest.executor host)) (new max ⟨state, ω, []⟩ pages)
        actions).map (fun w => w.withHost ω') ∧
    ∀ w, Transitions.run (World.step blake3 (guest.executor host)) (new max ⟨state, ω, []⟩ pages)
        actions = .ok w →
      w.executor.host = ω ∧
      ∀ ev ∈ w.executor.calls, ∀ v, ev.result = .ok v →
        ∃ entries ordinal, Occurs (World.step blake3 (guest.executor host))
            (new max ⟨state, ω, []⟩ pages) actions (SpawnsWith ev.cell entries) ∧
          lastEntry entries ⟨ev.call.tick, ordinal⟩ = some v := by
  have hsealed := sealed_new max state ω pages
  refine ⟨hsealed.run_withHost blake3 guest host host' ω' hactions, ?_⟩
  intro w hrun
  constructor
  · -- on its own host the run is its own image, and the image holds the first host state
    have hsame := hsealed.run_withHost blake3 guest host host ω hactions
    have himage : Transitions.run (World.step blake3 (guest.executor host))
        (new max ⟨state, ω, []⟩ pages) actions = .ok (w.withHost ω) := by
      rw [hrun] at hsame
      exact hsame
    rw [hrun, Except.ok.injEq] at himage
    rw [himage]
    rfl
  · intro ev hev v hv
    obtain ⟨c, ordinal, hget, hfrom⟩ := (hsealed.run hactions hrun).values ev hev v hv
    have hafter : ev.cell ∈ w.supervisor.cells := HashMap.mem_iff_get?.mpr ⟨c, hget⟩
    obtain ⟨entries, hspawns, c', hget', -, hlog⟩ :=
      replaysLog_of_run hactions Finmap.notMem_empty hafter hrun
    obtain rfl : c = c' := Option.some.inj (hget.symm.trans hget')
    rw [hlog, get?_fromReplayLog] at hfrom
    exact ⟨entries, ordinal, hspawns, hfrom⟩

/-- One reading that the log holds and one that it does not, on a still clock and on a host
that counts how often it is consulted. A second spawn of the cell, with another log, is
refused. -/
theorem replay_hermetic_missing_entry :
    ∃ actions w, actions = [.spawnReplay ⟨1, 4096, 4096, 1⟩ [(1, 0, .clock 40)],
        .spawnReplay ⟨1, 4096, 4096, 1⟩ [(1, 0, .clock 50)], .ascendingCycle, .ascendingCycle] ∧
      Transitions.run Guest.scriptedStep (Guest.scriptedWorld [.stamp 1 5, .stamp 2 6]) actions =
        .ok w ∧
      w.executor.calls.map HostEvent.result = [.ok (.clock 40), .error (.missingEntry 2 0)] ∧
      Transitions.run (World.step (fun _ _ => 0) (Guest.scripted.executor
          (⟨fun n => (0, n + 1), fun n buf => (buf, n + 1), fun _ _ => rfl⟩ : HostSource ℕ)))
        (new 100 ⟨[.stamp 1 5, .stamp 2 6], 0, []⟩ 1) actions = .ok (w.withHost 0) ∧
      ∀ ev ∈ w.executor.calls, ∀ v, ev.result = .ok v →
        ∃ entries ordinal, Occurs Guest.scriptedStep (Guest.scriptedWorld [.stamp 1 5, .stamp 2 6])
            actions (SpawnsWith ev.cell entries) ∧
          lastEntry entries ⟨ev.call.tick, ordinal⟩ = some v := by
  have hreturns : returnsWith
      (Transitions.run Guest.scriptedStep (Guest.scriptedWorld [.stamp 1 5, .stamp 2 6])
        [.spawnReplay ⟨1, 4096, 4096, 1⟩ [(1, 0, .clock 40)],
          .spawnReplay ⟨1, 4096, 4096, 1⟩ [(1, 0, .clock 50)], .ascendingCycle, .ascendingCycle])
      (fun w => decide (w.executor.calls.map HostEvent.result =
        [.ok (.clock 40), .error (.missingEntry 2 0)])) = true := by
    decide +kernel
  obtain ⟨w, hrun, hresults⟩ := returnsWith_eq_true.mp hreturns
  obtain ⟨hsame, hvalues⟩ := replay_hermetic (fun _ _ => 0) Guest.scripted (HostSource.frozen 7)
    (⟨fun n => (0, n + 1), fun n buf => (buf, n + 1), fun _ _ => rfl⟩ : HostSource ℕ) 100
    [.stamp 1 5, .stamp 2 6] () 0 1
    [.spawnReplay ⟨1, 4096, 4096, 1⟩ [(1, 0, .clock 40)],
      .spawnReplay ⟨1, 4096, 4096, 1⟩ [(1, 0, .clock 50)], .ascendingCycle, .ascendingCycle]
    (by simp [Action.SpawnsReplay])
  refine ⟨_, w, rfl, hrun, of_decide_eq_true hresults, ?_, (hvalues w hrun).2⟩
  rw [hsame, hrun]
  rfl

end World
end ChronosUvm
