import Mathlib.Tactic
import ChronosUvm.Core.ReplayQuantum
import ChronosUvm.Core.Transit

/-!
A whole run recorded and replayed. The two runs share the spawns and the number of
cycles; hosts, rings, consumers and table orders may all differ. Because of the rings
the dirty sets drift apart, but only in pages whose leaf is stored and current, so
that every checkpoint of the one run is a checkpoint of the other.
-/
namespace ChronosUvm
open Panicking Tables Transitions EventRecorder

namespace Cell
variable {blake3 : Blake3} {log : HashMap EventKey RecordedValue} {c c' : Cell}

theorem Replays.delivered (h : Replays blake3 log c c') :
    Replays blake3 log c.delivered c'.delivered := h.alike.delivered.replays h.recorder h.log_eq

end Cell

namespace Action

/-- In a recorded run every cell is spawned in record mode. -/
def Records : Action → Prop
  | .spawn _ mode => mode = .record
  | .spawnReplay _ _ => False
  | .enableReplication _ | .cycle _ | .pop | .apply => True

/-- In a replayed run every cell is spawned with its log, and rings have room for a batch. -/
def ReplaysFrom (logs : CellId → List (Tick × UInt64 × ReplayEntry)) : Action → Prop
  | .spawn _ _ => False
  | .spawnReplay config entries => entries = logs config.id
  | .enableReplication ringCapacity => 0 < ringCapacity
  | .cycle _ | .pop | .apply => True

end Action

namespace World
variable {S Ω Ω' : Type} {blake3 : Blake3} {guest : Guest S} {host : HostSource Ω}
  {host' : HostSource Ω'} {w w' final : World (GuestState S Ω)} {a : Action}

/-- The record of host calls only grows. -/
theorem calls_step (hstep : World.step blake3 (guest.executor host) w a = .ok w') :
    ∃ more, w'.executor.calls = w.executor.calls ++ more := by
  cases step_cases hstep with
  | idle => exact ⟨[], (List.append_nil _).symm⟩
  | spawned => exact ⟨[], (List.append_nil _).symm⟩
  | enabled => exact ⟨[], (List.append_nil _).symm⟩
  | cycled d =>
    obtain ⟨more, hmore, -⟩ := GuestProgram.run_calls d.ran_eq
    exact ⟨more, hmore⟩
  | popped => exact ⟨[], (List.append_nil _).symm⟩
  | accepted => exact ⟨[], (List.append_nil _).symm⟩
  | refused => exact ⟨[], (List.append_nil _).symm⟩

/-- No tick discipline is broken in the calls made so far. -/
def Disciplined (w : World (GuestState S Ω)) : Prop :=
  ∀ id, NoReturn (callTicks id w.executor.calls)

theorem Disciplined.before (h : Disciplined w')
    (hstep : World.step blake3 (guest.executor host) w a = .ok w') : Disciplined w := by
  obtain ⟨more, hmore⟩ := calls_step hstep
  intro id
  have hticks := h id
  rw [hmore, callTicks_append] at hticks
  exact hticks.left

theorem Disciplined.before_run {actions : List Action} (h : Disciplined final)
    (hrun : run (World.step blake3 (guest.executor host)) w actions = .ok final) :
    Disciplined w := by
  induction actions generalizing w with
  | nil =>
    cases hrun
    exact h
  | cons a actions ih =>
    obtain ⟨t, hstep, hrest⟩ := run_cons_eq_ok.mp hrun
    exact (ih hrest).before hstep

/-- Every cell has its own id and a recorder in record mode that holds all its calls. -/
structure Recording (w : World (GuestState S Ω)) : Prop where
  cells : ∀ id c, w.supervisor.cells.get? id = some c →
    c.config.id = id ∧ Recorded (callTicks id w.executor.calls) c.recorder
  calls : ∀ ev ∈ w.executor.calls,
    ev.cell ∈ w.supervisor.cells ∧ ∃ value, ev.result = .ok value

theorem recording_new (max : UInt64) (state : S) (ω : Ω) (pages : ℕ) :
    Recording (new max (⟨state, ω, []⟩ : GuestState S Ω) pages) where
  cells _ _ h := by cases h
  calls _ h := by cases h

/-- No cell is lost, and no cell's log loses an entry. -/
def LogsExtend (w w' : World (GuestState S Ω)) : Prop :=
  ∀ id c, w.supervisor.cells.get? id = some c →
    ∃ c', w'.supervisor.cells.get? id = some c' ∧ Extends c.recorder.log c'.recorder.log

theorem LogsExtend.refl (w : World (GuestState S Ω)) : LogsExtend w w :=
  fun _ c hc => ⟨c, hc, fun _ _ hv => hv⟩

/-- A spawn in record mode: the fresh id has made no calls yet. -/
theorem Recording.spawned (h : Recording w) {config : CellConfig} {memory : MmapGuardedMemory}
    (hfresh : config.id ∉ w.supervisor.cells) {w' : World (GuestState S Ω)}
    (hcells : w'.supervisor.cells = w.supervisor.cells.insert config.id ⟨config, memory,
      .new .record, CheckpointChain.new, FdTable.new, PendingCompletions.new, 0⟩)
    (hcalls : w'.executor.calls = w.executor.calls) : Recording w' ∧ LogsExtend w w' := by
  refine ⟨⟨?_, ?_⟩, ?_⟩
  · intro id c hget
    rw [hcells, HashMap.get?_insert] at hget
    rw [hcalls]
    split_ifs at hget with hid
    · cases hget
      subst hid
      have hnone : callTicks config.id w.executor.calls = [] := by
        apply callTicks_other
        rintro ev hev heq
        exact hfresh (heq ▸ (h.calls ev hev).1)
      exact ⟨rfl, by rw [hnone]; exact recorded_new⟩
    · exact h.cells id c hget
  · intro ev hev
    rw [hcalls] at hev
    rw [hcells]
    exact ⟨Finmap.mem_insert.mpr (.inr (h.calls ev hev).1), (h.calls ev hev).2⟩
  · intro id c hget
    refine ⟨c, ?_, fun _ _ hv => hv⟩
    have hne : id ≠ config.id := by
      rintro rfl
      exact hfresh (HashMap.mem_iff_get?.mpr ⟨c, hget⟩)
    rw [hcells, HashMap.get?_insert_ne _ hne]
    exact hget

/-- A cycle: the dispatched cell records its calls, and the others make none. -/
theorem Recording.cycled (h : Recording w) {visit : VisitOrder} {s' : Supervisor}
    {e' : GuestState S Ω} {reported : Except SupervisorError (Option (CellId × Tick))}
    (d : Supervisor.Dispatch blake3 (guest.executor host) visit w.supervisor s' w.executor e'
      reported) {w' : World (GuestState S Ω)} (hsupervisor : w'.supervisor = s')
    (hexecutor : w'.executor = e') (hdisciplined : Disciplined w') :
    Recording w' ∧ LogsExtend w w' := by
  subst hsupervisor hexecutor
  obtain ⟨more, hmore, hcell⟩ := GuestProgram.run_calls d.ran_eq
  obtain ⟨hid, hrecorded⟩ := h.cells d.id d.before d.before_eq
  obtain ⟨hrecorder, hconfig⟩ := recorder_stored d
  have hid' : d.before.delivered.config.id = d.id := hid
  have hran := congrArg Cell.config (GuestProgram.run_effect d.ran_eq).2
  obtain ⟨hrecorded', hext⟩ := GuestProgram.run_recorded d.ran_eq
    (by rw [hid']; exact hrecorded) (hdisciplined _)
  rw [hid'] at hrecorded'
  refine ⟨⟨?_, ?_⟩, ?_⟩
  · intro id c hget
    rw [d.cells_eq, HashMap.get?_insert] at hget
    split_ifs at hget with hcase
    · cases hget
      subst hcase
      rw [hconfig, hran, hrecorder]
      exact ⟨hid, hrecorded'⟩
    · obtain ⟨hold, hrec⟩ := h.cells id c hget
      refine ⟨hold, ?_⟩
      have hnone : callTicks id more = [] := by
        apply callTicks_other
        intro ev hev
        rw [(hcell ev hev).1, hid']
        exact Ne.symm hcase
      rw [hmore, callTicks_append, hnone, List.append_nil]
      exact hrec
  · intro ev hev
    rw [d.cells_eq]
    rw [hmore] at hev
    rcases List.mem_append.mp hev with hev | hev
    · exact ⟨Finmap.mem_insert.mpr (.inr (h.calls ev hev).1), (h.calls ev hev).2⟩
    · exact ⟨Finmap.mem_insert.mpr (.inl ((hcell ev hev).1.trans hid')),
        (hcell ev hev).2 hrecorded.mode_eq⟩
  · intro id c hget
    by_cases hcase : id = d.id
    · subst hcase
      obtain rfl : c = d.before := Option.some.inj (hget.symm.trans d.before_eq)
      refine ⟨d.stored, by rw [d.cells_eq, HashMap.get?_insert_self], ?_⟩
      rw [hrecorder]
      exact hext
    · refine ⟨c, ?_, fun _ _ hv => hv⟩
      rw [d.cells_eq, HashMap.get?_insert_ne _ hcase]
      exact hget

theorem Recording.step (h : Recording w) (ha : a.Records) (hdisciplined : Disciplined w')
    (hstep : World.step blake3 (guest.executor host) w a = .ok w') :
    Recording w' ∧ LogsExtend w w' := by
  cases step_cases hstep with
  | idle => exact ⟨h, .refl _⟩
  | @spawned _ config memory recorder haction hmemory hfresh =>
    obtain rfl : recorder = .new .record := by
      rcases haction with ⟨mode, rfl, hnew⟩ | ⟨entries, rfl, -⟩
      · rw [hnew, show mode = .record from ha]
      · exact ha.elim
    exact h.spawned hfresh rfl rfl
  | enabled => exact ⟨⟨h.cells, h.calls⟩, .refl _⟩
  | cycled d => exact h.cycled d rfl rfl hdisciplined
  | popped => exact ⟨⟨h.cells, h.calls⟩, .refl _⟩
  | accepted => exact ⟨⟨h.cells, h.calls⟩, .refl _⟩
  | refused => exact ⟨⟨h.cells, h.calls⟩, .refl _⟩

/-- What the end of a recorded run says about a world on the way to it. -/
theorem Recording.of_reaches (h : Recording w) (hdisciplined : Disciplined final)
    (hreach : Reaches (World.step blake3 (guest.executor host)) Action.Records w final) :
    Disciplined w ∧ LogsExtend w final := by
  obtain ⟨actions, hactions, hrun⟩ := hreach
  induction actions generalizing w with
  | nil =>
    cases hrun
    exact ⟨hdisciplined, .refl _⟩
  | cons a actions ih =>
    obtain ⟨t, hstep, hrest⟩ := run_cons_eq_ok.mp hrun
    have hrecords : ∀ b ∈ actions, b.Records := fun b hb => hactions b (List.mem_cons_of_mem _ hb)
    -- the discipline is inherited backwards from the end, the invariant forwards
    have hdis : Disciplined t := hdisciplined.before_run hrest
    obtain ⟨ht, hext⟩ := h.step (hactions a List.mem_cons_self) hdis hstep
    obtain ⟨-, hext'⟩ := ih ht hrecords hrest
    refine ⟨hdis.before hstep, ?_⟩
    intro id c hc
    obtain ⟨c₁, hc₁, hlog₁⟩ := hext id c hc
    obtain ⟨c₂, hc₂, hlog₂⟩ := hext' id c₁ hc₁
    exact ⟨c₂, hc₂, fun key v hv => hlog₂ key v (hlog₁ key v hv)⟩

/-- A world that replays another one: the same schedule, the same guests, the same calls
and results, and every cell a replay of its counterpart. -/
structure Replaying (blake3 : Blake3) (logs : CellId → List (Tick × UInt64 × ReplayEntry))
    (w : World (GuestState S Ω)) (w' : World (GuestState S Ω')) : Prop where
  recording : Recording w
  scheduler_eq : w'.supervisor.scheduler = w.supervisor.scheduler
  max_eq : w'.supervisor.maxInstructionsPerQuantum = w.supervisor.maxInstructionsPerQuantum
  state_eq : w'.executor.state = w.executor.state
  calls_eq : w'.executor.calls = w.executor.calls
  cells_some : ∀ id c, w.supervisor.cells.get? id = some c →
    ∃ c', w'.supervisor.cells.get? id = some c' ∧
      c.Replays blake3 (fromReplayLog (logs id)).log c'
  cells_none : ∀ id, w.supervisor.cells.get? id = none → w'.supervisor.cells.get? id = none

variable {logs : CellId → List (Tick × UInt64 × ReplayEntry)} {u : World (GuestState S Ω)}
  {v v' : World (GuestState S Ω')}

/-- Rings, consumers and standbys make no difference. -/
theorem Replaying.congr (h : Replaying blake3 logs w v) {ring ring' : Option DeltaRing}
    (hsupervisor : u.supervisor = { w.supervisor with replication := ring })
    (hexecutor : u.executor = w.executor)
    (hsupervisor' : v'.supervisor = { v.supervisor with replication := ring' })
    (hexecutor' : v'.executor = v.executor) : Replaying blake3 logs u v' := by
  have hrecording : Recording u := by
    constructor
    · rw [hsupervisor, hexecutor]
      exact h.recording.cells
    · rw [hsupervisor, hexecutor]
      exact h.recording.calls
  refine ⟨hrecording, ?_, ?_, ?_, ?_, ?_, ?_⟩
  · rw [hsupervisor, hsupervisor', h.scheduler_eq]
  · rw [hsupervisor, hsupervisor', h.max_eq]
  · rw [hexecutor, hexecutor', h.state_eq]
  · rw [hexecutor, hexecutor', h.calls_eq]
  · rw [hsupervisor, hsupervisor']
    exact h.cells_some
  · rw [hsupervisor, hsupervisor']
    exact h.cells_none

theorem Replaying.left (h : Replaying blake3 logs w v) (ha : a.visible = none)
    (hstep : World.step blake3 (guest.executor host) w a = .ok u) :
    Replaying blake3 logs u v := by
  obtain ⟨⟨ring, hsupervisor⟩, hexecutor, -⟩ := invisible_step ha hstep
  exact h.congr hsupervisor hexecutor rfl rfl

theorem Replaying.right (h : Replaying blake3 logs w v) (ha : a.visible = none)
    (hstep : World.step blake3 (guest.executor host') v a = .ok v') :
    Replaying blake3 logs w v' := by
  obtain ⟨⟨ring, hsupervisor⟩, hexecutor, -⟩ := invisible_step ha hstep
  exact h.congr rfl rfl hsupervisor hexecutor

/-- Rings and consumers never stop a replay. -/
theorem invisible_returns {E : Type} {executor : QuantumExecutor E} {x : World E}
    (hx : Deliverable x) (ha : a.visible = none) (hring : a.ReplaysFrom logs) :
    ∃ x', World.step blake3 executor x a = .ok x' := by
  cases a with
  | spawn config mode => cases ha
  | spawnReplay config entries => cases ha
  | cycle visit => cases ha
  | enableReplication capacity =>
    have hpos : 0 < capacity := hring
    unfold World.step
    simp only [Supervisor.enableReplication, DeltaRing.new,
      BoundedQueue.ArrayQueue.new, if_pos hpos, ok_bind, pure_ok]
    exact ⟨_, rfl⟩
  | pop =>
    simp only [World.step]
    split
    · exact ⟨_, rfl⟩
    · split
      · exact ⟨_, rfl⟩
      · exact ⟨_, rfl⟩
  | apply =>
    simp only [World.step]
    split
    · exact ⟨_, rfl⟩
    · next batch rest hinflight =>
      have hroom : batch.Resizable := by
        apply hx
        rw [hinflight]
        exact List.mem_append_left _ List.mem_cons_self
      obtain ⟨r, hr⟩ := x.standby.applyBatch_returns hroom
      rw [hr]
      exact ⟨_, rfl⟩

/-- A spawn in record mode and the spawn of the replaying cell. -/
theorem Replaying.spawn (h : Replaying blake3 logs w v) (config : CellConfig)
    (hrecording : Recording
      { w with supervisor := w.supervisor.spawnWith config (EventRecorder.new .record) }) :
    Replaying blake3 logs
      { w with supervisor := w.supervisor.spawnWith config (EventRecorder.new .record) }
      { v with supervisor := v.supervisor.spawnWith config (fromReplayLog (logs config.id)) } := by
  have hmem : config.id ∈ v.supervisor.cells ↔ config.id ∈ w.supervisor.cells := by
    rw [HashMap.mem_iff_get?, HashMap.mem_iff_get?]
    constructor
    · rintro ⟨c', hc'⟩
      cases hc : w.supervisor.cells.get? config.id with
      | none =>
        rw [h.cells_none _ hc] at hc'
        cases hc'
      | some c => exact ⟨c, rfl⟩
    · rintro ⟨c, hc⟩
      obtain ⟨c', hc', -⟩ := h.cells_some _ c hc
      exact ⟨c', hc'⟩
  revert hrecording
  unfold Supervisor.spawnWith
  simp only [hmem]
  split_ifs with hcase
  · intro hrecording
    exact ⟨hrecording, h.scheduler_eq, h.max_eq, h.state_eq, h.calls_eq, h.cells_some, h.cells_none⟩
  · cases hnew : MmapGuardedMemory.new config.initialMemoryBytes config.quotaBytes with
    | error fault =>
      intro hrecording
      exact ⟨hrecording, h.scheduler_eq, h.max_eq, h.state_eq, h.calls_eq, h.cells_some,
        h.cells_none⟩
    | ok memory =>
      intro hrecording
      refine ⟨hrecording, ?_, h.max_eq, h.state_eq, h.calls_eq, ?_, ?_⟩
      · simp only [h.scheduler_eq]
      · intro id c hget
        rw [HashMap.get?_insert] at hget ⊢
        split_ifs at hget ⊢ with hid
        · cases hget
          subst hid
          exact ⟨_, rfl, (Cell.alike_fresh blake3 config memory _ _).replays ⟨rfl, rfl, rfl⟩ rfl⟩
        · exact h.cells_some id c hget
      · intro id hget
        rw [HashMap.get?_insert] at hget ⊢
        split_ifs at hget ⊢ with hid
        exact h.cells_none id hget

/-- The two dispatches of a cycle and of its replay: the same turn, and a replaying cell. -/
theorem Replaying.dispatch (h : Replaying blake3 logs w v) {visit visit' : VisitOrder}
    {s : Supervisor} {s' : Supervisor} {e : GuestState S Ω} {e' : GuestState S Ω'}
    {reported reported' : Except SupervisorError (Option (CellId × Tick))}
    (d : Supervisor.Dispatch blake3 (guest.executor host) visit w.supervisor s w.executor e
      reported)
    (d' : Supervisor.Dispatch blake3 (guest.executor host') visit' v.supervisor s' v.executor e'
      reported')
    (hstate : e'.state = e.state) {c' ran' : Cell} {log : HashMap EventKey RecordedValue}
    (hbefore : v.supervisor.cells.get? d.id = some c') (hreplays : d.before.Replays blake3 log c')
    (hran : (guest.executor host').runQuantum v.executor c'.delivered
      v.supervisor.maxInstructionsPerQuantum = .ok (d.result, ran', e'))
    (hran' : d.ran.Replays blake3 log ran') :
    d'.id = d.id ∧ d'.rest = d.rest ∧ d'.tick = d.tick ∧ d.stored.Replays blake3 log d'.stored := by
  obtain ⟨hid, hrest, htick⟩ := d.turn_eq d' h.scheduler_eq
  have hcell : d'.before = c' := by
    have hget := d'.before_eq
    rw [hid, hbefore] at hget
    exact (Option.some.inj hget).symm
  obtain ⟨hresult, hranEq⟩ : d'.result = d.result ∧ d'.ran = ran' := by
    have hrun := d'.ran_eq
    rw [hcell, hran] at hrun
    simp only [Except.ok.injEq, Prod.mk.injEq] at hrun
    exact ⟨hrun.1.symm, hrun.2.1.symm⟩
  have hdigest : (guest.executor host').registerDigest e' ran' =
      (guest.executor host).registerDigest e d.ran := by
    show guest.registerDigest e'.state ran'.view = guest.registerDigest e.state d.ran.view
    rw [hstate, hran'.alike.view_eq]
  have hended := d'.ended
  rw [hcell, htick, hid, hresult, hranEq, hdigest, hreplays.alike.checkpointDue_eq] at hended
  refine ⟨hid, hrest, htick, (hran'.alike.cycleEnd d.ended hended).replays ?_ ?_⟩
  · rw [(recorder_stored d).1, (recorder_stored d').1, hranEq]
    exact hran'.recorder
  · rw [(recorder_stored d').1, hranEq]
    exact hran'.log_eq

theorem Replaying.cycle (h : Replaying blake3 logs w v) {visit : VisitOrder}
    (host' : HostSource Ω') (visit' : VisitOrder)
    (hstep : World.step blake3 (guest.executor host) w (.cycle visit) = .ok u)
    (hrecording : Recording u) (hdisciplined : Disciplined u)
    (hlogs : ∀ id c, u.supervisor.cells.get? id = some c →
      Extends c.recorder.log (fromReplayLog (logs id)).log) :
    ∃ v', World.step blake3 (guest.executor host') v (.cycle visit') = .ok v' ∧
      Replaying blake3 logs u v' := by
  obtain ⟨⟨reported, s, e⟩, hcycle, hu⟩ := bind_returned.mp hstep
  cases hu
  rcases Supervisor.runOneCycle_cases hcycle with ⟨horder, -, rfl, rfl⟩ | ⟨⟨d⟩⟩
  · have hidle := Supervisor.runOneCycle_idle blake3 (guest.executor host') visit' v.executor
      (h.scheduler_eq ▸ horder)
    refine ⟨_, bind_returned.mpr ⟨_, hidle, rfl⟩, hrecording, h.scheduler_eq, h.max_eq, h.state_eq,
      h.calls_eq, h.cells_some, h.cells_none⟩
  · obtain ⟨c', hbefore, hreplays⟩ := h.cells_some d.id d.before d.before_eq
    obtain ⟨hid, hrecorded⟩ := h.recording.cells d.id d.before d.before_eq
    have hid' : d.before.delivered.config.id = d.id := hid
    have hext : Extends d.ran.recorder.log (fromReplayLog (logs d.id)).log := by
      rw [← (recorder_stored d).1]
      apply hlogs d.id d.stored
      rw [d.cells_eq, HashMap.get?_insert_self]
    obtain ⟨ran', hrun', hran'⟩ := GuestProgram.run_replayed host' v.executor.host d.ran_eq
      (by rw [hid']; exact hrecorded) (hdisciplined _) hext hreplays.delivered
    have hquantum : (guest.executor host').runQuantum v.executor c'.delivered
        v.supervisor.maxInstructionsPerQuantum =
          .ok (d.result, ran', ⟨e.state, v.executor.host, e.calls⟩) := by
      show (guest.program v.executor.state c'.delivered.view _).run host' _ _ _ = _
      rw [h.state_eq, hreplays.delivered.alike.view_eq, h.max_eq, h.calls_eq]
      exact hrun'
    obtain ⟨reported', s', hcycle'⟩ := Supervisor.runOneCycle_returns blake3 visit'
      (h.scheduler_eq ▸ d.order_eq) (h.scheduler_eq ▸ d.tick_eq) hbefore hquantum
    rcases Supervisor.runOneCycle_cases hcycle' with ⟨horder', -⟩ | ⟨⟨d'⟩⟩
    · rw [h.scheduler_eq, d.order_eq] at horder'
      cases horder'
    · obtain ⟨hsame, hrest, htick, hstored⟩ :=
        h.dispatch d d' rfl hbefore hreplays hquantum hran'
      refine ⟨_, bind_returned.mpr ⟨_, hcycle', rfl⟩, hrecording, ?_, ?_, rfl, rfl, ?_, ?_⟩
      · show s'.scheduler = s.scheduler
        rw [d'.scheduler_eq, d.scheduler_eq, hsame, hrest, htick]
      · show s'.maxInstructionsPerQuantum = s.maxInstructionsPerQuantum
        rw [d'.max_eq, d.max_eq, h.max_eq]
      · intro id c hget
        rw [d.cells_eq, HashMap.get?_insert] at hget
        rw [d'.cells_eq, hsame, HashMap.get?_insert]
        split_ifs at hget ⊢ with hcase
        · cases hget
          subst hcase
          exact ⟨d'.stored, rfl, hstored⟩
        · exact h.cells_some id c hget
      · intro id hget
        rw [d.cells_eq, HashMap.get?_insert] at hget
        rw [d'.cells_eq, hsame, HashMap.get?_insert]
        split_ifs at hget ⊢ with hcase
        exact h.cells_none id hget

/-- A spawn or a cycle of a recorded run, and its counterpart in the replay. -/
theorem Replaying.visible_step (h : Replaying blake3 logs w v) (host' : HostSource Ω')
    {a a' : Action} {b : Option CellConfig} (ha : a.Records) (ha' : a'.ReplaysFrom logs)
    (hb : a.visible = some b) (hb' : a'.visible = some b)
    (hstep : World.step blake3 (guest.executor host) w a = .ok u) (hdisciplined : Disciplined u)
    (hlogs : ∀ id c, u.supervisor.cells.get? id = some c →
      Extends c.recorder.log (fromReplayLog (logs id)).log) :
    ∃ v', World.step blake3 (guest.executor host') v a' = .ok v' ∧
      Replaying blake3 logs u v' := by
  obtain ⟨hrecording, -⟩ := h.recording.step ha hdisciplined hstep
  cases a with
  | spawnReplay config entries => exact ha.elim
  | enableReplication capacity => cases hb
  | pop => cases hb
  | apply => cases hb
  | spawn config mode =>
    obtain rfl : mode = .record := ha
    cases hb
    cases hstep
    cases a' with
    | spawn config' mode' => exact ha'.elim
    | spawnReplay config' entries =>
      cases hb'
      obtain rfl : entries = logs config.id := ha'
      refine ⟨_, rfl, ?_⟩
      rw [Supervisor.spawnReplayCell_eq_spawnWith]
      rw [Supervisor.spawnCell_eq_spawnWith] at hrecording ⊢
      exact h.spawn config hrecording
    | enableReplication capacity => cases hb'
    | cycle visit' => cases hb'
    | pop => cases hb'
    | apply => cases hb'
  | cycle visit =>
    cases hb
    cases a' with
    | spawn config' mode' => cases hb'
    | spawnReplay config' entries => cases hb'
    | enableReplication capacity => cases hb'
    | cycle visit' => exact h.cycle host' visit' hstep hrecording hdisciplined hlogs
    | pop => cases hb'
    | apply => cases hb'

/-- Up to any moment of a recorded run, the replay from the logs of its end returns and is in
step with it. -/
theorem replaying_of_moment {max : UInt64} {state : S} {ω : Ω} {pages : ℕ}
    {before after : List Action} {t : World (GuestState S Ω)}
    (hrecords : ∀ a ∈ before ++ after, a.Records)
    (hbefore : run (World.step blake3 (guest.executor host)) (new max ⟨state, ω, []⟩ pages)
      before = .ok t)
    (hafter : run (World.step blake3 (guest.executor host)) t after = .ok w)
    (hticks : ∀ id, NoReturn (callTicks id w.executor.calls))
    (hlogs : ∀ id c, w.supervisor.cell id = some c →
      ∃ order, logs id = c.recorder.exportLog order)
    (host' : HostSource Ω') (ω' : Ω') (pages' : ℕ) {actions' : List Action}
    (hreplays : ∀ a ∈ actions', a.ReplaysFrom logs)
    (hsame : actions'.filterMap Action.visible = before.filterMap Action.visible) :
    ∃ w', run (World.step blake3 (guest.executor host'))
        (new max (⟨state, ω', []⟩ : GuestState S Ω') pages') actions' = .ok w' ∧
      Replaying blake3 logs t w' := by
  have hstart : Replaying blake3 logs (new max ⟨state, ω, []⟩ pages)
      (new max (⟨state, ω', []⟩ : GuestState S Ω') pages') :=
    ⟨recording_new max state ω pages, rfl, rfl, rfl, rfl, fun _ _ h => (by cases h), fun _ h => h⟩
  -- from a step before the moment the recorded run goes on to its end
  have hon {u : World (GuestState S Ω)}
      (hreach : Reaches (World.step blake3 (guest.executor host)) Action.Records u t) :
      Reaches (World.step blake3 (guest.executor host)) Action.Records u w := by
    obtain ⟨rest, hrest, hrun⟩ := hreach
    refine ⟨rest ++ after, ?_, run_append_eq_ok.mpr ⟨t, hrun, hafter⟩⟩
    intro a ha
    rcases List.mem_append.mp ha with ha | ha
    · exact hrest a ha
    · exact hrecords a (List.mem_append_right _ ha)
  have hinvisible (a' : Action) (u : World (GuestState S Ω)) (u' : World (GuestState S Ω'))
      (ha' : a'.ReplaysFrom logs) (hvisible : a'.visible = none)
      (hR : Replaying blake3 logs u u' ∧ Deliverable u') :
      ∃ v', World.step blake3 (guest.executor host') u' a' = .ok v' ∧
        Replaying blake3 logs u v' ∧ Deliverable v' := by
    obtain ⟨v', hv'⟩ := invisible_returns hR.2 hvisible ha'
    exact ⟨v', hv', hR.1.right hvisible hv', hR.2.step hv'⟩
  have hboth (a a' : Action) (b : Option CellConfig) (s u : World (GuestState S Ω))
      (s' : World (GuestState S Ω')) (ha : a.Records) (ha' : a'.ReplaysFrom logs)
      (hb : a.visible = some b) (hb' : a'.visible = some b)
      (hR : Replaying blake3 logs s s' ∧ Deliverable s')
      (hstep : World.step blake3 (guest.executor host) s a = .ok u)
      (hreach : Reaches (World.step blake3 (guest.executor host)) Action.Records u t) :
      ∃ u', World.step blake3 (guest.executor host') s' a' = .ok u' ∧
        Replaying blake3 logs u u' ∧ Deliverable u' := by
    obtain ⟨rest, hrest, hrun⟩ := hon hreach
    have hdisciplined : Disciplined u := Disciplined.before_run hticks hrun
    obtain ⟨hrecording, -⟩ := hR.1.recording.step ha hdisciplined hstep
    obtain ⟨-, hextend⟩ := hrecording.of_reaches hticks ⟨rest, hrest, hrun⟩
    have hlog (id : CellId) (c : Cell) (hc : u.supervisor.cells.get? id = some c) :
        Extends c.recorder.log (fromReplayLog (logs id)).log := by
      obtain ⟨c₁, hc₁, hlog⟩ := hextend id c hc
      obtain ⟨order, horder⟩ := hlogs id c₁ hc₁
      rw [horder, fromReplayLog_exportLog]
      exact hlog
    obtain ⟨u', hu', hRu⟩ := hR.1.visible_step host' ha ha' hb hb' hstep hdisciplined hlog
    exact ⟨u', hu', hRu, hR.2.step hu'⟩
  obtain ⟨w', hrun', h, -⟩ := run_simulation
    (R := fun u u' => Replaying blake3 logs u u' ∧ Deliverable u')
    (fun a u v u' _ hvisible hR hstep _ => ⟨hR.1.left hvisible hstep, hR.2⟩) hinvisible hboth
    (fun a ha => hrecords a (List.mem_append_left _ ha)) hreplays hsame
    ⟨hstart, deliverable_new max _ pages'⟩ hbefore
  exact ⟨w', hrun', h⟩

/-- End-to-end replay determinism. A recorded run of any cells and any guests, under the
tick discipline, is repeated with every recorder replaying the exported log of its cell (in
whatever order it was exported), under any other host, with rings and consumers on either
side as they like. The replay returns, every host call in it succeeds with the recorded
value, and every cell obtains the same checkpoint entries. -/
theorem replay_reproduces_checkpoints (blake3 : Blake3) (guest : Guest S) (host : HostSource Ω)
    (host' : HostSource Ω') (max : UInt64) (state : S) (ω : Ω) (ω' : Ω')
    (standbyPages standbyPages' : ℕ) (actions actions' : List Action)
    (logs : CellId → List (Tick × UInt64 × ReplayEntry)) (w : World (GuestState S Ω))
    (hrecords : ∀ a ∈ actions, a.Records)
    (hrun : run (World.step blake3 (guest.executor host)) (new max ⟨state, ω, []⟩ standbyPages)
      actions = .ok w)
    (hticks : ∀ id, NoReturn (callTicks id w.executor.calls))
    (hlogs : ∀ id c, w.supervisor.cell id = some c →
      ∃ order, logs id = c.recorder.exportLog order)
    (hreplays : ∀ a ∈ actions', a.ReplaysFrom logs)
    (hsame : actions'.filterMap Action.visible = actions.filterMap Action.visible) :
    ∃ w', run (World.step blake3 (guest.executor host'))
        (new max ⟨state, ω', []⟩ standbyPages') actions' = .ok w' ∧
      w'.executor.calls = w.executor.calls ∧
      (∀ ev ∈ w'.executor.calls, ∃ value, ev.result = .ok value) ∧
      ∀ id, (w'.supervisor.cell id).map (fun c => c.checkpoints.entries) =
        (w.supervisor.cell id).map (fun c => c.checkpoints.entries) := by
  have hall : ∀ a ∈ actions ++ [], a.Records := by rwa [List.append_nil]
  obtain ⟨w', hrun', h⟩ := replaying_of_moment hall hrun rfl hticks hlogs host' ω' standbyPages'
    hreplays hsame
  refine ⟨w', hrun', h.calls_eq, ?_, ?_⟩
  · intro ev hev
    rw [h.calls_eq] at hev
    exact (h.recording.calls ev hev).2
  · intro id
    unfold Supervisor.cell
    cases hc : w.supervisor.cells.get? id with
    | none => rw [h.cells_none id hc]
    | some c =>
      obtain ⟨c', hc', hcells⟩ := h.cells_some id c hc
      rw [hc', Option.map_some, Option.map_some, hcells.checkpoints_eq]

/-- Two clock readings recorded under backpressure, replayed under another clock and without
a ring: both readings and all three checkpoints come back. -/
theorem replay_reproduces_checkpoints_stamped :
    ∃ w c, run Guest.scriptedStep (Guest.scriptedWorld [.stamp 1 5, .poke 4097 8, .stamp 3 6])
        ([.spawn ⟨1, 8192, 8192, 1⟩ .record, .enableReplication 1] ++
          [.ascendingCycle, .ascendingCycle, .ascendingCycle]) = .ok w ∧
      w.supervisor.cell 1 = some c ∧ w.executor.calls.length = 2 ∧
      c.checkpoints.entries.length = 3 ∧
      ∃ (order : Iteration c.recorder.log) (w' : _),
        run (World.step (fun _ _ => 0) (Guest.scripted.executor (HostSource.frozen 9)))
          (Guest.scriptedWorld [.stamp 1 5, .poke 4097 8, .stamp 3 6])
          ([.spawnReplay ⟨1, 8192, 8192, 1⟩ (c.recorder.exportLog order)] ++
            [.ascendingCycle, .ascendingCycle, .ascendingCycle]) = .ok w' ∧
        w'.executor.calls = w.executor.calls ∧
        (w'.supervisor.cell 1).map (fun c => c.checkpoints.entries) =
          some c.checkpoints.entries := by
  have hreturns : returnsWith
      (run Guest.scriptedStep (Guest.scriptedWorld [.stamp 1 5, .poke 4097 8, .stamp 3 6])
        ([.spawn ⟨1, 8192, 8192, 1⟩ .record, .enableReplication 1] ++
          [.ascendingCycle, .ascendingCycle, .ascendingCycle]))
      (fun w => decide (w.executor.calls.map (fun ev => ev.call.tick) = [1, 3]) &&
        decide (w.supervisor.cells.keys = {1}) &&
        (w.supervisor.cell 1).any fun c => c.checkpoints.entries.length == 3) = true := by
    decide +kernel
  obtain ⟨w, hrun, htest⟩ := returnsWith_eq_true.mp hreturns
  simp only [Bool.and_eq_true, decide_eq_true_eq] at htest
  obtain ⟨⟨hticks, hkeys⟩, htest⟩ := htest
  obtain ⟨c, hc, hlength⟩ := (Option.any_eq_true _ _).mp htest
  have hnoReturn (id : CellId) : NoReturn (callTicks id w.executor.calls) := by
    apply noReturn_of_sorted
    have hsublist : (callTicks id w.executor.calls).Sublist
        (w.executor.calls.map fun ev => ev.call.tick) := List.filter_sublist.map _
    rw [hticks] at hsublist
    exact List.Pairwise.sublist hsublist (by decide)
  obtain ⟨entries, hentries⟩ := Quot.exists_rep c.recorder.log.entries
  have hlogs : ∀ id c₁, w.supervisor.cell id = some c₁ →
      ∃ order, c.recorder.exportLog ⟨entries, hentries⟩ = c₁.recorder.exportLog order := by
    intro id c₁ hc₁
    have hid : id ∈ w.supervisor.cells.keys :=
      Finmap.mem_keys.mpr (HashMap.mem_iff_get?.mpr ⟨c₁, hc₁⟩)
    rw [hkeys, Finset.mem_singleton] at hid
    rw [hid, hc] at hc₁
    cases hc₁
    exact ⟨_, rfl⟩
  obtain ⟨w', hrun', hcalls, -, hsame⟩ := replay_reproduces_checkpoints (fun _ _ => 0)
    Guest.scripted (HostSource.frozen 7) (HostSource.frozen 9) 100
    [.stamp 1 5, .poke 4097 8, .stamp 3 6] () () 1 1 _
    ([.spawnReplay ⟨1, 8192, 8192, 1⟩ (c.recorder.exportLog ⟨entries, hentries⟩)] ++
      [.ascendingCycle, .ascendingCycle, .ascendingCycle])
    (fun _ => c.recorder.exportLog ⟨entries, hentries⟩) w (by simp [Action.Records]) hrun
    hnoReturn hlogs (by simp [Action.ReplaysFrom]) rfl
  refine ⟨w, c, hrun, hc, ?_, by simpa using hlength, ⟨entries, hentries⟩, w', hrun', hcalls, ?_⟩
  · rw [← List.length_map fun ev : HostEvent => ev.call.tick, hticks]
    rfl
  · rw [hsame 1, hc]
    rfl

end World
end ChronosUvm
