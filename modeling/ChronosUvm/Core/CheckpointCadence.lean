import Mathlib.Tactic
import ChronosUvm.Core.Registry
import ChronosUvm.Foundations.Cadence
import ChronosUvm.Foundations.RoundRobin

/-!
When checkpoints are taken. The due test compares the global tick with the tick of the
cell's last checkpoint, while the cell sees only the ticks of its own turns. Its
checkpoints are therefore a whole number of rounds apart.
-/
namespace ChronosUvm
open Panicking Tables Transitions Cadence RoundRobin

/-- The cell that the action asks for. -/
def Action.config? : Action → Option CellConfig
  | .spawn config _ | .spawnReplay config _ => some config
  | .enableReplication _ | .cycle _ | .pop | .apply => none

def Cell.checkpointTicks (c : Cell) : List ℕ :=
  c.checkpoints.entries.map fun entry => entry.tick.toNat

theorem Supervisor.spawnCell_succeeds_iff (s : Supervisor) (config : CellConfig)
    (mode : RecorderMode) :
    (s.spawnCell config mode).1 = .ok () ↔ config.id ∉ s.cells ∧
      ∃ memory, MmapGuardedMemory.new config.initialMemoryBytes config.quotaBytes = .ok memory := by
  rcases s.spawnCell_cases config mode with ⟨error, hrefused⟩ | ⟨cell, hnew, hfresh, hspawned⟩
  · rw [hrefused]
    constructor
    · intro h
      cases h
    · rintro ⟨hfresh, memory, hmemory⟩
      unfold spawnCell at hrefused
      simp [hfresh, Cell.new, hmemory] at hrefused
  · rw [hspawned]
    obtain ⟨memory, hmemory, -⟩ := Cell.new_eq_ok hnew
    exact ⟨fun _ => ⟨hfresh, memory, hmemory⟩, fun _ => rfl⟩

theorem Action.spawns_iff {a : Action} {config : CellConfig} (ha : a.config? = some config)
    (s : Supervisor) : a.Spawns s ↔ config.id ∉ s.cells ∧
      ∃ memory, MmapGuardedMemory.new config.initialMemoryBytes config.quotaBytes = .ok memory := by
  cases a with
  | spawn _ mode =>
    cases ha
    exact s.spawnCell_succeeds_iff config mode
  | spawnReplay =>
    cases ha
    exact s.spawnCell_succeeds_iff config .replay
  | _ => cases ha

theorem Supervisor.spawnWith_fresh {s : Supervisor} {config : CellConfig}
    {memory : MmapGuardedMemory} (hfresh : config.id ∉ s.cells)
    (hmemory : MmapGuardedMemory.new config.initialMemoryBytes config.quotaBytes = .ok memory)
    (recorder : EventRecorder) :
    s.spawnWith config recorder = { s with
      cells := s.cells.insert config.id ⟨config, memory, recorder, CheckpointChain.new,
        FdTable.new, PendingCompletions.new, 0⟩
      scheduler := s.scheduler.registerCell config.id } := by
  unfold spawnWith
  rw [if_neg hfresh, hmemory]

namespace World
variable {E : Type} {blake3 : Blake3} {executor : QuantumExecutor E} {w w' : World E}
  {a : Action}

theorem Registry.length_order (h : Registry w) :
    w.supervisor.scheduler.order.length = w.supervisor.cells.keys.card := by
  rw [← List.toFinset_card_of_nodup h.nodup]
  congr 1
  ext id
  rw [List.mem_toFinset, h.mem_iff, Finmap.mem_keys]

/-- A cycle in which the quantum of this cell faults, or edits what the supervisor's decision
to checkpoint it rests on. -/
def Disturbs (executor : QuantumExecutor E) (id : CellId) (w : World E) (a : Action) : Prop :=
  a.isCycle = true ∧ w.supervisor.scheduler.order.head? = some id ∧
    ∃ before result ran e', w.supervisor.cell id = some before ∧
      executor.runQuantum w.executor before.delivered w.supervisor.maxInstructionsPerQuantum =
        .ok (result, ran, e') ∧
      ¬ ((∃ n, result = .ok n) ∧ ran.config = before.config ∧
        ran.checkpoints = before.checkpoints ∧
        ran.lastCheckpointTick = before.lastCheckpointTick)

/-- The cell has its place in the order and has not been checkpointed. -/
structure Placed (config : CellConfig) (p : ℕ) (w : World E) : Prop where
  order_at : w.supervisor.scheduler.order[p]? = some config.id
  cell : ∃ cell, w.supervisor.cell config.id = some cell ∧ cell.config = config ∧
    cell.checkpointTicks = [] ∧ cell.lastCheckpointTick = 0

/-- A spawned cell takes the last place. -/
theorem Placed.of_spawn {config : CellConfig} (ha : a.Spawns w.supervisor)
    (hconfig : a.config? = some config) (hstep : World.step blake3 executor w a = .ok w') :
    Placed config w.supervisor.scheduler.order.length w' := by
  obtain ⟨hfresh, memory, hmemory⟩ := (Action.spawns_iff hconfig _).mp ha
  have hspawned : ∃ recorder, w'.supervisor = w.supervisor.spawnWith config recorder := by
    cases a with
    | spawn _ mode =>
      cases hconfig
      cases hstep
      exact ⟨_, w.supervisor.spawnCell_eq_spawnWith config mode⟩
    | spawnReplay _ entries =>
      cases hconfig
      cases hstep
      exact ⟨_, w.supervisor.spawnReplayCell_eq_spawnWith config entries⟩
    | _ => cases hconfig
  obtain ⟨recorder, hspawned⟩ := hspawned
  rw [Supervisor.spawnWith_fresh hfresh hmemory] at hspawned
  constructor
  · rw [hspawned]
    exact List.getElem?_concat_length
  · rw [hspawned]
    exact ⟨_, HashMap.get?_insert_self _ _ _, rfl, rfl, rfl⟩

/-- Later spawns queue up behind it. -/
theorem Placed.step {config : CellConfig} {p : ℕ} (h : Placed config p w)
    (ha : a.isCycle = false) (hstep : World.step blake3 executor w a = .ok w') :
    Placed config p w' := by
  cases step_cases hstep with
  | idle => exact h
  | @spawned _ config' memory recorder haction hmemory hfresh =>
    obtain ⟨cell, hcell, hrest⟩ := h.cell
    have hne : config.id ≠ config'.id := by
      intro heq
      rw [← heq] at hfresh
      exact hfresh (HashMap.mem_iff_get?.mpr ⟨cell, hcell⟩)
    constructor
    · obtain ⟨hp, -⟩ := List.getElem?_eq_some_iff.mp h.order_at
      show (w.supervisor.scheduler.order ++ [config'.id])[p]? = _
      rw [List.getElem?_append_left hp]
      exact h.order_at
    · refine ⟨cell, ?_, hrest⟩
      rw [Supervisor.cell, HashMap.get?_insert, if_neg hne]
      exact hcell
  | enabled => exact ⟨h.order_at, h.cell⟩
  | cycled => cases ha
  | popped => exact ⟨h.order_at, h.cell⟩
  | accepted => exact ⟨h.order_at, h.cell⟩
  | refused => exact ⟨h.order_at, h.cell⟩

/-- The cell as a cycle stores it, when its quantum left the decision to the supervisor. -/
theorem checkpointTicks_stored {visit : VisitOrder} {s s' : Supervisor} {e e' : E}
    {reported : Except SupervisorError (Option (CellId × Tick))}
    (d : Supervisor.Dispatch blake3 executor visit s s' e e' reported)
    (hok : ∃ n, d.result = .ok n) (hcheckpoints : d.ran.checkpoints = d.before.checkpoints)
    (hlast : d.ran.lastCheckpointTick = d.before.lastCheckpointTick) :
    if d.before.checkpointDue d.tick then
      d.stored.checkpointTicks = d.before.checkpointTicks ++ [d.tick.toNat] ∧
        d.stored.lastCheckpointTick = d.tick
    else d.stored.checkpointTicks = d.before.checkpointTicks ∧
      d.stored.lastCheckpointTick = d.before.lastCheckpointTick := by
  obtain ⟨n, hn⟩ := hok
  unfold Cell.checkpointTicks
  rcases d.ended.stored_cases with ⟨hkept, hstored⟩ | ⟨-, hdue, hstored⟩
  · have hnot : d.before.checkpointDue d.tick = false := by
      rcases hkept with ⟨fault, hfault⟩ | hnot
      · rw [hn] at hfault
        cases hfault
      · exact hnot
    rw [if_neg (by rw [hnot]; exact Bool.false_ne_true), hstored, hcheckpoints]
    exact ⟨rfl, hlast⟩
  · obtain ⟨entry, htick, happended⟩ :=
      d.ran.entries_checkpointed blake3 visit d.tick (executor.registerDigest e' d.ran)
    have hboth : d.stored.checkpoints.entries = d.before.checkpoints.entries ++ [entry] ∧
        d.stored.lastCheckpointTick = d.tick := by
      rw [← hcheckpoints]
      rcases hstored with hstored | hstored <;> rw [hstored] <;> exact ⟨happended, rfl⟩
    rw [if_pos hdue, hboth.1, List.map_append, List.map_singleton, htick]
    exact ⟨rfl, hboth.2⟩

/-- The invariant of the running system: the order has turned once for every tick, and the
cell's checkpoints are on the beat. -/
structure OnSchedule (order : List CellId) (config : CellConfig) (first gap : ℕ)
    (w : World E) : Prop where
  order_eq : w.supervisor.scheduler.order = order.rotate w.clock
  cell : ∃ cell, w.supervisor.cell config.id = some cell ∧ cell.config = config ∧
    OnBeat first gap w.clock cell.checkpointTicks ∧
    cell.lastCheckpointTick.toNat = cell.checkpointTicks.getLast?.getD 0

section Cycle
variable {order : List CellId} {config : CellConfig} {first gap p : ℕ} {visit : VisitOrder}
  {s : Supervisor} {e : E} {reported : Except SupervisorError (Option (CellId × Tick))}
  (d : Supervisor.Dispatch blake3 executor visit w.supervisor s w.executor e reported)

/-- A cycle belongs to the cell exactly at its turns. -/
theorem OnSchedule.turn_iff (h : OnSchedule order config first gap w) (hnodup : order.Nodup)
    (hp : order[p]? = some config.id) :
    d.id = config.id ↔ ∃ k, w.clock + 1 = p + 1 + k * order.length := by
  have hhead : (order.rotate w.clock).head? = some d.id := by
    rw [← h.order_eq, d.order_eq, List.head?_cons]
  have hturn := head?_rotate_iff hnodup hp w.clock
  rw [hhead, Option.some_inj] at hturn
  rw [hturn]
  apply exists_congr
  intro k
  omega

/-- A turn of the cell. -/
theorem OnSchedule.own_turn (h : OnSchedule order config first gap w)
    (hreg : Regular (fun t => ∃ k, t = p + 1 + k * order.length)
      config.checkpointIntervalTicks.toNat first gap)
    (hid : d.id = config.id) (hturn : ∃ k, w.clock + 1 = p + 1 + k * order.length)
    (hdisturbs : ¬ Disturbs executor config.id w (.cycle visit)) :
    d.stored.config = config ∧ OnBeat first gap (w.clock + 1) d.stored.checkpointTicks ∧
      d.stored.lastCheckpointTick.toNat = d.stored.checkpointTicks.getLast?.getD 0 := by
  obtain ⟨cell, hcell, hconfig, hbeat, hlast⟩ := h.cell
  rw [← hid] at hcell hdisturbs
  obtain rfl : d.before = cell := Option.some.inj (d.before_eq.symm.trans hcell)
  have hsteady : (∃ n, d.result = .ok n) ∧ d.ran.config = d.before.config ∧
      d.ran.checkpoints = d.before.checkpoints ∧
      d.ran.lastCheckpointTick = d.before.lastCheckpointTick := by
    by_contra hnot
    refine hdisturbs ⟨rfl, ?_, d.before, d.result, d.ran, e, d.before_eq, d.ran_eq, hnot⟩
    rw [d.order_eq, List.head?_cons]
  obtain ⟨hok, hran, hcheckpoints, hsame⟩ := hsteady
  have htick : d.tick.toNat = w.clock + 1 := d.tick_eq
  have hstored := checkpointTicks_stored d hok hcheckpoints hsame
  have hdue : d.before.checkpointDue d.tick = true ↔
      w.clock + 1 = first + d.before.checkpointTicks.length * gap := by
    rw [← hbeat.due_iff hreg, Cell.checkpointDue, decide_eq_true_iff, htick, hlast, hconfig]
    exact (and_iff_right hturn).symm
  refine ⟨(recorder_stored d).2.trans (hran.trans hconfig), ?_⟩
  by_cases hnow : d.before.checkpointDue d.tick = true
  · rw [if_pos hnow] at hstored
    rw [hstored.1, hstored.2, htick, List.getLast?_concat]
    exact ⟨hbeat.take hreg.gap_pos (hdue.mp hnow), rfl⟩
  · rw [if_neg hnow] at hstored
    rw [hstored.1, hstored.2]
    exact ⟨hbeat.skip (fun heq => hnow (hdue.mpr heq)), hlast⟩

end Cycle

theorem OnSchedule.step {order : List CellId} {config : CellConfig} {first gap p : ℕ}
    (h : OnSchedule order config first gap w) (hnodup : order.Nodup)
    (hp : order[p]? = some config.id)
    (hreg : Regular (fun t => ∃ k, t = p + 1 + k * order.length)
      config.checkpointIntervalTicks.toNat first gap)
    (ha : ¬ (a.Spawns w.supervisor ∨ Disturbs executor config.id w a))
    (hstep : World.step blake3 executor w a = .ok w') :
    OnSchedule order config first gap w' := by
  obtain ⟨hspawns, hdisturbs⟩ := not_or.mp ha
  cases step_cases hstep with
  | idle => exact h
  | @spawned _ config' memory recorder haction hmemory hfresh =>
    have hconfig : a.config? = some config' := by
      rcases haction with ⟨mode, rfl, -⟩ | ⟨entries, rfl, -⟩ <;> rfl
    exact absurd ((Action.spawns_iff hconfig _).mpr ⟨hfresh, memory, hmemory⟩) hspawns
  | enabled => exact ⟨h.order_eq, h.cell⟩
  | @cycled visit reported s' e' flushes d hflushed =>
    have hclock : s'.scheduler.clock.tick.toNat = w.clock + 1 := by
      obtain ⟨hclock, htick⟩ := clock_cycled d
      rw [hclock, htick]
    have hturn := h.turn_iff d hnodup hp
    constructor
    · show s'.scheduler.order = order.rotate s'.scheduler.clock.tick.toNat
      rw [hclock, ← List.rotate_rotate, ← h.order_eq, d.order_eq, d.scheduler_eq,
        List.rotate_cons_succ, List.rotate_zero]
    · by_cases hid : d.id = config.id
      · refine ⟨d.stored, ?_, ?_⟩
        · rw [Supervisor.cell, d.cells_eq, hid, HashMap.get?_insert_self]
        · show _ ∧ OnBeat first gap s'.scheduler.clock.tick.toNat _ ∧ _
          rw [hclock]
          exact h.own_turn d hreg hid (hturn.mp hid) hdisturbs
      · obtain ⟨cell, hcell, hconfig, hbeat, hlast⟩ := h.cell
        refine ⟨cell, ?_, hconfig, ?_, hlast⟩
        · rw [Supervisor.cell, d.cells_eq, HashMap.get?_insert, if_neg (Ne.symm hid)]
          exact hcell
        · show OnBeat first gap s'.scheduler.clock.tick.toNat _
          rw [hclock]
          apply hbeat.skip
          intro hdue
          exact hid (hturn.mpr ((hbeat.due_iff hreg).mpr hdue).1)
  | popped => exact ⟨h.order_eq, h.cell⟩
  | accepted => exact ⟨h.order_eq, h.cell⟩
  | refused => exact ⟨h.order_eq, h.cell⟩

/-- At the end of the setup the cell has the place of its spawn. -/
theorem placed_of_setup {max : UInt64} {e : E} {standbyPages p : ℕ} {setup : List Action}
    {config : CellConfig} {u : World E} (hsetup : ∀ a ∈ setup, a.isCycle = false)
    (hspawn : Occurs (World.step blake3 executor) (new max e standbyPages) setup fun t a =>
      a.Spawns t.supervisor ∧ a.config? = some config ∧ t.supervisor.cells.keys.card + 1 = p)
    (hu : run (World.step blake3 executor) (new max e standbyPages) setup = .ok u) :
    Placed config (p - 1) u := by
  obtain ⟨pre, a, post, t, rfl, hpre, hspawns, hconfig, rfl⟩ := hspawn
  have hregistry : Registry t := registry_of_run hpre
  obtain ⟨t', ht', hpost⟩ := run_append_eq_ok.mp hu
  obtain rfl : t = t' := Except.ok.inj (hpre.symm.trans ht')
  obtain ⟨v, hstep, hpost⟩ := run_cons_eq_ok.mp hpost
  have hplaced := Placed.of_spawn hspawns hconfig hstep
  rw [hregistry.length_order] at hplaced
  exact run_invariant
    (fun b hb _ _ hw hs => hw.step (hsetup b (List.mem_append_right _ (.tail a hb))) hs)
    hplaced hpost

theorem clock_eq_zero {max : UInt64} {e : E} {standbyPages : ℕ} {setup : List Action}
    {u : World E} (hsetup : ∀ a ∈ setup, a.isCycle = false)
    (hu : run (World.step blake3 executor) (new max e standbyPages) setup = .ok u) :
    u.clock = 0 := by
  have hle := clock_le_cycles hu
  have hnone : setup.countP Action.isCycle = 0 := by
    rw [List.countP_eq_zero]
    intro a ha
    rw [hsetup a ha]
    exact Bool.false_ne_true
  have hzero : (new max e standbyPages).clock = 0 := rfl
  omega

/-- A cell that is in its place when the cycles begin stays on schedule. -/
theorem Placed.onSchedule_run {config : CellConfig} {first gap p : ℕ} {work : List Action}
    (h : Placed config p w) (hclock : w.clock = 0) (hnodup : w.supervisor.scheduler.order.Nodup)
    (hreg : Regular (fun t => ∃ k, t = p + 1 + k * w.supervisor.scheduler.order.length)
      config.checkpointIntervalTicks.toNat first gap)
    (hspawned : ¬ Occurs (World.step blake3 executor) w work fun t a => a.Spawns t.supervisor)
    (hundisturbed : ¬ Occurs (World.step blake3 executor) w work (Disturbs executor config.id))
    (hw' : run (World.step blake3 executor) w work = .ok w') :
    OnSchedule w.supervisor.scheduler.order config first gap w' := by
  obtain ⟨cell, hcell, hconfig, hticks, hlast⟩ := h.cell
  have hstart : OnSchedule w.supervisor.scheduler.order config first gap w := by
    refine ⟨by rw [hclock, List.rotate_zero], cell, hcell, hconfig, ?_, ?_⟩
    · obtain ⟨k, hk⟩ := hreg.first_least.1.1
      rw [hclock, hticks]
      exact onBeat_nil (by omega)
    · rw [hlast, hticks]
      rfl
  have hnever : ¬ Occurs (World.step blake3 executor) w work fun t a =>
      a.Spawns t.supervisor ∨ Disturbs executor config.id t a := by
    rintro ⟨pre, a, post, t, hsplit, hpre, hspawns | hdisturbs⟩
    · exact hspawned ⟨pre, a, post, t, hsplit, hpre, hspawns⟩
    · exact hundisturbed ⟨pre, a, post, t, hsplit, hpre, hdisturbs⟩
  exact run_invariant_of_not_occurs
    (fun a _ _ _ ht ha hs => ht.step hnodup h.order_at hreg ha hs) hnever hstart hw'

/-- The checkpoints of the `p`-th of `n` cells that were all spawned before the first cycle. As
long as its own quanta do not fault and leave its chain to the supervisor, they fall on the
first of its turns `p`, `p + n`, … that is not before the interval, and from then on on every
`⌈interval / n⌉`-th of them: whatever the other cells do, and whether or not the batches find
room in a ring. -/
theorem checkpoint_cadence (blake3 : Blake3) (executor : QuantumExecutor E) (max : UInt64) (e : E)
    (standbyPages : ℕ) (setup work : List Action) (config : CellConfig) (p : ℕ) (u w : World E)
    (hinterval : 1 ≤ config.checkpointIntervalTicks.toNat)
    (hsetup : ∀ a ∈ setup, a.isCycle = false)
    (hspawn : Occurs (World.step blake3 executor) (new max e standbyPages) setup fun t a =>
      a.Spawns t.supervisor ∧ a.config? = some config ∧ t.supervisor.cells.keys.card + 1 = p)
    (hu : run (World.step blake3 executor) (new max e standbyPages) setup = .ok u)
    (hspawned : ¬ Occurs (World.step blake3 executor) u work fun t a => a.Spawns t.supervisor)
    (hundisturbed : ¬ Occurs (World.step blake3 executor) u work (Disturbs executor config.id))
    (hw : run (World.step blake3 executor) u work = .ok w) :
    ∃ cell first, w.supervisor.cell config.id = some cell ∧
      IsLeast {t | (∃ k, t = p + k * u.supervisor.cells.keys.card) ∧
        config.checkpointIntervalTicks.toNat ≤ t} first ∧
      cell.checkpointTicks.Pairwise (· < ·) ∧
      (∀ t, cell.checkpointTicks.head? = some t → t = first) ∧
      (cell.checkpointTicks.IsChain fun s t => t = s + u.supervisor.cells.keys.card *
        (config.checkpointIntervalTicks.toNat ⌈/⌉ u.supervisor.cells.keys.card)) ∧
      ∀ t, t ∈ cell.checkpointTicks ↔ t ≤ w.clock ∧ ∃ j, t = first + j *
        (u.supervisor.cells.keys.card *
          (config.checkpointIntervalTicks.toNat ⌈/⌉ u.supervisor.cells.keys.card)) := by
  have hplaced := placed_of_setup hsetup hspawn hu
  have hregistry : Registry u := registry_of_run hu
  have hpos : p - 1 + 1 = p := by
    obtain ⟨-, -, -, t, -, -, -, -, hp⟩ := hspawn
    omega
  obtain ⟨hlt, -⟩ := List.getElem?_eq_some_iff.mp hplaced.order_at
  have hreg := regular_roundRobin (n := u.supervisor.scheduler.order.length) (p := p - 1 + 1)
    (by omega) hinterval
  have hend := hplaced.onSchedule_run (clock_eq_zero hsetup hu) hregistry.nodup hreg hspawned
    hundisturbed hw
  obtain ⟨cell, hcell, -, hbeat, -⟩ := hend.cell
  rw [hregistry.length_order, hpos] at hreg hbeat
  exact ⟨cell, _, hcell, hreg.first_least, hbeat.pairwise_lt hreg.gap_pos,
    fun t => hbeat.head?, hbeat.isChain, hbeat.mem_iff⟩

/-- A guest that stores the same byte in every quantum. -/
def steadyGuest : Guest Unit where
  program _ _ _ := .store 5 1 (fun _ => 7) fun _ => .finish (.ok 1) ()
  registerDigest _ _ := fun _ => 0

theorem steadyGuest_not_disturbs {Ω : Type} (host : HostSource Ω) (id : CellId)
    (w : World (GuestState Unit Ω)) (a : Action) :
    ¬ Disturbs (steadyGuest.executor host) id w a := by
  rintro ⟨-, -, before, result, ran, e', -, hran, hnot⟩
  apply hnot
  constructor
  · obtain ⟨⟨stored, memory⟩, -, hfinish⟩ := bind_returned.mp hran
    cases hfinish
    exact ⟨1, rfl⟩
  · rw [(GuestProgram.run_effect hran).2]
    exact ⟨rfl, rfl, rfl⟩

/-- Two cells and a ring of one slot that nobody drains. The second cell asks for a checkpoint
every three ticks and gets one every four, the later ones without a batch. -/
theorem checkpoint_cadence_two_cells :
    ∃ u w cell, run (World.step (fun _ _ => 0) (steadyGuest.executor (HostSource.frozen 7)))
        (new 100 ⟨(), (), []⟩ 1) [.spawn ⟨1, 4096, 4096, 1⟩ .record,
          .spawn ⟨2, 4096, 4096, 3⟩ .record, .enableReplication 1] = .ok u ∧
      run (World.step (fun _ _ => 0) (steadyGuest.executor (HostSource.frozen 7))) u
        (List.replicate 8 .ascendingCycle) = .ok w ∧
      w.supervisor.cell 2 = some cell ∧ cell.checkpointTicks = [4, 8] ∧
      IsLeast {t | (∃ k, t = 2 + k * 2) ∧ 3 ≤ t} 4 ∧
      cell.checkpointTicks.IsChain fun s t => t = s + 2 * (3 ⌈/⌉ 2) := by
  have hreturns : returnsWith
      (run (World.step (fun _ _ => 0) (steadyGuest.executor (HostSource.frozen 7)))
        (new 100 ⟨(), (), []⟩ 1) [.spawn ⟨1, 4096, 4096, 1⟩ .record,
          .spawn ⟨2, 4096, 4096, 3⟩ .record, .enableReplication 1])
      (fun u => decide (u.supervisor.cells.keys.card = 2) && returnsWith
        (run (World.step (fun _ _ => 0) (steadyGuest.executor (HostSource.frozen 7))) u
          (List.replicate 8 .ascendingCycle))
        fun w => decide ((w.supervisor.cell 2).map Cell.checkpointTicks = some [4, 8])) =
          true := by
    decide +kernel
  obtain ⟨u, hu, htest⟩ := returnsWith_eq_true.mp hreturns
  simp only [Bool.and_eq_true, decide_eq_true_eq] at htest
  obtain ⟨hcard, htest⟩ := htest
  obtain ⟨w, hw, htest⟩ := returnsWith_eq_true.mp htest
  obtain ⟨cell, first, hcell, hleast, -, hhead, hchain, -⟩ :=
    checkpoint_cadence _ _ _ _ _ _ _ ⟨2, 4096, 4096, 3⟩ 2 u w (by decide)
      (by simp [Action.isCycle])
      ⟨[.spawn ⟨1, 4096, 4096, 1⟩ .record], .spawn ⟨2, 4096, 4096, 3⟩ .record,
        [.enableReplication 1], _, rfl, rfl, rfl, rfl, rfl⟩ hu
      (fun ⟨pre, a, post, t, hsplit, _, hspawns⟩ => by
        have ha : a ∈ List.replicate 8 Action.ascendingCycle := by
          rw [hsplit]
          exact List.mem_append_right _ List.mem_cons_self
        rw [List.eq_of_mem_replicate ha] at hspawns
        exact hspawns)
      (fun ⟨_, a, _, t, _, _, h⟩ => steadyGuest_not_disturbs _ _ t a h) hw
  have hticks : cell.checkpointTicks = [4, 8] := by
    have hid : w.supervisor.cell 2 = some cell := hcell
    have hmap := of_decide_eq_true htest
    rw [hid] at hmap
    exact Option.some.inj hmap
  have hfour : 4 = first := hhead 4 (by rw [hticks]; rfl)
  rw [hcard] at hleast hchain
  rw [← hfour] at hleast
  exact ⟨u, w, cell, hu, hw, hcell, hticks, hleast, hchain⟩

end World
end ChronosUvm
