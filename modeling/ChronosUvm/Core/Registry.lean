import Mathlib.Tactic
import ChronosUvm.Core.GuestProgram
import ChronosUvm.Core.Transit

/-!
The supervisor's two registries of cells, the map and the dispatch order, agree in
every reachable state, and a cycle consumes one tick whatever comes of it. Hence the
lookup of the dispatched cell never fails.
-/
namespace ChronosUvm
open Panicking Tables Transitions

namespace Action

def isCycle : Action → Bool
  | .cycle _ => true
  | .spawn _ _ | .spawnReplay _ _ | .enableReplication _ | .pop | .apply => false

theorem isCycle_eq_true {a : Action} (h : a.isCycle = true) : ∃ visit, a = .cycle visit := by
  cases a with
  | cycle visit => exact ⟨visit, rfl⟩
  | _ => cases h

/-- The action is a spawn that succeeds in this state. -/
def Spawns (s : Supervisor) : Action → Prop
  | .spawn config mode => (s.spawnCell config mode).1 = .ok ()
  | .spawnReplay config _ => (s.spawnCell config .replay).1 = .ok ()
  | .enableReplication _ | .cycle _ | .pop | .apply => False

end Action

namespace World
variable {E : Type} {blake3 : Blake3} {executor : QuantumExecutor E} {w w' : World E}
  {a : Action}

/-- The dispatch order lists exactly the ids of the cells, each once. -/
structure Registry (w : World E) : Prop where
  nodup : w.supervisor.scheduler.order.Nodup
  mem_iff : ∀ id, id ∈ w.supervisor.scheduler.order ↔ id ∈ w.supervisor.cells

theorem registry_new (max : UInt64) (e : E) (pages : ℕ) : Registry (new max e pages) where
  nodup := List.nodup_nil
  mem_iff id := by
    constructor
    · intro h
      cases h
    · intro h
      exact absurd h Finmap.notMem_empty

theorem Registry.step (h : Registry w) (hstep : World.step blake3 executor w a = .ok w') :
    Registry w' := by
  cases step_cases hstep with
  | idle => exact h
  | @spawned _ config memory recorder haction hmemory hfresh =>
    constructor
    · apply List.nodup_append.mpr
      refine ⟨h.nodup, List.nodup_singleton _, ?_⟩
      intro id hid id' hid' heq
      obtain rfl := List.mem_singleton.mp hid'
      rw [heq, h.mem_iff] at hid
      exact hfresh hid
    · intro id
      show id ∈ w.supervisor.scheduler.order ++ [config.id] ↔ _
      rw [List.mem_append, List.mem_singleton, Finmap.mem_insert, h.mem_iff, or_comm]
  | enabled => exact ⟨h.nodup, h.mem_iff⟩
  | cycled d =>
    have hperm : (d.rest ++ [d.id]).Perm (d.id :: d.rest) := List.perm_append_singleton _ _
    constructor
    · rw [d.scheduler_eq, hperm.nodup_iff, ← d.order_eq]
      exact h.nodup
    · intro id
      rw [d.scheduler_eq, hperm.mem_iff, ← d.order_eq, d.cells_eq, Finmap.mem_insert, h.mem_iff]
      constructor
      · exact .inr
      · rintro (rfl | hid)
        · exact HashMap.mem_iff_get?.mpr ⟨d.before, d.before_eq⟩
        · exact hid
  | popped => exact ⟨h.nodup, h.mem_iff⟩
  | accepted => exact ⟨h.nodup, h.mem_iff⟩
  | refused => exact ⟨h.nodup, h.mem_iff⟩

theorem registry_of_run {max : UInt64} {e : E} {pages : ℕ} {actions : List Action}
    (hrun : run (World.step blake3 executor) (new max e pages) actions = .ok w) : Registry w :=
  run_invariant (fun _ _ _ _ hw hs => hw.step hs) (registry_new max e pages) hrun

/-- A refused spawn changes nothing. -/
theorem spawnCell_refused {s : Supervisor} {config : CellConfig} {mode : RecorderMode}
    {error : SupervisorError} (h : (s.spawnCell config mode).1 = .error error) :
    (s.spawnCell config mode).2 = s := by
  rcases s.spawnCell_cases config mode with ⟨error', hrefused⟩ | ⟨cell, -, -, hspawned⟩
  · rw [hrefused]
  · rw [hspawned] at h
    cases h

/-- A spawn adds its own id if it succeeds, and no id else. -/
theorem mem_spawnCell (s : Supervisor) (config : CellConfig) (mode : RecorderMode)
    (id : CellId) :
    id ∈ (s.spawnCell config mode).2.cells ↔
      (id = config.id ∧ (s.spawnCell config mode).1 = .ok ()) ∨ id ∈ s.cells := by
  rcases s.spawnCell_cases config mode with ⟨error, hrefused⟩ | ⟨cell, -, -, hspawned⟩
  · rw [hrefused]
    simp
  · rw [hspawned, Finmap.mem_insert]
    simp

/-- Replacing the recorder of the fresh cell adds no further id. -/
theorem mem_spawnReplayCell (s : Supervisor) (config : CellConfig)
    (entries : List (Tick × UInt64 × ReplayEntry)) (id : CellId) :
    id ∈ (s.spawnReplayCell config entries).cells ↔ id ∈ (s.spawnCell config .replay).2.cells := by
  unfold Supervisor.spawnReplayCell
  rcases s.spawnCell_cases config .replay with ⟨error, hrefused⟩ | ⟨cell, -, -, hspawned⟩
  · rw [hrefused]
  · rw [hspawned]
    simp only [HashMap.get?_insert_self, Finmap.mem_insert]
    tauto

/-- No cell is registered. -/
def Vacant (w : World E) : Prop := ∀ id, id ∉ w.supervisor.cells

theorem vacant_spawned {config : CellConfig} {succeeds : Prop} {s : Supervisor}
    (h : ∀ id, id ∈ s.cells ↔ (id = config.id ∧ succeeds) ∨ id ∈ w.supervisor.cells) :
    (∀ id, id ∉ s.cells) ↔ Vacant w ∧ ¬ succeeds := by
  constructor
  · intro hvacant
    refine ⟨fun id hid => hvacant id ((h id).mpr (.inr hid)), ?_⟩
    intro hsucceeds
    exact hvacant config.id ((h config.id).mpr (.inl ⟨rfl, hsucceeds⟩))
  · rintro ⟨hvacant, hfails⟩ id hid
    rcases (h id).mp hid with ⟨-, hsucceeds⟩ | hold
    · exact hfails hsucceeds
    · exact hvacant id hold

/-- Only a successful spawn fills a vacant supervisor, and nothing vacates it. -/
theorem vacant_step (hstep : World.step blake3 executor w a = .ok w') :
    Vacant w' ↔ Vacant w ∧ ¬ a.Spawns w.supervisor := by
  have hkept (hcells : ∀ id, id ∈ w'.supervisor.cells ↔ id ∈ w.supervisor.cells)
      (hnot : ¬ a.Spawns w.supervisor) : Vacant w' ↔ Vacant w ∧ ¬ a.Spawns w.supervisor := by
    unfold Vacant
    simp only [hcells, hnot, not_false_eq_true, and_true]
  have hinvisible (ha : a.visible = none) (id : CellId) :
      id ∈ w'.supervisor.cells ↔ id ∈ w.supervisor.cells := by
    obtain ⟨⟨ring, hsupervisor⟩, -⟩ := invisible_step ha hstep
    rw [hsupervisor]
  cases a with
  | spawn config mode =>
    cases hstep
    exact vacant_spawned (mem_spawnCell w.supervisor config mode)
  | spawnReplay config entries =>
    cases hstep
    apply vacant_spawned
    intro id
    rw [mem_spawnReplayCell, mem_spawnCell]
    rfl
  | enableReplication capacity => exact hkept (hinvisible rfl) id
  | cycle visit =>
    apply hkept _ id
    intro id
    cases step_cases hstep with
    | idle => exact Iff.rfl
    | spawned haction => rcases haction with ⟨mode, h, -⟩ | ⟨entries, h, -⟩ <;> cases h
    | cycled d =>
      rw [d.cells_eq, Finmap.mem_insert]
      refine ⟨?_, .inr⟩
      rintro (rfl | hid)
      · exact HashMap.mem_iff_get?.mpr ⟨d.before, d.before_eq⟩
      · exact hid
  | pop => exact hkept (hinvisible rfl) id
  | apply => exact hkept (hinvisible rfl) id

theorem clock_step_le (hstep : World.step blake3 executor w a = .ok w') :
    w'.clock ≤ w.clock + if a.isCycle then 1 else 0 := by
  cases step_cases hstep with
  | idle => exact Nat.le_add_right _ _
  | spawned => exact Nat.le_add_right _ _
  | enabled => exact Nat.le_add_right _ _
  | cycled d =>
    obtain ⟨hclock, htick⟩ := clock_cycled d
    show (UInt64.toNat _) ≤ w.clock + 1
    rw [hclock, htick]
  | popped => exact Nat.le_add_right _ _
  | accepted => exact Nat.le_add_right _ _
  | refused => exact Nat.le_add_right _ _

/-- The clock has advanced by at most one tick for every cycle of the run. -/
theorem clock_le_cycles {actions : List Action}
    (hrun : run (World.step blake3 executor) w actions = .ok w') :
    w'.clock ≤ w.clock + actions.countP Action.isCycle := by
  induction actions generalizing w with
  | nil =>
    cases hrun
    exact Nat.le_add_right _ _
  | cons a actions ih =>
    obtain ⟨t, hstep, hrest⟩ := run_cons_eq_ok.mp hrun
    have hfirst := clock_step_le hstep
    have hlater := ih hrest
    rw [List.countP_cons]
    omega

/-- Where the order lists only cells that exist and the clock has room, a cycle panics only
if the executor does. -/
theorem runOneCycle_error {s : Supervisor} {e : E} {visit : VisitOrder} {panic : Panic}
    (hregistered : ∀ id ∈ s.scheduler.order, id ∈ s.cells)
    (hclock : s.scheduler.clock.tick.toNat + 1 < 2 ^ 64)
    (h : s.runOneCycle blake3 executor visit e = .error panic) :
    ∃ id cell, s.cell id = some cell ∧
      executor.runQuantum e cell.delivered s.maxInstructionsPerQuantum = .error panic := by
  cases horder : s.scheduler.order with
  | nil =>
    rw [Supervisor.runOneCycle_idle blake3 executor visit e horder] at h
    cases h
  | cons id rest =>
    obtain ⟨cell, hcell⟩ := HashMap.mem_iff_get?.mp
      (hregistered id (by rw [horder]; exact List.mem_cons_self))
    have htick : (UInt64.ofNat (s.scheduler.clock.tick.toNat + 1)).toNat =
        s.scheduler.clock.tick.toNat + 1 := by
      rw [UInt64.toNat_ofNat', Nat.mod_eq_of_lt hclock]
    refine ⟨id, cell, hcell, ?_⟩
    cases hquantum : executor.runQuantum e cell.delivered s.maxInstructionsPerQuantum with
    | ok r =>
      obtain ⟨result, ran, e'⟩ := r
      obtain ⟨reported, s', hreturns⟩ := Supervisor.runOneCycle_returns blake3 visit horder htick
        hcell hquantum
      rw [hreturns] at h
      cases h
    | error panic' =>
      have hadvance : addU64 s.scheduler.clock.tick 1 = .ok _ := addU64_eq_ok.mpr htick
      unfold Supervisor.runOneCycle at h
      simp only [Scheduler.nextDispatch, horder, LogicalClock.advance, hadvance, ok_bind, pure_ok,
        hcell, hquantum] at h
      cases h
      rfl

/-- The registries of the supervisor. After any actions from a new supervisor the dispatch order
lists exactly the registered cells, each once; a cycle panics only if the executor does, up to
the last tick of the clock; it reports that there is no cell exactly when no spawn has
succeeded; a refused spawn changes nothing; and a cycle that has a cell to dispatch consumes
one tick, whatever it reports. -/
theorem supervisor_registry (blake3 : Blake3) (executor : QuantumExecutor E) (max : UInt64) (e : E)
    (standbyPages : ℕ) (actions : List Action) (w : World E)
    (hrun : run (World.step blake3 executor) (new max e standbyPages) actions = .ok w) :
    w.supervisor.scheduler.order.Nodup ∧
    (∀ id, id ∈ w.supervisor.scheduler.order ↔ id ∈ w.supervisor.cells) ∧
    (actions.countP Action.isCycle + 1 < 2 ^ 64 → ∀ visit panic,
      w.supervisor.runOneCycle blake3 executor visit w.executor = .error panic →
      ∃ id cell, w.supervisor.cell id = some cell ∧
        executor.runQuantum w.executor cell.delivered w.supervisor.maxInstructionsPerQuantum =
          .error panic) ∧
    (∀ visit, (∃ s e', w.supervisor.runOneCycle blake3 executor visit w.executor =
        .ok (.ok none, s, e')) ↔
      ¬ Occurs (World.step blake3 executor) (new max e standbyPages) actions
        fun u a => a.Spawns u.supervisor) ∧
    (∀ config mode error, (w.supervisor.spawnCell config mode).1 = .error error →
      (w.supervisor.spawnCell config mode).2 = w.supervisor) ∧
    ∀ visit reported s e', (∃ id, id ∈ w.supervisor.cells) →
      w.supervisor.runOneCycle blake3 executor visit w.executor = .ok (reported, s, e') →
      s.scheduler.currentTick.toNat = w.supervisor.scheduler.currentTick.toNat + 1 := by
  have h : Registry w := registry_of_run hrun
  have hvacant : Vacant w ↔ ¬ Occurs (World.step blake3 executor) (new max e standbyPages) actions
      fun u a => a.Spawns u.supervisor := by
    rw [run_iff_not_occurs (I := fun _ => True) (fun _ _ _ _ _ _ => trivial)
      (fun a _ t t' _ hs => vacant_step hs) trivial hrun]
    exact and_iff_right fun id => Finmap.notMem_empty
  have hempty : w.supervisor.scheduler.order = [] ↔ Vacant w := by
    rw [List.eq_nil_iff_forall_not_mem]
    simp only [h.mem_iff]
    rfl
  refine ⟨h.nodup, h.mem_iff, ?_, ?_, fun _ _ _ => spawnCell_refused, ?_⟩
  · intro hcycles visit panic
    have hle := clock_le_cycles hrun
    have hzero : (new max e standbyPages).clock = 0 := rfl
    have hclock : w.clock + 1 < 2 ^ 64 := by omega
    exact runOneCycle_error (fun id => (h.mem_iff id).mp) hclock
  · intro visit
    rw [← hvacant, ← hempty]
    constructor
    · rintro ⟨s, e', hcycle⟩
      rcases Supervisor.runOneCycle_cases hcycle with ⟨horder, -⟩ | ⟨⟨d⟩⟩
      · exact horder
      · cases d.ended
    · intro horder
      exact ⟨_, _, Supervisor.runOneCycle_idle blake3 executor visit w.executor horder⟩
  · rintro visit reported s e' ⟨id, hid⟩ hcycle
    rcases Supervisor.runOneCycle_cases hcycle with ⟨horder, -⟩ | ⟨⟨d⟩⟩
    · exact absurd hid (hempty.mp horder id)
    · have htick := d.tick_eq
      show s.scheduler.clock.tick.toNat = w.supervisor.scheduler.clock.tick.toNat + 1
      rw [d.scheduler_eq, htick]

/-- A cell, a second spawn of its id, a spawn beyond its quota, and a cycle. -/
theorem supervisor_registry_refused_spawns :
    ∃ w, run Guest.scriptedStep (Guest.scriptedWorld [.rest])
        [.spawn ⟨1, 8192, 8192, 1⟩ .record, .spawn ⟨1, 4096, 4096, 1⟩ .record,
          .spawn ⟨2, 8192, 4096, 1⟩ .record, .ascendingCycle] = .ok w ∧
      w.supervisor.scheduler.order = [1] ∧
      (∀ id, id ∈ w.supervisor.cells ↔ id = 1) ∧
      ∀ reported s e', w.supervisor.runOneCycle (fun _ _ => 0)
          (Guest.scripted.executor (HostSource.frozen 7)) (fun _ => .ascending) w.executor =
            .ok (reported, s, e') →
        s.scheduler.currentTick.toNat = w.supervisor.scheduler.currentTick.toNat + 1 := by
  have hreturns : returnsWith (run Guest.scriptedStep (Guest.scriptedWorld [.rest])
      [.spawn ⟨1, 8192, 8192, 1⟩ .record, .spawn ⟨1, 4096, 4096, 1⟩ .record,
        .spawn ⟨2, 8192, 4096, 1⟩ .record, .ascendingCycle])
      (fun w => decide (w.supervisor.scheduler.order = [1])) = true := by
    decide +kernel
  obtain ⟨w, hrun, htest⟩ := returnsWith_eq_true.mp hreturns
  have horder : w.supervisor.scheduler.order = [1] := of_decide_eq_true htest
  obtain ⟨-, hmem, -, -, -, htick⟩ := supervisor_registry _ _ _ _ _ _ w hrun
  rw [horder] at hmem
  refine ⟨w, hrun, horder, ?_, ?_⟩
  · intro id
    rw [← hmem, List.mem_singleton]
  · intro reported s e'
    exact htick _ reported s e' ⟨1, (hmem 1).mp (List.mem_singleton.mpr rfl)⟩

end World
end ChronosUvm
