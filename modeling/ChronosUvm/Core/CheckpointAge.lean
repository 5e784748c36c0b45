import Mathlib.Tactic
import ChronosUvm.Core.CheckpointCadence

/-!
How old a checkpoint can get. With faults, late spawns and any other tenants there is no
fixed cadence, but checkpoints are never closer than the interval, and a cell that has
stopped faulting is checkpointed before its last checkpoint is older than the interval
and one more round.
-/
namespace ChronosUvm
open Panicking Tables Transitions

/-- The executor leaves the supervisor's books on checkpoints alone. -/
def QuantumExecutor.KeepsBooks {E : Type} (executor : QuantumExecutor E) : Prop :=
  ∀ e cell n result ran e', executor.runQuantum e cell n = .ok (result, ran, e') →
    ran.config = cell.config ∧ ran.checkpoints = cell.checkpoints ∧
      ran.lastCheckpointTick = cell.lastCheckpointTick

theorem Guest.executor_keepsBooks {S Ω : Type} (g : Guest S) (host : HostSource Ω) :
    (g.executor host).KeepsBooks := by
  intro e cell n result ran e' h
  rw [(GuestProgram.run_effect h).2]
  exact ⟨rfl, rfl, rfl⟩

/-- The distance that two checkpoints keep: an interval of 0 means every turn. -/
def CellConfig.minGap (config : CellConfig) : ℕ := max config.checkpointIntervalTicks.toNat 1

namespace Cell

/-- The checkpoint ticks of a cell at this time, spaced by the interval from tick 0 on. -/
structure Spaced (clock : ℕ) (c : Cell) : Prop where
  spaced : (0 :: c.checkpointTicks).Pairwise fun s t => s + c.config.minGap ≤ t
  le_last : ∀ t ∈ 0 :: c.checkpointTicks, t ≤ c.lastCheckpointTick.toNat
  last_eq : c.lastCheckpointTick.toNat = c.checkpointTicks.getLast?.getD 0
  last_le : c.lastCheckpointTick.toNat ≤ clock

theorem Spaced.later {c : Cell} {clock clock' : ℕ} (h : Spaced clock c) (hle : clock ≤ clock') :
    Spaced clock' c := ⟨h.spaced, h.le_last, h.last_eq, h.last_le.trans hle⟩

/-- A checkpoint that is due after the last one. -/
theorem Spaced.taken {c c' : Cell} {clock : ℕ} {tick : Tick} (h : Spaced clock c)
    (htick : tick.toNat = clock + 1) (hdue : c.checkpointDue tick = true)
    (hconfig : c'.config = c.config)
    (hticks : c'.checkpointTicks = c.checkpointTicks ++ [tick.toNat])
    (hlast : c'.lastCheckpointTick = tick) : Spaced (clock + 1) c' := by
  have hgap : c.lastCheckpointTick.toNat + c.config.minGap ≤ tick.toNat := by
    have hle := h.last_le
    have hinterval := of_decide_eq_true hdue
    unfold CellConfig.minGap
    omega
  refine ⟨?_, ?_, ?_, ?_⟩
  · rw [hticks, hconfig, ← List.cons_append]
    refine List.pairwise_append.mpr ⟨h.spaced, List.pairwise_singleton _ _, ?_⟩
    intro s hs t ht
    obtain rfl := List.mem_singleton.mp ht
    have := h.le_last s hs
    omega
  · intro t ht
    rw [hticks, ← List.cons_append] at ht
    rw [hlast]
    rcases List.mem_append.mp ht with ht | ht
    · have := h.le_last t ht
      omega
    · exact (List.mem_singleton.mp ht).le
  · rw [hticks, hlast, List.getLast?_concat]
    rfl
  · rw [hlast, htick]

theorem spaced_new {config : CellConfig} {memory : MmapGuardedMemory} {recorder : EventRecorder}
    (clock : ℕ) : Spaced clock ⟨config, memory, recorder, CheckpointChain.new, FdTable.new,
      PendingCompletions.new, 0⟩ where
  spaced := List.pairwise_singleton _ _
  le_last _ ht := (List.mem_singleton.mp ht).le
  last_eq := rfl
  last_le := Nat.zero_le _

end Cell

namespace World
variable {E : Type} {blake3 : Blake3} {executor : QuantumExecutor E} {w w' : World E}
  {a : Action}

/-- The books of a cell after its turn: a fault or an early turn leaves them, and a turn that
is due and does not fault adds its tick. -/
theorem books_stored (hbooks : executor.KeepsBooks) {visit : VisitOrder} {s s' : Supervisor}
    {e e' : E} {reported : Except SupervisorError (Option (CellId × Tick))}
    (d : Supervisor.Dispatch blake3 executor visit s s' e e' reported) :
    d.stored.config = d.before.config ∧
    (((∃ fault, d.result = .error fault) ∨ d.before.checkpointDue d.tick = false) ∧
        d.stored.checkpointTicks = d.before.checkpointTicks ∧
        d.stored.lastCheckpointTick = d.before.lastCheckpointTick ∨
      d.before.checkpointDue d.tick = true ∧
        d.stored.checkpointTicks = d.before.checkpointTicks ++ [d.tick.toNat] ∧
        d.stored.lastCheckpointTick = d.tick) := by
  obtain ⟨hconfig, hcheckpoints, hlast⟩ := hbooks _ _ _ _ _ _ d.ran_eq
  refine ⟨(recorder_stored d).2.trans hconfig, ?_⟩
  rcases d.ended.stored_cases with ⟨hkept, hstored⟩ | ⟨hok, hdue, -⟩
  · left
    rw [hstored]
    unfold Cell.checkpointTicks
    rw [hcheckpoints, hlast]
    exact ⟨hkept, rfl, rfl⟩
  · right
    have htaken := checkpointTicks_stored d hok hcheckpoints hlast
    have hdue' : d.before.checkpointDue d.tick = true := hdue
    rw [if_pos hdue'] at htaken
    exact ⟨hdue', htaken⟩

/-- Every cell is stored under the id it was configured with, and its checkpoints are spaced
by its interval. -/
def AllSpaced (w : World E) : Prop :=
  ∀ id c, w.supervisor.cells.get? id = some c → c.config.id = id ∧ c.Spaced w.clock

theorem AllSpaced.step (hbooks : executor.KeepsBooks) (h : AllSpaced w)
    (hstep : World.step blake3 executor w a = .ok w') : AllSpaced w' := by
  cases step_cases hstep with
  | idle => exact h
  | spawned =>
    intro id c hget
    rw [HashMap.get?_insert] at hget
    split_ifs at hget with hid
    · cases hget
      exact ⟨hid.symm, Cell.spaced_new _⟩
    · exact h id c hget
  | enabled => exact h
  | cycled d =>
    intro id c hget
    obtain ⟨hclock, htick⟩ := clock_cycled d
    unfold clock
    rw [hclock, htick]
    rw [d.cells_eq, HashMap.get?_insert] at hget
    split_ifs at hget with hid
    · cases hget
      obtain ⟨hkey, hbefore⟩ := h d.id d.before d.before_eq
      obtain ⟨hconfig, hcases⟩ := books_stored hbooks d
      refine ⟨by rw [hconfig, hkey, hid], ?_⟩
      rcases hcases with ⟨-, hticks, hlast⟩ | ⟨hdue, hticks, hlast⟩
      · have hlater := hbefore.later (Nat.le_succ w.clock)
        refine ⟨?_, ?_, ?_, ?_⟩
        · rw [hticks, hconfig]
          exact hlater.spaced
        · rw [hticks, hlast]
          exact hlater.le_last
        · rw [hticks, hlast]
          exact hlater.last_eq
        · rw [hlast]
          exact hlater.last_le
      · exact hbefore.taken htick hdue hconfig hticks hlast
    · exact ⟨(h id c hget).1, (h id c hget).2.later (Nat.le_succ w.clock)⟩
  | popped => exact h
  | accepted => exact h
  | refused => exact h

/-- A cycle in which the quantum of this cell faults. -/
def Faults (executor : QuantumExecutor E) (id : CellId) (w : World E) (a : Action) : Prop :=
  a.isCycle = true ∧ w.supervisor.scheduler.order.head? = some id ∧
    ∃ before fault ran e', w.supervisor.cell id = some before ∧
      executor.runQuantum w.executor before.delivered w.supervisor.maxInstructionsPerQuantum =
        .ok (.error fault, ran, e')

/-- The cell's next turn comes less than a round after its next checkpoint is due, or after
the tick `start` at which the watch begins. -/
structure Awaited (config : CellConfig) (start : ℕ) (w : World E) : Prop where
  cell : ∃ c, w.supervisor.cell config.id = some c ∧ c.config = config ∧
    ∃ pre post, w.supervisor.scheduler.order = pre ++ config.id :: post ∧
      w.clock + pre.length + 2 ≤ max (c.lastCheckpointTick.toNat + config.minGap) (start + 1) +
        w.supervisor.scheduler.order.length

section Cycle
variable {config : CellConfig} {start : ℕ} {visit : VisitOrder} {s' : Supervisor} {e' : E}
  {flushes : List Flush} {reported : Except SupervisorError (Option (CellId × Tick))}
  (d : Supervisor.Dispatch blake3 executor visit w.supervisor s' w.executor e' reported)

/-- A turn of another cell brings the cell one place forward. -/
theorem Awaited.other_turn (h : Awaited config start w) (hid : d.id ≠ config.id) :
    Awaited config start (⟨s', e', w.standby, w.inflight,
      w.quanta ++ [⟨d.id, d.tick, d.ran.memory⟩], w.flushes ++ flushes, w.applied⟩ : World E) := by
  obtain ⟨c, hcell, hconfig, pre, post, horder, hbound⟩ := h.cell
  obtain ⟨hclock, htick⟩ := clock_cycled d
  cases pre with
  | nil =>
    have := d.order_eq.symm.trans horder
    exact absurd (List.cons.inj this).1 hid
  | cons p pre =>
    have hsplit := d.order_eq.symm.trans horder
    rw [List.cons_append] at hsplit
    obtain ⟨-, hrest⟩ := List.cons.inj hsplit
    refine ⟨c, ?_, hconfig, pre, post ++ [d.id], ?_, ?_⟩
    · show s'.cells.get? config.id = some c
      rw [d.cells_eq, HashMap.get?_insert, if_neg (Ne.symm hid)]
      exact hcell
    · show s'.scheduler.order = _
      rw [d.scheduler_eq, hrest, List.append_assoc, List.cons_append]
    · show s'.scheduler.clock.tick.toNat + pre.length + 2 ≤ _ + s'.scheduler.order.length
      rw [hclock, htick, d.scheduler_eq]
      rw [d.order_eq] at hbound
      simp only [List.length_cons, List.length_append, List.length_nil] at hbound ⊢
      omega

/-- A turn of the cell itself: a checkpoint is taken, or none is due yet. -/
theorem Awaited.own_turn (hbooks : executor.KeepsBooks) (h : Awaited config start w)
    (hid : d.id = config.id) (hfault : ¬ Faults executor config.id w (.cycle visit)) :
    Awaited config start (⟨s', e', w.standby, w.inflight,
      w.quanta ++ [⟨d.id, d.tick, d.ran.memory⟩], w.flushes ++ flushes, w.applied⟩ : World E) := by
  obtain ⟨c, hcell, hconfig, -⟩ := h.cell
  obtain ⟨hclock, htick⟩ := clock_cycled d
  rw [← hid] at hcell
  obtain rfl : d.before = c := Option.some.inj (d.before_eq.symm.trans hcell)
  obtain ⟨hkeeps, hcases⟩ := books_stored hbooks d
  have hsoon : w.clock + 2 ≤ d.stored.lastCheckpointTick.toNat + config.minGap := by
    unfold CellConfig.minGap
    rcases hcases with ⟨hkept, -, hlast⟩ | ⟨-, -, hlast⟩
    · have hnot : d.before.checkpointDue d.tick = false := by
        rcases hkept with ⟨fault, hresult⟩ | hnot
        · refine absurd ⟨rfl, ?_, d.before, fault, d.ran, e', ?_, ?_⟩ hfault
          · rw [d.order_eq, List.head?_cons, hid]
          · rw [← hid]
            exact hcell
          · rw [← hresult]
            exact d.ran_eq
        · exact hnot
      have hearly := of_decide_eq_false hnot
      rw [hconfig] at hearly
      rw [hlast]
      omega
    · rw [hlast]
      omega
  refine ⟨d.stored, ?_, hkeeps.trans hconfig, d.rest, [], ?_, ?_⟩
  · show s'.cells.get? config.id = some d.stored
    rw [d.cells_eq, ← hid, HashMap.get?_insert_self]
  · show s'.scheduler.order = _
    rw [d.scheduler_eq, hid]
  · show s'.scheduler.clock.tick.toNat + d.rest.length + 2 ≤ _ + s'.scheduler.order.length
    rw [hclock, htick, d.scheduler_eq]
    simp only [List.length_append, List.length_singleton]
    omega

end Cycle

theorem Awaited.step {config : CellConfig} {start : ℕ} (hbooks : executor.KeepsBooks)
    (h : Awaited config start w) (hfault : ¬ Faults executor config.id w a)
    (hstep : World.step blake3 executor w a = .ok w') : Awaited config start w' := by
  cases step_cases hstep with
  | idle => exact h
  | @spawned _ config' memory recorder haction hmemory hfresh =>
    obtain ⟨c, hcell, hconfig, pre, post, horder, hbound⟩ := h.cell
    have hne : config.id ≠ config'.id := by
      intro heq
      rw [← heq] at hfresh
      exact hfresh (HashMap.mem_iff_get?.mpr ⟨c, hcell⟩)
    refine ⟨c, ?_, hconfig, pre, post ++ [config'.id], ?_, ?_⟩
    · rw [Supervisor.cell, HashMap.get?_insert, if_neg hne]
      exact hcell
    · show w.supervisor.scheduler.order ++ [config'.id] = _
      rw [horder, List.append_assoc, List.cons_append]
    · show w.clock + pre.length + 2 ≤
        _ + (w.supervisor.scheduler.order ++ [config'.id]).length
      rw [List.length_append]
      omega
  | enabled => exact ⟨h.cell⟩
  | cycled d =>
    by_cases hid : d.id = config.id
    · exact h.own_turn d hbooks hid hfault
    · exact h.other_turn d hid
  | popped => exact ⟨h.cell⟩
  | accepted => exact ⟨h.cell⟩
  | refused => exact ⟨h.cell⟩

/-- Checkpoints are neither too close nor too old. In every run, with faults, spawns at any
time and any other tenants, a cell's checkpoints are at least its interval apart, from tick 0
on, and the last of them is the one it remembers. And once the cell has gone one round of the
present cells without a fault, its last checkpoint is at most the interval and a round old,
less two ticks. -/
theorem checkpoint_age_bounded (blake3 : Blake3) (executor : QuantumExecutor E)
    (hbooks : executor.KeepsBooks) (max : UInt64) (e : E) (standbyPages : ℕ)
    (before actions : List Action) (w₀ w : World E)
    (hw₀ : run (World.step blake3 executor) (new max e standbyPages) before = .ok w₀)
    (hrun : run (World.step blake3 executor) w₀ actions = .ok w)
    (id : CellId) (c₀ c : Cell) (hcell₀ : w₀.supervisor.cell id = some c₀)
    (hcell : w.supervisor.cell id = some c)
    (hfaults : ¬ Occurs (World.step blake3 executor) w₀ actions (Faults executor id)) :
    (0 :: c.checkpointTicks).Pairwise (fun s t => s + c.config.minGap ≤ t) ∧
    c.lastCheckpointTick.toNat = c.checkpointTicks.getLast?.getD 0 ∧
    (w₀.clock + w.supervisor.cells.keys.card ≤ w.clock →
      w.clock + 2 ≤ c.lastCheckpointTick.toNat + c.config.minGap +
        w.supervisor.cells.keys.card) := by
  obtain ⟨hregistry₀, hspaced₀⟩ := run_invariant
    (P := fun w : World E => Registry w ∧ AllSpaced w)
    (fun _ _ _ _ hw hs => ⟨hw.1.step hs, hw.2.step hbooks hs⟩)
    ⟨registry_new max e standbyPages, fun _ _ h => (by cases h)⟩ hw₀
  obtain ⟨hregistry, hspaced⟩ := run_invariant
    (P := fun w : World E => Registry w ∧ AllSpaced w)
    (fun _ _ _ _ hw hs => ⟨hw.1.step hs, hw.2.step hbooks hs⟩) ⟨hregistry₀, hspaced₀⟩ hrun
  obtain ⟨hkey₀, -⟩ := hspaced₀ id c₀ hcell₀
  obtain ⟨-, hbooked⟩ := hspaced id c hcell
  refine ⟨hbooked.spaced, hbooked.last_eq, ?_⟩
  intro hround
  have hmem : id ∈ w₀.supervisor.scheduler.order :=
    (hregistry₀.mem_iff id).mpr (HashMap.mem_iff_get?.mpr ⟨c₀, hcell₀⟩)
  obtain ⟨pre, post, horder⟩ := List.append_of_mem hmem
  subst hkey₀
  have hstart : Awaited c₀.config w₀.clock w₀ := by
    refine ⟨c₀, hcell₀, rfl, pre, post, horder, ?_⟩
    rw [horder, List.length_append, List.length_cons]
    omega
  have hawaited : Awaited c₀.config w₀.clock w := run_invariant_of_not_occurs
    (fun _ _ _ _ hw hnot hs => hw.step hbooks hnot hs) hfaults hstart hrun
  obtain ⟨c', hcell', hconfig, pre', post', horder', hbound⟩ := hawaited.cell
  obtain rfl : c = c' := Option.some.inj (hcell.symm.trans hcell')
  rw [← hregistry.length_order] at hround ⊢
  rw [hconfig]
  omega

theorem steadyGuest_not_faults {Ω : Type} (host : HostSource Ω) (id : CellId)
    (w : World (GuestState Unit Ω)) (a : Action) :
    ¬ Faults (steadyGuest.executor host) id w a := by
  rintro ⟨-, -, before, fault, ran, e', -, hran⟩
  obtain ⟨⟨stored, memory⟩, -, hfinish⟩ := bind_returned.mp hran
  cases hfinish

/-- A cell with an interval of three ticks that gets a neighbour after its first turn: at tick 6
its last checkpoint is at tick 4. -/
theorem checkpoint_age_bounded_neighbour :
    ∃ w₀ w c₀ c, run (World.step (fun _ _ => 0) (steadyGuest.executor (HostSource.frozen 7)))
        (new 100 ⟨(), (), []⟩ 1) [.spawn ⟨1, 4096, 4096, 3⟩ .record, .ascendingCycle] = .ok w₀ ∧
      run (World.step (fun _ _ => 0) (steadyGuest.executor (HostSource.frozen 7))) w₀
        (.spawn ⟨2, 4096, 4096, 1⟩ .record :: List.replicate 5 .ascendingCycle) = .ok w ∧
      w₀.supervisor.cell 1 = some c₀ ∧ w.supervisor.cell 1 = some c ∧ w.clock = 6 ∧
      c.checkpointTicks = [4] ∧ w.clock + 2 ≤ c.lastCheckpointTick.toNat + c.config.minGap + 2 := by
  have hreturns : returnsWith
      (run (World.step (fun _ _ => 0) (steadyGuest.executor (HostSource.frozen 7)))
        (new 100 ⟨(), (), []⟩ 1) [.spawn ⟨1, 4096, 4096, 3⟩ .record, .ascendingCycle])
      (fun w₀ => decide (w₀.clock = 1) && (w₀.supervisor.cell 1).isSome && returnsWith
        (run (World.step (fun _ _ => 0) (steadyGuest.executor (HostSource.frozen 7))) w₀
          (.spawn ⟨2, 4096, 4096, 1⟩ .record :: List.replicate 5 .ascendingCycle))
        fun w => decide (w.clock = 6) && decide (w.supervisor.cells.keys.card = 2) &&
          (w.supervisor.cell 1).any fun c => decide (c.checkpointTicks = [4])) = true := by
    decide +kernel
  obtain ⟨w₀, hw₀, htest⟩ := returnsWith_eq_true.mp hreturns
  simp only [Bool.and_eq_true, decide_eq_true_eq] at htest
  obtain ⟨⟨hclock₀, hsome⟩, htest⟩ := htest
  obtain ⟨c₀, hcell₀⟩ := Option.isSome_iff_exists.mp hsome
  obtain ⟨w, hrun, htest⟩ := returnsWith_eq_true.mp htest
  simp only [Bool.and_eq_true, decide_eq_true_eq] at htest
  obtain ⟨⟨hclock, hcard⟩, htest⟩ := htest
  obtain ⟨c, hcell, hticks⟩ := (Option.any_eq_true _ _).mp htest
  obtain ⟨-, -, hage⟩ := checkpoint_age_bounded _ _ (Guest.executor_keepsBooks _ _) _ _ _ _ _
    w₀ w hw₀ hrun 1 c₀ c hcell₀ hcell
    (fun ⟨_, a, _, t, _, _, h⟩ => steadyGuest_not_faults _ _ t a h)
  rw [hclock₀, hclock, hcard] at hage
  exact ⟨w₀, w, c₀, c, hw₀, hrun, hcell₀, hcell, hclock, of_decide_eq_true hticks,
    by rw [hclock]; exact hage (by decide)⟩

end World
end ChronosUvm
