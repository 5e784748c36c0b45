import Mathlib.Tactic
import ChronosUvm.Core.ChainStream
import ChronosUvm.Core.CheckpointAge
import ChronosUvm.Core.CrossCheck
import ChronosUvm.Foundations.Cadence

/-!
The recovery point. What is lost if the primary fails now is what its cell did after the
tick that the standby has reached. In a one-cell system this is less than a checkpoint
interval, and as much again for each batch that is still on its way.
-/
namespace ChronosUvm
open Panicking Tables Transitions Cadence

namespace World
variable {E : Type} {blake3 : Blake3} {executor : QuantumExecutor E} {w w' : World E}
  {a : Action}

/-- The only cell has been checkpointed at every interval, and the next checkpoint is not
overdue. -/
structure Punctual (config : CellConfig) (w : World E) : Prop where
  order_eq : w.supervisor.scheduler.order = [config.id]
  cell : ∃ c, w.supervisor.cell config.id = some c ∧ c.config = config ∧
    Dense config.minGap c.checkpointTicks ∧
    c.checkpointTicks.getLast?.getD 0 = c.lastCheckpointTick.toNat ∧
    w.clock + 1 ≤ c.lastCheckpointTick.toNat + config.minGap

theorem Punctual.cycled (hbooks : executor.KeepsBooks) {config : CellConfig}
    (h : Punctual config w) {visit : VisitOrder} {s' : Supervisor} {e' : E} {flushes : List Flush}
    {reported : Except SupervisorError (Option (CellId × Tick))}
    (d : Supervisor.Dispatch blake3 executor visit w.supervisor s' w.executor e' reported)
    (hfault : ¬ Faults executor config.id w (.cycle visit)) :
    Punctual config (⟨s', e', w.standby, w.inflight,
      w.quanta ++ [⟨d.id, d.tick, d.ran.memory⟩], w.flushes ++ flushes, w.applied⟩ : World E) := by
  obtain ⟨hid, hrest⟩ : d.id = config.id ∧ d.rest = [] := by
    have horder := d.order_eq.symm.trans h.order_eq
    exact List.cons.inj horder
  obtain ⟨c, hcell, hconfig, hdense, hlast, hsoon⟩ := h.cell
  obtain ⟨hclock, htick⟩ := clock_cycled d
  rw [← hid] at hcell
  obtain rfl : d.before = c := Option.some.inj (d.before_eq.symm.trans hcell)
  obtain ⟨hkeeps, hcases⟩ := books_stored hbooks d
  refine ⟨?_, d.stored, ?_, hkeeps.trans hconfig, ?_⟩
  · show s'.scheduler.order = [config.id]
    rw [d.scheduler_eq, hrest, hid]
    rfl
  · show s'.cells.get? config.id = some d.stored
    rw [d.cells_eq, ← hid, HashMap.get?_insert_self]
  · have hclock' : clock (⟨s', e', w.standby, w.inflight,
        w.quanta ++ [⟨d.id, d.tick, d.ran.memory⟩], w.flushes ++ flushes, w.applied⟩ : World E) =
        w.clock + 1 := by
      unfold clock
      rw [hclock]
      exact htick
    rw [hclock']
    rcases hcases with ⟨hkept, hticks, hsame⟩ | ⟨-, hticks, htaken⟩
    · -- without a fault there was no checkpoint because none was due
      have hnot : d.before.checkpointDue d.tick = false := by
        rcases hkept with ⟨fault, hresult⟩ | hnot
        · refine absurd ⟨rfl, ?_, d.before, fault, d.ran, e', ?_, ?_⟩ hfault
          · rw [d.order_eq, List.head?_cons, hid]
          · rw [← hid]
            exact hcell
          · rw [← hresult]
            exact d.ran_eq
        · exact hnot
      have hearly := of_decide_eq_false hnot
      rw [hconfig] at hearly
      rw [hticks, hsame]
      refine ⟨hdense, hlast, ?_⟩
      unfold CellConfig.minGap
      omega
    · rw [hticks, htaken]
      refine ⟨hdense.concat (by omega), by rw [List.getLast?_concat]; rfl, ?_⟩
      unfold CellConfig.minGap
      omega

theorem Punctual.step (hbooks : executor.KeepsBooks) {config : CellConfig} (ha : a.Running)
    (h : Punctual config w) (hfault : ¬ Faults executor config.id w a)
    (hstep : World.step blake3 executor w a = .ok w') : Punctual config w' := by
  cases step_cases hstep with
  | idle => exact h
  | spawned haction => rcases haction with ⟨_, rfl, -⟩ | ⟨_, rfl, -⟩ <;> exact ha.elim
  | enabled => exact ha.elim
  | cycled d => exact h.cycled hbooks d hfault
  | popped => exact ⟨h.order_eq, h.cell⟩
  | accepted => exact ⟨h.order_eq, h.cell⟩
  | refused => exact ⟨h.order_eq, h.cell⟩

theorem not_tampers (hbooks : executor.KeepsBooks) (w : World E) (a : Action) :
    ¬ Tampers executor w a := by
  rintro ⟨-, id, before, ran, hbefore, hquantum, hne⟩
  unfold Supervisor.quantumOf at hquantum
  split at hquantum
  · cases hquantum
  · split at hquantum
    · cases hquantum
    · next cell hcell =>
      split at hquantum
      · next result ran' e' hran =>
        cases hquantum
        obtain rfl : before = cell := Option.some.inj (hbefore.symm.trans hcell)
        obtain ⟨-, hcheckpoints, hlast⟩ := hbooks _ _ _ _ _ _ hran
        rw [hcheckpoints, hlast] at hne
        exact hne ⟨rfl, rfl⟩
      · cases hquantum

theorem not_blocked_of_room (h : ∀ ring, w.supervisor.replication = some ring →
    ring.queue.items.length < ring.queue.capacity) : ¬ Blocked executor w a := by
  rintro ⟨-, -, ring, hring, hfull⟩
  have hroom := h ring hring
  omega

/-- Before the first cycle the clock stands at zero. -/
theorem clock_step (ha : ¬ a.Running) (hstep : World.step blake3 executor w a = .ok w') :
    w'.clock = w.clock := by
  cases step_cases hstep with
  | idle => rfl
  | spawned => rfl
  | enabled => rfl
  | cycled => exact absurd trivial ha
  | popped => exact absurd trivial ha
  | accepted => exact absurd trivial ha
  | refused => exact absurd trivial ha

/-- The state in which the setup leaves the books. -/
theorem books_of_setup (hbooks : executor.KeepsBooks) {max : UInt64} {e : E} {standbyPages : ℕ}
    {id : CellId} {setup : List Action} (hsetup : ∀ a ∈ setup, ¬ a.Running)
    (hrun : run (World.step blake3 executor) (new max e standbyPages) setup = .ok w)
    (hone : w.supervisor.scheduler.order = [id]) (hring : w.supervisor.replication.isSome = true) :
    ∃ c, w.supervisor.cell id = some c ∧ c.config.id = id ∧ Punctual c.config w ∧
      Streaming id w ∧ InStep id w := by
  obtain ⟨⟨hu, hz, hr⟩, hspaced, hclock⟩ := run_invariant
    (P := fun w : World E => (Unflushed w ∧ Uncheckpointed w ∧ Registered w) ∧ AllSpaced w ∧
      w.clock = 0)
    (fun a ha _ _ hw hs => ⟨⟨hw.1.1.step (.inl (hsetup a ha)) hs, hw.1.2.1.step (hsetup a ha) hs,
      hw.1.2.2.step hs⟩, hw.2.1.step hbooks hs, (clock_step (hsetup a ha) hs).trans hw.2.2⟩)
    ⟨⟨unflushed_new max e standbyPages, fun _ _ h => (by cases h),
      registered_new max e standbyPages⟩, fun _ _ h => (by cases h), rfl⟩ hrun
  obtain ⟨c, hcell⟩ := HashMap.mem_iff_get?.mp (hr id (by rw [hone]; exact List.mem_cons_self))
  obtain ⟨hentries, hlast⟩ := hz id c hcell
  obtain ⟨hid, -⟩ := hspaced id c hcell
  have hticks : c.checkpointTicks = [] := by
    unfold Cell.checkpointTicks
    rw [hentries]
    rfl
  have hstreaming : Streaming id w := ⟨hone, hring, c, hcell, by rw [hlast, hentries]; rfl,
    by rw [hu.flushes_eq]; exact Nat.zero_le _⟩
  refine ⟨c, hcell, hid, ⟨by rw [hid]; exact hone, c, by rw [hid]; exact hcell, rfl, ?_⟩,
    hstreaming, ?_⟩
  · rw [hticks, hlast, hclock]
    refine ⟨dense_nil _, rfl, ?_⟩
    unfold CellConfig.minGap
    omega
  · rw [hstreaming.inStep_iff hcell, hentries, pushedTicks, hu.flushes_eq]
    rfl

/-- How far the standby is behind. In a one-cell system that replicates from before its first
cycle, under an executor that leaves the books to the supervisor, with no fault and no
checkpoint that found the ring full: at every moment the standby holds the memory that the
quantum of its tick left (zeros at tick 0), and the primary is less than an interval further,
and an interval for each batch in flight or waiting. -/
theorem recovery_point_bounded (blake3 : Blake3) (executor : QuantumExecutor E)
    (hwrites : executor.MarksWrites) (hbooks : executor.KeepsBooks) (max : UInt64) (e : E)
    (standbyPages : ℕ) (id : CellId) (setup actions : List Action) (w₀ w : World E)
    (hsetup : ∀ a ∈ setup, ¬ a.Running)
    (hw₀ : run (World.step blake3 executor) (new max e standbyPages) setup = .ok w₀)
    (hone : w₀.supervisor.scheduler.order = [id])
    (hring : w₀.supervisor.replication.isSome = true)
    (hactions : ∀ a ∈ actions, a.Running)
    (hrun : run (World.step blake3 executor) w₀ actions = .ok w)
    (hfaults : ¬ Occurs (World.step blake3 executor) w₀ actions (Faults executor id))
    (hblocked : ¬ Occurs (World.step blake3 executor) w₀ actions (Blocked executor))
    (c : Cell) (hcell : w.supervisor.cell id = some c) :
    w.clock + 1 ≤ w.standby.lastAppliedTick.toNat +
      ((w.inflight ++ w.supervisor.queued).length + 1) * c.config.minGap ∧
    ((w.standby.lastAppliedTick = 0 ∧ ∀ i, w.standby.engine.pageOrZero i = zeroPage) ∨
      ∃ q ∈ w.quanta, q.cell = id ∧ q.tick = w.standby.lastAppliedTick ∧
        ∀ i, w.standby.engine.pageOrZero i = q.memory.pageBytes i) := by
  have hchain : executor.KeepsChain := fun _ _ _ _ _ _ h => (hbooks _ _ _ _ _ _ h).2.1
  obtain ⟨-, hdeclared⟩ := declared_of_run hwrites hchain (run_append_eq_ok.mpr ⟨w₀, hw₀, hrun⟩)
  obtain ⟨base, start, hbase, hc, ht, h⟩ :=
    converging_of_setup hwrites hsetup hw₀ hone hring hactions hrun
  constructor
  · obtain ⟨c₀, -, rfl, hpunctual₀, hstreaming₀, hstep₀⟩ :=
      books_of_setup hbooks hsetup hw₀ hone hring
    have hpunctual : Punctual c₀.config w := run_invariant_of_not_occurs
      (fun a ha _ _ hw hnot hs => hw.step hbooks (hactions a ha) hnot hs) hfaults hpunctual₀ hrun
    obtain ⟨-, hinStep⟩ := run_invariant_of_not_occurs
      (P := fun w => Streaming c₀.config.id w ∧ InStep c₀.config.id w)
      (fun a ha t _ hw hnot hs => ⟨hw.1.step (hactions a ha) (not_tampers hbooks t a) hs,
        (hw.1.inStep_step (hactions a ha) (not_tampers hbooks t a) hs).mpr ⟨hw.2, hnot⟩⟩)
      hblocked ⟨hstreaming₀, hstep₀⟩ hrun
    obtain ⟨c₁, hcell₁, hconfig, hdense, hlast, hsoon⟩ := hpunctual.cell
    obtain rfl : c = c₁ := Option.some.inj (hcell.symm.trans hcell₁)
    obtain ⟨c₂, hcell₂, hpushed, -⟩ := hinStep
    obtain rfl : c = c₂ := Option.some.inj (hcell.symm.trans hcell₂)
    -- the checkpoints are those of the batches applied, in flight and waiting
    have hticks : c.checkpointTicks = (w.applied.map fun b => b.tick.toNat) ++
        (w.inflight ++ w.supervisor.queued).map fun b => b.tick.toNat := by
      have hall : c.checkpointTicks = (w.flushes.map Flush.batch).map fun b => b.tick.toNat := by
        have hpushed' := congrArg (List.map UInt64.toNat) hpushed
        unfold pushedTicks at hpushed'
        rw [List.map_map, List.map_map] at hpushed'
        rw [List.map_map]
        exact hpushed'
      rw [hall, ← h.lossless, List.append_assoc, List.map_append]
    have happlied : ((w.applied.map fun b => b.tick.toNat).getLast?.getD 0) =
        w.standby.lastAppliedTick.toNat := by
      rw [hdeclared.last_eq, List.getLast?_map]
      cases w.applied.getLast? <;> rfl
    have hage := hdense
    rw [hticks] at hage
    have hfar := hage.getLast_le
    rw [← hticks, hlast, happlied, List.length_map] at hfar
    rw [hconfig, Nat.succ_mul]
    omega
  · rcases h.standby_holds hc ht hbase hdeclared with hzero | ⟨f, hf, hid, hlast, hpage⟩
    · exact .inl hzero
    · exact .inr ⟨_, hc.flushes_mem f hf, hid, hlast, hpage⟩

/-- One batch was applied and one waits in the ring. The bound is met exactly. -/
theorem recovery_point_bounded_behind :
    ∃ w c, run (World.step (fun _ _ => 0) (steadyGuest.executor (HostSource.frozen 7)))
        (new 100 ⟨(), (), []⟩ 1) ([.spawn ⟨1, 4096, 4096, 1⟩ .record, .enableReplication 2] ++
          ([.ascendingCycle, .pop, .apply] ++ [.ascendingCycle])) = .ok w ∧
      w.supervisor.cell 1 = some c ∧ c.config.minGap = 1 ∧ w.clock + 1 = 3 ∧
      w.standby.lastAppliedTick.toNat + ((w.inflight ++ w.supervisor.queued).length + 1) * 1 = 3 ∧
      w.clock + 1 ≤ w.standby.lastAppliedTick.toNat +
        ((w.inflight ++ w.supervisor.queued).length + 1) * c.config.minGap ∧
      ∃ q ∈ w.quanta, q.tick = 1 ∧ ∀ i, w.standby.engine.pageOrZero i = q.memory.pageBytes i := by
  have hreturns : returnsWith
      (run (World.step (fun _ _ => 0) (steadyGuest.executor (HostSource.frozen 7)))
        (new 100 ⟨(), (), []⟩ 1) [.spawn ⟨1, 4096, 4096, 1⟩ .record, .enableReplication 2])
      (fun w₀ => decide (w₀.supervisor.scheduler.order = [1]) &&
        w₀.supervisor.replication.isSome &&
        (w₀.supervisor.replication.all fun r => decide (r.queue.items.length < r.queue.capacity)) &&
        returnsWith
          (run (World.step (fun _ _ => 0) (steadyGuest.executor (HostSource.frozen 7))) w₀
            [.ascendingCycle, .pop, .apply])
          fun t => (t.supervisor.replication.all fun r =>
              decide (r.queue.items.length < r.queue.capacity)) &&
            returnsWith
              (run (World.step (fun _ _ => 0) (steadyGuest.executor (HostSource.frozen 7))) t
                [.ascendingCycle])
              fun w => decide (w.standby.lastAppliedTick = 1) && decide (w.clock = 2) &&
                decide ((w.inflight ++ w.supervisor.queued).length = 1) &&
                (w.supervisor.cell 1).any fun c => decide (c.config.minGap = 1)) = true := by
    decide +kernel
  obtain ⟨w₀, hw₀, htest⟩ := returnsWith_eq_true.mp hreturns
  simp only [Bool.and_eq_true, decide_eq_true_eq, Option.all_eq_true] at htest
  obtain ⟨⟨⟨hone, hring⟩, hroom₀⟩, htest⟩ := htest
  obtain ⟨t, ht, htest⟩ := returnsWith_eq_true.mp htest
  simp only [Bool.and_eq_true, decide_eq_true_eq, Option.all_eq_true] at htest
  obtain ⟨hroom, htest⟩ := htest
  obtain ⟨w, hw, htest⟩ := returnsWith_eq_true.mp htest
  simp only [Bool.and_eq_true, decide_eq_true_eq] at htest
  obtain ⟨⟨⟨hlast, hclock⟩, hwaiting⟩, hsome⟩ := htest
  obtain ⟨c, hcell, hgap⟩ := (Option.any_eq_true _ _).mp hsome
  have hrun := run_append_eq_ok.mpr ⟨t, ht, hw⟩
  have hblocked : ¬ Occurs (World.step (fun _ _ => 0) (steadyGuest.executor (HostSource.frozen 7)))
      w₀ ([.ascendingCycle, .pop, .apply] ++ [.ascendingCycle])
      (Blocked (steadyGuest.executor (HostSource.frozen 7))) := by
    obtain ⟨t₁, h₁, h⟩ := run_cons_eq_ok.mp ht
    obtain ⟨t₂, h₂, h⟩ := run_cons_eq_ok.mp h
    obtain ⟨t₃, h₃, h⟩ := run_cons_eq_ok.mp h
    obtain ⟨t₄, h₄, -⟩ := run_cons_eq_ok.mp hw
    rw [occurs_append ht, occurs_cons h₁, occurs_cons h₂, occurs_cons h₃, occurs_cons h₄]
    simp only [not_occurs_nil, or_false, not_or]
    exact ⟨⟨not_blocked_of_room hroom₀, fun hb => (by cases hb.1), fun hb => (by cases hb.1)⟩,
      not_blocked_of_room hroom⟩
  obtain ⟨hbehind, hholds⟩ := recovery_point_bounded _ _ (Guest.executor_marksWrites _ _)
    (Guest.executor_keepsBooks _ _) _ _ _ 1 _ _ w₀ w (by simp [Action.Running]) hw₀ hone hring
    (by simp [Action.Running]) hrun
    (fun ⟨_, a, _, u, _, _, h⟩ => steadyGuest_not_faults _ _ u a h) hblocked c hcell
  rw [hlast] at hholds
  obtain ⟨hzero, -⟩ | ⟨q, hq, -, htick, hpages⟩ := hholds
  · cases hzero
  · exact ⟨w, c, run_append_eq_ok.mpr ⟨w₀, hw₀, hrun⟩, hcell, of_decide_eq_true hgap,
      by rw [hclock], by rw [hlast, hwaiting]; rfl, hbehind, q, hq, htick, hpages⟩

end World
end ChronosUvm
