import Mathlib.Tactic
import ChronosUvm.Core.CellStreams
import ChronosUvm.Core.ReplayRun

/-!
The two ways back to a moment of the past. A run that was recorded can be replayed up to
any of its quanta, and the pages that were shipped can be applied up to any of its flushes.
Both lead to the memory that the cell had then.
-/
namespace ChronosUvm
open Panicking Tables Transitions EventRecorder

namespace World

section Moments
variable {E : Type} {blake3 : Blake3} {executor : QuantumExecutor E} {w w' : World E} {a : Action}

/-- The cell of the quantum has the memory that the quantum left. -/
def Keeps (w : World E) (q : Quantum) : Prop :=
  ∃ c, w.supervisor.cell q.cell = some c ∧ c.memory.bytes = q.memory.bytes ∧
    c.memory.sizeBytes = q.memory.sizeBytes

/-- The end of a cycle changes nothing of the memory but dirty bits. -/
theorem bytes_stored {visit : VisitOrder} {s s' : Supervisor} {e e' : E}
    {reported : Except SupervisorError (Option (CellId × Tick))}
    (d : Supervisor.Dispatch blake3 executor visit s s' e e' reported) :
    d.stored.memory.bytes = d.ran.memory.bytes ∧
      d.stored.memory.sizeBytes = d.ran.memory.sizeBytes := by
  rcases d.ended.stored_cases with ⟨-, hstored⟩ | ⟨-, -, hstored⟩
  · rw [hstored]
    exact ⟨rfl, rfl⟩
  · obtain ⟨memory, hend, hbytes, hsize, -⟩ := Cell.checkpoint_end_memory hstored
    rw [hend]
    exact ⟨hbytes, hsize⟩

/-- The quantum of the present tick is kept until the next one. -/
theorem keeps_step (hc : Chronicle w)
    (h : ∀ q ∈ w.quanta, q.tick.toNat = w.clock → w.Keeps q)
    (hstep : World.step blake3 executor w a = .ok w') :
    ∀ q ∈ w'.quanta, q.tick.toNat = w'.clock → w'.Keeps q := by
  cases step_cases hstep with
  | idle => exact h
  | @spawned _ config memory recorder haction hmemory hfresh =>
    intro q hq hnow
    obtain ⟨c, hcell, hkeeps⟩ := h q hq hnow
    refine ⟨c, ?_, hkeeps⟩
    have hne : q.cell ≠ config.id := by
      rintro heq
      exact hfresh (heq ▸ HashMap.mem_iff_get?.mpr ⟨c, hcell⟩)
    rw [Supervisor.cell, HashMap.get?_insert_ne _ hne]
    exact hcell
  | enabled => exact h
  | cycled d =>
    intro q hq hnow
    obtain ⟨hclock, htick⟩ := clock_cycled d
    rcases List.mem_append.mp hq with hq | hq
    · have hle := hc.quanta_le q hq
      have hnow' : q.tick.toNat = d.tick.toNat := hnow.trans (congrArg UInt64.toNat hclock)
      omega
    · obtain rfl := List.mem_singleton.mp hq
      refine ⟨d.stored, ?_, bytes_stored d⟩
      exact (congrArg (fun cells => cells.get? d.id) d.cells_eq).trans
        (HashMap.get?_insert_self ..)
  | popped => exact h
  | accepted => exact h
  | refused => exact h

/-- What follows has later quanta only. -/
theorem mem_quanta_of_le {t : World E} {after : List Action}
    (hafter : run (World.step blake3 executor) t after = .ok w) {q : Quantum}
    (hq : q ∈ w.quanta) (hle : q.tick.toNat ≤ t.clock) : q ∈ t.quanta := by
  obtain ⟨-, hold⟩ := run_invariant
    (P := fun u : World E => t.clock ≤ u.clock ∧
      ∀ q ∈ u.quanta, q.tick.toNat ≤ t.clock → q ∈ t.quanta)
    (fun a _ u u' hu hstep => by
      cases step_cases hstep with
      | idle => exact hu
      | spawned => exact hu
      | enabled => exact hu
      | cycled d =>
        obtain ⟨hclock, htick⟩ := clock_cycled d
        have hlater : t.clock < d.tick.toNat := by
          have := hu.1
          unfold clock at this
          omega
        refine ⟨hlater.le.trans_eq (congrArg UInt64.toNat hclock).symm, ?_⟩
        intro q hq hle
        rcases List.mem_append.mp hq with hq | hq
        · exact hu.2 q hq hle
        · obtain rfl := List.mem_singleton.mp hq
          dsimp only at hle
          omega
      | popped => exact hu
      | accepted => exact hu
      | refused => exact hu)
    ⟨le_refl _, fun _ h _ => h⟩ hafter
  exact hold q hq hle

/-- At any moment of a run, the quantum of the whole run that has the tick of the moment is
kept. -/
theorem keeps_of_moment {max : UInt64} {e : E} {pages : ℕ} {before after : List Action}
    {t : World E} (hbefore : run (World.step blake3 executor) (new max e pages) before = .ok t)
    (hafter : run (World.step blake3 executor) t after = .ok w) {q : Quantum}
    (hq : q ∈ w.quanta) (hnow : q.tick.toNat = t.clock) : t.Keeps q := by
  obtain ⟨-, hkeeps⟩ := run_invariant
    (P := fun u : World E => Chronicle u ∧ ∀ q ∈ u.quanta, q.tick.toNat = u.clock → u.Keeps q)
    (fun _ _ _ _ hu hstep => ⟨hu.1.step hstep, keeps_step hu.1 hu.2 hstep⟩)
    ⟨chronicle_new max e pages, fun _ h => (by cases h)⟩ hbefore
  exact hkeeps q (mem_quanta_of_le hafter hq hnow.le) hnow

/-- A run passes through every quantum of it. -/
theorem moment_of_quantum {max : UInt64} {e : E} {pages : ℕ} {actions : List Action}
    (hrun : run (World.step blake3 executor) (new max e pages) actions = .ok w)
    {q : Quantum} (hq : q ∈ w.quanta) :
    ∃ before after t, actions = before ++ after ∧
      run (World.step blake3 executor) (new max e pages) before = .ok t ∧
      q.tick.toNat = t.clock := by
  obtain ⟨pre, a, post, u, t, rfl, hpre, hstep, -, hold, hnew⟩ :=
    exists_step_of_run (P := fun w : World E => q ∈ w.quanta) (fun h => (by cases h)) hq hrun
  refine ⟨pre ++ [a], post, t, by rw [List.append_assoc, List.singleton_append],
    run_append_eq_ok.mpr ⟨u, hpre, run_cons_eq_ok.mpr ⟨t, hstep, rfl⟩⟩, ?_⟩
  cases step_cases hstep with
  | idle => exact absurd hnew hold
  | spawned => exact absurd hnew hold
  | enabled => exact absurd hnew hold
  | popped => exact absurd hnew hold
  | accepted => exact absurd hnew hold
  | refused => exact absurd hnew hold
  | cycled d =>
    obtain rfl := List.mem_singleton.mp ((List.mem_append.mp hnew).resolve_left hold)
    exact (congrArg UInt64.toNat (clock_cycled d).1).symm

end Moments

section Recorded
variable {S Ω Ω' : Type} {blake3 : Blake3} {guest : Guest S} {host : HostSource Ω}
  {logs : CellId → List (Tick × UInt64 × ReplayEntry)} {t w : World (GuestState S Ω)}

variable {w' : World (GuestState S Ω')}

theorem Replaying.clock_eq (h : Replaying blake3 logs t w') : w'.clock = t.clock := by
  unfold clock
  rw [h.scheduler_eq]

theorem Replaying.keeps (h : Replaying blake3 logs t w') {q : Quantum} (hq : t.Keeps q) :
    w'.Keeps q := by
  obtain ⟨c, hcell, hbytes, hsize⟩ := hq
  obtain ⟨c', hcell', hcells⟩ := h.cells_some q.cell c hcell
  exact ⟨c', hcell', hcells.alike.memory.bytes_eq.trans hbytes,
    hcells.alike.memory.size_eq.trans hsize⟩

theorem calls_prefix {after : List Action}
    (hafter : run (World.step blake3 (guest.executor host)) t after = .ok w) :
    t.executor.calls <+: w.executor.calls := by
  refine run_invariant (P := fun u => t.executor.calls <+: u.executor.calls) ?_
    (List.prefix_refl _) hafter
  intro a _ u u' hu hstep
  obtain ⟨more, hmore⟩ := calls_step hstep
  rw [hmore]
  exact hu.trans (List.prefix_append _ _)

end Recorded

/-- A recorded run can be replayed to any moment of it. The replay from the logs that were
exported at its end, under any other host, with rings and consumers as it likes, returns at the
tick of the moment, after the same host calls with the same results; every cell has the memory
and the checkpoints it had then, and the quantum of that tick left just that memory. And
every quantum has a moment. -/
theorem replay_reaches_moment {S Ω Ω' : Type} (blake3 : Blake3) (guest : Guest S)
    (host : HostSource Ω) (host' : HostSource Ω') (max : UInt64) (state : S) (ω : Ω) (ω' : Ω')
    (standbyPages standbyPages' : ℕ) (actions : List Action)
    (logs : CellId → List (Tick × UInt64 × ReplayEntry)) (w : World (GuestState S Ω))
    (hrecords : ∀ a ∈ actions, a.Records)
    (hrun : run (World.step blake3 (guest.executor host)) (new max ⟨state, ω, []⟩ standbyPages)
      actions = .ok w)
    (hticks : ∀ id, NoReturn (callTicks id w.executor.calls))
    (hlogs : ∀ id c, w.supervisor.cell id = some c →
      ∃ order, logs id = c.recorder.exportLog order) :
    (∀ before after t, actions = before ++ after →
      run (World.step blake3 (guest.executor host)) (new max ⟨state, ω, []⟩ standbyPages)
        before = .ok t →
      ∀ actions' : List Action, (∀ a ∈ actions', a.ReplaysFrom logs) →
        actions'.filterMap Action.visible = before.filterMap Action.visible →
        ∃ w', run (World.step blake3 (guest.executor host'))
            (new max ⟨state, ω', []⟩ standbyPages') actions' = .ok w' ∧
          w'.clock = t.clock ∧ w'.executor.calls = t.executor.calls ∧
          t.executor.calls <+: w.executor.calls ∧
          (∀ id, (w'.supervisor.cell id).map (fun c =>
              (c.memory.bytes, c.memory.sizeBytes, c.checkpoints.entries)) =
            (t.supervisor.cell id).map fun c =>
              (c.memory.bytes, c.memory.sizeBytes, c.checkpoints.entries)) ∧
          ∀ q ∈ w.quanta, q.tick.toNat = w'.clock → w'.Keeps q) ∧
    ∀ q ∈ w.quanta, ∃ before after t, actions = before ++ after ∧
      run (World.step blake3 (guest.executor host)) (new max ⟨state, ω, []⟩ standbyPages)
        before = .ok t ∧ q.tick.toNat = t.clock := by
  refine ⟨?_, fun q hq => moment_of_quantum hrun hq⟩
  rintro before after t rfl hbefore actions' hreplays hsame
  have hafter := run_of_append hrun hbefore
  obtain ⟨w', hrun', h⟩ := replaying_of_moment hrecords hbefore hafter hticks hlogs host' ω'
    standbyPages' hreplays hsame
  refine ⟨w', hrun', h.clock_eq, h.calls_eq, calls_prefix hafter, ?_, ?_⟩
  · intro id
    unfold Supervisor.cell
    cases hc : t.supervisor.cells.get? id with
    | none => rw [h.cells_none id hc]
    | some c =>
      obtain ⟨c', hc', hcells⟩ := h.cells_some id c hc
      rw [hc', Option.map_some, Option.map_some, hcells.alike.memory.bytes_eq,
        hcells.alike.memory.size_eq, hcells.alike.checkpoints_eq]
  · intro q hq hnow
    exact h.keeps (keeps_of_moment hbefore hafter hq (hnow.trans h.clock_eq))

/-- A recorded run of three quanta, stopped after the second one and at its end. -/
theorem stamped_run : ∃ t w c, ∃ order : Iteration c.recorder.log,
    run Guest.scriptedStep (Guest.scriptedWorld [.stamp 1 5, .poke 4097 8, .stamp 3 6])
      [.enableReplication 3, .spawn ⟨1, 8192, 8192, 1⟩ .record, .ascendingCycle,
        .ascendingCycle] = .ok t ∧
    run Guest.scriptedStep (Guest.scriptedWorld [.stamp 1 5, .poke 4097 8, .stamp 3 6])
      ([.enableReplication 3, .spawn ⟨1, 8192, 8192, 1⟩ .record, .ascendingCycle,
        .ascendingCycle] ++ [.ascendingCycle]) = .ok w ∧
    t.clock = 2 ∧ w.supervisor.cell 1 = some c ∧ w.flushes.map Flush.cell = [1, 1, 1] ∧
    w.flushes.map (fun f => f.batch.tick) = [1, 2, 3] ∧
    (∀ id, NoReturn (callTicks id w.executor.calls)) ∧
    ∀ id c₁, w.supervisor.cell id = some c₁ →
      ∃ order₁, c.recorder.exportLog order = c₁.recorder.exportLog order₁ := by
  have hreturns : returnsWith
      (run Guest.scriptedStep (Guest.scriptedWorld [.stamp 1 5, .poke 4097 8, .stamp 3 6])
        [.enableReplication 3, .spawn ⟨1, 8192, 8192, 1⟩ .record, .ascendingCycle,
          .ascendingCycle])
      (fun t => decide (t.clock = 2) && returnsWith (run Guest.scriptedStep t [.ascendingCycle])
        fun w => decide (w.executor.calls.map (fun ev => ev.call.tick) = [1, 3]) &&
          decide (w.supervisor.cells.keys = {1}) && decide (w.flushes.map Flush.cell = [1, 1, 1]) &&
          decide (w.flushes.map (fun f => f.batch.tick) = [1, 2, 3]) &&
          (w.supervisor.cell 1).isSome) = true := by
    decide +kernel
  obtain ⟨t, ht, htest⟩ := returnsWith_eq_true.mp hreturns
  simp only [Bool.and_eq_true, decide_eq_true_eq] at htest
  obtain ⟨hclock, htest⟩ := htest
  obtain ⟨w, hw, htest⟩ := returnsWith_eq_true.mp htest
  simp only [Bool.and_eq_true, decide_eq_true_eq] at htest
  obtain ⟨⟨⟨⟨hcalls, hkeys⟩, hcells⟩, hticks⟩, hsome⟩ := htest
  obtain ⟨c, hc⟩ := Option.isSome_iff_exists.mp hsome
  obtain ⟨entries, hentries⟩ := Quot.exists_rep c.recorder.log.entries
  refine ⟨t, w, c, ⟨entries, hentries⟩, ht, run_append_eq_ok.mpr ⟨t, ht, hw⟩, hclock, hc, hcells,
    hticks, ?_, ?_⟩
  · intro id
    apply noReturn_of_sorted
    have hsublist : (callTicks id w.executor.calls).Sublist
        (w.executor.calls.map fun ev => ev.call.tick) := List.filter_sublist.map _
    rw [hcalls] at hsublist
    exact List.Pairwise.sublist hsublist (by decide)
  · intro id c₁ hc₁
    have hid : id ∈ w.supervisor.cells.keys :=
      Finmap.mem_keys.mpr (HashMap.mem_iff_get?.mpr ⟨c₁, hc₁⟩)
    rw [hkeys, Finset.mem_singleton] at hid
    rw [hid, hc] at hc₁
    cases hc₁
    exact ⟨_, rfl⟩

/-- The run is replayed to its second quantum, on another host and without a ring. -/
theorem replay_reaches_moment_second :
    ∃ t w c, ∃ order : Iteration c.recorder.log, ∃ w',
      run Guest.scriptedStep (Guest.scriptedWorld [.stamp 1 5, .poke 4097 8, .stamp 3 6])
        [.enableReplication 3, .spawn ⟨1, 8192, 8192, 1⟩ .record, .ascendingCycle,
          .ascendingCycle] = .ok t ∧
      run Guest.scriptedStep (Guest.scriptedWorld [.stamp 1 5, .poke 4097 8, .stamp 3 6])
        ([.enableReplication 3, .spawn ⟨1, 8192, 8192, 1⟩ .record, .ascendingCycle,
          .ascendingCycle] ++ [.ascendingCycle]) = .ok w ∧ w.supervisor.cell 1 = some c ∧
      run (World.step (fun _ _ => 0) (Guest.scripted.executor (HostSource.frozen 9)))
        (Guest.scriptedWorld [.stamp 1 5, .poke 4097 8, .stamp 3 6])
        [.spawnReplay ⟨1, 8192, 8192, 1⟩ (c.recorder.exportLog order), .ascendingCycle,
          .ascendingCycle] = .ok w' ∧
      w'.clock = 2 ∧ w'.executor.calls = t.executor.calls ∧
      ∀ q ∈ w.quanta, q.tick.toNat = w'.clock → w'.Keeps q := by
  obtain ⟨t, w, c, order, ht, hw, hclock, hc, -, -, hticks, hlogs⟩ := stamped_run
  obtain ⟨hmoments, -⟩ := replay_reaches_moment (fun _ _ => 0) Guest.scripted
    (HostSource.frozen 7) (HostSource.frozen 9) 100 [.stamp 1 5, .poke 4097 8, .stamp 3 6] () ()
    1 1 _ (fun _ => c.recorder.exportLog order) w (by simp [Action.Records]) hw hticks hlogs
  obtain ⟨w', hrun', hclock', hcalls, -, -, hkeeps⟩ := hmoments _ _ t rfl ht
    [.spawnReplay ⟨1, 8192, 8192, 1⟩ (c.recorder.exportLog order), .ascendingCycle,
      .ascendingCycle] (by simp [Action.ReplaysFrom]) rfl
  exact ⟨t, w, c, order, w', ht, hw, hc, hrun', hclock'.trans hclock, hcalls, hkeeps⟩

/-- The log and the pages agree. In every recorded run whose cycles all have a ring: a fresh
standby that is fed a cell's own batches up to any of its flushes, and a replay of the
run's schedule up to that tick from the exported logs, on any other host, hold the same
memory of the cell. -/
theorem replay_meets_standby {S Ω Ω' : Type} (blake3 : Blake3) (guest : Guest S)
    (host : HostSource Ω) (host' : HostSource Ω') (max : UInt64) (state : S) (ω : Ω) (ω' : Ω')
    (standbyPages standbyPages' : ℕ) (actions : List Action)
    (logs : CellId → List (Tick × UInt64 × ReplayEntry)) (w : World (GuestState S Ω))
    (hrecords : ∀ a ∈ actions, a.Records)
    (hrun : run (World.step blake3 (guest.executor host)) (new max ⟨state, ω, []⟩ standbyPages)
      actions = .ok w)
    (hticks : ∀ id, NoReturn (callTicks id w.executor.calls))
    (hlogs : ∀ id c, w.supervisor.cell id = some c →
      ∃ order, logs id = c.recorder.exportLog order)
    (hon : ¬ Occurs (World.step blake3 (guest.executor host))
      (new max ⟨state, ω, []⟩ standbyPages) actions Unreplicated)
    (pre : List Flush) (f : Flush) (post : List Flush) (hsplit : w.flushes = pre ++ f :: post)
    (capacity : ℕ) (start : StandbyApplyLoop)
    (hstart : StandbyApplyLoop.new capacity = .ok start) :
    ∃ standby, start.applyAll
        ((streamOf f.cell (pre ++ [f])).map Flush.batch) = .ok standby ∧
      standby.lastAppliedTick = f.batch.tick ∧
      ∀ before after t, actions = before ++ after →
        run (World.step blake3 (guest.executor host)) (new max ⟨state, ω, []⟩ standbyPages)
          before = .ok t →
        f.batch.tick.toNat = t.clock →
        ∀ actions' : List Action, (∀ a ∈ actions', a.ReplaysFrom logs) →
          actions'.filterMap Action.visible = before.filterMap Action.visible →
          ∃ w' c', run (World.step blake3 (guest.executor host'))
              (new max ⟨state, ω', []⟩ standbyPages') actions' = .ok w' ∧
            w'.supervisor.cell f.cell = some c' ∧
            ∀ i, c'.memory.pageBytes i = standby.engine.pageOrZero i := by
  obtain ⟨hc, hstreams⟩ := streams_of_run (Guest.executor_marksWrites _ _) hrun hon
  obtain ⟨standby, happly, hlast, hpages⟩ := hstreams.fed hc hsplit hstart
  refine ⟨standby, happly, hlast, ?_⟩
  rintro before after t rfl hbefore hnow actions' hreplays hsame
  have hafter := run_of_append hrun hbefore
  obtain ⟨w', hrun', h⟩ := replaying_of_moment hrecords hbefore hafter hticks hlogs host' ω'
    standbyPages' hreplays hsame
  have hquantum := hc.flushes_mem f (by simp [hsplit])
  obtain ⟨c', hcell', hbytes, -⟩ := h.keeps (keeps_of_moment hbefore hafter hquantum hnow)
  refine ⟨w', c', hrun', hcell', ?_⟩
  intro i
  rw [hpages]
  exact MmapGuardedMemory.pageBytes_congr hbytes i

/-- The batches of two quanta on a standby, and the same two quanta from the log of three. -/
theorem replay_meets_standby_second :
    ∃ w c, ∃ order : Iteration c.recorder.log, ∃ pre f post start standby w' c',
      run Guest.scriptedStep (Guest.scriptedWorld [.stamp 1 5, .poke 4097 8, .stamp 3 6])
        ([.enableReplication 3, .spawn ⟨1, 8192, 8192, 1⟩ .record, .ascendingCycle,
          .ascendingCycle] ++ [.ascendingCycle]) = .ok w ∧
      w.supervisor.cell 1 = some c ∧ w.flushes = pre ++ f :: post ∧ f.batch.tick = 2 ∧
      StandbyApplyLoop.new 1 = .ok start ∧
      start.applyAll ((streamOf f.cell (pre ++ [f])).map Flush.batch) = .ok standby ∧
      run (World.step (fun _ _ => 0) (Guest.scripted.executor (HostSource.frozen 9)))
        (Guest.scriptedWorld [.stamp 1 5, .poke 4097 8, .stamp 3 6])
        [.spawnReplay ⟨1, 8192, 8192, 1⟩ (c.recorder.exportLog order), .ascendingCycle,
          .ascendingCycle] = .ok w' ∧
      w'.supervisor.cell 1 = some c' ∧
      ∀ i, c'.memory.pageBytes i = standby.engine.pageOrZero i := by
  obtain ⟨t, w, c, order, ht, hw, hclock, hc, hcells, hflushTicks, hticks, hlogs⟩ := stamped_run
  obtain ⟨f₁, f, f₃, hflushes⟩ : ∃ f₁ f f₃, w.flushes = [f₁, f, f₃] := by
    apply List.length_eq_three.mp
    rw [← List.length_map Flush.cell, hcells]
    rfl
  simp only [hflushes, List.map_cons, List.map_nil, List.cons.injEq, and_true] at hcells hflushTicks
  obtain ⟨-, hcell, -⟩ := hcells
  obtain ⟨-, htick, -⟩ := hflushTicks
  obtain ⟨standby, happly, -, hmeets⟩ := replay_meets_standby (fun _ _ => 0) Guest.scripted
    (HostSource.frozen 7) (HostSource.frozen 9) 100 [.stamp 1 5, .poke 4097 8, .stamp 3 6] () ()
    1 1 _ (fun _ => c.recorder.exportLog order) w (by simp [Action.Records]) hw hticks hlogs
    (not_unreplicated_enabled (by decide) _ _) [f₁] f [f₃] hflushes 1 _
    (StandbyApplyLoop.new_eq_ok.mpr ⟨by decide, rfl⟩)
  obtain ⟨w', c', hrun', hcell', hpages⟩ := hmeets _ _ t rfl ht (by rw [htick, hclock]; rfl)
    [.spawnReplay ⟨1, 8192, 8192, 1⟩ (c.recorder.exportLog order), .ascendingCycle,
      .ascendingCycle] (by simp [Action.ReplaysFrom]) rfl
  rw [hcell] at hcell'
  exact ⟨w, c, order, [f₁], f, [f₃], _, standby, w', c', hw, hc, hflushes, htick,
    StandbyApplyLoop.new_eq_ok.mpr ⟨by decide, rfl⟩, happly, hrun', hcell', hpages⟩

end World
end ChronosUvm
