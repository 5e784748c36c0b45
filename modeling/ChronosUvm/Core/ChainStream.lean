import Mathlib.Tactic
import ChronosUvm.Core.Convergence
import ChronosUvm.Core.Registry

/-!
The checkpoint chain against the stream of batches in a one-cell system. The cycle
appends the chain entry before it pushes the batch, so the two fall out of step at the
first checkpoint that finds the ring full, and stay so.
-/
namespace ChronosUvm
open Panicking Tables Transitions

namespace Supervisor
variable {E : Type}

/-- The next cycle takes a checkpoint: the dispatched cell is due and its quantum does not
fault. -/
def checkpointsNext (executor : QuantumExecutor E) (s : Supervisor) (e : E) : Bool :=
  match s.scheduler.order with
  | [] => false
  | id :: _ =>
    match s.cells.get? id with
    | none => false
    | some cell => cell.checkpointDue (s.scheduler.clock.tick + 1) &&
      match executor.runQuantum e cell.delivered s.maxInstructionsPerQuantum with
      | .ok (.ok _, _, _) => true
      | .ok (.error _, _, _) | .error _ => false

theorem Dispatch.checkpointsNext_iff {blake3 : Blake3} {executor : QuantumExecutor E}
    {visit : VisitOrder} {s s' : Supervisor} {e e' : E}
    {reported : Except SupervisorError (Option (CellId × Tick))}
    (d : Dispatch blake3 executor visit s s' e e' reported) :
    s.checkpointsNext executor e = true ↔
      (∃ n, d.result = .ok n) ∧ d.before.checkpointDue d.tick = true := by
  have htick : s.scheduler.clock.tick + 1 = d.tick := by
    have hlt := d.tick.toNat_lt
    have heq := d.tick_eq
    have hone : (1 : UInt64).toNat = 1 := rfl
    apply UInt64.toNat_inj.mp
    rw [UInt64.toNat_add, hone, heq]
    omega
  unfold checkpointsNext
  simp only [d.order_eq, d.before_eq, d.ran_eq, htick, Bool.and_eq_true]
  cases d.result with
  | ok n => simp
  | error fault => simp

end Supervisor

namespace World
variable {E : Type} {blake3 : Blake3} {executor : QuantumExecutor E} {w w' : World E}
  {a : Action}

/-- The ticks of the batches that entered the ring. -/
def pushedTicks (w : World E) : List Tick := w.flushes.map fun f => f.batch.tick

/-- The cell has a checkpoint for each pushed batch and for no other tick, and remembers the
last of them. -/
def InStep (id : CellId) (w : World E) : Prop :=
  ∃ c, w.supervisor.cell id = some c ∧
    c.checkpoints.entries.map CheckpointEntry.tick = w.pushedTicks ∧
    c.lastCheckpointTick = w.pushedTicks.getLast?.getD 0

/-- A cycle that takes a checkpoint while the ring is full. -/
def Blocked (executor : QuantumExecutor E) (w : World E) (a : Action) : Prop :=
  a.isCycle = true ∧ w.supervisor.checkpointsNext executor w.executor = true ∧
    ∃ ring, w.supervisor.replication = some ring ∧
      ring.queue.items.length = ring.queue.capacity

/-- A cycle whose quantum itself edits the chain or the tick of the last checkpoint. -/
def Tampers (executor : QuantumExecutor E) (w : World E) (a : Action) : Prop :=
  a.isCycle = true ∧ ∃ id before ran, w.supervisor.cell id = some before ∧
    w.supervisor.quantumOf executor w.executor = some (id, ran) ∧
    ¬ (ran.checkpoints.entries = before.checkpoints.entries ∧
      ran.lastCheckpointTick = before.lastCheckpointTick)

/-- The invariant of the running one-cell system: the cell remembers the tick of its last
entry, and no more batches were pushed than entries appended. -/
structure Streaming (id : CellId) (w : World E) : Prop where
  order_eq : w.supervisor.scheduler.order = [id]
  ring_on : w.supervisor.replication.isSome = true
  cell : ∃ c, w.supervisor.cell id = some c ∧
    c.lastCheckpointTick = (c.checkpoints.entries.map CheckpointEntry.tick).getLast?.getD 0 ∧
    w.flushes.length ≤ c.checkpoints.entries.length

/-- How a cycle changes the chain of its cell and the stream. -/
inductive Streamed (id : CellId) (w w' : World E) (blocked : Prop) : Prop where
  | kept {c c' : Cell} (hcell : w.supervisor.cell id = some c)
      (hcell' : w'.supervisor.cell id = some c') (hblocked : ¬ blocked)
      (hentries : c'.checkpoints.entries = c.checkpoints.entries)
      (hlast : c'.lastCheckpointTick = c.lastCheckpointTick)
      (hflushes : w'.flushes = w.flushes) : Streamed id w w' blocked
  | taken {c c' : Cell} {entry : CheckpointEntry} {f : Flush}
      (hcell : w.supervisor.cell id = some c) (hcell' : w'.supervisor.cell id = some c')
      (hentries : c'.checkpoints.entries = c.checkpoints.entries ++ [entry])
      (hlast : c'.lastCheckpointTick = entry.tick) (hbatch : f.batch.tick = entry.tick)
      (hflushes : ¬ blocked ∧ w'.flushes = w.flushes ++ [f] ∨
        blocked ∧ w'.flushes = w.flushes) : Streamed id w w' blocked

section Dispatched
variable {visit : VisitOrder} {s : Supervisor} {e : E} {ring : DeltaRing}
  {reported : Except SupervisorError (Option (CellId × Tick))}
  (d : Supervisor.Dispatch blake3 executor visit w.supervisor s w.executor e reported)

theorem blocked_iff (hring : w.supervisor.replication = some ring) :
    Blocked executor w (.cycle visit) ↔
      ((∃ n, d.result = .ok n) ∧ d.before.checkpointDue d.tick = true) ∧
        ring.queue.items.length = ring.queue.capacity := by
  unfold Blocked
  rw [d.checkpointsNext_iff]
  simp [Action.isCycle, hring]

/-- The quantum of a cycle that does not tamper. -/
theorem chain_ran (htamper : ¬ Tampers executor w (.cycle visit)) :
    d.ran.checkpoints.entries = d.before.checkpoints.entries ∧
      d.ran.lastCheckpointTick = d.before.lastCheckpointTick := by
  by_contra hne
  exact htamper ⟨rfl, d.id, d.before, d.ran, d.before_eq, d.quantumOf_eq, hne⟩

/-- Its checkpoint and its flush. -/
theorem streamed_of_dispatch (htamper : ¬ Tampers executor w (.cycle visit))
    (hring : w.supervisor.replication = some ring) (hid : w'.supervisor.cell d.id = some d.stored)
    (hflushes : w'.flushes =
      w.flushes ++ observeFlush executor w.supervisor s w.executor) :
    Streamed d.id w w' (Blocked executor w (.cycle visit)) := by
  obtain ⟨hentries, hlast⟩ := chain_ran d htamper
  obtain ⟨entry, htick, happended⟩ :=
    d.ran.entries_checkpointed blake3 visit d.tick (executor.registerDigest e d.ran)
  rw [hentries] at happended
  rw [observeFlush_eq d] at hflushes
  have hunchanged (hqueued : s.queued = w.supervisor.queued) : w'.flushes = w.flushes := by
    rw [hflushes, hqueued, List.drop_length, List.map_nil, List.append_nil]
  rcases d.ended.ring_cases hring with ⟨hkept, hsame, hqueued⟩ |
    ⟨hok, hdue, ⟨hroom, hsame, hqueued⟩ | ⟨hfull, hsame, hqueued⟩⟩
  · refine .kept d.before_eq hid ?_ (hsame ▸ hentries) (hsame ▸ hlast) (hunchanged hqueued)
    rw [blocked_iff d hring]
    rintro ⟨⟨⟨n, hn⟩, hdue⟩, -⟩
    rcases hkept with ⟨fault, hfault⟩ | hnot
    · rw [hn] at hfault
      cases hfault
    · rw [hdue] at hnot
      cases hnot
  · have hnew : s.queued = w.supervisor.queued ++ [d.ran.flushBatch d.tick] := hqueued
    rw [hnew, List.drop_left, List.map_singleton] at hflushes
    refine .taken d.before_eq hid (hsame ▸ happended) (hsame ▸ htick.symm) htick.symm
      (.inl ⟨?_, hflushes⟩)
    rw [blocked_iff d hring]
    omega
  · exact .taken (f := ⟨d.id, d.ran.memory, d.ran.flushBatch d.tick⟩) d.before_eq hid
      (hsame ▸ happended) (hsame ▸ htick.symm) htick.symm
      (.inr ⟨(blocked_iff d hring).mpr ⟨⟨hok, hdue⟩, hfull⟩, hunchanged hqueued⟩)

end Dispatched

/-- A cycle of the one cell that does not tamper. -/
theorem Streaming.dispatched {id : CellId} (h : Streaming id w) {visit : VisitOrder}
    (htamper : ¬ Tampers executor w (.cycle visit))
    (hstep : World.step blake3 executor w (.cycle visit) = .ok w') :
    w'.supervisor.scheduler.order = [id] ∧ w'.supervisor.replication.isSome = true ∧
      Streamed id w w' (Blocked executor w (.cycle visit)) := by
  obtain ⟨⟨reported, s, e⟩, hcycle, hw'⟩ := bind_returned.mp hstep
  cases hw'
  rcases Supervisor.runOneCycle_cases hcycle with ⟨horder, -⟩ | ⟨⟨d⟩⟩
  · rw [h.order_eq] at horder
    cases horder
  · have horder := d.order_eq
    rw [h.order_eq] at horder
    obtain ⟨rfl, hrest⟩ := List.cons.inj horder
    obtain ⟨ring, hring⟩ := Option.isSome_iff_exists.mp h.ring_on
    have hstored : s.cell d.id = some d.stored := by
      show s.cells.get? d.id = some d.stored
      rw [d.cells_eq, HashMap.get?_insert_self]
    refine ⟨?_, d.ended.replication_isSome.trans h.ring_on,
      streamed_of_dispatch d htamper hring hstored rfl⟩
    rw [d.scheduler_eq, ← hrest]
    rfl

/-- The consumer and the standby touch neither the chain nor the record of pushes. -/
theorem drained_step (ha : a.Running) (hcycle : a.isCycle = false)
    (hstep : World.step blake3 executor w a = .ok w') :
    (∃ ring, w'.supervisor = { w.supervisor with replication := ring } ∧
      ring.isSome = w.supervisor.replication.isSome) ∧ w'.flushes = w.flushes := by
  cases step_cases hstep with
  | idle => exact ⟨⟨_, rfl, rfl⟩, rfl⟩
  | spawned haction =>
    rcases haction with ⟨mode, rfl, -⟩ | ⟨entries, rfl, -⟩
    · exact ha.elim
    · exact ha.elim
  | enabled => exact ha.elim
  | cycled => cases hcycle
  | popped hring => exact ⟨⟨_, rfl, by rw [hring]; rfl⟩, rfl⟩
  | accepted => exact ⟨⟨_, rfl, rfl⟩, rfl⟩
  | refused => exact ⟨⟨_, rfl, rfl⟩, rfl⟩

theorem Streaming.step {id : CellId} (h : Streaming id w) (ha : a.Running)
    (htamper : ¬ Tampers executor w a) (hstep : World.step blake3 executor w a = .ok w') :
    Streaming id w' := by
  cases hcycle : a.isCycle with
  | false =>
    obtain ⟨⟨ring, hsupervisor, hsome⟩, hflushes⟩ := drained_step ha hcycle hstep
    obtain ⟨c, hcell, hlast, hle⟩ := h.cell
    refine ⟨by rw [hsupervisor]; exact h.order_eq, by rw [hsupervisor]; exact hsome.trans h.ring_on,
      c, by rw [hsupervisor]; exact hcell, hlast, by rw [hflushes]; exact hle⟩
  | true =>
    obtain ⟨visit, rfl⟩ := Action.isCycle_eq_true hcycle
    obtain ⟨horder, hring, hstreamed⟩ := h.dispatched htamper hstep
    obtain ⟨c₀, hcell₀, hlast₀, hle⟩ := h.cell
    refine ⟨horder, hring, ?_⟩
    cases hstreamed with
    | @kept c c' hcell hcell' _ hentries hlast hflushes =>
      obtain rfl : c₀ = c := Option.some.inj (hcell₀.symm.trans hcell)
      exact ⟨c', hcell', by rw [hlast, hentries]; exact hlast₀,
        by rw [hflushes, hentries]; exact hle⟩
    | @taken c c' entry f hcell hcell' hentries hlast hbatch hflushes =>
      obtain rfl : c₀ = c := Option.some.inj (hcell₀.symm.trans hcell)
      refine ⟨c', hcell', by simp [hlast, hentries], ?_⟩
      rcases hflushes with ⟨-, hflushes⟩ | ⟨-, hflushes⟩
      · simp [hflushes, hentries, hle]
      · rw [hflushes, hentries, List.length_append]
        omega

/-- In the running system the chain is in step as soon as its ticks are the pushed ones. -/
theorem Streaming.inStep_iff {id : CellId} (h : Streaming id w) {c : Cell}
    (hcell : w.supervisor.cell id = some c) :
    InStep id w ↔ c.checkpoints.entries.map CheckpointEntry.tick = w.pushedTicks := by
  obtain ⟨c₀, hcell₀, hlast, -⟩ := h.cell
  obtain rfl : c₀ = c := Option.some.inj (hcell₀.symm.trans hcell)
  constructor
  · rintro ⟨c', hcell', hticks, -⟩
    obtain rfl : c₀ = c' := Option.some.inj (hcell.symm.trans hcell')
    exact hticks
  · intro hticks
    exact ⟨c₀, hcell, hticks, by rw [hlast, hticks]⟩

/-- A step keeps the chain in step unless it is blocked, and no step mends it. -/
theorem Streaming.inStep_step {id : CellId} (h : Streaming id w) (ha : a.Running)
    (htamper : ¬ Tampers executor w a) (hstep : World.step blake3 executor w a = .ok w') :
    InStep id w' ↔ InStep id w ∧ ¬ Blocked executor w a := by
  have h' := h.step ha htamper hstep
  cases hcycle : a.isCycle with
  | false =>
    obtain ⟨⟨ring, hsupervisor, -⟩, hflushes⟩ := drained_step ha hcycle hstep
    have hnot : ¬ Blocked executor w a := by
      rintro ⟨hblocked, -⟩
      rw [hcycle] at hblocked
      cases hblocked
    unfold InStep pushedTicks
    rw [hsupervisor, hflushes]
    simp only [hnot, not_false_eq_true, and_true]
    rfl
  | true =>
    obtain ⟨visit, rfl⟩ := Action.isCycle_eq_true hcycle
    obtain ⟨-, -, hstreamed⟩ := h.dispatched htamper hstep
    cases hstreamed with
    | kept hcell hcell' hblocked hentries hlast hflushes =>
      rw [h'.inStep_iff hcell', h.inStep_iff hcell, hentries, pushedTicks, hflushes]
      simp only [hblocked, not_false_eq_true, and_true]
      rfl
    | @taken c c' entry f hcell hcell' hentries hlast hbatch hflushes =>
      rw [h'.inStep_iff hcell', h.inStep_iff hcell, hentries]
      rcases hflushes with ⟨hblocked, hflushes⟩ | ⟨hblocked, hflushes⟩
      · simp [pushedTicks, hflushes, hbatch, hblocked]
      · -- one entry more than there were, and no batch for it
        obtain ⟨c₀, hcell₀, -, hle⟩ := h.cell
        obtain rfl : c₀ = c := Option.some.inj (hcell₀.symm.trans hcell)
        simp only [hblocked, not_true_eq_false, and_false, iff_false]
        intro hticks
        have hlength := congrArg List.length hticks
        simp only [pushedTicks, hflushes, List.length_map, List.length_append,
          List.length_singleton] at hlength
        omega

/-- Before the first cycle every chain is empty. -/
def Uncheckpointed (w : World E) : Prop :=
  ∀ id c, w.supervisor.cell id = some c → c.checkpoints.entries = [] ∧ c.lastCheckpointTick = 0

theorem Uncheckpointed.step (h : Uncheckpointed w) (ha : ¬ a.Running)
    (hstep : World.step blake3 executor w a = .ok w') : Uncheckpointed w' := by
  cases step_cases hstep with
  | idle => exact h
  | spawned =>
    intro id c hcell
    rw [Supervisor.cell, HashMap.get?_insert] at hcell
    split_ifs at hcell with hid
    · cases hcell
      exact ⟨rfl, rfl⟩
    · exact h id c hcell
  | enabled => exact h
  | cycled => exact absurd trivial ha
  | popped => exact absurd trivial ha
  | accepted => exact absurd trivial ha
  | refused => exact absurd trivial ha

/-- Chain and stream of a one-cell system that replicates from before its first cycle, under
an executor that leaves the chain to the supervisor: they are in step exactly as long as no
checkpoint finds the ring full. -/
theorem chain_in_step_iff (blake3 : Blake3) (executor : QuantumExecutor E) (max : UInt64) (e : E)
    (standbyPages : ℕ) (id : CellId) (setup actions : List Action) (w₀ w : World E)
    (hsetup : ∀ a ∈ setup, ¬ a.Running)
    (hw₀ : run (World.step blake3 executor) (new max e standbyPages) setup = .ok w₀)
    (hone : w₀.supervisor.scheduler.order = [id])
    (hring : w₀.supervisor.replication.isSome = true)
    (hactions : ∀ a ∈ actions, a.Running)
    (huntampered : ¬ Occurs (World.step blake3 executor) w₀ actions (Tampers executor))
    (hrun : run (World.step blake3 executor) w₀ actions = .ok w) :
    InStep id w ↔ ¬ Occurs (World.step blake3 executor) w₀ actions (Blocked executor) := by
  obtain ⟨hu₀, hz₀, hr₀⟩ := run_invariant
    (P := fun w : World E => Unflushed w ∧ Uncheckpointed w ∧ Registered w)
    (fun a ha _ _ hw hs => ⟨hw.1.step (.inl (hsetup a ha)) hs, hw.2.1.step (hsetup a ha) hs,
      hw.2.2.step hs⟩)
    ⟨unflushed_new max e standbyPages, fun _ _ h => (by cases h),
      registered_new max e standbyPages⟩ hw₀
  obtain ⟨c, hcell⟩ := HashMap.mem_iff_get?.mp (hr₀ id (by rw [hone]; exact List.mem_cons_self))
  obtain ⟨hentries, hlast⟩ := hz₀ id c hcell
  have hstart : Streaming id w₀ := ⟨hone, hring, c, hcell, by rw [hlast, hentries]; rfl,
    by rw [hu₀.flushes_eq]; exact Nat.zero_le _⟩
  have hbegin : InStep id w₀ := by
    rw [hstart.inStep_iff hcell, hentries, pushedTicks, hu₀.flushes_eq]
    rfl
  rw [run_iff_not_occurs_of_not_occurs
    (fun a ha _ _ ht htamper hstep => ht.step (hactions a ha) htamper hstep)
    (fun a ha _ _ ht htamper hstep => ht.inStep_step (hactions a ha) htamper hstep)
    huntampered hstart hrun]
  simp only [hbegin, true_and]

/-- Guests leave the chain to the supervisor. -/
theorem guest_not_tampers {S Ω : Type} (g : Guest S) (host : HostSource Ω)
    (w : World (GuestState S Ω)) (a : Action) : ¬ Tampers (g.executor host) w a := by
  rintro ⟨-, id, before, ran, hbefore, hquantum, hne⟩
  unfold Supervisor.quantumOf at hquantum
  split at hquantum
  · cases hquantum
  · split at hquantum
    · cases hquantum
    · next cell hcell =>
      split at hquantum
      · next result ran' e' hran =>
        cases hquantum
        obtain rfl : before = cell := Option.some.inj (hbefore.symm.trans hcell)
        rw [(GuestProgram.run_effect hran).2] at hne
        exact hne ⟨rfl, rfl⟩
      · cases hquantum

/-- Two checkpoints through a ring of one slot that is drained in between. -/
theorem chain_in_step_iff_drained :
    ∃ w₀ w, run Guest.scriptedStep (Guest.scriptedWorld [.poke 5 7, .poke 6 8])
        [.spawn ⟨1, 4096, 4096, 1⟩ .record, .enableReplication 1] = .ok w₀ ∧
      run Guest.scriptedStep w₀ [.ascendingCycle, .pop, .ascendingCycle] = .ok w ∧
      w.pushedTicks = [1, 2] ∧
      (InStep 1 w ↔ ¬ Occurs Guest.scriptedStep w₀ [.ascendingCycle, .pop, .ascendingCycle]
        (Blocked (Guest.scripted.executor (HostSource.frozen 7)))) := by
  have hreturns : returnsWith
      (run Guest.scriptedStep (Guest.scriptedWorld [.poke 5 7, .poke 6 8])
        [.spawn ⟨1, 4096, 4096, 1⟩ .record, .enableReplication 1])
      (fun w₀ => decide (w₀.supervisor.scheduler.order = [1]) &&
        w₀.supervisor.replication.isSome && returnsWith
          (run Guest.scriptedStep w₀ [.ascendingCycle, .pop, .ascendingCycle])
          fun w => decide (w.pushedTicks = [1, 2])) = true := by
    decide +kernel
  obtain ⟨w₀, hw₀, htest⟩ := returnsWith_eq_true.mp hreturns
  simp only [Bool.and_eq_true, decide_eq_true_eq] at htest
  obtain ⟨⟨hone, hring⟩, htest⟩ := htest
  obtain ⟨w, hrun, hticks⟩ := returnsWith_eq_true.mp htest
  refine ⟨w₀, w, hw₀, hrun, of_decide_eq_true hticks, ?_⟩
  exact chain_in_step_iff _ _ _ _ _ 1 _ _ w₀ w (by simp [Action.Running]) hw₀ hone hring
    (by simp [Action.Running])
    (fun ⟨_, a, _, t, _, _, h⟩ => guest_not_tampers _ _ t a h) hrun

/-- Nobody drains the ring of one slot, and the second checkpoint is appended and remembered
without a batch. -/
theorem chain_ahead_of_stream :
    ∃ w₀ w c, run Guest.scriptedStep (Guest.scriptedWorld [.poke 5 7, .poke 6 8])
        [.spawn ⟨1, 4096, 4096, 1⟩ .record, .enableReplication 1] = .ok w₀ ∧
      w₀.supervisor.scheduler.order = [1] ∧
      run Guest.scriptedStep w₀ [.ascendingCycle, .ascendingCycle] = .ok w ∧
      w.supervisor.cell 1 = some c ∧
      c.checkpoints.entries.map CheckpointEntry.tick = [1, 2] ∧ c.lastCheckpointTick = 2 ∧
      w.pushedTicks = [1] ∧ ¬ InStep 1 w := by
  have hreturns : returnsWith
      (run Guest.scriptedStep (Guest.scriptedWorld [.poke 5 7, .poke 6 8])
        [.spawn ⟨1, 4096, 4096, 1⟩ .record, .enableReplication 1])
      (fun w₀ => decide (w₀.supervisor.scheduler.order = [1]) && returnsWith
        (run Guest.scriptedStep w₀ [.ascendingCycle, .ascendingCycle])
        fun w => decide (w.pushedTicks = [1]) && match w.supervisor.cell 1 with
          | none => false
          | some c => decide (c.checkpoints.entries.map CheckpointEntry.tick = [1, 2]) &&
            decide (c.lastCheckpointTick = 2)) = true := by
    decide +kernel
  obtain ⟨w₀, hw₀, htest⟩ := returnsWith_eq_true.mp hreturns
  simp only [Bool.and_eq_true, decide_eq_true_eq] at htest
  obtain ⟨hone, htest⟩ := htest
  obtain ⟨w, hrun, htest⟩ := returnsWith_eq_true.mp htest
  simp only [Bool.and_eq_true, decide_eq_true_eq] at htest
  obtain ⟨hpushed, htest⟩ := htest
  cases hcell : w.supervisor.cell 1 with
  | none => simp [hcell] at htest
  | some c =>
    simp only [hcell, Bool.and_eq_true, decide_eq_true_eq] at htest
    obtain ⟨hticks, hlast⟩ := htest
    refine ⟨w₀, w, c, hw₀, hone, hrun, hcell, hticks, hlast, hpushed, ?_⟩
    rintro ⟨c', hcell', hsame, -⟩
    obtain rfl : c = c' := Option.some.inj (hcell.symm.trans hcell')
    rw [hticks, hpushed] at hsame
    cases hsame

end World
end ChronosUvm
