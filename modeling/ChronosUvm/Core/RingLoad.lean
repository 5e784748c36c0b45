import Mathlib.Tactic
import ChronosUvm.Core.ChainStream
import ChronosUvm.Foundations.Backlog

/-!
The ring under load, with any number of cells. What enters the ring arrives, unless a
second `enable_replication` throws it away; and a checkpoint is refused by the ring
exactly when the consumer has fallen behind by more than the ring's capacity.
-/
namespace ChronosUvm
open Panicking Tables Transitions Backlog

theorem DeltaRing.push_capacity (r : DeltaRing) (b : TickBatch) :
    (r.push b).2.queue.capacity = r.queue.capacity := by
  unfold push BoundedQueue.ArrayQueue.push
  split_ifs <;> rfl

namespace Supervisor
variable {E : Type} {blake3 : Blake3} {executor : QuantumExecutor E} {visit : VisitOrder}
  {s s' : Supervisor} {e e' : E} {reported : Except SupervisorError (Option (CellId × Tick))}

def ringCapacity (s : Supervisor) : Option ℕ := s.replication.map fun ring => ring.queue.capacity

theorem ringCapacity_finishCycle (blake3 : Blake3) (visit : VisitOrder) (s : Supervisor)
    (outcome : DispatchOutcome) (result : Except QuantumFault UInt64) (digest : Hash)
    (ran : Cell) :
    (s.finishCycle blake3 visit outcome result digest ran).2.ringCapacity = s.ringCapacity := by
  unfold finishCycle ringCapacity
  cases result with
  | error fault => rfl
  | ok n =>
    simp only
    split_ifs with hdue
    · cases hring : s.replication with
      | none => simp
      | some ring =>
        have hcapacity := ring.push_capacity (ran.flushBatch outcome.tick)
        simp only
        split
        · next error ring' hpush =>
          rw [hpush] at hcapacity
          exact congrArg some hcapacity
        · next ring' hpush =>
          rw [hpush] at hcapacity
          exact congrArg some hcapacity
    · rfl

theorem ringCapacity_runOneCycle
    (h : s.runOneCycle blake3 executor visit e = .ok (reported, s', e')) :
    s'.ringCapacity = s.ringCapacity := by
  unfold runOneCycle at h
  obtain ⟨⟨outcome, scheduler⟩, -, h⟩ := bind_returned.mp h
  cases outcome with
  | none =>
    cases h
    rfl
  | some outcome =>
    simp only at h
    split at h
    · cases h
    · obtain ⟨⟨result, ran, e₁⟩, -, h⟩ := bind_returned.mp h
      cases h
      exact ringCapacity_finishCycle _ _ _ _ _ _ _

/-- A cycle reports backpressure exactly when it takes a checkpoint and the ring is full. -/
theorem CycleEnd.backpressure_iff {replication replication' : Option DeltaRing}
    {outcome : DispatchOutcome} {result : Except QuantumFault UInt64} {digest : Hash}
    {ran stored : Cell}
    (h : CycleEnd blake3 visit replication outcome result digest ran reported stored replication')
    {ring : DeltaRing} (hon : replication = some ring) :
    (∃ id error, reported = .error (.replicationBackpressure id error)) ↔
      ((∃ n, result = .ok n) ∧ outcome.checkpointDue = true) ∧
        ring.queue.items.length = ring.queue.capacity := by
  cases h with
  | kept h =>
    constructor
    · rintro ⟨_, _, herror⟩
      cases herror
    · rintro ⟨⟨⟨n, hn⟩, hdue⟩, -⟩
      rcases h with ⟨fault, hfault⟩ | hnot
      · rw [hn] at hfault
        cases hfault
      · rw [hdue] at hnot
        cases hnot
  | unreplicated hresult hdue hoff =>
    rw [hoff] at hon
    cases hon
  | flushed hresult hdue hring hitems hroom =>
    rw [hring] at hon
    cases hon
    constructor
    · rintro ⟨_, _, herror⟩
      cases herror
    · rintro ⟨-, hfull⟩
      omega
  | backpressure hresult hdue hring hfull =>
    rw [hring] at hon
    cases hon
    exact ⟨fun _ => ⟨⟨⟨_, hresult⟩, hdue⟩, hfull⟩, fun _ => ⟨_, _, rfl⟩⟩

end Supervisor

namespace World
variable {E : Type} {blake3 : Blake3} {executor : QuantumExecutor E} {w w' : World E}
  {a : Action}

/-- A second `enable_replication` while batches wait in the first ring. -/
def Replaces (w : World E) (a : Action) : Prop :=
  (∃ capacity, a = .enableReplication capacity) ∧ w.supervisor.queued ≠ []

/-- Every batch that entered the ring is applied, popped or waiting, once and in order. -/
def Lossless (w : World E) : Prop :=
  w.applied ++ w.inflight ++ w.supervisor.queued = w.flushes.map Flush.batch

theorem lossless_enabled {pages capacity : ℕ} (ht : InTransit pages w)
    (hstep : World.step blake3 executor w (.enableReplication capacity) = .ok w') :
    Lossless w' ↔ Lossless w ∧ ¬ Replaces w (.enableReplication capacity) := by
  obtain ⟨s, hs, hw'⟩ := bind_returned.mp hstep
  obtain ⟨ring, hring, hs⟩ := bind_returned.mp hs
  cases hs
  cases hw'
  have hempty : Supervisor.queued { w.supervisor with replication := some ring } = [] :=
    DeltaRing.new_eq_ok hring
  unfold Lossless Replaces
  simp only [hempty, List.append_nil]
  by_cases hqueued : w.supervisor.queued = []
  · simp [hqueued]
  · simp only [hqueued, ne_eq, not_false_eq_true, Action.enableReplication.injEq, exists_eq',
      and_self, not_true_eq_false, and_false, iff_false]
    intro hall
    have hlength := ht.sublist.length_le
    rw [← hall, List.length_append] at hlength
    exact hqueued (List.length_eq_zero_iff.mp (by omega))

theorem lossless_step {pages : ℕ} (hc : Chronicle w) (ht : InTransit pages w)
    (hstep : World.step blake3 executor w a = .ok w') :
    Lossless w' ↔ Lossless w ∧ ¬ Replaces w a := by
  by_cases henable : ∃ capacity, a = .enableReplication capacity
  · obtain ⟨capacity, rfl⟩ := henable
    exact lossless_enabled ht hstep
  · have hnot : ¬ Replaces w a := fun h => henable h.1
    simp only [hnot, not_false_eq_true, and_true]
    unfold Lossless
    cases step_cases hstep with
    | idle => rfl
    | spawned => rfl
    | enabled => exact absurd ⟨_, rfl⟩ henable
    | cycled d hflushed =>
      cases hflushed with
      | nothing hqueued => simp only [hqueued, List.append_nil]
      | pushed hqueued =>
        simp only [hqueued, List.map_append, List.map_singleton, ← List.append_assoc]
        exact List.append_left_inj _
    | @popped ring ring' batch hring hitems =>
      have hqueued : w.supervisor.queued = batch :: ring'.queue.items := by
        unfold Supervisor.queued
        rw [hring, Supervisor.waiting, hitems]
      rw [hqueued]
      simp [Supervisor.queued, Supervisor.waiting]
    | accepted hinflight happly => simp [hinflight]
    | refused hinflight happly =>
      rw [ht.next_accepted hc hinflight] at happly
      simp at happly

/-- Updates are neither lost nor duplicated nor reordered. In every run, however cycles of any
cells, pops and applications interleave, the batches applied, popped and waiting are the ones
pushed, in order, if and only if no waiting batch was thrown away with its ring. -/
theorem batches_conserved_iff (blake3 : Blake3) (executor : QuantumExecutor E) (max : UInt64)
    (e : E) (standbyPages : ℕ) (actions : List Action) (w : World E)
    (hrun : run (World.step blake3 executor) (new max e standbyPages) actions = .ok w) :
    w.applied ++ w.inflight ++ w.supervisor.queued = w.flushes.map Flush.batch ↔
      ¬ Occurs (World.step blake3 executor) (new max e standbyPages) actions Replaces := by
  have hiff : Lossless w ↔ Lossless (new max e standbyPages) ∧
      ¬ Occurs (World.step blake3 executor) (new max e standbyPages) actions Replaces :=
    run_iff_not_occurs (I := fun w => Chronicle w ∧ InTransit standbyPages w)
      (fun _ _ _ _ ht hstep => ⟨ht.1.step hstep, ht.2.step ht.1 hstep⟩)
      (fun _ _ _ _ ht hstep => lossless_step ht.1 ht.2 hstep)
      ⟨chronicle_new max e standbyPages, inTransit_new max e standbyPages⟩ hrun
  rw [← Lossless, hiff]
  exact and_iff_right rfl

/-- A second ring is set up while a batch waits in the first. -/
theorem batches_conserved_iff_replaced :
    ∃ w, run Guest.scriptedStep (Guest.scriptedWorld [.poke 5 7])
        [.spawn ⟨1, 4096, 4096, 1⟩ .record, .enableReplication 1, .ascendingCycle,
          .enableReplication 1] = .ok w ∧
      w.flushes.length = 1 ∧ w.applied ++ w.inflight ++ w.supervisor.queued = [] ∧
      Occurs Guest.scriptedStep (Guest.scriptedWorld [.poke 5 7])
        [.spawn ⟨1, 4096, 4096, 1⟩ .record, .enableReplication 1, .ascendingCycle,
          .enableReplication 1] Replaces := by
  have hreturns : returnsWith
      (run Guest.scriptedStep (Guest.scriptedWorld [.poke 5 7])
        [.spawn ⟨1, 4096, 4096, 1⟩ .record, .enableReplication 1, .ascendingCycle,
          .enableReplication 1])
      (fun w => decide (w.flushes.length = 1) &&
        (w.applied ++ w.inflight ++ w.supervisor.queued).isEmpty) = true := by
    decide +kernel
  obtain ⟨w, hrun, htest⟩ := returnsWith_eq_true.mp hreturns
  simp only [Bool.and_eq_true, decide_eq_true_eq, List.isEmpty_iff] at htest
  obtain ⟨hflushes, hnone⟩ := htest
  refine ⟨w, hrun, hflushes, hnone, ?_⟩
  by_contra hnever
  have hall := (batches_conserved_iff _ _ _ _ _ _ w hrun).mpr hnever
  rw [hnone] at hall
  have := congrArg List.length hall
  rw [List.length_map, hflushes] at this
  cases this

/-- The load that an action puts on the ring: a checkpoint is an arrival, a pop a service. -/
def ringLoad (executor : QuantumExecutor E) (w : World E) : Action → Load
  | .cycle _ => if w.supervisor.checkpointsNext executor w.executor then .arrival else .other
  | .pop => .service
  | .spawn _ _ | .spawnReplay _ _ | .enableReplication _ | .apply => .other

/-- A cycle that returns `ReplicationBackpressure`. -/
def Backpressured (blake3 : Blake3) (executor : QuantumExecutor E) (w : World E) (a : Action) :
    Prop :=
  ∃ visit id error s e, a = .cycle visit ∧
    w.supervisor.runOneCycle blake3 executor visit w.executor =
      .ok (.error (.replicationBackpressure id error), s, e)

/-- A ring of this capacity is there. -/
def RingOf (capacity : ℕ) (w : World E) : Prop := w.supervisor.ringCapacity = some capacity

theorem RingOf.exists_ring {capacity : ℕ} (h : RingOf capacity w) :
    ∃ ring, w.supervisor.replication = some ring ∧ ring.queue.capacity = capacity ∧
      w.supervisor.queued = ring.queue.items := by
  obtain ⟨ring, hring, hcapacity⟩ := Option.map_eq_some_iff.mp h
  refine ⟨ring, hring, hcapacity, ?_⟩
  unfold Supervisor.queued
  rw [hring, Supervisor.waiting]

theorem RingOf.length_le {capacity : ℕ} (h : RingOf capacity w) :
    w.supervisor.queued.length ≤ capacity := by
  obtain ⟨ring, -, rfl, hqueued⟩ := h.exists_ring
  rw [hqueued]
  exact ring.queue.length_le

theorem queued_pop (hstep : World.step blake3 executor w .pop = .ok w') :
    w'.supervisor.queued = w.supervisor.queued.tail ∧
      w'.supervisor.ringCapacity = w.supervisor.ringCapacity := by
  unfold World.step at hstep
  unfold Supervisor.queued Supervisor.ringCapacity
  cases hring : w.supervisor.replication with
  | none =>
    simp only [hring, Except.ok.injEq] at hstep
    rw [← hstep, hring]
    exact ⟨rfl, rfl⟩
  | some ring =>
    cases hitems : ring.queue.items with
    | nil =>
      simp only [hring, DeltaRing.pop, BoundedQueue.ArrayQueue.pop, hitems, List.head?_nil,
        Except.ok.injEq] at hstep
      rw [← hstep, hring]
      simp [Supervisor.waiting, hitems]
    | cons b rest =>
      simp only [hring, DeltaRing.pop, BoundedQueue.ArrayQueue.pop, hitems, List.head?_cons,
        Except.ok.injEq] at hstep
      rw [← hstep]
      simp [Supervisor.waiting, hitems]

/-- Spawns and applications do not touch the ring. -/
theorem replication_step (hcycle : a.isCycle = false) (hpop : a ≠ .pop)
    (henable : ∀ capacity, a ≠ .enableReplication capacity)
    (hstep : World.step blake3 executor w a = .ok w') :
    w'.supervisor.replication = w.supervisor.replication := by
  cases step_cases hstep with
  | idle => rfl
  | spawned => rfl
  | @enabled capacity => exact absurd rfl (henable capacity)
  | cycled => cases hcycle
  | popped => exact absurd rfl hpop
  | accepted => rfl
  | refused => rfl

theorem RingOf.step {capacity : ℕ} (h : RingOf capacity w)
    (henable : ∀ n, a ≠ .enableReplication n)
    (hstep : World.step blake3 executor w a = .ok w') : RingOf capacity w' := by
  cases hcycle : a.isCycle with
  | true =>
    obtain ⟨visit, rfl⟩ := Action.isCycle_eq_true hcycle
    obtain ⟨⟨reported, s, e⟩, hrun, hw'⟩ := bind_returned.mp hstep
    cases hw'
    exact (Supervisor.ringCapacity_runOneCycle hrun).trans h
  | false =>
    by_cases hpop : a = .pop
    · subst hpop
      exact (queued_pop hstep).2.trans h
    · unfold RingOf Supervisor.ringCapacity
      rw [replication_step hcycle hpop henable hstep]
      exact h

/-- What a cycle does to the ring, and when it reports backpressure. -/
theorem RingOf.cycled {capacity : ℕ} (h : RingOf capacity w) {visit : VisitOrder}
    (hstep : World.step blake3 executor w (.cycle visit) = .ok w') :
    (Backpressured blake3 executor w (.cycle visit) ↔
      ringLoad executor w (.cycle visit) = .arrival ∧
        w.supervisor.queued.length = capacity) ∧
    (¬ Backpressured blake3 executor w (.cycle visit) → w'.supervisor.queued.length =
      advance w.supervisor.queued.length (ringLoad executor w (.cycle visit))) := by
  obtain ⟨ring, hring, hcapacity, hqueued⟩ := h.exists_ring
  obtain ⟨⟨reported, s, e⟩, hrun, hw'⟩ := bind_returned.mp hstep
  cases hw'
  have hreported : Backpressured blake3 executor w (.cycle visit) ↔
      ∃ id error, reported = .error (.replicationBackpressure id error) := by
    constructor
    · rintro ⟨visit', id, error, s', e', hvisit, hrun'⟩
      cases hvisit
      rw [hrun] at hrun'
      cases hrun'
      exact ⟨id, error, rfl⟩
    · rintro ⟨id, error, rfl⟩
      exact ⟨visit, id, error, s, e, rfl, hrun⟩
  rw [hreported]
  rcases Supervisor.runOneCycle_cases hrun with ⟨horder, rfl, rfl, rfl⟩ | ⟨⟨d⟩⟩
  · have hload : ringLoad executor w (.cycle visit) = .other := by
      simp [ringLoad, Supervisor.checkpointsNext, horder]
    simp [hload, advance]
  · have hload : ringLoad executor w (.cycle visit) = .arrival ↔
        (∃ n, d.result = .ok n) ∧ d.before.checkpointDue d.tick = true := by
      rw [← d.checkpointsNext_iff, ringLoad]
      split_ifs with hnext <;> simp [hnext]
    rw [hload, d.ended.backpressure_iff hring, hqueued, hcapacity]
    refine ⟨Iff.rfl, fun hnot => ?_⟩
    show s.queued.length = _
    rcases d.ended.ring_cases hring with ⟨hkept, -, hsame⟩ |
      ⟨hok, hdue, ⟨hroom, -, hpushed⟩ | ⟨hfull, -, -⟩⟩
    · have hother : ringLoad executor w (.cycle visit) = .other := by
        rw [ringLoad, if_neg]
        intro hnext
        obtain ⟨⟨n, hn⟩, hdue⟩ := d.checkpointsNext_iff.mp hnext
        rcases hkept with ⟨fault, hfault⟩ | hnot
        · rw [hn] at hfault
          cases hfault
        · exact absurd (hdue.symm.trans hnot) (by decide)
      rw [hother, Supervisor.queued, hsame, hring]
      rfl
    · rw [hload.mpr ⟨hok, hdue⟩, Supervisor.queued, hpushed, hring, List.length_append]
      rfl
    · exact absurd ⟨⟨hok, hdue⟩, hfull.trans hcapacity⟩ hnot

/-- The same of every action besides `enable_replication`. -/
theorem RingOf.loaded {capacity : ℕ} (h : RingOf capacity w)
    (henable : ∀ n, a ≠ .enableReplication n)
    (hstep : World.step blake3 executor w a = .ok w') :
    (Backpressured blake3 executor w a ↔
      ringLoad executor w a = .arrival ∧ w.supervisor.queued.length = capacity) ∧
    (¬ Backpressured blake3 executor w a → w'.supervisor.queued.length =
      advance w.supervisor.queued.length (ringLoad executor w a)) := by
  cases hcycle : a.isCycle with
  | true =>
    obtain ⟨visit, rfl⟩ := Action.isCycle_eq_true hcycle
    exact h.cycled hstep
  | false =>
    have hnot : ¬ Backpressured blake3 executor w a := by
      rintro ⟨visit, -, -, -, -, rfl, -⟩
      cases hcycle
    by_cases hpop : a = .pop
    · subst hpop
      simp only [hnot, false_iff, not_false_eq_true, forall_const]
      refine ⟨fun harrival => (by cases harrival.1), ?_⟩
      rw [(queued_pop hstep).1, List.length_tail]
      rfl
    · have hother : ringLoad executor w a = .other := by
        cases a with
        | cycle => cases hcycle
        | pop => exact absurd rfl hpop
        | _ => rfl
      simp only [hnot, hother, reduceCtorEq, false_and, not_false_eq_true, forall_const, true_and]
      rw [Supervisor.queued, replication_step hcycle hpop henable hstep]
      rfl

/-- How large the ring has to be. From a moment at which the ring is empty, with any cells and
any guests, no cycle of a run returns `ReplicationBackpressure` if and only if in every stretch
of the run the checkpoints taken exceed the pops by at most the ring's capacity. -/
theorem no_backpressure_iff (blake3 : Blake3) (executor : QuantumExecutor E) (w₀ w : World E)
    (ring : DeltaRing) (hring : w₀.supervisor.replication = some ring)
    (hempty : ring.queue.items = []) (actions : List Action)
    (hactions : ∀ a ∈ actions, ∀ n, a ≠ .enableReplication n)
    (hrun : run (World.step blake3 executor) w₀ actions = .ok w) :
    ¬ Occurs (World.step blake3 executor) w₀ actions (Backpressured blake3 executor) ↔
      Within ring.queue.capacity
        (loads (World.step blake3 executor) (ringLoad executor) w₀ actions) := by
  have hstart : RingOf ring.queue.capacity w₀ := by
    unfold RingOf Supervisor.ringCapacity
    rw [hring]
    rfl
  have hzero : w₀.supervisor.queued.length = 0 := by
    rw [Supervisor.queued, hring, Supervisor.waiting, hempty]
    rfl
  rw [within_iff, ← hzero]
  exact not_occurs_iff_level (q := fun w : World E => w.supervisor.queued.length)
    (fun a ha _ _ ht hstep => ht.step (hactions a ha) hstep) (fun _ ht => ht.length_le)
    (fun a ha _ _ ht hstep => (ht.loaded (hactions a ha) hstep).1)
    (fun a ha _ _ ht hstep => (ht.loaded (hactions a ha) hstep).2) hstart hrun

/-- Three checkpoints through a ring of one slot, popped after each of the first two. -/
theorem no_backpressure_iff_popped :
    ∃ w₀ w ring, run Guest.scriptedStep (Guest.scriptedWorld [.poke 5 7, .poke 6 8, .poke 7 9])
        [.spawn ⟨1, 4096, 4096, 1⟩ .record, .enableReplication 1] = .ok w₀ ∧
      w₀.supervisor.replication = some ring ∧ ring.queue.capacity = 1 ∧
      run Guest.scriptedStep w₀ [.ascendingCycle, .pop, .ascendingCycle, .pop,
        .ascendingCycle] = .ok w ∧
      (¬ Occurs Guest.scriptedStep w₀ [.ascendingCycle, .pop, .ascendingCycle, .pop,
          .ascendingCycle]
          (Backpressured (fun _ _ => 0) (Guest.scripted.executor (HostSource.frozen 7))) ↔
        Within ring.queue.capacity (loads Guest.scriptedStep
          (ringLoad (Guest.scripted.executor (HostSource.frozen 7))) w₀
          [.ascendingCycle, .pop, .ascendingCycle, .pop, .ascendingCycle])) := by
  have hreturns : returnsWith
      (run Guest.scriptedStep (Guest.scriptedWorld [.poke 5 7, .poke 6 8, .poke 7 9])
        [.spawn ⟨1, 4096, 4096, 1⟩ .record, .enableReplication 1])
      (fun w₀ => (w₀.supervisor.replication.any fun ring => ring.queue.items.isEmpty &&
          decide (ring.queue.capacity = 1)) && returnsWith
        (run Guest.scriptedStep w₀ [.ascendingCycle, .pop, .ascendingCycle, .pop,
          .ascendingCycle]) fun _ => true) = true := by
    decide +kernel
  obtain ⟨w₀, hw₀, htest⟩ := returnsWith_eq_true.mp hreturns
  obtain ⟨hring, htest⟩ := Bool.and_eq_true_iff.mp htest
  obtain ⟨ring, hring, hempty⟩ := (Option.any_eq_true _ _).mp hring
  simp only [Bool.and_eq_true, List.isEmpty_iff, decide_eq_true_eq] at hempty
  obtain ⟨w, hrun, -⟩ := returnsWith_eq_true.mp htest
  exact ⟨w₀, w, ring, hw₀, hring, hempty.2, hrun,
    no_backpressure_iff _ _ w₀ w ring hring hempty.1 _ (by simp) hrun⟩

end World
end ChronosUvm
