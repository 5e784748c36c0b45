import Mathlib.Tactic
import ChronosUvm.Foundations.Transitions
import ChronosUvm.Replicate.Ring

/-!
The ring between its two threads. A push is two steps of the producer, the enqueue and
the store of the watermark, and a drain is one step of the consumer for each pop; any
interleaving of these steps is a run. The queue is atomic.
-/
namespace ChronosUvm
open Panicking BoundedQueue Transitions

namespace DeltaRing

/-- `let tick = batch.tick; self.queue.push(batch).map_err(..)?` -/
def pushEnqueue (r : DeltaRing) (batch : TickBatch) : Except RingError Tick × DeltaRing :=
  match r.queue.push batch with
  | (.ok (), queue) => (.ok batch.tick, { r with queue := queue })
  | (.error _, queue) => (.error (.full r.queue.capacity), { r with queue := queue })

/-- `self.last_pushed_tick.store(tick, Ordering::Release)` -/
def pushStore (r : DeltaRing) (tick : Tick) : DeltaRing := { r with lastPushedTick := tick }

/-- A push that nothing interrupts is its two steps. -/
theorem push_eq_steps (r : DeltaRing) (b : TickBatch) :
    r.push b = match r.pushEnqueue b with
      | (.ok tick, r') => (.ok (), r'.pushStore tick)
      | (.error e, r') => (.error e, r') := by
  unfold push pushEnqueue
  rcases r.queue.push b with ⟨_ | _, queue⟩ <;> rfl

/-- The enqueue step appends the batch, or the ring is full and stays as it is. -/
theorem pushEnqueue_cases (r : DeltaRing) (b : TickBatch) :
    ((r.pushEnqueue b).1 = .ok b.tick ∧ r.queue.items.length < r.queue.capacity ∧
      (r.pushEnqueue b).2.queue.items = r.queue.items ++ [b] ∧
      (r.pushEnqueue b).2.queue.capacity = r.queue.capacity ∧
      (r.pushEnqueue b).2.lastPushedTick = r.lastPushedTick) ∨
    ((r.pushEnqueue b).1 = .error (.full r.queue.capacity) ∧
      r.queue.items.length = r.queue.capacity ∧ (r.pushEnqueue b).2 = r) := by
  unfold pushEnqueue ArrayQueue.push
  split_ifs with hroom
  · exact .inl ⟨rfl, hroom, rfl, rfl, rfl⟩
  · exact .inr ⟨rfl, le_antisymm r.queue.length_le (not_lt.mp hroom), rfl⟩

end DeltaRing

/-- The two copies of `push`. The handle holds the same queue and the address of the same
watermark, so both take the same two steps. -/
inductive PushVia where
  | deltaRing
  | deltaRingProducer

inductive ThreadStep where
  | enqueue (via : PushVia) (batch : TickBatch)
  | store
  | load
  | drain
  | pop

/-- A thread is asked for a step that is not its next one. -/
inductive OutOfTurn where
  | producer
  | consumer

/-- The ring, where each thread stands in its call, what the calls returned, and the batches
that went in and came out. -/
structure Exchange where
  ring : DeltaRing
  storing : Option (PushVia × Tick)
  draining : Option (List TickBatch)
  pushed : List (Except RingError Unit)
  drained : List (List TickBatch)
  enqueued : List TickBatch
  popped : List TickBatch

namespace Exchange

def start (ring : DeltaRing) : Exchange := ⟨ring, none, none, [], [], [], []⟩

def enqueue (s : Exchange) (via : PushVia) (batch : TickBatch) : Exchange :=
  match s.ring.pushEnqueue batch with
  | (.ok tick, ring) =>
    { s with
      ring := ring
      storing := some (via, tick)
      enqueued := s.enqueued ++ [batch] }
  | (.error e, ring) => { s with ring := ring, pushed := s.pushed ++ [.error e] }

/-- `while let Some(batch) = self.queue.pop() { out.push(batch); }`, one round of it, or a pop
outside a drain. -/
def pop (s : Exchange) : Exchange :=
  match s.ring.pop with
  | (some batch, ring) =>
    { s with
      ring := ring
      draining := s.draining.map (· ++ [batch])
      popped := s.popped ++ [batch] }
  | (none, ring) =>
    { s with
      ring := ring
      draining := none
      drained := s.drained ++ s.draining.toList }

/-- A thread that is inside a call continues it; a thread that is not may begin one. -/
def step (s : Exchange) : ThreadStep → Except OutOfTurn Exchange
  | .enqueue via batch =>
    match s.storing with
    | none => .ok (s.enqueue via batch)
    | some _ => .error .producer
  | .store =>
    match s.storing with
    | some (_, tick) =>
      .ok { s with
        ring := s.ring.pushStore tick
        storing := none
        pushed := s.pushed ++ [.ok ()] }
    | none => .error .producer
  | .load =>
    match s.draining with
    | none => .ok s
    | some _ => .error .consumer
  | .drain =>
    match s.draining with
    | none => .ok { s with draining := some [] }
    | some _ => .error .consumer
  | .pop => .ok s.pop

/-- The enqueue step of a push succeeds and leaves the store to come, or the push fails and
only its result is new. -/
theorem enqueue_cases (s : Exchange) (via : PushVia) (b : TickBatch) :
    (s.ring.queue.items.length < s.ring.queue.capacity ∧
      ∃ ring, s.enqueue via b =
          { s with
            ring := ring
            storing := some (via, b.tick)
            enqueued := s.enqueued ++ [b] } ∧
        ring.queue.items = s.ring.queue.items ++ [b] ∧
        ring.queue.capacity = s.ring.queue.capacity ∧
        ring.lastPushedTick = s.ring.lastPushedTick) ∨
    (s.ring.queue.items.length = s.ring.queue.capacity ∧
      s.enqueue via b =
        { s with pushed := s.pushed ++ [.error (.full s.ring.queue.capacity)] }) := by
  unfold enqueue
  rcases s.ring.pushEnqueue_cases b with ⟨hok, hroom, hitems, hcap, htick⟩ | ⟨herr, hfull, hsame⟩
  · left
    rw [← Prod.mk.eta (p := s.ring.pushEnqueue b), hok]
    exact ⟨hroom, _, rfl, hitems, hcap, htick⟩
  · right
    rw [← Prod.mk.eta (p := s.ring.pushEnqueue b), herr, hsame]
    exact ⟨hfull, rfl⟩

/-- A pop takes the oldest batch, or finds the queue empty and ends the drain. -/
theorem pop_cases (s : Exchange) :
    (∃ b ring, s.ring.queue.items = b :: ring.queue.items ∧
      ring.queue.capacity = s.ring.queue.capacity ∧
      ring.lastPushedTick = s.ring.lastPushedTick ∧
      s.pop =
        { s with
          ring := ring
          draining := s.draining.map (· ++ [b])
          popped := s.popped ++ [b] }) ∨
    (s.ring.queue.items = [] ∧
      s.pop = { s with draining := none, drained := s.drained ++ s.draining.toList }) := by
  obtain ⟨⟨⟨items, capacity, hle⟩, tick⟩, storing, draining, pushed, drained, enqueued, popped⟩ := s
  cases items with
  | nil => exact .inr ⟨rfl, rfl⟩
  | cons b rest =>
    exact .inl ⟨b, ⟨⟨rest, capacity, Nat.le_of_succ_le hle⟩, tick⟩, rfl, rfl, rfl, rfl⟩

/-- What a step of either thread can do. -/
theorem step_cases {s s' : Exchange} {a : ThreadStep} (h : s.step a = .ok s') :
    (∃ via b, a = .enqueue via b ∧ s.storing = none ∧ s' = s.enqueue via b) ∨
    (∃ via tick, a = .store ∧ s.storing = some (via, tick) ∧
      s' = { s with
        ring := s.ring.pushStore tick
        storing := none
        pushed := s.pushed ++ [.ok ()] }) ∨
    (a = .load ∧ s' = s) ∨
    (a = .drain ∧ s.draining = none ∧ s' = { s with draining := some [] }) ∨
    (a = .pop ∧ s' = s.pop) := by
  cases a with
  | enqueue via b =>
    left
    simp only [step] at h
    split at h
    · next hidle => exact ⟨via, b, rfl, hidle, (Except.ok.inj h).symm⟩
    · cases h
  | store =>
    right; left
    simp only [step] at h
    split at h
    · next via tick hbusy => exact ⟨via, tick, rfl, hbusy, (Except.ok.inj h).symm⟩
    · cases h
  | load =>
    right; right; left
    simp only [step] at h
    split at h
    · exact ⟨rfl, (Except.ok.inj h).symm⟩
    · cases h
  | drain =>
    right; right; right; left
    simp only [step] at h
    split at h
    · next hidle => exact ⟨rfl, hidle, (Except.ok.inj h).symm⟩
    · cases h
  | pop => exact .inr (.inr (.inr (.inr ⟨rfl, (Except.ok.inj h).symm⟩)))

/-- The batches a list of steps tries to push. -/
def batches (acts : List ThreadStep) : List TickBatch :=
  acts.filterMap fun
    | .enqueue _ b => some b
    | _ => none

/-- The producer pushes ticks from one on, each higher than the last. -/
def AscendingTicks (acts : List ThreadStep) : Prop :=
  (batches acts).Pairwise (fun b b' => b.tick < b'.tick) ∧ ∀ b ∈ batches acts, 1 ≤ b.tick

/-- No batch is lost, repeated or reordered, and the watermark is behind what was enqueued. -/
structure InTransit (capacity : ℕ) (s : Exchange) : Prop where
  popped_append : s.popped ++ s.ring.queue.items = s.enqueued
  capacity_eq : s.ring.queue.capacity = capacity
  storing_mem : ∀ via tick, s.storing = some (via, tick) → ∃ b ∈ s.enqueued, b.tick = tick
  watermark_mem : s.ring.lastPushedTick = 0 ∨
    ∃ b ∈ s.enqueued, b.tick = s.ring.lastPushedTick

theorem inTransit_start {capacity : ℕ} {ring : DeltaRing}
    (h : DeltaRing.new capacity = .ok ring) : InTransit capacity (start ring) := by
  unfold DeltaRing.new ArrayQueue.new at h
  split_ifs at h
  · cases h
    exact ⟨rfl, rfl, by simp [start], .inl rfl⟩
  · cases h

theorem InTransit.step {capacity : ℕ} {s s' : Exchange} {a : ThreadStep}
    (hs : InTransit capacity s) (h : s.step a = .ok s') : InTransit capacity s' := by
  obtain ⟨happ, hcap, hstoring, hmark⟩ := hs
  rcases step_cases h with ⟨via, b, rfl, hidle, rfl⟩ | ⟨via, tick, rfl, hbusy, rfl⟩ | ⟨rfl, rfl⟩ |
    ⟨rfl, hidle, rfl⟩ | ⟨rfl, rfl⟩
  · rcases s.enqueue_cases via b with ⟨hroom, ring, heq, hitems, hcap', htick⟩ | ⟨hfull, heq⟩
    · rw [heq]
      refine ⟨?_, hcap'.trans hcap, ?_, ?_⟩
      · show s.popped ++ ring.queue.items = s.enqueued ++ [b]
        rw [hitems, ← List.append_assoc, happ]
      · intro via' tick' hs
        cases hs
        exact ⟨b, by simp, rfl⟩
      · show ring.lastPushedTick = 0 ∨ ∃ c ∈ s.enqueued ++ [b], c.tick = ring.lastPushedTick
        rw [htick]
        exact hmark.imp_right fun ⟨c, hc, heq⟩ => ⟨c, by simp [hc], heq⟩
    · rw [heq]
      exact ⟨happ, hcap, hstoring, hmark⟩
  · exact ⟨happ, hcap, by simp, .inr (hstoring via tick hbusy)⟩
  · exact ⟨happ, hcap, hstoring, hmark⟩
  · exact ⟨happ, hcap, hstoring, hmark⟩
  · rcases s.pop_cases with ⟨b, ring, hitems, hcap', htick, heq⟩ | ⟨hempty, heq⟩
    · rw [heq]
      refine ⟨?_, hcap'.trans hcap, hstoring, ?_⟩
      · show s.popped ++ [b] ++ ring.queue.items = s.enqueued
        rw [← happ, hitems, List.append_assoc]
        rfl
      · show ring.lastPushedTick = 0 ∨ ∃ c ∈ s.enqueued, c.tick = ring.lastPushedTick
        rw [htick]
        exact hmark
    · rw [heq]
      exact ⟨happ, hcap, hstoring, hmark⟩

/-- A run only adds batches, and those it tried to push, in their order. -/
theorem enqueued_of_run {s s' : Exchange} {acts : List ThreadStep}
    (h : run step s acts = .ok s') :
    ∃ added, s'.enqueued = s.enqueued ++ added ∧ added.Sublist (batches acts) := by
  induction acts generalizing s with
  | nil =>
    cases h
    exact ⟨[], by simp, .slnil⟩
  | cons a acts ih =>
    obtain ⟨t, hstep, hrest⟩ := run_cons_eq_ok.mp h
    obtain ⟨added, henq, hsub⟩ := ih hrest
    have hskip : t.enqueued = s.enqueued → ∃ added, s'.enqueued = s.enqueued ++ added ∧
        added.Sublist (batches (a :: acts)) := by
      intro hsame
      refine ⟨added, by rw [henq, hsame], hsub.trans ?_⟩
      exact (List.sublist_cons_self a acts).filterMap _
    rcases step_cases hstep with ⟨via, b, rfl, -, rfl⟩ | ⟨_, _, rfl, -, rfl⟩ | ⟨rfl, rfl⟩ |
      ⟨rfl, -, rfl⟩ | ⟨rfl, rfl⟩
    · rcases s.enqueue_cases via b with ⟨-, ring, heq, -⟩ | ⟨-, heq⟩
      · rw [heq] at henq
        exact ⟨b :: added, by simpa using henq, hsub.cons_cons b⟩
      · exact hskip (by rw [heq])
    · exact hskip rfl
    · exact hskip rfl
    · exact hskip rfl
    · rcases s.pop_cases with ⟨b, ring, -, -, -, heq⟩ | ⟨-, heq⟩
      · exact hskip (by rw [heq])
      · exact hskip (by rw [heq])

/-- Later batches are above the watermark, so the batches up to it are those enqueued before
it was read. -/
theorem mem_enqueued_of_tick_le {capacity : ℕ} {r s : Exchange} {before acts : List ThreadStep}
    {ring : DeltaRing} (hticks : AscendingTicks (before ++ acts)) (hr : InTransit capacity r)
    (hbefore : run step (start ring) before = .ok r) (hacts : run step r acts = .ok s)
    {b : TickBatch} (hb : b ∈ s.enqueued) (hle : b.tick ≤ r.ring.lastPushedTick) :
    b ∈ r.enqueued := by
  obtain ⟨past, hpast, hpastSub⟩ := enqueued_of_run hbefore
  obtain ⟨added, hadded, haddedSub⟩ := enqueued_of_run hacts
  obtain rfl : r.enqueued = past := hpast
  rw [hadded, List.mem_append] at hb
  rcases hb with hb | hb
  · exact hb
  · obtain ⟨hpairwise, hone⟩ := hticks
    have hbatches : batches (before ++ acts) = batches before ++ batches acts :=
      List.filterMap_append
    rw [hbatches] at hpairwise hone
    have hnew : b ∈ batches acts := haddedSub.subset hb
    exfalso
    rcases hr.watermark_mem with hzero | ⟨c, hc, hmark⟩
    · have h1 := hone b (List.mem_append_right _ hnew)
      rw [hzero] at hle
      grind
    · have hlt := (List.pairwise_append.mp hpairwise).2.2 c (hpastSub.subset hc) b hnew
      rw [hmark] at hlt
      grind

/-- In every interleaving: the batches popped and those still queued are the batches enqueued,
in their order; a push fails only against a full queue and then changes nothing; and a drain
that returns after the watermark was read has received every batch up to the value read. -/
theorem run_watermark {capacity : ℕ} {ring : DeltaRing} {acts : List ThreadStep} {s : Exchange}
    (hring : DeltaRing.new capacity = .ok ring) (hticks : AscendingTicks acts)
    (hrun : run step (start ring) acts = .ok s) :
    s.popped ++ s.ring.queue.items = s.enqueued ∧
    (∀ via b s', s.step (.enqueue via b) = .ok s' →
      (s'.enqueued = s.enqueued ++ [b] ∧ s'.pushed = s.pushed) ∨
      (s.ring.queue.items.length = capacity ∧ s'.ring = s.ring ∧ s'.enqueued = s.enqueued ∧
        s'.pushed = s.pushed ++ [.error (.full capacity)])) ∧
    ∀ before mid rest r t u, acts = (before ++ .load :: mid) ++ .pop :: rest →
      run step (start ring) before = .ok r →
      run step (start ring) (before ++ .load :: mid) = .ok t →
      t.step .pop = .ok u → u.drained ≠ t.drained →
      ∀ b ∈ s.enqueued, b.tick ≤ r.ring.lastPushedTick → b ∈ u.popped := by
  have hinv {as : List ThreadStep} {t : Exchange} (h : run step (start ring) as = .ok t) :
      InTransit capacity t :=
    run_invariant (fun a _ t t' ht => ht.step) (inTransit_start hring) h
  refine ⟨(hinv hrun).popped_append, ?_, ?_⟩
  · intro via b s' hstep
    obtain rfl : s' = s.enqueue via b := by
      rcases step_cases hstep with ⟨_, _, heq, -, h⟩ | ⟨_, _, heq, -⟩ | ⟨heq, -⟩ | ⟨heq, -⟩ |
        ⟨heq, -⟩
      · cases heq
        exact h
      all_goals cases heq
    rcases s.enqueue_cases via b with ⟨-, ring, heq, -⟩ | ⟨hfull, heq⟩
    · rw [heq]
      exact .inl ⟨rfl, rfl⟩
    · rw [heq, ← (hinv hrun).capacity_eq]
      exact .inr ⟨hfull, rfl, rfl, rfl⟩
  · rintro before mid rest r t u rfl hr ht hpop hreturned b hb hle
    have hr' : run step r (.load :: mid) = .ok t := by
      obtain ⟨r', hr', hmid⟩ := run_append_eq_ok.mp ht
      obtain rfl : r = r' := Except.ok.inj (hr.symm.trans hr')
      exact hmid
    obtain ⟨t', ht', hrest⟩ := run_append_eq_ok.mp hrun
    obtain rfl : t = t' := Except.ok.inj (ht.symm.trans ht')
    rw [List.append_assoc] at hticks
    have hbr : b ∈ r.enqueued :=
      mem_enqueued_of_tick_le hticks (hinv hr) hr (run_append_eq_ok.mpr ⟨t, hr', hrest⟩) hb hle
    obtain ⟨added, hadded, -⟩ := enqueued_of_run hr'
    have hbt : b ∈ t.popped ++ t.ring.queue.items := by
      rw [(hinv ht).popped_append, hadded]
      exact List.mem_append_left _ hbr
    obtain rfl : t.pop = u := Except.ok.inj hpop
    rcases t.pop_cases with ⟨c, ring', -, -, -, heq⟩ | ⟨hempty, heq⟩
    · rw [heq] at hreturned
      exact absurd rfl hreturned
    · rw [hempty, List.append_nil] at hbt
      rw [heq]
      exact hbt

/-- The watermark is read as 1. The drain returns with batch 1, and with batch 2, whose own store
is still to come. -/
theorem run_watermark_between_steps :
    ∃ ring r t u s, DeltaRing.new 1 = .ok ring ∧
      run step (start ring) [.enqueue .deltaRing ⟨1, []⟩, .store] = .ok r ∧
      run step (start ring) [.enqueue .deltaRing ⟨1, []⟩, .store, .load, .drain, .pop,
        .enqueue .deltaRingProducer ⟨2, []⟩, .pop] = .ok t ∧
      t.step .pop = .ok u ∧ u.drained = [[⟨1, []⟩, ⟨2, []⟩]] ∧
      run step (start ring)
        [.enqueue .deltaRing ⟨1, []⟩, .store, .load, .drain, .pop,
          .enqueue .deltaRingProducer ⟨2, []⟩, .pop, .pop, .store] = .ok s ∧
      s.popped ++ s.ring.queue.items = s.enqueued ∧ r.ring.lastPushedTick = 1 ∧
      ∀ b ∈ s.enqueued, b.tick ≤ r.ring.lastPushedTick → b ∈ u.popped := by
  have hticks : AscendingTicks [.enqueue .deltaRing ⟨1, []⟩, .store, .load, .drain, .pop,
      .enqueue .deltaRingProducer ⟨2, []⟩, .pop, .pop, .store] := by
    unfold AscendingTicks
    decide
  have hring : DeltaRing.new 1 = .ok ⟨⟨[], 1, Nat.zero_le 1⟩, 0⟩ := rfl
  obtain ⟨happend, -, hmark⟩ := run_watermark hring hticks rfl
  refine ⟨_, _, _, _, _, hring, rfl, rfl, rfl, rfl, rfl, happend, rfl, ?_⟩
  exact hmark [.enqueue .deltaRing ⟨1, []⟩, .store]
    [.drain, .pop, .enqueue .deltaRingProducer ⟨2, []⟩, .pop] [.store] _ _ _ rfl rfl rfl rfl
    (List.cons_ne_nil _ _)

end Exchange
end ChronosUvm
