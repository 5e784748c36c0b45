import Mathlib.Tactic
import ChronosUvm.Foundations.Refinement
import ChronosUvm.Replicate.Watermark

/-!
The ring as its callers see it. Above the steps of the two threads stands a mailbox with
calls that happen at once: a push takes effect with its enqueue, a drain with the pop that
finds the queue empty. The mailbox has no bound: during a drain more batches than the ring
has slots can be on their way out. The watermark alone is not atomic, and a drain has no
bound of its own either: it returns once it has popped more batches than waited and came.
-/
namespace ChronosUvm
open Panicking BoundedQueue Transitions Refinement

/-- A mailbox of any size. `slots` is how many batches must wait before it may refuse one. -/
structure Mailbox where
  slots : ℕ
  posted : List TickBatch
  answered : List (Except RingError Unit)
  waiting : List TickBatch
  collected : List (List TickBatch)

inductive MailboxCall where
  | post (batch : TickBatch)
  | refuse
  | collect

namespace Mailbox

def empty (slots : ℕ) : Mailbox := ⟨slots, [], [], [], []⟩

/-- A post is always possible, a refusal only while at least `slots` batches wait. -/
def step (m : Mailbox) : MailboxCall → Except Unit Mailbox
  | .post batch => .ok { m with
      posted := m.posted ++ [batch]
      answered := m.answered ++ [.ok ()]
      waiting := m.waiting ++ [batch] }
  | .refuse =>
    if m.slots ≤ m.waiting.length then
      .ok { m with answered := m.answered ++ [.error (.full m.slots)] }
    else .error ()
  | .collect => .ok { m with
      waiting := []
      collected := m.collected ++ [m.waiting] }

/-- Every batch posted was collected once or waits, in order. -/
def Accounted (m : Mailbox) : Prop := m.collected.flatten ++ m.waiting = m.posted

theorem Accounted.step {m m' : Mailbox} {call : MailboxCall} (hm : m.Accounted)
    (h : m.step call = .ok m') : m'.Accounted := by
  unfold Accounted at hm ⊢
  cases call with
  | post batch =>
    cases h
    rw [← List.append_assoc, hm]
  | refuse =>
    unfold Mailbox.step at h
    split_ifs at h
    cases h
    exact hm
  | collect =>
    cases h
    rw [List.flatten_concat, List.append_nil, hm]

theorem slots_step {m m' : Mailbox} {call : MailboxCall} (h : m.step call = .ok m') :
    m'.slots = m.slots := by
  cases call with
  | post batch =>
    cases h
    rfl
  | refuse =>
    unfold step at h
    split_ifs at h
    cases h
    rfl
  | collect =>
    cases h
    rfl

end Mailbox

def ThreadStep.isPop : ThreadStep → Bool
  | .pop => true
  | _ => false

namespace Exchange

/-- The calls a thread step is seen as. -/
def effect (s : Exchange) : ThreadStep → List MailboxCall
  | .enqueue _ batch =>
    if s.ring.queue.items.length < s.ring.queue.capacity then [.post batch] else [.refuse]
  | .pop => if s.ring.queue.items.isEmpty then [.collect] else []
  | _ => []

/-- A push between its two steps is already answered, and what a drain has popped still waits. -/
def mailbox (s : Exchange) : Mailbox where
  slots := s.ring.queue.capacity
  posted := s.enqueued
  answered := s.pushed ++ (s.storing.map fun _ => .ok ()).toList
  waiting := s.draining.getD [] ++ s.ring.queue.items
  collected := s.drained

/-- A pop that no drain has asked for. -/
def StrayPop (s : Exchange) (a : ThreadStep) : Prop := s.draining = none ∧ a.isPop = true

theorem effect_enqueue_of_lt {s : Exchange} (h : s.ring.queue.items.length < s.ring.queue.capacity)
    (via : PushVia) (b : TickBatch) : s.effect (.enqueue via b) = [.post b] := if_pos h

theorem effect_enqueue_of_full {s : Exchange}
    (h : s.ring.queue.items.length = s.ring.queue.capacity) (via : PushVia) (b : TickBatch) :
    s.effect (.enqueue via b) = [.refuse] := if_neg h.not_lt

/-- Each step of either thread is seen as its calls. -/
theorem mailbox_step {s s' : Exchange} {a : ThreadStep} (hdrain : ¬ StrayPop s a)
    (h : s.step a = .ok s') : run Mailbox.step s.mailbox (s.effect a) = .ok s'.mailbox := by
  rcases step_cases h with ⟨via, b, rfl, hidle, rfl⟩ | ⟨via, tick, rfl, hbusy, rfl⟩ | ⟨rfl, rfl⟩ |
    ⟨rfl, hidle, rfl⟩ | ⟨rfl, rfl⟩
  · rcases s.enqueue_cases via b with ⟨hroom, ring, heq, hitems, hcap, -⟩ | ⟨hfull, heq⟩
    · rw [effect_enqueue_of_lt hroom, heq]
      unfold mailbox
      simp [run, Mailbox.step, hitems, hcap, hidle]
    · have hwaits : s.mailbox.slots ≤ s.mailbox.waiting.length := by
        show s.ring.queue.capacity ≤ (s.draining.getD [] ++ s.ring.queue.items).length
        rw [List.length_append, hfull]
        exact Nat.le_add_left _ _
      rw [effect_enqueue_of_full hfull, heq]
      simp only [run, Mailbox.step, if_pos hwaits]
      unfold mailbox
      simp [hidle]
  · unfold effect mailbox
    simp [run, DeltaRing.pushStore, hbusy]
  · rfl
  · unfold effect mailbox
    simp [run, hidle]
  · cases hdraining : s.draining with
    | none => exact absurd ⟨hdraining, rfl⟩ hdrain
    | some out =>
      rcases s.pop_cases with ⟨b, ring, hitems, hcap, -, heq⟩ | ⟨hempty, heq⟩
      · -- the batch moves from the queue to what the drain holds, and still waits
        rw [heq]
        unfold effect mailbox
        simp [hitems, hcap, hdraining]
      · rw [heq]
        unfold effect mailbox
        simp [run, Mailbox.step, hempty, hdraining]

/-- The tick of the last of some batches, 0 before the first. -/
def lastTick (batches : List TickBatch) : Tick := (batches.getLast?.map TickBatch.tick).getD 0

@[simp] theorem lastTick_concat (batches : List TickBatch) (b : TickBatch) :
    lastTick (batches ++ [b]) = b.tick := by
  unfold lastTick
  rw [List.getLast?_concat]
  rfl

/-- The watermark is one push behind while that push stands between its two steps. -/
inductive Marked (s : Exchange) : Prop where
  | stored (hidle : s.storing = none) (hmark : s.ring.lastPushedTick = lastTick s.enqueued)
  | storing (via : PushVia) (past : List TickBatch) (b : TickBatch)
      (hbusy : s.storing = some (via, b.tick)) (henqueued : s.enqueued = past ++ [b])
      (hmark : s.ring.lastPushedTick = lastTick past)

theorem Marked.step {s s' : Exchange} {a : ThreadStep} (hs : Marked s) (h : s.step a = .ok s') :
    Marked s' := by
  have hkept (t : Exchange) (hstoring : t.storing = s.storing) (henqueued : t.enqueued = s.enqueued)
      (hmark : t.ring.lastPushedTick = s.ring.lastPushedTick) : Marked t := by
    cases hs with
    | stored hidle hs => exact .stored (hstoring.trans hidle) (by rw [hmark, hs, henqueued])
    | storing via past b hbusy henq hs =>
      exact .storing via past b (hstoring.trans hbusy) (henqueued.trans henq) (hmark.trans hs)
  rcases step_cases h with ⟨via, b, rfl, hidle, rfl⟩ | ⟨via, tick, rfl, hbusy, rfl⟩ | ⟨rfl, rfl⟩ |
    ⟨rfl, -, rfl⟩ | ⟨rfl, rfl⟩
  · cases hs with
    | storing via' past b' hbusy =>
      rw [hidle] at hbusy
      cases hbusy
    | stored _ hmark =>
      rcases s.enqueue_cases via b with ⟨-, ring, heq, -, -, htick⟩ | ⟨-, heq⟩
      · rw [heq]
        exact .storing via s.enqueued b rfl rfl (htick.trans hmark)
      · rw [heq]
        exact .stored hidle hmark
  · cases hs with
    | stored hidle =>
      rw [hidle] at hbusy
      cases hbusy
    | storing via' past b hbusy' henqueued =>
      obtain rfl : b.tick = tick := by
        rw [hbusy] at hbusy'
        cases hbusy'
        rfl
      refine .stored rfl ?_
      show b.tick = lastTick s.enqueued
      rw [henqueued, lastTick_concat]
  · exact hs
  · exact hkept _ rfl rfl rfl
  · rcases s.pop_cases with ⟨b, ring, -, -, htick, heq⟩ | ⟨-, heq⟩
    · rw [heq]
      exact hkept _ rfl rfl htick
    · rw [heq]
      exact hkept _ rfl rfl rfl

theorem marked_start {capacity : ℕ} {ring : DeltaRing} (h : DeltaRing.new capacity = .ok ring) :
    Marked (start ring) := by
  refine .stored rfl ?_
  unfold DeltaRing.new ArrayQueue.new at h
  split_ifs at h
  · cases h
    rfl
  · cases h

theorem mailbox_start {capacity : ℕ} {ring : DeltaRing} (h : DeltaRing.new capacity = .ok ring) :
    (start ring).mailbox = Mailbox.empty capacity := by
  unfold DeltaRing.new ArrayQueue.new at h
  split_ifs at h
  · cases h
    rfl
  · cases h

/-- While no drain runs a push is refused exactly when all slots are taken. -/
theorem effect_refuse_iff {s : Exchange} (hidle : s.draining = none) (via : PushVia)
    (b : TickBatch) :
    s.effect (.enqueue via b) = [.refuse] ↔ s.mailbox.waiting.length = s.ring.queue.capacity := by
  have hwaiting : s.mailbox.waiting = s.ring.queue.items := by
    unfold mailbox
    rw [hidle]
    rfl
  have hle := s.ring.queue.length_le
  rw [hwaiting]
  by_cases hroom : s.ring.queue.items.length < s.ring.queue.capacity
  · rw [effect_enqueue_of_lt hroom]
    exact iff_of_false (by simp) hroom.ne
  · have hfull : s.ring.queue.items.length = s.ring.queue.capacity := by omega
    rw [effect_enqueue_of_full hfull]
    exact iff_of_true rfl hfull

/-- The two threads behave as a mailbox with a one-sided rule for refusals. In every
interleaving in which the consumer only drains, the calls happen at once, each between its own
first and last step: the pushes return what the mailbox answers, the drains return what it hands
out, so together they return every batch once and in order. A push is refused only while at
least a ring's capacity of batches was not returned, and between two drains exactly then;
during a drain it may be accepted beyond that. The watermark alone is not atomic: while a push
stands between its steps it still shows the push before. -/
theorem threads_refine_mailbox {capacity : ℕ} {ring : DeltaRing} {acts : List ThreadStep}
    {s : Exchange} (hring : DeltaRing.new capacity = .ok ring)
    (hdrains : ¬ Occurs step (start ring) acts StrayPop)
    (hrun : run step (start ring) acts = .ok s) :
    run Mailbox.step (.empty capacity) (effects step effect (start ring) acts) = .ok s.mailbox ∧
    s.drained.flatten ++ (s.draining.getD [] ++ s.ring.queue.items) = s.enqueued ∧
    (s.draining = none → ∀ via b, s.effect (.enqueue via b) = [.refuse] ↔
      s.enqueued.length = s.drained.flatten.length + capacity) ∧
    s.ring.lastPushedTick =
      lastTick (if s.storing.isSome then s.enqueued.dropLast else s.enqueued) := by
  have hrefines : run Mailbox.step (.empty capacity) (effects step effect (start ring) acts) =
      .ok s.mailbox := by
    rw [← mailbox_start hring]
    exact run_effects (fun _ _ _ hdrain hstep => mailbox_step hdrain hstep) hdrains hrun
  have hempty : (Mailbox.empty capacity).Accounted := rfl
  have haccounted : s.mailbox.Accounted :=
    run_invariant (fun _ _ _ _ hm hstep => hm.step hstep) hempty hrefines
  have hslots : s.ring.queue.capacity = capacity :=
    run_invariant (P := fun m => m.slots = capacity)
      (fun _ _ _ _ hm hstep => (Mailbox.slots_step hstep).trans hm) rfl hrefines
  have hmarked : Marked s :=
    run_invariant (fun _ _ _ _ ht hstep => ht.step hstep) (marked_start hring) hrun
  refine ⟨hrefines, haccounted, ?_, ?_⟩
  · intro hidle via b
    have hall := congrArg List.length haccounted
    rw [List.length_append] at hall
    change _ = s.enqueued.length at hall
    change s.drained.flatten.length + _ = _ at hall
    rw [effect_refuse_iff hidle, hslots]
    omega
  cases hmarked with
  | stored hidle hmark =>
    rw [hidle]
    exact hmark
  | storing via past b hbusy henqueued hmark =>
    rw [hbusy, henqueued, hmark]
    simp

/-- Two batches through a ring of one slot in a single drain, and the second store still to
come. -/
theorem threads_refine_mailbox_two_rounds :
    ∃ ring s, DeltaRing.new 1 = .ok ring ∧
      run step (start ring) [.enqueue .deltaRing ⟨1, []⟩, .store, .enqueue .deltaRing ⟨2, []⟩,
        .drain, .pop, .enqueue .deltaRingProducer ⟨3, []⟩, .pop, .pop] = .ok s ∧
      s.drained = [[⟨1, []⟩, ⟨3, []⟩]] ∧ s.ring.lastPushedTick = 1 ∧
      run Mailbox.step (.empty 1) [.post ⟨1, []⟩, .refuse, .post ⟨3, []⟩, .collect] =
        .ok s.mailbox := by
  have hring : DeltaRing.new 1 = .ok ⟨⟨[], 1, Nat.zero_le 1⟩, 0⟩ := rfl
  have hdrains : ¬ Occurs step (start ⟨⟨[], 1, Nat.zero_le 1⟩, 0⟩)
      [.enqueue .deltaRing ⟨1, []⟩, .store, .enqueue .deltaRing ⟨2, []⟩, .drain, .pop,
        .enqueue .deltaRingProducer ⟨3, []⟩, .pop, .pop] StrayPop := by
    repeat
      refine (occurs_cons (by exact rfl)).not.mpr (not_or.mpr ⟨?_, ?_⟩)
      · rintro ⟨hidle, hpop⟩
        first
        | exact absurd hpop (by exact Bool.false_ne_true)
        | exact absurd hidle (by exact Option.some_ne_none _)
    exact not_occurs_nil _ _ _
  obtain ⟨hrefines, -, -, hmark⟩ := threads_refine_mailbox hring hdrains rfl
  exact ⟨_, _, hring, rfl, rfl, hmark, hrefines⟩

/-- A step inside a drain moves a batch, or it is the pop that finds the queue empty. -/
theorem draining_step {s s' : Exchange} {a : ThreadStep} (hdrain : s.draining.isSome = true)
    (h : s.step a = .ok s') :
    (s'.draining.isSome = true ∧ s'.drained = s.drained ∧
      s'.ring.queue.items.length + s.enqueued.length + (if a.isPop = true then 1 else 0) =
        s.ring.queue.items.length + s'.enqueued.length) ∨
    (a.isPop = true ∧ s.ring.queue.items = [] ∧ s'.enqueued = s.enqueued ∧
      s'.drained = s.drained ++ s.draining.toList) := by
  rcases step_cases h with ⟨via, b, rfl, hidle, rfl⟩ | ⟨via, tick, rfl, hbusy, rfl⟩ | ⟨rfl, rfl⟩ |
    ⟨rfl, hidle, rfl⟩ | ⟨rfl, rfl⟩
  · left
    rcases s.enqueue_cases via b with ⟨-, ring, heq, hitems, -, -⟩ | ⟨-, heq⟩
    · rw [heq]
      refine ⟨hdrain, rfl, ?_⟩
      simp only [hitems, List.length_append, ThreadStep.isPop]
      simp
      omega
    · rw [heq]
      exact ⟨hdrain, rfl, rfl⟩
  · exact .inl ⟨hdrain, rfl, rfl⟩
  · exact .inl ⟨hdrain, rfl, rfl⟩
  · rw [hidle] at hdrain
    cases hdrain
  · rcases s.pop_cases with ⟨b, ring, hitems, -, -, heq⟩ | ⟨hempty, heq⟩
    · left
      rw [heq, hitems]
      refine ⟨?_, rfl, ?_⟩
      · rw [Option.isSome_map]
        exact hdrain
      · simp only [List.length_cons, ThreadStep.isPop, if_true]
        omega
    · right
      rw [heq]
      exact ⟨rfl, hempty, rfl, rfl⟩

theorem drained_prefix_step {s s' : Exchange} {a : ThreadStep} (h : s.step a = .ok s') :
    s.drained <+: s'.drained := by
  rcases step_cases h with ⟨via, b, rfl, -, rfl⟩ | ⟨_, _, rfl, -, rfl⟩ | ⟨rfl, rfl⟩ |
    ⟨rfl, -, rfl⟩ | ⟨rfl, rfl⟩
  · rcases s.enqueue_cases via b with ⟨-, ring, heq, -⟩ | ⟨-, heq⟩
    · rw [heq]
    · rw [heq]
  · exact List.prefix_rfl
  · exact List.prefix_rfl
  · exact List.prefix_rfl
  · rcases s.pop_cases with ⟨b, ring, -, -, -, heq⟩ | ⟨-, heq⟩
    · rw [heq]
    · rw [heq]
      exact List.prefix_append _ _

/-- A drain has returned as soon as it popped more often than batches waited and came. -/
theorem drained_eq_iff {s t : Exchange} {acts : List ThreadStep}
    (hdrain : s.draining.isSome = true) (hrun : run step s acts = .ok t) :
    t.drained = s.drained ↔ ∀ pre post u, acts = pre ++ post → run step s pre = .ok u →
      pre.countP ThreadStep.isPop + s.enqueued.length ≤
        s.ring.queue.items.length + u.enqueued.length := by
  induction acts generalizing s with
  | nil =>
    cases hrun
    refine iff_of_true rfl fun pre post u hsplit hpre => ?_
    obtain ⟨rfl, rfl⟩ := List.append_eq_nil_iff.mp hsplit.symm
    cases hpre
    simp
  | cons a acts ih =>
    obtain ⟨s₁, hstep, hrest⟩ := run_cons_eq_ok.mp hrun
    rcases draining_step hdrain hstep with ⟨hdrain₁, hsame, hbalance⟩ |
      ⟨hpop, hempty, henqueued, hreturned⟩
    · rw [← hsame, ih hdrain₁ hrest]
      constructor
      · rintro h pre post u hsplit hpre
        cases pre with
        | nil =>
          cases hpre
          simp
        | cons b pre =>
          obtain ⟨rfl, rfl⟩ := List.cons_eq_cons.mp hsplit
          obtain ⟨s₁', hstep', hpre⟩ := run_cons_eq_ok.mp hpre
          obtain rfl : s₁ = s₁' := Except.ok.inj (hstep.symm.trans hstep')
          have hlater := h pre post u rfl hpre
          rw [List.countP_cons]
          omega
      · rintro h pre post u rfl hpre
        have hwhole := h (a :: pre) post u rfl (run_cons_eq_ok.mpr ⟨s₁, hstep, hpre⟩)
        rw [List.countP_cons] at hwhole
        omega
    · -- the drain returns here, and what it returned stays returned
      obtain ⟨out, hout⟩ := Option.isSome_iff_exists.mp hdrain
      refine iff_of_false ?_ ?_
      · intro hsame
        have hlonger : s₁.drained.length ≤ t.drained.length :=
          run_invariant (P := fun u => s₁.drained.length ≤ u.drained.length)
            (fun _ _ _ _ hu hs => hu.trans (drained_prefix_step hs).length_le) le_rfl hrest
        rw [hsame, hreturned, hout] at hlonger
        simp at hlonger
      · intro h
        have hfirst := h [a] acts s₁ rfl (run_cons_eq_ok.mpr ⟨s₁, hstep, rfl⟩)
        rw [hempty, henqueued, List.countP_singleton, if_pos hpop] at hfirst
        simp at hfirst

/-- A drain runs and the producer is between two pushes. -/
structure Held (s : Exchange) : Prop where
  draining : s.draining.isSome = true
  idle : s.storing = none
  capacity_pos : 0 < s.ring.queue.capacity

theorem Held.pop {s : Exchange} (hs : Held s) (h : s.ring.queue.items ≠ []) :
    Held s.pop ∧ s.pop.enqueued = s.enqueued ∧ s.pop.drained = s.drained ∧
      s.pop.ring.queue.capacity = s.ring.queue.capacity ∧
      s.ring.queue.items.length = s.pop.ring.queue.items.length + 1 := by
  rcases s.pop_cases with ⟨b, ring, hitems, hcap, -, heq⟩ | ⟨hempty, -⟩
  · rw [heq, hitems]
    refine ⟨⟨?_, hs.idle, ?_⟩, rfl, rfl, hcap, rfl⟩
    · rw [Option.isSome_map]
      exact hs.draining
    · show 0 < ring.queue.capacity
      rw [hcap]
      exact hs.capacity_pos
  · exact absurd hempty h

/-- With room in the ring the producer gets a batch in before the next pop. -/
theorem Held.round {s : Exchange} (hs : Held s)
    (hroom : s.ring.queue.items.length < s.ring.queue.capacity) (b : TickBatch) :
    ∃ t, run step s [.enqueue .deltaRing b, .store, .pop] = .ok t ∧ Held t ∧
      t.enqueued = s.enqueued ++ [b] ∧ t.drained = s.drained := by
  rcases s.enqueue_cases .deltaRing b with ⟨-, ring, heq, hitems, hcap, -⟩ | ⟨hfull, -⟩
  · let stored : Exchange := { s with
      ring := ring.pushStore b.tick
      storing := none
      pushed := s.pushed ++ [.ok ()]
      enqueued := s.enqueued ++ [b] }
    have hstored : Held stored := by
      refine ⟨hs.draining, rfl, ?_⟩
      show 0 < ring.queue.capacity
      rw [hcap]
      exact hs.capacity_pos
    have hwaits : stored.ring.queue.items ≠ [] := by
      show ring.queue.items ≠ []
      rw [hitems]
      simp
    obtain ⟨hpopped, henqueued, hdrained, -⟩ := hstored.pop hwaits
    refine ⟨stored.pop, ?_, hpopped, henqueued, hdrained⟩
    have hfirst : s.step (.enqueue .deltaRing b) = .ok (s.enqueue .deltaRing b) := by
      unfold step
      simp only [hs.idle]
    refine run_cons_eq_ok.mpr ⟨_, hfirst, run_cons_eq_ok.mpr ⟨stored, ?_, rfl⟩⟩
    rw [heq]
    rfl
  · exact absurd hfull hroom.ne

/-- Whatever batches are still to come, one drain may have to take them all. -/
theorem Held.run {s : Exchange} (hs : Held s) (later : List TickBatch) :
    ∃ acts t, Transitions.run step s acts = .ok t ∧ Held t ∧ batches acts = later ∧
      later.length ≤ acts.countP ThreadStep.isPop ∧ t.enqueued = s.enqueued ++ later ∧
      t.drained = s.drained := by
  induction later generalizing s with
  | nil => exact ⟨[], s, rfl, hs, rfl, le_rfl, by simp, rfl⟩
  | cons b later ih =>
    -- a full ring is popped once before the producer comes back
    obtain ⟨first, s₁, hrun₁, hs₁, hnone, hroom, henq₁, hdrained₁⟩ : ∃ first s₁,
        Transitions.run step s first = .ok s₁ ∧ Held s₁ ∧ batches first = [] ∧
        s₁.ring.queue.items.length < s₁.ring.queue.capacity ∧ s₁.enqueued = s.enqueued ∧
        s₁.drained = s.drained := by
      by_cases hroom : s.ring.queue.items.length < s.ring.queue.capacity
      · exact ⟨[], s, rfl, hs, rfl, hroom, rfl, rfl⟩
      · have hle := s.ring.queue.length_le
        have hpos := hs.capacity_pos
        obtain ⟨hpopped, henqueued, hdrained, hcap, hlength⟩ :=
          hs.pop (List.ne_nil_of_length_pos (by omega))
        exact ⟨[.pop], s.pop, rfl, hpopped, rfl, by omega, henqueued, hdrained⟩
    obtain ⟨s₂, hrun₂, hs₂, henq₂, hdrained₂⟩ := hs₁.round hroom b
    obtain ⟨acts, t, hrun, ht, hbatches, hpops, henq, hdrained⟩ := ih hs₂
    refine ⟨first ++ ([.enqueue .deltaRing b, .store, .pop] ++ acts), t, ?_, ht, ?_, ?_, ?_, ?_⟩
    · exact run_append_eq_ok.mpr ⟨s₁, hrun₁, run_append_eq_ok.mpr ⟨s₂, hrun₂, hrun⟩⟩
    · unfold batches at hnone hbatches ⊢
      rw [List.filterMap_append, List.filterMap_append, hnone, hbatches]
      rfl
    · rw [List.countP_append, List.countP_append]
      have hone : List.countP ThreadStep.isPop [.enqueue .deltaRing b, .store, .pop] = 1 := rfl
      rw [hone, List.length_cons]
      omega
    · rw [henq, henq₂, henq₁, List.append_assoc]
      rfl
    · rw [hdrained, hdrained₂, hdrained₁]

/-- When a drain returns. Whatever the threads do, a drain that has begun has returned exactly
when it popped more often than batches waited and came, so it returns if the producer falls
behind, and no number of pops is enough of itself: a producer that keeps up can make one drain
take any number of batches. -/
theorem drain_returns_iff (s : Exchange) (hdrain : s.draining.isSome = true) :
    (∀ acts t, run step s acts = .ok t → (t.drained ≠ s.drained ↔
      ∃ pre post u, acts = pre ++ post ∧ run step s pre = .ok u ∧
        s.ring.queue.items.length + u.enqueued.length <
          pre.countP ThreadStep.isPop + s.enqueued.length)) ∧
    (∀ acts t, run step s acts = .ok t →
      s.ring.queue.items.length + (batches acts).length < acts.countP ThreadStep.isPop →
      t.drained ≠ s.drained) ∧
    (s.storing = none → 0 < s.ring.queue.capacity → ∀ later, ∃ acts t,
      run step s acts = .ok t ∧ batches acts = later ∧
      later.length ≤ acts.countP ThreadStep.isPop ∧ t.enqueued = s.enqueued ++ later ∧
      t.drained = s.drained) := by
  refine ⟨?_, ?_, ?_⟩
  · intro acts t hrun
    rw [Ne, drained_eq_iff hdrain hrun]
    simp only [not_forall, not_le, exists_prop]
  · intro acts t hrun hpops hsame
    obtain ⟨added, hadded, hsub⟩ := enqueued_of_run hrun
    have hall := (drained_eq_iff hdrain hrun).mp hsame acts [] t (List.append_nil acts).symm hrun
    have hcame := hsub.length_le
    rw [hadded, List.length_append] at hall
    omega
  · intro hidle hcapacity later
    obtain ⟨acts, t, hrun, -, hbatches, hpops, henqueued, hdrained⟩ :=
      Held.run ⟨hdrain, hidle, hcapacity⟩ later
    exact ⟨acts, t, hrun, hbatches, hpops, henqueued, hdrained⟩

/-- A drain that begins with nothing waiting and returns with its second pop. -/
theorem drain_returns_iff_one_batch :
    ∃ s t, s.draining.isSome = true ∧
      run step s [.enqueue .deltaRing ⟨1, []⟩, .pop, .pop] = .ok t ∧ t.drained ≠ s.drained := by
  have hrun : run step ⟨⟨⟨[], 1, Nat.zero_le 1⟩, 0⟩, none, some [], [], [], [], []⟩
      [.enqueue .deltaRing ⟨1, []⟩, .pop, .pop] = .ok _ := rfl
  exact ⟨_, _, rfl, hrun, (drain_returns_iff _ rfl).2.1 _ _ hrun (by decide)⟩

end Exchange
end ChronosUvm
