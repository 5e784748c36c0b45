import Mathlib.Tactic
import ChronosUvm.Core.World

/-!
Two invariants of every run. The records are ordered by tick, and the batches on
their way form a subsequence of the flushes, all newer than what the standby holds;
hence the standby accepts every batch it is handed.
-/
namespace ChronosUvm
open Panicking Tables Transitions

namespace World
variable {E : Type} {blake3 : Blake3} {executor : QuantumExecutor E} {w w' : World E}
  {a : Action}

/-- The vectors of a standby can be resized for every dirty page of a memory. -/
theorem resizable_of_dirty {m : MmapGuardedMemory} {d : PageDelta}
    (hd : d ∈ m.dirty.iterDirty.map fun p => PageDelta.raw (.ofNat p) (m.pageBytes p)) :
    DeltaEngine.Resizable d.pageIdx := by
  obtain ⟨p, hp, rfl⟩ := List.mem_map.mp hd
  exact DeltaEngine.resizable_ofNat (MmapGuardedMemory.lt_of_mem_iterDirty hp)

def clock (w : World E) : ℕ := w.supervisor.scheduler.clock.tick.toNat

theorem clock_cycled {visit : VisitOrder} {s' : Supervisor} {e' : E}
    {reported : Except SupervisorError (Option (CellId × Tick))}
    (d : Supervisor.Dispatch blake3 executor visit w.supervisor s' w.executor e' reported) :
    s'.scheduler.clock.tick = d.tick ∧ d.tick.toNat = w.clock + 1 :=
  ⟨by rw [d.scheduler_eq], d.tick_eq⟩

/-- The records against the clock: quanta and flushes in the order of their ticks, and every
flush made of the dirty pages of a quantum. -/
structure Chronicle (w : World E) : Prop where
  quanta_lt : w.quanta.Pairwise fun q r => q.tick.toNat < r.tick.toNat
  quanta_le : ∀ q ∈ w.quanta, q.tick.toNat ≤ w.clock
  flushes_lt : w.flushes.Pairwise fun f g => f.batch.tick.toNat < g.batch.tick.toNat
  flushes_mem : ∀ f ∈ w.flushes, (⟨f.cell, f.batch.tick, f.memory⟩ : Quantum) ∈ w.quanta
  flushes_raw : ∀ f ∈ w.flushes, f.batch.deltas =
    f.memory.dirty.iterDirty.map fun p => PageDelta.raw (.ofNat p) (f.memory.pageBytes p)

theorem chronicle_new (max : UInt64) (e : E) (pages : ℕ) : Chronicle (new max e pages) where
  quanta_lt := .nil
  quanta_le _ h := by cases h
  flushes_lt := .nil
  flushes_mem _ h := by cases h
  flushes_raw _ h := by cases h

namespace Chronicle

theorem flush_le (h : Chronicle w) {f : Flush} (hf : f ∈ w.flushes) :
    f.batch.tick.toNat ≤ w.clock := h.quanta_le _ (h.flushes_mem f hf)

/-- A tick is the tick of at most one quantum. -/
theorem quantum_unique (h : Chronicle w) {q r : Quantum} (hq : q ∈ w.quanta)
    (hr : r ∈ w.quanta) (htick : q.tick = r.tick) : q = r := by
  obtain ⟨i, hi, rfl⟩ := List.getElem_of_mem hq
  obtain ⟨j, hj, rfl⟩ := List.getElem_of_mem hr
  have hlt := List.pairwise_iff_getElem.mp h.quanta_lt
  rcases lt_trichotomy i j with hij | hij | hij
  · have := hlt i j hi hj hij
    rw [htick] at this
    omega
  · subst hij
    rfl
  · have := hlt j i hj hi hij
    rw [htick] at this
    omega

/-- No flush asks more of the standby than its vectors can hold. -/
theorem resizable (h : Chronicle w) {f : Flush} (hf : f ∈ w.flushes) : f.batch.Resizable := by
  intro d hd
  rw [h.flushes_raw f hf] at hd
  exact resizable_of_dirty hd

theorem step (h : Chronicle w) (hstep : World.step blake3 executor w a = .ok w') :
    Chronicle w' := by
  cases step_cases hstep with
  | idle => exact h
  | spawned => exact ⟨h.quanta_lt, h.quanta_le, h.flushes_lt, h.flushes_mem, h.flushes_raw⟩
  | enabled => exact ⟨h.quanta_lt, h.quanta_le, h.flushes_lt, h.flushes_mem, h.flushes_raw⟩
  | popped => exact ⟨h.quanta_lt, h.quanta_le, h.flushes_lt, h.flushes_mem, h.flushes_raw⟩
  | accepted => exact ⟨h.quanta_lt, h.quanta_le, h.flushes_lt, h.flushes_mem, h.flushes_raw⟩
  | refused => exact ⟨h.quanta_lt, h.quanta_le, h.flushes_lt, h.flushes_mem, h.flushes_raw⟩
  | @cycled visit reported s' e' flushes d hflushed =>
    obtain ⟨hclock', htick⟩ := clock_cycled d
    have hlt : (w.quanta ++ [(⟨d.id, d.tick, d.ran.memory⟩ : Quantum)]).Pairwise
        fun q r => q.tick.toNat < r.tick.toNat := by
      refine List.pairwise_append.mpr ⟨h.quanta_lt, List.pairwise_singleton _ _, ?_⟩
      intro q hq r hr
      obtain rfl := List.mem_singleton.mp hr
      have := h.quanta_le q hq
      show q.tick.toNat < d.tick.toNat
      omega
    have hle : ∀ q ∈ w.quanta ++ [(⟨d.id, d.tick, d.ran.memory⟩ : Quantum)],
        q.tick.toNat ≤ s'.scheduler.clock.tick.toNat := by
      intro q hq
      rw [hclock']
      rcases List.mem_append.mp hq with hq | hq
      · have := h.quanta_le q hq
        omega
      · obtain rfl := List.mem_singleton.mp hq
        exact le_rfl
    have hmem : ∀ f ∈ w.flushes, (⟨f.cell, f.batch.tick, f.memory⟩ : Quantum) ∈
        w.quanta ++ [⟨d.id, d.tick, d.ran.memory⟩] :=
      fun f hf => List.mem_append_left _ (h.flushes_mem f hf)
    cases hflushed with
    | nothing =>
      rw [List.append_nil]
      exact ⟨hlt, hle, h.flushes_lt, hmem, h.flushes_raw⟩
    | pushed =>
      refine ⟨hlt, hle, ?_, ?_, ?_⟩
      · refine List.pairwise_append.mpr ⟨h.flushes_lt, List.pairwise_singleton _ _, ?_⟩
        intro f hf g hg
        obtain rfl := List.mem_singleton.mp hg
        have := h.flush_le hf
        show f.batch.tick.toNat < d.tick.toNat
        omega
      · intro f hf
        rcases List.mem_append.mp hf with hf | hf
        · exact hmem f hf
        · obtain rfl := List.mem_singleton.mp hf
          exact List.mem_append_right _ (List.mem_singleton.mpr rfl)
      · intro f hf
        rcases List.mem_append.mp hf with hf | hf
        · exact h.flushes_raw f hf
        · obtain rfl := List.mem_singleton.mp hf
          rfl

theorem of_run {actions : List Action} (h : Chronicle w)
    (hrun : run (World.step blake3 executor) w actions = .ok w') : Chronicle w' :=
  run_invariant (fun _ _ _ _ hw hs => hw.step hs) h hrun

end Chronicle

/-- The standby can apply whatever is on its way to it. -/
def Deliverable (w : World E) : Prop :=
  ∀ b ∈ w.inflight ++ w.supervisor.queued, b.Resizable

theorem deliverable_new (max : UInt64) (e : E) (pages : ℕ) : Deliverable (new max e pages) :=
  fun _ h => (by cases h)

theorem Deliverable.step (h : Deliverable w)
    (hstep : World.step blake3 executor w a = .ok w') : Deliverable w' := by
  cases step_cases hstep with
  | idle => exact h
  | spawned => exact h
  | enabled hempty =>
    intro b hb
    unfold Supervisor.queued at hb
    simp only [Supervisor.waiting, hempty, List.append_nil] at hb
    exact h b (List.mem_append_left _ hb)
  | cycled d hflushed =>
    cases hflushed with
    | nothing hqueued =>
      intro b hb
      simp only [hqueued] at hb
      exact h b hb
    | pushed hqueued =>
      intro b hb
      simp only [hqueued, ← List.append_assoc] at hb
      rcases List.mem_append.mp hb with hb | hb
      · exact h b hb
      · obtain rfl := List.mem_singleton.mp hb
        exact fun delta hdelta => resizable_of_dirty hdelta
  | @popped ring ring' batch hring hitems =>
    have hqueued : w.supervisor.queued = batch :: ring'.queue.items := by
      unfold Supervisor.queued
      rw [hring, Supervisor.waiting, hitems]
    intro b hb
    apply h b
    rw [hqueued, List.append_cons]
    exact hb
  | accepted hinflight =>
    intro b hb
    apply h b
    rw [hinflight]
    exact List.mem_cons_of_mem _ hb
  | refused hinflight =>
    intro b hb
    apply h b
    rw [hinflight]
    exact List.mem_cons_of_mem _ hb

/-- The batches on their way, and what the standby has made of those that arrived. -/
structure InTransit (standbyPages : ℕ) (w : World E) : Prop where
  sublist : (w.applied ++ w.inflight ++ w.supervisor.queued).Sublist (w.flushes.map Flush.batch)
  last_le : w.standby.lastAppliedTick.toNat ≤ w.clock
  fresh : ∀ b ∈ w.inflight ++ w.supervisor.queued,
    w.standby.lastAppliedTick.toNat < b.tick.toNat
  engine_eq : w.standby.engine =
    (w.applied.flatMap TickBatch.deltas).foldl DeltaEngine.applied (DeltaEngine.fresh standbyPages)

theorem inTransit_new (max : UInt64) (e : E) (pages : ℕ) : InTransit pages (new max e pages) where
  sublist := List.Sublist.refl []
  last_le := Nat.zero_le _
  fresh _ h := by cases h
  engine_eq := rfl

namespace InTransit
variable {pages : ℕ}

theorem flush_of_mem (h : InTransit pages w) {b : TickBatch}
    (hb : b ∈ w.applied ++ w.inflight ++ w.supervisor.queued) :
    ∃ f ∈ w.flushes, f.batch = b := List.mem_map.mp (h.sublist.subset hb)

theorem resizable (hc : Chronicle w) (h : InTransit pages w) {b : TickBatch}
    (hb : b ∈ w.applied ++ w.inflight ++ w.supervisor.queued) : b.Resizable := by
  obtain ⟨f, hf, rfl⟩ := h.flush_of_mem hb
  exact hc.resizable hf

/-- The next batch is accepted. -/
theorem next_accepted (hc : Chronicle w) (h : InTransit pages w) {b : TickBatch}
    {rest : List TickBatch} (hb : w.inflight = b :: rest) :
    w.standby.applyBatch b =
      .ok (.ok (), ⟨b.deltas.foldl DeltaEngine.applied w.standby.engine, b.tick⟩) := by
  have hmem : b ∈ w.inflight := by
    rw [hb]
    exact List.mem_cons_self
  apply StandbyApplyLoop.applyBatch_fresh
  · rw [UInt64.lt_iff_toNat_lt]
    exact h.fresh b (List.mem_append_left _ hmem)
  · exact h.resizable hc (List.mem_append_left _ (List.mem_append_right _ hmem))

/-- The standby takes over the next batch. -/
theorem accepted (hc : Chronicle w) (h : InTransit pages w) {b : TickBatch}
    {rest : List TickBatch} (hb : w.inflight = b :: rest) :
    InTransit pages { w with
      standby := ⟨b.deltas.foldl DeltaEngine.applied w.standby.engine, b.tick⟩
      inflight := rest
      applied := w.applied ++ [b] } := by
  have hsub := h.sublist
  rw [hb] at hsub
  have hall : (w.flushes.map Flush.batch).Pairwise fun b c => b.tick.toNat < c.tick.toNat :=
    List.pairwise_map.mpr hc.flushes_lt
  have hsorted := hall.sublist hsub
  refine ⟨?_, ?_, ?_, ?_⟩
  · simpa using hsub
  · obtain ⟨f, hf, hbatch⟩ := h.flush_of_mem (b := b) (by simp [hb])
    have hle := hc.flush_le hf
    rwa [hbatch] at hle
  · -- the rest of the subsequence lies after the batch just applied
    intro c hc
    rw [List.append_assoc] at hsorted
    exact (List.pairwise_cons.mp (List.pairwise_append.mp hsorted).2.1).1 c hc
  · simp only [List.flatMap_append, List.flatMap_cons, List.flatMap_nil, List.append_nil,
      List.foldl_append, h.engine_eq]

theorem step (hc : Chronicle w) (h : InTransit pages w)
    (hstep : World.step blake3 executor w a = .ok w') : InTransit pages w' := by
  cases step_cases hstep with
  | idle => exact h
  | spawned => exact ⟨h.sublist, h.last_le, h.fresh, h.engine_eq⟩
  | enabled hempty =>
    -- a new ring starts empty; what waited in an old one is gone
    refine ⟨?_, h.last_le, ?_, h.engine_eq⟩
    · refine List.Sublist.trans ?_ h.sublist
      unfold Supervisor.queued
      simp only [Supervisor.waiting, hempty, List.append_nil]
      exact List.sublist_append_left _ _
    · intro b hb
      unfold Supervisor.queued at hb
      simp only [Supervisor.waiting, hempty, List.append_nil] at hb
      exact h.fresh b (List.mem_append_left _ hb)
  | @cycled visit reported s' e' flushes d hflushed =>
    obtain ⟨hclock', htick⟩ := clock_cycled d
    have hlast : w.standby.lastAppliedTick.toNat ≤ s'.scheduler.clock.tick.toNat := by
      have := h.last_le
      rw [hclock']
      omega
    cases hflushed with
    | nothing hqueued =>
      rw [List.append_nil]
      exact ⟨by simpa only [hqueued] using h.sublist, hlast,
        by simpa only [hqueued] using h.fresh, h.engine_eq⟩
    | pushed hqueued =>
      refine ⟨?_, hlast, ?_, h.engine_eq⟩
      · simp only [hqueued, List.map_append, List.map_cons, List.map_nil, ← List.append_assoc]
        exact h.sublist.append (List.Sublist.refl _)
      · intro b hb
        simp only [hqueued, ← List.append_assoc] at hb
        rcases List.mem_append.mp hb with hb | hb
        · exact h.fresh b hb
        · obtain rfl := List.mem_singleton.mp hb
          have := h.last_le
          show w.standby.lastAppliedTick.toNat < d.tick.toNat
          omega
  | @popped ring ring' batch hring hitems =>
    have hqueued : w.supervisor.queued = batch :: ring'.queue.items := by
      unfold Supervisor.queued
      rw [hring, Supervisor.waiting, hitems]
    have hmoved : w.inflight ++ w.supervisor.queued =
        w.inflight ++ [batch] ++ ring'.queue.items := by
      rw [hqueued, List.append_assoc, List.singleton_append]
    have hsub := h.sublist
    have hfresh := h.fresh
    rw [List.append_assoc, hmoved, ← List.append_assoc] at hsub
    rw [hmoved] at hfresh
    exact ⟨hsub, h.last_le, hfresh, h.engine_eq⟩
  | @accepted batch rest standby hinflight happly =>
    rw [h.next_accepted hc hinflight] at happly
    obtain rfl : (⟨_, batch.tick⟩ : StandbyApplyLoop) = standby := by
      simpa using happly
    exact h.accepted hc hinflight
  | refused hinflight happly =>
    rw [h.next_accepted hc hinflight] at happly
    simp at happly

/-- Both invariants hold in every reachable world. -/
theorem of_run {actions : List Action} (hc : Chronicle w) (h : InTransit pages w)
    (hrun : run (World.step blake3 executor) w actions = .ok w') :
    Chronicle w' ∧ InTransit pages w' :=
  run_invariant (P := fun w => Chronicle w ∧ InTransit pages w)
    (fun _ _ _ _ hw hs => ⟨hw.1.step hs, hw.2.step hw.1 hs⟩) ⟨hc, h⟩ hrun

end InTransit
end World
end ChronosUvm
