import Mathlib.Tactic
import ChronosUvm.Core.GuestProgram
import ChronosUvm.Core.Transit

/-!
Convergence of the standby in a one-cell system. The flushes since replication was
enabled determine the standby's pages; a page outside the dirty set is what the
flushes say it is or, where no flush contains it, what it was at the enabling.
-/
namespace ChronosUvm
open Panicking Tables Transitions MmapGuardedMemory

/-- The page that a standby holds once the flushes have been applied in order. -/
def mirror (flushes : List Flush) (i : ℕ) : Option Page :=
  flushes.foldl (fun page f =>
    if f.memory.dirty.isDirty i then some (f.memory.pageBytes i) else page) none

theorem mirror_append_singleton (flushes : List Flush) (f : Flush) (i : ℕ) :
    mirror (flushes ++ [f]) i =
      if f.memory.dirty.isDirty i then some (f.memory.pageBytes i) else mirror flushes i := by
  rw [mirror, List.foldl_append, List.foldl_cons, List.foldl_nil, ← mirror]

theorem mirror_eq_some {flushes : List Flush} {i : ℕ} {page : Page}
    (h : mirror flushes i = some page) : ∃ f ∈ flushes, f.memory.dirty.isDirty i = true := by
  induction flushes using List.reverseRecOn with
  | nil => cases h
  | append_singleton flushes f ih =>
    rw [mirror_append_singleton] at h
    split_ifs at h with hdirty
    · exact ⟨f, by simp, hdirty⟩
    · obtain ⟨g, hg, hi⟩ := ih h
      exact ⟨g, List.mem_append_left _ hg, hi⟩

/-- Applying flushed batches makes the engine hold the mirror. -/
theorem page?_of_flushes {flushes : List Flush}
    (hraw : ∀ f ∈ flushes, f.batch.deltas =
      f.memory.dirty.iterDirty.map fun p => PageDelta.raw (.ofNat p) (f.memory.pageBytes p))
    (pages i : ℕ) :
    (((flushes.map Flush.batch).flatMap TickBatch.deltas).foldl DeltaEngine.applied
      (DeltaEngine.fresh pages)).page? i = mirror flushes i := by
  induction flushes using List.reverseRecOn with
  | nil => exact DeltaEngine.page?_fresh pages i
  | append_singleton flushes f ih =>
    have hold := ih fun g hg => hraw g (List.mem_append_left _ hg)
    have hsmall : ∀ p ∈ f.memory.dirty.iterDirty, p < 2 ^ 32 := fun p hp =>
      lt_of_mem_iterDirty hp
    rw [List.map_append, List.flatMap_append, List.foldl_append, List.map_singleton,
      List.flatMap_singleton, hraw f (by simp), DeltaEngine.page?_foldl_raw _ hsmall, hold,
      mirror_append_singleton]
    simp only [DirtyPageSet.mem_iterDirty]

/-- The page in memory is the one the flushes leave on the standby, or no flush contains it
and nobody has marked it between the ticks `start` and `stop`. -/
structure Mirrors (base : MmapGuardedMemory) (quanta : List Quantum) (start stop : ℕ)
    (flushes : List Flush) (memory : MmapGuardedMemory) (i : ℕ) : Prop where
  flushed : ∀ page, mirror flushes i = some page → memory.pageBytes i = page
  unflushed : mirror flushes i = none →
    memory.pageBytes i = base.pageBytes i ∧ base.dirty.isDirty i = false ∧
      ∀ q ∈ quanta, start < q.tick.toNat → q.tick.toNat ≤ stop → q.memory.dirty.isDirty i = false

namespace Mirrors
variable {base memory : MmapGuardedMemory} {quanta : List Quantum} {start stop : ℕ}
  {flushes : List Flush} {i : ℕ} {q : Quantum}

/-- A later quantum does not concern the pages as they were before. -/
theorem later (h : Mirrors base quanta start stop flushes memory i) (hq : stop < q.tick.toNat) :
    Mirrors base (quanta ++ [q]) start stop flushes memory i := by
  refine ⟨h.flushed, ?_⟩
  intro hnone
  obtain ⟨hbase, hclean, hquanta⟩ := h.unflushed hnone
  refine ⟨hbase, hclean, ?_⟩
  intro r hr hstart hstop
  rcases List.mem_append.mp hr with hr | hr
  · exact hquanta r hr hstart hstop
  · obtain rfl := List.mem_singleton.mp hr
    omega

/-- A quantum keeps the pages that are clean after it. -/
theorem quantum (hold : memory.dirty.isDirty i = false →
      Mirrors base quanta start stop flushes memory i)
    (heffect : GuestEffect memory q.memory) (hclean : q.memory.dirty.isDirty i = false)
    (hle : ∀ r ∈ quanta, r.tick.toNat ≤ stop) :
    Mirrors base (quanta ++ [q]) start q.tick.toNat flushes q.memory i := by
  obtain ⟨hbefore, hsame⟩ := heffect.of_clean hclean
  have h := hold hbefore
  refine ⟨fun page hpage => hsame.trans (h.flushed page hpage), ?_⟩
  intro hnone
  obtain ⟨hbase, hbaseClean, hquanta⟩ := h.unflushed hnone
  refine ⟨hsame.trans hbase, hbaseClean, ?_⟩
  intro r hr hstart _
  rcases List.mem_append.mp hr with hr | hr
  · exact hquanta r hr hstart (hle r hr)
  · obtain rfl := List.mem_singleton.mp hr
    exact hclean

/-- A flush of the dirty pages leaves no page behind. -/
theorem flush {cell : CellId} {batch : TickBatch} (hclean : memory.dirty.isDirty i = false →
      Mirrors base quanta start stop flushes memory i) :
    Mirrors base quanta start stop (flushes ++ [⟨cell, memory, batch⟩]) memory i := by
  cases hdirty : memory.dirty.isDirty i with
  | false =>
    have hmirror : mirror (flushes ++ [⟨cell, memory, batch⟩]) i = mirror flushes i := by
      rw [mirror_append_singleton, hdirty]
      rfl
    have h := hclean hdirty
    exact ⟨by rw [hmirror]; exact h.flushed, by rw [hmirror]; exact h.unflushed⟩
  | true =>
    have hmirror : mirror (flushes ++ [⟨cell, memory, batch⟩]) i = some (memory.pageBytes i) := by
      rw [mirror_append_singleton, hdirty]
      rfl
    refine ⟨?_, ?_⟩
    · intro page hpage
      rw [hmirror] at hpage
      exact Option.some.inj hpage
    · intro hnone
      rw [hmirror] at hnone
      cases hnone

end Mirrors

namespace World
variable {E : Type} {blake3 : Blake3} {executor : QuantumExecutor E} {w w' : World E}
  {a : Action}

/-- The invariant of a one-cell system since replication was enabled at tick `start`, with
the cell's memory being `base` at that moment. -/
structure Converging (id : CellId) (base : MmapGuardedMemory) (start : ℕ) (w : World E) :
    Prop where
  order_eq : w.supervisor.scheduler.order = [id]
  ring_on : w.supervisor.replication.isSome = true
  lossless : w.applied ++ w.inflight ++ w.supervisor.queued = w.flushes.map Flush.batch
  start_le : start ≤ w.clock
  flush_after : ∀ f ∈ w.flushes, start < f.batch.tick.toNat
  flush_cell : ∀ f ∈ w.flushes, f.cell = id
  current : ∀ c, w.supervisor.cells.get? id = some c → ∀ i, c.memory.dirty.isDirty i = false →
    Mirrors base w.quanta start w.clock w.flushes c.memory i
  history : ∀ pre f post, w.flushes = pre ++ f :: post →
    ∀ i, Mirrors base w.quanta start f.batch.tick.toNat (pre ++ [f]) f.memory i

/-- The quantum of a cycle, before anything is flushed. -/
theorem Converging.ran {id : CellId} {base : MmapGuardedMemory} {start : ℕ}
    (hexecutor : executor.MarksWrites) (hc : Chronicle w) (h : Converging id base start w)
    {visit : VisitOrder} {reported : Except SupervisorError (Option (CellId × Tick))}
    {s' : Supervisor} {e' : E}
    (d : Supervisor.Dispatch blake3 executor visit w.supervisor s' w.executor e' reported)
    (hid : d.id = id) {i : ℕ} (hclean : d.ran.memory.dirty.isDirty i = false) :
    Mirrors base (w.quanta ++ [⟨d.id, d.tick, d.ran.memory⟩]) start d.tick.toNat w.flushes
      d.ran.memory i := by
  have heffect := (hexecutor _ _ _ _ _ _ d.ran_eq).effect
  exact Mirrors.quantum (q := ⟨d.id, d.tick, d.ran.memory⟩)
    (h.current d.before (by rw [← hid]; exact d.before_eq) i) heffect hclean hc.quanta_le

/-- A later quantum does not concern the batches flushed before. -/
theorem Converging.history_later {id : CellId} {base : MmapGuardedMemory} {start : ℕ}
    (hc : Chronicle w) (h : Converging id base start w) {q : Quantum} (hq : w.clock < q.tick.toNat)
    {pre : List Flush} {f : Flush} {post : List Flush} (hsplit : w.flushes = pre ++ f :: post)
    (i : ℕ) :
    Mirrors base (w.quanta ++ [q]) start f.batch.tick.toNat (pre ++ [f]) f.memory i := by
  apply (h.history pre f post hsplit i).later
  have hle := hc.flush_le (f := f) (by simp [hsplit])
  omega

/-- A cycle of the one-cell system dispatches its cell and leaves the system as it is. -/
theorem Converging.dispatched {id : CellId} {base : MmapGuardedMemory} {start : ℕ}
    (h : Converging id base start w) {visit : VisitOrder}
    {reported : Except SupervisorError (Option (CellId × Tick))} {s' : Supervisor} {e' : E}
    (d : Supervisor.Dispatch blake3 executor visit w.supervisor s' w.executor e' reported) :
    d.id = id ∧ s'.scheduler.order = [id] ∧ s'.replication.isSome = true ∧
      start ≤ s'.scheduler.clock.tick.toNat ∧
      ∀ c, s'.cells.get? id = some c → c = d.stored := by
  obtain ⟨hclock', htick⟩ := clock_cycled d
  obtain ⟨hid, hrest⟩ : d.id = id ∧ d.rest = [] := by
    have := d.order_eq.symm.trans h.order_eq
    simpa using this
  refine ⟨hid, ?_, d.ended.replication_isSome.trans h.ring_on, ?_, ?_⟩
  · rw [d.scheduler_eq, hrest, hid, List.nil_append]
  · have := h.start_le
    rw [hclock']
    omega
  · intro c hget
    rw [d.cells_eq, ← hid, HashMap.get?_insert_self] at hget
    exact (Option.some.inj hget).symm

theorem Converging.cycled {id : CellId} {base : MmapGuardedMemory} {start : ℕ}
    (hexecutor : executor.MarksWrites) (hc : Chronicle w) (h : Converging id base start w)
    {visit : VisitOrder} {reported : Except SupervisorError (Option (CellId × Tick))}
    {s' : Supervisor} {e' : E} {flushes : List Flush}
    (d : Supervisor.Dispatch blake3 executor visit w.supervisor s' w.executor e' reported)
    (hflushed : Flushed d flushes) :
    Converging id base start ⟨s', e', w.standby, w.inflight,
      w.quanta ++ [⟨d.id, d.tick, d.ran.memory⟩], w.flushes ++ flushes, w.applied⟩ := by
  obtain ⟨hclock', htick⟩ := clock_cycled d
  obtain ⟨hid, horder, hring, hstart, hstored⟩ := h.dispatched d
  have hhistory (pre : List Flush) (f : Flush) (post : List Flush)
      (hsplit : w.flushes = pre ++ f :: post) (i : ℕ) :=
    h.history_later hc (q := ⟨d.id, d.tick, d.ran.memory⟩) (by show _ < d.tick.toNat; omega)
      hsplit i
  cases hflushed with
  | nothing hqueued hmemory =>
    rw [List.append_nil]
    refine ⟨horder, hring, ?_, hstart, h.flush_after, h.flush_cell, ?_, hhistory⟩
    · exact (congrArg _ hqueued).trans h.lossless
    · intro c hget i hclean
      obtain rfl := hstored c hget
      have hkept : d.stored.memory = d.ran.memory := by
        rcases hmemory with hkept | ⟨hoff, -⟩
        · exact hkept
        · have := h.ring_on
          rw [hoff] at this
          cases this
      show Mirrors base _ start s'.scheduler.clock.tick.toNat _ _ i
      rw [hkept] at hclean
      rw [hkept, hclock']
      exact h.ran hexecutor hc d hid hclean
  | pushed hqueued hmemory =>
    have hall (i : ℕ) : Mirrors base (w.quanta ++ [⟨d.id, d.tick, d.ran.memory⟩]) start
        d.tick.toNat (w.flushes ++ [⟨d.id, d.ran.memory, d.ran.flushBatch d.tick⟩])
        d.ran.memory i := Mirrors.flush (h.ran hexecutor hc d hid)
    refine ⟨horder, hring, ?_, hstart, ?_, ?_, ?_, ?_⟩
    · simp only [hqueued, List.map_append, List.map_cons, List.map_nil, ← h.lossless,
        List.append_assoc]
    · intro f hf
      rcases List.mem_append.mp hf with hf | hf
      · exact h.flush_after f hf
      · obtain rfl := List.mem_singleton.mp hf
        have := h.start_le
        show start < d.tick.toNat
        omega
    · intro f hf
      rcases List.mem_append.mp hf with hf | hf
      · exact h.flush_cell f hf
      · obtain rfl := List.mem_singleton.mp hf
        exact hid
    · intro c hget i _
      obtain rfl := hstored c hget
      show Mirrors base _ start s'.scheduler.clock.tick.toNat _ _ i
      rw [hmemory, hclock']
      exact ⟨(hall i).flushed, (hall i).unflushed⟩
    · intro pre f post hsplit i
      rcases List.eq_nil_or_concat post with rfl | ⟨post, g, rfl⟩
      · obtain ⟨rfl, hf⟩ := List.append_inj' hsplit rfl
        obtain rfl : (⟨d.id, d.ran.memory, d.ran.flushBatch d.tick⟩ : Flush) = f := by
          simpa using hf
        exact hall i
      · rw [List.concat_eq_append, ← List.cons_append, ← List.append_assoc] at hsplit
        obtain ⟨hold, -⟩ := List.append_inj' hsplit rfl
        exact hhistory pre f post hold i

/-- One action of the running system. -/
theorem Converging.step {id : CellId} {base : MmapGuardedMemory} {start : ℕ}
    {pages : ℕ} (hexecutor : executor.MarksWrites) (ha : a.Running) (hc : Chronicle w)
    (ht : InTransit pages w) (h : Converging id base start w)
    (hstep : World.step blake3 executor w a = .ok w') :
    Converging id base start w' := by
  cases step_cases hstep with
  | idle => exact h
  | spawned haction =>
    rcases haction with ⟨mode, rfl, -⟩ | ⟨entries, rfl, -⟩
    · exact ha.elim
    · exact ha.elim
  | enabled => exact ha.elim
  | cycled d hflushed => exact h.cycled hexecutor hc d hflushed
  | @popped ring ring' batch hring hitems =>
    refine ⟨h.order_eq, rfl, ?_, h.start_le, h.flush_after, h.flush_cell, h.current, h.history⟩
    have hlossless := h.lossless
    unfold Supervisor.queued at hlossless
    rw [hring, Supervisor.waiting, hitems] at hlossless
    simpa [Supervisor.queued, Supervisor.waiting] using hlossless
  | @accepted batch rest standby hinflight happly =>
    refine ⟨h.order_eq, h.ring_on, ?_, h.start_le, h.flush_after, h.flush_cell, h.current,
      h.history⟩
    have hlossless := h.lossless
    rw [hinflight] at hlossless
    simpa using hlossless
  | refused hinflight happly =>
    rw [ht.next_accepted hc hinflight] at happly
    simp at happly

theorem Converging.of_run {id : CellId} {base : MmapGuardedMemory} {start pages : ℕ}
    {actions : List Action} (hexecutor : executor.MarksWrites)
    (hactions : ∀ a ∈ actions, a.Running) (hc : Chronicle w) (ht : InTransit pages w)
    (h : Converging id base start w)
    (hrun : run (World.step blake3 executor) w actions = .ok w') :
    Chronicle w' ∧ InTransit pages w' ∧ Converging id base start w' :=
  run_invariant (P := fun w => Chronicle w ∧ InTransit pages w ∧ Converging id base start w)
    (fun a ha _ _ hw hs => ⟨hw.1.step hs, hw.2.1.step hw.1 hs,
      hw.2.2.step hexecutor (hactions a ha) hw.1 hw.2.1 hs⟩) ⟨hc, ht, h⟩ hrun

/-- The next batch is one of the flushes, and with it the standby holds their mirror. -/
theorem Converging.next_flush {id : CellId} {base : MmapGuardedMemory} {start pages : ℕ}
    (hc : Chronicle w) (ht : InTransit pages w) (h : Converging id base start w)
    {b : TickBatch} {rest : List TickBatch} (hb : w.inflight = b :: rest) :
    ∃ pre f post, w.flushes = pre ++ f :: post ∧ f.batch = b ∧
      ∀ i, (b.deltas.foldl DeltaEngine.applied w.standby.engine).page? i =
        mirror (pre ++ [f]) i := by
  have hlossless := h.lossless
  rw [hb, List.append_assoc, List.cons_append] at hlossless
  obtain ⟨pre, rest', hsplit, hpre, hrest⟩ := List.map_eq_append_iff.mp hlossless.symm
  obtain ⟨f, post, rfl, hf, -⟩ := List.map_eq_cons_iff.mp hrest
  refine ⟨pre, f, post, hsplit, hf, ?_⟩
  intro i
  have hraw (g : Flush) (hg : g ∈ pre ++ [f]) : g.batch.deltas =
      g.memory.dirty.iterDirty.map fun p => PageDelta.raw (.ofNat p) (g.memory.pageBytes p) := by
    apply hc.flushes_raw g
    rw [hsplit, List.append_cons]
    exact List.mem_append_left _ hg
  rw [← page?_of_flushes hraw pages i, ht.engine_eq, List.map_append, hpre, List.map_singleton,
    hf, List.flatMap_append, List.flatMap_singleton, List.foldl_append]

/-- Whether the standby has the memory of the quantum once the next batch is applied: it
does exactly when the pages it has never been sent were zero at the enabling. -/
theorem Converging.next_page_iff {id : CellId} {base : MmapGuardedMemory} {start pages : ℕ}
    (hc : Chronicle w) (ht : InTransit pages w) (h : Converging id base start w)
    {b : TickBatch} {rest : List TickBatch} (hb : w.inflight = b :: rest) :
    ∃ standby, w.standby.applyBatch b = .ok (.ok (), standby) ∧
      (∃ q ∈ w.quanta, q.tick = b.tick) ∧
      ∀ q ∈ w.quanta, q.tick = b.tick → q.cell = id ∧ ∀ i,
        (standby.engine.pageOrZero i = q.memory.pageBytes i ↔
          (base.dirty.isDirty i = false → base.pageBytes i ≠ zeroPage →
            ∃ r ∈ w.quanta, start < r.tick.toNat ∧ r.tick.toNat ≤ b.tick.toNat ∧
              r.memory.dirty.isDirty i = true)) := by
  obtain ⟨pre, f, post, hsplit, rfl, hpage⟩ := h.next_flush hc ht hb
  have hf : f ∈ w.flushes := by simp [hsplit]
  refine ⟨_, ht.next_accepted hc hb, ⟨_, hc.flushes_mem f hf, rfl⟩, ?_⟩
  intro q hq htick
  obtain rfl := hc.quantum_unique hq (hc.flushes_mem f hf) htick
  refine ⟨h.flush_cell f hf, ?_⟩
  intro i
  have hm := h.history pre f post hsplit i
  show (DeltaEngine.page? _ i).getD zeroPage = f.memory.pageBytes i ↔ _
  rw [hpage]
  cases hmirror : mirror (pre ++ [f]) i with
  | some page =>
    obtain ⟨g, hg, hdirty⟩ := mirror_eq_some hmirror
    have hgf : g ∈ w.flushes := by
      rw [hsplit, List.append_cons]
      exact List.mem_append_left _ hg
    have hle : g.batch.tick.toNat ≤ f.batch.tick.toNat := by
      rcases List.mem_append.mp hg with hg | hg
      · have hlt := hc.flushes_lt
        rw [hsplit] at hlt
        exact ((List.pairwise_append.mp hlt).2.2 g hg f List.mem_cons_self).le
      · obtain rfl := List.mem_singleton.mp hg
        exact le_rfl
    constructor
    · intro _ _ _
      exact ⟨_, hc.flushes_mem g hgf, h.flush_after g hgf, hle, hdirty⟩
    · intro _
      exact (hm.flushed page hmirror).symm
  | none =>
    obtain ⟨hbase, hclean, hquanta⟩ := hm.unflushed hmirror
    rw [hbase]
    constructor
    · intro hzero _ hne
      exact absurd hzero.symm hne
    · intro hcond
      by_contra hne
      obtain ⟨r, hr, hstart, hstop, hdirty⟩ := hcond hclean (Ne.symm hne)
      rw [hquanta r hr hstart hstop] at hdirty
      cases hdirty

/-- Nothing has been flushed yet. -/
structure Unflushed (w : World E) : Prop where
  flushes_eq : w.flushes = []
  applied_eq : w.applied = []
  inflight_eq : w.inflight = []
  queued_eq : w.supervisor.queued = []

theorem unflushed_new (max : UInt64) (e : E) (pages : ℕ) : Unflushed (new max e pages) :=
  ⟨rfl, rfl, rfl, rfl⟩

/-- Only a cycle with a ring can flush. -/
theorem Unflushed.step (h : Unflushed w)
    (ha : ¬ a.Running ∨ w.supervisor.replication = none)
    (hstep : World.step blake3 executor w a = .ok w') : Unflushed w' := by
  cases step_cases hstep with
  | idle => exact h
  | spawned => exact ⟨h.flushes_eq, h.applied_eq, h.inflight_eq, h.queued_eq⟩
  | enabled hempty => exact ⟨h.flushes_eq, h.applied_eq, h.inflight_eq, hempty⟩
  | cycled d hflushed =>
    rcases ha with ha | hoff
    · exact absurd trivial ha
    · cases hflushed with
      | nothing hqueued =>
        rw [List.append_nil]
        exact ⟨h.flushes_eq, h.applied_eq, h.inflight_eq, hqueued.trans h.queued_eq⟩
      | pushed hqueued =>
        have hoff' := d.replication_eq_none hoff
        unfold Supervisor.queued at hqueued
        rw [hoff'] at hqueued
        simp [Supervisor.waiting] at hqueued
  | popped hring hitems =>
    have := h.queued_eq
    unfold Supervisor.queued at this
    rw [hring, Supervisor.waiting, hitems] at this
    cases this
  | accepted hinflight =>
    have := h.inflight_eq
    rw [hinflight] at this
    cases this
  | refused hinflight =>
    have := h.inflight_eq
    rw [hinflight] at this
    cases this

/-- At the moment the ring is there and nothing has been flushed, the invariant starts. -/
theorem Unflushed.converging (h : Unflushed w) {id : CellId} {c : Cell}
    (hone : w.supervisor.scheduler.order = [id]) (hring : w.supervisor.replication.isSome = true)
    (hcell : w.supervisor.cell id = some c) : Converging id c.memory w.clock w where
  order_eq := hone
  ring_on := hring
  lossless := by rw [h.applied_eq, h.inflight_eq, h.queued_eq, h.flushes_eq]; rfl
  start_le := le_rfl
  flush_after f hf := by
    rw [h.flushes_eq] at hf
    cases hf
  flush_cell f hf := by
    rw [h.flushes_eq] at hf
    cases hf
  current c' hc' i hclean := by
    obtain rfl : c = c' := Option.some.inj (hcell.symm.trans hc')
    rw [h.flushes_eq]
    refine ⟨fun page hpage => (by cases hpage), fun _ => ⟨rfl, hclean, ?_⟩⟩
    intro q _ hafter hbefore
    omega
  history pre f post hsplit := by
    rw [h.flushes_eq] at hsplit
    simp at hsplit

/-- Before the first cycle every cell's memory is clean and zero. -/
def Untouched (w : World E) : Prop :=
  ∀ id c, w.supervisor.cells.get? id = some c →
    ∀ i, c.memory.dirty.isDirty i = false ∧ c.memory.pageBytes i = zeroPage

theorem Untouched.step (h : Untouched w) (ha : ¬ a.Running)
    (hstep : World.step blake3 executor w a = .ok w') : Untouched w' := by
  cases step_cases hstep with
  | idle => exact h
  | @spawned _ config memory recorder haction hmemory hfresh =>
    intro id c hget i
    rw [HashMap.get?_insert] at hget
    split_ifs at hget with hid
    · cases hget
      exact ⟨(new_eq_ok hmemory).2.2.2 i, new_pageBytes hmemory i⟩
    · exact h id c hget i
  | enabled => exact h
  | cycled => exact absurd trivial ha
  | popped => exact absurd trivial ha
  | accepted => exact absurd trivial ha
  | refused => exact absurd trivial ha

/-- Single-cell replication converges. Replication is on before the first cycle; then, in
whatever way cycles, pops and applications interleave, the standby accepts the next batch
and holds every page of the cell's memory as the quantum of the batch's tick left it. -/
theorem standby_converges (blake3 : Blake3) (executor : QuantumExecutor E)
    (hexecutor : executor.MarksWrites) (max : UInt64) (e : E) (standbyPages : ℕ)
    (id : CellId) (setup actions : List Action) (w₀ w : World E)
    (hsetup : ∀ a ∈ setup, ¬ a.Running)
    (hw₀ : run (World.step blake3 executor) (new max e standbyPages) setup = .ok w₀)
    (hone : w₀.supervisor.scheduler.order = [id])
    (hring : w₀.supervisor.replication.isSome = true)
    (hactions : ∀ a ∈ actions, a.Running)
    (hrun : run (World.step blake3 executor) w₀ actions = .ok w)
    (b : TickBatch) (rest : List TickBatch) (hb : w.inflight = b :: rest) :
    ∃ standby, w.standby.applyBatch b = .ok (.ok (), standby) ∧
      (∃ q ∈ w.quanta, q.tick = b.tick) ∧
      ∀ q ∈ w.quanta, q.tick = b.tick → q.cell = id ∧
        ∀ i, standby.engine.pageOrZero i = q.memory.pageBytes i := by
  obtain ⟨hc₀, ht₀⟩ := InTransit.of_run (chronicle_new max e standbyPages)
    (inTransit_new max e standbyPages) hw₀
  obtain ⟨hu₀, hz₀, hr₀⟩ := run_invariant
    (P := fun w : World E => Unflushed w ∧ Untouched w ∧ Registered w)
    (fun a ha _ _ hw hs => ⟨hw.1.step (.inl (hsetup a ha)) hs, hw.2.1.step (hsetup a ha) hs,
      hw.2.2.step hs⟩)
    ⟨unflushed_new max e standbyPages, fun _ _ h => (by cases h),
      registered_new max e standbyPages⟩ hw₀
  obtain ⟨c, hcell⟩ := HashMap.mem_iff_get?.mp (hr₀ id (by rw [hone]; exact List.mem_cons_self))
  obtain ⟨hc, ht, h⟩ := (hu₀.converging hone hring hcell).of_run hexecutor hactions hc₀ ht₀ hrun
  obtain ⟨standby, happly, hq, hpages⟩ := h.next_page_iff hc ht hb
  refine ⟨standby, happly, hq, ?_⟩
  intro q hmem htick
  obtain ⟨hid, hiff⟩ := hpages q hmem htick
  refine ⟨hid, ?_⟩
  intro i
  apply (hiff i).mpr
  intro _ hne
  exact absurd (hz₀ id c hcell i).2 hne

/-- A store, a second one whose batch finds the ring full, and a third. -/
theorem standby_converges_after_backpressure :
    ∃ w b rest standby,
      run Guest.scriptedStep (Guest.scriptedWorld [.poke 5 7, .poke 4097 8, .poke 4098 9])
        ([.spawn ⟨1, 8192, 8192, 1⟩ .record, .enableReplication 1] ++
          [.ascendingCycle, .ascendingCycle, .pop, .apply, .ascendingCycle, .pop]) = .ok w ∧
      w.inflight = b :: rest ∧ w.standby.applyBatch b = .ok (.ok (), standby) ∧
      ∀ q ∈ w.quanta, q.tick = b.tick →
        ∀ i, standby.engine.pageOrZero i = q.memory.pageBytes i := by
  have hreturns : returnsWith
      (run Guest.scriptedStep (Guest.scriptedWorld [.poke 5 7, .poke 4097 8, .poke 4098 9])
        [.spawn ⟨1, 8192, 8192, 1⟩ .record, .enableReplication 1])
      (fun w₀ => decide (w₀.supervisor.scheduler.order = [1]) &&
        w₀.supervisor.replication.isSome && returnsWith
          (run Guest.scriptedStep w₀
            [.ascendingCycle, .ascendingCycle, .pop, .apply, .ascendingCycle, .pop])
          fun w => !w.inflight.isEmpty) = true := by
    decide +kernel
  obtain ⟨w₀, hw₀, htest⟩ := returnsWith_eq_true.mp hreturns
  simp only [Bool.and_eq_true, decide_eq_true_eq] at htest
  obtain ⟨⟨hone, hring⟩, htest⟩ := htest
  obtain ⟨w, hrun, hinflight⟩ := returnsWith_eq_true.mp htest
  obtain ⟨b, rest, hb⟩ := List.exists_cons_of_ne_nil (by simpa using hinflight)
  obtain ⟨standby, happly, -, hpages⟩ := standby_converges _ _ (Guest.executor_marksWrites _ _)
    _ _ _ 1 _ _ w₀ w (by simp [Action.Running]) hw₀ hone hring (by simp [Action.Running]) hrun
    b rest hb
  exact ⟨w, b, rest, standby, run_append_eq_ok.mpr ⟨w₀, hw₀, hrun⟩, hb, happly,
    fun q hq ht => (hpages q hq ht).2⟩

/-- The ring is created by `enable_replication` only. -/
theorem replication_none_step (h : w.supervisor.replication = none)
    (ha : ∀ capacity, a ≠ .enableReplication capacity)
    (hstep : World.step blake3 executor w a = .ok w') : w'.supervisor.replication = none := by
  cases step_cases hstep with
  | idle => exact h
  | spawned => exact h
  | @enabled capacity => exact absurd rfl (ha capacity)
  | cycled d => exact d.replication_eq_none h
  | popped hring =>
    rw [h] at hring
    cases hring
  | accepted => exact h
  | refused => exact h

/-- Replication enabled late converges exactly when every page that was clean and not zero
at that moment is marked again by the tick in question: such pages are sent by no batch. -/
theorem late_replication_converges_iff (blake3 : Blake3) (executor : QuantumExecutor E)
    (hexecutor : executor.MarksWrites) (max : UInt64) (e : E) (standbyPages ringCapacity : ℕ)
    (id : CellId) (before actions : List Action) (w₀ w : World E) (c₀ : Cell)
    (hbefore : ∀ a ∈ before, ∀ capacity, a ≠ .enableReplication capacity)
    (hw₀ : run (World.step blake3 executor) (new max e standbyPages) before = .ok w₀)
    (hone : w₀.supervisor.scheduler.order = [id]) (hcell : w₀.supervisor.cell id = some c₀)
    (hactions : ∀ a ∈ actions, a.Running)
    (hrun : run (World.step blake3 executor) w₀ (.enableReplication ringCapacity :: actions) =
      .ok w)
    (b : TickBatch) (rest : List TickBatch) (hb : w.inflight = b :: rest) :
    (∃ standby, w.standby.applyBatch b = .ok (.ok (), standby) ∧
      ∀ q ∈ w.quanta, q.tick = b.tick →
        ∀ i, standby.engine.pageOrZero i = q.memory.pageBytes i) ↔
    ∀ i, c₀.memory.dirty.isDirty i = false → c₀.memory.pageBytes i ≠ zeroPage →
      ∃ r ∈ w.quanta, w₀.supervisor.scheduler.currentTick.toNat < r.tick.toNat ∧
        r.tick.toNat ≤ b.tick.toNat ∧ r.memory.dirty.isDirty i = true := by
  obtain ⟨hc₀, ht₀⟩ := InTransit.of_run (chronicle_new max e standbyPages)
    (inTransit_new max e standbyPages) hw₀
  obtain ⟨hu₀, -⟩ := run_invariant
    (P := fun w : World E => Unflushed w ∧ w.supervisor.replication = none)
    (fun a ha _ _ hw hs => ⟨hw.1.step (.inr hw.2) hs,
      replication_none_step hw.2 (hbefore a ha) hs⟩)
    ⟨unflushed_new max e standbyPages, rfl⟩ hw₀
  obtain ⟨w₁, hw₁, hrun⟩ := run_cons_eq_ok.mp hrun
  have hu₁ := hu₀.step (a := .enableReplication ringCapacity) (.inl not_false) hw₁
  have hc₁ := hc₀.step hw₁
  have ht₁ := ht₀.step hc₀ hw₁
  obtain ⟨s₁, hs₁, hw₁⟩ := bind_returned.mp hw₁
  obtain ⟨ring, -, hs₁⟩ := bind_returned.mp hs₁
  cases hs₁
  cases hw₁
  obtain ⟨hc, ht, h⟩ := (hu₁.converging hone rfl hcell).of_run hexecutor hactions hc₁ ht₁ hrun
  obtain ⟨standby, happly, ⟨q, hq, htick⟩, hpages⟩ := h.next_page_iff hc ht hb
  constructor
  · rintro ⟨standby', happly', hsame⟩ i
    obtain rfl : standby = standby' := by simpa [happly] using happly'
    exact ((hpages q hq htick).2 i).mp (hsame q hq htick i)
  · intro hcond
    refine ⟨standby, happly, ?_⟩
    intro q' hq' htick' i
    exact ((hpages q' hq' htick').2 i).mpr (hcond i)

/-- A page written and checkpointed before replication was enabled, and written again after. -/
theorem late_replication_converges_iff_rewritten :
    ∃ w₀ w c₀ b rest,
      run Guest.scriptedStep (Guest.scriptedWorld [.poke 5 7, .poke 6 8])
        [.spawn ⟨1, 4096, 4096, 1⟩ .record, .ascendingCycle] = .ok w₀ ∧
      w₀.supervisor.cell 1 = some c₀ ∧
      run Guest.scriptedStep w₀ [.enableReplication 1, .ascendingCycle, .pop] = .ok w ∧
      w.inflight = b :: rest ∧
      ((∃ standby, w.standby.applyBatch b = .ok (.ok (), standby) ∧
        ∀ q ∈ w.quanta, q.tick = b.tick →
          ∀ i, standby.engine.pageOrZero i = q.memory.pageBytes i) ↔
      ∀ i, c₀.memory.dirty.isDirty i = false → c₀.memory.pageBytes i ≠ zeroPage →
        ∃ r ∈ w.quanta, w₀.supervisor.scheduler.currentTick.toNat < r.tick.toNat ∧
          r.tick.toNat ≤ b.tick.toNat ∧ r.memory.dirty.isDirty i = true) := by
  have hreturns : returnsWith
      (run Guest.scriptedStep (Guest.scriptedWorld [.poke 5 7, .poke 6 8])
        [.spawn ⟨1, 4096, 4096, 1⟩ .record, .ascendingCycle])
      (fun w₀ => decide (w₀.supervisor.scheduler.order = [1]) &&
        (w₀.supervisor.cell 1).isSome && returnsWith
          (run Guest.scriptedStep w₀ [.enableReplication 1, .ascendingCycle, .pop])
          fun w => !w.inflight.isEmpty) = true := by
    decide +kernel
  obtain ⟨w₀, hw₀, htest⟩ := returnsWith_eq_true.mp hreturns
  simp only [Bool.and_eq_true, decide_eq_true_eq] at htest
  obtain ⟨⟨hone, hsome⟩, htest⟩ := htest
  obtain ⟨c₀, hcell⟩ := Option.isSome_iff_exists.mp hsome
  obtain ⟨w, hrun, hinflight⟩ := returnsWith_eq_true.mp htest
  obtain ⟨b, rest, hb⟩ := List.exists_cons_of_ne_nil (by simpa using hinflight)
  exact ⟨w₀, w, c₀, b, rest, hw₀, hcell, hrun, hb,
    late_replication_converges_iff _ _ (Guest.executor_marksWrites _ _) _ _ _ 1 1 _ _ w₀ w c₀
      (by simp) hw₀ hone hcell (by simp [Action.Running]) hrun b rest hb⟩

/-- Written and checkpointed before replication was enabled and left alone after, the page
is in no batch, and the standby has zeros in its place. -/
theorem late_replication_loses_page :
    (Guest.scripted.executor (HostSource.frozen 7)).MarksWrites ∧ ∃ w₀ w b rest standby q,
      run Guest.scriptedStep (Guest.scriptedWorld [.poke 5 7, .rest])
        [.spawn ⟨1, 4096, 4096, 1⟩ .record, .ascendingCycle] = .ok w₀ ∧
      w₀.supervisor.scheduler.order = [1] ∧
      run Guest.scriptedStep w₀ [.enableReplication 1, .ascendingCycle, .pop] = .ok w ∧
      w.inflight = b :: rest ∧ w.standby.applyBatch b = .ok (.ok (), standby) ∧
      q ∈ w.quanta ∧ q.tick = b.tick ∧
      standby.engine.pageOrZero 0 ≠ q.memory.pageBytes 0 := by
  have hreturns : returnsWith
      (run Guest.scriptedStep (Guest.scriptedWorld [.poke 5 7, .rest])
        [.spawn ⟨1, 4096, 4096, 1⟩ .record, .ascendingCycle])
      (fun w₀ => decide (w₀.supervisor.scheduler.order = [1]) && returnsWith
        (run Guest.scriptedStep w₀ [.enableReplication 1, .ascendingCycle, .pop])
        fun w => w.inflight.head?.any fun b => returnsWith (w.standby.applyBatch b) fun r =>
          r.1.toBool && w.quanta.any fun q => decide (q.tick = b.tick) &&
            decide (r.2.engine.pageOrZero 0 ⟨5, by decide⟩ ≠ q.memory.pageBytes 0 ⟨5, by decide⟩))
      = true := by
    decide +kernel
  obtain ⟨w₀, hw₀, htest⟩ := returnsWith_eq_true.mp hreturns
  simp only [Bool.and_eq_true, decide_eq_true_eq] at htest
  obtain ⟨hone, htest⟩ := htest
  obtain ⟨w, hrun, htest⟩ := returnsWith_eq_true.mp htest
  cases hb : w.inflight with
  | nil => simp [hb] at htest
  | cons b rest =>
    simp only [hb, List.head?_cons, Option.any_some] at htest
    obtain ⟨⟨result, standby⟩, happly, htest⟩ := returnsWith_eq_true.mp htest
    simp only [Bool.and_eq_true, List.any_eq_true, decide_eq_true_eq] at htest
    obtain ⟨haccepted, q, hq, htick, hbyte⟩ := htest
    cases result with
    | error error => cases haccepted
    | ok u =>
      refine ⟨Guest.executor_marksWrites _ _, w₀, w, b, rest, standby, q, hw₀, hone, hrun, hb,
        happly, hq, htick, ?_⟩
      intro hpage
      exact hbyte (congrFun hpage _)

end World
end ChronosUvm
