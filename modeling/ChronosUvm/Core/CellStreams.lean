import Mathlib.Tactic
import ChronosUvm.Core.Convergence
import ChronosUvm.Core.Registry
import ChronosUvm.Foundations.Histories

/-!
One standby for each cell. The ring carries the batches of all cells, but those of one
cell, picked out in order, are a complete stream: whatever the other cells do, whatever
is spawned in between and however often the ring was full, a standby that is fed the
cell's own batches holds the cell's memory as of the batch.
-/
namespace ChronosUvm
open Panicking Tables Transitions MmapGuardedMemory

/-- The flushes of one cell. -/
def streamOf (id : CellId) (flushes : List Flush) : List Flush :=
  flushes.filter fun f => f.cell = id

theorem streamOf_append (id : CellId) (flushes flushes' : List Flush) :
    streamOf id (flushes ++ flushes') = streamOf id flushes ++ streamOf id flushes' :=
  List.filter_append flushes flushes'

theorem streamOf_single (id : CellId) (memory : MmapGuardedMemory) (batch : TickBatch) :
    streamOf id [⟨id, memory, batch⟩] = [⟨id, memory, batch⟩] := by
  unfold streamOf
  simp

theorem streamOf_other {id id' : CellId} (h : id' ≠ id) (memory : MmapGuardedMemory)
    (batch : TickBatch) : streamOf id [⟨id', memory, batch⟩] = [] := by
  unfold streamOf
  simp [h]

/-- A standby that is given batches of increasing ticks applies them all. -/
theorem StandbyApplyLoop.applyAll_increasing {s : StandbyApplyLoop} {batches : List TickBatch}
    (hsorted : batches.Pairwise fun b b' => b.tick < b'.tick)
    (hlt : ∀ b ∈ batches, s.lastAppliedTick < b.tick) (hroom : ∀ b ∈ batches, b.Resizable) :
    s.applyAll batches = .ok ⟨(batches.flatMap TickBatch.deltas).foldl DeltaEngine.applied s.engine,
      (batches.getLast?.map TickBatch.tick).getD s.lastAppliedTick⟩ := by
  induction batches generalizing s with
  | nil => rfl
  | cons b batches ih =>
    obtain ⟨hfirst, hrest⟩ := List.pairwise_cons.mp hsorted
    unfold applyAll
    rw [applyBatch_fresh (hlt b List.mem_cons_self) (hroom b List.mem_cons_self), ok_bind,
      ih hrest hfirst fun b' hb' => hroom b' (List.mem_cons_of_mem b hb')]
    rw [List.flatMap_cons, List.foldl_append, List.getLast?_cons]
    cases batches.getLast? <;> rfl

namespace World
variable {E : Type} {blake3 : Blake3} {executor : QuantumExecutor E} {w w' : World E}
  {a : Action}

/-- A cycle without a ring: it clears the dirty pages and nobody is told. -/
def Unreplicated (w : World E) (a : Action) : Prop :=
  a.isCycle = true ∧ w.supervisor.replication = none

/-- What the cell's stream says about a page, all zeros where it says nothing. -/
def rebuilt (id : CellId) (flushes : List Flush) (i : ℕ) : Page :=
  (mirror (streamOf id flushes) i).getD zeroPage

/-- Every clean page of a cell is what the cell's stream says, and so was every page of a cell at
its flush. -/
structure Streams (w : World E) : Prop where
  positive : ∀ f ∈ w.flushes, 0 < f.batch.tick.toNat
  fresh : ∀ id, id ∉ w.supervisor.cells → streamOf id w.flushes = []
  current : ∀ id c, w.supervisor.cells.get? id = some c → ∀ i,
    c.memory.dirty.isDirty i = false → rebuilt id w.flushes i = c.memory.pageBytes i
  history : ∀ pre f post, w.flushes = pre ++ f :: post →
    ∀ i, rebuilt f.cell (pre ++ [f]) i = f.memory.pageBytes i

theorem streams_new (max : UInt64) (e : E) (pages : ℕ) : Streams (new max e pages) where
  positive _ h := by cases h
  fresh _ _ := rfl
  current _ _ h := by cases h
  history pre f post h := by simp [new] at h

theorem rebuilt_pushed (id : CellId) (flushes : List Flush) (memory : MmapGuardedMemory)
    (batch : TickBatch) (i : ℕ) : rebuilt id (flushes ++ [⟨id, memory, batch⟩]) i =
      if memory.dirty.isDirty i then memory.pageBytes i else rebuilt id flushes i := by
  unfold rebuilt
  rw [streamOf_append, streamOf_single, mirror_append_singleton]
  split_ifs <;> rfl

theorem rebuilt_other {id id' : CellId} (h : id' ≠ id) (flushes : List Flush)
    (memory : MmapGuardedMemory) (batch : TickBatch) (i : ℕ) :
    rebuilt id (flushes ++ [⟨id', memory, batch⟩]) i = rebuilt id flushes i := by
  unfold rebuilt
  rw [streamOf_append, streamOf_other h, List.append_nil]

/-- The pages that a quantum leaves clean are still what the stream says. -/
theorem Streams.ran (hexecutor : executor.MarksWrites) (h : Streams w) {visit : VisitOrder}
    {reported : Except SupervisorError (Option (CellId × Tick))} {s' : Supervisor} {e' : E}
    (d : Supervisor.Dispatch blake3 executor visit w.supervisor s' w.executor e' reported) {i : ℕ}
    (hclean : d.ran.memory.dirty.isDirty i = false) :
    rebuilt d.id w.flushes i = d.ran.memory.pageBytes i := by
  have heffect := (hexecutor _ _ _ _ _ _ d.ran_eq).effect
  obtain ⟨hbefore, hsame⟩ := heffect.of_clean hclean
  rw [hsame]
  exact h.current d.id d.before d.before_eq i hbefore

theorem Streams.cycled (hexecutor : executor.MarksWrites) (h : Streams w) {visit : VisitOrder}
    {reported : Except SupervisorError (Option (CellId × Tick))} {s' : Supervisor} {e' : E}
    {flushes : List Flush}
    (d : Supervisor.Dispatch blake3 executor visit w.supervisor s' w.executor e' reported)
    (hflushed : Flushed d flushes) (hon : w.supervisor.replication ≠ none) :
    Streams ⟨s', e', w.standby, w.inflight, w.quanta ++ [⟨d.id, d.tick, d.ran.memory⟩],
      w.flushes ++ flushes, w.applied⟩ := by
  have hcells (id : CellId) (hid : id ∉ s'.cells) : id ∉ w.supervisor.cells ∧ d.id ≠ id := by
    rw [d.cells_eq, Finmap.mem_insert, not_or] at hid
    exact ⟨hid.2, fun heq => hid.1 heq.symm⟩
  cases hflushed with
  | nothing hqueued hmemory =>
    have hstored : d.stored.memory = d.ran.memory := by
      rcases hmemory with hsame | ⟨hoff, -⟩
      · exact hsame
      · exact absurd hoff hon
    rw [List.append_nil]
    refine ⟨h.positive, fun id hid => h.fresh id (hcells id hid).1, ?_, h.history⟩
    intro id c hget i hclean
    dsimp only at hget ⊢
    rw [d.cells_eq, HashMap.get?_insert] at hget
    split_ifs at hget with hid
    · cases hget
      subst hid
      rw [hstored] at hclean ⊢
      exact h.ran hexecutor d hclean
    · exact h.current id c hget i hclean
  | pushed hqueued hmemory =>
    have hpushed (i : ℕ) : rebuilt d.id (w.flushes ++ [⟨d.id, d.ran.memory,
        d.ran.flushBatch d.tick⟩]) i = d.ran.memory.pageBytes i := by
      rw [rebuilt_pushed]
      cases hdirty : d.ran.memory.dirty.isDirty i with
      | true => rfl
      | false => exact h.ran hexecutor d hdirty
    refine ⟨?_, ?_, ?_, ?_⟩
    · intro f hf
      rcases List.mem_append.mp hf with hf | hf
      · exact h.positive f hf
      · obtain rfl := List.mem_singleton.mp hf
        have htick := d.tick_eq
        show 0 < d.tick.toNat
        omega
    · intro id hid
      obtain ⟨hold, hne⟩ := hcells id hid
      dsimp only
      rw [streamOf_append, h.fresh id hold, streamOf_other hne, List.append_nil]
    · intro id c hget i hclean
      dsimp only at hget ⊢
      rw [d.cells_eq, HashMap.get?_insert] at hget
      split_ifs at hget with hid
      · cases hget
        subst hid
        rw [hpushed, hmemory]
        rfl
      · rw [rebuilt_other (Ne.symm hid)]
        exact h.current id c hget i hclean
    · intro pre f post hsplit i
      rcases Histories.append_singleton_eq_append_cons hsplit with ⟨post', hold⟩ | ⟨rfl, rfl⟩
      · exact h.history pre f post' hold i
      · exact hpushed i

theorem Streams.step (hexecutor : executor.MarksWrites) (h : Streams w)
    (hon : ¬ Unreplicated w a) (hstep : World.step blake3 executor w a = .ok w') :
    Streams w' := by
  cases step_cases hstep with
  | idle => exact h
  | @spawned _ config memory recorder haction hmemory hfresh =>
    have hempty := h.fresh config.id hfresh
    refine ⟨h.positive, ?_, ?_, h.history⟩
    · intro id hid
      exact h.fresh id fun hmem => hid (Finmap.mem_insert.mpr (.inr hmem))
    · intro id c hget i hclean
      rw [HashMap.get?_insert] at hget
      split_ifs at hget with hid
      · cases hget
        subst hid
        unfold rebuilt
        rw [hempty, new_pageBytes hmemory]
        rfl
      · exact h.current id c hget i hclean
  | enabled => exact ⟨h.positive, h.fresh, h.current, h.history⟩
  | cycled d hflushed => exact h.cycled hexecutor d hflushed fun hoff => hon ⟨rfl, hoff⟩
  | popped => exact ⟨h.positive, h.fresh, h.current, h.history⟩
  | accepted => exact ⟨h.positive, h.fresh, h.current, h.history⟩
  | refused => exact ⟨h.positive, h.fresh, h.current, h.history⟩

/-- Once there is a ring, no cycle goes without one. -/
theorem not_unreplicated (hring : w.supervisor.replication.isSome = true) (actions : List Action) :
    ¬ Occurs (World.step blake3 executor) w actions Unreplicated := by
  rintro ⟨pre, a, post, t, -, hpre, -, hoff⟩
  have hon : t.supervisor.replication.isSome = true := by
    refine run_invariant (P := fun u => u.supervisor.replication.isSome = true) ?_ hring hpre
    intro b _ u u' hu hstep
    cases step_cases hstep with
    | idle => exact hu
    | spawned => exact hu
    | enabled => rfl
    | cycled d => exact d.ended.replication_isSome.trans hu
    | popped => rfl
    | accepted => exact hu
    | refused => exact hu
  rw [hoff] at hon
  cases hon

/-- If the first action makes a ring, no cycle goes without one. -/
theorem not_unreplicated_enabled {capacity : ℕ} (hcapacity : 0 < capacity) (w : World E)
    (actions : List Action) : ¬ Occurs (World.step blake3 executor) w
      (.enableReplication capacity :: actions) Unreplicated := by
  obtain ⟨w', hstep, hring⟩ : ∃ w', World.step blake3 executor w (.enableReplication capacity) =
      .ok w' ∧ w'.supervisor.replication.isSome = true := by
    unfold World.step
    simp only [Supervisor.enableReplication, DeltaRing.new, BoundedQueue.ArrayQueue.new,
      if_pos hcapacity, ok_bind, pure_ok]
    exact ⟨_, rfl, rfl⟩
  rw [occurs_cons hstep, not_or]
  exact ⟨fun h => (by cases h.1), not_unreplicated hring actions⟩

theorem streams_of_run (hexecutor : executor.MarksWrites) {max : UInt64} {e : E}
    {standbyPages : ℕ} {actions : List Action}
    (hrun : run (World.step blake3 executor) (new max e standbyPages) actions = .ok w)
    (hon : ¬ Occurs (World.step blake3 executor) (new max e standbyPages) actions Unreplicated) :
    Chronicle w ∧ Streams w :=
  ⟨(chronicle_new max e standbyPages).of_run hrun, run_invariant_of_not_occurs
    (fun _ _ _ _ ht hrep hs => ht.step hexecutor hrep hs) hon (streams_new max e standbyPages)
    hrun⟩

/-- A fresh standby that is fed the stream of a cell up to a flush holds the flushed memory. -/
theorem Streams.fed (hc : Chronicle w) (h : Streams w) {pre post : List Flush} {f : Flush}
    (hsplit : w.flushes = pre ++ f :: post) {capacity : ℕ} {start : StandbyApplyLoop}
    (hstart : StandbyApplyLoop.new capacity = .ok start) :
    ∃ standby, start.applyAll
        ((streamOf f.cell (pre ++ [f])).map Flush.batch) = .ok standby ∧
      standby.lastAppliedTick = f.batch.tick ∧
      ∀ i, standby.engine.pageOrZero i = f.memory.pageBytes i := by
  obtain ⟨-, rfl⟩ := StandbyApplyLoop.new_eq_ok.mp hstart
  have hsub : (streamOf f.cell (pre ++ [f])).Sublist w.flushes := by
    rw [hsplit, List.append_cons pre f post]
    exact List.filter_sublist.trans (List.sublist_append_left _ _)
  have hsorted : ((streamOf f.cell (pre ++ [f])).map Flush.batch).Pairwise
      fun b b' => b.tick < b'.tick :=
    List.pairwise_map.mpr ((hc.flushes_lt.sublist hsub).imp UInt64.lt_iff_toNat_lt.mpr)
  have hpositive : ∀ b ∈ (streamOf f.cell (pre ++ [f])).map Flush.batch,
      (StandbyApplyLoop.fresh capacity).lastAppliedTick < b.tick := by
    intro b hb
    obtain ⟨g, hg, rfl⟩ := List.mem_map.mp hb
    exact UInt64.lt_iff_toNat_lt.mpr (h.positive g (hsub.subset hg))
  have hroom : ∀ b ∈ (streamOf f.cell (pre ++ [f])).map Flush.batch, b.Resizable := by
    intro b hb
    obtain ⟨g, hg, rfl⟩ := List.mem_map.mp hb
    exact hc.resizable (hsub.subset hg)
  have hlast : streamOf f.cell (pre ++ [f]) = streamOf f.cell pre ++ [f] := by
    rw [streamOf_append, streamOf_single f.cell f.memory f.batch]
  refine ⟨_, StandbyApplyLoop.applyAll_increasing hsorted hpositive hroom, ?_, ?_⟩
  · rw [hlast, List.map_append, List.map_singleton, List.getLast?_concat]
    rfl
  · intro i
    have hraw : ∀ g ∈ streamOf f.cell (pre ++ [f]), g.batch.deltas =
        g.memory.dirty.iterDirty.map fun p => PageDelta.raw (.ofNat p) (g.memory.pageBytes p) :=
      fun g hg => hc.flushes_raw g (hsub.subset hg)
    rw [← h.history pre f post hsplit i]
    exact congrArg (fun page => page.getD zeroPage) (page?_of_flushes hraw capacity i)

/-- With a standby for each cell every tenant converges. In every run whose cycles all have a
ring, whatever is spawned and when, and however often a push was refused: the batches of one
cell up to any flush of it, fed in order to a fresh standby, are all applied, and leave it
with the memory that the cell's quantum of that tick left. -/
theorem own_stream_rebuilds_cell (blake3 : Blake3) (executor : QuantumExecutor E)
    (hexecutor : executor.MarksWrites) (max : UInt64) (e : E) (standbyPages : ℕ)
    (actions : List Action) (w : World E)
    (hrun : run (World.step blake3 executor) (new max e standbyPages) actions = .ok w)
    (hon : ¬ Occurs (World.step blake3 executor) (new max e standbyPages) actions Unreplicated)
    (pre : List Flush) (f : Flush) (post : List Flush) (hsplit : w.flushes = pre ++ f :: post)
    (capacity : ℕ) (start : StandbyApplyLoop)
    (hstart : StandbyApplyLoop.new capacity = .ok start) :
    (⟨f.cell, f.batch.tick, f.memory⟩ : Quantum) ∈ w.quanta ∧
    ∃ standby, start.applyAll
        ((streamOf f.cell (pre ++ [f])).map Flush.batch) = .ok standby ∧
      standby.lastAppliedTick = f.batch.tick ∧
      ∀ i, standby.engine.pageOrZero i = f.memory.pageBytes i := by
  obtain ⟨hc, h⟩ := streams_of_run hexecutor hrun hon
  exact ⟨hc.flushes_mem f (by simp [hsplit]), h.fed hc hsplit hstart⟩

/-- Two tenants that both write their page 0, each on a standby of its own. -/
theorem own_stream_rebuilds_cell_same_page :
    ∃ w f g start, run Guest.scriptedStep (Guest.scriptedWorld [.poke 5 7, .poke 5 9])
        [.enableReplication 2, .spawn ⟨1, 4096, 4096, 1⟩ .record,
          .spawn ⟨2, 4096, 4096, 1⟩ .record, .ascendingCycle, .ascendingCycle] = .ok w ∧
      w.flushes = [f, g] ∧ f.cell ≠ g.cell ∧ f.batch.pages = g.batch.pages ∧
      StandbyApplyLoop.new 1 = .ok start ∧
      ∃ standby, start.applyAll ((streamOf g.cell [f, g]).map Flush.batch) = .ok standby ∧
        ∀ i, standby.engine.pageOrZero i = g.memory.pageBytes i := by
  have hreturns : returnsWith
      (run Guest.scriptedStep (Guest.scriptedWorld [.poke 5 7, .poke 5 9])
        [.enableReplication 2, .spawn ⟨1, 4096, 4096, 1⟩ .record,
          .spawn ⟨2, 4096, 4096, 1⟩ .record, .ascendingCycle, .ascendingCycle])
      (fun w => decide (w.flushes.map Flush.cell = [1, 2]) &&
        decide (w.flushes.map (fun f => f.batch.pages) = [[0], [0]])) = true := by
    decide +kernel
  obtain ⟨w, hrun, htest⟩ := returnsWith_eq_true.mp hreturns
  simp only [Bool.and_eq_true, decide_eq_true_eq] at htest
  obtain ⟨hcells, hpages⟩ := htest
  obtain ⟨f, g, hflushes⟩ : ∃ f g, w.flushes = [f, g] := by
    apply List.length_eq_two.mp
    rw [← List.length_map Flush.cell, hcells]
    rfl
  rw [hflushes] at hcells hpages
  obtain ⟨-, standby, happly, -, hmemory⟩ := own_stream_rebuilds_cell _ _
    (Guest.executor_marksWrites _ _) _ _ _ _ w hrun
    (not_unreplicated_enabled (by decide) _ _) [f] g [] hflushes 1 _
    (StandbyApplyLoop.new_eq_ok.mpr ⟨by decide, rfl⟩)
  simp only [List.map_cons, List.map_nil, List.cons.injEq, and_true] at hcells hpages
  refine ⟨w, f, g, _, hrun, hflushes, ?_, ?_,
    StandbyApplyLoop.new_eq_ok.mpr ⟨by decide, rfl⟩, standby, happly, hmemory⟩
  · rw [hcells.1, hcells.2]
    decide
  · rw [hpages.1, hpages.2]

end World
end ChronosUvm
