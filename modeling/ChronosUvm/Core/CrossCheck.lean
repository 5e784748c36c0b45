import Mathlib.Tactic
import ChronosUvm.Core.Convergence
import ChronosUvm.Core.IncrementalCheckpoint

/-!
The standby's cross-check. A standby that hashes the pages it has received gets the
root that the primary declared in its chain at the tick of the last batch applied, at
every moment and not only right after a batch, whatever the primary has done since.
-/
namespace ChronosUvm
open Panicking Tables Transitions MmapGuardedMemory

/-- The tree over the standby's copies of the pages. -/
def StandbyApplyLoop.recomputeTree (blake3 : Blake3) (s : StandbyApplyLoop) (pages : List ℕ) :
    SparseMerkleTree :=
  SparseMerkleTree.updateAll blake3 .new
    (pages.map fun i => (i, (s.engine.pageOrZero i).toList))

/-- The pages with a baseline are among those of the vectors. -/
theorem DeltaEngine.mem_range_of_page? (e : DeltaEngine) {i : ℕ} (h : (e.page? i).isSome) :
    i ∈ List.range e.baseline.length := by
  rw [List.mem_range, ← e.length_eq]
  by_contra hge
  have hnone : e.haveBaseline.getD i false = false := by
    rw [List.getD_eq_getElem?_getD, List.getElem?_eq_none (by omega), Option.getD_none]
  unfold page? at h
  rw [hnone] at h
  cases h

theorem SparseMerkleTree.lastBytes_map (pages : List ℕ) (content : ℕ → List UInt8) (i : ℕ) :
    lastBytes (pages.map fun p => (p, content p)) i =
      if i ∈ pages then content i else zeroPage.toList := by
  induction pages using List.reverseRecOn with
  | nil => simp [lastBytes]
  | append_singleton pages p ih =>
    unfold lastBytes at ih ⊢
    by_cases hi : p = i
    · simp [hi]
    · have hne : i ≠ p := fun h => hi h.symm
      simpa [hi, hne] using ih

/-- It does not matter which pages are hashed besides those received. -/
theorem StandbyApplyLoop.root_recomputeTree (blake3 : Blake3) {s : StandbyApplyLoop}
    {pages : List ℕ} (hpages : ∀ i, (s.engine.page? i).isSome → i ∈ pages)
    (hlt : ∀ i ∈ pages, i < 2 ^ 32) (visit : VisitOrder) :
    (s.recomputeTree blake3 pages).root blake3 visit =
      SparseMerkleTree.fullRoot blake3 fun i => (s.engine.pageOrZero i).toList := by
  have hlast : SparseMerkleTree.lastBytes
      (pages.map fun i => (i, (s.engine.pageOrZero i).toList)) =
      fun i => (s.engine.pageOrZero i).toList := by
    funext i
    rw [SparseMerkleTree.lastBytes_map]
    split_ifs with hi
    · rfl
    · have hnone : s.engine.page? i = none := by
        by_contra hne
        exact hi (hpages i (Option.isSome_iff_ne_none.mpr hne))
      unfold DeltaEngine.pageOrZero
      rw [hnone, Option.getD_none]
  unfold recomputeTree
  rw [SparseMerkleTree.root_updateAll blake3 _ (by simpa using hlt) visit, hlast]

namespace World
variable {E : Type} {blake3 : Blake3} {executor : QuantumExecutor E} {w w' : World E}
  {a : Action}

/-- Every flush has its entry in the chain of the cell it was taken of, every quantum left
zeros beyond the committed size, and the standby's tick is that of the last batch applied. -/
structure Declared (w : World E) : Prop where
  committed : ∀ q ∈ w.quanta, ∀ i, q.memory.committedPage i = q.memory.pageBytes i
  declared : ∀ f ∈ w.flushes, ∃ c, w.supervisor.cells.get? f.cell = some c ∧
    ∃ entry ∈ c.checkpoints.entries, entry.tick = f.batch.tick
  last_eq : w.standby.lastAppliedTick = (w.applied.getLast?.map TickBatch.tick).getD 0

theorem declared_new (max : UInt64) (e : E) (pages : ℕ) : Declared (new max e pages) where
  committed _ h := by cases h
  declared _ h := by cases h
  last_eq := rfl

/-- The stored cell has the entries the cell had before, and one of this tick if a batch was
pushed. -/
theorem entries_stored (hchain : executor.KeepsChain) {visit : VisitOrder} {s s' : Supervisor}
    {e e' : E} {reported : Except SupervisorError (Option (CellId × Tick))}
    (d : Supervisor.Dispatch blake3 executor visit s s' e e' reported) :
    d.before.checkpoints.entries ⊆ d.stored.checkpoints.entries ∧
      (s'.queued ≠ s.queued → ∃ entry ∈ d.stored.checkpoints.entries, entry.tick = d.tick) := by
  have hran : d.ran.checkpoints = d.before.delivered.checkpoints :=
    hchain _ _ _ _ _ _ d.ran_eq
  obtain ⟨entry, htick, happended⟩ :=
    d.ran.entries_checkpointed blake3 visit d.tick (executor.registerDigest e' d.ran)
  rw [hran] at happended
  have htaken (hstored : d.stored.checkpoints.entries = d.before.checkpoints.entries ++ [entry]) :
      d.before.checkpoints.entries ⊆ d.stored.checkpoints.entries ∧
        (s'.queued ≠ s.queued → ∃ entry ∈ d.stored.checkpoints.entries, entry.tick = d.tick) := by
    rw [hstored]
    exact ⟨List.subset_append_left _ _, fun _ => ⟨entry, by simp, htick⟩⟩
  cases hring : s.replication with
  | none =>
    have hqueued : s'.queued = s.queued := by
      unfold Supervisor.queued
      rw [d.replication_eq_none hring, hring]
    rcases d.ended.stored_cases with ⟨-, hstored⟩ | ⟨-, -, hstored | hstored⟩
    · rw [hstored, hran]
      exact ⟨List.Subset.refl _, fun hne => absurd hqueued hne⟩
    · exact htaken (by rw [hstored]; exact happended)
    · exact htaken (by rw [hstored]; exact happended)
  | some ring =>
    rcases d.ended.ring_cases hring with ⟨-, hstored, hqueued⟩ |
      ⟨-, -, ⟨-, hstored, -⟩ | ⟨-, hstored, -⟩⟩
    · rw [hstored, hran]
      exact ⟨List.Subset.refl _, fun hne => absurd hqueued hne⟩
    · exact htaken (by rw [hstored]; exact happended)
    · exact htaken (by rw [hstored]; exact happended)

theorem Declared.cycled (hwrites : executor.MarksWrites) (hchain : executor.KeepsChain)
    (hrehashed : Rehashed blake3 w) (h : Declared w) {visit : VisitOrder}
    {reported : Except SupervisorError (Option (CellId × Tick))} {s' : Supervisor} {e' : E}
    {flushes : List Flush}
    (d : Supervisor.Dispatch blake3 executor visit w.supervisor s' w.executor e' reported)
    (hflushed : Flushed d flushes) :
    Declared (⟨s', e', w.standby, w.inflight, w.quanta ++ [⟨d.id, d.tick, d.ran.memory⟩],
      w.flushes ++ flushes, w.applied⟩ : World E) := by
  obtain ⟨hgrows, hnew⟩ := entries_stored hchain d
  have hran : d.ran.LeavesCurrent blake3 := by
    obtain ⟨hbefore, -⟩ := hrehashed d.id d.before d.before_eq
    exact Cell.LeavesCurrent.quantum (c := d.before.delivered)
      ⟨hbefore.current, hbefore.leaf_lt, hbefore.zero_beyond⟩
      (hwrites _ _ _ _ _ _ d.ran_eq).effect (hchain _ _ _ _ _ _ d.ran_eq)
  have hold (f : Flush) (hf : f ∈ w.flushes) : ∃ c, s'.cells.get? f.cell = some c ∧
      ∃ entry ∈ c.checkpoints.entries, entry.tick = f.batch.tick := by
    obtain ⟨c, hcell, entry, hentry, htick⟩ := h.declared f hf
    rw [d.cells_eq, HashMap.get?_insert]
    split_ifs with hid
    · rw [hid, d.before_eq] at hcell
      cases hcell
      exact ⟨d.stored, rfl, entry, hgrows hentry, htick⟩
    · exact ⟨c, hcell, entry, hentry, htick⟩
  refine ⟨?_, ?_, h.last_eq⟩
  · intro q hq
    rcases List.mem_append.mp hq with hq | hq
    · exact h.committed q hq
    · obtain rfl := List.mem_singleton.mp hq
      exact hran.committedPage_eq
  · intro f hf
    rcases List.mem_append.mp hf with hf | hf
    · exact hold f hf
    · cases hflushed with
      | nothing => cases hf
      | pushed hqueued =>
        obtain rfl := List.mem_singleton.mp hf
        obtain ⟨entry, hentry, htick⟩ := hnew (by rw [hqueued]; simp)
        refine ⟨d.stored, ?_, entry, hentry, htick⟩
        rw [d.cells_eq, HashMap.get?_insert_self]

theorem Declared.step (hwrites : executor.MarksWrites) (hchain : executor.KeepsChain)
    {pages : ℕ} (hc : Chronicle w) (ht : InTransit pages w) (hrehashed : Rehashed blake3 w)
    (h : Declared w) (hstep : World.step blake3 executor w a = .ok w') : Declared w' := by
  cases step_cases hstep with
  | idle => exact h
  | spawned haction hmemory hfresh =>
    refine ⟨h.committed, ?_, h.last_eq⟩
    intro f hf
    obtain ⟨c, hcell, hentry⟩ := h.declared f hf
    refine ⟨c, ?_, hentry⟩
    rw [HashMap.get?_insert, if_neg ?_]
    · exact hcell
    · intro hid
      rw [hid] at hcell
      exact hfresh (HashMap.mem_iff_get?.mpr ⟨c, hcell⟩)
  | enabled => exact ⟨h.committed, h.declared, h.last_eq⟩
  | cycled d hflushed => exact h.cycled hwrites hchain hrehashed d hflushed
  | popped => exact ⟨h.committed, h.declared, h.last_eq⟩
  | accepted hinflight happly =>
    refine ⟨h.committed, h.declared, ?_⟩
    rw [ht.next_accepted hc hinflight] at happly
    cases happly
    rw [List.getLast?_concat]
    rfl
  | refused => exact ⟨h.committed, h.declared, h.last_eq⟩

/-- What the standby holds once a batch was applied last: the mirror of the flushes up to it. -/
theorem Converging.last_flush {id : CellId} {base : MmapGuardedMemory} {start pages : ℕ}
    (hc : Chronicle w) (ht : InTransit pages w) (h : Converging id base start w)
    {init : List TickBatch} {b : TickBatch} (hb : w.applied = init ++ [b]) :
    ∃ pre f post, w.flushes = pre ++ f :: post ∧ f.batch = b ∧
      ∀ i, w.standby.engine.page? i = mirror (pre ++ [f]) i := by
  have hlossless := h.lossless
  rw [List.append_assoc] at hlossless
  obtain ⟨applied, post, hsplit, happlied, -⟩ := List.map_eq_append_iff.mp hlossless.symm
  rw [hb] at happlied
  obtain ⟨pre, last, rfl, hpre, hlast⟩ := List.map_eq_append_iff.mp happlied
  obtain ⟨f, hf, rfl⟩ := List.map_eq_singleton_iff.mp hlast
  subst hf
  rw [List.append_assoc, List.singleton_append] at hsplit
  refine ⟨pre, f, post, hsplit, rfl, ?_⟩
  intro i
  have hraw (g : Flush) (hg : g ∈ pre ++ [f]) : g.batch.deltas =
      g.memory.dirty.iterDirty.map fun p => PageDelta.raw (.ofNat p) (g.memory.pageBytes p) := by
    apply hc.flushes_raw g
    rw [hsplit, List.append_cons]
    exact List.mem_append_left _ hg
  rw [← page?_of_flushes hraw pages i, ht.engine_eq, hb, happlied]

theorem declared_of_run (hwrites : executor.MarksWrites) (hchain : executor.KeepsChain)
    {max : UInt64} {e : E} {standbyPages : ℕ} {actions : List Action}
    (hrun : run (World.step blake3 executor) (new max e standbyPages) actions = .ok w) :
    Rehashed blake3 w ∧ Declared w := by
  have hall : (Chronicle w ∧ InTransit standbyPages w) ∧ Rehashed blake3 w ∧ Declared w :=
    run_invariant (P := fun w => (Chronicle w ∧ InTransit standbyPages w) ∧ Rehashed blake3 w ∧
        Declared w)
      (fun _ _ _ _ ht hs => ⟨⟨ht.1.1.step hs, ht.1.2.step ht.1.1 hs⟩,
        ht.2.1.step hwrites hchain hs, ht.2.2.step hwrites hchain ht.1.1 ht.1.2 ht.2.1 hs⟩)
      ⟨⟨chronicle_new max e standbyPages, inTransit_new max e standbyPages⟩,
        fun _ _ h => (by cases h), declared_new max e standbyPages⟩ hrun
  exact hall.2

/-- A one-cell system that replicates from before its first cycle converges from zeros. -/
theorem converging_of_setup (hwrites : executor.MarksWrites) {max : UInt64} {e : E}
    {standbyPages : ℕ} {id : CellId} {setup actions : List Action} {w₀ : World E}
    (hsetup : ∀ a ∈ setup, ¬ a.Running)
    (hw₀ : run (World.step blake3 executor) (new max e standbyPages) setup = .ok w₀)
    (hone : w₀.supervisor.scheduler.order = [id])
    (hring : w₀.supervisor.replication.isSome = true)
    (hactions : ∀ a ∈ actions, a.Running)
    (hrun : run (World.step blake3 executor) w₀ actions = .ok w) :
    ∃ base start, (∀ i, base.pageBytes i = zeroPage) ∧ Chronicle w ∧ InTransit standbyPages w ∧
      Converging id base start w := by
  obtain ⟨hc₀, ht₀⟩ := InTransit.of_run (chronicle_new max e standbyPages)
    (inTransit_new max e standbyPages) hw₀
  obtain ⟨hu₀, hz₀, hr₀⟩ := run_invariant
    (P := fun w : World E => Unflushed w ∧ Untouched w ∧ Registered w)
    (fun a ha _ _ hw hs => ⟨hw.1.step (.inl (hsetup a ha)) hs, hw.2.1.step (hsetup a ha) hs,
      hw.2.2.step hs⟩)
    ⟨unflushed_new max e standbyPages, fun _ _ h => (by cases h),
      registered_new max e standbyPages⟩ hw₀
  obtain ⟨c₀, hcell₀⟩ := HashMap.mem_iff_get?.mp (hr₀ id (by rw [hone]; exact List.mem_cons_self))
  exact ⟨c₀.memory, w₀.clock, fun i => (hz₀ id c₀ hcell₀ i).2,
    (hu₀.converging hone hring hcell₀).of_run hwrites hactions hc₀ ht₀ hrun⟩

/-- The standby holds the memory of the quantum of its tick, zeros before the first batch. -/
theorem Converging.standby_holds {id : CellId} {base : MmapGuardedMemory} {start pages : ℕ}
    (hc : Chronicle w) (ht : InTransit pages w) (h : Converging id base start w)
    (hbase : ∀ i, base.pageBytes i = zeroPage) (hd : Declared w) :
    (w.standby.lastAppliedTick = 0 ∧ ∀ i, w.standby.engine.pageOrZero i = zeroPage) ∨
    ∃ f ∈ w.flushes, f.cell = id ∧ f.batch.tick = w.standby.lastAppliedTick ∧
      ∀ i, w.standby.engine.pageOrZero i = f.memory.pageBytes i := by
  rcases List.eq_nil_or_concat' w.applied with hnil | ⟨init, b, hb⟩
  · left
    refine ⟨by rw [hd.last_eq, hnil]; rfl, ?_⟩
    intro i
    unfold DeltaEngine.pageOrZero
    rw [ht.engine_eq, hnil]
    exact congrArg (fun page => page.getD zeroPage) (DeltaEngine.page?_fresh pages i)
  · right
    obtain ⟨pre, f, post, hsplit, rfl, hpage⟩ := h.last_flush hc ht hb
    have hf : f ∈ w.flushes := by simp [hsplit]
    refine ⟨f, hf, h.flush_cell f hf, ?_, ?_⟩
    · rw [hd.last_eq, hb, List.getLast?_concat]
      rfl
    · -- a page that no flush contains was zero when replication was enabled
      intro i
      have hm := h.history pre f post hsplit i
      unfold DeltaEngine.pageOrZero
      rw [hpage]
      cases hmirror : mirror (pre ++ [f]) i with
      | some page => exact (hm.flushed page hmirror).symm
      | none => exact ((hm.unflushed hmirror).1.trans (hbase i)).symm

/-- The cross-check never fails. In a one-cell system that replicates from before its first
cycle, at every moment after the first batch was applied, the primary's chain has an entry of
the standby's tick, and the root of every such entry is the root that the standby gets from
its own pages, whichever pages it hashes besides those it has received. -/
theorem standby_root_eq_declared (blake3 : Blake3) (executor : QuantumExecutor E)
    (hwrites : executor.MarksWrites) (hchain : executor.KeepsChain) (max : UInt64) (e : E)
    (standbyPages : ℕ) (id : CellId) (setup actions : List Action) (w₀ w : World E)
    (hsetup : ∀ a ∈ setup, ¬ a.Running)
    (hw₀ : run (World.step blake3 executor) (new max e standbyPages) setup = .ok w₀)
    (hone : w₀.supervisor.scheduler.order = [id])
    (hring : w₀.supervisor.replication.isSome = true)
    (hactions : ∀ a ∈ actions, a.Running)
    (hrun : run (World.step blake3 executor) w₀ actions = .ok w)
    (hstarted : w.standby.lastAppliedTick ≠ 0) (c : Cell)
    (hcell : w.supervisor.cell id = some c) (pages : List ℕ)
    (hpages : ∀ i, (w.standby.engine.page? i).isSome → i ∈ pages)
    (hlt : ∀ i ∈ pages, i < 2 ^ 32) (visit : VisitOrder) :
    (∃ entry ∈ c.checkpoints.entries, entry.tick = w.standby.lastAppliedTick) ∧
    ∀ entry ∈ c.checkpoints.entries, entry.tick = w.standby.lastAppliedTick →
      (w.standby.recomputeTree blake3 pages).root blake3 visit = entry.smtRoot := by
  obtain ⟨hrehashed, hdeclared⟩ := declared_of_run hwrites hchain
    (run_append_eq_ok.mpr ⟨w₀, hw₀, hrun⟩)
  obtain ⟨base, start, hbase, hc, ht, h⟩ :=
    converging_of_setup hwrites hsetup hw₀ hone hring hactions hrun
  obtain ⟨hzero, -⟩ | ⟨f, hf, hid, hlast, hpage⟩ := h.standby_holds hc ht hbase hdeclared
  · exact absurd hzero hstarted
  have hquantum := hc.flushes_mem f hf
  have hsame (i : ℕ) : w.standby.engine.pageOrZero i = f.memory.committedPage i := by
    rw [hdeclared.committed _ hquantum, hpage]
  constructor
  · obtain ⟨c', hcell', hentry⟩ := hdeclared.declared f hf
    rw [hid, ← Supervisor.cell, hcell] at hcell'
    cases hcell'
    rw [← hlast]
    exact hentry
  · intro entry hentry htick
    obtain ⟨q, hq, -, hqtick, hroot⟩ := (hrehashed id c hcell).2 entry hentry
    obtain rfl := hc.quantum_unique hq hquantum (hqtick.trans (htick.trans hlast.symm))
    rw [w.standby.root_recomputeTree blake3 hpages hlt visit, hroot]
    simp only [hsame]

/-- The page of the first checkpoint has arrived, and the guest has gone on to a second one. -/
theorem standby_root_eq_declared_behind :
    ∃ w c entry, run Guest.scriptedStep (Guest.scriptedWorld [.poke 5 7, .poke 6 8])
        ([.spawn ⟨1, 4096, 4096, 1⟩ .record, .enableReplication 2] ++
          [.ascendingCycle, .pop, .apply, .ascendingCycle]) = .ok w ∧
      w.supervisor.cell 1 = some c ∧ w.standby.lastAppliedTick = 1 ∧
      entry ∈ c.checkpoints.entries ∧ entry.tick = 1 ∧
      (w.standby.recomputeTree (fun _ _ => 0) (List.range w.standby.engine.baseline.length)).root
        (fun _ _ => 0) (fun _ => .ascending) = entry.smtRoot := by
  have hreturns : returnsWith
      (run Guest.scriptedStep (Guest.scriptedWorld [.poke 5 7, .poke 6 8])
        [.spawn ⟨1, 4096, 4096, 1⟩ .record, .enableReplication 2])
      (fun w₀ => decide (w₀.supervisor.scheduler.order = [1]) &&
        w₀.supervisor.replication.isSome && returnsWith
          (run Guest.scriptedStep w₀ [.ascendingCycle, .pop, .apply, .ascendingCycle])
          fun w => decide (w.standby.lastAppliedTick = 1) &&
            decide (w.standby.engine.baseline.length ≤ 1) && (w.supervisor.cell 1).isSome) =
      true := by
    decide +kernel
  obtain ⟨w₀, hw₀, htest⟩ := returnsWith_eq_true.mp hreturns
  simp only [Bool.and_eq_true, decide_eq_true_eq] at htest
  obtain ⟨⟨hone, hring⟩, htest⟩ := htest
  obtain ⟨w, hrun, htest⟩ := returnsWith_eq_true.mp htest
  simp only [Bool.and_eq_true, decide_eq_true_eq] at htest
  obtain ⟨⟨hlast, hlength⟩, hsome⟩ := htest
  obtain ⟨c, hcell⟩ := Option.isSome_iff_exists.mp hsome
  have hlt (i : ℕ) (hi : i ∈ List.range w.standby.engine.baseline.length) : i < 2 ^ 32 := by
    have := List.mem_range.mp hi
    omega
  obtain ⟨⟨entry, hentry, htick⟩, hroot⟩ := standby_root_eq_declared _ _
    (Guest.executor_marksWrites _ _) (Guest.executor_keepsChain _ _) _ _ _ 1 _ _ w₀ w
    (by simp [Action.Running]) hw₀ hone hring (by simp [Action.Running]) hrun
    (by rw [hlast]; decide) c hcell _ (fun i => w.standby.engine.mem_range_of_page?) hlt
    (fun _ => .ascending)
  exact ⟨w, c, entry, run_append_eq_ok.mpr ⟨w₀, hw₀, hrun⟩, hcell, hlast, hentry,
    htick.trans hlast, hroot entry hentry htick⟩

end World
end ChronosUvm
