import Mathlib.Tactic
import ChronosUvm.Core.CheckpointCadence
import ChronosUvm.Core.GuestProgram
import ChronosUvm.Core.Transit
import ChronosUvm.Mem.DirtyRefinement

/-!
How much memory tenants can make the rest of the system hold. A page index reaches the
tree of the cell, the ring and the standby only through the dirty bitmap, which is as wide
as the quota; so none of them grows beyond the widest bitmap, whatever the guests mark.
-/
namespace ChronosUvm
open Panicking Tables Transitions

namespace MmapGuardedMemory

/-- The pages that the dirty bitmap of such a quota has a bit for. -/
def trackedPages (quotaBytes : UInt32) : ℕ := 64 * max ((quotaPages quotaBytes + 63) / 64) 1

theorem lt_trackedPages {m : MmapGuardedMemory} {p : ℕ} (h : m.dirty.isDirty p = true) :
    p < trackedPages m.quotaBytes := by
  have hlt := DirtyPageSet.isDirty_lt h
  rw [m.dirty.words_eq, m.capacity_eq] at hlt
  unfold trackedPages
  omega

end MmapGuardedMemory
open MmapGuardedMemory

/-- A batch lists each page at most once, and no page beyond the bitmap. -/
theorem Cell.deltas_flushBatch_le (c : Cell) (tick : Tick) :
    (c.flushBatch tick).deltas.length ≤ trackedPages c.memory.quotaBytes := by
  have hnodup : c.memory.dirty.iterDirty.Nodup :=
    (DirtyPageSet.iterDirty_pairwise c.memory.dirty).imp fun h => h.ne
  have hsubset : c.memory.dirty.iterDirty.toFinset ⊆
      Finset.range (trackedPages c.memory.quotaBytes) := by
    intro p hp
    rw [List.mem_toFinset, DirtyPageSet.mem_iterDirty] at hp
    exact Finset.mem_range.mpr (lt_trackedPages hp)
  have hcard := Finset.card_le_card hsubset
  rw [List.toFinset_card_of_nodup hnodup, Finset.card_range] at hcard
  unfold flushBatch
  rwa [List.length_map]

/-- A running maximum is bounded as its start and its entries are. -/
theorem foldl_max_le {l : List ℕ} {n bound : ℕ} (h : ∀ x ∈ l, x ≤ bound) :
    l.foldl max n ≤ max n bound := by
  induction l generalizing n with
  | nil => exact le_max_left n bound
  | cons x l ih =>
    have hx := h x List.mem_cons_self
    have hrest := ih (n := max n x) fun y hy => h y (List.mem_cons_of_mem x hy)
    rw [List.foldl_cons]
    omega

namespace DeltaEngine

theorem length_applied (e : DeltaEngine) (d : PageDelta) :
    (e.applied d).baseline.length = max e.baseline.length (d.idx + 1) := by
  unfold applied commit grown resized
  rw [List.length_set]
  split_ifs with h
  · rw [length_resize]
    omega
  · omega

/-- The engine is as long as it was made, or as its highest page needs. -/
theorem length_foldl_applied (e : DeltaEngine) (deltas : List PageDelta) :
    (deltas.foldl applied e).baseline.length =
      (deltas.map fun d => d.idx + 1).foldl max e.baseline.length := by
  induction deltas generalizing e with
  | nil => rfl
  | cons d deltas ih => rw [List.foldl_cons, ih, length_applied, List.map_cons, List.foldl_cons]

end DeltaEngine

/-- All pages of the batch are below the bound, and so is their number. -/
structure TickBatch.Below (bound : ℕ) (b : TickBatch) : Prop where
  page_lt : ∀ d ∈ b.deltas, d.idx < bound
  length_le : b.deltas.length ≤ bound

theorem Cell.below_flushBatch {c : Cell} {bound : ℕ}
    (h : trackedPages c.memory.quotaBytes ≤ bound) (tick : Tick) :
    (c.flushBatch tick).Below bound := by
  refine ⟨?_, (c.deltas_flushBatch_le tick).trans h⟩
  intro d hd
  obtain ⟨p, hp, rfl⟩ := List.mem_map.mp hd
  have hlt := lt_trackedPages ((DirtyPageSet.mem_iterDirty _ p).mp hp)
  rw [PageDelta.idx_raw_ofNat (MmapGuardedMemory.lt_of_mem_iterDirty hp)]
  exact hlt.trans_le h

namespace World
variable {E : Type} {blake3 : Blake3} {executor : QuantumExecutor E} {w w' : World E}
  {a : Action} {bound : ℕ}

/-- No bitmap is wider than the bound, and nothing taken from one is beyond it. -/
structure Bounded (bound : ℕ) (w : World E) : Prop where
  quota : ∀ id c, w.supervisor.cells.get? id = some c → trackedPages c.memory.quotaBytes ≤ bound
  leaves : ∀ id c, w.supervisor.cells.get? id = some c →
    ∀ i ∈ c.checkpoints.tree.leaves, i < bound
  flushes : ∀ f ∈ w.flushes, f.batch.Below bound

theorem Bounded.step (hwrites : executor.MarksWrites) (hchain : executor.KeepsChain)
    (h : Bounded bound w)
    (hquota : ∀ config, a.config? = some config → trackedPages config.quotaBytes ≤ bound)
    (hstep : World.step blake3 executor w a = .ok w') : Bounded bound w' := by
  cases step_cases hstep with
  | idle => exact h
  | @spawned _ config memory recorder haction hmemory hfresh =>
    refine ⟨?_, ?_, h.flushes⟩
    · intro id c hget
      rw [HashMap.get?_insert] at hget
      split_ifs at hget
      · cases hget
        rw [(new_eq_ok hmemory).2.2.1]
        refine hquota config ?_
        rcases haction with ⟨mode, rfl, -⟩ | ⟨entries, rfl, -⟩ <;> rfl
      · exact h.quota id c hget
    · intro id c hget
      rw [HashMap.get?_insert] at hget
      split_ifs at hget
      · cases hget
        intro i hi
        exact absurd hi Finmap.notMem_empty
      · exact h.leaves id c hget
  | enabled => exact ⟨h.quota, h.leaves, h.flushes⟩
  | @cycled visit _ _ _ _ d hflushed =>
    have hran : trackedPages d.ran.memory.quotaBytes ≤ bound := by
      rw [(hwrites _ _ _ _ _ _ d.ran_eq).effect.quota_eq]
      exact h.quota d.id d.before d.before_eq
    have hleaves : ∀ i ∈ d.ran.checkpoints.tree.leaves, i < bound := by
      rw [hchain _ _ _ _ _ _ d.ran_eq]
      exact h.leaves d.id d.before d.before_eq
    have hrehashed (tick : Tick) (digest : Hash) :
        ∀ i ∈ (d.ran.checkpointed blake3 visit tick digest).checkpoints.tree.leaves,
          i < bound := by
      intro i hi
      obtain ⟨v, hv⟩ := HashMap.mem_iff_get?.mp hi
      rw [Cell.get?_checkpointed] at hv
      split_ifs at hv with hdirty
      · exact (lt_trackedPages hdirty).trans_le hran
      · exact hleaves i (HashMap.mem_iff_get?.mpr ⟨v, hv⟩)
    have hstored : trackedPages d.stored.memory.quotaBytes ≤ bound ∧
        ∀ i ∈ d.stored.checkpoints.tree.leaves, i < bound := by
      rcases d.ended.stored_cases with ⟨-, hstored⟩ | ⟨-, -, hstored | hstored⟩
      · rw [hstored]
        exact ⟨hran, hleaves⟩
      · rw [hstored]
        exact ⟨hran, hrehashed _ _⟩
      · rw [hstored]
        exact ⟨hran, hrehashed _ _⟩
    refine ⟨?_, ?_, ?_⟩
    · intro id c hget
      rw [d.cells_eq, HashMap.get?_insert] at hget
      split_ifs at hget
      · cases hget
        exact hstored.1
      · exact h.quota id c hget
    · intro id c hget
      rw [d.cells_eq, HashMap.get?_insert] at hget
      split_ifs at hget
      · cases hget
        exact hstored.2
      · exact h.leaves id c hget
    · intro f hf
      rcases List.mem_append.mp hf with hf | hf
      · exact h.flushes f hf
      · cases hflushed with
        | nothing => cases hf
        | pushed =>
          obtain rfl := List.mem_singleton.mp hf
          exact Cell.below_flushBatch hran d.tick
  | popped => exact ⟨h.quota, h.leaves, h.flushes⟩
  | accepted => exact ⟨h.quota, h.leaves, h.flushes⟩
  | refused => exact ⟨h.quota, h.leaves, h.flushes⟩

/-- Tenants cannot make the system hold more than their quotas. If no spawn asks for a bitmap of
more pages than the bound, then in every run, with guests that mark whatever they like: the
standby holds exactly the pages up to the highest it was sent, and no more than the bound or
what it was made with; the ring holds at most that many pages for each of its slots; and the tree
of every cell has at most that many leaves. -/
theorem footprint_bounded (blake3 : Blake3) (executor : QuantumExecutor E)
    (hwrites : executor.MarksWrites) (hchain : executor.KeepsChain) (perQuantum : UInt64) (e : E)
    (standbyPages bound : ℕ) (actions : List Action) (w : World E)
    (hquota : ∀ a ∈ actions, ∀ config, a.config? = some config →
      trackedPages config.quotaBytes ≤ bound)
    (hrun : run (World.step blake3 executor) (new perQuantum e standbyPages) actions = .ok w) :
    w.standby.engine.baseline.length =
      ((w.applied.flatMap TickBatch.deltas).map fun d => d.idx + 1).foldl max standbyPages ∧
    w.standby.engine.baseline.length ≤ max standbyPages bound ∧
    (∀ ring, w.supervisor.replication = some ring →
      (ring.queue.items.map fun b => b.deltas.length).sum ≤ ring.queue.capacity * bound) ∧
    ∀ id c, w.supervisor.cell id = some c → c.checkpoints.tree.leaves.keys.card ≤ bound := by
  obtain ⟨hc, ht⟩ := run_invariant
    (P := fun w : World E => Chronicle w ∧ InTransit standbyPages w)
    (fun _ _ _ _ hw hs => ⟨hw.1.step hs, hw.2.step hw.1 hs⟩)
    ⟨chronicle_new perQuantum e standbyPages, inTransit_new perQuantum e standbyPages⟩ hrun
  have h : Bounded bound w := run_invariant
    (fun a ha _ _ hw hs => hw.step hwrites hchain (hquota a ha) hs)
    ⟨fun _ _ h => (by cases h), fun _ _ h => (by cases h), fun _ h => (by cases h)⟩ hrun
  have hbelow {b : TickBatch} (hb : b ∈ w.applied ++ w.inflight ++ w.supervisor.queued) :
      b.Below bound := by
    obtain ⟨f, hf, rfl⟩ := ht.flush_of_mem hb
    exact h.flushes f hf
  have hlength : w.standby.engine.baseline.length =
      ((w.applied.flatMap TickBatch.deltas).map fun d => d.idx + 1).foldl max standbyPages := by
    rw [ht.engine_eq, DeltaEngine.length_foldl_applied]
    unfold DeltaEngine.fresh
    rw [List.length_replicate]
  refine ⟨hlength, ?_, ?_, ?_⟩
  · rw [hlength]
    apply foldl_max_le
    intro n hn
    obtain ⟨d, hd, rfl⟩ := List.mem_map.mp hn
    obtain ⟨b, hb, hd⟩ := List.mem_flatMap.mp hd
    rw [List.append_assoc] at hbelow
    exact (hbelow (List.mem_append_left _ hb)).page_lt d hd
  · intro ring hring
    have hqueued : w.supervisor.queued = ring.queue.items := by
      unfold Supervisor.queued
      rw [hring]
      rfl
    have hsum : (ring.queue.items.map fun b => b.deltas.length).sum ≤
        (ring.queue.items.map fun b => b.deltas.length).length • bound := by
      apply List.sum_le_card_nsmul
      intro n hn
      obtain ⟨b, hb, rfl⟩ := List.mem_map.mp hn
      exact (hbelow (List.mem_append_right _ (by rwa [hqueued]))).length_le
    rw [List.length_map, smul_eq_mul] at hsum
    exact hsum.trans (Nat.mul_le_mul_right _ ring.queue.length_le)
  · intro id c hcell
    have hsubset : c.checkpoints.tree.leaves.keys ⊆ Finset.range bound := by
      intro i hi
      exact Finset.mem_range.mpr (h.leaves id c hcell i (Finmap.mem_keys.mp hi))
    have hcard := Finset.card_le_card hsubset
    rwa [Finset.card_range] at hcard

/-- A store to the fourth page makes the standby grow from one page to four, of the 64 that
the bitmap has. -/
theorem footprint_bounded_fourth_page :
    ∃ w, run Guest.scriptedStep (Guest.scriptedWorld [.poke 12288 7])
        [.spawn ⟨1, 16384, 16384, 1⟩ .record, .enableReplication 1, .ascendingCycle, .pop,
          .apply] = .ok w ∧
      trackedPages 16384 = 64 ∧ w.applied.map TickBatch.pages = [[3]] ∧
      w.standby.engine.baseline.length = 4 := by
  have hreturns : returnsWith
      (run Guest.scriptedStep (Guest.scriptedWorld [.poke 12288 7])
        [.spawn ⟨1, 16384, 16384, 1⟩ .record, .enableReplication 1, .ascendingCycle, .pop, .apply])
      (fun w => decide (w.applied.map TickBatch.pages = [[3]])) = true := by
    decide +kernel
  obtain ⟨w, hrun, htest⟩ := returnsWith_eq_true.mp hreturns
  have hpages := of_decide_eq_true htest
  obtain ⟨hlength, -⟩ := footprint_bounded _ _ (Guest.executor_marksWrites _ _)
    (Guest.executor_keepsChain _ _) _ _ _ 64 _ w
    (by simp [Action.config?, trackedPages, quotaPages, pageSize]) hrun
  refine ⟨w, hrun, by decide, hpages, ?_⟩
  obtain ⟨b, hb⟩ := List.length_eq_one_iff.mp (by
    rw [← List.length_map TickBatch.pages, hpages]
    rfl : w.applied.length = 1)
  rw [hb, List.map_singleton, List.cons.injEq] at hpages
  have hmap : (b.deltas.map fun d => d.idx + 1) = b.pages.map fun p => p + 1 :=
    List.map_map.symm
  rw [hlength, hb, List.flatMap_singleton, hmap, hpages.1]
  rfl

end World
end ChronosUvm
