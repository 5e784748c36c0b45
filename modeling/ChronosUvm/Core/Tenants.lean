import Mathlib.Tactic
import ChronosUvm.Core.GuestProgram
import ChronosUvm.Core.Transit

/-!
Several tenants on one standby. All cells share the ring, a batch does not name its
cell, and the standby keeps one engine, so what a cell flushed survives exactly as
long as no other cell flushes the same page index.
-/
namespace ChronosUvm
open Panicking Tables Transitions

namespace World
variable {E : Type} {blake3 : Blake3} {executor : QuantumExecutor E} {w w' : World E}

/-- Once a cell's batch has been applied, the standby's copy of each of its pages stays
what the cell flushed, until a later batch of the same cell contains the page. -/
def TenantsApart (w : World E) : Prop :=
  ∀ f ∈ w.flushes, ∀ pre post, w.applied = pre ++ f.batch :: post → ∀ i ∈ f.batch.pages,
    (∀ g ∈ w.flushes, g.cell = f.cell → i ∈ g.batch.pages → g.batch ∉ post) →
    w.standby.engine.page? i = some (f.memory.pageBytes i)

/-- No page index is dirty at flushes of two different cells. -/
def DisjointFlushes (w : World E) : Prop :=
  ∀ f ∈ w.flushes, ∀ g ∈ w.flushes, f.cell ≠ g.cell →
    ∀ i ∈ f.memory.dirty.iterDirty, i ∉ g.memory.dirty.iterDirty

instance (w : World E) : Decidable (DisjointFlushes w) :=
  inferInstanceAs (Decidable (∀ f ∈ w.flushes, ∀ g ∈ w.flushes, f.cell ≠ g.cell →
    ∀ i ∈ f.memory.dirty.iterDirty, i ∉ g.memory.dirty.iterDirty))

theorem Chronicle.pages_eq (hc : Chronicle w) {f : Flush} (hf : f ∈ w.flushes) :
    f.batch.pages = f.memory.dirty.iterDirty := by
  unfold TickBatch.pages
  rw [hc.flushes_raw f hf, List.map_map]
  conv_rhs => rw [← List.map_id f.memory.dirty.iterDirty]
  exact List.map_congr_left fun p hp =>
    PageDelta.idx_raw_ofNat (MmapGuardedMemory.lt_of_mem_iterDirty hp) _

theorem tenantsApart_of_disjoint {pages : ℕ} (hc : Chronicle w) (ht : InTransit pages w)
    (hdisjoint : DisjointFlushes w) : TenantsApart w := by
  intro f hf pre post happlied i hi hlast
  have hpost (d : PageDelta) (hd : d ∈ post.flatMap TickBatch.deltas) : d.idx ≠ i := by
    rintro rfl
    obtain ⟨b, hb, hd⟩ := List.mem_flatMap.mp hd
    obtain ⟨g, hg, rfl⟩ := ht.flush_of_mem (b := b) (by simp [happlied, hb])
    have hpage : d.idx ∈ g.batch.pages := List.mem_map_of_mem hd
    -- the batch is another cell's, or it is what ends the obligation
    by_cases hcell : g.cell = f.cell
    · exact hlast g hg hcell hpage hb
    · rw [hc.pages_eq hg] at hpage
      rw [hc.pages_eq hf] at hi
      exact hdisjoint f hf g hg (Ne.symm hcell) d.idx hi hpage
  rw [hc.pages_eq hf] at hi
  rw [ht.engine_eq, happlied, List.flatMap_append, List.foldl_append, List.flatMap_cons,
    List.foldl_append, DeltaEngine.page?_foldl_of_ne _ hpost, hc.flushes_raw f hf,
    DeltaEngine.page?_foldl_raw _ fun p hp => MmapGuardedMemory.lt_of_mem_iterDirty hp,
    if_pos hi]

/-- In every run in which no page index is flushed by two cells, whatever the cells, the
intervals and the interleaving, every tenant's pages stay apart on the standby. -/
theorem tenants_stay_apart (blake3 : Blake3) (executor : QuantumExecutor E) (max : UInt64)
    (e : E) (standbyPages : ℕ) (actions : List Action) (w : World E)
    (hrun : run (World.step blake3 executor) (new max e standbyPages) actions = .ok w)
    (hdisjoint : DisjointFlushes w) : TenantsApart w := by
  obtain ⟨hc, ht⟩ := InTransit.of_run (chronicle_new max e standbyPages)
    (inTransit_new max e standbyPages) hrun
  exact tenantsApart_of_disjoint hc ht hdisjoint

/-- Two tenants, the first on its page 0 and the second on its page 1. -/
theorem tenants_stay_apart_two_pages :
    ∃ w, run Guest.scriptedStep (Guest.scriptedWorld [.poke 5 7, .poke 4099 9])
        [.enableReplication 2, .spawn ⟨1, 8192, 8192, 1⟩ .record,
          .spawn ⟨2, 8192, 8192, 1⟩ .record, .ascendingCycle, .ascendingCycle, .pop, .apply, .pop,
          .apply] = .ok w ∧
      w.applied.length = 2 ∧ TenantsApart w := by
  have hreturns : returnsWith
      (run Guest.scriptedStep (Guest.scriptedWorld [.poke 5 7, .poke 4099 9])
        [.enableReplication 2, .spawn ⟨1, 8192, 8192, 1⟩ .record,
          .spawn ⟨2, 8192, 8192, 1⟩ .record, .ascendingCycle, .ascendingCycle, .pop, .apply, .pop,
          .apply])
      (fun w => decide (w.applied.length = 2) && decide (DisjointFlushes w)) = true := by
    decide +kernel
  obtain ⟨w, hrun, htest⟩ := returnsWith_eq_true.mp hreturns
  simp only [Bool.and_eq_true, decide_eq_true_eq] at htest
  exact ⟨w, hrun, htest.1, tenants_stay_apart _ _ _ _ _ _ w hrun htest.2⟩

/-- Two tenants that both write their page 0: the second batch overwrites the first
tenant's page on the standby. -/
theorem tenants_collide :
    ∃ w, run Guest.scriptedStep (Guest.scriptedWorld [.poke 5 7, .poke 5 9])
        [.enableReplication 2, .spawn ⟨1, 4096, 4096, 1⟩ .record,
          .spawn ⟨2, 4096, 4096, 1⟩ .record, .ascendingCycle, .ascendingCycle, .pop, .apply, .pop,
          .apply] = .ok w ∧
      ¬ TenantsApart w := by
  have hreturns : returnsWith
      (run Guest.scriptedStep (Guest.scriptedWorld [.poke 5 7, .poke 5 9])
        [.enableReplication 2, .spawn ⟨1, 4096, 4096, 1⟩ .record,
          .spawn ⟨2, 4096, 4096, 1⟩ .record, .ascendingCycle, .ascendingCycle, .pop, .apply, .pop,
          .apply])
      (fun w => decide (w.applied.length = 2) && match w.flushes with
        | [f, g] => decide (f.cell ≠ g.cell) && decide (f.batch.tick ≠ g.batch.tick) &&
          decide (0 ∈ f.batch.pages) && decide (w.standby.engine.pageOrZero 0 ⟨5, by decide⟩ ≠
            f.memory.pageBytes 0 ⟨5, by decide⟩)
        | _ => false) = true := by
    decide +kernel
  obtain ⟨w, hrun, htest⟩ := returnsWith_eq_true.mp hreturns
  refine ⟨w, hrun, ?_⟩
  obtain ⟨-, ht⟩ := InTransit.of_run (chronicle_new _ _ _) (inTransit_new _ _ _) hrun
  have hsub := ht.sublist
  simp only [Bool.and_eq_true, decide_eq_true_eq] at htest
  obtain ⟨hlength, htest⟩ := htest
  split at htest
  · next f g hflushes =>
    simp only [Bool.and_eq_true, decide_eq_true_eq] at htest
    obtain ⟨⟨⟨hcell, htick⟩, hpage⟩, hbyte⟩ := htest
    have happlied : w.applied = [f.batch, g.batch] := by
      rw [hflushes, List.append_assoc] at hsub
      exact (((List.sublist_append_left _ _).trans hsub).eq_of_length hlength)
    intro hapart
    have hkept := hapart f (by simp [hflushes]) [] [g.batch] happlied 0 hpage (by
      intro g' hg' hcell' _ hmem
      rw [hflushes] at hg'
      rcases List.mem_cons.mp hg' with rfl | hg'
      · exact htick (congrArg TickBatch.tick (List.mem_singleton.mp hmem))
      · obtain rfl := List.mem_singleton.mp hg'
        exact hcell hcell'.symm)
    apply hbyte
    unfold DeltaEngine.pageOrZero
    rw [hkept]
    rfl
  · cases htest

end World
end ChronosUvm
