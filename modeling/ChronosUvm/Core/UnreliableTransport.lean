import Mathlib.Tactic
import ChronosUvm.Core.CellStreams
import ChronosUvm.Core.Tenants
import ChronosUvm.Foundations.LastWrite
import ChronosUvm.Replicate.TickGate

/-!
A transport that loses, repeats and reorders. The supervisor ships whole pages, so what
the standby misses makes it stale and nothing else: every page it holds is one that the
cell had, and a lost page is made good by the next batch that contains it.
-/
namespace ChronosUvm
open Panicking Tables Transitions LastWrite

namespace StandbyApplyLoop

/-- What the gate makes of a delivery. -/
structure Received (s : StandbyApplyLoop) (batches accepted : List TickBatch)
    (final : StandbyApplyLoop) : Prop where
  receive_eq : s.receive batches = (accepted, .ok final)
  sublist : accepted.Sublist batches
  sorted : accepted.Pairwise fun b b' => b.tick < b'.tick
  later : ∀ b ∈ accepted, s.lastAppliedTick < b.tick
  engine_eq : final.engine =
    (accepted.flatMap TickBatch.deltas).foldl DeltaEngine.applied s.engine
  last_eq : final.lastAppliedTick = (accepted.getLast?.map TickBatch.tick).getD s.lastAppliedTick
  le_last : s.lastAppliedTick ≤ final.lastAppliedTick
  newest : ∀ b ∈ batches, b.tick ≤ final.lastAppliedTick

theorem Received.accept {s final : StandbyApplyLoop} {b : TickBatch}
    {batches accepted : List TickBatch} (hlt : s.lastAppliedTick < b.tick) (hroom : b.Resizable)
    (h : Received ⟨b.deltas.foldl DeltaEngine.applied s.engine, b.tick⟩ batches accepted final) :
    Received s (b :: batches) (b :: accepted) final where
  receive_eq := by simp only [receive, applyBatch_fresh hlt hroom, h.receive_eq]
  sublist := h.sublist.cons_cons b
  sorted := List.pairwise_cons.mpr ⟨h.later, h.sorted⟩
  later b' hb' := by
    rcases List.mem_cons.mp hb' with rfl | hb'
    · exact hlt
    · exact UInt64.lt_trans hlt (h.later b' hb')
  engine_eq := by rw [h.engine_eq, List.flatMap_cons, List.foldl_append]
  last_eq := by
    rw [h.last_eq, List.getLast?_cons]
    cases accepted.getLast? <;> rfl
  le_last := UInt64.le_trans (UInt64.le_of_lt hlt) h.le_last
  newest b' hb' := by
    rcases List.mem_cons.mp hb' with rfl | hb'
    · exact h.le_last
    · exact h.newest b' hb'

theorem Received.refuse {s final : StandbyApplyLoop} {b : TickBatch}
    {batches accepted : List TickBatch} (hle : b.tick ≤ s.lastAppliedTick)
    (hzero : s.lastAppliedTick ≠ 0) (h : Received s batches accepted final) :
    Received s (b :: batches) accepted final where
  receive_eq := by simp only [receive, applyBatch_stale ⟨hle, hzero⟩, h.receive_eq]
  sublist := h.sublist.cons b
  sorted := h.sorted
  later := h.later
  engine_eq := h.engine_eq
  last_eq := h.last_eq
  le_last := h.le_last
  newest b' hb' := by
    rcases List.mem_cons.mp hb' with rfl | hb'
    · exact UInt64.le_trans hle h.le_last
    · exact h.newest b' hb'

/-- Whatever is delivered, as long as no tick is 0 and no page index is too large. -/
theorem received_of_positive {batches : List TickBatch} (h : ∀ b ∈ batches, 0 < b.tick)
    (hroom : ∀ b ∈ batches, b.Resizable) (s : StandbyApplyLoop) :
    ∃ accepted final, Received s batches accepted final := by
  induction batches generalizing s with
  | nil => exact ⟨[], s, rfl, .slnil, .nil, fun _ h => (by cases h), rfl, rfl, UInt64.le_refl _,
      fun _ h => (by cases h)⟩
  | cons b batches ih =>
    have ih := ih (fun b' hb' => h b' (List.mem_cons_of_mem b hb'))
      fun b' hb' => hroom b' (List.mem_cons_of_mem b hb')
    by_cases hlt : s.lastAppliedTick < b.tick
    · obtain ⟨accepted, final, hreceived⟩ := ih ⟨_, b.tick⟩
      exact ⟨b :: accepted, final, hreceived.accept hlt (hroom b List.mem_cons_self)⟩
    · have hle := UInt64.not_lt.mp hlt
      have hzero : s.lastAppliedTick ≠ 0 := by
        intro hzero
        rw [hzero] at hlt
        exact hlt (h b List.mem_cons_self)
      obtain ⟨accepted, final, hreceived⟩ := ih s
      exact ⟨accepted, final, hreceived.refuse hle hzero⟩

end StandbyApplyLoop

/-- A page on the standby is what the latest flush that contains it put there. -/
theorem mirror_eq_read (flushes : List Flush) (i : ℕ) : mirror flushes i =
    read (fun f => f.memory.dirty.isDirty i) (fun f => f.memory.pageBytes i) flushes := rfl

namespace World
variable {E : Type} {blake3 : Blake3} {executor : QuantumExecutor E} {w : World E}

theorem Chronicle.mem_pages (hc : Chronicle w) {f : Flush} (hf : f ∈ w.flushes) {i : ℕ} :
    i ∈ f.batch.pages ↔ f.memory.dirty.isDirty i = true := by
  rw [hc.pages_eq hf, DirtyPageSet.mem_iterDirty]

theorem Chronicle.flush_unique (hc : Chronicle w) {f g : Flush} (hf : f ∈ w.flushes)
    (hg : g ∈ w.flushes) (htick : f.batch.tick = g.batch.tick) : f = g := by
  have hnodup : (w.flushes.map fun f => f.batch.tick.toNat).Nodup :=
    List.pairwise_map.mpr (hc.flushes_lt.imp fun hlt => hlt.ne)
  exact List.inj_on_of_nodup_map hnodup hf hg (congrArg UInt64.toNat htick)

/-- What a fresh standby has taken out of a delivery of flushes. -/
structure Taken (w : World E) (id : CellId) (delivered taken : List Flush)
    (standby : StandbyApplyLoop) : Prop where
  sublist : taken.Sublist delivered
  stream : ∀ f ∈ taken, f ∈ w.flushes ∧ f.cell = id
  sorted : taken.Pairwise fun f g => f.batch.tick.toNat < g.batch.tick.toNat
  newest : ∀ f ∈ delivered, f.batch.tick ≤ standby.lastAppliedTick
  last_eq : standby.lastAppliedTick = (taken.getLast?.map fun f => f.batch.tick).getD 0
  page_eq : ∀ i, standby.engine.page? i = mirror taken i

theorem Chronicle.taken_of_received (hc : Chronicle w) {id : CellId} {delivered : List Flush}
    (hdelivered : ∀ f ∈ delivered, f ∈ w.flushes ∧ f.cell = id) {capacity : ℕ}
    {accepted : List TickBatch} {standby : StandbyApplyLoop}
    (h : (StandbyApplyLoop.fresh capacity).Received (delivered.map Flush.batch) accepted standby) :
    ∃ taken : List Flush, accepted = taken.map Flush.batch ∧
      w.Taken id delivered taken standby := by
  obtain ⟨taken, htaken, rfl⟩ := List.sublist_map_iff.mp h.sublist
  have hstream (f : Flush) (hf : f ∈ taken) := hdelivered f (htaken.subset hf)
  refine ⟨taken, rfl, htaken, hstream,
    (List.pairwise_map.mp h.sorted).imp UInt64.lt_iff_toNat_lt.mp,
    fun f hf => h.newest _ (List.mem_map_of_mem hf), ?_, ?_⟩
  · rw [h.last_eq, List.getLast?_map, Option.map_map]
    rfl
  · intro i
    rw [h.engine_eq]
    exact page?_of_flushes (fun f hf => hc.flushes_raw f (hstream f hf).1) capacity i

/-- Every page on the standby is one that the cell had. -/
theorem Taken.page_cases {id : CellId} {delivered taken : List Flush} {standby : StandbyApplyLoop}
    (hc : Chronicle w) (h : w.Taken id delivered taken standby) (i : ℕ) :
    ((∀ f ∈ taken, i ∉ f.batch.pages) ∧ standby.engine.pageOrZero i = zeroPage) ∨
      ∃ f ∈ taken, i ∈ f.batch.pages ∧
        (∀ g ∈ taken, f.batch.tick < g.batch.tick → i ∉ g.batch.pages) ∧
        standby.engine.pageOrZero i = f.memory.pageBytes i := by
  have hpages (f : Flush) (hf : f ∈ taken) := hc.mem_pages (h.stream f hf).1 (i := i)
  have hread : standby.engine.pageOrZero i = (mirror taken i).getD zeroPage := by
    unfold DeltaEngine.pageOrZero
    rw [h.page_eq]
  rw [hread, mirror_eq_read]
  have hcases : (∀ f ∈ taken, f.memory.dirty.isDirty i = false) ∨
      ∃ f, Latest (fun f => f.memory.dirty.isDirty i) (fun f => f.batch.tick.toNat) taken f :=
    untouched_or_latest h.sorted
  rcases hcases with hnone | ⟨f, hlatest⟩
  · left
    rw [read_of_untouched hnone]
    refine ⟨?_, rfl⟩
    intro f hf hi
    have hclean := hnone f hf
    rw [(hpages f hf).mp hi] at hclean
    cases hclean
  · right
    rw [read_of_latest h.sorted hlatest]
    obtain ⟨hf, hdirty, hlater⟩ := hlatest
    refine ⟨f, hf, (hpages f hf).mpr hdirty, ?_, rfl⟩
    intro g hg hlt hi
    have hclean : g.memory.dirty.isDirty i = false := hlater g hg (UInt64.lt_iff_toNat_lt.mp hlt)
    rw [(hpages g hg).mp hi] at hclean
    cases hclean

/-- The flush at whose tick the standby stands was taken. -/
theorem Taken.mem_of_newest {id : CellId} {delivered taken : List Flush}
    {standby : StandbyApplyLoop} (hc : Chronicle w) (hstreams : Streams w)
    (h : w.Taken id delivered taken standby) {g : Flush} (hg : g ∈ w.flushes)
    (hnow : g.batch.tick = standby.lastAppliedTick) : g ∈ taken := by
  rcases List.eq_nil_or_concat' taken with hnil | ⟨init, last, hlast⟩
  · have hzero : g.batch.tick = 0 := by
      rw [hnow, h.last_eq, hnil]
      rfl
    have hpositive := hstreams.positive g hg
    rw [hzero] at hpositive
    exact absurd hpositive (lt_irrefl _)
  · have hmem : last ∈ taken := by simp [hlast]
    have htick : g.batch.tick = last.batch.tick := by
      rw [hnow, h.last_eq, hlast, List.getLast?_concat]
      rfl
    rw [hc.flush_unique hg (h.stream last hmem).1 htick]
    exact hmem

/-- A page that no lost batch has changed for good is as of the standby's tick. -/
theorem Taken.page_current {id : CellId} {delivered taken : List Flush}
    {standby : StandbyApplyLoop} (hc : Chronicle w) (hstreams : Streams w)
    (h : w.Taken id delivered taken standby) {g : Flush} (hg : g ∈ w.flushes)
    (hcell : g.cell = id) (hnow : g.batch.tick = standby.lastAppliedTick) {i : ℕ}
    (hcovered : ∀ f ∈ w.flushes, f.cell = id → f ∉ taken → f.batch.tick < g.batch.tick →
      i ∈ f.batch.pages → ∃ f' ∈ taken, f.batch.tick < f'.batch.tick ∧ i ∈ f'.batch.pages) :
    standby.engine.pageOrZero i = g.memory.pageBytes i := by
  obtain ⟨pre, post, hsplit⟩ := List.append_of_mem hg
  have hsorted := hc.flushes_lt
  rw [hsplit] at hsorted
  obtain ⟨-, hpost, hpre⟩ := List.pairwise_append.mp hsorted
  have hupto : (streamOf id (pre ++ [g])).Sublist w.flushes := by
    rw [hsplit, List.append_cons pre g post]
    exact List.filter_sublist.trans (List.sublist_append_left _ _)
  -- what was taken is no newer than `g`
  have hsub : taken ⊆ streamOf id (pre ++ [g]) := by
    intro f hf
    obtain ⟨hmem, hid⟩ := h.stream f hf
    refine List.mem_filter.mpr ⟨?_, by simpa using hid⟩
    rw [hsplit, List.append_cons pre g post] at hmem
    refine (List.mem_append.mp hmem).resolve_right ?_
    intro hf'
    have hle := UInt64.le_iff_toNat_le.mp (h.newest f (h.sublist.subset hf))
    have hlt := (List.pairwise_cons.mp hpost).1 f hf'
    rw [← hnow] at hle
    omega
  have hsame : mirror taken i = mirror (streamOf id (pre ++ [g])) i := by
    rw [mirror_eq_read, mirror_eq_read]
    refine read_of_covered (hc.flushes_lt.sublist hupto)
      (sublist_of_subset (hc.flushes_lt.sublist hupto) h.sorted hsub) ?_
    intro f hf hlost hdirty
    have hmem := hupto.subset hf
    obtain ⟨hbefore, hid⟩ := List.mem_filter.mp hf
    have hlt : f.batch.tick < g.batch.tick := by
      rcases List.mem_append.mp hbefore with hf | hf
      · exact UInt64.lt_iff_toNat_lt.mpr (hpre f hf g List.mem_cons_self)
      · obtain rfl := List.mem_singleton.mp hf
        exact absurd (h.mem_of_newest hc hstreams hg hnow) hlost
    obtain ⟨f', hf', hlater, hi⟩ := hcovered f hmem (of_decide_eq_true hid) hlost hlt
      ((hc.mem_pages hmem).mpr hdirty)
    exact ⟨f', hf', UInt64.lt_iff_toNat_lt.mp hlater,
      (hc.mem_pages (h.stream f' hf').1).mp hi⟩
  have hpage : rebuilt id (pre ++ [g]) i = g.memory.pageBytes i := by
    rw [← hcell]
    exact hstreams.history pre g post hsplit i
  rw [← hpage]
  unfold DeltaEngine.pageOrZero rebuilt
  rw [h.page_eq, hsame]

/-- A transport that loses, repeats and reorders makes pages stale and never wrong. Take any run
whose cycles all have a ring, and any batches of one cell in any order, each as often as you
like: the standby takes a part of the stream in its order and stands at the newest tick that
was delivered; every page it holds is what the latest flush it took left there, and zeros where
it took none; and a page is as of the newest tick as soon as every lost batch that contains it
was followed by one that was taken. -/
theorem unreliable_transport_stale (blake3 : Blake3) (executor : QuantumExecutor E)
    (hexecutor : executor.MarksWrites) (max : UInt64) (e : E) (standbyPages : ℕ)
    (actions : List Action) (w : World E)
    (hrun : run (World.step blake3 executor) (new max e standbyPages) actions = .ok w)
    (hon : ¬ Occurs (World.step blake3 executor) (new max e standbyPages) actions Unreplicated)
    (id : CellId) (delivered : List Flush)
    (hdelivered : ∀ f ∈ delivered, f ∈ w.flushes ∧ f.cell = id) (capacity : ℕ)
    (start : StandbyApplyLoop) (hstart : StandbyApplyLoop.new capacity = .ok start) :
    ∃ (taken : List Flush) (standby : StandbyApplyLoop),
      start.receive (delivered.map Flush.batch) = (taken.map Flush.batch, .ok standby) ∧
      taken.Sublist delivered ∧ taken.Sublist w.flushes ∧
      standby.lastAppliedTick = (taken.getLast?.map fun f => f.batch.tick).getD 0 ∧
      (∀ f ∈ delivered, f.batch.tick ≤ standby.lastAppliedTick) ∧
      (∀ i, ((∀ f ∈ taken, i ∉ f.batch.pages) ∧ standby.engine.pageOrZero i = zeroPage) ∨
        ∃ f ∈ taken, i ∈ f.batch.pages ∧
          (∀ g ∈ taken, f.batch.tick < g.batch.tick → i ∉ g.batch.pages) ∧
          standby.engine.pageOrZero i = f.memory.pageBytes i) ∧
      ∀ g ∈ w.flushes, g.cell = id → g.batch.tick = standby.lastAppliedTick → ∀ i,
        (∀ f ∈ w.flushes, f.cell = id → f ∉ taken → f.batch.tick < g.batch.tick →
          i ∈ f.batch.pages →
          ∃ f' ∈ taken, f.batch.tick < f'.batch.tick ∧ i ∈ f'.batch.pages) →
        standby.engine.pageOrZero i = g.memory.pageBytes i := by
  obtain ⟨-, rfl⟩ := StandbyApplyLoop.new_eq_ok.mp hstart
  obtain ⟨hc, h⟩ := streams_of_run hexecutor hrun hon
  have hroom : ∀ b ∈ delivered.map Flush.batch, b.Resizable := by
    intro b hb
    obtain ⟨f, hf, rfl⟩ := List.mem_map.mp hb
    exact hc.resizable (hdelivered f hf).1
  have hpositive : ∀ b ∈ delivered.map Flush.batch, 0 < b.tick := by
    intro b hb
    obtain ⟨f, hf, rfl⟩ := List.mem_map.mp hb
    exact UInt64.lt_iff_toNat_lt.mpr (h.positive f (hdelivered f hf).1)
  obtain ⟨accepted, standby, hreceived⟩ :=
    StandbyApplyLoop.received_of_positive hpositive hroom (.fresh capacity)
  obtain ⟨taken, rfl, htaken⟩ := hc.taken_of_received hdelivered hreceived
  have hsubset : taken.Sublist w.flushes :=
    sublist_of_subset hc.flushes_lt htaken.sorted fun f hf => (htaken.stream f hf).1
  exact ⟨taken, standby, hreceived.receive_eq, htaken.sublist, hsubset, htaken.last_eq,
    htaken.newest, htaken.page_cases hc,
    fun g hg hcell hnow i hcovered => htaken.page_current hc h hg hcell hnow hcovered⟩

/-- The first batch arrives after the third one, the second one never. Page 0 is as of the
third. -/
theorem unreliable_transport_stale_lost :
    ∃ w f₁ f₂ f₃ start taken standby,
      run Guest.scriptedStep (Guest.scriptedWorld [.poke 5 7, .poke 4097 8, .poke 5 9])
        [.enableReplication 3, .spawn ⟨1, 8192, 8192, 1⟩ .record, .ascendingCycle,
          .ascendingCycle, .ascendingCycle] = .ok w ∧
      w.flushes = [f₁, f₂, f₃] ∧
      StandbyApplyLoop.new 1 = .ok start ∧
      start.receive ([f₃, f₁, f₃].map Flush.batch) =
        (List.map Flush.batch taken, .ok standby) ∧
      standby.lastAppliedTick = 3 ∧
      standby.engine.pageOrZero 0 = f₃.memory.pageBytes 0 := by
  have hreturns : returnsWith
      (run Guest.scriptedStep (Guest.scriptedWorld [.poke 5 7, .poke 4097 8, .poke 5 9])
        [.enableReplication 3, .spawn ⟨1, 8192, 8192, 1⟩ .record, .ascendingCycle,
          .ascendingCycle, .ascendingCycle])
      (fun w => decide (w.flushes.map Flush.cell = [1, 1, 1]) &&
        decide (w.flushes.map (fun f => f.batch.tick) = [1, 2, 3]) &&
        decide (w.flushes.map (fun f => f.batch.pages) = [[0], [1], [0]])) = true := by
    decide +kernel
  obtain ⟨w, hrun, htest⟩ := returnsWith_eq_true.mp hreturns
  simp only [Bool.and_eq_true, decide_eq_true_eq] at htest
  obtain ⟨⟨hcells, hticks⟩, hpages⟩ := htest
  obtain ⟨f₁, f₂, f₃, hflushes⟩ : ∃ f₁ f₂ f₃, w.flushes = [f₁, f₂, f₃] := by
    apply List.length_eq_three.mp
    rw [← List.length_map Flush.cell, hcells]
    rfl
  simp only [hflushes, List.map_cons, List.map_nil, List.cons.injEq, and_true]
    at hcells hticks hpages
  obtain ⟨hcell₁, -, hcell₃⟩ := hcells
  obtain ⟨htick₁, -, htick₃⟩ := hticks
  obtain ⟨-, hpages₂, hpages₃⟩ := hpages
  obtain ⟨taken, standby, hreceive, htaken, -, hlast, hnewest, -, hcurrent⟩ :=
    unreliable_transport_stale _ _ (Guest.executor_marksWrites _ _) _ _ _ _ w hrun
    (not_unreplicated_enabled (by decide) _ _) 1 [f₃, f₁, f₃]
    (by simp [hflushes, hcell₁, hcell₃]) 1 _ (StandbyApplyLoop.new_eq_ok.mpr ⟨by decide, rfl⟩)
  have hge := hnewest f₃ (by simp)
  have hmem : f₃ ∈ taken ∧ standby.lastAppliedTick = 3 := by
    rw [hlast, htick₃] at hge
    rw [hlast]
    rcases List.eq_nil_or_concat' taken with rfl | ⟨init, last, rfl⟩
    · exact absurd hge (by decide)
    · rw [List.getLast?_concat] at hge ⊢
      have hfrom := htaken.subset (List.mem_append_right init (List.mem_singleton_self last))
      simp only [List.mem_cons, List.not_mem_nil, or_false] at hfrom
      rcases hfrom with rfl | rfl | rfl
      · exact ⟨by simp, htick₃⟩
      · rw [Option.map_some, Option.getD_some, htick₁] at hge
        exact absurd hge (by decide)
      · exact ⟨by simp, htick₃⟩
  refine ⟨w, f₁, f₂, f₃, _, taken, standby, hrun, hflushes,
    StandbyApplyLoop.new_eq_ok.mpr ⟨by decide, rfl⟩, hreceive, hmem.2, ?_⟩
  refine hcurrent f₃ (by simp [hflushes]) hcell₃ (htick₃.trans hmem.2.symm) 0 ?_
  intro f hf _ _ hlt hi
  exact ⟨f₃, hmem.1, hlt, by rw [hpages₃]; exact List.mem_singleton_self 0⟩

end World
end ChronosUvm
