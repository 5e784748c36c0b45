import Mathlib.Tactic
import ChronosUvm.Core.GuestProgram
import ChronosUvm.Mem.Alike

/-!
Two cells that differ in dirty bits only, and there only in pages whose stored leaf is
current. Whatever their rings do, a cycle that checkpoints both appends the same entry
to both and leaves them related.
-/
namespace ChronosUvm
open Panicking Tables

/-- The page has a stored leaf, and the leaf is current. -/
def CheckpointChain.Settled (blake3 : Blake3) (chain : CheckpointChain) (p : ℕ) (page : Page) :
    Prop := chain.tree.leaves.get? p = some (blake3 page.toList)

namespace Cell

/-- The cells agree in all a guest can see, and their memories up to settled pages. -/
structure Alike (blake3 : Blake3) (c c' : Cell) : Prop where
  config_eq : c'.config = c.config
  checkpoints_eq : c'.checkpoints = c.checkpoints
  fdTable_eq : c'.fdTable = c.fdTable
  pendingIo_eq : c'.pendingIo = c.pendingIo
  last_eq : c'.lastCheckpointTick = c.lastCheckpointTick
  leaf_lt : ∀ i ∈ c.checkpoints.tree.leaves, i < 2 ^ treeDepth
  memory : MmapGuardedMemory.Alike (c.checkpoints.Settled blake3) c.memory c'.memory

/-- Cells spawned alike are alike, whatever their recorders. -/
theorem alike_fresh (blake3 : Blake3) (config : CellConfig) (memory : MmapGuardedMemory)
    (recorder recorder' : EventRecorder) :
    Alike blake3
      ⟨config, memory, recorder, CheckpointChain.new, FdTable.new, PendingCompletions.new, 0⟩
      ⟨config, memory, recorder', CheckpointChain.new, FdTable.new, PendingCompletions.new, 0⟩ :=
  ⟨rfl, rfl, rfl, rfl, rfl, fun _ hi => absurd hi Finmap.notMem_empty,
    ⟨rfl, rfl, rfl, fun _ hp => absurd rfl hp⟩⟩

/-- A cell at the end of a checkpoint differs from the checkpointed one in dirty bits only,
and has no more of them. -/
theorem checkpoint_end_memory {blake3 : Blake3} {visit : VisitOrder} {tick : Tick} {digest : Hash}
    {c d : Cell} (hd : d = c.checkpointed blake3 visit tick digest ∨
      d = (c.checkpointed blake3 visit tick digest).clearDirtyPages) :
    ∃ memory, d = { c.checkpointed blake3 visit tick digest with memory := memory } ∧
      memory.bytes = c.memory.bytes ∧ memory.sizeBytes = c.memory.sizeBytes ∧
      memory.quotaBytes = c.memory.quotaBytes ∧
      ∀ p, c.memory.dirty.isDirty p = false → memory.dirty.isDirty p = false := by
  rcases hd with rfl | rfl
  · exact ⟨c.memory, rfl, rfl, rfl, rfl, fun _ hp => hp⟩
  · exact ⟨c.memory.clearDirtyPages, rfl, rfl, rfl, rfl,
      fun p _ => DirtyPageSet.isDirty_clearAll _ p⟩

namespace Alike
variable {blake3 : Blake3} {c c' : Cell}

theorem view_eq (h : Alike blake3 c c') : c'.view = c.view := by
  unfold view
  simp only [h.config_eq, h.checkpoints_eq, h.fdTable_eq, h.pendingIo_eq, h.last_eq,
    h.memory.bytes_eq, h.memory.size_eq, h.memory.quota_eq]

theorem delivered (h : Alike blake3 c c') : Alike blake3 c.delivered c'.delivered :=
  ⟨h.config_eq, h.checkpoints_eq, h.fdTable_eq, rfl, h.last_eq, h.leaf_lt, h.memory⟩

theorem checkpointDue_eq (h : Alike blake3 c c') (tick : Tick) :
    c'.checkpointDue tick = c.checkpointDue tick := by
  unfold checkpointDue
  simp only [h.config_eq, h.last_eq]

/-- A page dirty in either cell is settled by the checkpoint. -/
theorem settled_checkpointed (h : Alike blake3 c c') (visit : VisitOrder) (tick : Tick)
    (digest : Hash) {p : ℕ}
    (hp : c.memory.dirty.isDirty p = true ∨ c'.memory.dirty.isDirty p = true) :
    (c.checkpointed blake3 visit tick digest).checkpoints.Settled blake3 p
      (c.memory.pageBytes p) := by
  unfold CheckpointChain.Settled
  rw [get?_checkpointed]
  split_ifs with hdirty
  · rfl
  · apply h.memory.differ p
    rw [hp.resolve_left hdirty]
    exact fun heq => hdirty heq.symm

theorem tree_checkpointed (h : Alike blake3 c c') (visit visit' : VisitOrder) (tick : Tick)
    (digest : Hash) :
    (c'.checkpointed blake3 visit' tick digest).checkpoints.tree =
      (c.checkpointed blake3 visit tick digest).checkpoints.tree := by
  have hleaves : (c'.checkpointed blake3 visit' tick digest).checkpoints.tree.leaves =
      (c.checkpointed blake3 visit tick digest).checkpoints.tree.leaves := by
    apply HashMap.ext_get?
    intro p
    by_cases hp : c.memory.dirty.isDirty p = true ∨ c'.memory.dirty.isDirty p = true
    · rw [show _ = some _ from h.settled_checkpointed visit tick digest hp, get?_checkpointed,
        MmapGuardedMemory.pageBytes_congr h.memory.bytes_eq]
      split_ifs with hdirty
      · rfl
      · rw [h.checkpoints_eq]
        have hsettled := h.memory.differ p
        rcases hp with hp | hp
        · exact hsettled fun heq => hdirty (heq.trans hp)
        · exact absurd hp hdirty
    · rw [get?_checkpointed, get?_checkpointed, if_neg fun hd => hp (.inr hd),
        if_neg fun hd => hp (.inl hd), h.checkpoints_eq]
  exact congrArg SparseMerkleTree.mk hleaves

/-- Both cells append the same entry, whatever their dirty sets and table orders. -/
theorem checkpoints_checkpointed (h : Alike blake3 c c') (visit visit' : VisitOrder)
    (tick : Tick) (digest : Hash) :
    (c'.checkpointed blake3 visit' tick digest).checkpoints =
      (c.checkpointed blake3 visit tick digest).checkpoints := by
  have htree := h.tree_checkpointed visit visit' tick digest
  have hlt := leaf_lt_checkpointed blake3 visit h.leaf_lt tick digest
  have hroot : (c.checkpointed blake3 visit tick digest).checkpoints.tree.root blake3 visit' =
      (c.checkpointed blake3 visit tick digest).checkpoints.tree.root blake3 visit := by
    rw [SparseMerkleTree.root_eq_node blake3 visit' hlt,
      SparseMerkleTree.root_eq_node blake3 visit hlt]
  have hchain (v : VisitOrder) (x : Cell) := CheckpointChain.checkpoint_eq blake3 v x.checkpoints
    tick x.memory x.memory.dirty digest
  unfold checkpointed at htree hroot ⊢
  dsimp only at htree hroot ⊢
  rw [hchain visit' c', hchain visit c, htree, hroot, h.checkpoints_eq]

/-- The cells stay related through a checkpoint, whether or not either of them has its
dirty pages cleared. -/
theorem checkpoint_end (h : Alike blake3 c c') {visit visit' : VisitOrder} {tick : Tick}
    {digest : Hash} {d d' : Cell}
    (hd : d = c.checkpointed blake3 visit tick digest ∨
      d = (c.checkpointed blake3 visit tick digest).clearDirtyPages)
    (hd' : d' = c'.checkpointed blake3 visit' tick digest ∨
      d' = (c'.checkpointed blake3 visit' tick digest).clearDirtyPages) :
    Alike blake3 d d' := by
  obtain ⟨memory, rfl, hbytes, hsize, hquota, hclean⟩ := checkpoint_end_memory hd
  obtain ⟨memory', rfl, hbytes', hsize', hquota', hclean'⟩ := checkpoint_end_memory hd'
  refine ⟨h.config_eq, h.checkpoints_checkpointed visit visit' tick digest, h.fdTable_eq,
    h.pendingIo_eq, rfl, leaf_lt_checkpointed blake3 visit h.leaf_lt tick digest,
    ⟨?_, ?_, ?_, ?_⟩⟩
  · exact hbytes'.trans (h.memory.bytes_eq.trans hbytes.symm)
  · exact hsize'.trans (h.memory.size_eq.trans hsize.symm)
  · exact hquota'.trans (h.memory.quota_eq.trans hquota.symm)
  · intro p hp
    rw [MmapGuardedMemory.pageBytes_congr hbytes]
    apply h.settled_checkpointed visit tick digest
    -- pages clean before in both cells are clean in both afterwards
    by_contra hnone
    simp only [not_or, Bool.not_eq_true] at hnone
    exact hp ((hclean' p hnone.2).trans (hclean p hnone.1).symm)

/-- The same turn, with the same result and digest, ends in related cells whatever the rings
of the two sides do. -/
theorem cycleEnd (h : Alike blake3 c c') {visit visit' : VisitOrder}
    {replication replication' ring ring' : Option DeltaRing} {outcome : DispatchOutcome}
    {result : Except QuantumFault UInt64} {digest : Hash} {stored stored' : Cell}
    {reported reported' : Except SupervisorError (Option (CellId × Tick))}
    (hend : Supervisor.CycleEnd blake3 visit replication outcome result digest c reported stored
      ring)
    (hend' : Supervisor.CycleEnd blake3 visit' replication' outcome result digest c' reported'
      stored' ring') : Alike blake3 stored stored' := by
  rcases hend.stored_cases with ⟨hkept, hstored⟩ | ⟨⟨n, hok⟩, hon, hstored⟩ <;>
    rcases hend'.stored_cases with ⟨hkept', hstored'⟩ | ⟨⟨n', hok'⟩, hon', hstored'⟩
  · rw [hstored, hstored']
    exact h
  · -- neither side checkpoints where the other does not
    rcases hkept with ⟨fault, hfault⟩ | hoff
    · rw [hfault] at hok'
      cases hok'
    · exact absurd (hoff.symm.trans hon') Bool.false_ne_true
  · rcases hkept' with ⟨fault, hfault⟩ | hoff
    · rw [hok] at hfault
      cases hfault
    · exact absurd (hoff.symm.trans hon) Bool.false_ne_true
  · exact h.checkpoint_end hstored hstored'

end Alike
end Cell
end ChronosUvm
