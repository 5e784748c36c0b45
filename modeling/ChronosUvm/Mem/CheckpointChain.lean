import Mathlib.Tactic
import ChronosUvm.Mem.Smt

/-! The append-only chain of checkpoint entries over the sparse Merkle tree. -/
namespace ChronosUvm
open Tables

structure CheckpointEntry where
  tick : Tick
  smtRoot : Hash
  registerDigest : Hash
  chainHash : Hash

structure CheckpointChain where
  tree : SparseMerkleTree
  entries : List CheckpointEntry

/-- `u64::to_le_bytes` -/
def toLeBytes (n : UInt64) : List UInt8 :=
  List.ofFn fun i : Fin 8 => (n >>> UInt64.ofNat (8 * i)).toUInt8

def genesisHash (blake3 : Blake3) : Hash := blake3 "chronos-uvm-genesis".toUTF8.toList

def chainLink (blake3 : Blake3) (prevChainHash smtRoot registerDigest : Hash) (tick : Tick) :
    Hash :=
  blake3 (prevChainHash.toList ++ smtRoot.toList ++ registerDigest.toList ++ toLeBytes tick)

namespace CheckpointChain

def new : CheckpointChain := ⟨SparseMerkleTree.new, []⟩

/-- Rehash the pages listed dirty. -/
def rehash (blake3 : Blake3) (t : SparseMerkleTree) (mem : MmapGuardedMemory) (pages : List ℕ) :
    SparseMerkleTree :=
  pages.foldl (fun t p => t.updateLeaf blake3 p (mem.pageBytes p).toList) t

def checkpoint (blake3 : Blake3) (visit : VisitOrder) (c : CheckpointChain) (tick : Tick)
    (mem : MmapGuardedMemory) (dirty : DirtyPageSet) (registerDigest : Hash) :
    CheckpointEntry × CheckpointChain :=
  let tree := rehash blake3 c.tree mem dirty.iterDirty
  let smtRoot := tree.root blake3 visit
  let prevChainHash := match c.entries.getLast? with
    | some e => e.chainHash
    | none => genesisHash blake3
  let chainHash := chainLink blake3 prevChainHash smtRoot registerDigest tick
  let entry : CheckpointEntry := ⟨tick, smtRoot, registerDigest, chainHash⟩
  (entry, ⟨tree, c.entries ++ [entry]⟩)

variable (blake3 : Blake3)

/-- The entry that follows the given ones. -/
def nextEntry (entries : List CheckpointEntry) (tick : Tick) (smtRoot registerDigest : Hash) :
    CheckpointEntry :=
  let prevChainHash := match entries.getLast? with
    | some e => e.chainHash
    | none => genesisHash blake3
  ⟨tick, smtRoot, registerDigest, chainLink blake3 prevChainHash smtRoot registerDigest tick⟩

/-- A checkpoint appends the entry of the rehashed tree. -/
theorem checkpoint_eq (visit : VisitOrder) (c : CheckpointChain) (tick : Tick)
    (mem : MmapGuardedMemory) (dirty : DirtyPageSet) (digest : Hash) :
    (c.checkpoint blake3 visit tick mem dirty digest).2 =
      ⟨(c.checkpoint blake3 visit tick mem dirty digest).2.tree, c.entries ++
        [nextEntry blake3 c.entries tick
          ((c.checkpoint blake3 visit tick mem dirty digest).2.tree.root blake3 visit) digest]⟩ :=
  rfl

theorem get?_rehash (t : SparseMerkleTree) (mem : MmapGuardedMemory) (pages : List ℕ) (i : ℕ) :
    (rehash blake3 t mem pages).leaves.get? i =
      if i ∈ pages then some (blake3 (mem.pageBytes i).toList) else t.leaves.get? i := by
  induction pages using List.reverseRecOn with
  | nil => rfl
  | append_singleton pages p ih =>
    rw [rehash, List.foldl_append, List.foldl_cons, List.foldl_nil, ← rehash,
      SparseMerkleTree.updateLeaf, HashMap.get?_insert, ih]
    by_cases hi : i = p
    · simp [hi]
    · simp [hi]

/-- After a checkpoint the dirty pages' leaves are current and the others are as before. -/
theorem get?_checkpoint (visit : VisitOrder) (c : CheckpointChain) (tick : Tick)
    (mem : MmapGuardedMemory) (digest : Hash) (i : ℕ) :
    (c.checkpoint blake3 visit tick mem mem.dirty digest).2.tree.leaves.get? i =
      if mem.dirty.isDirty i then some (blake3 (mem.pageBytes i).toList)
      else c.tree.leaves.get? i := by
  unfold checkpoint
  rw [get?_rehash]
  simp only [DirtyPageSet.mem_iterDirty]

end CheckpointChain
end ChronosUvm
