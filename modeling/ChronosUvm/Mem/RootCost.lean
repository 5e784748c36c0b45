import Mathlib.Tactic
import ChronosUvm.Mem.ChainAudit

/-!
What a checkpoint costs, counted in calls of the hash function. The code is executed with a
counter next to its tables: one call for each dirty page, one for each parent that is not
yet present, one for the link of the chain. The root costs as many calls as the touched
leaves have ancestors, dirty or not, and never more than the tree depth for each leaf.
-/
namespace ChronosUvm
open Tables

namespace SparseMerkleTree

/-- `addParent`, counting the hasher it finalizes. -/
def addParentCounted (blake3 : Blake3) (defaultChild : Hash) (level : HashMap ℕ Hash)
    (next : HashMap ℕ Hash × ℕ) (idx : ℕ) : HashMap ℕ Hash × ℕ :=
  let parent := idx >>> 1
  if parent ∈ next.1 then next
  else (next.1.insert parent (parentHash blake3 defaultChild level parent), next.2 + 1)

def nextLevelCounted (blake3 : Blake3) (defaultChild : Hash) (level : HashMap ℕ Hash)
    (visit : List ℕ) : HashMap ℕ Hash × ℕ :=
  visit.foldl (addParentCounted blake3 defaultChild level) (∅, 0)

def levelAtCounted (blake3 : Blake3) (visit : VisitOrder) (t : SparseMerkleTree) :
    ℕ → HashMap ℕ Hash × ℕ
  | 0 => (t.leaves, 0)
  | depth + 1 =>
    let level := levelAtCounted blake3 visit t depth
    let next := nextLevelCounted blake3 (defaultHashes blake3 depth) level.1
      (visit depth level.1).keys
    (next.1, level.2 + next.2)

def rootCounted (blake3 : Blake3) (visit : VisitOrder) (t : SparseMerkleTree) : Hash × ℕ :=
  if t.leaves.isEmpty then (defaultHashes blake3 treeDepth, 0)
  else
    let level := levelAtCounted blake3 visit t treeDepth
    match (visit treeDepth level.1).entries with
    | [] => (defaultHashes blake3 treeDepth, level.2)
    | e :: _ => (e.2, level.2)

/-- The nodes above the touched leaves, level by level. -/
def ancestors (t : SparseMerkleTree) : ℕ :=
  ∑ depth ∈ Finset.range treeDepth, (t.leaves.keys.image fun i => i / 2 ^ (depth + 1)).card

variable {blake3 : Blake3}

/-- The counter counts the entries of the table. -/
theorem foldl_addParentCounted {defaultChild : Hash} {level acc : HashMap ℕ Hash}
    (visit : List ℕ) :
    visit.foldl (addParentCounted blake3 defaultChild level) (acc, acc.keys.card) =
      (visit.foldl (addParent blake3 defaultChild level) acc,
        (visit.foldl (addParent blake3 defaultChild level) acc).keys.card) := by
  induction visit generalizing acc with
  | nil => rfl
  | cons idx visit ih =>
    have hstep : addParentCounted blake3 defaultChild level (acc, acc.keys.card) idx =
        (addParent blake3 defaultChild level acc idx,
          (addParent blake3 defaultChild level acc idx).keys.card) := by
      unfold addParentCounted addParent
      by_cases hmem : idx >>> 1 ∈ acc
      · simp only [if_pos hmem]
      · simp only [if_neg hmem, HashMap.keys_insert]
        rw [Finset.card_insert_of_notMem fun h => hmem (Finmap.mem_keys.mp h)]
    rw [List.foldl_cons, List.foldl_cons, hstep, ih]

theorem nextLevelCounted_eq (defaultChild : Hash) (level : HashMap ℕ Hash) (visit : List ℕ) :
    nextLevelCounted blake3 defaultChild level visit =
      (nextLevel blake3 defaultChild level visit,
        (nextLevel blake3 defaultChild level visit).keys.card) :=
  foldl_addParentCounted visit

/-- The keys of a level are the ancestors of the leaves. -/
theorem keys_levelAt (blake3 : Blake3) (visit : VisitOrder) (t : SparseMerkleTree) (depth : ℕ) :
    (levelAt blake3 visit t depth).keys = t.leaves.keys.image fun i => i / 2 ^ depth := by
  ext p
  rw [Finmap.mem_keys, mem_levelAt, Finset.mem_image]
  simp only [Finmap.mem_keys]

theorem levelAtCounted_eq (visit : VisitOrder) (t : SparseMerkleTree) (depth : ℕ) :
    levelAtCounted blake3 visit t depth = (levelAt blake3 visit t depth,
      ∑ d ∈ Finset.range depth, (t.leaves.keys.image fun i => i / 2 ^ (d + 1)).card) := by
  induction depth with
  | zero => rfl
  | succ depth ih =>
    have hkeys := keys_levelAt blake3 visit t (depth + 1)
    unfold levelAtCounted
    rw [ih, Finset.sum_range_succ, ← hkeys]
    simp only [nextLevelCounted_eq]
    rfl

/-- The counted run returns the root, and its count is the number of ancestors. -/
theorem rootCounted_eq (visit : VisitOrder) (t : SparseMerkleTree) :
    t.rootCounted blake3 visit = (t.root blake3 visit, t.ancestors) := by
  unfold rootCounted root ancestors
  rw [levelAtCounted_eq]
  split_ifs with hempty
  · rw [HashMap.isEmpty_eq_true.mp hempty]
    simp
  · simp only
    cases (visit treeDepth (levelAt blake3 visit t treeDepth)).entries <;> rfl

/-- No level has more nodes than there are leaves. -/
theorem ancestors_le (t : SparseMerkleTree) : t.ancestors ≤ treeDepth * t.leaves.keys.card := by
  unfold ancestors
  have hlevel := Finset.sum_le_card_nsmul (Finset.range treeDepth)
    (fun depth => (t.leaves.keys.image fun i => i / 2 ^ (depth + 1)).card) t.leaves.keys.card
    fun _ _ => Finset.card_image_le
  rwa [Finset.card_range, smul_eq_mul] at hlevel

/-- Every level has a node as soon as there is a leaf. -/
theorem le_ancestors {t : SparseMerkleTree} {i : ℕ} (h : i ∈ t.leaves) :
    treeDepth ≤ t.ancestors := by
  unfold ancestors
  have hlevel := Finset.card_nsmul_le_sum (Finset.range treeDepth)
    (fun depth => (t.leaves.keys.image fun i => i / 2 ^ (depth + 1)).card) 1
    fun depth _ => Finset.card_pos.mpr
      ⟨i / 2 ^ (depth + 1), Finset.mem_image_of_mem _ (Finmap.mem_keys.mpr h)⟩
  rwa [Finset.card_range, smul_eq_mul, mul_one] at hlevel

end SparseMerkleTree

namespace CheckpointChain

/-- `rehash`, counting one call for each page. -/
def rehashCounted (blake3 : Blake3) (t : SparseMerkleTree) (mem : MmapGuardedMemory)
    (pages : List ℕ) : SparseMerkleTree × ℕ :=
  pages.foldl (fun s p => (s.1.updateLeaf blake3 p (mem.pageBytes p).toList, s.2 + 1)) (t, 0)

/-- `checkpoint`, counting every call of the hash function; the genesis string is hashed
only while there is no entry. -/
def checkpointCounted (blake3 : Blake3) (visit : VisitOrder) (c : CheckpointChain) (tick : Tick)
    (mem : MmapGuardedMemory) (dirty : DirtyPageSet) (registerDigest : Hash) :
    (CheckpointEntry × CheckpointChain) × ℕ :=
  let tree := rehashCounted blake3 c.tree mem dirty.iterDirty
  let smtRoot := tree.1.rootCounted blake3 visit
  let prevChainHash := match c.entries.getLast? with
    | some e => (e.chainHash, 0)
    | none => (genesisHash blake3, 1)
  let chainHash := chainLink blake3 prevChainHash.1 smtRoot.1 registerDigest tick
  let entry : CheckpointEntry := ⟨tick, smtRoot.1, registerDigest, chainHash⟩
  ((entry, ⟨tree.1, c.entries ++ [entry]⟩), tree.2 + smtRoot.2 + prevChainHash.2 + 1)

def checkpointAllCounted (blake3 : Blake3) (c : CheckpointChain) :
    List Call → (List CheckpointEntry × CheckpointChain) × ℕ
  | [] => (([], c), 0)
  | call :: rest =>
    let first := c.checkpointCounted blake3 call.visit call.tick call.mem call.dirty
      call.registerDigest
    let later := checkpointAllCounted blake3 first.1.2 rest
    ((first.1.1 :: later.1.1, later.1.2), first.2 + later.2)

variable {blake3 : Blake3}

theorem rehashCounted_eq (t : SparseMerkleTree) (mem : MmapGuardedMemory) (pages : List ℕ) :
    rehashCounted blake3 t mem pages = (rehash blake3 t mem pages, pages.length) := by
  unfold rehashCounted rehash
  induction pages using List.reverseRecOn with
  | nil => rfl
  | append_singleton pages p ih =>
    rw [List.foldl_append, List.foldl_append, ih, List.length_append]
    rfl

theorem checkpointCounted_eq (visit : VisitOrder) (c : CheckpointChain) (tick : Tick)
    (mem : MmapGuardedMemory) (dirty : DirtyPageSet) (digest : Hash) :
    c.checkpointCounted blake3 visit tick mem dirty digest =
      (c.checkpoint blake3 visit tick mem dirty digest, dirty.iterDirty.length +
        (c.checkpoint blake3 visit tick mem dirty digest).2.tree.ancestors +
        (if c.entries = [] then 1 else 0) + 1) := by
  unfold checkpointCounted
  rw [rehashCounted_eq]
  simp only [SparseMerkleTree.rootCounted_eq]
  unfold checkpoint
  rcases List.eq_nil_or_concat c.entries with hnil | ⟨init, last, hlast⟩
  · simp only [hnil, List.getLast?_nil, if_true]
  · simp [hlast]

/-- The leaves after some calls are those of before and every page that was dirty. -/
theorem keys_checkpointAll (c : CheckpointChain) (calls : List Call) :
    (checkpointAll blake3 c calls).2.tree.leaves.keys =
      c.tree.leaves.keys ∪ (calls.flatMap fun call => call.dirty.iterDirty).toFinset := by
  induction calls generalizing c with
  | nil => simp [checkpointAll]
  | cons call calls ih =>
    have hfirst : (c.checkpoint blake3 call.visit call.tick call.mem call.dirty
        call.registerDigest).2.tree.leaves.keys =
          c.tree.leaves.keys ∪ call.dirty.iterDirty.toFinset := by
      ext i
      show i ∈ (rehash blake3 c.tree call.mem call.dirty.iterDirty).leaves.keys ↔ _
      rw [Finmap.mem_keys, HashMap.mem_iff_get?, get?_rehash, Finset.mem_union, Finmap.mem_keys,
        HashMap.mem_iff_get?, List.mem_toFinset]
      by_cases hi : i ∈ call.dirty.iterDirty
      · simp [hi]
      · simp [hi]
    rw [List.flatMap_cons, List.toFinset_append, ← Finset.union_assoc, ← hfirst]
    exact ih _

/-- The cost of a sequence of calls, from any chain. -/
theorem checkpointAllCounted_eq (c : CheckpointChain) (calls : List Call) :
    checkpointAllCounted blake3 c calls = (checkpointAll blake3 c calls,
      (calls.map fun call => call.dirty.iterDirty.length).sum +
        ∑ k ∈ Finset.range calls.length,
          (checkpointAll blake3 c (calls.take (k + 1))).2.tree.ancestors +
        (if c.entries = [] ∧ calls ≠ [] then 1 else 0) + calls.length) := by
  induction calls generalizing c with
  | nil => simp [checkpointAllCounted, checkpointAll]
  | cons call calls ih =>
    have hentries : (c.checkpoint blake3 call.visit call.tick call.mem call.dirty
        call.registerDigest).2.entries ≠ [] := List.append_ne_nil_of_right_ne_nil _ (by simp)
    unfold checkpointAllCounted
    simp only [checkpointCounted_eq, ih]
    rw [List.map_cons, List.sum_cons, List.length_cons, Finset.sum_range_succ']
    simp only [hentries, false_and, if_false, ne_eq, reduceCtorEq, not_false_eq_true, and_true]
    refine Prod.ext rfl ?_
    simp only [List.take_succ_cons, checkpointAll, List.take_zero]
    omega

/-- What the integrity chain costs. The counted calls return what the calls return. On a fresh
chain their cost is one hash for each dirty page, one for each ancestor of a page touched so far
and one for the link, and the genesis string once; so every checkpoint pays for all pages ever
touched, dirty or not, but never more than the depth of the tree for each. -/
theorem checkpoint_cost (blake3 : Blake3) (calls : List Call) :
    (checkpointAllCounted blake3 new calls).1 = checkpointAll blake3 new calls ∧
    (checkpointAllCounted blake3 new calls).2 =
      (calls.map fun call => call.dirty.iterDirty.length).sum +
        ∑ k ∈ Finset.range calls.length,
          (checkpointAll blake3 new (calls.take (k + 1))).2.tree.ancestors +
        (if calls = [] then 0 else 1) + calls.length ∧
    ∀ k, (checkpointAll blake3 new (calls.take k)).2.tree.ancestors ≤
        treeDepth * ((calls.take k).flatMap fun call => call.dirty.iterDirty).toFinset.card ∧
      ((∃ call ∈ calls.take k, call.dirty.iterDirty ≠ []) →
        treeDepth ≤ (checkpointAll blake3 new (calls.take k)).2.tree.ancestors) := by
  have hkeys (k : ℕ) : (checkpointAll blake3 new (calls.take k)).2.tree.leaves.keys =
      ((calls.take k).flatMap fun call => call.dirty.iterDirty).toFinset := by
    rw [keys_checkpointAll]
    exact Finset.empty_union _
  refine ⟨?_, ?_, ?_⟩
  · rw [checkpointAllCounted_eq]
  · rw [checkpointAllCounted_eq]
    cases calls <;> simp [new]
  · intro k
    constructor
    · rw [← hkeys]
      exact SparseMerkleTree.ancestors_le _
    · rintro ⟨call, hcall, hdirty⟩
      obtain ⟨i, hi⟩ := List.exists_mem_of_ne_nil _ hdirty
      apply SparseMerkleTree.le_ancestors (i := i)
      rw [← Finmap.mem_keys, hkeys, List.mem_toFinset]
      exact List.mem_flatMap.mpr ⟨call, hcall, hi⟩

end CheckpointChain
end ChronosUvm
