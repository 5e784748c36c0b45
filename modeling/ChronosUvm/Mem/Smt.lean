import Mathlib.Tactic
import ChronosUvm.Foundations.HashTree
import ChronosUvm.Foundations.Tables
import ChronosUvm.Mem.GuardedMemory

/-!
The sparse Merkle tree over a cell's pages. BLAKE3 is an arbitrary function on
byte strings. Each hash table inside `root` may be visited in any order, which the
caller supplies as one iteration for every level and table.
-/
namespace ChronosUvm
open Tables

abbrev Hash := Bytes 32

abbrev Blake3 := List UInt8 → Hash

def treeDepth : ℕ := 32

/-- Feeding two digests to one hasher hashes their concatenation. -/
def hashPair (blake3 : Blake3) (left right : Hash) : Hash :=
  blake3 (left.toList ++ right.toList)

def defaultHashes (blake3 : Blake3) : ℕ → Hash :=
  HashTree.emptyNode (hashPair blake3) (blake3 zeroPage.toList)

/-- The table of default hashes is the same for every tree and is not stored. -/
structure SparseMerkleTree where
  leaves : HashMap ℕ Hash

/-- The iteration order of every table that one call of `root` visits. -/
abbrev VisitOrder := ℕ → (level : HashMap ℕ Hash) → Iteration level

namespace SparseMerkleTree

def new : SparseMerkleTree := ⟨∅⟩

def updateLeaf (blake3 : Blake3) (t : SparseMerkleTree) (pageIdx : ℕ)
    (pageBytes : List UInt8) : SparseMerkleTree :=
  ⟨t.leaves.insert pageIdx (blake3 pageBytes)⟩

def leafHash (blake3 : Blake3) (t : SparseMerkleTree) (pageIdx : ℕ) : Hash :=
  (t.leaves.get? pageIdx).getD (defaultHashes blake3 0)

/-- The hash inserted for a parent that is not yet present. -/
def parentHash (blake3 : Blake3) (defaultChild : Hash) (level : HashMap ℕ Hash)
    (parent : ℕ) : Hash :=
  let leftIdx := parent <<< 1
  let rightIdx := leftIdx + 1
  hashPair blake3 ((level.get? leftIdx).getD defaultChild)
    ((level.get? rightIdx).getD defaultChild)

/-- The body of the loop over one level's keys. -/
def addParent (blake3 : Blake3) (defaultChild : Hash) (level next : HashMap ℕ Hash)
    (idx : ℕ) : HashMap ℕ Hash :=
  let parent := idx >>> 1
  if parent ∈ next then next
  else next.insert parent (parentHash blake3 defaultChild level parent)

def nextLevel (blake3 : Blake3) (defaultChild : Hash) (level : HashMap ℕ Hash)
    (visit : List ℕ) : HashMap ℕ Hash :=
  visit.foldl (addParent blake3 defaultChild level) ∅

/-- The table held after `depth` rounds of the outer loop. -/
def levelAt (blake3 : Blake3) (visit : VisitOrder) (t : SparseMerkleTree) : ℕ → HashMap ℕ Hash
  | 0 => t.leaves
  | depth + 1 =>
    let level := levelAt blake3 visit t depth
    nextLevel blake3 (defaultHashes blake3 depth) level (visit depth level).keys

def root (blake3 : Blake3) (visit : VisitOrder) (t : SparseMerkleTree) : Hash :=
  if t.leaves.isEmpty then defaultHashes blake3 treeDepth
  else
    let level := levelAt blake3 visit t treeDepth
    match (visit treeDepth level).entries with
    | [] => defaultHashes blake3 treeDepth
    | e :: _ => e.2

variable (blake3 : Blake3)

theorem parentHash_eq (defaultChild : Hash) (level : HashMap ℕ Hash) (p : ℕ) :
    parentHash blake3 defaultChild level p =
      HashTree.parent (hashPair blake3) defaultChild level.get? p := by
  have hleft : p <<< 1 = 2 * p := by rw [Nat.shiftLeft_eq, pow_one, Nat.mul_comm]
  unfold parentHash
  simp only [HashTree.parent, hleft]

/-- Every visited key's parent is stored with its hash, whoever was visited first. -/
theorem get?_addParent {blake3 : Blake3} {defaultChild : Hash} {level acc : HashMap ℕ Hash}
    (idx p : ℕ)
    (hacc : ∀ q h, acc.get? q = some h → h = parentHash blake3 defaultChild level q) :
    HashMap.get? (addParent blake3 defaultChild level acc idx) p =
      if idx / 2 = p then some (parentHash blake3 defaultChild level p) else acc.get? p := by
  unfold addParent
  simp only [Nat.shiftRight_one]
  by_cases hmem : idx / 2 ∈ acc
  · obtain ⟨h, hh⟩ := HashMap.mem_iff_get?.mp hmem
    rw [if_pos hmem]
    split_ifs with hp
    · rw [← hp, hh, hacc _ _ hh]
    · rfl
  · rw [if_neg hmem, HashMap.get?_insert]
    by_cases hp : idx / 2 = p
    · rw [if_pos hp.symm, if_pos hp, hp]
    · rw [if_neg (Ne.symm hp), if_neg hp]

theorem get?_foldl_addParent {blake3 : Blake3} {defaultChild : Hash}
    {level acc : HashMap ℕ Hash} (visit : List ℕ) (p : ℕ)
    (hacc : ∀ q h, acc.get? q = some h → h = parentHash blake3 defaultChild level q) :
    HashMap.get? (visit.foldl (addParent blake3 defaultChild level) acc) p =
      if ∃ idx ∈ visit, idx / 2 = p then some (parentHash blake3 defaultChild level p)
      else acc.get? p := by
  induction visit generalizing acc with
  | nil => simp
  | cons idx visit ih =>
    rw [List.foldl_cons, ih]
    · rw [get?_addParent idx p hacc]
      by_cases hrest : ∃ i ∈ visit, i / 2 = p
      · obtain ⟨i, hi, hp⟩ := hrest
        rw [if_pos ⟨i, hi, hp⟩, if_pos ⟨i, List.mem_cons_of_mem _ hi, hp⟩]
      · by_cases hidx : idx / 2 = p
        · rw [if_neg hrest, if_pos hidx, if_pos ⟨idx, List.mem_cons_self, hidx⟩]
        · rw [if_neg hrest, if_neg hidx, if_neg]
          rintro ⟨i, hi, hp⟩
          rcases List.mem_cons.mp hi with rfl | hi
          · exact hidx hp
          · exact hrest ⟨i, hi, hp⟩
    · intro q h hq
      rw [get?_addParent idx q hacc] at hq
      split_ifs at hq
      · exact (Option.some.inj hq).symm
      · exact hacc q h hq

theorem get?_nextLevel (defaultChild : Hash) (level : HashMap ℕ Hash) (visit : List ℕ)
    (p : ℕ) :
    HashMap.get? (nextLevel blake3 defaultChild level visit) p =
      if ∃ idx ∈ visit, idx / 2 = p then some (parentHash blake3 defaultChild level p)
      else none := by
  have hempty (q : ℕ) (h : Hash) (hq : (∅ : HashMap ℕ Hash).get? q = some h) :
      h = parentHash blake3 defaultChild level q := by
    simp at hq
  unfold nextLevel
  rw [get?_foldl_addParent visit p hempty, HashMap.get?_empty]

/-- Level by level, the stored table stands for the complete tree. -/
theorem levelAt_represents (visit : VisitOrder) (t : SparseMerkleTree) (depth : ℕ) :
    HashTree.Represents (hashPair blake3) (blake3 zeroPage.toList) (t.leafHash blake3) depth
      (levelAt blake3 visit t depth).get? := by
  induction depth with
  | zero => exact fun i => rfl
  | succ depth ih =>
    apply ih.climb
    · intro i hi
      have hmem : i ∈ (visit depth (levelAt blake3 visit t depth)).keys := by
        rw [Iteration.mem_keys]
        exact HashMap.mem_iff_get?.mpr (Option.isSome_iff_exists.mp hi)
      rw [levelAt, get?_nextLevel, if_pos ⟨i, hmem, rfl⟩, parentHash_eq]
      rfl
    · intro p
      rw [levelAt, get?_nextLevel]
      split_ifs
      · right
        rw [parentHash_eq]
        rfl
      · left
        rfl

theorem mem_levelAt_succ (visit : VisitOrder) (t : SparseMerkleTree) (depth p : ℕ) :
    p ∈ levelAt blake3 visit t (depth + 1) ↔ ∃ i ∈ levelAt blake3 visit t depth, i / 2 = p := by
  rw [HashMap.mem_iff_get?, levelAt, get?_nextLevel]
  have hkeys : (∃ i ∈ (visit depth (levelAt blake3 visit t depth)).keys, i / 2 = p) ↔
      ∃ i ∈ levelAt blake3 visit t depth, i / 2 = p := by
    simp only [Iteration.mem_keys]
  split_ifs with h
  · exact ⟨fun _ => hkeys.mp h, fun _ => ⟨_, rfl⟩⟩
  · constructor
    · intro ⟨_, hb⟩
      cases hb
    · intro hp
      exact absurd (hkeys.mpr hp) h

theorem mem_levelAt (visit : VisitOrder) (t : SparseMerkleTree) (depth p : ℕ) :
    p ∈ levelAt blake3 visit t depth ↔ ∃ i ∈ t.leaves, i / 2 ^ depth = p := by
  induction depth generalizing p with
  | zero => simp [levelAt]
  | succ depth ih =>
    simp only [mem_levelAt_succ, ih, pow_succ, ← Nat.div_div_eq_div_mul]
    constructor
    · rintro ⟨_, ⟨i, hi, rfl⟩, rfl⟩
      exact ⟨i, hi, rfl⟩
    · rintro ⟨i, hi, rfl⟩
      exact ⟨_, ⟨i, hi, rfl⟩, rfl⟩

/-- Below the leaf bound the only node of the last level is the root of the full tree. -/
theorem root_eq_node (visit : VisitOrder) {t : SparseMerkleTree}
    (hbound : ∀ i ∈ t.leaves, i < 2 ^ treeDepth) :
    t.root blake3 visit = HashTree.node (hashPair blake3) (t.leafHash blake3) treeDepth 0 := by
  have hrep := levelAt_represents blake3 visit t treeDepth 0
  have hlast (p : ℕ) : p ∈ levelAt blake3 visit t treeDepth ↔ p = 0 ∧ ∃ i, i ∈ t.leaves := by
    rw [mem_levelAt]
    constructor
    · rintro ⟨i, hi, rfl⟩
      exact ⟨Nat.div_eq_of_lt (hbound i hi), i, hi⟩
    · rintro ⟨rfl, i, hi⟩
      exact ⟨i, hi, Nat.div_eq_of_lt (hbound i hi)⟩
  unfold root
  split_ifs with hempty
  · rw [HashMap.isEmpty_eq_true] at hempty
    have hnone : HashMap.get? (levelAt blake3 visit t treeDepth) 0 = none := by
      rw [HashMap.get?_eq_none, hlast]
      simp [hempty, Finmap.notMem_empty]
    rw [hnone] at hrep
    exact hrep
  · obtain ⟨i, hi⟩ := HashMap.exists_mem_of_not_isEmpty hempty
    have hmem : (0 : ℕ) ∈ levelAt blake3 visit t treeDepth := (hlast 0).mpr ⟨rfl, i, hi⟩
    dsimp only
    generalize visit treeDepth (levelAt blake3 visit t treeDepth) = it
    cases hit : it.entries with
    | nil =>
      obtain ⟨v, hv⟩ := HashMap.mem_iff_get?.mp hmem
      have := it.mem_entries.mpr hv
      simp [hit] at this
    | cons e rest =>
      have he := it.mem_entries.mp (show (⟨e.1, e.2⟩ : Σ _ : ℕ, Hash) ∈ it.entries by simp [hit])
      have hzero : e.1 = 0 := ((hlast e.1).mp (HashMap.mem_iff_get?.mpr ⟨e.2, he⟩)).1
      rw [hzero] at he
      rw [he] at hrep
      exact hrep

/-- A sequence of leaf updates, each a page index and the bytes given for it. -/
def updateAll (t : SparseMerkleTree) (updates : List (ℕ × List UInt8)) : SparseMerkleTree :=
  updates.foldl (fun t u => t.updateLeaf blake3 u.1 u.2) t

theorem get?_updateAll (t : SparseMerkleTree) (updates : List (ℕ × List UInt8)) (i : ℕ) :
    (updateAll blake3 t updates).leaves.get? i =
      match updates.reverse.find? (fun u => u.1 = i) with
      | some u => some (blake3 u.2)
      | none => t.leaves.get? i := by
  induction updates using List.reverseRecOn with
  | nil => rfl
  | append_singleton updates u ih =>
    rw [updateAll, List.foldl_append, List.foldl_cons, List.foldl_nil, ← updateAll, updateLeaf,
      HashMap.get?_insert, ih, List.reverse_append, List.reverse_singleton, List.singleton_append,
      List.find?_cons]
    by_cases hi : i = u.1
    · simp [hi]
    · simp [hi, Ne.symm hi]

/-- The bytes last given for a page, or a zero page if it was never updated. -/
def lastBytes (updates : List (ℕ × List UInt8)) (i : ℕ) : List UInt8 :=
  match updates.reverse.find? (fun u => u.1 = i) with
  | some u => u.2
  | none => zeroPage.toList

theorem leafHash_updateAll (updates : List (ℕ × List UInt8)) (i : ℕ) :
    (updateAll blake3 new updates).leafHash blake3 i = blake3 (lastBytes updates i) := by
  unfold leafHash
  rw [get?_updateAll, lastBytes]
  cases updates.reverse.find? (fun u => u.1 = i) with
  | none => rfl
  | some u => rfl

theorem mem_leaves_updateAll {updates : List (ℕ × List UInt8)} {i : ℕ}
    (h : i ∈ (updateAll blake3 new updates).leaves) : ∃ u ∈ updates, u.1 = i := by
  obtain ⟨v, hv⟩ := HashMap.mem_iff_get?.mp h
  rw [get?_updateAll] at hv
  cases hfind : updates.reverse.find? (fun u => u.1 = i) with
  | none =>
    rw [hfind] at hv
    cases hv
  | some u =>
    have hu := List.find?_some hfind
    have hmem := List.mem_of_find?_eq_some hfind
    exact ⟨u, List.mem_reverse.mp hmem, of_decide_eq_true hu⟩

/-- The root of the complete tree of depth 32 over the hashes of the given pages. -/
def fullRoot (page : ℕ → List UInt8) : Hash :=
  HashTree.node (hashPair blake3) (fun i => blake3 (page i)) treeDepth 0

theorem fullRoot_congr {page page' : ℕ → List UInt8}
    (h : ∀ i < 2 ^ treeDepth, blake3 (page i) = blake3 (page' i)) :
    fullRoot blake3 page = fullRoot blake3 page' := by
  apply HashTree.node_congr
  intro i hi
  exact h i ((Nat.div_eq_zero_iff_lt (by positivity)).mp hi)

theorem root_updateAll (updates : List (ℕ × List UInt8)) (hidx : ∀ u ∈ updates, u.1 < 2 ^ 32)
    (visit : VisitOrder) :
    (updateAll blake3 new updates).root blake3 visit = fullRoot blake3 (lastBytes updates) := by
  rw [root_eq_node]
  · unfold fullRoot
    rw [funext (leafHash_updateAll blake3 updates)]
  · intro i hi
    obtain ⟨u, hu, rfl⟩ := mem_leaves_updateAll blake3 hi
    exact hidx u hu

/-- Whatever the order of the updates and of the visits, the sparse root is the root of
the complete tree over the final pages; two sequences with the same final leaf hashes
therefore have the same root, whether or not a default leaf is stored. -/
theorem root_updateAll_eq_fullRoot (updates : List (ℕ × List UInt8))
    (hidx : ∀ u ∈ updates, u.1 < 2 ^ 32) (visit : VisitOrder) :
    (updateAll blake3 new updates).root blake3 visit = fullRoot blake3 (lastBytes updates) ∧
    ∀ (updates' : List (ℕ × List UInt8)) (visit' : VisitOrder),
      (∀ u ∈ updates', u.1 < 2 ^ 32) →
      (∀ i < 2 ^ 32, blake3 (lastBytes updates i) = blake3 (lastBytes updates' i)) →
      (updateAll blake3 new updates).root blake3 visit =
        (updateAll blake3 new updates').root blake3 visit' := by
  refine ⟨root_updateAll blake3 updates hidx visit, ?_⟩
  intro updates' visit' hidx' hsame
  rw [root_updateAll blake3 updates hidx visit, root_updateAll blake3 updates' hidx' visit']
  exact fullRoot_congr blake3 hsame

/-- Three updates of two pages, and one update of each besides a stored default leaf, the tables
visited the other way round. -/
theorem root_updateAll_out_of_order :
    (updateAll (fun l _ => l.headD 0) new [(9, [1, 2]), (0, [5]), (9, [3])]).root
        (fun l _ => l.headD 0) (fun _ => Iteration.ascending) =
      fullRoot (fun l _ => l.headD 0) (lastBytes [(9, [1, 2]), (0, [5]), (9, [3])]) ∧
    (updateAll (fun l _ => l.headD 0) new [(9, [1, 2]), (0, [5]), (9, [3])]).root
        (fun l _ => l.headD 0) (fun _ => Iteration.ascending) =
      (updateAll (fun l _ => l.headD 0) new [(0, [5]), (4, zeroPage.toList), (9, [3])]).root
        (fun l _ => l.headD 0) (fun _ level => ⟨(Iteration.ascending level).entries.reverse,
          (Multiset.coe_reverse _).trans (Iteration.ascending level).entries_eq⟩) := by
  have hsame (i : ℕ) : lastBytes [(9, [1, 2]), (0, [5]), (9, [3])] i =
      lastBytes [(0, [5]), (4, zeroPage.toList), (9, [3])] i := by
    rcases eq_or_ne 9 i with rfl | h9
    · rfl
    · rcases eq_or_ne 0 i with rfl | h0
      · rfl
      · rcases eq_or_ne 4 i with rfl | h4
        · simp [lastBytes]
        · simp [lastBytes, h9, h0, h4]
  obtain ⟨hfull, hsecond⟩ := root_updateAll_eq_fullRoot (fun l _ => l.headD 0)
    [(9, [1, 2]), (0, [5]), (9, [3])] (by simp) fun _ => Iteration.ascending
  exact ⟨hfull, hsecond _ _ (by simp) fun i _ => by rw [hsame]⟩

end SparseMerkleTree
end ChronosUvm
