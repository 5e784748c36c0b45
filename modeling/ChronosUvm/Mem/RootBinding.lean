import Mathlib.Tactic
import ChronosUvm.Mem.Smt

/-!
The sparse root as a commitment to all pages. Whatever pages the two trees store, their
roots are roots of complete trees, so equal roots over different pages give two
different strings with one hash on a path from the root to a page that differs.
-/
namespace ChronosUvm
namespace SparseMerkleTree

/-- The strings hashed for the complete tree over the pages: the pages themselves and, at
every height, the pairs of children. -/
inductive HashedFor (blake3 : Blake3) (page : ℕ → List UInt8) : List UInt8 → Prop where
  | page {i : ℕ} (hi : i < 2 ^ treeDepth) : HashedFor blake3 page (page i)
  | pair {d p : ℕ} (hd : d < treeDepth) (hp : p < 2 ^ (treeDepth - 1 - d)) :
      HashedFor blake3 page
        ((HashTree.node (hashPair blake3) (fun i => blake3 (page i)) d (2 * p)).toList ++
          (HashTree.node (hashPair blake3) (fun i => blake3 (page i)) d (2 * p + 1)).toList)

/-- Two complete trees with one root over pages that differ somewhere. -/
theorem collision_of_fullRoot_eq {blake3 : Blake3} {page page' : ℕ → List UInt8}
    (hroot : fullRoot blake3 page = fullRoot blake3 page') {i : ℕ} (hi : i < 2 ^ treeDepth)
    (hne : page i ≠ page' i) :
    ∃ x y, HashedFor blake3 page x ∧ HashedFor blake3 page' y ∧ x ≠ y ∧ blake3 x = blake3 y ∧
      (x = page i ∧ y = page' i ∨ x.length = 64 ∧ y.length = 64) := by
  by_cases hleaf : blake3 (page i) = blake3 (page' i)
  · exact ⟨page i, page' i, .page hi, .page hi, hne, hleaf, .inl ⟨rfl, rfl⟩⟩
  · obtain ⟨d, p, hd, hp, hpair, hnode⟩ :=
      HashTree.exists_pair_of_node_eq (Nat.div_eq_of_lt hi) hleaf hroot
    have hp' : p < 2 ^ (treeDepth - 1 - d) := (Nat.div_eq_zero_iff_lt (by positivity)).mp hp
    refine ⟨_, _, .pair hd hp', .pair hd hp', ?_, hnode, .inr ⟨by simp, by simp⟩⟩
    intro heq
    obtain ⟨hleft, hright⟩ := List.append_inj heq (by simp)
    exact hpair (Prod.ext (List.ofFn_injective hleft) (List.ofFn_injective hright))

theorem length_lastBytes {updates : List (ℕ × List UInt8)}
    (h : ∀ u ∈ updates, u.2.length = pageSize) (i : ℕ) :
    (lastBytes updates i).length = pageSize := by
  unfold lastBytes
  cases hfind : updates.reverse.find? (fun u => u.1 = i) with
  | none => exact List.length_ofFn
  | some u => exact h u (List.mem_reverse.mp (List.mem_of_find?_eq_some hfind))

/-- The root is binding. Two trees built by any updates, visited in any orders, that have one
root while some page differs: two distinct strings with one hash are among the pages and the
child pairs hashed for the two complete trees. -/
theorem root_binding (blake3 : Blake3) (updates updates' : List (ℕ × List UInt8))
    (visit visit' : VisitOrder)
    (hupdates : ∀ u ∈ updates, u.1 < 2 ^ 32 ∧ u.2.length = pageSize)
    (hupdates' : ∀ u ∈ updates', u.1 < 2 ^ 32 ∧ u.2.length = pageSize)
    (hroot : (updateAll blake3 new updates).root blake3 visit =
      (updateAll blake3 new updates').root blake3 visit')
    (i : ℕ) (hi : i < 2 ^ 32) (hne : lastBytes updates i ≠ lastBytes updates' i) :
    ∃ x y, HashedFor blake3 (lastBytes updates) x ∧ HashedFor blake3 (lastBytes updates') y ∧
      x ≠ y ∧ blake3 x = blake3 y ∧
      (x.length = pageSize ∧ y.length = pageSize ∨ x.length = 64 ∧ y.length = 64) := by
  rw [root_updateAll blake3 updates (fun u hu => (hupdates u hu).1) visit,
    root_updateAll blake3 updates' (fun u hu => (hupdates' u hu).1) visit'] at hroot
  obtain ⟨x, y, hx, hy, hxy, hhash, hlength⟩ := collision_of_fullRoot_eq hroot hi hne
  refine ⟨x, y, hx, hy, hxy, hhash, ?_⟩
  rcases hlength with ⟨rfl, rfl⟩ | hlength
  · exact .inl ⟨length_lastBytes (fun u hu => (hupdates u hu).2) i,
      length_lastBytes (fun u hu => (hupdates' u hu).2) i⟩
  · exact .inr hlength

/-- Under a hash that ignores its input: page 0 rewritten around page 3, and two other pages. -/
theorem root_binding_rewritten :
    ∃ updates updates' : List (ℕ × List UInt8),
      updates = [(0, List.replicate pageSize 1), (3, List.replicate pageSize 2),
        (0, List.replicate pageSize 4)] ∧
      updates' = [(8, List.replicate pageSize 1), (3, List.replicate pageSize 2)] ∧
      lastBytes updates 0 ≠ lastBytes updates' 0 ∧
      ∃ x y, HashedFor (fun _ _ => 0) (lastBytes updates) x ∧
        HashedFor (fun _ _ => 0) (lastBytes updates') y ∧ x ≠ y := by
  have hne : lastBytes [(0, List.replicate pageSize 1), (3, List.replicate pageSize 2),
      (0, List.replicate pageSize 4)] 0 ≠
      lastBytes [(8, List.replicate pageSize 1), (3, List.replicate pageSize 2)] 0 := by
    intro h
    have hhead : (List.replicate pageSize (4 : UInt8))[0]? = (List.ofFn zeroPage)[0]? :=
      congrArg (fun l => l[0]?) h
    rw [List.getElem?_ofFn, List.getElem?_replicate, dif_pos pageSize_pos,
      if_pos pageSize_pos] at hhead
    cases hhead
  have hconstant (page : ℕ → List UInt8) : fullRoot (fun _ _ => 0) page = fun _ => 0 := rfl
  have hroot : (updateAll (fun _ _ => 0) new [(0, List.replicate pageSize 1),
        (3, List.replicate pageSize 2), (0, List.replicate pageSize 4)]).root (fun _ _ => 0)
        (fun _ => .ascending) =
      (updateAll (fun _ _ => 0) new [(8, List.replicate pageSize 1),
        (3, List.replicate pageSize 2)]).root (fun _ _ => 0) (fun _ => .ascending) := by
    rw [root_updateAll _ _ (by simp), root_updateAll _ _ (by simp), hconstant, hconstant]
  obtain ⟨x, y, hx, hy, hxy, -⟩ := root_binding (fun _ _ => 0) _ _ (fun _ => .ascending)
    (fun _ => .ascending) (by simp) (by simp) hroot 0 (by decide) hne
  exact ⟨_, _, rfl, rfl, hne, x, y, hx, hy, hxy⟩

end SparseMerkleTree
end ChronosUvm
