import Mathlib.Tactic

/-!
Complete binary hash trees over an arbitrary combining function, and sparse
levels that store some of the nodes of one height. A level is the lookup function
of whatever table holds it; a missing entry stands for the empty node.
-/
namespace HashTree

variable {H : Type}

/-- Node `i` at height `d`; its subtree has the leaves `i * 2 ^ d` and up. -/
def node (combine : H → H → H) (leaf : ℕ → H) : ℕ → ℕ → H
  | 0, i => leaf i
  | d + 1, i => combine (node combine leaf d (2 * i)) (node combine leaf d (2 * i + 1))

def emptyNode (combine : H → H → H) (z : H) : ℕ → H
  | 0 => z
  | d + 1 => combine (emptyNode combine z d) (emptyNode combine z d)

/-- A node depends only on the leaves below it. -/
theorem node_congr {combine : H → H → H} {leaf leaf' : ℕ → H} (d k : ℕ)
    (h : ∀ i, i / 2 ^ d = k → leaf i = leaf' i) :
    node combine leaf d k = node combine leaf' d k := by
  induction d generalizing k with
  | zero => exact h k (by simp)
  | succ d ih =>
    have hchild (c : ℕ) (hc : c / 2 = k) (i : ℕ) (hi : i / 2 ^ d = c) : leaf i = leaf' i := by
      apply h
      rw [pow_succ, ← Nat.div_div_eq_div_mul, hi, hc]
    unfold node
    rw [ih (2 * k) (hchild _ (by omega)), ih (2 * k + 1) (hchild _ (by omega))]

/-- Two trees with one root and a leaf in which they differ combine two different pairs of
children to one node, at some node above the leaf. -/
theorem exists_pair_of_node_eq {combine : H → H → H} {leaf leaf' : ℕ → H} {d k i : ℕ}
    (hi : i / 2 ^ d = k) (hne : leaf i ≠ leaf' i)
    (h : node combine leaf d k = node combine leaf' d k) :
    ∃ e p, e < d ∧ p / 2 ^ (d - 1 - e) = k ∧
      (node combine leaf e (2 * p), node combine leaf e (2 * p + 1)) ≠
        (node combine leaf' e (2 * p), node combine leaf' e (2 * p + 1)) ∧
      node combine leaf (e + 1) p = node combine leaf' (e + 1) p := by
  induction d generalizing k with
  | zero =>
    rw [pow_zero, Nat.div_one] at hi
    rw [← hi] at h
    exact absurd h hne
  | succ d ih =>
    by_cases hpair : (node combine leaf d (2 * k), node combine leaf d (2 * k + 1)) =
        (node combine leaf' d (2 * k), node combine leaf' d (2 * k + 1))
    · -- the children agree, so the search goes on below the child that the leaf is under
      obtain ⟨hleft, hright⟩ := Prod.mk.inj hpair
      have hparent : i / 2 ^ d / 2 = k := by rw [Nat.div_div_eq_div_mul, ← pow_succ, hi]
      have hchild : node combine leaf d (i / 2 ^ d) = node combine leaf' d (i / 2 ^ d) := by
        rcases Nat.mod_two_eq_zero_or_one (i / 2 ^ d) with hmod | hmod
        · rwa [show i / 2 ^ d = 2 * k by omega]
        · rwa [show i / 2 ^ d = 2 * k + 1 by omega]
      obtain ⟨e, p, he, hp, hrest⟩ := ih rfl hchild
      refine ⟨e, p, by omega, ?_, hrest⟩
      rw [show d + 1 - 1 - e = d - 1 - e + 1 by omega, pow_succ, ← Nat.div_div_eq_div_mul, hp,
        hparent]
    · exact ⟨d, k, by omega, by simp, hpair, h⟩

/-- A stored level agrees with the full tree everywhere, missing nodes read as empty. -/
def Represents (combine : H → H → H) (z : H) (leaf : ℕ → H) (d : ℕ)
    (level : ℕ → Option H) : Prop :=
  ∀ i, (level i).getD (emptyNode combine z d) = node combine leaf d i

/-- The hash computed for a parent from its two stored or missing children. -/
def parent (combine : H → H → H) (missing : H) (level : ℕ → Option H) (p : ℕ) : H :=
  combine ((level (2 * p)).getD missing) ((level (2 * p + 1)).getD missing)

/-- Storing the parents of all stored nodes, and no others, goes up one level. -/
theorem Represents.climb {combine : H → H → H} {z : H} {leaf : ℕ → H} {d : ℕ}
    {level next : ℕ → Option H} (h : Represents combine z leaf d level)
    (hstored : ∀ i, (level i).isSome → next (i / 2) =
      some (parent combine (emptyNode combine z d) level (i / 2)))
    (hnext : ∀ p, next p = none ∨
      next p = some (parent combine (emptyNode combine z d) level p)) :
    Represents combine z leaf (d + 1) next := by
  intro p
  have hparent : parent combine (emptyNode combine z d) level p = node combine leaf (d + 1) p := by
    unfold parent
    rw [h, h, node]
  rcases hnext p with hp | hp
  · -- neither child is stored, so the parent is the combination of two empty nodes
    have hmissing (i : ℕ) (hi : i / 2 = p) : level i = none := by
      by_contra hne
      have := hstored i (Option.isSome_iff_ne_none.mpr hne)
      rw [hi, hp] at this
      cases this
    rw [hp, ← hparent, parent, hmissing (2 * p) (by omega), hmissing (2 * p + 1) (by omega)]
    rfl
  · rw [hp, Option.getD_some, hparent]

end HashTree
