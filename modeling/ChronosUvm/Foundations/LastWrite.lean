import Mathlib.Tactic

/-!
A place that is written again and again in the order of time holds what the latest write
put there. So a write that a later one covers may as well be lost.
-/
namespace LastWrite

variable {ω β τ : Type*} {touches : ω → Bool} {value : ω → β}

/-- What a place holds after the writes that touch it. -/
def read (touches : ω → Bool) (value : ω → β) (writes : List ω) : Option β :=
  writes.foldl (fun held w => if touches w then some (value w) else held) none

theorem read_concat (writes : List ω) (w : ω) : read touches value (writes ++ [w]) =
    if touches w then some (value w) else read touches value writes := by
  rw [read, List.foldl_append, List.foldl_cons, List.foldl_nil, ← read]

theorem read_of_untouched {writes : List ω} (h : ∀ w ∈ writes, touches w = false) :
    read touches value writes = none := by
  induction writes using List.reverseRecOn with
  | nil => rfl
  | append_singleton writes w ih =>
    rw [read_concat, h w (by simp), ih fun v hv => h v (List.mem_append_left _ hv)]
    rfl

section Timed
variable [Preorder τ] {time : ω → τ} {writes kept : List ω}

/-- The write touches the place, and no later one does. -/
def Latest (touches : ω → Bool) (time : ω → τ) (writes : List ω) (w : ω) : Prop :=
  w ∈ writes ∧ touches w = true ∧ ∀ v ∈ writes, time w < time v → touches v = false

theorem read_of_latest (hsorted : writes.Pairwise fun v w => time v < time w) {w : ω}
    (hw : Latest touches time writes w) : read touches value writes = some (value w) := by
  obtain ⟨hmem, htouch, hlater⟩ := hw
  induction writes using List.reverseRecOn with
  | nil => cases hmem
  | append_singleton writes last ih =>
    obtain ⟨hinit, -, hlast⟩ := List.pairwise_append.mp hsorted
    rw [read_concat]
    rcases List.mem_append.mp hmem with hw | hw
    · rw [hlater last (by simp) (hlast w hw last (List.mem_singleton_self last))]
      exact ih hinit hw fun v hv => hlater v (List.mem_append_left _ hv)
    · obtain rfl := List.mem_singleton.mp hw
      rw [htouch]
      rfl

theorem untouched_or_latest (hsorted : writes.Pairwise fun v w => time v < time w) :
    (∀ w ∈ writes, touches w = false) ∨ ∃ w, Latest touches time writes w := by
  induction writes using List.reverseRecOn with
  | nil => exact .inl fun _ h => (by cases h)
  | append_singleton writes last ih =>
    obtain ⟨hinit, -, hlast⟩ := List.pairwise_append.mp hsorted
    have hbefore (v : ω) (hv : v ∈ writes) : time v < time last :=
      hlast v hv last (List.mem_singleton_self last)
    cases htouch : touches last with
    | true =>
      refine .inr ⟨last, by simp, htouch, ?_⟩
      intro v hv hlater
      rcases List.mem_append.mp hv with hv | hv
      · exact absurd hlater (hbefore v hv).asymm
      · obtain rfl := List.mem_singleton.mp hv
        exact absurd hlater (lt_irrefl _)
    | false =>
      have hstill {P : ω → Prop} (h : ∀ v ∈ writes, P v) (hl : P last) :
          ∀ v ∈ writes ++ [last], P v := by
        intro v hv
        rcases List.mem_append.mp hv with hv | hv
        · exact h v hv
        · obtain rfl := List.mem_singleton.mp hv
          exact hl
      rcases ih hinit with hnone | ⟨w, hmem, hw, hlater⟩
      · exact .inl (hstill hnone htouch)
      · exact .inr ⟨w, List.mem_append_left _ hmem, hw, hstill hlater fun _ => htouch⟩

/-- What was kept of the writes, in the order of time, is a part of them. -/
theorem sublist_of_subset (hsorted : writes.Pairwise fun v w => time v < time w)
    (hkept : kept.Pairwise fun v w => time v < time w) (hsub : kept ⊆ writes) :
    kept.Sublist writes := by
  let before (v w : ω) : Prop := time v < time w
  have hantisymm : Std.Antisymm before := ⟨fun _ _ hvw hwv => absurd hwv hvw.asymm⟩
  have hirrefl : Std.Irrefl before := ⟨fun v hv => lt_irrefl (time v) hv⟩
  have hbefore : kept.Pairwise before := hkept
  exact List.sublist_of_subperm_of_pairwise (List.subperm_of_subset hbefore.nodup hsub) hbefore
    hsorted

/-- Lost writes do not show where a later write that was kept covers them. -/
theorem read_of_covered (hsorted : writes.Pairwise fun v w => time v < time w)
    (hkept : kept.Sublist writes)
    (hcovered : ∀ w ∈ writes, w ∉ kept → touches w = true →
      ∃ v ∈ kept, time w < time v ∧ touches v = true) :
    read touches value kept = read touches value writes := by
  have hcases : (∀ w ∈ writes, touches w = false) ∨ ∃ w, Latest touches time writes w :=
    untouched_or_latest hsorted
  rcases hcases with hnone | ⟨w, hw, htouch, hlater⟩
  · rw [read_of_untouched hnone, read_of_untouched fun v hv => hnone v (hkept.subset hv)]
  · have hmem : w ∈ kept := by
      by_contra hlost
      obtain ⟨v, hv, hafter, htouched⟩ := hcovered w hw hlost htouch
      rw [hlater v (hkept.subset hv) hafter] at htouched
      cases htouched
    rw [read_of_latest hsorted ⟨hw, htouch, hlater⟩,
      read_of_latest (hsorted.sublist hkept) ⟨hmem, htouch, fun v hv => hlater v (hkept.subset hv)⟩]

end Timed
end LastWrite
