import Mathlib.Tactic

/-!
A rotating queue seen from one of its members. Between two turns of `c` the
queue is a `Round`: whoever still stands ahead of `c` has not been served since,
and nobody has been served twice. The three edits of the queue keep this.
-/
namespace RoundRobin

variable {α : Type} [DecidableEq α]

/-- The members that are served before `c`. -/
def ahead (c : α) (order : List α) : List α := order.takeWhile fun x => x != c

theorem mem_of_mem_ahead {c x : α} {order : List α} (h : x ∈ ahead c order) : x ∈ order :=
  (List.takeWhile_sublist _).subset h

theorem ahead_cons_self (c : α) (rest : List α) : ahead c (c :: rest) = [] := by simp [ahead]

theorem ahead_cons_of_ne {c y : α} (h : y ≠ c) (rest : List α) :
    ahead c (y :: rest) = y :: ahead c rest := by simp [ahead, h]

/-- Who joins at the back stands behind `c`. -/
theorem ahead_append {c : α} {order : List α} (h : c ∈ order) (more : List α) :
    ahead c (order ++ more) = ahead c order := by
  induction order with
  | nil => simp at h
  | cons y rest ih =>
    rcases eq_or_ne y c with rfl | hy
    · rw [List.cons_append, ahead_cons_self, ahead_cons_self]
    · have hrest : c ∈ rest := List.mem_of_ne_of_mem hy.symm h
      rw [List.cons_append, ahead_cons_of_ne hy, ahead_cons_of_ne hy, ih hrest]

/-- A round of `c`: the queue, and who has been served since the last turn of `c`. -/
structure Round (c : α) (order since : List α) : Prop where
  mem : c ∈ order
  nodup : order.Nodup
  notServed : c ∉ since
  once : since.Nodup
  waiting : ∀ x ∈ ahead c order, x ∉ since

namespace Round
variable {c x y : α} {order since rest : List α}

theorem start (h : (rest ++ [c]).Nodup) : Round c (rest ++ [c]) [] :=
  ⟨by simp, h, by simp, List.nodup_nil, by simp⟩

theorem enqueue (h : Round c order since) (hy : y ∉ order) : Round c (order ++ [y]) since := by
  refine ⟨List.mem_append_left _ h.mem, ?_, h.notServed, h.once, ?_⟩
  · exact List.nodup_append.mpr ⟨h.nodup, List.nodup_singleton y, by
      rintro a ha b hb rfl
      exact hy (List.mem_singleton.mp hb ▸ ha)⟩
  · rw [ahead_append h.mem]
    exact h.waiting

/-- Serving the front member, unless it is the turn of `c` again. -/
theorem rotate (h : Round c (y :: rest) since) (hy : y ≠ c) :
    Round c (rest ++ [y]) (since ++ [y]) := by
  have hc : c ∈ rest := List.mem_of_ne_of_mem hy.symm h.mem
  have hahead : ahead c (rest ++ [y]) = ahead c rest := ahead_append hc [y]
  have hfront : ahead c (y :: rest) = y :: ahead c rest := ahead_cons_of_ne hy rest
  have hyrest : y ∉ rest := (List.nodup_cons.mp h.nodup).1
  have hysince : y ∉ since := h.waiting y (by simp [hfront])
  refine ⟨List.mem_append_left _ hc, ?_, ?_, ?_, ?_⟩
  · exact (List.perm_append_singleton y rest).nodup_iff.mpr h.nodup
  · simpa [hy.symm] using h.notServed
  · simpa [List.nodup_append, h.once] using fun a ha => ne_of_mem_of_not_mem ha hysince
  · intro z hz
    rw [hahead] at hz
    have hzsince : z ∉ since := h.waiting z (by simp [hfront, hz])
    have hzy : z ≠ y := ne_of_mem_of_not_mem (mem_of_mem_ahead hz) hyrest
    simp [hzsince, hzy]

end Round

omit [DecidableEq α] in
/-- A queue of fixed members serves the one at position `p` in every round. -/
theorem head?_rotate_iff {order : List α} (hnodup : order.Nodup) {c : α} {p : ℕ}
    (hc : order[p]? = some c) (t : ℕ) :
    (order.rotate t).head? = some c ↔ ∃ k, t = p + k * order.length := by
  obtain ⟨hp, -⟩ := List.getElem?_eq_some_iff.mp hc
  have hmod : t % order.length < order.length := Nat.mod_lt t (by omega)
  rw [← List.rotate_mod, List.head?_rotate hmod, ← hc]
  constructor
  · intro heq
    have hsame : t % order.length = p := (List.getElem?_inj hmod hnodup).mp heq
    refine ⟨t / order.length, ?_⟩
    rw [← hsame, Nat.mul_comm]
    exact (Nat.mod_add_div t order.length).symm
  · rintro ⟨k, rfl⟩
    rw [Nat.add_mul_mod_self_right, Nat.mod_eq_of_lt hp]

section Serving
variable {β : Type}

/-- Who has the next `k` turns, and the queue after them. -/
def serve : ℕ → List β → List β × List β
  | 0, queue => ([], queue)
  | _ + 1, [] => ([], [])
  | k + 1, x :: rest => (x :: (serve k (rest ++ [x])).1, (serve k (rest ++ [x])).2)

@[simp] theorem serve_zero (queue : List β) : serve 0 queue = ([], queue) := rfl

@[simp] theorem serve_nil (k : ℕ) : serve k ([] : List β) = ([], []) := by
  cases k <;> rfl

theorem serve_cons (k : ℕ) (x : β) (rest : List β) :
    serve (k + 1) (x :: rest) = (x :: (serve k (rest ++ [x])).1, (serve k (rest ++ [x])).2) := rfl

theorem length_serve_le (k : ℕ) (queue : List β) : (serve k queue).1.length ≤ k := by
  induction k generalizing queue with
  | zero => exact le_rfl
  | succ k ih =>
    cases queue with
    | nil => exact Nat.zero_le _
    | cons x rest => exact Nat.succ_le_succ (ih (rest ++ [x]))

theorem serve_add (j k : ℕ) (queue : List β) :
    serve (j + k) queue = ((serve j queue).1 ++ (serve k (serve j queue).2).1,
      (serve k (serve j queue).2).2) := by
  induction j generalizing queue with
  | zero => simp
  | succ j ih =>
    cases queue with
    | nil => simp
    | cons x rest => rw [Nat.succ_add, serve_cons, serve_cons, ih, List.cons_append]

/-- Once everybody at the front has had a turn, they stand at the back. -/
theorem serve_length_append (front back : List β) :
    serve front.length (front ++ back) = (front, back ++ front) := by
  induction front generalizing back with
  | nil => simp
  | cons x front ih =>
    rw [List.length_cons, List.cons_append, serve_cons, List.append_assoc, ih, List.append_assoc]
    rfl

theorem perm_serve (k : ℕ) (queue : List β) : (serve k queue).2.Perm queue := by
  induction k generalizing queue with
  | zero => exact .refl queue
  | succ k ih =>
    cases queue with
    | nil => exact .refl []
    | cons x rest => exact (ih (rest ++ [x])).trans (List.perm_append_singleton x rest)

/-- Leaving members out of the queue leaves out their turns, and nothing else. -/
theorem serve_filter (keep : β → Bool) (k : ℕ) (queue : List β) :
    serve ((serve k queue).1.filter keep).length (queue.filter keep) =
      ((serve k queue).1.filter keep, (serve k queue).2.filter keep) := by
  induction k generalizing queue with
  | zero => simp
  | succ k ih =>
    cases queue with
    | nil => simp
    | cons x rest =>
      have hrest := ih (rest ++ [x])
      rw [serve_cons, List.filter_cons, List.filter_cons]
      rw [List.filter_append] at hrest
      split_ifs with hx
      · rw [List.filter_singleton, hx, cond_true] at hrest
        rw [List.length_cons, serve_cons, hrest]
      · -- a turn that is left out moves nobody who stays
        rw [List.filter_singleton, Bool.eq_false_iff.mpr hx, cond_false, List.append_nil] at hrest
        exact hrest

/-- As long as somebody stays, there are turns that are not left out. -/
theorem exists_serve_filter (keep : β → Bool) {queue : List β}
    (h : ∃ x ∈ queue, keep x = true) (m : ℕ) :
    ∃ k ≤ m * queue.length, ((serve k queue).1.filter keep).length = m ∧
      ∀ x, (serve k queue).1.getLast? = some x → keep x = true := by
  induction m with
  | zero => exact ⟨0, Nat.zero_le _, rfl, fun x hx => by simp at hx⟩
  | succ m ih =>
    obtain ⟨k, hk, hcount, -⟩ := ih
    obtain ⟨x, hx, hkeep⟩ := h
    have hperm := perm_serve k queue
    obtain ⟨y, hy⟩ : ∃ y, (serve k queue).2.find? keep = some y := by
      rw [← Option.isSome_iff_exists, List.find?_isSome]
      exact ⟨x, hperm.mem_iff.mpr hx, hkeep⟩
    obtain ⟨hkeepy, skipped, rest, hsplit, hskipped⟩ := List.find?_eq_some_iff_append.mp hy
    have hlength : skipped.length + 1 ≤ queue.length := by
      have := hperm.length_eq
      rw [hsplit, List.length_append, List.length_cons] at this
      omega
    -- the members before the next one who stays are skipped in one go
    have hserve : serve (skipped.length + 1) (serve k queue).2 =
        (skipped ++ [y], rest ++ (skipped ++ [y])) := by
      have hfront := serve_length_append (skipped ++ [y]) rest
      rw [List.length_append, List.length_singleton] at hfront
      rw [hsplit, List.append_cons, hfront]
    have hnone : skipped.filter keep = [] := by
      rw [List.filter_eq_nil_iff]
      intro z hz
      simpa using hskipped z hz
    refine ⟨k + (skipped.length + 1), ?_, ?_, ?_⟩
    · rw [Nat.succ_mul]
      omega
    · rw [serve_add, hserve, List.filter_append, List.filter_append, hnone, List.filter_singleton,
        hkeepy, cond_true, List.nil_append, List.length_append, hcount, List.length_singleton]
    · intro z hz
      rw [serve_add, hserve, ← List.append_assoc, List.getLast?_concat] at hz
      cases hz
      exact hkeepy

end Serving
end RoundRobin
