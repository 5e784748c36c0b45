import Mathlib.Tactic

/-!
Hash chains: a hash is carried through a list of items, each step hashing an encoding
of the previous hash and the item. Two chains that end in the same hash agree item by
item, or a collision stands among the strings that were hashed for them.
-/
namespace HashChain

variable {A B H : Type} (hash : B → H) (encode : H → A → B) (genesis : B)

def fold (items : List A) : H := items.foldl (fun h a => hash (encode h a)) (hash genesis)

/-- The encodings hashed on the way, one for each item. -/
def inputs : H → List A → List B
  | _, [] => []
  | h, a :: rest => encode h a :: inputs (hash (encode h a)) rest

theorem fold_append_singleton (items : List A) (a : A) :
    fold hash encode genesis (items ++ [a]) =
      hash (encode (fold hash encode genesis items) a) := by
  unfold fold
  rw [List.foldl_append]
  rfl

theorem inputs_append_singleton (h : H) (items : List A) (a : A) :
    inputs hash encode h (items ++ [a]) = inputs hash encode h items ++
      [encode (items.foldl (fun h a => hash (encode h a)) h) a] := by
  induction items generalizing h with
  | nil => rfl
  | cons b items ih =>
    simp only [List.cons_append, inputs, ih, List.foldl_cons]

/-- Two chains with one end: either they carry the same items, or two of their links are
distinct strings with one hash, or a link has the hash of the string the chain starts from. -/
theorem eq_or_collision (hencode : ∀ h a h' a', encode h a = encode h' a' → h = h' ∧ a = a')
    {items items' : List A}
    (h : fold hash encode genesis items = fold hash encode genesis items') :
    items = items' ∨
    (∃ x ∈ inputs hash encode (hash genesis) items,
      ∃ y ∈ inputs hash encode (hash genesis) items', x ≠ y ∧ hash x = hash y) ∨
    ∃ x, (x ∈ inputs hash encode (hash genesis) items ∨
      x ∈ inputs hash encode (hash genesis) items') ∧ hash x = hash genesis := by
  induction items using List.reverseRecOn generalizing items' with
  | nil =>
    rcases List.eq_nil_or_concat items' with rfl | ⟨init, b, rfl⟩
    · exact .inl rfl
    · rw [List.concat_eq_append] at h ⊢
      rw [fold_append_singleton] at h
      refine .inr (.inr ⟨_, .inr ?_, h.symm⟩)
      rw [inputs_append_singleton]
      exact List.mem_append_right _ (List.mem_singleton.mpr rfl)
  | append_singleton items a ih =>
    have hlast : encode (fold hash encode genesis items) a ∈
        inputs hash encode (hash genesis) (items ++ [a]) := by
      rw [inputs_append_singleton]
      exact List.mem_append_right _ (List.mem_singleton.mpr rfl)
    rcases List.eq_nil_or_concat items' with rfl | ⟨init, b, rfl⟩
    · rw [fold_append_singleton] at h
      exact .inr (.inr ⟨_, .inl hlast, h⟩)
    · rw [List.concat_eq_append] at h ⊢
      rw [fold_append_singleton, fold_append_singleton] at h
      by_cases heq : encode (fold hash encode genesis items) a =
          encode (fold hash encode genesis init) b
      · -- equal last links carry equal items and equal hashes of everything before
        obtain ⟨hfold, rfl⟩ := hencode _ _ _ _ heq
        simp only [inputs_append_singleton, List.mem_append]
        rcases ih hfold with rfl | ⟨x, hx, y, hy, hxy⟩ | ⟨x, hx, hgenesis⟩
        · exact .inl rfl
        · exact .inr (.inl ⟨x, .inl hx, y, .inl hy, hxy⟩)
        · exact .inr (.inr ⟨x, hx.imp .inl .inl, hgenesis⟩)
      · right
        left
        refine ⟨_, hlast, _, ?_, heq, h⟩
        rw [inputs_append_singleton]
        exact List.mem_append_right _ (List.mem_singleton.mpr rfl)

end HashChain
