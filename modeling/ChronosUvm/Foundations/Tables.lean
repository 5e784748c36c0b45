import Mathlib.Data.Finmap
import Mathlib.Data.Finset.Sort
import Mathlib.Tactic

/-!
Hash tables with an unspecified iteration order. A table is a finite map; an
iteration of it is any listing of its entries, so a function of an iteration is
a function of an arbitrary order.
-/
namespace Tables

abbrev HashMap (K V : Type) := Finmap (fun _ : K => V)

variable {K V : Type}

/-- One order in which a table's entries may be visited. -/
structure Iteration (m : HashMap K V) where
  entries : List (Σ _ : K, V)
  entries_eq : (entries : Multiset (Σ _ : K, V)) = m.entries

def Iteration.keys {m : HashMap K V} (it : Iteration m) : List K := it.entries.map Sigma.fst

namespace HashMap

def isEmpty (m : HashMap K V) : Bool := m.entries.card == 0

theorem isEmpty_eq_true {m : HashMap K V} : m.isEmpty = true ↔ m = ∅ := by
  unfold isEmpty
  rw [beq_iff_eq, Multiset.card_eq_zero]
  constructor
  · intro h
    exact Finmap.ext h
  · intro h
    rw [h]
    rfl

variable [DecidableEq K]

/-- The lookup with its value type not depending on the key. -/
def get? (m : HashMap K V) (k : K) : Option V := m.lookup k

theorem ext_get? {m m' : HashMap K V} (h : ∀ k, m.get? k = m'.get? k) : m = m' :=
  Finmap.ext_lookup h

@[simp] theorem get?_empty (k : K) : (∅ : HashMap K V).get? k = none := Finmap.lookup_empty k

theorem get?_insert (m : HashMap K V) (k k' : K) (v : V) :
    get? (m.insert k v) k' = if k' = k then some v else m.get? k' := by
  split_ifs with h
  · subst h
    exact Finmap.lookup_insert m
  · exact Finmap.lookup_insert_of_ne m h

@[simp] theorem get?_insert_self (m : HashMap K V) (k : K) (v : V) :
    get? (m.insert k v) k = some v := Finmap.lookup_insert m

theorem get?_insert_ne (m : HashMap K V) {k k' : K} (h : k' ≠ k) (v : V) :
    get? (m.insert k v) k' = m.get? k' := Finmap.lookup_insert_of_ne m h

theorem get?_erase (m : HashMap K V) (k k' : K) :
    get? (m.erase k) k' = if k' = k then none else m.get? k' := by
  split_ifs with h
  · subst h
    exact Finmap.lookup_erase k' m
  · exact Finmap.lookup_erase_ne h

theorem mem_iff_get? {m : HashMap K V} {k : K} : k ∈ m ↔ ∃ v, m.get? k = some v :=
  Finmap.mem_iff

theorem get?_eq_none {m : HashMap K V} {k : K} : m.get? k = none ↔ k ∉ m :=
  Finmap.lookup_eq_none

theorem exists_mem_of_not_isEmpty {m : HashMap K V} (h : ¬ m.isEmpty = true) : ∃ k, k ∈ m := by
  by_contra hnone
  apply h
  rw [isEmpty_eq_true]
  apply ext_get?
  intro k
  rw [get?_empty, get?_eq_none]
  exact fun hk => hnone ⟨k, hk⟩

theorem keys_insert (m : HashMap K V) (k : K) (v : V) :
    (m.insert k v).keys = insert k m.keys := by
  ext k'
  rw [Finmap.mem_keys, Finmap.mem_insert, Finset.mem_insert, Finmap.mem_keys]

/-- The same keys, with every value mapped. -/
def mapValues {W : Type} (f : V → W) (m : HashMap K V) : HashMap K W where
  entries := m.entries.map fun e => ⟨e.1, f e.2⟩
  nodupKeys := by
    have hkeys : (m.entries.map fun e => (⟨e.1, f e.2⟩ : Σ _ : K, W)).keys = m.entries.keys := by
      unfold Multiset.keys
      rw [Multiset.map_map]
      rfl
    rw [← Multiset.nodup_keys, hkeys]
    exact m.nodupKeys.nodup_keys

theorem get?_mapValues {W : Type} (f : V → W) (m : HashMap K V) (k : K) :
    (m.mapValues f).get? k = (m.get? k).map f := by
  apply Option.ext
  intro v
  unfold get?
  rw [Finmap.lookup_eq_some_iff, Option.map_eq_some_iff]
  simp only [Finmap.lookup_eq_some_iff]
  unfold mapValues
  simp only [Multiset.mem_map, Sigma.mk.injEq]
  constructor
  · rintro ⟨⟨k', v'⟩, hmem, rfl, hv⟩
    exact ⟨v', hmem, eq_of_heq hv⟩
  · rintro ⟨v', hmem, rfl⟩
    exact ⟨⟨k, v'⟩, hmem, rfl, HEq.rfl⟩

theorem mem_mapValues {W : Type} (f : V → W) (m : HashMap K V) (k : K) :
    k ∈ m.mapValues f ↔ k ∈ m := by
  rw [mem_iff_get?, mem_iff_get?, get?_mapValues]
  simp

theorem mapValues_insert {W : Type} (f : V → W) (m : HashMap K V) (k : K) (v : V) :
    HashMap.mapValues f (m.insert k v) = (m.mapValues f).insert k (f v) := by
  apply ext_get?
  intro k'
  rw [get?_mapValues, get?_insert, get?_insert, get?_mapValues]
  split_ifs <;> rfl

/-- Insert a list of entries one after the other. -/
def insertAll (m : HashMap K V) (l : List (Σ _ : K, V)) : HashMap K V :=
  l.foldl (fun t e => t.insert e.1 e.2) m

theorem get?_insertAll_of_notMem {l : List (Σ _ : K, V)} {k : K}
    (h : ∀ v, (⟨k, v⟩ : Σ _ : K, V) ∉ l) (m : HashMap K V) :
    get? (insertAll m l) k = m.get? k := by
  induction l generalizing m with
  | nil => rfl
  | cons e l ih =>
    have hne : k ≠ e.1 := by
      intro hk
      subst hk
      exact h e.2 List.mem_cons_self
    rw [insertAll, List.foldl_cons, ← insertAll,
      ih (fun v hv => h v (List.mem_cons_of_mem _ hv)), get?_insert_ne m hne]

theorem get?_insertAll_of_mem {l : List (Σ _ : K, V)} (hl : l.NodupKeys) {k : K} {v : V}
    (h : (⟨k, v⟩ : Σ _ : K, V) ∈ l) (m : HashMap K V) :
    get? (insertAll m l) k = some v := by
  induction l generalizing m with
  | nil => simp at h
  | cons e l ih =>
    obtain ⟨hnot, hl⟩ := List.nodupKeys_cons.mp hl
    rw [insertAll, List.foldl_cons, ← insertAll]
    rcases List.mem_cons.mp h with rfl | h
    · rw [get?_insertAll_of_notMem, get?_insert_self]
      intro w hw
      have hkey := List.mem_keys_of_mem hw
      exact hnot hkey
    · exact ih hl h _

end HashMap

namespace Iteration
variable {m : HashMap K V}

theorem nodupKeys (it : Iteration m) : it.entries.NodupKeys := by
  have h := m.nodupKeys
  rw [← it.entries_eq] at h
  exact Multiset.coe_nodupKeys.mp h

theorem length_entries (it : Iteration m) : it.entries.length = m.keys.card := by
  have hcard : m.keys.card = Multiset.card m.entries := Multiset.card_map _ _
  rw [hcard, ← it.entries_eq, Multiset.coe_card]

variable [DecidableEq K]

theorem mem_entries (it : Iteration m) {k : K} {v : V} :
    (⟨k, v⟩ : Σ _ : K, V) ∈ it.entries ↔ m.get? k = some v := by
  rw [← Multiset.mem_coe, it.entries_eq, ← Finmap.mem_lookup_iff, Option.mem_def]
  rfl

theorem mem_keys (it : Iteration m) {k : K} : k ∈ it.keys ↔ k ∈ m := by
  unfold keys
  simp only [List.mem_map, HashMap.mem_iff_get?]
  constructor
  · rintro ⟨⟨k', v⟩, he, rfl⟩
    exact ⟨v, it.mem_entries.mp he⟩
  · rintro ⟨v, hv⟩
    exact ⟨⟨k, v⟩, it.mem_entries.mpr hv, rfl⟩

/-- The visit in ascending key order. -/
def ascending [LinearOrder K] (m : HashMap K V) : Iteration m where
  entries := (m.keys.sort).filterMap fun k => (m.get? k).map fun v => ⟨k, v⟩
  entries_eq := by
    rw [Multiset.Nodup.ext]
    · intro ⟨k, v⟩
      have hmem : (⟨k, v⟩ : Σ _ : K, V) ∈ m.entries ↔ m.get? k = some v :=
        Finmap.mem_lookup_iff.symm
      rw [hmem, Multiset.mem_coe, List.mem_filterMap]
      constructor
      · rintro ⟨k', -, hk'⟩
        obtain ⟨w, hw, he⟩ := Option.map_eq_some_iff.mp hk'
        cases he
        exact hw
      · intro hv
        refine ⟨k, ?_, by rw [hv]; rfl⟩
        rw [Finset.mem_sort, Finmap.mem_keys, HashMap.mem_iff_get?]
        exact ⟨v, hv⟩
    · rw [Multiset.coe_nodup]
      apply List.Nodup.filterMap _ (Finset.sort_nodup _ _)
      intro k k' e he he'
      obtain ⟨v, -, rfl⟩ := Option.map_eq_some_iff.mp he
      obtain ⟨v', -, h'⟩ := Option.map_eq_some_iff.mp he'
      exact (congrArg Sigma.fst h').symm
    · exact m.nodupKeys.nodup

/-- Reinserting an iteration, in whatever order, rebuilds the table. -/
theorem insertAll_entries (it : Iteration m) : HashMap.insertAll ∅ it.entries = m := by
  apply HashMap.ext_get?
  intro k
  cases hk : m.get? k with
  | some v => exact HashMap.get?_insertAll_of_mem it.nodupKeys (it.mem_entries.mpr hk) ∅
  | none =>
    rw [HashMap.get?_insertAll_of_notMem, HashMap.get?_empty]
    intro v hv
    rw [it.mem_entries, hk] at hv
    cases hv

end Iteration
end Tables
