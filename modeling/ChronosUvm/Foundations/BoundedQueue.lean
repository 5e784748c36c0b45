import Mathlib.Tactic
import ChronosUvm.Foundations.Panicking

/-! An atomic bounded first-in first-out queue; a queue of capacity zero cannot be built. -/
namespace BoundedQueue
open Panicking

structure ArrayQueue (α : Type) where
  items : List α
  capacity : ℕ
  length_le : items.length ≤ capacity

namespace ArrayQueue
variable {α : Type}

def new (capacity : ℕ) : Checked (ArrayQueue α) :=
  if 0 < capacity then .ok ⟨[], capacity, Nat.zero_le _⟩ else .error .zeroCapacity

/-- A full queue gives the item back. -/
def push (q : ArrayQueue α) (item : α) : Except α Unit × ArrayQueue α :=
  if h : q.items.length < q.capacity then
    (.ok (), { q with
      items := q.items ++ [item]
      length_le := by rw [List.length_append]; exact h })
  else (.error item, q)

def pop (q : ArrayQueue α) : Option α × ArrayQueue α :=
  (q.items.head?, { q with
    items := q.items.tail
    length_le := by
      rw [List.length_tail]
      exact (Nat.sub_le _ _).trans q.length_le })

/-- A push either appends the item or leaves the queue alone. -/
theorem push_cases (q : ArrayQueue α) (item : α) :
    ((q.push item).1 = .ok () ∧ q.items.length < q.capacity ∧
      (q.push item).2.items = q.items ++ [item]) ∨
    ((q.push item).1 = .error item ∧ q.items.length = q.capacity ∧ (q.push item).2 = q) := by
  unfold push
  split_ifs with h
  · exact .inl ⟨rfl, h, rfl⟩
  · exact .inr ⟨rfl, le_antisymm q.length_le (not_lt.mp h), rfl⟩

end ArrayQueue
end BoundedQueue
