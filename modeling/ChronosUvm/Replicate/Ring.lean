import Mathlib.Tactic
import ChronosUvm.Foundations.BoundedQueue
import ChronosUvm.Mem.Delta

/-! The replication ring: tick batches on their way to the standby. -/
namespace ChronosUvm
open Panicking BoundedQueue

structure TickBatch where
  tick : Tick
  deltas : List PageDelta

inductive RingError where
  | full (capacity : ℕ)
  deriving DecidableEq, Repr

structure DeltaRing where
  queue : ArrayQueue TickBatch
  lastPushedTick : Tick

namespace DeltaRing

def new (capacity : ℕ) : Checked DeltaRing := do
  let queue ← ArrayQueue.new capacity
  return ⟨queue, 0⟩

def push (r : DeltaRing) (batch : TickBatch) : Except RingError Unit × DeltaRing :=
  match r.queue.push batch with
  | (.ok (), queue) => (.ok (), ⟨queue, batch.tick⟩)
  | (.error _, queue) => (.error (.full r.queue.capacity), { r with queue := queue })

/-- One `queue.pop()` of the consumer. -/
def pop (r : DeltaRing) : Option TickBatch × DeltaRing :=
  (r.queue.pop.1, { r with queue := r.queue.pop.2 })

theorem new_eq_ok {capacity : ℕ} {r : DeltaRing} (h : new capacity = .ok r) :
    r.queue.items = [] := by
  unfold new ArrayQueue.new at h
  split_ifs at h
  · cases h
    rfl
  · cases h

/-- A push appends its batch and moves the watermark, or the ring is full and stays as it is. -/
theorem push_cases (r : DeltaRing) (b : TickBatch) :
    ((r.push b).1 = .ok () ∧ r.queue.items.length < r.queue.capacity ∧
      (r.push b).2.queue.items = r.queue.items ++ [b]) ∨
    ((r.push b).1 = .error (.full r.queue.capacity) ∧
      r.queue.items.length = r.queue.capacity ∧ (r.push b).2 = r) := by
  rcases ArrayQueue.push_cases r.queue b with ⟨h1, hroom, h2⟩ | ⟨h1, hfull, h2⟩
  · left
    unfold push
    split
    · next q hq =>
      rw [hq] at h2
      exact ⟨rfl, hroom, h2⟩
    · next e q hq =>
      rw [hq] at h1
      cases h1
  · right
    unfold push
    split
    · next q hq =>
      rw [hq] at h1
      cases h1
    · next e q hq =>
      rw [hq] at h2
      have : q = r.queue := h2
      rw [this]
      exact ⟨rfl, hfull, rfl⟩

end DeltaRing
end ChronosUvm
