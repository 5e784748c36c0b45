import Mathlib.Tactic
import ChronosUvm.Core.Fairness

/-!
Deregistration against the run without it. The two runs make different numbers of
dispatches to get to the same point, since the one still serves the cell that the
other has removed.
-/
namespace ChronosUvm
open Panicking Tables Transitions RoundRobin

namespace Rotation

/-- The cells dispatched so far. -/
def turns (r : Rotation) : List CellId := r.dispatched.map DispatchOutcome.cellId

/-- Dispatches alone serve the queue of the order. -/
theorem run_dispatches {r r' : Rotation} {maps : List (HashMap CellId Cell)}
    (h : run step r (maps.map .nextDispatch) = .ok r') :
    r'.turns = r.turns ++ (serve maps.length r.scheduler.order).1 ∧
      r'.scheduler.order = (serve maps.length r.scheduler.order).2 := by
  induction maps generalizing r with
  | nil =>
    cases h
    simp
  | cons cells maps ih =>
    obtain ⟨t, hstep, hrest⟩ := run_cons_eq_ok.mp h
    obtain ⟨hturns, horder⟩ := ih hrest
    rcases step_cases hstep with ⟨id, hcall, -⟩ | ⟨id, hcall, -⟩ | ⟨-, -, hempty, rfl⟩ |
      ⟨-, id, rest, outcome, -, hfront, hback, -, hid, -, hlog⟩
    · cases hcall
    · cases hcall
    · rw [hempty, serve_nil] at hturns horder
      rw [hempty, serve_nil]
      exact ⟨hturns, horder⟩
    · have hserved : t.turns = r.turns ++ [id] := by
        unfold turns
        rw [hlog, List.map_append, List.map_singleton, hid]
      rw [hback] at hturns horder
      rw [hfront, List.length_cons, serve_cons]
      refine ⟨?_, horder⟩
      rw [hturns, hserved, List.append_assoc, List.singleton_append]

theorem dispatches_return (s : Scheduler) (maps : List (HashMap CellId Cell))
    (h : s.currentTick.toNat + maps.length < 2 ^ 64) :
    ∃ r, run step ⟨s, []⟩ (maps.map .nextDispatch) = .ok r := by
  apply run_returns
  have hle : (maps.map SchedulerCall.nextDispatch).countP SchedulerCall.isDispatch ≤
      maps.length := by
    rw [← List.length_map (f := SchedulerCall.nextDispatch)]
    exact List.countP_le_length
  exact lt_of_le_of_lt (Nat.add_le_add_left hle _) h

/-- Deregistering a cell only erases its own turns. For every `m`, as long as another cell is
registered, some number `k` of dispatches takes the undisturbed run right behind its `m`-th
dispatch of another cell; if the tick counter lasts that long, the first `m` dispatches after
the deregistration are these, and they lead to the same order without the cell. Where no
other cell is registered, nothing is dispatched any more and the tick stands still. -/
theorem deregistration_erases_turns (s : Scheduler) (c : CellId) :
    ((∃ x ∈ s.order, x ≠ c) → ∀ m, ∃ k ≤ m * s.order.length,
      s.currentTick.toNat + k < 2 ^ 64 → ∀ maps maps' : List (HashMap CellId Cell),
        maps.length = k → maps'.length = m → ∃ r r',
          run step ⟨s, []⟩ (maps.map .nextDispatch) = .ok r ∧
          run step ⟨s, []⟩ (.deregisterCell c :: maps'.map .nextDispatch) = .ok r' ∧
          r.turns.getLast? ≠ some c ∧ r'.turns.length = m ∧
          r'.turns = r.turns.filter (fun id => id != c) ∧
          r'.scheduler.order = r.scheduler.order.filter (fun id => id != c)) ∧
    ((∀ x ∈ s.order, x = c) → ∀ cells,
      (s.deregisterCell c).nextDispatch cells = .ok (none, s.deregisterCell c) ∧
        (s.deregisterCell c).currentTick = s.currentTick) := by
  constructor
  · rintro ⟨x, hx, hne⟩ m
    obtain ⟨k, hk, hcount, hlast⟩ := exists_serve_filter (fun id => id != c)
      ⟨x, hx, bne_iff_ne.mpr hne⟩ m
    refine ⟨k, hk, ?_⟩
    intro hroom maps maps' hmaps hmaps'
    have hmk : m ≤ k := by
      have hfilter := List.length_filter_le (fun id => id != c) (serve k s.order).1
      have hserve := length_serve_le k s.order
      omega
    obtain ⟨r, hr⟩ := dispatches_return s maps (by omega)
    have hroom' : (s.deregisterCell c).currentTick.toNat + maps'.length < 2 ^ 64 := by
      show s.currentTick.toNat + maps'.length < 2 ^ 64
      omega
    obtain ⟨r', hr'⟩ := dispatches_return (s.deregisterCell c) maps' hroom'
    obtain ⟨hturns, horder⟩ := run_dispatches hr
    obtain ⟨hturns', horder'⟩ := run_dispatches hr'
    have herased := serve_filter (fun id => id != c) k s.order
    rw [hcount] at herased
    simp only [hmaps, hmaps', turns, List.map_nil, List.nil_append, Scheduler.deregisterCell,
      herased] at hturns horder hturns' horder'
    refine ⟨r, r', hr, run_cons_eq_ok.mpr ⟨_, rfl, hr'⟩, ?_, ?_, ?_, ?_⟩
    · intro hc
      rw [turns, hturns] at hc
      exact absurd (hlast c hc) (by simp)
    · rw [turns, hturns', hcount]
    · rw [turns, turns, hturns', hturns]
    · rw [horder', horder]
  · intro hall cells
    have hempty : (s.deregisterCell c).order = [] := by
      unfold Scheduler.deregisterCell
      rw [List.filter_eq_nil_iff]
      intro x hx
      simpa using hall x hx
    refine ⟨?_, rfl⟩
    unfold Scheduler.nextDispatch
    rw [hempty]

end Rotation
end ChronosUvm
