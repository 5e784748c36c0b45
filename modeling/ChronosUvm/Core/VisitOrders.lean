import Mathlib.Tactic
import ChronosUvm.Core.GuestProgram
import ChronosUvm.Core.IncrementalCheckpoint

/-!
The order in which hash tables are visited never shows. Two processes visit their tables
in different orders even on the same input, and the tree is rehashed level by level in
such an order; still the whole run, the hashes of every checkpoint included, is the one of
a process that visits in ascending order.
-/
namespace ChronosUvm
open Panicking Tables Transitions

/-- The action with every table visited in ascending order. -/
def Action.ordered : Action → Action
  | .cycle _ => .ascendingCycle
  | .spawn config mode => .spawn config mode
  | .spawnReplay config entries => .spawnReplay config entries
  | .enableReplication ringCapacity => .enableReplication ringCapacity
  | .pop => .pop
  | .apply => .apply

/-- Every leaf of the cell's tree is a leaf of the full tree. -/
def Cell.LeavesFit (c : Cell) : Prop := ∀ i ∈ c.checkpoints.tree.leaves, i < 2 ^ treeDepth

theorem Cell.LeavesFit.checkpointed_eq {c : Cell} (h : c.LeavesFit) (blake3 : Blake3)
    (visit visit' : VisitOrder) (tick : Tick) (digest : Hash) :
    c.checkpointed blake3 visit' tick digest = c.checkpointed blake3 visit tick digest := by
  have hfit := leaf_lt_checkpointed blake3 visit h tick digest
  have hroot : (c.checkpointed blake3 visit tick digest).checkpoints.tree.root blake3 visit' =
      (c.checkpointed blake3 visit tick digest).checkpoints.tree.root blake3 visit := by
    rw [SparseMerkleTree.root_eq_node blake3 visit hfit,
      SparseMerkleTree.root_eq_node blake3 visit' hfit]
  have htree : (c.checkpointed blake3 visit' tick digest).checkpoints.tree =
      (c.checkpointed blake3 visit tick digest).checkpoints.tree := rfl
  have hchain (v : VisitOrder) := CheckpointChain.checkpoint_eq blake3 v c.checkpoints tick
    c.memory c.memory.dirty digest
  unfold checkpointed at hroot htree ⊢
  dsimp only at hroot htree ⊢
  rw [hchain visit', hchain visit, htree, hroot]

namespace Supervisor
variable {E : Type}

theorem finishCycle_visit (blake3 : Blake3) (visit visit' : VisitOrder) (s : Supervisor)
    (outcome : DispatchOutcome) (result : Except QuantumFault UInt64) (digest : Hash) {cell : Cell}
    (h : cell.LeavesFit) :
    s.finishCycle blake3 visit' outcome result digest cell =
      s.finishCycle blake3 visit outcome result digest cell := by
  unfold finishCycle
  simp only [h.checkpointed_eq blake3 visit visit']

theorem runOneCycle_visit (blake3 : Blake3) {executor : QuantumExecutor E}
    (hkeeps : executor.KeepsChain) (visit visit' : VisitOrder) {s : Supervisor} (e : E)
    (h : ∀ id c, s.cells.get? id = some c → c.LeavesFit) :
    s.runOneCycle blake3 executor visit' e = s.runOneCycle blake3 executor visit e := by
  unfold runOneCycle
  -- the two sides are reduced before they are compared: the roots are too large to unfold
  cases s.scheduler.nextDispatch s.cells with
  | error p => simp only [bind, Except.bind]
  | ok dispatched =>
    obtain ⟨outcome, scheduler⟩ := dispatched
    cases outcome with
    | none => simp only [ok_bind]
    | some outcome =>
      simp only [ok_bind]
      cases hcell : s.cells.get? outcome.cellId with
      | none => simp only
      | some cell =>
        simp only
        cases hran : executor.runQuantum e cell.delivered s.maxInstructionsPerQuantum with
        | error p => simp only [bind, Except.bind]
        | ok x =>
          obtain ⟨result, ran, e'⟩ := x
          have hfit : ran.LeavesFit := by
            unfold Cell.LeavesFit
            rw [hkeeps _ _ _ _ _ _ hran]
            exact h _ cell hcell
          simp only [ok_bind, finishCycle_visit blake3 visit visit' _ _ _ _ hfit]

end Supervisor

namespace World
variable {E : Type} {blake3 : Blake3} {executor : QuantumExecutor E} {w w' : World E}
  {a : Action} {actions : List Action}

def TreesFit (w : World E) : Prop :=
  ∀ id c, w.supervisor.cells.get? id = some c → c.LeavesFit

theorem TreesFit.step (h : TreesFit w) (hkeeps : executor.KeepsChain)
    (hstep : World.step blake3 executor w a = .ok w') : TreesFit w' := by
  cases step_cases hstep with
  | idle => exact h
  | spawned =>
    intro id c hget
    rw [HashMap.get?_insert] at hget
    split_ifs at hget
    · cases hget
      intro i hi
      exact absurd hi Finmap.notMem_empty
    · exact h id c hget
  | enabled => exact h
  | @cycled visit _ _ _ _ d _ =>
    have hran : d.ran.LeavesFit := by
      unfold Cell.LeavesFit
      rw [hkeeps _ _ _ _ _ _ d.ran_eq]
      exact h _ d.before d.before_eq
    intro id c hget
    dsimp only at hget
    rw [d.cells_eq, HashMap.get?_insert] at hget
    split_ifs at hget
    · cases hget
      rcases d.ended.stored_cases with ⟨-, hstored⟩ | ⟨-, -, hstored | hstored⟩
      · rw [hstored]
        exact hran
      · rw [hstored]
        exact Cell.leaf_lt_checkpointed blake3 visit hran _ _
      · rw [hstored]
        exact Cell.leaf_lt_checkpointed blake3 visit hran _ _
    · exact h id c hget
  | popped => exact h
  | accepted => exact h
  | refused => exact h

theorem TreesFit.step_ordered (h : TreesFit w) (hkeeps : executor.KeepsChain) (a : Action) :
    World.step blake3 executor w a.ordered = World.step blake3 executor w a := by
  cases a with
  | cycle visit =>
    unfold Action.ordered World.step
    simp only [Supervisor.runOneCycle_visit blake3 hkeeps visit _ w.executor h]
  | _ => rfl

theorem TreesFit.run_ordered (h : TreesFit w) (hkeeps : executor.KeepsChain) :
    run (World.step blake3 executor) w (actions.map Action.ordered) =
      run (World.step blake3 executor) w actions := by
  induction actions generalizing w with
  | nil => rfl
  | cons a actions ih =>
    rw [List.map_cons]
    unfold run
    rw [h.step_ordered hkeeps a]
    cases hstep : World.step blake3 executor w a with
    | error p => rfl
    | ok t => exact ih (h.step hkeeps hstep)

/-- Runs that differ only in the orders in which their tables are visited are the same run: the
same panic, or the same cells, chains, batches and standby. -/
theorem visit_order_never_shows (blake3 : Blake3) (executor : QuantumExecutor E)
    (hkeeps : executor.KeepsChain) (max : UInt64) (e : E) (standbyPages : ℕ)
    (actions actions' : List Action)
    (hsame : actions'.map Action.ordered = actions.map Action.ordered) :
    run (World.step blake3 executor) (new max e standbyPages) actions' =
      run (World.step blake3 executor) (new max e standbyPages) actions := by
  have hstart : TreesFit (new max e standbyPages) := by
    intro id c hget
    cases hget
  rw [← hstart.run_ordered hkeeps, hsame, hstart.run_ordered hkeeps]

/-- A hash that is easily evaluated: it only reads the first byte. -/
def headHash : Blake3 := fun bytes i => bytes.headD 0 + UInt8.ofNat i

/-- A cycle that visits every table in descending order. -/
def descendingCycle : Action := .cycle fun _ level =>
  ⟨(Iteration.ascending level).entries.reverse, by
    rw [Multiset.coe_reverse, Iteration.entries_eq]⟩

/-- Three pages written and rehashed, the tables visited in ascending and in descending order. -/
theorem visit_order_never_shows_descending :
    ∃ w c, run (World.step headHash (Guest.scripted.executor (HostSource.frozen 7)))
        (Guest.scriptedWorld [.poke 0 7, .poke 4096 8, .poke 8192 9])
        [.spawn ⟨1, 12288, 12288, 1⟩ .record, .ascendingCycle, .ascendingCycle, .ascendingCycle] =
          .ok w ∧
      w.supervisor.cell 1 = some c ∧ c.checkpoints.entries.length = 3 ∧
      run (World.step headHash (Guest.scripted.executor (HostSource.frozen 7)))
        (Guest.scriptedWorld [.poke 0 7, .poke 4096 8, .poke 8192 9])
        [.spawn ⟨1, 12288, 12288, 1⟩ .record, descendingCycle, .ascendingCycle, descendingCycle] =
          .ok w := by
  have hreturns : returnsWith
      (run (World.step headHash (Guest.scripted.executor (HostSource.frozen 7)))
        (Guest.scriptedWorld [.poke 0 7, .poke 4096 8, .poke 8192 9])
        [.spawn ⟨1, 12288, 12288, 1⟩ .record, .ascendingCycle, .ascendingCycle, .ascendingCycle])
      (fun w => (w.supervisor.cell 1).any fun c => c.checkpoints.entries.length == 3) = true := by
    decide +kernel
  obtain ⟨w, hrun, htest⟩ := returnsWith_eq_true.mp hreturns
  obtain ⟨c, hcell, hlength⟩ := (Option.any_eq_true _ _).mp htest
  refine ⟨w, c, hrun, hcell, by simpa using hlength, ?_⟩
  rw [← hrun]
  exact visit_order_never_shows _ _ (Guest.executor_keepsChain _ _) _ _ _ _ _ rfl

end World
end ChronosUvm
