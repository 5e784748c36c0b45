import Mathlib.Tactic
import ChronosUvm.Replicate.Standby

/-!
The gate of the apply loop against whatever the network delivers. A last applied tick
of 0 also means that nothing was applied yet, and then the gate is open; a batch of
tick 0 leaves it open.
-/
namespace ChronosUvm
open Panicking

namespace StandbyApplyLoop

/-- Feed a sequence of batches and list those that were accepted. A panic ends the run, and
what was accepted before it stays listed. -/
def receive (s : StandbyApplyLoop) : List TickBatch → List TickBatch × Checked StandbyApplyLoop
  | [] => ([], .ok s)
  | batch :: rest =>
    match s.applyBatch batch with
    | .error panic => ([], .error panic)
    | .ok (.ok (), s) => (batch :: (receive s rest).1, (receive s rest).2)
    | .ok (.error _, s) => receive s rest

/-- A batch that has come through the gate is accepted, or it panics. -/
theorem applyBatch_passed {s : StandbyApplyLoop} {b : TickBatch}
    (hgate : ¬ (b.tick ≤ s.lastAppliedTick ∧ s.lastAppliedTick ≠ 0)) :
    (∃ s', s.applyBatch b = .ok (.ok (), s') ∧ s'.lastAppliedTick = b.tick) ∨
      ∃ panic, s.applyBatch b = .error panic := by
  unfold applyBatch
  rw [if_neg hgate]
  cases s.engine.applyDeltas b.deltas with
  | ok engine => exact .inl ⟨_, rfl, rfl⟩
  | error panic => exact .inr ⟨panic, rfl⟩

/-- Once a tick other than 0 was applied, only later and later ticks are. -/
theorem receive_after {s : StandbyApplyLoop} (h : s.lastAppliedTick ≠ 0)
    (batches : List TickBatch) :
    ((s.receive batches).1.map TickBatch.tick).Pairwise (· < ·) ∧
      ∀ b ∈ (s.receive batches).1, s.lastAppliedTick < b.tick := by
  induction batches generalizing s with
  | nil => exact ⟨.nil, by simp [receive]⟩
  | cons b batches ih =>
    by_cases hstale : b.tick ≤ s.lastAppliedTick ∧ s.lastAppliedTick ≠ 0
    · simp only [receive, applyBatch_stale hstale]
      exact ih h
    · rcases applyBatch_passed hstale with ⟨s', happly, htick⟩ | ⟨panic, hpanic⟩
      · have hlt : s.lastAppliedTick < b.tick :=
          UInt64.not_le.mp fun hle => hstale ⟨hle, h⟩
        have hnext : s'.lastAppliedTick ≠ 0 := by
          rw [htick]
          intro hzero
          rw [hzero] at hlt
          exact UInt64.not_lt_zero hlt
        obtain ⟨hsorted, hafter⟩ := ih hnext
        rw [htick] at hafter
        simp only [receive, happly, List.map_cons, List.pairwise_cons, List.forall_mem_cons]
        refine ⟨⟨?_, hsorted⟩, hlt, fun b' hb' => UInt64.lt_trans hlt (hafter b' hb')⟩
        intro t ht
        obtain ⟨b', hb', rfl⟩ := List.mem_map.mp ht
        exact hafter b' hb'
      · simp only [receive, hpanic]
        exact ⟨.nil, fun b' hb' => absurd hb' List.not_mem_nil⟩

/-- While the last tick is 0, the gate is open. -/
theorem gate_of_zero {s : StandbyApplyLoop} (h : s.lastAppliedTick = 0) (b : TickBatch) :
    ¬ (b.tick ≤ s.lastAppliedTick ∧ s.lastAppliedTick ≠ 0) := fun hstale => hstale.2 h

/-- From an open gate, whatever follows a batch of a tick other than 0 is in order. -/
theorem receive_first {s : StandbyApplyLoop} (h : s.lastAppliedTick = 0) {b : TickBatch}
    (hb : b.tick ≠ 0) (rest : List TickBatch) :
    ((s.receive (b :: rest)).1.map TickBatch.tick).Pairwise (· < ·) ∧
      ∀ b' ∈ (s.receive (b :: rest)).1, b.tick ≤ b'.tick := by
  rcases applyBatch_passed (gate_of_zero h b) with ⟨s', happly, htick⟩ | ⟨panic, hpanic⟩
  · obtain ⟨hsorted, hafter⟩ := receive_after (htick ▸ hb) rest
    rw [htick] at hafter
    simp only [receive, happly, List.map_cons, List.pairwise_cons, List.forall_mem_cons]
    refine ⟨⟨?_, hsorted⟩, UInt64.le_refl _, fun b' hb' => UInt64.le_of_lt (hafter b' hb')⟩
    intro t ht
    obtain ⟨b', hb', rfl⟩ := List.mem_map.mp ht
    exact hafter b' hb'
  · simp only [receive, hpanic]
    exact ⟨.nil, fun b' hb' => absurd hb' List.not_mem_nil⟩

theorem receive_returns (s : StandbyApplyLoop) {batches : List TickBatch}
    (hroom : ∀ b ∈ batches, b.Resizable) : ∃ final, (s.receive batches).2 = .ok final := by
  induction batches generalizing s with
  | nil => exact ⟨s, rfl⟩
  | cons b batches ih =>
    have hrest := fun b' hb' => hroom b' (List.mem_cons_of_mem b hb')
    obtain ⟨⟨result, s'⟩, happly⟩ := s.applyBatch_returns (hroom b List.mem_cons_self)
    cases result with
    | ok u =>
      simp only [receive, happly]
      exact ih s' hrest
    | error error =>
      simp only [receive, happly]
      exact ih s' hrest

/-- From an open gate, behind a batch of tick 0 that was accepted: in order unless the next
batch has tick 0 as well and is accepted. -/
theorem increasing_behind_zero {s : StandbyApplyLoop} (h : s.lastAppliedTick = 0)
    (hsized : s.engine.Sized) {b : TickBatch} (hb : b.tick = 0) (batches : List TickBatch) :
    ((b :: (s.receive batches).1).map TickBatch.tick).Pairwise (· < ·) ↔
      ¬ ∃ b' rest, batches = b' :: rest ∧ b'.tick = 0 ∧ b'.Resizable := by
  cases batches with
  | nil => simp [receive]
  | cons b' rest =>
    by_cases hb' : b'.tick = 0
    · by_cases hroom : b'.Resizable
      · simp only [receive, applyBatch_open (gate_of_zero h b') hroom, List.map_cons,
          List.pairwise_cons, hb, hb']
        constructor
        · rintro ⟨hlt, -⟩
          exact absurd (hlt 0 List.mem_cons_self) UInt64.not_lt_zero
        · intro hnot
          exact absurd ⟨b', rest, rfl, hb', hroom⟩ hnot
      · obtain ⟨panic, hpanic⟩ := applyBatch_panics hsized (gate_of_zero h b') hroom
        simp only [receive, hpanic]
        constructor
        · rintro - ⟨c, rest', heq, -, hc⟩
          cases heq
          exact hroom hc
        · intro _
          exact List.pairwise_singleton _ _
    · obtain ⟨hsorted, hafter⟩ := receive_first h hb' rest
      constructor
      · rintro - ⟨c, rest', heq, hc, -⟩
        cases heq
        exact hb' hc
      · intro _
        refine List.pairwise_cons.mpr ⟨?_, hsorted⟩
        intro t ht
        obtain ⟨c, hc, rfl⟩ := List.mem_map.mp ht
        rw [hb]
        exact UInt64.lt_of_lt_of_le (UInt64.pos_iff_ne_zero.mpr hb') (hafter c hc)

/-- The run returns if no page index is too large. The accepted ticks increase strictly exactly
when the sequence does not start with two batches of tick 0 that the vectors can be resized
for. -/
theorem accepted_increasing_iff {capacity : ℕ} {start : StandbyApplyLoop}
    (hnew : new capacity = .ok start) (batches : List TickBatch) :
    ((∀ b ∈ batches, b.Resizable) → ∃ final, (start.receive batches).2 = .ok final) ∧
    (((start.receive batches).1.map TickBatch.tick).Pairwise (· < ·) ↔
      ¬ ∃ b b' rest, batches = b :: b' :: rest ∧ b.tick = 0 ∧ b'.tick = 0 ∧
        b.Resizable ∧ b'.Resizable) := by
  refine ⟨start.receive_returns, ?_⟩
  have hsized := sized_new hnew
  obtain ⟨-, rfl⟩ := new_eq_ok.mp hnew
  have hzero : (fresh capacity).lastAppliedTick = 0 := rfl
  cases batches with
  | nil => simp [receive]
  | cons b rest =>
    by_cases hb : b.tick = 0
    · by_cases hroom : b.Resizable
      · -- the gate is still open, and the second batch decides
        simp only [receive, applyBatch_open (gate_of_zero hzero b) hroom]
        have hbehind := increasing_behind_zero
          (s := ⟨b.deltas.foldl DeltaEngine.applied (fresh capacity).engine, b.tick⟩) hb
          (hsized.foldl_applied hroom) hb rest
        rw [hbehind]
        constructor
        · rintro hnot ⟨c, b', rest', heq, -, hb', -, hroom'⟩
          cases heq
          exact hnot ⟨b', rest', rfl, hb', hroom'⟩
        · rintro hnot ⟨b', rest', rfl, hb', hroom'⟩
          exact hnot ⟨b, b', rest', rfl, hb, hb', hroom, hroom'⟩
      · obtain ⟨panic, hpanic⟩ := applyBatch_panics hsized (gate_of_zero hzero b) hroom
        simp only [receive, hpanic]
        constructor
        · rintro - ⟨c, c', rest', heq, -, -, hc, -⟩
          cases heq
          exact hroom hc
        · intro _
          exact .nil
    · have hsorted := (receive_first hzero hb rest).1
      constructor
      · rintro - ⟨c, c', rest', heq, hc, -⟩
        cases heq
        exact hb hc
      · intro _
        exact hsorted

/-- Ticks out of order and repeated: what is accepted is in order. -/
theorem accepted_increasing_mixed_ticks :
    ∃ start, new 1 = .ok start ∧
      ((start.receive [⟨0, []⟩, ⟨5, [.raw 0 zeroPage]⟩, ⟨3, []⟩, ⟨5, []⟩, ⟨9, []⟩, ⟨0, []⟩]).1.map
        TickBatch.tick).Pairwise (· < ·) := by
  have hnew : new 1 = .ok (fresh 1) := new_eq_ok.mpr ⟨by decide, rfl⟩
  refine ⟨_, hnew, (accepted_increasing_iff hnew _).2.mpr ?_⟩
  rintro ⟨b, b', rest, heq, -, hb', -⟩
  cases heq
  exact absurd hb' (by decide)

/-- One batch of tick 0 delivered twice is applied twice: its XOR delta cancels itself. -/
theorem tick_zero_applied_twice :
    ∃ start accepted final, new 1 = .ok start ∧ start.receive
        [⟨0, [.xor 0 [⟨0, [7]⟩]]⟩, ⟨0, [.xor 0 [⟨0, [7]⟩]]⟩] = (accepted, .ok final) ∧
      accepted.length = 2 ∧ ¬ (accepted.map TickBatch.tick).Pairwise (· < ·) ∧
      final.engine.pageOrZero 0 ⟨0, pageSize_pos⟩ = 0 := by
  have hreturns : returnsWith ((fresh 1).receive
      [⟨0, [.xor 0 [⟨0, [7]⟩]]⟩, ⟨0, [.xor 0 [⟨0, [7]⟩]]⟩]).2
      (fun final => final.engine.pageOrZero 0 ⟨0, pageSize_pos⟩ == 0) = true := by
    decide +kernel
  have hticks : ((fresh 1).receive
      [⟨0, [.xor 0 [⟨0, [7]⟩]]⟩, ⟨0, [.xor 0 [⟨0, [7]⟩]]⟩]).1.map TickBatch.tick = [0, 0] := by
    decide +kernel
  obtain ⟨final, hfinal, hbyte⟩ := returnsWith_eq_true.mp hreturns
  refine ⟨fresh 1, _, final, new_eq_ok.mpr ⟨by decide, rfl⟩, Prod.ext rfl hfinal, ?_, ?_,
    beq_iff_eq.mp hbyte⟩
  · rw [← List.length_map TickBatch.tick, hticks]
    rfl
  · rw [hticks]
    decide

end StandbyApplyLoop
end ChronosUvm
