import Mathlib.Tactic
import ChronosUvm.Core.CallHistory
import ChronosUvm.Core.DebugBuild
import ChronosUvm.Core.Registry
import ChronosUvm.Core.ReplayRun

/-!
No guest can bring the supervisor down. A store marks only pages that the bitmap tracks,
a host call counts its ordinal on by one, and every id in the dispatch order has a cell.
While the counters have room, the one panic that is left is the one that the operator
asks for: a ring of no capacity.
-/
namespace ChronosUvm
open Panicking Tables Transitions EventRecorder

namespace MmapGuardedMemory

theorem markDirty_of_lt {m : MmapGuardedMemory} {p : ℕ} (h : p < quotaPages m.quotaBytes) :
    ∃ m', m.markDirty p = .ok m' := by
  have hword : p / 64 < m.dirty.bits.length := by
    rw [m.dirty.words_eq, m.capacity_eq]
    omega
  obtain ⟨d, hd⟩ := DirtyPageSet.mark_returns hword
  exact markDirty_returns hd

theorem markPages_returns {m : MmapGuardedMemory} {pages : List ℕ}
    (h : ∀ p ∈ pages, p < quotaPages m.quotaBytes) : ∃ m', m.markPages pages = .ok m' := by
  induction pages generalizing m with
  | nil => exact ⟨m, rfl⟩
  | cons p pages ih =>
    obtain ⟨m₁, hmark⟩ := markDirty_of_lt (h p List.mem_cons_self)
    obtain ⟨-, -, -, hquota⟩ := markDirty_eq_ok hmark
    obtain ⟨m', hrest⟩ := ih (m := m₁) fun q hq => by
      rw [hquota]
      exact h q (List.mem_cons_of_mem p hq)
    refine ⟨m', ?_⟩
    unfold markPages
    rw [hmark, ok_bind, hrest]

/-- A store returns, approved or not. -/
theorem store_returns (m : MmapGuardedMemory) (ptr len : UInt32) (data : Bytes len.toNat) :
    ∃ result m', m.store ptr len data = .ok (result, m') := by
  unfold store
  cases happroved : m.translate ptr len with
  | error fault => exact ⟨_, _, rfl⟩
  | ok addr =>
    have hpages : ∀ p ∈ storePages ptr len, p < quotaPages (m.write addr data).quotaBytes :=
      fun p hp => lt_quotaPages happroved hp
    obtain ⟨m', hmarks⟩ := markPages_returns hpages
    exact ⟨.ok (), m', by simp only [hmarks, ok_bind, pure_ok]⟩

end MmapGuardedMemory

namespace GuestProgram
variable {S Ω : Type}

theorem ordinalAt_le (r : EventRecorder) (tick : Tick) :
    (r.ordinalAt tick).toNat ≤ r.currentOrdinal.toNat := by
  unfold ordinalAt
  split_ifs
  · exact le_rfl
  · exact Nat.zero_le _

/-- A quantum returns if the recorder has room for its calls, and takes no more room. -/
theorem Budgeted.run_returns {program : GuestProgram S} {c : Cell} {pages n : ℕ}
    (h : program.Budgeted pages n) (hpages : pages ≤ c.memory.sizeBytes.toNat / pageSize)
    (host : HostSource Ω) (ω : Ω) (calls : List HostEvent)
    (hroom : c.recorder.currentOrdinal.toNat + n < 2 ^ 64) :
    ∃ result ran e, program.run host c ω calls = .ok (result, ran, e) ∧
      ran.recorder.currentOrdinal.toNat ≤ c.recorder.currentOrdinal.toNat + n := by
  induction program generalizing c pages n ω calls with
  | finish r s => exact ⟨_, _, _, rfl, Nat.le_add_right _ _⟩
  | store ptr len data next ih =>
    obtain ⟨r, memory, hstore⟩ := c.memory.store_returns ptr len data
    have hsize := (MmapGuardedMemory.performs_store hstore).size_le
    obtain ⟨result, ran, e, hrun, hle⟩ := ih r (c := { c with memory := memory }) (n := n) (h r)
      (hpages.trans (Nat.div_le_div_right hsize)) ω calls hroom
    refine ⟨result, ran, e, ?_, hle⟩
    unfold run
    rw [hstore, ok_bind]
    exact hrun
  | markDirty p next ih =>
    have hp : c.memory.Readable p := lt_of_lt_of_le h.1 hpages
    obtain ⟨memory, hmark⟩ := MmapGuardedMemory.markDirty_of_lt hp.lt_quotaPages
    obtain ⟨-, -, hsize, -⟩ := MmapGuardedMemory.markDirty_eq_ok hmark
    obtain ⟨result, ran, e, hrun, hle⟩ := ih (c := { c with memory := memory }) (n := n) h.2
      (by rw [hsize]; exact hpages) ω calls hroom
    refine ⟨result, ran, e, ?_, hle⟩
    unfold run
    rw [hmark, ok_bind]
    exact hrun
  | grow d next ih =>
    obtain ⟨pages', hpages', hnext⟩ := h.grown hpages
    exact ih _ (c := { c with memory := (c.memory.grow d).2 }) hnext hpages' ω calls hroom
  | hostCall call next ih =>
    obtain ⟨hpos, hnext⟩ := h
    have hle := ordinalAt_le c.recorder call.tick
    obtain ⟨r, recorder, ω₁, hcall, hordinal⟩ := perform_returns host call ω
      (r := c.recorder) (by omega)
    obtain ⟨result, ran, e, hrun, hbound⟩ := ih r (c := { c with recorder := recorder })
      (n := n - 1) (hnext r) hpages ω₁ (calls ++ [⟨c.config.id, call, r⟩]) (by dsimp only; omega)
    refine ⟨result, ran, e, ?_, by dsimp only at hbound; omega⟩
    unfold run
    rw [hcall, ok_bind]
    exact hrun

end GuestProgram

namespace World
variable {S Ω : Type} {blake3 : Blake3} {guest : Guest S} {host : HostSource Ω}
  {w w' : World (GuestState S Ω)} {a : Action} {actions : List Action}

/-- What a cell's recorder has counted is within the budget of the ticks so far, the dirty pages
are committed, and the standby has room for the batches on their way. -/
structure WithinBudget (max : UInt64) (w : World (GuestState S Ω)) : Prop where
  registered : Registered w
  deliverable : Deliverable w
  committed : ReadsCommitted w
  max_eq : w.supervisor.maxInstructionsPerQuantum = max
  ordinals : ∀ id c, w.supervisor.cells.get? id = some c →
    c.recorder.currentOrdinal.toNat ≤ max.toNat * w.clock

theorem withinBudget_new (max : UInt64) (e : GuestState S Ω) (pages : ℕ) :
    WithinBudget max (new max e pages) :=
  ⟨registered_new _ _ _, deliverable_new _ _ _, readsCommitted_new _ _ _, rfl,
    fun _ _ hget => (by cases hget)⟩

/-- The quantum of a dispatched cell returns and stays within the budget of its tick. -/
theorem WithinBudget.quantum {max : UInt64} (h : WithinBudget max w) (hguest : guest.Budgeted max)
    (host : HostSource Ω) (hroom : max.toNat * (w.clock + 1) < 2 ^ 64) {id : CellId} {c : Cell}
    (hget : w.supervisor.cells.get? id = some c) :
    ∃ result ran e, (guest.executor host).runQuantum w.executor c.delivered
        w.supervisor.maxInstructionsPerQuantum = .ok (result, ran, e) ∧
      ran.recorder.currentOrdinal.toNat ≤ max.toNat * (w.clock + 1) := by
  have hordinal := h.ordinals id c hget
  rw [Nat.mul_succ] at hroom ⊢
  have hbudget := hguest w.executor.state c.delivered.view
  rw [h.max_eq]
  have hstart : c.delivered.recorder.currentOrdinal.toNat ≤ max.toNat * w.clock := hordinal
  obtain ⟨result, ran, e, hrun, hle⟩ := hbudget.run_returns
    (c := c.delivered) le_rfl host w.executor.host w.executor.calls (by omega)
  exact ⟨result, ran, e, hrun, by omega⟩

/-- The next quantum, of whichever cell, is the same in both builds. -/
theorem WithinBudget.meetsAssertions {max : UInt64} (h : WithinBudget max w)
    (hguest : guest.Budgeted max) (host : HostSource Ω) :
    w.supervisor.MeetsAssertions (guest.executor host) (guest.executorAsserted host)
      w.executor := by
  have hboth {id : CellId} {c : Cell} (hget : w.supervisor.cells.get? id = some c) :=
    (hguest w.executor.state c.delivered.view).runAsserted_eq (c := c.delivered) le_rfl
      (h.committed.cells id c hget) host w.executor.host w.executor.calls
  rw [← h.max_eq] at hboth
  exact ⟨rfl, fun id c hget => (hboth hget).1, fun id c hget => (hboth hget).2⟩

/-- One action returns. -/
theorem WithinBudget.step_returns {max : UInt64} (h : WithinBudget max w) (blake3 : Blake3)
    (hguest : guest.Budgeted max) (host : HostSource Ω) (ha : a ≠ .enableReplication 0)
    (hroom : a.isCycle = true → w.clock + 1 < 2 ^ 64 ∧ max.toNat * (w.clock + 1) < 2 ^ 64) :
    ∃ w', World.step blake3 (guest.executor host) w a = .ok w' := by
  cases a with
  | spawn config mode => exact ⟨_, rfl⟩
  | spawnReplay config entries => exact ⟨_, rfl⟩
  | enableReplication capacity =>
    have hpos : 0 < capacity := by
      rcases Nat.eq_zero_or_pos capacity with rfl | hpos
      · exact absurd rfl ha
      · exact hpos
    have hring : Action.ReplaysFrom (fun _ => []) (.enableReplication capacity) := hpos
    exact invisible_returns h.deliverable rfl hring
  | cycle visit =>
    obtain ⟨hclock, hroom⟩ := hroom rfl
    cases hcycle : w.supervisor.runOneCycle blake3 (guest.executor host) visit w.executor with
    | ok r =>
      simp only [World.step, hcycle, ok_bind, pure_ok]
      exact ⟨_, rfl⟩
    | error panic =>
      obtain ⟨id, c, hget, hpanic⟩ := runOneCycle_error h.registered hclock hcycle
      obtain ⟨result, ran, e, hreturns, -⟩ := h.quantum hguest host hroom hget
      rw [hreturns] at hpanic
      cases hpanic
  | pop =>
    have hring : Action.ReplaysFrom (fun _ => []) .pop := trivial
    exact invisible_returns h.deliverable rfl hring
  | apply =>
    have hring : Action.ReplaysFrom (fun _ => []) .apply := trivial
    exact invisible_returns h.deliverable rfl hring

theorem WithinBudget.step {max : UInt64} (h : WithinBudget max w) (hguest : guest.Budgeted max)
    (haligned : ∀ config, a.config? = some config →
      config.initialMemoryBytes.toNat % pageSize = 0)
    (hroom : a.isCycle = true → max.toNat * (w.clock + 1) < 2 ^ 64)
    (hstep : World.step blake3 (guest.executor host) w a = .ok w') : WithinBudget max w' := by
  have hregistered := h.registered.step hstep
  have hdeliverable := h.deliverable.step hstep
  have hcommitted := h.committed.step (h.meetsAssertions hguest host).reads haligned hstep
  cases step_cases hstep with
  | idle => exact h
  | @spawned _ config memory recorder haction =>
    refine ⟨hregistered, hdeliverable, hcommitted, h.max_eq, ?_⟩
    intro id c hget
    rw [HashMap.get?_insert] at hget
    split_ifs at hget with hid
    · cases hget
      rcases haction with ⟨mode, -, rfl⟩ | ⟨entries, -, rfl⟩
      · exact Nat.zero_le _
      · exact Nat.zero_le _
    · exact h.ordinals id c hget
  | enabled => exact ⟨hregistered, hdeliverable, hcommitted, h.max_eq, h.ordinals⟩
  | cycled d =>
    have hmax := hroom rfl
    obtain ⟨hclock, htick⟩ := clock_cycled d
    refine ⟨hregistered, hdeliverable, hcommitted, d.max_eq.trans h.max_eq, ?_⟩
    intro id c hget
    have hnow : UInt64.toNat _ = w.clock + 1 := (congrArg UInt64.toNat hclock).trans htick
    show c.recorder.currentOrdinal.toNat ≤ max.toNat * UInt64.toNat _
    rw [hnow]
    dsimp only at hget
    rw [d.cells_eq, HashMap.get?_insert] at hget
    split_ifs at hget with hid
    · cases hget
      rw [(recorder_stored d).1]
      obtain ⟨result, ran, e, hran, hle⟩ := h.quantum hguest host hmax d.before_eq
      rw [d.ran_eq] at hran
      cases hran
      exact hle
    · have hold := h.ordinals id c hget
      rw [Nat.mul_succ]
      omega
  | popped => exact ⟨hregistered, hdeliverable, hcommitted, h.max_eq, h.ordinals⟩
  | accepted => exact ⟨hregistered, hdeliverable, hcommitted, h.max_eq, h.ordinals⟩
  | refused => exact ⟨hregistered, hdeliverable, hcommitted, h.max_eq, h.ordinals⟩

/-- A run returns in both builds if the counters have room for all its cycles. -/
theorem WithinBudget.run_returns {max : UInt64} (h : WithinBudget max w)
    (hguest : guest.Budgeted max)
    (haligned : ∀ a ∈ actions, ∀ config, a.config? = some config →
      config.initialMemoryBytes.toNat % pageSize = 0)
    (hactions : Action.enableReplication 0 ∉ actions)
    (hcycles : w.clock + actions.countP Action.isCycle < 2 ^ 64)
    (hroom : max.toNat * (w.clock + actions.countP Action.isCycle) < 2 ^ 64) :
    ∃ w', run (stepAsserted blake3 (guest.executorAsserted host)) w actions = .ok w' ∧
      run (World.step blake3 (guest.executor host)) w actions = .ok w' := by
  induction actions generalizing w with
  | nil => exact ⟨w, rfl, rfl⟩
  | cons a actions ih =>
    rw [List.countP_cons] at hcycles hroom
    have hnow : a.isCycle = true →
        w.clock + 1 < 2 ^ 64 ∧ max.toNat * (w.clock + 1) < 2 ^ 64 := by
      intro hcycle
      rw [if_pos hcycle] at hcycles hroom
      refine ⟨by omega, lt_of_le_of_lt (Nat.mul_le_mul_left _ ?_) hroom⟩
      omega
    have ha : a ≠ .enableReplication 0 := fun heq => hactions (heq ▸ List.mem_cons_self)
    obtain ⟨w₁, hstep⟩ := h.step_returns blake3 hguest host ha hnow
    have hasserted := stepAsserted_eq (h.meetsAssertions hguest host) blake3 a
    have hclock := clock_step_le hstep
    have hlater : w₁.clock + actions.countP Action.isCycle ≤
        w.clock + (actions.countP Action.isCycle + if a.isCycle then 1 else 0) := by omega
    obtain ⟨w', hdebug, hrun⟩ := ih
      (h.step hguest (haligned a List.mem_cons_self) (fun hc => (hnow hc).2) hstep)
      (fun a ha => haligned a (List.mem_cons_of_mem _ ha))
      (fun hmem => hactions (List.mem_cons_of_mem a hmem)) (lt_of_le_of_lt hlater hcycles)
      (lt_of_le_of_lt (Nat.mul_le_mul_left _ hlater) hroom)
    exact ⟨w', run_cons_eq_ok.mpr ⟨w₁, hasserted.trans hstep, hdebug⟩,
      run_cons_eq_ok.mpr ⟨w₁, hstep, hrun⟩⟩

/-- No guest can bring the supervisor down. Guests that keep to their number of instructions and
mark by hand only committed pages may fault, store and grow out of bounds, fill the ring and miss
entries of a log. If the cells start with whole pages, then as long as the clock and the call
counters have room, a run of any actions returns, with the debug assertions and without, to the
same end, exactly when no ring of capacity zero is asked for. -/
theorem guests_never_panic (blake3 : Blake3) (guest : Guest S) (host : HostSource Ω)
    (max : UInt64) (state : S) (ω : Ω) (pages : ℕ) (actions : List Action)
    (hguest : guest.Budgeted max)
    (haligned : ∀ a ∈ actions, ∀ config, a.config? = some config →
      config.initialMemoryBytes.toNat % pageSize = 0)
    (hcycles : actions.countP Action.isCycle < 2 ^ 64)
    (hroom : max.toNat * actions.countP Action.isCycle < 2 ^ 64) :
    (∃ w, run (stepAsserted blake3 (guest.executorAsserted host)) (new max ⟨state, ω, []⟩ pages)
        actions = .ok w ∧
      run (World.step blake3 (guest.executor host)) (new max ⟨state, ω, []⟩ pages) actions =
        .ok w) ↔ .enableReplication 0 ∉ actions := by
  constructor
  · rintro ⟨w, -, hrun⟩ hmem
    obtain ⟨before, later, rfl⟩ := List.append_of_mem hmem
    obtain ⟨t, -, hrest⟩ := run_append_eq_ok.mp hrun
    obtain ⟨t', hstep, -⟩ := run_cons_eq_ok.mp hrest
    cases hstep
  · intro hactions
    have hzero : (new max (⟨state, ω, []⟩ : GuestState S Ω) pages).clock = 0 := rfl
    apply (withinBudget_new max _ pages).run_returns hguest haligned hactions
    · rw [hzero, Nat.zero_add]
      exact hcycles
    · rw [hzero, Nat.zero_add]
      exact hroom

/-- A guest that stores past the end, grows, marks the page it is granted and asks for the
time, and that traps when it is granted none. -/
def hostile : Guest Unit where
  program _ view _ := .store 4294967295 1 (fun _ => 7) fun _ => .grow 1 fun
    | .ok _ => .markDirty (view.sizeBytes.toNat / pageSize) (.hostCall (.clock 3) fun _ =>
        .finish (.ok 1) ())
    | .error _ => .finish (.error (.trap "memory")) ()
  registerDigest _ _ := fun _ => 0

theorem hostile_budgeted : hostile.Budgeted 100 := by
  intro _ view _
  exact ⟨fun _ => ⟨Nat.lt_succ_self _, by decide, fun _ => trivial⟩, fun _ => trivial⟩

/-- Two such guests, one of which replays an empty log: the second checkpoint finds the ring
full, and from the third cycle on there is no memory left to grant. -/
theorem guests_never_panic_hostile :
    ∃ w, run (stepAsserted (fun _ _ => 0) (hostile.executorAsserted (.frozen 7)))
        (new 100 ⟨(), (), []⟩ 1)
        [.spawnReplay ⟨1, 4096, 8192, 1⟩ [], .spawn ⟨2, 4096, 8192, 1⟩ .record,
          .enableReplication 1, .ascendingCycle, .ascendingCycle, .ascendingCycle] = .ok w ∧
      run (World.step (fun _ _ => 0) (hostile.executor (.frozen 7))) (new 100 ⟨(), (), []⟩ 1)
        [.spawnReplay ⟨1, 4096, 8192, 1⟩ [], .spawn ⟨2, 4096, 8192, 1⟩ .record,
          .enableReplication 1, .ascendingCycle, .ascendingCycle, .ascendingCycle] = .ok w :=
  (guests_never_panic _ hostile (HostSource.frozen 7) 100 () () 1 _ hostile_budgeted
    (by simp [Action.config?, Action.ascendingCycle, pageSize]) (by decide)
    (by decide)).mpr (by simp [Action.ascendingCycle])

end World
end ChronosUvm
