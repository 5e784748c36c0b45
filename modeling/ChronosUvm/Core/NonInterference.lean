import Mathlib.Tactic
import ChronosUvm.Core.AlikeExecutors

/-!
Tenants do not interfere with each other's integrity chains. Two runs share the spawns
and the positions of the cycles, and their executors treat one cell alike; the other
cells, the rings and the consumers are at liberty. The tick, the order and the ring are
common to all cells, yet the one cell gets the same turns, the same contents and the
same checkpoints.
-/
namespace ChronosUvm
open Panicking Tables Transitions MmapGuardedMemory

/-- The part of a run that the other tenants have no say in: the spawns and the cycles. -/
def Action.shared : Action → Option (Option (CellConfig × EventRecorder))
  | .spawn config mode => some (some (config, EventRecorder.new mode))
  | .spawnReplay config entries => some (some (config, EventRecorder.fromReplayLog entries))
  | .cycle _ => some none
  | .enableReplication _ | .pop | .apply => none

theorem Action.visible_eq_none {a : Action} (h : a.shared = none) : a.visible = none := by
  cases a with
  | spawn config mode => cases h
  | spawnReplay config entries => cases h
  | cycle visit => cases h
  | enableReplication capacity => rfl
  | pop => rfl
  | apply => rfl

theorem Action.shared_eq_cycle {a : Action} (h : a.shared = some none) :
    ∃ visit, a = .cycle visit := by
  cases a with
  | cycle visit => exact ⟨visit, rfl⟩
  | _ => cases h

namespace World
variable {E E' : Type} {blake3 : Blake3} {executor : QuantumExecutor E}
  {executor' : QuantumExecutor E'} {own : E → E' → Prop} {id : CellId}
  {w u : World E} {w' u' : World E'} {a : Action}

/-- The memory contents that the quanta of a cell left, with their ticks. -/
def contentsOf (id : CellId) (w : World E) : List (Tick × (ℕ → UInt8) × UInt32) :=
  (w.quanta.filter fun q => q.cell = id).map fun q => (q.tick, q.memory.bytes, q.memory.sizeBytes)

/-- A cell is known by its own id exactly under that id. -/
def Labelled (id : CellId) (s : Supervisor) : Prop :=
  ∀ x c, s.cells.get? x = some c → (c.config.id = id ↔ x = id)

theorem Labelled.insert {s s' : Supervisor} (h : Labelled id s) {x : CellId} {c : Cell}
    (hcells : s'.cells = s.cells.insert x c) (hc : c.config.id = id ↔ x = id) :
    Labelled id s' := by
  intro y d hget
  rw [hcells, HashMap.get?_insert] at hget
  split_ifs at hget with hxy
  · cases hget
    rw [hxy]
    exact hc
  · exact h y d hget

/-- Two worlds between which the cell `id` sees no difference. -/
structure Unaffected (blake3 : Blake3) (own : E → E' → Prop) (id : CellId) (w : World E)
    (w' : World E') : Prop where
  scheduler_eq : w'.supervisor.scheduler = w.supervisor.scheduler
  max_eq : w'.supervisor.maxInstructionsPerQuantum = w.supervisor.maxInstructionsPerQuantum
  mem_iff : ∀ x, x ∈ w'.supervisor.cells ↔ x ∈ w.supervisor.cells
  labelled : Labelled id w.supervisor
  labelled' : Labelled id w'.supervisor
  own_rel : own w.executor w'.executor
  cells : ∀ c c', w.supervisor.cells.get? id = some c → w'.supervisor.cells.get? id = some c' →
    c.Alike blake3 c' ∧ c'.recorder = c.recorder
  contents_eq : w'.contentsOf id = w.contentsOf id

/-- Rings, consumers and standbys make no difference. -/
theorem Unaffected.congr (h : Unaffected blake3 own id w w') {ring ring' : Option DeltaRing}
    (hsupervisor : u.supervisor = { w.supervisor with replication := ring })
    (hexecutor : u.executor = w.executor) (hquanta : u.quanta = w.quanta)
    (hsupervisor' : u'.supervisor = { w'.supervisor with replication := ring' })
    (hexecutor' : u'.executor = w'.executor) (hquanta' : u'.quanta = w'.quanta) :
    Unaffected blake3 own id u u' := by
  constructor
  · rw [hsupervisor, hsupervisor', h.scheduler_eq]
  · rw [hsupervisor, hsupervisor', h.max_eq]
  · rw [hsupervisor, hsupervisor']
    exact h.mem_iff
  · rw [hsupervisor]
    exact h.labelled
  · rw [hsupervisor']
    exact h.labelled'
  · rw [hexecutor, hexecutor']
    exact h.own_rel
  · rw [hsupervisor, hsupervisor']
    exact h.cells
  · rw [contentsOf, contentsOf, hquanta, hquanta']
    exact h.contents_eq

theorem Unaffected.left (h : Unaffected blake3 own id w w') (ha : a.shared = none)
    (hstep : World.step blake3 executor w a = .ok u) : Unaffected blake3 own id u w' := by
  obtain ⟨⟨ring, hsupervisor⟩, hexecutor, hquanta⟩ :=
    invisible_step (Action.visible_eq_none ha) hstep
  exact h.congr hsupervisor hexecutor hquanta rfl rfl rfl

theorem Unaffected.right (h : Unaffected blake3 own id w w') (ha : a.shared = none)
    (hstep : World.step blake3 executor' w' a = .ok u') : Unaffected blake3 own id w u' := by
  obtain ⟨⟨ring, hsupervisor⟩, hexecutor, hquanta⟩ :=
    invisible_step (Action.visible_eq_none ha) hstep
  exact h.congr rfl rfl rfl hsupervisor hexecutor hquanta

/-- The same spawn, accepted on both sides or refused on both. -/
theorem Unaffected.spawn (h : Unaffected blake3 own id w w') (config : CellConfig)
    (recorder : EventRecorder) :
    Unaffected blake3 own id
      { w with supervisor := w.supervisor.spawnWith config recorder }
      { w' with supervisor := w'.supervisor.spawnWith config recorder } := by
  unfold Supervisor.spawnWith
  simp only [h.mem_iff]
  split_ifs with hcase
  · exact h.congr rfl rfl rfl rfl rfl rfl
  · cases MmapGuardedMemory.new config.initialMemoryBytes config.quotaBytes with
    | error fault => exact h.congr rfl rfl rfl rfl rfl rfl
    | ok memory =>
      refine ⟨?_, h.max_eq, ?_, h.labelled.insert rfl Iff.rfl, h.labelled'.insert rfl Iff.rfl,
        h.own_rel, ?_, h.contents_eq⟩
      · simp only [h.scheduler_eq]
      · intro x
        simp only [Finmap.mem_insert, h.mem_iff]
      · intro c c' hc hc'
        rw [HashMap.get?_insert] at hc hc'
        split_ifs at hc hc' with hid
        · cases hc
          cases hc'
          exact ⟨Cell.alike_fresh blake3 config memory recorder recorder, rfl⟩
        · exact h.cells c c' hc hc'

theorem step_of_shared (executor : QuantumExecutor E) (w : World E) {config : CellConfig}
    {recorder : EventRecorder} (ha : a.shared = some (some (config, recorder))) :
    World.step blake3 executor w a =
      .ok { w with supervisor := w.supervisor.spawnWith config recorder } := by
  cases a with
  | spawn config mode =>
    cases ha
    rw [← Supervisor.spawnCell_eq_spawnWith]
    rfl
  | spawnReplay config entries =>
    cases ha
    rw [← Supervisor.spawnReplayCell_eq_spawnWith]
    rfl
  | _ => cases ha

/-- What a dispatched cycle leaves, whatever the dispatched cell. -/
theorem contentsOf_cycle {visit : VisitOrder} {s : Supervisor} {e : E}
    {reported : Except SupervisorError (Option (CellId × Tick))}
    (d : Supervisor.Dispatch blake3 executor visit w.supervisor s w.executor e reported)
    (flushes : List Flush) :
    contentsOf id { w with
      supervisor := s
      executor := e
      quanta := w.quanta ++ observeQuantum executor w.supervisor s w.executor
      flushes := flushes } =
    w.contentsOf id ++
      if d.id = id then [(d.tick, d.ran.memory.bytes, d.ran.memory.sizeBytes)] else [] := by
  unfold contentsOf
  rw [observeQuantum_eq d, List.filter_append, List.map_append]
  by_cases hid : d.id = id <;> simp [hid]

/-- The turn of the cell itself: the quanta do the same, and so do the checkpoints. -/
theorem Unaffected.own_turn (h : Unaffected blake3 own id w w')
    (halike : executor.AlikeOn id executor' own) {visit visit' : VisitOrder}
    {s s' : Supervisor} {e : E} {e' : E'}
    {reported reported' : Except SupervisorError (Option (CellId × Tick))}
    (d : Supervisor.Dispatch blake3 executor visit w.supervisor s w.executor e reported)
    (d' : Supervisor.Dispatch blake3 executor' visit' w'.supervisor s' w'.executor e' reported')
    (hid : d.id = id) :
    own e e' ∧ d.ran.config.id = id ∧ d.ran.Alike blake3 d'.ran ∧
      d.stored.Alike blake3 d'.stored ∧ d'.stored.recorder = d.stored.recorder := by
  obtain ⟨hid', -, htick⟩ := d.turn_eq d' h.scheduler_eq
  have hbefore := d.before_eq
  have hbefore' := d'.before_eq
  rw [hid] at hbefore
  rw [hid', hid] at hbefore'
  obtain ⟨hcells, hrecorder⟩ := h.cells _ _ hbefore hbefore'
  have hlabel : d.before.delivered.config.id = id := (h.labelled id _ hbefore).mpr rfl
  have hran' := d'.ran_eq
  rw [h.max_eq] at hran'
  obtain ⟨hsame, hown⟩ := halike.quantum h.own_rel hlabel hcells.delivered.view_eq hrecorder
    d.ran_eq hran'
  obtain ⟨hran, hrecorder'⟩ := hcells.delivered.quantum hsame
  have hlabel' : d.ran.config.id = id := hsame.id_eq.trans hlabel
  have hended := d'.ended
  rw [hid', htick, hsame.result_eq, hcells.checkpointDue_eq,
    halike.digest hown hlabel' hran.view_eq hrecorder'] at hended
  refine ⟨hown, hlabel', hran, hran.cycleEnd d.ended hended, ?_⟩
  rw [(recorder_stored d').1, (recorder_stored d).1, hrecorder']

/-- The turn of another cell: what is kept for `id` stays, and so does its label. -/
theorem Unaffected.others_turn (h : Unaffected blake3 own id w w')
    (halike : executor.AlikeOn id executor' own) {visit visit' : VisitOrder}
    {s s' : Supervisor} {e : E} {e' : E'}
    {reported reported' : Except SupervisorError (Option (CellId × Tick))}
    (d : Supervisor.Dispatch blake3 executor visit w.supervisor s w.executor e reported)
    (d' : Supervisor.Dispatch blake3 executor' visit' w'.supervisor s' w'.executor e' reported')
    (hid : d.id ≠ id) : own e e' ∧ d.ran.config.id ≠ id ∧ d'.ran.config.id ≠ id := by
  obtain ⟨hid', -, -⟩ := d.turn_eq d' h.scheduler_eq
  have hother : d.before.delivered.config.id ≠ id :=
    fun heq => hid ((h.labelled _ _ d.before_eq).mp heq)
  have hother' : d'.before.delivered.config.id ≠ id :=
    fun heq => hid (hid' ▸ (h.labelled' _ _ d'.before_eq).mp heq)
  obtain ⟨hown, hlabel⟩ := halike.others h.own_rel hother d.ran_eq
  obtain ⟨hown', hlabel'⟩ := halike.others' hown hother' d'.ran_eq
  exact ⟨hown', hlabel, hlabel'⟩

theorem Unaffected.cycle (h : Unaffected blake3 own id w w')
    (halike : executor.AlikeOn id executor' own) {visit visit' : VisitOrder}
    (hstep : World.step blake3 executor w (.cycle visit) = .ok u)
    (hstep' : World.step blake3 executor' w' (.cycle visit') = .ok u') :
    Unaffected blake3 own id u u' := by
  obtain ⟨⟨reported, s, e⟩, hcycle, hu⟩ := bind_returned.mp hstep
  obtain ⟨⟨reported', s', e'⟩, hcycle', hu'⟩ := bind_returned.mp hstep'
  cases hu
  cases hu'
  rcases Supervisor.runOneCycle_cases hcycle with ⟨horder, -, rfl, rfl⟩ | ⟨⟨d⟩⟩ <;>
    rcases Supervisor.runOneCycle_cases hcycle' with ⟨horder', -, hs', he'⟩ | ⟨⟨d'⟩⟩
  · subst hs' he'
    refine h.congr rfl rfl ?_ rfl rfl ?_
    · unfold observeQuantum
      simp only [Supervisor.quantumOf_idle executor _ horder, List.append_nil]
    · unfold observeQuantum
      simp only [Supervisor.quantumOf_idle executor' _ horder', List.append_nil]
  · have hfront := d'.order_eq
    rw [h.scheduler_eq, horder] at hfront
    cases hfront
  · rw [h.scheduler_eq, d.order_eq] at horder'
    cases horder'
  · obtain ⟨hid, hrest, htick⟩ := d.turn_eq d' h.scheduler_eq
    have hscheduler : s'.scheduler = s.scheduler := by
      rw [d'.scheduler_eq, d.scheduler_eq, hid, hrest, htick]
    have hmax : s'.maxInstructionsPerQuantum = s.maxInstructionsPerQuantum := by
      rw [d'.max_eq, d.max_eq, h.max_eq]
    have hmem (x : CellId) : x ∈ s'.cells ↔ x ∈ s.cells := by
      rw [d'.cells_eq, d.cells_eq, Finmap.mem_insert, Finmap.mem_insert, h.mem_iff, hid]
    by_cases hcase : d.id = id
    · obtain ⟨hown, hlabel, hran, hstored, hrecorder⟩ := h.own_turn halike d d' hcase
      have hlabel' : d'.ran.config.id = id := by rw [hran.config_eq, hlabel]
      refine ⟨hscheduler, hmax, hmem, h.labelled.insert d.cells_eq ?_,
        h.labelled'.insert d'.cells_eq ?_, hown, ?_, ?_⟩
      · rw [(recorder_stored d).2, hlabel, hcase]
      · rw [(recorder_stored d').2, hlabel', hid, hcase]
      · intro c c' hc hc'
        rw [d.cells_eq, hcase, HashMap.get?_insert_self] at hc
        rw [d'.cells_eq, hid, hcase, HashMap.get?_insert_self] at hc'
        cases hc
        cases hc'
        exact ⟨hstored, hrecorder⟩
      · rw [contentsOf_cycle d, contentsOf_cycle d', h.contents_eq, hid, htick,
          hran.memory.bytes_eq, hran.memory.size_eq]
    · obtain ⟨hown, hlabel, hlabel'⟩ := h.others_turn halike d d' hcase
      refine ⟨hscheduler, hmax, hmem, h.labelled.insert d.cells_eq ?_,
        h.labelled'.insert d'.cells_eq ?_, hown, ?_, ?_⟩
      · rw [(recorder_stored d).2]
        exact iff_of_false hlabel hcase
      · rw [(recorder_stored d').2, hid]
        exact iff_of_false hlabel' hcase
      · rw [d.cells_eq, d'.cells_eq, hid, HashMap.get?_insert_ne _ (Ne.symm hcase),
          HashMap.get?_insert_ne _ (Ne.symm hcase)]
        exact h.cells
      · rw [contentsOf_cycle d, contentsOf_cycle d', h.contents_eq, hid, if_neg hcase,
          if_neg hcase]

/-- The cell exists on both sides, or on neither. -/
theorem Unaffected.cell_cases (h : Unaffected blake3 own id w w') :
    (w.supervisor.cell id = none ∧ w'.supervisor.cell id = none) ∨
    ∃ c c', w.supervisor.cell id = some c ∧ w'.supervisor.cell id = some c' ∧
      c.Alike blake3 c' := by
  have hmem := h.mem_iff id
  rw [HashMap.mem_iff_get?, HashMap.mem_iff_get?] at hmem
  unfold Supervisor.cell
  cases hc : w.supervisor.cells.get? id with
  | none =>
    refine .inl ⟨rfl, Option.eq_none_iff_forall_ne_some.mpr fun c' hc' => ?_⟩
    obtain ⟨c, hsome⟩ := hmem.mp ⟨c', hc'⟩
    rw [hc] at hsome
    cases hsome
  | some c =>
    obtain ⟨c', hc'⟩ := hmem.mpr ⟨c, hc⟩
    exact .inr ⟨c, c', rfl, hc', (h.cells c c' hc hc').1⟩

/-- Tenant non-interference on the integrity chain. Two runs with the same spawns at the same
cycle positions, under executors that behave alike on the cell `id` and as they like on every
other one, with rings, capacities and consumers on either side as they like: the cell has the
same checkpoint entries and the same memory contents in both, now and after each of its
quanta. -/
theorem tenant_noninterference (blake3 : Blake3) (executor : QuantumExecutor E)
    (executor' : QuantumExecutor E') (own : E → E' → Prop) (id : CellId)
    (halike : executor.AlikeOn id executor' own) (max : UInt64) (e : E) (e' : E')
    (standbyPages standbyPages' : ℕ) (actions actions' : List Action) (w : World E) (w' : World E')
    (hown : own e e')
    (hsame : actions'.filterMap Action.shared = actions.filterMap Action.shared)
    (hrun : run (World.step blake3 executor) (new max e standbyPages) actions = .ok w)
    (hrun' : run (World.step blake3 executor') (new max e' standbyPages') actions' = .ok w') :
    (w'.supervisor.cell id).map (fun c => c.checkpoints.entries) =
        (w.supervisor.cell id).map (fun c => c.checkpoints.entries) ∧
      (w'.supervisor.cell id).map (fun c => (c.memory.bytes, c.memory.sizeBytes)) =
        (w.supervisor.cell id).map (fun c => (c.memory.bytes, c.memory.sizeBytes)) ∧
      w'.contentsOf id = w.contentsOf id := by
  have hstart : Unaffected blake3 own id (new max e standbyPages) (new max e' standbyPages') :=
    ⟨rfl, rfl, fun _ => Iff.rfl, fun _ _ h => (by cases h), fun _ _ h => (by cases h), hown,
      fun _ _ h => (by cases h), rfl⟩
  have hboth (a a' : Action) (b : Option (CellConfig × EventRecorder)) (t u : World E)
      (t' u' : World E') (ha : a.shared = some b) (ha' : a'.shared = some b)
      (hR : Unaffected blake3 own id t t') (hstep : World.step blake3 executor t a = .ok u)
      (hstep' : World.step blake3 executor' t' a' = .ok u') : Unaffected blake3 own id u u' := by
    cases b with
    | none =>
      obtain ⟨visit, rfl⟩ := Action.shared_eq_cycle ha
      obtain ⟨visit', rfl⟩ := Action.shared_eq_cycle ha'
      exact hR.cycle halike hstep hstep'
    | some spawned =>
      obtain ⟨config, recorder⟩ := spawned
      rw [step_of_shared executor t ha] at hstep
      rw [step_of_shared executor' t' ha'] at hstep'
      cases hstep
      cases hstep'
      exact hR.spawn config recorder
  have hend := run_lockstep (fun a t u t' ha hR hstep => hR.left ha hstep)
    (fun a t t' u' ha hR hstep => hR.right ha hstep) hboth hsame hstart hrun hrun'
  rcases hend.cell_cases with ⟨hnone, hnone'⟩ | ⟨c, c', hc, hc', hcells⟩
  · rw [hnone, hnone']
    exact ⟨rfl, rfl, hend.contents_eq⟩
  · rw [hc, hc', Option.map_some, Option.map_some, Option.map_some, Option.map_some,
      hcells.checkpoints_eq, hcells.memory.bytes_eq, hcells.memory.size_eq]
    exact ⟨rfl, rfl, hend.contents_eq⟩

/-- Tenant 2 fills the ring of one slot, so that both checkpoints of tenant 1 meet
backpressure; in the other run it grows idle and there is no ring. -/
theorem tenant_noninterference_full_ring :
    let executor := Guest.tenants (fun _ => Guest.scripted) (HostSource.frozen 7)
    let guests (script : List Guest.Instruction) (id : CellId) : GuestState _ Unit :=
      if id = 1 then ⟨[.poke 5 7, .poke 6 8], (), []⟩ else ⟨script, (), []⟩
    let start (script : List Guest.Instruction) := new 100 (guests script) 1
    let turns : List Action := [.spawn ⟨2, 8192, 8192, 1⟩ .record,
      .spawn ⟨1, 4096, 4096, 1⟩ .record, .ascendingCycle, .ascendingCycle, .ascendingCycle,
      .ascendingCycle]
    ∃ w w', run (World.step (fun _ _ => 0) executor) (start [.poke 5 9, .poke 4097 1])
        (.enableReplication 1 :: turns) = .ok w ∧
      run (World.step (fun _ _ => 0) executor) (start [.rest]) turns = .ok w' ∧
      (w.flushes.length = 1 ∧
        (w.supervisor.cell 1).map (fun c => c.checkpoints.entries.length) = some 2) ∧
      w'.flushes.length = 0 ∧
      (w'.supervisor.cell 1).map (fun c => c.checkpoints.entries) =
        (w.supervisor.cell 1).map (fun c => c.checkpoints.entries) ∧
      (w'.supervisor.cell 1).map (fun c => (c.memory.bytes, c.memory.sizeBytes)) =
        (w.supervisor.cell 1).map (fun c => (c.memory.bytes, c.memory.sizeBytes)) ∧
      w'.contentsOf 1 = w.contentsOf 1 := by
  intro executor guests start turns
  have hreturns : returnsWith (run (World.step (fun _ _ => 0) executor)
      (start [.poke 5 9, .poke 4097 1]) (.enableReplication 1 :: turns))
      (fun w => decide (w.flushes.length = 1 ∧
        (w.supervisor.cell 1).map (fun c => c.checkpoints.entries.length) = some 2)) = true := by
    decide +kernel
  have hreturns' : returnsWith (run (World.step (fun _ _ => 0) executor) (start [.rest]) turns)
      (fun w => decide (w.flushes.length = 0)) = true := by
    decide +kernel
  obtain ⟨w, hrun, hpushed⟩ := returnsWith_eq_true.mp hreturns
  obtain ⟨w', hrun', hpushed'⟩ := returnsWith_eq_true.mp hreturns'
  have hsame : turns.filterMap Action.shared =
      (.enableReplication 1 :: turns).filterMap Action.shared := rfl
  refine ⟨w, w', hrun, hrun', of_decide_eq_true hpushed, of_decide_eq_true hpushed', ?_⟩
  exact tenant_noninterference _ executor executor (fun e e' => e' 1 = e 1) 1
    (Guest.tenants_alikeOn _ _ _ 1 rfl) 100 (guests [.poke 5 9, .poke 4097 1]) (guests [.rest])
    1 1 _ _ w w' rfl hsame hrun hrun'

end World
end ChronosUvm
