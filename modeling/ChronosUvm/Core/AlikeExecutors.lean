import Mathlib.Tactic
import ChronosUvm.Core.AlikeCells

/-!
Executors that treat one cell alike and are free on all others. A deployment in which
every tenant has a guest, a state and a host of its own is of this kind.
-/
namespace ChronosUvm
open Panicking Tables MmapGuardedMemory

section Executors
variable {E E' : Type}

/-- Two quanta do the same to the cells `cell` and `cell'`: the same operations on their
memories, every page they write being marked, and the same to all the rest, of which the
checkpoint chain and the id are left alone. -/
structure SameQuantum (cell cell' ran ran' : Cell) (result result' : Except QuantumFault UInt64) :
    Prop where
  result_eq : result' = result
  rest_eq : ran' = { ran with memory := ran'.memory }
  chain_eq : ran.checkpoints = cell.checkpoints
  id_eq : ran.config.id = cell.config.id
  memory : ∃ ops, MarksWrites ops ∧ Performs cell.memory ops ran.memory ∧
    Performs cell'.memory ops ran'.memory

/-- Two executors that behave alike on the cell `id`, where `own` relates what they keep for
it. On the cell they do the same whenever it looks the same to them apart from its dirty bits.
What they do on any other cell is up to them, except that it leaves what they keep for `id`,
and does not pass the other cell off as `id`. -/
structure QuantumExecutor.AlikeOn (id : CellId) (executor : QuantumExecutor E)
    (executor' : QuantumExecutor E') (own : E → E' → Prop) : Prop where
  quantum : ∀ {e e' cell cell' n result result' ran ran' e₁ e₁'}, own e e' →
    cell.config.id = id → cell'.view = cell.view → cell'.recorder = cell.recorder →
    executor.runQuantum e cell n = .ok (result, ran, e₁) →
    executor'.runQuantum e' cell' n = .ok (result', ran', e₁') →
    SameQuantum cell cell' ran ran' result result' ∧ own e₁ e₁'
  digest : ∀ {e e' cell cell'}, own e e' → cell.config.id = id → cell'.view = cell.view →
    cell'.recorder = cell.recorder →
    executor'.registerDigest e' cell' = executor.registerDigest e cell
  others : ∀ {e e' cell n result ran e₁}, own e e' → cell.config.id ≠ id →
    executor.runQuantum e cell n = .ok (result, ran, e₁) → own e₁ e' ∧ ran.config.id ≠ id
  others' : ∀ {e e' cell n result ran e₁'}, own e e' → cell.config.id ≠ id →
    executor'.runQuantum e' cell n = .ok (result, ran, e₁') → own e e₁' ∧ ran.config.id ≠ id

end Executors

/-- The same quantum leaves alike cells alike. -/
theorem Cell.Alike.quantum {blake3 : Blake3} {cell cell' ran ran' : Cell}
    {result result' : Except QuantumFault UInt64} (h : cell.Alike blake3 cell')
    (hsame : SameQuantum cell cell' ran ran' result result') :
    ran.Alike blake3 ran' ∧ ran'.recorder = ran.recorder := by
  obtain ⟨ops, hmarks, hops, hops'⟩ := hsame.memory
  have hmemory := h.memory.performs hmarks hops hops'
  have hlt := h.leaf_lt
  rw [← hsame.chain_eq] at hmemory hlt
  rw [hsame.rest_eq]
  exact ⟨⟨rfl, rfl, rfl, rfl, rfl, hlt, hmemory⟩, rfl⟩

variable {S Ω : Type}

/-- Cells with the same view and recorder differ in dirty bits only. -/
theorem Cell.eq_of_view {c c' : Cell} (hview : c'.view = c.view)
    (hrecorder : c'.recorder = c.recorder) :
    c' = { c with memory := c'.memory } ∧
      MmapGuardedMemory.Alike (fun _ _ => True) c.memory c'.memory := by
  obtain ⟨config, memory, recorder, checkpoints, fdTable, pendingIo, last⟩ := c
  obtain ⟨config', memory', recorder', checkpoints', fdTable', pendingIo', last'⟩ := c'
  simp only [view, GuestView.mk.injEq] at hview
  obtain ⟨rfl, hbytes, hsize, hquota, rfl, rfl, rfl, rfl⟩ := hview
  cases hrecorder
  exact ⟨rfl, hbytes, hsize, hquota, fun _ _ => trivial⟩

/-- A guest program run on two such cells performs the same operations on both. -/
theorem GuestProgram.run_same {host : HostSource Ω} {program : GuestProgram S}
    {c c' ran ran' : Cell} {ω : Ω} {calls : List HostEvent}
    {result result' : Except QuantumFault UInt64} {e e' : GuestState S Ω}
    (hrest : c' = { c with memory := c'.memory })
    (hmemory : MmapGuardedMemory.Alike (fun _ _ => True) c.memory c'.memory)
    (h : program.run host c ω calls = .ok (result, ran, e))
    (h' : program.run host c' ω calls = .ok (result', ran', e')) :
    result' = result ∧ ran' = { ran with memory := ran'.memory } ∧ e' = e ∧
      ∃ ops, MarksWrites ops ∧ Performs c.memory ops ran.memory ∧
        Performs c'.memory ops ran'.memory := by
  induction program generalizing c c' ω calls with
  | finish r s =>
    cases h
    cases h'
    exact ⟨rfl, hrest, rfl, [], by simp [MarksWrites], .nil _, .nil _⟩
  | store ptr len data next ih =>
    obtain ⟨⟨r, memory⟩, hstore, h⟩ := bind_returned.mp h
    obtain ⟨⟨r', memory'⟩, hstore', h'⟩ := bind_returned.mp h'
    obtain ⟨memory₁, hstore₁, halike⟩ := hmemory.store hstore
    rw [hstore'] at hstore₁
    cases hstore₁
    obtain ⟨hresult, hran, he, ops, hmarks, hops, hops'⟩ :=
      ih r (by rw [hrest]) halike h h'
    exact ⟨hresult, hran, he, storeOps ptr len data r ++ ops,
      (marksWrites_storeOps ptr len data r).append hmarks, (performs_store hstore).append hops,
      (performs_store hstore').append hops'⟩
  | markDirty p next ih =>
    obtain ⟨memory, hmark, h⟩ := bind_returned.mp h
    obtain ⟨memory', hmark', h'⟩ := bind_returned.mp h'
    obtain ⟨memory₁, hmark₁, halike⟩ := (hmemory.mono fun _ _ => .inr).markDirty hmark
    rw [hmark'] at hmark₁
    cases hmark₁
    obtain ⟨hresult, hran, he, ops, hmarks, hops, hops'⟩ := ih (by rw [hrest]) halike h h'
    have honly : MarksWrites [.markDirty p] := by simp [MarksWrites]
    exact ⟨hresult, hran, he, .markDirty p :: ops, honly.append hmarks,
      .markDirty hmark hops, .markDirty hmark' hops'⟩
  | grow d next ih =>
    obtain ⟨hgrown, halike⟩ := hmemory.grow d
    rw [run, hgrown] at h'
    obtain ⟨hresult, hran, he, ops, hmarks, hops, hops'⟩ := ih _ (by rw [hrest]) halike h h'
    have honly : MarksWrites [.grow d] := by simp [MarksWrites]
    exact ⟨hresult, hran, he, .grow d :: ops, honly.append hmarks, .grow hops, .grow hops'⟩
  | hostCall call next ih =>
    obtain ⟨⟨r, recorder, ω₁⟩, hcall, h⟩ := bind_returned.mp h
    obtain ⟨⟨r', recorder', ω₁'⟩, hcall', h'⟩ := bind_returned.mp h'
    have hrecorder : c'.recorder = c.recorder := by rw [hrest]
    have hid : c'.config.id = c.config.id := by rw [hrest]
    rw [hrecorder, hcall] at hcall'
    cases hcall'
    rw [hid] at h'
    have hnext := fun hcells halike => ih r hcells halike h h'
    exact hnext (by rw [hrest]) hmemory

namespace Guest

/-- Every tenant has a guest of its own, and its own state, host and record of host calls. -/
def tenants (guests : CellId → Guest S) (host : HostSource Ω) :
    QuantumExecutor (CellId → GuestState S Ω) where
  runQuantum e cell n := do
    let own := e cell.config.id
    let (result, ran, own) ← ((guests cell.config.id).executor host).runQuantum own cell n
    return (result, ran, Function.update e cell.config.id own)
  registerDigest e cell :=
    ((guests cell.config.id).executor host).registerDigest (e cell.config.id) cell

/-- What a quantum of one tenant leaves. -/
theorem tenants_eq_ok {guests : CellId → Guest S} {host : HostSource Ω}
    {e e₁ : CellId → GuestState S Ω} {cell ran : Cell} {n : UInt64}
    {result : Except QuantumFault UInt64}
    (h : (tenants guests host).runQuantum e cell n = .ok (result, ran, e₁)) :
    ∃ own, ((guests cell.config.id).executor host).runQuantum (e cell.config.id) cell n =
        .ok (result, ran, own) ∧
      e₁ = Function.update e cell.config.id own ∧ ran.checkpoints = cell.checkpoints ∧
      ran.config = cell.config := by
  obtain ⟨⟨r, ran', own⟩, hquantum, h⟩ := bind_returned.mp h
  cases h
  have hrest := (GuestProgram.run_effect hquantum).2
  exact ⟨own, hquantum, rfl, by rw [hrest], by rw [hrest]⟩

/-- Deployments of tenants with the same guest at `id` behave alike on it. -/
theorem tenants_alikeOn (guests guests' : CellId → Guest S) (host : HostSource Ω) (id : CellId)
    (hguest : guests' id = guests id) :
    (tenants guests host).AlikeOn id (tenants guests' host) (fun e e' => e' id = e id) where
  quantum := by
    intro e e' cell cell' n result result' ran ran' e₁ e₁' hown hid hview hrecorder h h'
    obtain ⟨own, hquantum, rfl, hchain, hconfig⟩ := tenants_eq_ok h
    obtain ⟨own', hquantum', rfl, -, -⟩ := tenants_eq_ok h'
    obtain ⟨hrest, hmemory⟩ := Cell.eq_of_view hview hrecorder
    have hid' : cell'.config.id = id := by rw [hrest, ← hid]
    rw [hid] at hquantum ⊢
    rw [hid', hguest, hown] at hquantum'
    rw [hid']
    have hprogram' : ((guests id).program (e id).state cell.view n).run host cell' (e id).host
        (e id).calls = .ok (result', ran', own') := hview ▸ hquantum'
    obtain ⟨hresult, hran, hsame, hops⟩ := GuestProgram.run_same hrest hmemory hquantum hprogram'
    refine ⟨⟨hresult, hran, hchain, by rw [hconfig], hops⟩, ?_⟩
    rw [Function.update_self, Function.update_self, hsame]
  digest := by
    intro e e' cell cell' hown hid hview hrecorder
    have hid' : cell'.config.id = id := by rw [(Cell.eq_of_view hview hrecorder).1, ← hid]
    show (guests' cell'.config.id).registerDigest (e' cell'.config.id).state cell'.view =
      (guests cell.config.id).registerDigest (e cell.config.id).state cell.view
    rw [hid', hid, hguest, hown, hview]
  others := by
    intro e e' cell n result ran e₁ hown hid h
    obtain ⟨own, -, rfl, -, hconfig⟩ := tenants_eq_ok h
    exact ⟨by rw [Function.update_of_ne (Ne.symm hid)]; exact hown, by rw [hconfig]; exact hid⟩
  others' := by
    intro e e' cell n result ran e₁' hown hid h
    obtain ⟨own, -, rfl, -, hconfig⟩ := tenants_eq_ok h
    exact ⟨by rw [Function.update_of_ne (Ne.symm hid)]; exact hown, by rw [hconfig]; exact hid⟩

end Guest
end ChronosUvm
