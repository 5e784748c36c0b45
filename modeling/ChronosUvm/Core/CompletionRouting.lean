import Mathlib.Tactic
import ChronosUvm.Core.Supervisor
import ChronosUvm.Io.UserData

/-!
The way of a completion back to its request. The supervisor accepts any cell id, a
descriptor table numbers its descriptors without bound, and the request id is any
64-bit number, but the user data has 24, 20 and 20 bits for them.
-/
namespace ChronosUvm
open Panicking Tables

/-- A spawned cell starts with an empty descriptor table. -/
theorem fdTable_of_spawnCell {s s' : Supervisor} {config : CellConfig} {mode : RecorderMode}
    {c : Cell} (h : s.spawnCell config mode = (.ok (), s')) (hcell : s'.cell config.id = some c) :
    c.fdTable = FdTable.new := by
  rcases s.spawnCell_cases config mode with ⟨error, herror⟩ | ⟨cell, hnew, -, hok⟩
  · rw [herror] at h
    cases h
  · rw [hok] at h
    cases h
    obtain ⟨m, -, rfl⟩ := Cell.new_eq_ok hnew
    unfold Supervisor.cell at hcell
    rw [HashMap.get?_insert_self] at hcell
    cases hcell
    rfl

/-- A completion goes back to the request that issued it exactly when the id of the
accepted cell, the number of descriptors issued before and the request id all fit. -/
theorem completion_returns_iff (s s' : Supervisor) (config : CellConfig) (mode : RecorderMode)
    (c : Cell) (hspawn : s.spawnCell config mode = (.ok (), s'))
    (hcell : s'.cell config.id = some c) (ops : List FdTable.Op) (issued : List GuestFd)
    (t : FdTable) (hops : c.fdTable.run ops = .ok (issued, t)) (k : Fin issued.length)
    (requestId : UInt64) (result : Int32) :
    (unpackUserData (packUserData config.id (issued.get k) requestId) =
        (config.id, issued.get k, requestId) ∧
      pollCompletions [⟨packUserData config.id (issued.get k) requestId, result⟩] =
        [⟨config.id, issued.get k, requestId, result⟩]) ↔
    config.id.toNat < 2 ^ 24 ∧ k.val < 2 ^ 20 - 3 ∧ requestId.toNat < 2 ^ 20 := by
  rw [fdTable_of_spawnCell hspawn hcell] at hops
  have hfd : (issued.get k).toNat = 3 + k := FdTable.issued_eq hops k.isLt
  have hiff := unpack_pack_iff config.id (issued.get k) requestId
  rw [hfd] at hiff
  constructor
  · intro h
    obtain ⟨hid, hk, hrequest⟩ := hiff.mp h.1
    exact ⟨hid, by omega, hrequest⟩
  · intro ⟨hid, hk, hrequest⟩
    have hunpack := hiff.mpr ⟨hid, by omega, hrequest⟩
    refine ⟨hunpack, ?_⟩
    unfold pollCompletions
    simp only [List.map_cons, List.map_nil, hunpack]

/-- The first descriptor of cell 1. -/
theorem completion_returns_iff_first :
    ∃ s' c t, (Supervisor.new 100).spawnCell ⟨1, 4096, 4096, 1⟩ .record = (.ok (), s') ∧
      s'.cell 1 = some c ∧ c.fdTable.run [.register 9] = .ok ([3], t) ∧
      unpackUserData (packUserData 1 3 0) = (1, 3, 0) := by
  have hspawn : ∃ s' c t,
      (Supervisor.new 100).spawnCell ⟨1, 4096, 4096, 1⟩ .record = (.ok (), s') ∧
      s'.cell 1 = some c ∧ c.fdTable.run [.register 9] = .ok ([3], t) := ⟨_, _, _, rfl, rfl, rfl⟩
  obtain ⟨s', c, t, hspawn, hcell, hops⟩ := hspawn
  have hiff := completion_returns_iff _ s' ⟨1, 4096, 4096, 1⟩ .record c hspawn hcell _ _ t hops
    0 0 0
  exact ⟨s', c, t, hspawn, hcell, hops, (hiff.mpr (by decide)).1⟩

/-- The first cell id that does not fit is accepted, and its completions are reported for
cell 0. -/
theorem completion_misrouted :
    ∃ s' c t, (Supervisor.new 100).spawnCell ⟨16777216, 4096, 4096, 1⟩ .record = (.ok (), s') ∧
      s'.cell 16777216 = some c ∧ c.fdTable.run [.register 9] = .ok ([3], t) ∧
      unpackUserData (packUserData 16777216 3 0) ≠ (16777216, 3, 0) ∧
      pollCompletions [⟨packUserData 16777216 3 0, 0⟩] = [⟨0, 3, 0, 0⟩] :=
  ⟨_, _, _, rfl, rfl, rfl, by decide, by decide⟩

end ChronosUvm
