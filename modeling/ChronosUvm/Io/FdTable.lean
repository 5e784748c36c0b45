import Mathlib.Tactic
import ChronosUvm.Foundations.Panicking
import ChronosUvm.Foundations.Tables

/-! Per-cell descriptors and the per-cell queue of I/O completions. -/
namespace ChronosUvm
open Panicking Tables

abbrev CellId := UInt64

abbrev GuestFd := UInt32

inductive IoError where
  | unknownFd (guestFd : GuestFd)
  deriving DecidableEq, Repr

structure IoCompletion where
  cell : CellId
  guestFd : GuestFd
  requestId : UInt64
  result : Int32
  deriving DecidableEq, Repr

structure FdTable where
  entries : HashMap GuestFd Int32
  nextGuestFd : GuestFd

namespace FdTable

/-- Descriptors 0, 1 and 2 are reserved. -/
def new : FdTable := ⟨∅, 3⟩

def register (t : FdTable) (hostFd : Int32) : Checked (GuestFd × FdTable) := do
  let guestFd := t.nextGuestFd
  let next ← addU32 t.nextGuestFd 1
  return (guestFd, ⟨t.entries.insert guestFd hostFd, next⟩)

def resolve (t : FdTable) (guestFd : GuestFd) : Except IoError Int32 :=
  match t.entries.get? guestFd with
  | some hostFd => .ok hostFd
  | none => .error (.unknownFd guestFd)

def close (t : FdTable) (guestFd : GuestFd) : Option Int32 × FdTable :=
  (t.entries.get? guestFd, { t with entries := t.entries.erase guestFd })

/-- The calls that change a table. -/
inductive Op where
  | register (hostFd : Int32)
  | close (guestFd : GuestFd)

/-- Run the calls in order and list the descriptors issued. -/
def run (t : FdTable) : List Op → Checked (List GuestFd × FdTable)
  | [] => .ok ([], t)
  | .register hostFd :: ops => do
    let (guestFd, t) ← t.register hostFd
    let (issued, t) ← t.run ops
    return (guestFd :: issued, t)
  | .close guestFd :: ops => (t.close guestFd).2.run ops

theorem register_eq_ok {t t' : FdTable} {hostFd : Int32} {g : GuestFd}
    (h : t.register hostFd = .ok (g, t')) :
    g = t.nextGuestFd ∧ t'.nextGuestFd.toNat = t.nextGuestFd.toNat + 1 ∧
      t'.entries = t.entries.insert g hostFd := by
  unfold register at h
  obtain ⟨next, hnext, h⟩ := bind_returned.mp h
  cases h
  exact ⟨rfl, addU32_eq_ok.mp hnext, rfl⟩

theorem register_returns {t : FdTable} (h : t.nextGuestFd.toNat + 1 < 2 ^ 32) (hostFd : Int32) :
    ∃ t', t.register hostFd = .ok (t.nextGuestFd, t') := by
  have hone : (1 : UInt32).toNat = 1 := rfl
  unfold register addU32
  rw [hone, if_pos h]
  exact ⟨_, rfl⟩

/-- Descriptors are numbered in the order of the register calls, closed ones included. -/
theorem issued_eq {t t' : FdTable} {ops : List Op} {issued : List GuestFd}
    (h : t.run ops = .ok (issued, t')) {k : ℕ} (hk : k < issued.length) :
    (issued.get ⟨k, hk⟩).toNat = t.nextGuestFd.toNat + k := by
  induction ops generalizing t issued k with
  | nil =>
    cases h
    exact absurd hk (Nat.not_lt_zero k)
  | cons op ops ih =>
    cases op with
    | close g => exact ih h hk
    | register hostFd =>
      rw [run] at h
      obtain ⟨⟨g, t₁⟩, hreg, h⟩ := bind_returned.mp h
      obtain ⟨⟨rest, t₂⟩, hrest, h⟩ := bind_returned.mp h
      cases h
      obtain ⟨hg, hnext, -⟩ := register_eq_ok hreg
      cases k with
      | zero => simp [hg]
      | succ k =>
        rw [List.get_cons_succ, ih hrest, hnext]
        omega

end FdTable

structure PendingCompletions where
  queue : List IoCompletion

namespace PendingCompletions

def new : PendingCompletions := ⟨[]⟩

def push (p : PendingCompletions) (completion : IoCompletion) : PendingCompletions :=
  ⟨p.queue ++ [completion]⟩

def drainForDispatch (p : PendingCompletions) : List IoCompletion × PendingCompletions :=
  (p.queue, ⟨[]⟩)

end PendingCompletions
end ChronosUvm
