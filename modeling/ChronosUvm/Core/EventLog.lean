import Mathlib.Tactic
import ChronosUvm.Foundations.Panicking
import ChronosUvm.Foundations.Tables
import ChronosUvm.Replicate.Ring

/-!
Recording and replaying host calls. The host's clock and random source are
arbitrary state machines; the recorder in replay mode never consults them.
-/
namespace ChronosUvm
open Panicking Tables

inductive RecorderMode where
  | record
  | replay
  deriving DecidableEq, Repr

structure EventKey where
  tick : Tick
  callOrdinal : UInt64
  deriving DecidableEq, Repr

inductive RecordedValue where
  | clock (v : UInt64)
  | random (v : List UInt8)
  deriving DecidableEq, Repr

inductive ReplayEntry where
  | clock (v : UInt64)
  | random (v : List UInt8)
  deriving DecidableEq, Repr

inductive ReplayError where
  | missingEntry (tick : Tick) (ordinal : UInt64)
  | typeMismatch (tick : Tick) (ordinal : UInt64)
  deriving DecidableEq, Repr

/-- The real clock and the real random source, with whatever state they have. -/
structure HostSource (Ω : Type) where
  realNow : Ω → UInt64 × Ω
  realRandom : Ω → List UInt8 → List UInt8 × Ω
  length_realRandom : ∀ ω buf, (realRandom ω buf).1.length = buf.length

/-- A host whose clock stands still and whose random source hands back the buffer. -/
def HostSource.frozen (now : UInt64) : HostSource Unit where
  realNow _ := (now, ())
  realRandom _ buf := (buf, ())
  length_realRandom _ _ := rfl

structure EventRecorder where
  mode : RecorderMode
  log : HashMap EventKey RecordedValue
  currentTick : Tick
  currentOrdinal : UInt64

namespace ReplayEntry

def toRecorded : ReplayEntry → RecordedValue
  | clock v => .clock v
  | random v => .random v

end ReplayEntry

namespace RecordedValue

def toEntry : RecordedValue → ReplayEntry
  | clock v => .clock v
  | random v => .random v

@[simp] theorem toRecorded_toEntry (v : RecordedValue) : v.toEntry.toRecorded = v := by
  cases v <;> rfl

end RecordedValue

namespace EventRecorder

def new (mode : RecorderMode) : EventRecorder := ⟨mode, ∅, 0, 0⟩

def fromReplayLog (entries : List (Tick × UInt64 × ReplayEntry)) : EventRecorder where
  mode := .replay
  log := entries.foldl (fun log e => log.insert ⟨e.1, e.2.1⟩ e.2.2.toRecorded) ∅
  currentTick := 0
  currentOrdinal := 0

/-- The last of the given entries under a key. -/
def lastEntry (entries : List (Tick × UInt64 × ReplayEntry)) (key : EventKey) :
    Option RecordedValue :=
  (entries.reverse.find? fun e => e.1 = key.tick ∧ e.2.1 = key.callOrdinal).map
    fun e => e.2.2.toRecorded

/-- Later entries overwrite earlier ones under the same key, and nothing else gets in. -/
theorem get?_fromReplayLog (entries : List (Tick × UInt64 × ReplayEntry)) (key : EventKey) :
    (fromReplayLog entries).log.get? key = lastEntry entries key := by
  unfold fromReplayLog lastEntry
  induction entries using List.reverseRecOn with
  | nil => rfl
  | append_singleton entries e ih =>
    simp only [List.foldl_append, List.foldl_cons, List.foldl_nil, List.reverse_append,
      List.reverse_singleton, List.singleton_append, List.find?_cons, HashMap.get?_insert] at ih ⊢
    by_cases hkey : e.1 = key.tick ∧ e.2.1 = key.callOrdinal
    · obtain ⟨htick, hordinal⟩ := hkey
      simp [htick, hordinal]
    · have hne : key ≠ ⟨e.1, e.2.1⟩ := by
        rintro rfl
        exact hkey ⟨rfl, rfl⟩
      rw [if_neg hne, decide_eq_false hkey]
      exact ih

def nextOrdinal (r : EventRecorder) (tick : Tick) : Checked (UInt64 × EventRecorder) := do
  let r := if tick ≠ r.currentTick then { r with currentTick := tick, currentOrdinal := 0 } else r
  let ordinal := r.currentOrdinal
  let next ← addU64 r.currentOrdinal 1
  return (ordinal, { r with currentOrdinal := next })

/-- The order of the exported entries is the iteration order of the log. -/
def exportLog (r : EventRecorder) (order : Iteration r.log) : List (Tick × UInt64 × ReplayEntry) :=
  order.entries.map fun e => (e.1.tick, e.1.callOrdinal, e.2.toEntry)

variable {Ω Ω' : Type}

def wallClockNow (host : HostSource Ω) (r : EventRecorder) (tick : Tick) (ω : Ω) :
    Checked (Except ReplayError UInt64 × EventRecorder × Ω) := do
  let (ordinal, r) ← r.nextOrdinal tick
  let key : EventKey := ⟨tick, ordinal⟩
  match r.mode with
  | .record =>
    let (value, ω) := host.realNow ω
    return (.ok value, { r with log := r.log.insert key (.clock value) }, ω)
  | .replay =>
    match r.log.get? key with
    | some (.clock v) => return (.ok v, r, ω)
    | some _ => return (.error (.typeMismatch tick ordinal), r, ω)
    | none => return (.error (.missingEntry tick ordinal), r, ω)

/-- The second component of the result is the caller's buffer after the call. -/
def randomBytes (host : HostSource Ω) (r : EventRecorder) (tick : Tick) (buf : List UInt8)
    (ω : Ω) : Checked (Except ReplayError Unit × List UInt8 × EventRecorder × Ω) := do
  let (ordinal, r) ← r.nextOrdinal tick
  let key : EventKey := ⟨tick, ordinal⟩
  match r.mode with
  | .record =>
    let (buf, ω) := host.realRandom ω buf
    return (.ok (), buf, { r with log := r.log.insert key (.random buf) }, ω)
  | .replay =>
    match r.log.get? key with
    | some (.random v) =>
      if v.length ≠ buf.length then return (.error (.typeMismatch tick ordinal), buf, r, ω)
      else return (.ok (), v, r, ω)
    | some _ => return (.error (.typeMismatch tick ordinal), buf, r, ω)
    | none => return (.error (.missingEntry tick ordinal), buf, r, ω)

end EventRecorder

/-- One call of the host-call surface, with the caller's buffer for random bytes. -/
inductive HostCall where
  | clock (tick : Tick)
  | random (tick : Tick) (buf : List UInt8)
  deriving DecidableEq, Repr

/-- What a successful call hands to its caller: the clock value, or the filled buffer. -/
abbrev HostValue := RecordedValue

namespace HostCall

def tick : HostCall → Tick
  | clock t => t
  | random t _ => t

/-- Tick, kind and length of a call; the buffer's old content is not part of it. -/
def shape : HostCall → Tick × Option ℕ
  | clock t => (t, none)
  | random t buf => (t, some buf.length)

/-- The value has the kind and the length the call asks for. -/
def Fits : HostCall → HostValue → Prop
  | clock _, .clock _ => True
  | random _ buf, .random v => v.length = buf.length
  | _, _ => False

instance : (c : HostCall) → (v : HostValue) → Decidable (c.Fits v)
  | clock _, .clock _ => inferInstanceAs (Decidable True)
  | clock _, .random _ => inferInstanceAs (Decidable False)
  | random _ _, .clock _ => inferInstanceAs (Decidable False)
  | random _ buf, .random v => inferInstanceAs (Decidable (v.length = buf.length))

theorem tick_eq_of_shape {c c' : HostCall} (h : c'.shape = c.shape) : c'.tick = c.tick := by
  cases c <;> cases c' <;> simp_all [shape, tick]

theorem Fits.of_shape {c c' : HostCall} {v : HostValue} (h : c'.shape = c.shape)
    (hv : c.Fits v) : c'.Fits v := by
  cases c <;> cases c' <;> cases v <;> simp_all [shape, Fits]

variable {Ω Ω' : Type}

def perform (host : HostSource Ω) (call : HostCall) (r : EventRecorder) (ω : Ω) :
    Checked (Except ReplayError HostValue × EventRecorder × Ω) :=
  match call with
  | .clock tick => do
    let (result, r, ω) ← r.wallClockNow host tick ω
    return (result.map .clock, r, ω)
  | .random tick buf => do
    let (result, buf, r, ω) ← r.randomBytes host tick buf ω
    return (result.map fun _ => .random buf, r, ω)

end HostCall

namespace EventRecorder

/-- The ordinal that the next call at `tick` gets. -/
def ordinalAt (r : EventRecorder) (tick : Tick) : UInt64 :=
  if tick = r.currentTick then r.currentOrdinal else 0

def keyAt (r : EventRecorder) (tick : Tick) : EventKey := ⟨tick, r.ordinalAt tick⟩

/-- The recorder after the counter has been moved past a call at `tick`. -/
def movedTo (r : EventRecorder) (tick : Tick) (next : UInt64) : EventRecorder :=
  { r with currentTick := tick, currentOrdinal := next }

theorem nextOrdinal_eq (r : EventRecorder) (tick : Tick) :
    r.nextOrdinal tick = (addU64 (r.ordinalAt tick) 1).map fun next =>
      (r.ordinalAt tick, r.movedTo tick next) := by
  unfold nextOrdinal ordinalAt movedTo
  by_cases h : tick = r.currentTick
  · subst h
    simp only [ne_eq, not_true_eq_false, if_false, if_true]
    cases addU64 r.currentOrdinal 1 <;> rfl
  · simp only [ne_eq, h, not_false_eq_true, if_true, if_false]
    cases addU64 0 1 <;> rfl

end EventRecorder

namespace HostCall
open EventRecorder
variable {Ω Ω' : Type}

/-- A call that returned had its ordinal counted on. -/
theorem addU64_of_perform {host : HostSource Ω} {c : HostCall} {r r' : EventRecorder} {ω ω' : Ω}
    {result : Except ReplayError HostValue} (h : c.perform host r ω = .ok (result, r', ω')) :
    ∃ next, addU64 (r.ordinalAt c.tick) 1 = .ok next := by
  cases hnext : addU64 (r.ordinalAt c.tick) 1 with
  | ok next => exact ⟨next, rfl⟩
  | error p =>
    cases c with
    | clock t =>
      unfold tick at hnext
      unfold perform at h
      simp [wallClockNow, nextOrdinal_eq, hnext, bind, Except.bind, Except.map] at h
    | random t buf =>
      unfold tick at hnext
      unfold perform at h
      simp [randomBytes, nextOrdinal_eq, hnext, bind, Except.bind, Except.map] at h

/-- A recorded call returns a fitting value and stores it under the next key. -/
theorem perform_record {host : HostSource Ω} {c : HostCall} {r r' : EventRecorder} {ω ω' : Ω}
    {result : Except ReplayError HostValue} (hmode : r.mode = .record)
    (h : c.perform host r ω = .ok (result, r', ω')) :
    ∃ v next, result = .ok v ∧ c.Fits v ∧ addU64 (r.ordinalAt c.tick) 1 = .ok next ∧
      r' = { r.movedTo c.tick next with log := r.log.insert (r.keyAt c.tick) v } := by
  obtain ⟨next, hnext⟩ := addU64_of_perform h
  cases c with
  | clock t =>
    unfold tick at hnext
    unfold perform at h
    simp only [wallClockNow, nextOrdinal_eq, hnext, Except.map, ok_bind, movedTo, hmode, pure_ok,
      Except.ok.injEq, Prod.mk.injEq] at h
    obtain ⟨rfl, rfl, -⟩ := h
    exact ⟨_, next, rfl, trivial, hnext, by simp only [movedTo, hmode, keyAt, tick]⟩
  | random t buf =>
    unfold tick at hnext
    unfold perform at h
    simp only [randomBytes, nextOrdinal_eq, hnext, Except.map, ok_bind, movedTo, hmode, pure_ok,
      Except.ok.injEq, Prod.mk.injEq] at h
    obtain ⟨rfl, rfl, -⟩ := h
    exact ⟨_, next, rfl, host.length_realRandom ω buf, hnext,
      by simp only [movedTo, hmode, keyAt, tick]⟩

/-- What a replayed call returns, from the log alone: the entry under its key if it is of the
kind and length asked for. -/
def replayed (log : HashMap EventKey RecordedValue) (c : HostCall) (ordinal : UInt64) :
    Except ReplayError HostValue :=
  match log.get? ⟨c.tick, ordinal⟩ with
  | some v => if c.Fits v then .ok v else .error (.typeMismatch c.tick ordinal)
  | none => .error (.missingEntry c.tick ordinal)

/-- A replayed call, failed or not, reads its entry and moves the counter, and that is all. -/
theorem perform_replay_eq (host : HostSource Ω) (c : HostCall) {r : EventRecorder} (ω : Ω)
    {next : UInt64} (hmode : r.mode = .replay)
    (hnext : addU64 (r.ordinalAt c.tick) 1 = .ok next) :
    c.perform host r ω =
      .ok (replayed r.log c (r.ordinalAt c.tick), r.movedTo c.tick next, ω) := by
  unfold replayed
  cases c with
  | clock t =>
    unfold tick at hnext
    unfold perform
    simp only [wallClockNow, nextOrdinal_eq, hnext, Except.map, ok_bind, movedTo, hmode, tick]
    cases r.log.get? ⟨t, r.ordinalAt t⟩ with
    | none => rfl
    | some v => cases v <;> rfl
  | random t buf =>
    unfold tick at hnext
    unfold perform
    simp only [randomBytes, nextOrdinal_eq, hnext, Except.map, ok_bind, movedTo, hmode, tick]
    cases r.log.get? ⟨t, r.ordinalAt t⟩ with
    | none => rfl
    | some v =>
      cases v with
      | clock v => rfl
      | random v =>
        by_cases hlen : v.length = buf.length
        · simp [hlen, Fits]
        · simp [hlen, Fits]

/-- A replayed call whose key holds a fitting value returns it and changes only the counter. -/
theorem perform_replay (host : HostSource Ω) {c : HostCall} {r : EventRecorder} (ω : Ω)
    {v : HostValue} {next : UInt64} (hmode : r.mode = .replay) (hfits : c.Fits v)
    (hnext : addU64 (r.ordinalAt c.tick) 1 = .ok next)
    (hlog : r.log.get? (r.keyAt c.tick) = some v) :
    c.perform host r ω = .ok (.ok v, r.movedTo c.tick next, ω) := by
  unfold keyAt at hlog
  rw [perform_replay_eq host c ω hmode hnext, replayed, hlog]
  simp only [if_pos hfits]

/-- Perform the calls in order and collect their results. -/
def performAll (host : HostSource Ω) : List HostCall → EventRecorder → Ω →
    Checked (List (Except ReplayError HostValue) × EventRecorder × Ω)
  | [], r, ω => .ok ([], r, ω)
  | c :: calls, r, ω => do
    let (result, r, ω) ← c.perform host r ω
    let (results, r, ω) ← performAll host calls r ω
    return (result :: results, r, ω)

end HostCall
end ChronosUvm
