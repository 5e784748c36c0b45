import Mathlib.Tactic
import ChronosUvm.Io.UserData

/-!
The io_uring backend. The crate's ring is a parameter: its calls, and what the kernel does
with it in between. Results name the documented behaviour they need, in terms of what
the ring is observed to hold.
-/
namespace ChronosUvm
open Tables

/-- The errors of the submitting calls; `UnknownFd` is the descriptor table's. -/
inductive SubmitError where
  | submissionQueueFull
  | setupFailed (message : String)
  | bufferRegistrationFailed (message : String)
  deriving DecidableEq, Repr

inductive IoOpcode where
  | readFixed
  | writeFixed
  deriving DecidableEq, Repr

/-- The arguments of `submit_read_fixed` and `submit_write_fixed`. -/
structure IoRequest where
  cell : CellId
  guestFd : GuestFd
  hostFd : Int32
  bufferIndex : UInt16
  offset : UInt64
  len : UInt32
  requestId : UInt64

structure SubmissionEntry where
  opcode : IoOpcode
  hostFd : Int32
  addr : UInt64
  len : UInt32
  bufferIndex : UInt16
  offset : UInt64
  userData : UInt64

structure Iovec where
  base : UInt64
  len : ℕ

/-- A slice of the caller's memory. No slice starts at the null address. -/
structure BufferSlice where
  ptr : UInt64
  len : ℕ
  ptr_pos : 0 < ptr

/-- The crate's ring of type `R`. What the kernel decides is an argument of type `K`, and
`proceed` is what it does between two calls. A push that fails leaves the ring alone. -/
structure RingApi (R K : Type) where
  new : UInt32 → K → Except String R
  registerBuffers : R → List Iovec → K → Except String Unit × R
  push : R → SubmissionEntry → Option R
  submit : R → K → Except String ℕ × R
  completions : R → K → List CompletionEntry × R
  proceed : R → K → R

namespace RingApi
variable {R K : Type}

/-- Every request that was pushed is completed once, under its own user data: none is dropped,
by a call that fails either. `reaped` is what the next drain finds completed. -/
structure Conserves (api : RingApi R K) (outstanding : R → List SubmissionEntry)
    (reaped : R → K → List (SubmissionEntry × Int32)) : Prop where
  new : ∀ entries k r, api.new entries k = .ok r → outstanding r = []
  registerBuffers : ∀ r iovecs k,
    (outstanding (api.registerBuffers r iovecs k).2).Perm (outstanding r)
  push : ∀ r entry r', api.push r entry = some r' →
    (outstanding r').Perm (outstanding r ++ [entry])
  submit : ∀ r k, (outstanding (api.submit r k).2).Perm (outstanding r)
  completions_eq : ∀ r k,
    (api.completions r k).1 = (reaped r k).map fun x => ⟨x.1.userData, x.2⟩
  completions : ∀ r k, (outstanding r).Perm
    ((reaped r k).map Prod.fst ++ outstanding (api.completions r k).2)
  proceed : ∀ r k, (outstanding (api.proceed r k)).Perm (outstanding r)

/-- There is one table of fixed buffers, in the order they were handed over. A registration
fails with `EBUSY` while there is a table. -/
structure KeepsBuffers (api : RingApi R K) (buffers : R → Option (List Iovec)) : Prop where
  new : ∀ entries k r, api.new entries k = .ok r → buffers r = none
  registered : ∀ r iovecs k, (api.registerBuffers r iovecs k).1 = .ok () →
    buffers r = none ∧ buffers (api.registerBuffers r iovecs k).2 = some iovecs
  refused : ∀ r iovecs k message, (api.registerBuffers r iovecs k).1 = .error message →
    buffers (api.registerBuffers r iovecs k).2 = buffers r
  push : ∀ r entry r', api.push r entry = some r' → buffers r' = buffers r
  submit : ∀ r k, buffers (api.submit r k).2 = buffers r
  completions : ∀ r k, buffers (api.completions r k).2 = buffers r
  proceed : ∀ r k, buffers (api.proceed r k) = buffers r

/-- A submitting call adds its entry. -/
theorem Conserves.pushed {api : RingApi R K} {outstanding : R → List SubmissionEntry}
    {reaped : R → K → List (SubmissionEntry × Int32)} (h : api.Conserves outstanding reaped)
    {r r' : R} {entry : SubmissionEntry} (hpush : api.push r entry = some r') (k : K) :
    (outstanding (api.submit r' k).2).Perm (outstanding r ++ [entry]) :=
  (h.submit r' k).trans (h.push r entry r' hpush)

theorem KeepsBuffers.pushed {api : RingApi R K} {buffers : R → Option (List Iovec)}
    (h : api.KeepsBuffers buffers) {r r' : R} {entry : SubmissionEntry}
    (hpush : api.push r entry = some r') (k : K) : buffers (api.submit r' k).2 = buffers r :=
  (h.submit r' k).trans (h.push r entry r' hpush)

end RingApi

/-- The bytes of the transfer lie in the fixed buffer that the entry names. -/
def SubmissionEntry.Within (entry : SubmissionEntry) (buffers : List Iovec) : Prop :=
  ∃ iovec, buffers[entry.bufferIndex.toNat]? = some iovec ∧ iovec.base ≤ entry.addr ∧
    entry.addr.toNat + entry.len.toNat ≤ iovec.base.toNat + iovec.len

instance (entry : SubmissionEntry) (buffers : List Iovec) : Decidable (entry.Within buffers) :=
  match h : buffers[entry.bufferIndex.toNat]? with
  | none => isFalse fun ⟨_, hsome, _⟩ => by simp [h] at hsome
  | some iovec => decidable_of_iff (iovec.base ≤ entry.addr ∧
      entry.addr.toNat + entry.len.toNat ≤ iovec.base.toNat + iovec.len)
    ⟨fun hin => ⟨iovec, h, hin⟩, fun ⟨_, hsome, hin⟩ => by
      cases h.symm.trans hsome
      exact hin⟩

/-- A fixed transfer fails, with `EFAULT`, unless its bytes lie in the buffer it names. -/
def RingApi.ChecksRanges {R K : Type} (buffers : R → Option (List Iovec))
    (reaped : R → K → List (SubmissionEntry × Int32)) : Prop :=
  ∀ r k, ∀ x ∈ reaped r k, 0 ≤ x.2 → x.1.Within ((buffers r).getD [])

structure UringIoSubsystem (R : Type) where
  ring : R
  registeredBufferLens : HashMap UInt16 ℕ

namespace UringIoSubsystem
variable {R K : Type}

def new (api : RingApi R K) (entries : UInt32) (k : K) :
    Except SubmitError (UringIoSubsystem R) :=
  match api.new entries k with
  | .error message => .error (.setupFailed message)
  | .ok ring => .ok ⟨ring, ∅⟩

def registerFixedBuffer (api : RingApi R K) (s : UringIoSubsystem R) (bufferIndex : UInt16)
    (buf : BufferSlice) (k : K) : Except SubmitError Unit × UringIoSubsystem R :=
  match api.registerBuffers s.ring [⟨buf.ptr, buf.len⟩] k with
  | (.error message, ring) => (.error (.bufferRegistrationFailed message), { s with ring := ring })
  | (.ok (), ring) =>
    (.ok (), ⟨ring, s.registeredBufferLens.insert bufferIndex buf.len⟩)

/-- The address of the entry is null. -/
def fixedEntry (opcode : IoOpcode) (r : IoRequest) : SubmissionEntry :=
  ⟨opcode, r.hostFd, 0, r.len, r.bufferIndex, r.offset,
    packUserData r.cell r.guestFd r.requestId⟩

/-- The body that the two submitting calls share. -/
def submitFixed (api : RingApi R K) (opcode : IoOpcode) (s : UringIoSubsystem R) (r : IoRequest)
    (k : K) : Except SubmitError Unit × UringIoSubsystem R :=
  match api.push s.ring (fixedEntry opcode r) with
  | none => (.error .submissionQueueFull, s)
  | some ring =>
    match api.submit ring k with
    | (.error message, ring) => (.error (.setupFailed message), { s with ring := ring })
    | (.ok _, ring) => (.ok (), { s with ring := ring })

def submitReadFixed (api : RingApi R K) : UringIoSubsystem R → IoRequest → K →
    Except SubmitError Unit × UringIoSubsystem R := submitFixed api .readFixed

def submitWriteFixed (api : RingApi R K) : UringIoSubsystem R → IoRequest → K →
    Except SubmitError Unit × UringIoSubsystem R := submitFixed api .writeFixed

/-- Drain the completion queue. -/
def poll (api : RingApi R K) (s : UringIoSubsystem R) (k : K) :
    List IoCompletion × UringIoSubsystem R :=
  match api.completions s.ring k with
  | (cq, ring) => (pollCompletions cq, { s with ring := ring })

theorem new_eq_ok {api : RingApi R K} {entries : UInt32} {k : K} {s : UringIoSubsystem R}
    (h : new api entries k = .ok s) : ∃ ring, api.new entries k = .ok ring ∧ s = ⟨ring, ∅⟩ := by
  unfold new at h
  cases hring : api.new entries k with
  | error message =>
    rw [hring] at h
    cases h
  | ok ring =>
    rw [hring] at h
    exact ⟨ring, rfl, (Except.ok.inj h).symm⟩

/-- How a submitting call can end: refused without any effect because the queue is full, or
with its entry pushed and the queue offered to the kernel, even if that failed. -/
theorem submitFixed_cases (api : RingApi R K) (opcode : IoOpcode) (s : UringIoSubsystem R)
    (r : IoRequest) (k : K) :
    s.submitFixed api opcode r k = (.error .submissionQueueFull, s) ∨
    ∃ ring answer, api.push s.ring (fixedEntry opcode r) = some ring ∧
      answer ≠ .error .submissionQueueFull ∧
      s.submitFixed api opcode r k = (answer, { s with ring := (api.submit ring k).2 }) := by
  unfold submitFixed
  cases hpush : api.push s.ring (fixedEntry opcode r) with
  | none => exact .inl rfl
  | some ring =>
    right
    dsimp only
    rcases hsubmit : api.submit ring k with ⟨message | n, ring'⟩
    · exact ⟨ring, .error (.setupFailed message), rfl, by simp, by rw [hsubmit]⟩
    · exact ⟨ring, .ok (), rfl, by simp, by rw [hsubmit]⟩

end UringIoSubsystem
end ChronosUvm
