import Mathlib.Tactic
import ChronosUvm.Io.RingSubsystem

/-!
A small ring that behaves as documented: a bounded submission queue, requests in the
kernel's hands, and completions in any order. It shows that what is assumed of the
crate's ring can be had together.
-/
namespace ChronosUvm

/-- What the kernel may do in a call or between two. -/
inductive KernelMove where
  | idle
  | fail (message : String)
  | consume (n : ℕ)
  | finish (i : ℕ) (result : Int32)

/-- No transfer outside the buffer that it names has succeeded. -/
structure QueueRing where
  entries : ℕ
  submission : List SubmissionEntry
  inFlight : List SubmissionEntry
  completion : List (SubmissionEntry × Int32)
  buffers : Option (List Iovec)
  checked : ∀ x ∈ completion, 0 ≤ x.2 → x.1.Within (buffers.getD [])

namespace QueueRing

/-- The kernel rounds the number of entries up to a power of two. -/
def fresh (entries : UInt32) : QueueRing where
  entries := if entries.toNat ≤ 1 then 1 else 2 ^ ((entries.toNat - 1).log2 + 1)
  submission := []
  inFlight := []
  completion := []
  buffers := none
  checked _ h := absurd h List.not_mem_nil

def new (entries : UInt32) : KernelMove → Except String QueueRing
  | .fail message => .error message
  | .idle | .consume _ | .finish _ _ => .ok (fresh entries)

/-- Without a table of buffers nothing has succeeded yet. -/
theorem checked_of_none {r : QueueRing} (h : r.buffers = none) (iovecs : List Iovec) :
    ∀ x ∈ r.completion, 0 ≤ x.2 → x.1.Within iovecs := by
  intro x hx hsuccess
  obtain ⟨iovec, hsome, -⟩ := r.checked x hx hsuccess
  rw [h] at hsome
  cases hsome

def registerBuffers (r : QueueRing) (iovecs : List Iovec) (k : KernelMove) :
    Except String Unit × QueueRing :=
  match h : r.buffers, k with
  | some _, _ => (.error "EBUSY", r)
  | none, .fail message => (.error message, r)
  | none, .idle | none, .consume _ | none, .finish _ _ =>
    (.ok (), { r with buffers := some iovecs, checked := checked_of_none h iovecs })

def push (r : QueueRing) (entry : SubmissionEntry) : Option QueueRing :=
  if r.submission.length < r.entries then
    some { r with submission := r.submission ++ [entry] }
  else none

/-- An error means that nothing was consumed. -/
def submit (r : QueueRing) : KernelMove → Except String ℕ × QueueRing
  | .fail message => (.error message, r)
  | .consume n => (.ok (min n r.submission.length), { r with
      submission := r.submission.drop n
      inFlight := r.inFlight ++ r.submission.take n })
  | .idle | .finish _ _ => (.ok 0, r)

def completions (r : QueueRing) (_ : KernelMove) : List CompletionEntry × QueueRing :=
  (r.completion.map fun x => ⟨x.1.userData, x.2⟩,
    { r with completion := [], checked := fun _ h => absurd h List.not_mem_nil })

/-- The result of a transfer: `EFAULT` if its bytes are not in the buffer it names. -/
def transferred (r : QueueRing) (entry : SubmissionEntry) (result : Int32) : Int32 :=
  if entry.Within (r.buffers.getD []) then result else -14

theorem within_of_transferred {r : QueueRing} {entry : SubmissionEntry} {result : Int32}
    (h : 0 ≤ r.transferred entry result) : entry.Within (r.buffers.getD []) := by
  unfold transferred at h
  split_ifs at h with hin
  · exact hin
  · exact absurd h (by decide)

def completed (r : QueueRing) (i : ℕ) (entry : SubmissionEntry) (result : Int32) : QueueRing :=
  { r with
    inFlight := r.inFlight.eraseIdx i
    completion := r.completion ++ [(entry, r.transferred entry result)]
    checked := by
      intro x hx hsuccess
      rcases List.mem_append.mp hx with hx | hx
      · exact r.checked x hx hsuccess
      · obtain rfl := List.mem_singleton.mp hx
        exact within_of_transferred hsuccess }

/-- The kernel finishes one of the requests it is working on. -/
def proceed (r : QueueRing) : KernelMove → QueueRing
  | .finish i result =>
    match r.inFlight[i]? with
    | none => r
    | some entry => r.completed i entry result
  | .idle | .fail _ | .consume _ => r

def api : RingApi QueueRing KernelMove :=
  ⟨new, registerBuffers, push, submit, completions, proceed⟩

def outstanding (r : QueueRing) : List SubmissionEntry :=
  r.completion.map Prod.fst ++ r.inFlight ++ r.submission

def reaped (r : QueueRing) (_ : KernelMove) : List (SubmissionEntry × Int32) := r.completion

theorem new_eq_ok {entries : UInt32} {k : KernelMove} {r : QueueRing}
    (h : new entries k = .ok r) : r = fresh entries := by
  cases k with
  | fail message => cases h
  | idle => exact (Except.ok.inj h).symm
  | consume n => exact (Except.ok.inj h).symm
  | finish i result => exact (Except.ok.inj h).symm

theorem push_eq_some {r r' : QueueRing} {entry : SubmissionEntry} (h : r.push entry = some r') :
    r' = { r with submission := r.submission ++ [entry] } := by
  unfold push at h
  split_ifs at h
  exact (Option.some.inj h).symm

theorem submit_cases (r : QueueRing) (k : KernelMove) :
    (r.submit k).2 = r ∨ ∃ n, (r.submit k).2 = { r with
      submission := r.submission.drop n
      inFlight := r.inFlight ++ r.submission.take n } := by
  cases k with
  | consume n => exact .inr ⟨n, rfl⟩
  | fail message => exact .inl rfl
  | idle => exact .inl rfl
  | finish i result => exact .inl rfl

theorem registerBuffers_cases (r : QueueRing) (iovecs : List Iovec) (k : KernelMove) :
    (∃ message, r.registerBuffers iovecs k = (.error message, r)) ∨
    ∃ h : r.buffers = none, r.registerBuffers iovecs k =
      (.ok (), { r with buffers := some iovecs, checked := checked_of_none h iovecs }) := by
  unfold registerBuffers
  split
  · exact .inl ⟨_, rfl⟩
  · exact .inl ⟨_, rfl⟩
  all_goals next h => exact .inr ⟨h, rfl⟩

theorem proceed_cases (r : QueueRing) (k : KernelMove) :
    r.proceed k = r ∨ ∃ i entry result, r.inFlight[i]? = some entry ∧
      r.proceed k = r.completed i entry result := by
  cases k with
  | finish i result =>
    unfold proceed
    dsimp only
    cases hentry : r.inFlight[i]? with
    | none => exact .inl rfl
    | some entry => exact .inr ⟨i, entry, result, hentry, rfl⟩
  | idle => exact .inl rfl
  | fail message => exact .inl rfl
  | consume n => exact .inl rfl

theorem conserves : api.Conserves outstanding reaped where
  new entries k r h := by rw [new_eq_ok h]; rfl
  registerBuffers r iovecs k := by
    refine .of_eq ?_
    show outstanding (r.registerBuffers iovecs k).2 = outstanding r
    rcases r.registerBuffers_cases iovecs k with ⟨message, heq⟩ | ⟨h, heq⟩
    · rw [heq]
    · rw [heq]
      rfl
  push r entry r' h := by
    rw [push_eq_some h]
    exact .of_eq (List.append_assoc _ _ _).symm
  submit r k := by
    refine .of_eq ?_
    show outstanding (r.submit k).2 = outstanding r
    rcases r.submit_cases k with heq | ⟨n, heq⟩
    · rw [heq]
    · rw [heq]
      unfold outstanding
      simp only [List.append_assoc, List.take_append_drop]
  completions_eq r k := rfl
  completions r k := .of_eq (by simp [outstanding, reaped, api, completions])
  proceed r k := by
    show (outstanding (r.proceed k)).Perm (outstanding r)
    rcases r.proceed_cases k with heq | ⟨i, entry, result, hentry, heq⟩
    · rw [heq]
    · obtain ⟨hi, rfl⟩ := List.getElem?_eq_some_iff.mp hentry
      have hmoved := List.getElem_cons_eraseIdx_perm hi
      rw [heq]
      unfold outstanding completed
      simp only [List.map_append, List.map_cons, List.map_nil, List.append_assoc,
        List.singleton_append]
      exact (hmoved.append_right _).append_left _

theorem keepsBuffers : api.KeepsBuffers QueueRing.buffers where
  new entries k r h := by rw [new_eq_ok h]; rfl
  registered r iovecs k h := by
    change (r.registerBuffers iovecs k).1 = .ok () at h
    show r.buffers = none ∧ (r.registerBuffers iovecs k).2.buffers = some iovecs
    rcases r.registerBuffers_cases iovecs k with ⟨message, heq⟩ | ⟨hnone, heq⟩
    · rw [heq] at h
      cases h
    · rw [heq]
      exact ⟨hnone, rfl⟩
  refused r iovecs k message h := by
    change (r.registerBuffers iovecs k).1 = .error message at h
    show (r.registerBuffers iovecs k).2.buffers = r.buffers
    rcases r.registerBuffers_cases iovecs k with ⟨message, heq⟩ | ⟨hnone, heq⟩
    · rw [heq]
    · rw [heq] at h
      cases h
  push r entry r' h := by rw [push_eq_some h]
  submit r k := by
    show (r.submit k).2.buffers = r.buffers
    rcases r.submit_cases k with heq | ⟨n, heq⟩
    · rw [heq]
    · rw [heq]
  completions r k := rfl
  proceed r k := by
    show (r.proceed k).buffers = r.buffers
    rcases r.proceed_cases k with heq | ⟨i, entry, result, -, heq⟩
    · rw [heq]
    · rw [heq]
      rfl

theorem checksRanges : RingApi.ChecksRanges QueueRing.buffers reaped := fun r _ => r.checked

end QueueRing
end ChronosUvm
