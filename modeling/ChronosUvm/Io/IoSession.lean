import Mathlib.Tactic
import ChronosUvm.Foundations.Transitions
import ChronosUvm.Io.QueueRing

/-!
Whole sessions of the io_uring backend: the calls of the supervisor and the moves of
the kernel, interleaved in any way. Requests are neither lost nor duplicated on their way
through the queues, and of the registered buffers the kernel knows one.
-/
namespace ChronosUvm
open Panicking Tables Transitions UringIoSubsystem

def IoRequest.userData (r : IoRequest) : UInt64 := packUserData r.cell r.guestFd r.requestId

def IoRequest.identity (r : IoRequest) : CellId × GuestFd × UInt64 :=
  (r.cell, r.guestFd, r.requestId)

/-- The identity fits the fields of the user data. -/
def IoRequest.Fits (r : IoRequest) : Prop :=
  r.cell.toNat < 2 ^ 24 ∧ r.guestFd.toNat < 2 ^ 20 ∧ r.requestId.toNat < 2 ^ 20

instance (r : IoRequest) : Decidable r.Fits := inferInstanceAs (Decidable (_ ∧ _))

def IoCompletion.identity (c : IoCompletion) : CellId × GuestFd × UInt64 :=
  (c.cell, c.guestFd, c.requestId)

theorem IoRequest.unpack_userData_iff (r : IoRequest) :
    unpackUserData r.userData = r.identity ↔ r.Fits :=
  unpack_pack_iff r.cell r.guestFd r.requestId

theorem identity_pollCompletions (cq : List CompletionEntry) :
    (pollCompletions cq).map IoCompletion.identity =
      (cq.map CompletionEntry.userData).map unpackUserData := by
  unfold pollCompletions
  rw [List.map_map, List.map_map]
  rfl

theorem repacked_pollCompletions (cq : List CompletionEntry) :
    (pollCompletions cq).map (fun c => packUserData c.cell c.guestFd c.requestId) =
      cq.map CompletionEntry.userData := by
  unfold pollCompletions
  rw [List.map_map]
  exact List.map_congr_left fun cqe _ => pack_unpack cqe.userData

/-- A session: the backend, the submitting calls with their answers, the buffers whose
registration succeeded, and all that was reported. -/
structure IoSession (R : Type) where
  subsystem : UringIoSubsystem R
  answered : List (IoRequest × Except SubmitError Unit)
  registered : List (UInt16 × ℕ)
  reported : List IoCompletion

inductive IoAction (K : Type) where
  | submitReadFixed (request : IoRequest) (k : K)
  | submitWriteFixed (request : IoRequest) (k : K)
  | registerFixedBuffer (bufferIndex : UInt16) (buf : BufferSlice) (k : K)
  | poll (k : K)
  | proceed (k : K)

/-- Only a full queue keeps a request from being queued. -/
def leavesQueued : Except SubmitError Unit → Bool
  | .error .submissionQueueFull => false
  | .error (.setupFailed _) | .error (.bufferRegistrationFailed _) | .ok () => true

theorem leavesQueued_of_ne {answer : Except SubmitError Unit}
    (h : answer ≠ .error .submissionQueueFull) : leavesQueued answer = true := by
  cases answer with
  | ok u => rfl
  | error error =>
    cases error with
    | submissionQueueFull => exact absurd rfl h
    | setupFailed message => rfl
    | bufferRegistrationFailed message => rfl

namespace IoSession
variable {R K : Type} {api : RingApi R K} {s s' : IoSession R}

def start (subsystem : UringIoSubsystem R) : IoSession R := ⟨subsystem, [], [], []⟩

/-- A submitting call returned this. -/
def answeredWith (s : IoSession R) (r : IoRequest)
    (result : Except SubmitError Unit × UringIoSubsystem R) : IoSession R :=
  { s with subsystem := result.2, answered := s.answered ++ [(r, result.1)] }

def step (api : RingApi R K) (s : IoSession R) : IoAction K → Checked (IoSession R)
  | .submitReadFixed r k => .ok (s.answeredWith r (s.subsystem.submitReadFixed api r k))
  | .submitWriteFixed r k => .ok (s.answeredWith r (s.subsystem.submitWriteFixed api r k))
  | .registerFixedBuffer bufferIndex buf k =>
    match s.subsystem.registerFixedBuffer api bufferIndex buf k with
    | (.error _, subsystem) => .ok { s with subsystem := subsystem }
    | (.ok (), subsystem) => .ok { s with
        subsystem := subsystem
        registered := s.registered ++ [(bufferIndex, buf.len)] }
  | .poll k => .ok { s with
      subsystem := (s.subsystem.poll api k).2
      reported := s.reported ++ (s.subsystem.poll api k).1 }
  | .proceed k => .ok { s with
      subsystem := { s.subsystem with ring := api.proceed s.subsystem.ring k } }

/-- The requests that were queued, whatever the call returned. -/
def queued (s : IoSession R) : List IoRequest :=
  (s.answered.filter fun a => leavesQueued a.2).map Prod.fst

/-- One action, by what it does to the ring. -/
inductive Moved (api : RingApi R K) (s : IoSession R) : IoSession R → Prop where
  | rejected (r : IoRequest) :
      Moved api s (s.answeredWith r (.error .submissionQueueFull, s.subsystem))
  | pushed {opcode : IoOpcode} {r : IoRequest} {ring : R} {answer : Except SubmitError Unit}
      (hpush : api.push s.subsystem.ring (fixedEntry opcode r) = some ring) (k : K)
      (hanswer : answer ≠ .error .submissionQueueFull) :
      Moved api s (s.answeredWith r (answer, { s.subsystem with ring := (api.submit ring k).2 }))
  | refused (buf : BufferSlice) (k : K) {message : String}
      (h : (api.registerBuffers s.subsystem.ring [⟨buf.ptr, buf.len⟩] k).1 = .error message) :
      Moved api s { s with subsystem := { s.subsystem with
        ring := (api.registerBuffers s.subsystem.ring [⟨buf.ptr, buf.len⟩] k).2 } }
  | registered (bufferIndex : UInt16) (buf : BufferSlice) (k : K)
      (h : (api.registerBuffers s.subsystem.ring [⟨buf.ptr, buf.len⟩] k).1 = .ok ()) :
      Moved api s { s with
        subsystem := ⟨(api.registerBuffers s.subsystem.ring [⟨buf.ptr, buf.len⟩] k).2,
          s.subsystem.registeredBufferLens.insert bufferIndex buf.len⟩
        registered := s.registered ++ [(bufferIndex, buf.len)] }
  | polled (k : K) : Moved api s { s with
      subsystem := { s.subsystem with ring := (api.completions s.subsystem.ring k).2 }
      reported := s.reported ++ pollCompletions (api.completions s.subsystem.ring k).1 }
  | proceeded (k : K) : Moved api s { s with
      subsystem := { s.subsystem with ring := api.proceed s.subsystem.ring k } }

theorem answeredWith_moved (opcode : IoOpcode) (r : IoRequest) (k : K) :
    Moved api s (s.answeredWith r (s.subsystem.submitFixed api opcode r k)) := by
  rcases s.subsystem.submitFixed_cases api opcode r k with heq | ⟨ring, answer, hpush, hanswer, heq⟩
  · rw [heq]
    exact .rejected r
  · rw [heq]
    exact .pushed hpush k hanswer

theorem step_moved {a : IoAction K} (h : s.step api a = .ok s') : Moved api s s' := by
  cases a with
  | submitReadFixed r k =>
    cases h
    exact answeredWith_moved .readFixed r k
  | submitWriteFixed r k =>
    cases h
    exact answeredWith_moved .writeFixed r k
  | registerFixedBuffer bufferIndex buf k =>
    unfold step registerFixedBuffer at h
    cases hregister : api.registerBuffers s.subsystem.ring [⟨buf.ptr, buf.len⟩] k with
    | mk answer ring =>
      have hring : ring =
          (api.registerBuffers s.subsystem.ring [⟨buf.ptr, buf.len⟩] k).2 := by rw [hregister]
      cases answer with
      | error message =>
        simp only [hregister] at h
        cases h
        rw [hring]
        exact .refused buf k (by rw [hregister])
      | ok u =>
        simp only [hregister] at h
        cases h
        rw [hring]
        exact .registered bufferIndex buf k (by rw [hregister])
  | poll k =>
    cases h
    exact .polled k
  | proceed k =>
    cases h
    exact .proceeded k

theorem queued_full (r : IoRequest) :
    (s.answeredWith r (.error .submissionQueueFull, s.subsystem)).queued = s.queued := by
  simp [queued, answeredWith, leavesQueued]

theorem queued_answeredWith {answer : Except SubmitError Unit}
    (h : answer ≠ .error .submissionQueueFull) (r : IoRequest) (subsystem : UringIoSubsystem R) :
    (s.answeredWith r (answer, subsystem)).queued = s.queued ++ [r] := by
  simp [queued, answeredWith, leavesQueued_of_ne h]

section Conservation
variable {outstanding : R → List SubmissionEntry}
  {reaped : R → K → List (SubmissionEntry × Int32)}

/-- Every word queued is outstanding or was reported, once for each time it was queued. -/
def Custody (outstanding : R → List SubmissionEntry) (s : IoSession R) : Prop :=
  ∃ polled, s.reported = pollCompletions polled ∧ (s.queued.map IoRequest.userData).Perm
    (polled.map CompletionEntry.userData ++
      (outstanding s.subsystem.ring).map SubmissionEntry.userData)

/-- What only rearranges the requests on their way keeps them. -/
theorem Custody.congr (h : Custody outstanding s) (hanswered : s'.answered = s.answered)
    (hreported : s'.reported = s.reported)
    (hring : (outstanding s'.subsystem.ring).Perm (outstanding s.subsystem.ring)) :
    Custody outstanding s' := by
  obtain ⟨polled, hpolled, hperm⟩ := h
  refine ⟨polled, hreported.trans hpolled, ?_⟩
  unfold queued at hperm ⊢
  rw [hanswered]
  exact hperm.trans ((hring.symm.map _).append_left _)

theorem Custody.moved (hlaws : api.Conserves outstanding reaped) (h : Custody outstanding s)
    (hmoved : Moved api s s') : Custody outstanding s' := by
  cases hmoved with
  | rejected r =>
    obtain ⟨polled, hreported, hperm⟩ := h
    refine ⟨polled, hreported, ?_⟩
    rw [queued_full]
    exact hperm
  | @pushed opcode r ring answer hpush k hanswer =>
    obtain ⟨polled, hreported, hperm⟩ := h
    refine ⟨polled, hreported, ?_⟩
    have hwords := (hlaws.pushed hpush k).map SubmissionEntry.userData
    rw [List.map_append, List.map_singleton] at hwords
    rw [queued_answeredWith hanswer, List.map_append, List.map_singleton]
    refine (hperm.append_right [r.userData]).trans ?_
    rw [List.append_assoc]
    exact hwords.symm.append_left _
  | refused buf k => exact h.congr rfl rfl (hlaws.registerBuffers _ _ k)
  | registered bufferIndex buf k => exact h.congr rfl rfl (hlaws.registerBuffers _ _ k)
  | polled k =>
    obtain ⟨polled, hreported, hperm⟩ := h
    refine ⟨polled ++ (api.completions s.subsystem.ring k).1, ?_, ?_⟩
    · rw [hreported]
      unfold pollCompletions
      rw [List.map_append]
    · have hdrained := (hlaws.completions s.subsystem.ring k).map SubmissionEntry.userData
      rw [List.map_append, List.map_map] at hdrained
      refine hperm.trans ((hdrained.append_left _).trans (.of_eq ?_))
      rw [hlaws.completions_eq, List.map_append, List.map_map, List.append_assoc]
      rfl
  | proceeded k => exact h.congr rfl rfl (hlaws.proceed _ k)

/-- No request is lost, duplicated or invented. On a ring that conserves requests, in every
session the words queued, those of calls that failed after the push included, are those
reported and those outstanding. As long as all requests queued fit the user data, the
completions reported are so many of them, under their own identities, and the rest can still be
read off the outstanding words. -/
theorem completions_conserved (api : RingApi R K) (outstanding : R → List SubmissionEntry)
    (reaped : R → K → List (SubmissionEntry × Int32)) (hlaws : api.Conserves outstanding reaped)
    (entries : UInt32) (k : K) (subsystem : UringIoSubsystem R)
    (hnew : UringIoSubsystem.new api entries k = .ok subsystem) (actions : List (IoAction K))
    (s : IoSession R) (hrun : run (IoSession.step api) (start subsystem) actions = .ok s) :
    (s.queued.map IoRequest.userData).Perm
      ((s.reported.map fun c => packUserData c.cell c.guestFd c.requestId) ++
        (outstanding s.subsystem.ring).map SubmissionEntry.userData) ∧
    ((∀ r ∈ s.queued, r.Fits) → (s.queued.map IoRequest.identity).Perm
      (s.reported.map IoCompletion.identity ++
        ((outstanding s.subsystem.ring).map SubmissionEntry.userData).map unpackUserData)) := by
  have hstart : Custody outstanding (start subsystem) := by
    obtain ⟨ring, hring, rfl⟩ := new_eq_ok hnew
    refine ⟨[], rfl, ?_⟩
    have hfresh : outstanding (start ⟨ring, ∅⟩).subsystem.ring = [] := hlaws.new _ _ _ hring
    rw [hfresh]
    exact .refl _
  obtain ⟨polled, hreported, hperm⟩ : Custody outstanding s :=
    run_invariant (fun _ _ _ _ hs hstep => hs.moved hlaws (step_moved hstep)) hstart hrun
  constructor
  · rw [hreported, repacked_pollCompletions]
    exact hperm
  · intro hfits
    have hidentity : s.queued.map IoRequest.identity =
        (s.queued.map IoRequest.userData).map unpackUserData := by
      rw [List.map_map]
      apply List.map_congr_left
      intro r hr
      exact (r.unpack_userData_iff.mpr (hfits r hr)).symm
    rw [hidentity, hreported, identity_pollCompletions, ← List.map_append]
    exact hperm.map unpackUserData

/-- Two reads: the submit of the first fails and leaves it queued, the second call submits
both, and the second request finishes first. -/
theorem completions_conserved_failed_submit :
    ∃ subsystem s, UringIoSubsystem.new QueueRing.api 2 .idle = .ok subsystem ∧
      run (IoSession.step QueueRing.api) (start subsystem)
        [.registerFixedBuffer 0 ⟨65536, 1024, by decide⟩ .idle,
          .submitReadFixed ⟨1, 3, 9, 0, 0, 512, 7⟩ (.fail "EAGAIN"),
          .submitReadFixed ⟨2, 3, 9, 0, 512, 512, 8⟩ (.consume 2), .proceed (.finish 1 512),
          .proceed (.finish 0 512), .poll .idle] = .ok s ∧
      s.reported.map IoCompletion.identity = [(2, 3, 8), (1, 3, 7)] ∧
      (s.queued.map IoRequest.identity).Perm (s.reported.map IoCompletion.identity ++
        (s.subsystem.ring.outstanding.map SubmissionEntry.userData).map unpackUserData) := by
  have hreturns : returnsWith
      (run (IoSession.step QueueRing.api) (start ⟨QueueRing.fresh 2, ∅⟩)
        [.registerFixedBuffer 0 ⟨65536, 1024, by decide⟩ .idle,
          .submitReadFixed ⟨1, 3, 9, 0, 0, 512, 7⟩ (.fail "EAGAIN"),
          .submitReadFixed ⟨2, 3, 9, 0, 512, 512, 8⟩ (.consume 2), .proceed (.finish 1 512),
          .proceed (.finish 0 512), .poll .idle])
      (fun s => decide (s.reported.map IoCompletion.identity = [(2, 3, 8), (1, 3, 7)]) &&
        s.queued.all fun r => decide r.Fits) = true := by
    decide +kernel
  obtain ⟨s, hrun, htest⟩ := returnsWith_eq_true.mp hreturns
  simp only [Bool.and_eq_true, List.all_eq_true, decide_eq_true_eq] at htest
  exact ⟨_, s, rfl, hrun, htest.1, (completions_conserved _ _ _ QueueRing.conserves 2 .idle _ rfl
    _ s hrun).2 htest.2⟩

end Conservation

section Buffers
variable {buffers : R → Option (List Iovec)}

/-- The kernel's table of buffers and the one kept beside it: nothing registered, or one
buffer, which the kernel has in its first slot. -/
inductive OneBuffer (buffers : R → Option (List Iovec)) (s : IoSession R) : Prop where
  | none (hregistered : s.registered = []) (hlens : s.subsystem.registeredBufferLens = ∅)
      (hkernel : buffers s.subsystem.ring = Option.none)
  | one {bufferIndex : UInt16} (buf : BufferSlice)
      (hregistered : s.registered = [(bufferIndex, buf.len)])
      (hlens : s.subsystem.registeredBufferLens =
        (∅ : HashMap UInt16 ℕ).insert bufferIndex buf.len)
      (hkernel : buffers s.subsystem.ring = some [⟨buf.ptr, buf.len⟩])

/-- Whatever leaves the three tables alone. -/
theorem OneBuffer.congr (h : OneBuffer buffers s) (hregistered : s'.registered = s.registered)
    (hlens : s'.subsystem.registeredBufferLens = s.subsystem.registeredBufferLens)
    (hkernel : buffers s'.subsystem.ring = buffers s.subsystem.ring) : OneBuffer buffers s' := by
  cases h with
  | none h₁ h₂ h₃ =>
    exact .none (hregistered.trans h₁) (hlens.trans h₂) (hkernel.trans h₃)
  | one buf h₁ h₂ h₃ => exact .one buf (hregistered.trans h₁) (hlens.trans h₂) (hkernel.trans h₃)

theorem OneBuffer.moved (hlaws : api.KeepsBuffers buffers) (h : OneBuffer buffers s)
    (hmoved : Moved api s s') : OneBuffer buffers s' := by
  cases hmoved with
  | rejected r => exact h.congr rfl rfl rfl
  | pushed hpush k => exact h.congr rfl rfl (hlaws.pushed hpush k)
  | refused buf k herror => exact h.congr rfl rfl (hlaws.refused _ _ k _ herror)
  | registered bufferIndex buf k hok =>
    obtain ⟨hfirst, htable⟩ := hlaws.registered _ _ k hok
    cases h with
    | none hregistered hlens _ =>
      exact .one buf (by rw [hregistered]; rfl) (by rw [hlens]) htable
    | one _ _ _ hkernel =>
      rw [hkernel] at hfirst
      cases hfirst
  | polled k => exact h.congr rfl rfl (hlaws.completions _ k)
  | proceeded k => exact h.congr rfl rfl (hlaws.proceed _ k)

theorem oneBuffer_start (hlaws : api.KeepsBuffers buffers) {entries : UInt32} {k : K}
    {subsystem : UringIoSubsystem R}
    (hnew : UringIoSubsystem.new api entries k = .ok subsystem) :
    OneBuffer buffers (start subsystem) := by
  obtain ⟨ring, hring, rfl⟩ := new_eq_ok hnew
  exact .none rfl rfl (hlaws.new _ _ _ hring)

/-- The kernel has at most one of the buffers, whatever was registered. On a ring with one table
of buffers at most one registration of a session succeeds, and the lengths kept for
`submit_*_fixed` are indexed as the kernel's table is exactly when that registration named
index 0. -/
theorem registered_buffers_agree_iff (api : RingApi R K) (buffers : R → Option (List Iovec))
    (hlaws : api.KeepsBuffers buffers) (entries : UInt32) (k : K)
    (subsystem : UringIoSubsystem R)
    (hnew : UringIoSubsystem.new api entries k = .ok subsystem) (actions : List (IoAction K))
    (s : IoSession R) (hrun : run (IoSession.step api) (start subsystem) actions = .ok s) :
    s.registered.length ≤ 1 ∧
    ((∀ i : UInt16, s.subsystem.registeredBufferLens.get? i =
        (((buffers s.subsystem.ring).getD []).map Iovec.len)[i.toNat]?) ↔
      ∀ b ∈ s.registered, b.1 = 0) := by
  have h : OneBuffer buffers s := run_invariant
    (fun _ _ _ _ hs hstep => hs.moved hlaws (step_moved hstep)) (oneBuffer_start hlaws hnew) hrun
  cases h with
  | none hregistered hlens hkernel =>
    rw [hregistered, hlens, hkernel]
    simp
  | @one bufferIndex buf hregistered hlens hkernel =>
    rw [hregistered, hlens, hkernel]
    refine ⟨le_rfl, ?_⟩
    simp only [HashMap.get?_insert, List.mem_singleton, forall_eq, Option.getD_some,
      List.map_singleton]
    constructor
    · intro hagree
      have hfirst := hagree 0
      by_contra hne
      rw [if_neg fun h => hne h.symm] at hfirst
      simp at hfirst
    · rintro rfl i
      split_ifs with hi
      · subst hi
        rfl
      · have hpos : i.toNat ≠ 0 := fun h => hi (UInt16.toNat_inj.mp h)
        rw [List.getElem?_eq_none (by simp; omega)]
        rfl

/-- A buffer registered under index 3 is kept there, but is not the kernel's buffer 3. -/
theorem registered_buffers_agree_iff_third :
    ∃ subsystem s, UringIoSubsystem.new QueueRing.api 8 .idle = .ok subsystem ∧
      run (IoSession.step QueueRing.api) (start subsystem)
        [.registerFixedBuffer 3 ⟨65536, 4096, by decide⟩ .idle,
          .registerFixedBuffer 0 ⟨69632, 4096, by decide⟩ .idle] = .ok s ∧
      s.registered = [(3, 4096)] ∧ ¬ ∀ i : UInt16, s.subsystem.registeredBufferLens.get? i =
        ((s.subsystem.ring.buffers.getD []).map Iovec.len)[i.toNat]? := by
  refine ⟨⟨QueueRing.fresh 8, ∅⟩, _, rfl, rfl, rfl, ?_⟩
  rw [(registered_buffers_agree_iff _ _ QueueRing.keepsBuffers 8 .idle _ rfl
    [.registerFixedBuffer 3 ⟨65536, 4096, by decide⟩ .idle,
      .registerFixedBuffer 0 ⟨69632, 4096, by decide⟩ .idle] _ rfl).2]
  intro h
  exact absurd (h (3, 4096) List.mem_cons_self) (by decide)

end Buffers
end IoSession
end ChronosUvm
