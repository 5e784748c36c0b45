import Mathlib.Tactic
import ChronosUvm.Io.IoSession

/-!
The in-process stub against the io_uring backend. The stub reports every request as a full
transfer. On the ring none succeeds, since its entries name the null address, where no
registered buffer lies: so what is tested on the stub never happens on the ring.
-/
namespace ChronosUvm
open Panicking Tables Transitions

/-- The calls of the `IoSubsystem` trait that move requests. -/
inductive IoCall where
  | submitReadFixed (request : IoRequest)
  | submitWriteFixed (request : IoRequest)
  | pollCompletions

def IoCall.request? : IoCall → Option IoRequest
  | .submitReadFixed r | .submitWriteFixed r => some r
  | .pollCompletions => none

/-- The completion of a full transfer. -/
def IoRequest.completed (r : IoRequest) : IoCompletion :=
  ⟨r.cell, r.guestFd, r.requestId, r.len.toInt32⟩

structure StubIoSubsystem where
  completions : List IoCompletion

namespace StubIoSubsystem

def new : StubIoSubsystem := ⟨[]⟩

/-- A full transfer, reported at the next poll. -/
def submitFixed (s : StubIoSubsystem) (r : IoRequest) :
    Except SubmitError Unit × StubIoSubsystem :=
  (.ok (), ⟨s.completions ++ [⟨r.cell, r.guestFd, r.requestId, r.len.toInt32⟩]⟩)

def submitReadFixed : StubIoSubsystem → IoRequest → Except SubmitError Unit × StubIoSubsystem :=
  submitFixed

def submitWriteFixed : StubIoSubsystem → IoRequest → Except SubmitError Unit × StubIoSubsystem :=
  submitFixed

def pollCompletions (s : StubIoSubsystem) : List IoCompletion × StubIoSubsystem :=
  (s.completions, ⟨[]⟩)

end StubIoSubsystem

/-- A session of the stub, with the same records as a session of the ring. -/
structure StubSession where
  subsystem : StubIoSubsystem
  answered : List (IoRequest × Except SubmitError Unit)
  reported : List IoCompletion

namespace StubSession

def start : StubSession := ⟨.new, [], []⟩

def answeredWith (s : StubSession) (r : IoRequest)
    (result : Except SubmitError Unit × StubIoSubsystem) : StubSession :=
  { s with subsystem := result.2, answered := s.answered ++ [(r, result.1)] }

def step (s : StubSession) : IoCall → Checked StubSession
  | .submitReadFixed r => .ok (s.answeredWith r (s.subsystem.submitReadFixed r))
  | .submitWriteFixed r => .ok (s.answeredWith r (s.subsystem.submitWriteFixed r))
  | .pollCompletions => .ok { s with
      subsystem := s.subsystem.pollCompletions.2
      reported := s.reported ++ s.subsystem.pollCompletions.1 }

theorem step_returns (t : StubSession) (c : IoCall) :
    ∃ t', t.step c = .ok t' ∧
      t'.answered = t.answered ++ c.request?.toList.map (fun r => (r, .ok ())) ∧
      t'.reported ++ t'.subsystem.completions = t.reported ++ t.subsystem.completions ++
        c.request?.toList.map IoRequest.completed := by
  cases c with
  | submitReadFixed r => exact ⟨_, rfl, rfl, (List.append_assoc _ _ _).symm⟩
  | submitWriteFixed r => exact ⟨_, rfl, rfl, (List.append_assoc _ _ _).symm⟩
  | pollCompletions => exact ⟨_, rfl, (List.append_nil _).symm, rfl⟩

/-- Every request is accepted, and is reported or waits for the next poll, once and in order. -/
theorem run_returns (t : StubSession) (calls : List IoCall) :
    ∃ t', run step t calls = .ok t' ∧
      t'.answered = t.answered ++
        (calls.filterMap IoCall.request?).map (fun r => (r, .ok ())) ∧
      t'.reported ++ t'.subsystem.completions = t.reported ++ t.subsystem.completions ++
        (calls.filterMap IoCall.request?).map IoRequest.completed := by
  induction calls generalizing t with
  | nil => exact ⟨t, rfl, (List.append_nil _).symm, (List.append_nil _).symm⟩
  | cons c calls ih =>
    obtain ⟨t₁, hstep, hanswered₁, hall₁⟩ := t.step_returns c
    obtain ⟨t', hrun, hanswered, hall⟩ := ih t₁
    refine ⟨t', run_cons_eq_ok.mpr ⟨t₁, hstep, hrun⟩, ?_, ?_⟩
    · rw [hanswered, hanswered₁, List.append_assoc, ← List.map_append]
      cases hc : c.request? with
      | none => rw [List.filterMap_cons_none hc]; rfl
      | some r => rw [List.filterMap_cons_some hc]; rfl
    · rw [hall, hall₁, List.append_assoc, ← List.map_append]
      cases hc : c.request? with
      | none => rw [List.filterMap_cons_none hc]; rfl
      | some r => rw [List.filterMap_cons_some hc]; rfl

end StubSession

namespace IoSession
variable {R K : Type} {api : RingApi R K} {outstanding : R → List SubmissionEntry}
  {reaped : R → K → List (SubmissionEntry × Int32)} {buffers : R → Option (List Iovec)}
  {s s' : IoSession R}

/-- Every request on its way names the null address, no buffer starts there, and nothing that
was reported had succeeded. -/
structure Failing (outstanding : R → List SubmissionEntry) (buffers : R → Option (List Iovec))
    (s : IoSession R) : Prop where
  addr_eq : ∀ entry ∈ outstanding s.subsystem.ring, entry.addr = 0
  base_pos : ∀ iovec ∈ (buffers s.subsystem.ring).getD [], 0 < iovec.base
  reported_neg : ∀ c ∈ s.reported, c.result < 0

theorem Failing.congr (h : Failing outstanding buffers s) (hreported : s'.reported = s.reported)
    (hring : (outstanding s'.subsystem.ring).Perm (outstanding s.subsystem.ring))
    (hbuffers : buffers s'.subsystem.ring = buffers s.subsystem.ring) :
    Failing outstanding buffers s' := by
  refine ⟨fun entry hentry => h.addr_eq entry (hring.mem_iff.mp hentry), ?_, ?_⟩
  · rw [hbuffers]
    exact h.base_pos
  · rw [hreported]
    exact h.reported_neg

/-- A request that names the null address is outside every buffer. -/
theorem Failing.not_within (h : Failing outstanding buffers s) {entry : SubmissionEntry}
    (haddr : entry.addr = 0) : ¬ entry.Within ((buffers s.subsystem.ring).getD []) := by
  rintro ⟨iovec, hiovec, hbase, -⟩
  have hpos := h.base_pos iovec (List.mem_of_getElem? hiovec)
  rw [haddr] at hbase
  exact absurd (UInt64.lt_of_lt_of_le hpos hbase) (UInt64.lt_irrefl 0)

theorem Failing.moved (hconserves : api.Conserves outstanding reaped)
    (hkeeps : api.KeepsBuffers buffers) (hranges : RingApi.ChecksRanges buffers reaped)
    (h : Failing outstanding buffers s) (hmoved : Moved api s s') :
    Failing outstanding buffers s' := by
  cases hmoved with
  | rejected r => exact h.congr rfl (.refl _) rfl
  | pushed hpush k =>
    refine ⟨?_, ?_, h.reported_neg⟩
    · intro entry hentry
      rcases List.mem_append.mp ((hconserves.pushed hpush k).mem_iff.mp hentry) with hold | hnew
      · exact h.addr_eq entry hold
      · rw [List.mem_singleton.mp hnew]
        rfl
    · intro iovec hiovec
      refine h.base_pos iovec ?_
      rwa [← hkeeps.pushed hpush k]
  | refused buf k herror =>
    exact h.congr rfl (hconserves.registerBuffers _ _ k) (hkeeps.refused _ _ k _ herror)
  | registered bufferIndex buf k hok =>
    obtain ⟨-, htable⟩ := hkeeps.registered _ _ k hok
    refine ⟨fun entry hentry => h.addr_eq entry
      ((hconserves.registerBuffers _ _ k).mem_iff.mp hentry), ?_, h.reported_neg⟩
    intro iovec hiovec
    dsimp only at hiovec
    rw [htable] at hiovec
    obtain rfl := List.mem_singleton.mp hiovec
    exact buf.ptr_pos
  | polled k =>
    have hdrained := hconserves.completions s.subsystem.ring k
    refine ⟨?_, ?_, ?_⟩
    · intro entry hentry
      exact h.addr_eq entry (hdrained.mem_iff.mpr (List.mem_append_right _ hentry))
    · intro iovec hiovec
      refine h.base_pos iovec ?_
      rwa [← hkeeps.completions s.subsystem.ring k]
    · intro c hc
      rcases List.mem_append.mp hc with hold | hnew
      · exact h.reported_neg c hold
      · rw [hconserves.completions_eq] at hnew
        obtain ⟨cqe, hcqe, rfl⟩ := List.mem_map.mp hnew
        obtain ⟨x, hx, rfl⟩ := List.mem_map.mp hcqe
        -- a success would have to lie in a buffer, and the address is null
        have haddr := h.addr_eq x.1
          (hdrained.mem_iff.mpr (List.mem_append_left _ (List.mem_map_of_mem hx)))
        exact Int32.not_le.mp fun hsuccess =>
          h.not_within haddr (hranges _ k x hx hsuccess)
  | proceeded k => exact h.congr rfl (hconserves.proceed _ k) (hkeeps.proceed _ k)

theorem failing_start (hconserves : api.Conserves outstanding reaped)
    (hkeeps : api.KeepsBuffers buffers) {entries : UInt32} {k : K}
    {subsystem : UringIoSubsystem R}
    (hnew : UringIoSubsystem.new api entries k = .ok subsystem) :
    Failing outstanding buffers (start subsystem) := by
  obtain ⟨ring, hring, rfl⟩ := UringIoSubsystem.new_eq_ok hnew
  constructor
  · intro entry hentry
    have hempty : outstanding ring = [] := hconserves.new _ _ _ hring
    change entry ∈ outstanding ring at hentry
    rw [hempty] at hentry
    cases hentry
  · intro iovec hiovec
    have hnone : buffers ring = none := hkeeps.new _ _ _ hring
    change iovec ∈ (buffers ring).getD [] at hiovec
    rw [hnone] at hiovec
    cases hiovec
  · intro c hc
    cases hc

end IoSession

theorem IoRequest.completed_nonneg {r : IoRequest} (h : r.len.toNat < 2 ^ 31) :
    0 ≤ r.completed.result := by
  unfold completed
  rw [Int32.le_iff_toInt_le]
  show 0 ≤ r.len.toBitVec.toInt
  have hsmall : r.len.toBitVec.toNat < 2 ^ 31 := h
  rw [BitVec.toInt_eq_toNat_of_lt (by omega)]
  exact Int.natCast_nonneg _

/-- Stub and ring never agree on a request. Whatever calls are made on the stub, it accepts
every request and reports each once and in order as a full transfer. In every session of the
ring, whatever was registered and however the kernel and the calls interleave, every completion
reported is an error, if the ring conserves requests, keeps one table of buffers and lets no
transfer succeed outside them. So no completion of a transfer of less than 2 GiB that the stub
reports is one that the ring reports. -/
theorem stub_never_agrees_with_ring {R K : Type} (api : RingApi R K)
    (outstanding : R → List SubmissionEntry) (reaped : R → K → List (SubmissionEntry × Int32))
    (buffers : R → Option (List Iovec)) (hconserves : api.Conserves outstanding reaped)
    (hkeeps : api.KeepsBuffers buffers) (hranges : RingApi.ChecksRanges buffers reaped)
    (entries : UInt32) (k : K) (subsystem : UringIoSubsystem R)
    (hnew : UringIoSubsystem.new api entries k = .ok subsystem) (actions : List (IoAction K))
    (s : IoSession R) (hrun : run (IoSession.step api) (.start subsystem) actions = .ok s)
    (calls : List IoCall) :
    ∃ t, run StubSession.step .start (calls ++ [.pollCompletions]) = .ok t ∧
      t.answered = (calls.filterMap IoCall.request?).map (fun r => (r, .ok ())) ∧
      t.reported = (calls.filterMap IoCall.request?).map IoRequest.completed ∧
      (∀ c ∈ s.reported, c.result < 0) ∧
      ∀ r ∈ calls.filterMap IoCall.request?, r.len.toNat < 2 ^ 31 → r.completed ∉ s.reported := by
  obtain ⟨t, ht, hanswered, hall⟩ := StubSession.start.run_returns (calls ++ [.pollCompletions])
  have hempty : t.subsystem.completions = [] := by
    obtain ⟨t₁, -, hpoll⟩ := run_append_eq_ok.mp ht
    obtain ⟨t₂, hpoll, hnil⟩ := run_cons_eq_ok.mp hpoll
    cases hnil
    cases hpoll
    rfl
  have hlast : [IoCall.pollCompletions].filterMap IoCall.request? = [] := rfl
  rw [List.filterMap_append, hlast, List.append_nil] at hanswered hall
  rw [hempty, List.append_nil] at hall
  have hfailing : IoSession.Failing outstanding buffers s := run_invariant
    (fun _ _ _ _ hs hstep => hs.moved hconserves hkeeps hranges (IoSession.step_moved hstep))
    (IoSession.failing_start hconserves hkeeps hnew) hrun
  refine ⟨t, ht, hanswered, hall, hfailing.reported_neg, ?_⟩
  intro r _ hlen hmem
  have hneg := hfailing.reported_neg _ hmem
  exact absurd (IoRequest.completed_nonneg hlen) (Int32.not_le.mpr hneg)

/-- One read of 512 bytes with a buffer registered for it: the stub reports 512, the ring
`EFAULT`. -/
theorem stub_never_agrees_with_ring_fault :
    ∃ s t, run (IoSession.step QueueRing.api) (.start ⟨QueueRing.fresh 4, ∅⟩)
        [.registerFixedBuffer 0 ⟨65536, 4096, by decide⟩ .idle,
          .submitReadFixed ⟨1, 3, 9, 0, 0, 512, 7⟩ (.consume 1), .proceed (.finish 0 512),
          .poll .idle] = .ok s ∧
      run StubSession.step .start [.submitReadFixed ⟨1, 3, 9, 0, 0, 512, 7⟩, .pollCompletions] =
        .ok t ∧
      s.reported.map IoCompletion.result = [-14] ∧ t.reported.map IoCompletion.result = [512] ∧
      IoRequest.completed ⟨1, 3, 9, 0, 0, 512, 7⟩ ∉ s.reported := by
  have hreturns : returnsWith
      (run (IoSession.step QueueRing.api) (.start ⟨QueueRing.fresh 4, ∅⟩)
        [.registerFixedBuffer 0 ⟨65536, 4096, by decide⟩ .idle,
          .submitReadFixed ⟨1, 3, 9, 0, 0, 512, 7⟩ (.consume 1), .proceed (.finish 0 512),
          .poll .idle])
      (fun s => decide (s.reported.map IoCompletion.result = [-14])) = true := by
    decide +kernel
  obtain ⟨s, hrun, hresults⟩ := returnsWith_eq_true.mp hreturns
  obtain ⟨t, ht, -, hreported, -, hnever⟩ := stub_never_agrees_with_ring _ _ _ _
    QueueRing.conserves QueueRing.keepsBuffers QueueRing.checksRanges 4 .idle _ rfl _ s hrun
    [.submitReadFixed ⟨1, 3, 9, 0, 0, 512, 7⟩]
  refine ⟨s, t, hrun, ht, of_decide_eq_true hresults, by rw [hreported]; rfl, ?_⟩
  exact hnever _ (by simp [IoCall.request?]) (by decide)

end ChronosUvm
