import Mathlib.Tactic
import ChronosUvm.Core.EventLog

/-!
Replaying a recorded log returns the recorded values. Under the tick discipline no
key is written twice, so what a call recorded is still there when the log is
exported, and the replaying recorder's counter stays aligned with the recording one.
-/
namespace ChronosUvm
open Panicking Tables HostCall

/-- A tick that has occurred occurs again only while it is still the latest one: no tick
is returned to after it was left. -/
def NoReturn (ticks : List Tick) : Prop :=
  ∀ pre t post, ticks = pre ++ t :: post → t ∈ pre → pre.getLast? = some t

theorem NoReturn.left {ticks ticks' : List Tick} (h : NoReturn (ticks ++ ticks')) :
    NoReturn ticks := by
  intro pre t post heq
  apply h pre t (post ++ ticks')
  rw [heq, List.append_assoc, List.cons_append]

/-- Calls at ticks that never decrease, such as the dispatch tick, keep the discipline. -/
theorem noReturn_of_sorted {ticks : List Tick}
    (h : ticks.Pairwise fun t u => t.toNat ≤ u.toNat) : NoReturn ticks := by
  intro pre t post heq ht
  rcases List.eq_nil_or_concat pre with rfl | ⟨init, last, rfl⟩
  · cases ht
  · rw [List.concat_eq_append] at heq ht ⊢
    rw [heq] at h
    obtain ⟨hpre, -, hcross⟩ := List.pairwise_append.mp h
    have hlast : last.toNat ≤ t.toNat := hcross last (by simp) t List.mem_cons_self
    have hle : t.toNat ≤ last.toNat := by
      rcases List.mem_append.mp ht with ht | ht
      · exact (List.pairwise_append.mp hpre).2.2 t ht last (by simp)
      · rw [List.mem_singleton.mp ht]
    have heq : last = t := UInt64.toNat_inj.mp (by omega)
    rw [heq, List.getLast?_concat]

namespace EventRecorder

/-- What the log of a recorder in record mode looks like after calls at the given ticks. -/
structure Recorded (ticks : List Tick) (r : EventRecorder) : Prop where
  mode_eq : r.mode = .record
  latest : ticks ≠ [] → ticks.getLast? = some r.currentTick
  tick_mem : ∀ key ∈ r.log, key.tick ∈ ticks
  ordinal_lt : ∀ key ∈ r.log, key.tick = r.currentTick →
    key.callOrdinal.toNat < r.currentOrdinal.toNat

theorem recorded_new : Recorded [] (new .record) where
  mode_eq := rfl
  latest h := absurd rfl h
  tick_mem _ h := absurd h Finmap.notMem_empty
  ordinal_lt _ h := absurd h Finmap.notMem_empty

/-- The key of the next call has not been used. -/
theorem Recorded.key_fresh {ticks : List Tick} {r : EventRecorder} {t : Tick}
    (h : Recorded ticks r) (hticks : NoReturn (ticks ++ [t])) : r.keyAt t ∉ r.log := by
  intro hmem
  by_cases ht : t = r.currentTick
  · have hlt := h.ordinal_lt _ hmem ht
    simp [keyAt, ordinalAt, ht] at hlt
  · -- the counter was reset, so the tick is a new one
    have hin : t ∈ ticks := h.tick_mem _ hmem
    have hlast := hticks ticks t [] rfl hin
    rw [h.latest (List.ne_nil_of_mem hin)] at hlast
    exact ht (Option.some.inj hlast).symm

/-- Every entry of the first log is in the second. -/
def Extends (log log' : HashMap EventKey RecordedValue) : Prop :=
  ∀ key v, log.get? key = some v → log'.get? key = some v

variable {Ω Ω' : Type}

/-- One recorded call keeps the discipline and loses no entry. -/
theorem Recorded.perform {host : HostSource Ω} {c : HostCall} {ticks : List Tick}
    {r r' : EventRecorder} {ω ω' : Ω} {result : Except ReplayError HostValue}
    (h : Recorded ticks r) (hticks : NoReturn (ticks ++ [c.tick]))
    (hc : c.perform host r ω = .ok (result, r', ω')) :
    Recorded (ticks ++ [c.tick]) r' ∧ Extends r.log r'.log := by
  have hfresh := h.key_fresh hticks
  obtain ⟨v, next, -, -, hnext, rfl⟩ := perform_record h.mode_eq hc
  have hval := addU64_eq_ok.mp hnext
  constructor
  · refine ⟨h.mode_eq, fun _ => by simp [movedTo], ?_, ?_⟩
    · intro key hkey
      rcases Finmap.mem_insert.mp hkey with rfl | hkey
      · exact List.mem_append_right _ (List.mem_singleton.mpr rfl)
      · exact List.mem_append_left _ (h.tick_mem key hkey)
    · intro key hkey htick
      simp only [movedTo] at htick ⊢
      rcases Finmap.mem_insert.mp hkey with rfl | hkey
      · unfold keyAt
        rw [hval]
        simp
      · -- an older entry at this tick was made before the counter moved
        have hin := h.tick_mem key hkey
        have hlast := hticks ticks c.tick [] rfl (htick ▸ hin)
        rw [h.latest (List.ne_nil_of_mem hin), Option.some.injEq] at hlast
        have hlt := h.ordinal_lt key hkey (htick.trans hlast.symm)
        rw [hval, ordinalAt, if_pos hlast.symm]
        omega
  · intro key w hw
    have hne : key ≠ r.keyAt c.tick := by
      intro heq
      subst heq
      exact hfresh (HashMap.mem_iff_get?.mpr ⟨w, hw⟩)
    rw [HashMap.get?_insert_ne _ hne]
    exact hw

/-- The replaying recorder holds the whole log and is at the recording one's position. -/
structure InStep (r p : EventRecorder) : Prop where
  mode_eq : p.mode = .replay
  tick_eq : p.currentTick = r.currentTick
  ordinal_eq : p.currentOrdinal = r.currentOrdinal

/-- If the log still holds what the call recorded, the same call is replayed with the same
result, and the two recorders move in step. -/
theorem InStep.perform {host : HostSource Ω} (host' : HostSource Ω') {c c' : HostCall}
    {r r' p : EventRecorder} {ω ω₁ : Ω} (ω' : Ω') {result : Except ReplayError HostValue}
    (hstep : InStep r p) (hmode : r.mode = .record) (hshape : c'.shape = c.shape)
    (hc : c.perform host r ω = .ok (result, r', ω₁)) (hext : Extends r'.log p.log) :
    ∃ v p', result = .ok v ∧ c'.perform host' p ω' = .ok (.ok v, p', ω') ∧
      InStep r' p' ∧ p'.log = p.log := by
  obtain ⟨v, next, rfl, hfits, hnext, rfl⟩ := perform_record hmode hc
  have htick := tick_eq_of_shape hshape
  have hord : p.ordinalAt c'.tick = r.ordinalAt c.tick := by
    rw [ordinalAt, ordinalAt, htick, hstep.tick_eq, hstep.ordinal_eq]
  have hkey : p.keyAt c'.tick = r.keyAt c.tick := by rw [keyAt, keyAt, hord, htick]
  have hlog : p.log.get? (p.keyAt c'.tick) = some v := by
    rw [hkey]
    exact hext _ _ (HashMap.get?_insert_self _ _ _)
  have hnext' : addU64 (p.ordinalAt c'.tick) 1 = .ok next := by rw [hord, hnext]
  refine ⟨v, _, rfl, perform_replay host' ω' hstep.mode_eq (hfits.of_shape hshape) hnext' hlog,
    ⟨hstep.mode_eq, ?_, rfl⟩, rfl⟩
  simp [movedTo, htick]

/-- A whole recording keeps the discipline and loses no entry. -/
theorem Recorded.performAll {host : HostSource Ω} {calls : List HostCall} {ticks : List Tick}
    {r r' : EventRecorder} {ω ω' : Ω} {results : List (Except ReplayError HostValue)}
    (h : Recorded ticks r) (hticks : NoReturn (ticks ++ calls.map HostCall.tick))
    (hrun : performAll host calls r ω = .ok (results, r', ω')) :
    Recorded (ticks ++ calls.map HostCall.tick) r' ∧ Extends r.log r'.log := by
  induction calls generalizing ticks r ω results with
  | nil =>
    cases hrun
    rw [List.map_nil, List.append_nil]
    exact ⟨h, fun _ _ hv => hv⟩
  | cons c calls ih =>
    unfold HostCall.performAll at hrun
    obtain ⟨⟨result, r₁, ω₁⟩, hc, hrun⟩ := bind_returned.mp hrun
    obtain ⟨⟨results₁, r₂, ω₂⟩, hrest, hrun⟩ := bind_returned.mp hrun
    cases hrun
    rw [List.map_cons, List.append_cons] at hticks ⊢
    obtain ⟨h₁, hext₁⟩ := h.perform hticks.left hc
    obtain ⟨h₂, hext₂⟩ := ih h₁ hticks hrest
    exact ⟨h₂, fun key v hv => hext₂ key v (hext₁ key v hv)⟩

/-- Replaying the recorded calls, or calls of the same shape, reproduces all results. -/
theorem InStep.performAll {host : HostSource Ω} (host' : HostSource Ω')
    {calls calls' : List HostCall} {ticks : List Tick} {r r' p : EventRecorder} {ω ω₁ : Ω}
    (ω' : Ω') {results : List (Except ReplayError HostValue)} (hstep : InStep r p)
    (h : Recorded ticks r) (hticks : NoReturn (ticks ++ calls.map HostCall.tick))
    (hshape : calls'.map HostCall.shape = calls.map HostCall.shape)
    (hrun : performAll host calls r ω = .ok (results, r', ω₁)) (hext : Extends r'.log p.log) :
    (∀ result ∈ results, ∃ v, result = .ok v) ∧
      ∃ p', performAll host' calls' p ω' = .ok (results, p', ω') := by
  induction calls generalizing calls' ticks r p ω results with
  | nil =>
    rw [List.map_nil, List.map_eq_nil_iff] at hshape
    subst hshape
    cases hrun
    exact ⟨by simp, p, rfl⟩
  | cons c calls ih =>
    cases calls' with
    | nil => simp at hshape
    | cons c' calls' =>
      simp only [List.map_cons, List.cons.injEq] at hshape
      obtain ⟨hs, hshape⟩ := hshape
      unfold HostCall.performAll at hrun
      obtain ⟨⟨result, r₁, ω₂⟩, hc, hrun⟩ := bind_returned.mp hrun
      obtain ⟨⟨results₁, r₂, ω₃⟩, hrest, hrun⟩ := bind_returned.mp hrun
      cases hrun
      rw [List.map_cons, List.append_cons] at hticks
      obtain ⟨h₁, -⟩ := h.perform hticks.left hc
      -- what this call records survives the rest of the recording
      have hkept := (h₁.performAll hticks hrest).2
      obtain ⟨v, p₁, rfl, hc', hstep₁, hlog⟩ := hstep.perform host' ω' h.mode_eq hs hc
        (fun key w hw => hext key w (hkept key w hw))
      obtain ⟨hok, p', hall⟩ := ih hstep₁ h₁ hticks hshape hrest (by rwa [hlog])
      refine ⟨?_, p', ?_⟩
      · intro result hmem
        rcases List.mem_cons.mp hmem with rfl | hmem
        · exact ⟨v, rfl⟩
        · exact hok result hmem
      · unfold HostCall.performAll
        rw [hc', ok_bind]
        dsimp only
        rw [hall]
        rfl

/-- Importing an exported log, in whatever order it was exported, restores it. -/
theorem fromReplayLog_exportLog (r : EventRecorder) (order : Iteration r.log) :
    (fromReplayLog (r.exportLog order)).log = r.log := by
  unfold fromReplayLog
  rw [exportLog, List.foldl_map]
  simp only [RecordedValue.toRecorded_toEntry]
  exact order.insertAll_entries

theorem length_performAll {host : HostSource Ω} {calls : List HostCall} {r r' : EventRecorder}
    {ω ω' : Ω} {results : List (Except ReplayError HostValue)}
    (h : performAll host calls r ω = .ok (results, r', ω')) : results.length = calls.length := by
  induction calls generalizing r ω results with
  | nil =>
    cases h
    rfl
  | cons c calls ih =>
    unfold HostCall.performAll at h
    obtain ⟨⟨result, r₁, ω₁⟩, -, h⟩ := bind_returned.mp h
    obtain ⟨⟨results', r₂, ω₂⟩, hrest, h⟩ := bind_returned.mp h
    cases h
    rw [List.length_cons, List.length_cons, ih hrest]

theorem performAll_append {host : HostSource Ω} {calls calls' : List HostCall}
    {r r' : EventRecorder} {ω ω' : Ω} {results : List (Except ReplayError HostValue)}
    (h : performAll host (calls ++ calls') r ω = .ok (results, r', ω')) :
    ∃ results₁ results₂ r₁ ω₁, results = results₁ ++ results₂ ∧
      performAll host calls r ω = .ok (results₁, r₁, ω₁) ∧
      performAll host calls' r₁ ω₁ = .ok (results₂, r', ω') := by
  induction calls generalizing r ω results with
  | nil => exact ⟨[], results, r, ω, rfl, rfl, h⟩
  | cons c calls ih =>
    rw [List.cons_append, HostCall.performAll] at h
    obtain ⟨⟨result, r₁, ω₁⟩, hc, h⟩ := bind_returned.mp h
    obtain ⟨⟨results', r₂, ω₂⟩, hrest, h⟩ := bind_returned.mp h
    cases h
    obtain ⟨rs₁, rs₂, r₃, ω₃, rfl, h₁, h₂⟩ := ih hrest
    refine ⟨result :: rs₁, rs₂, r₃, ω₃, rfl, ?_, h₂⟩
    unfold HostCall.performAll
    rw [hc, ok_bind]
    dsimp only
    rw [h₁]
    rfl

/-- Record then replay is the identity on host-call results. The recorded calls all
succeed, and after any prefix of the same calls, made against any other host and with any
buffer contents, the replay has returned exactly the recorded results. -/
theorem replay_reproduces_recording (host : HostSource Ω) (host' : HostSource Ω')
    (calls calls' : List HostCall) (ω ω₁ : Ω) (ω' : Ω') (recorder : EventRecorder)
    (results : List (Except ReplayError HostValue))
    (hticks : NoReturn (calls.map HostCall.tick))
    (hrecord : performAll host calls (new .record) ω = .ok (results, recorder, ω₁))
    (order : Iteration recorder.log)
    (hshape : calls'.map HostCall.shape = calls.map HostCall.shape) (n : ℕ) :
    results.length = calls.length ∧ (∀ result ∈ results, ∃ v, result = .ok v) ∧
      ∃ p, performAll host' (calls'.take n) (fromReplayLog (recorder.exportLog order)) ω' =
        .ok (results.take n, p, ω') := by
  have hstep : InStep (new .record) (fromReplayLog (recorder.exportLog order)) := ⟨rfl, rfl, rfl⟩
  have hlog := fromReplayLog_exportLog recorder order
  have hall := hstep.performAll host' ω' recorded_new hticks hshape hrecord
    (fun key v hv => by rwa [hlog])
  have hsplit := hrecord
  rw [← List.take_append_drop n calls] at hsplit
  obtain ⟨rs₁, rs₂, r₁, ω₂, hresults, h₁, h₂⟩ := performAll_append hsplit
  have hticks' := hticks
  rw [← List.take_append_drop n calls, List.map_append] at hticks'
  have hmid := recorded_new.performAll hticks'.left h₁
  have hkept := (hmid.1.performAll hticks' h₂).2
  have hshape' : (calls'.take n).map HostCall.shape = (calls.take n).map HostCall.shape := by
    rw [List.map_take, List.map_take, hshape]
  obtain ⟨-, p, hp⟩ := hstep.performAll host' ω' recorded_new hticks'.left hshape' h₁
    (fun key v hv => by rw [hlog]; exact hkept key v hv)
  have htake : results.take n = rs₁ := by
    have hlen₁ := length_performAll h₁
    have hlen₂ := length_performAll h₂
    rw [List.length_take] at hlen₁
    rw [List.length_drop] at hlen₂
    rw [hresults, List.take_append, List.take_of_length_le (by omega), List.append_right_eq_self,
      List.take_eq_nil_iff, ← List.length_eq_zero_iff]
    omega
  exact ⟨length_performAll hrecord, hall.1, p, by rw [htake, hp]⟩

/-- Two calls at tick 0 and one at tick 3, replayed under another clock. -/
theorem replay_reproduces_three_calls :
    ∃ results recorder, performAll (HostSource.frozen 7)
        [.clock 0, .random 0 [1, 2], .clock 3] (new .record) () = .ok (results, recorder, ()) ∧
      ∀ order : Iteration recorder.log, ∃ p, performAll (HostSource.frozen 9)
        [.clock 0, .random 0 [0, 0], .clock 3] (fromReplayLog (recorder.exportLog order)) () =
          .ok (results, p, ()) := by
  have hrecord : ∃ results recorder, performAll (HostSource.frozen 7)
      [.clock 0, .random 0 [1, 2], .clock 3] (new .record) () = .ok (results, recorder, ()) :=
    ⟨_, _, rfl⟩
  obtain ⟨results, recorder, hrecord⟩ := hrecord
  refine ⟨results, recorder, hrecord, ?_⟩
  intro order
  obtain ⟨hlength, -, p, hp⟩ := replay_reproduces_recording (HostSource.frozen 7)
    (HostSource.frozen 9) _ [.clock 0, .random 0 [0, 0], .clock 3] () () () recorder results
    (noReturn_of_sorted (by decide)) hrecord order rfl 3
  have hall : results.take 3 = results := List.take_of_length_le hlength.le
  rw [hall] at hp
  exact ⟨p, hp⟩

end EventRecorder
end ChronosUvm
