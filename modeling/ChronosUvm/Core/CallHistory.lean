import Mathlib.Tactic
import ChronosUvm.Core.RecordReplay

/-!
Runs of host calls through their history, the calls made with their results. Where no
tick is returned to, the counter is the number of calls made at the current tick, in
both modes and whether the calls succeeded or not; that makes every tick a log of its own.
-/
namespace ChronosUvm
open Panicking Tables HostCall

abbrev CallHistory := List (HostCall × Except ReplayError HostValue)

namespace CallHistory

def ticks (h : CallHistory) : List Tick := h.map fun e => e.1.tick

/-- The part of the history that happened at one tick. -/
def atTick (h : CallHistory) (t : Tick) : CallHistory := h.filter fun e => e.1.tick = t

def calls (h : CallHistory) : List HostCall := h.map Prod.fst

def results (h : CallHistory) : List (Except ReplayError HostValue) := h.map Prod.snd

theorem ticks_concat (h : CallHistory) (e : HostCall × Except ReplayError HostValue) :
    ticks (h ++ [e]) = ticks h ++ [e.1.tick] := by
  simp [ticks]

theorem atTick_concat_self (h : CallHistory) (e : HostCall × Except ReplayError HostValue) :
    atTick (h ++ [e]) e.1.tick = atTick h e.1.tick ++ [e] := by
  simp [atTick]

theorem atTick_concat_ne (h : CallHistory) {e : HostCall × Except ReplayError HostValue}
    {t : Tick} (ht : e.1.tick ≠ t) : atTick (h ++ [e]) t = atTick h t := by
  simp [atTick, ht]

theorem length_atTick (h : CallHistory) (t : Tick) :
    (atTick h t).length = (ticks h).count t := by
  unfold atTick ticks
  rw [← List.countP_eq_length_filter, List.count, List.countP_map]
  rfl

theorem calls_atTick_zip {cs : List HostCall} {rs : List (Except ReplayError HostValue)}
    (h : rs.length = cs.length) (t : Tick) :
    (atTick (cs.zip rs) t).calls = cs.filter fun c => c.tick = t := by
  have hfst : (cs.zip rs).map Prod.fst = cs := List.map_fst_zip h.ge
  conv_rhs => rw [← hfst, List.filter_map]
  rfl

theorem ticks_zip {cs : List HostCall} {rs : List (Except ReplayError HostValue)}
    (h : rs.length = cs.length) : ticks (cs.zip rs) = cs.map HostCall.tick := by
  have hfst : (cs.zip rs).map Prod.fst = cs := List.map_fst_zip h.ge
  conv_rhs => rw [← hfst, List.map_map]
  rfl

end CallHistory

theorem noReturn_concat {ticks : List Tick} {t : Tick} :
    NoReturn (ticks ++ [t]) ↔ NoReturn ticks ∧ (t ∈ ticks → ticks.getLast? = some t) := by
  constructor
  · intro h
    exact ⟨h.left, h ticks t [] rfl⟩
  · rintro ⟨h, hlast⟩ pre u post heq hu
    rcases List.eq_nil_or_concat' post with rfl | ⟨post, last, rfl⟩
    · obtain ⟨rfl, htail⟩ := List.append_inj' heq rfl
      obtain rfl := (List.cons.inj htail).1
      exact hlast hu
    · rw [← List.cons_append, ← List.append_assoc] at heq
      exact h pre u post (List.append_inj' heq rfl).1 hu

namespace EventRecorder
variable {Ω Ω' : Type}

/-- The counter of a recorder after calls at the given ticks. -/
structure Counted (ticks : List Tick) (r : EventRecorder) : Prop where
  latest : ticks ≠ [] → ticks.getLast? = some r.currentTick
  ordinal_eq : r.currentOrdinal.toNat = ticks.count r.currentTick

/-- The next call at a tick gets the number of calls made there before. -/
theorem Counted.ordinalAt_eq {ticks : List Tick} {r : EventRecorder} {t : Tick}
    (h : Counted ticks r) (hticks : NoReturn (ticks ++ [t])) :
    (r.ordinalAt t).toNat = ticks.count t := by
  unfold ordinalAt
  split_ifs with ht
  · rw [h.ordinal_eq, ht]
  · -- the counter is reset, so the tick is a new one
    have hnot : t ∉ ticks := by
      intro hmem
      have hlast := (noReturn_concat.mp hticks).2 hmem
      rw [h.latest (List.ne_nil_of_mem hmem)] at hlast
      exact ht (Option.some.inj hlast).symm
    rw [List.count_eq_zero_of_not_mem hnot]
    rfl

theorem Counted.movedTo {ticks : List Tick} {r r' : EventRecorder} {t : Tick} {next : UInt64}
    (h : Counted ticks r) (hticks : NoReturn (ticks ++ [t]))
    (hnext : addU64 (r.ordinalAt t) 1 = .ok next) (htick : r'.currentTick = t)
    (hordinal : r'.currentOrdinal = next) : Counted (ticks ++ [t]) r' := by
  have hone : (1 : UInt64).toNat = 1 := rfl
  constructor
  · intro _
    rw [List.getLast?_concat, htick]
  · rw [hordinal, htick, addU64_eq_ok.mp hnext, h.ordinalAt_eq hticks, List.count_append]
    simp

/-- What every call keeps, of the history and the recorder, holds after a run. -/
theorem performAll_invariant {host : HostSource Ω} {P : CallHistory → EventRecorder → Prop}
    (hstep : ∀ past c r ω result r' ω', P past r → perform host c r ω = .ok (result, r', ω') →
      P (past ++ [(c, result)]) r')
    {past : CallHistory} {cs : List HostCall} {r r' : EventRecorder} {ω ω' : Ω}
    {rs : List (Except ReplayError HostValue)} (h0 : P past r)
    (hrun : performAll host cs r ω = .ok (rs, r', ω')) : P (past ++ cs.zip rs) r' := by
  induction cs generalizing past r ω rs with
  | nil =>
    cases hrun
    simpa using h0
  | cons c cs ih =>
    unfold HostCall.performAll at hrun
    obtain ⟨⟨result, r₁, ω₁⟩, hc, hrun⟩ := bind_returned.mp hrun
    obtain ⟨⟨rs₁, r₂, ω₂⟩, hrest, hrun⟩ := bind_returned.mp hrun
    cases hrun
    have hnext := ih (hstep past c r ω result r₁ ω₁ h0 hc) hrest
    rwa [List.append_assoc] at hnext

/-- A recorded call stores what the host gave it. -/
theorem perform_record_returns (host : HostSource Ω) (c : HostCall) {r : EventRecorder} (ω : Ω)
    {next : UInt64} (hmode : r.mode = .record)
    (hnext : addU64 (r.ordinalAt c.tick) 1 = .ok next) :
    ∃ result r' ω', perform host c r ω = .ok (result, r', ω') ∧ r'.currentOrdinal = next := by
  cases c with
  | clock t =>
    unfold tick at hnext
    unfold perform
    simp only [wallClockNow, nextOrdinal_eq, hnext, Except.map, ok_bind, movedTo, hmode, pure_ok]
    exact ⟨_, _, _, rfl, rfl⟩
  | random t buf =>
    unfold tick at hnext
    unfold perform
    simp only [randomBytes, nextOrdinal_eq, hnext, Except.map, ok_bind, movedTo, hmode, pure_ok]
    exact ⟨_, _, _, rfl, rfl⟩

theorem perform_returns (host : HostSource Ω) (c : HostCall) {r : EventRecorder} (ω : Ω)
    (h : (r.ordinalAt c.tick).toNat + 1 < 2 ^ 64) :
    ∃ result r' ω', perform host c r ω = .ok (result, r', ω') ∧
      r'.currentOrdinal.toNat = (r.ordinalAt c.tick).toNat + 1 := by
  have hone : (1 : UInt64).toNat = 1 := rfl
  have hsum : (r.ordinalAt c.tick + 1).toNat = (r.ordinalAt c.tick).toNat + (1 : UInt64).toNat := by
    rw [UInt64.toNat_add, hone]
    omega
  have hnext := addU64_eq_ok.mpr hsum
  cases hmode : r.mode with
  | record =>
    obtain ⟨result, r', ω', hc, hordinal⟩ := perform_record_returns host c ω hmode hnext
    exact ⟨result, r', ω', hc, by rw [hordinal, hsum, hone]⟩
  | replay => exact ⟨_, _, _, perform_replay_eq host c ω hmode hnext, by rw [movedTo, hsum, hone]⟩

/-- Fewer than `2 ^ 64` calls always return. -/
theorem performAll_returns (host : HostSource Ω) (cs : List HostCall) {r : EventRecorder} (ω : Ω)
    (h : r.currentOrdinal.toNat + cs.length < 2 ^ 64) :
    ∃ rs r' ω', performAll host cs r ω = .ok (rs, r', ω') := by
  induction cs generalizing r ω with
  | nil => exact ⟨[], r, ω, rfl⟩
  | cons c cs ih =>
    rw [List.length_cons] at h
    have hle : (r.ordinalAt c.tick).toNat ≤ r.currentOrdinal.toNat := by
      unfold ordinalAt
      split_ifs
      · exact le_rfl
      · exact Nat.zero_le _
    obtain ⟨result, r₁, ω₁, hc, hordinal⟩ := perform_returns host c ω (r := r) (by omega)
    obtain ⟨rs, r', ω', hrest⟩ := ih (r := r₁) ω₁ (by omega)
    refine ⟨result :: rs, r', ω', ?_⟩
    unfold HostCall.performAll
    rw [hc, ok_bind]
    dsimp only
    rw [hrest]
    rfl

section Replaying

/-- A replay so far: nothing was written, and where no tick was returned to, the calls of each
tick got the log's answers to their numbers at that tick. -/
structure Replaying (log : HashMap EventKey RecordedValue) (past : CallHistory)
    (r : EventRecorder) : Prop where
  mode_eq : r.mode = .replay
  log_eq : r.log = log
  counted : NoReturn past.ticks → Counted past.ticks r
  results_eq : NoReturn past.ticks → ∀ t, (past.atTick t).results =
    (past.atTick t).calls.mapIdx fun j c => replayed log c (UInt64.ofNat j)

theorem replaying_fromReplayLog (entries : List (Tick × UInt64 × ReplayEntry)) :
    Replaying (fromReplayLog entries).log [] (fromReplayLog entries) where
  mode_eq := rfl
  log_eq := rfl
  counted _ := ⟨fun h => absurd rfl h, rfl⟩
  results_eq _ _ := rfl

theorem Replaying.perform {host : HostSource Ω} {log : HashMap EventKey RecordedValue}
    {past : CallHistory} {c : HostCall} {r r' : EventRecorder} {ω ω' : Ω}
    {result : Except ReplayError HostValue} (h : Replaying log past r)
    (hc : c.perform host r ω = .ok (result, r', ω')) :
    Replaying log (past ++ [(c, result)]) r' := by
  obtain ⟨next, hnext⟩ := addU64_of_perform hc
  rw [perform_replay_eq host c ω h.mode_eq hnext, h.log_eq] at hc
  cases hc
  refine ⟨h.mode_eq, h.log_eq, ?_, ?_⟩
  · intro hticks
    rw [CallHistory.ticks_concat] at hticks ⊢
    exact (h.counted hticks.left).movedTo hticks hnext rfl rfl
  · intro hticks t
    rw [CallHistory.ticks_concat] at hticks
    have hpast := h.results_eq hticks.left t
    by_cases ht : c.tick = t
    · subst ht
      have hordinal := (h.counted hticks.left).ordinalAt_eq hticks
      rw [← CallHistory.length_atTick] at hordinal
      have hnumber : r.ordinalAt c.tick = UInt64.ofNat (past.atTick c.tick).length := by
        rw [← hordinal, UInt64.ofNat_toNat]
      have happend := CallHistory.atTick_concat_self past
        (c, replayed log c (r.ordinalAt c.tick))
      dsimp only at happend
      rw [happend]
      unfold CallHistory.results CallHistory.calls at hpast ⊢
      rw [List.map_append, hpast, List.map_append, List.map_singleton, List.map_singleton,
        List.mapIdx_concat, List.length_map, hnumber]
    · rw [CallHistory.atTick_concat_ne past ht]
      exact hpast

theorem replaying_of_performAll {host : HostSource Ω}
    {entries : List (Tick × UInt64 × ReplayEntry)} {cs : List HostCall} {r : EventRecorder}
    {ω ω' : Ω} {rs : List (Except ReplayError HostValue)}
    (hrun : performAll host cs (fromReplayLog entries) ω = .ok (rs, r, ω')) :
    Replaying (fromReplayLog entries).log (cs.zip rs) r :=
  performAll_invariant (P := Replaying (fromReplayLog entries).log)
    (fun _ _ _ _ _ _ _ h hc => h.perform hc) (replaying_fromReplayLog entries) hrun

/-- A call that fails leaves the caller's buffer as it was. -/
theorem randomBytes_error {host : HostSource Ω} {r r' : EventRecorder} {tick : Tick}
    {buf buf' : List UInt8} {ω ω' : Ω} {e : ReplayError}
    (h : r.randomBytes host tick buf ω = .ok (.error e, buf', r', ω')) : buf' = buf := by
  unfold randomBytes at h
  obtain ⟨⟨ordinal, r₁⟩, -, h⟩ := bind_returned.mp h
  dsimp only at h
  split at h
  · cases h
  · split at h
    · split_ifs at h
      · cases h
        rfl
      · cases h
    · cases h
      rfl
    · cases h
      rfl

/-- What the log says to the call with the given number at its tick. -/
structure AnsweredBy (log : HashMap EventKey RecordedValue) (key : EventKey) (c : HostCall)
    (result : Except ReplayError HostValue) : Prop where
  ok_iff : ∀ v, result = .ok v ↔ log.get? key = some v ∧ c.Fits v
  missing_iff : result = .error (.missingEntry key.tick key.callOrdinal) ↔ log.get? key = none
  mismatch_iff : result = .error (.typeMismatch key.tick key.callOrdinal) ↔
    ∃ v, log.get? key = some v ∧ ¬ c.Fits v

theorem answeredBy_replayed (log : HashMap EventKey RecordedValue) (c : HostCall)
    (ordinal : UInt64) :
    AnsweredBy log ⟨c.tick, ordinal⟩ c (replayed log c ordinal) := by
  unfold replayed
  cases hget : log.get? ⟨c.tick, ordinal⟩ with
  | none => constructor <;> simp [hget]
  | some w =>
    by_cases hfits : c.Fits w
    · constructor <;> simp only [hget, if_pos hfits]
      · intro v
        constructor
        · rintro ⟨rfl⟩
          exact ⟨rfl, hfits⟩
        · rintro ⟨⟨rfl⟩, -⟩
          rfl
      · simp
      · simp [hfits]
    · constructor <;> simp only [hget, if_neg hfits]
      · intro v
        simp only [reduceCtorEq, false_iff, not_and]
        rintro ⟨rfl⟩
        exact hfits
      · simp
      · simp [hfits]

theorem replayed_of_shape {log : HashMap EventKey RecordedValue} {c c' : HostCall}
    (h : c'.shape = c.shape) (ordinal : UInt64) :
    replayed log c' ordinal = replayed log c ordinal := by
  have hfits (v : HostValue) : c'.Fits v ↔ c.Fits v := ⟨.of_shape h.symm, .of_shape h⟩
  unfold replayed
  simp only [tick_eq_of_shape h, hfits]

/-- The `j`-th call of a tick gets the log's answer to it, failed calls counted. -/
theorem Replaying.answeredBy {log : HashMap EventKey RecordedValue} {past : CallHistory}
    {r : EventRecorder} (h : Replaying log past r) (hticks : NoReturn past.ticks) {t : Tick}
    {j : ℕ} {c : HostCall} {result : Except ReplayError HostValue}
    (hj : (past.atTick t)[j]? = some (c, result)) :
    AnsweredBy log ⟨t, UInt64.ofNat j⟩ c result := by
  have htick : c.tick = t := by simpa using (List.mem_filter.mp (List.mem_of_getElem? hj)).2
  have hresult := congrArg (·[j]?) (h.results_eq hticks t)
  unfold CallHistory.results CallHistory.calls at hresult
  simp only [List.getElem?_map, List.getElem?_mapIdx, hj, Option.map_some,
    Option.some.injEq] at hresult
  subst htick hresult
  exact answeredBy_replayed log c (UInt64.ofNat j)

/-- Two replays of one log, neither of which returns to a tick, against any hosts. What the log
holds under a key is the last entry given for it. The calls of each tick are answered from the
entries of that tick alone, so calls of the same shape at a tick get the same results, whatever
the two runs did at other ticks. -/
theorem replay_tick_independent (entries : List (Tick × UInt64 × ReplayEntry))
    (host : HostSource Ω) (host' : HostSource Ω') (cs cs' : List HostCall) (ω : Ω) (ω' : Ω')
    (hticks : NoReturn (cs.map HostCall.tick)) (hticks' : NoReturn (cs'.map HostCall.tick)) :
    (∀ key, (fromReplayLog entries).log.get? key = lastEntry entries key) ∧
    (cs.length < 2 ^ 64 → ∃ rs r ω₁,
      performAll host cs (fromReplayLog entries) ω = .ok (rs, r, ω₁)) ∧
    ∀ rs r ω₁ rs' r' ω₁',
      performAll host cs (fromReplayLog entries) ω = .ok (rs, r, ω₁) →
      performAll host' cs' (fromReplayLog entries) ω' = .ok (rs', r', ω₁') →
      r.log = (fromReplayLog entries).log ∧
      (∀ t j c result, (CallHistory.atTick (cs.zip rs) t)[j]? = some (c, result) →
        AnsweredBy (fromReplayLog entries).log ⟨t, UInt64.ofNat j⟩ c result) ∧
      (∀ tick buf e buf' r₂ ω₂,
        r.randomBytes host tick buf ω₁ = .ok (.error e, buf', r₂, ω₂) → buf' = buf) ∧
      ∀ t, (cs'.filter fun c => c.tick = t).map HostCall.shape =
          (cs.filter fun c => c.tick = t).map HostCall.shape →
        (CallHistory.atTick (cs'.zip rs') t).results =
          (CallHistory.atTick (cs.zip rs) t).results := by
  have hzero : (fromReplayLog entries).currentOrdinal.toNat = 0 := rfl
  refine ⟨get?_fromReplayLog entries, fun hlen => performAll_returns host cs ω (by omega), ?_⟩
  intro rs r ω₁ rs' r' ω₁' hrun hrun'
  have h := replaying_of_performAll hrun
  have h' := replaying_of_performAll hrun'
  have hlen := length_performAll hrun
  have hlen' := length_performAll hrun'
  rw [← CallHistory.ticks_zip hlen] at hticks
  rw [← CallHistory.ticks_zip hlen'] at hticks'
  refine ⟨h.log_eq, fun t j c result hj => h.answeredBy hticks hj,
    fun _ _ _ _ _ _ herr => randomBytes_error herr, ?_⟩
  intro t hshape
  rw [h.results_eq hticks, h'.results_eq hticks', CallHistory.calls_atTick_zip hlen,
    CallHistory.calls_atTick_zip hlen']
  apply List.ext_getElem?
  intro j
  have hj := congrArg (·[j]?) hshape
  simp only [List.getElem?_map] at hj
  rw [List.getElem?_mapIdx, List.getElem?_mapIdx]
  cases hc : (cs.filter fun c => c.tick = t)[j]? with
  | none =>
    rw [hc, Option.map_none, Option.map_eq_none_iff] at hj
    rw [hj]
  | some c =>
    rw [hc, Option.map_some] at hj
    obtain ⟨c', hc', hshape'⟩ := Option.map_eq_some_iff.mp hj
    rw [hc', Option.map_some, Option.map_some, replayed_of_shape hshape']

/-- One replay fails at tick 1 and the other does not; tick 2 is the same for both. -/
theorem replay_tick_two_independent :
    ∃ rs r rs' r',
      performAll (HostSource.frozen 7) [.clock 1, .random 2 [0, 0]]
        (fromReplayLog [(1, 0, .clock 5), (2, 0, .random [8, 9])]) () = .ok (rs, r, ()) ∧
      performAll (HostSource.frozen 7) [.random 1 [3], .clock 1, .random 2 [4, 4]]
        (fromReplayLog [(1, 0, .clock 5), (2, 0, .random [8, 9])]) () = .ok (rs', r', ()) ∧
      (CallHistory.atTick ([.random 1 [3], .clock 1, .random 2 [4, 4]].zip rs') 2).results =
        (CallHistory.atTick ([.clock 1, .random 2 [0, 0]].zip rs) 2).results := by
  have hticks : NoReturn ([.clock 1, .random 2 [0, 0]].map HostCall.tick) :=
    noReturn_of_sorted (by decide)
  have hticks' : NoReturn ([.random 1 [3], .clock 1, .random 2 [4, 4]].map HostCall.tick) :=
    noReturn_of_sorted (by decide)
  obtain ⟨-, hreturns, hsame⟩ := replay_tick_independent
    [(1, 0, .clock 5), (2, 0, .random [8, 9])] (HostSource.frozen 7) (HostSource.frozen 7)
    _ _ () () hticks hticks'
  obtain ⟨-, hreturns', -⟩ := replay_tick_independent
    [(1, 0, .clock 5), (2, 0, .random [8, 9])] (HostSource.frozen 7) (HostSource.frozen 7)
    _ _ () () hticks' hticks
  obtain ⟨rs, r, _, hrun⟩ := hreturns (by decide)
  obtain ⟨rs', r', _, hrun'⟩ := hreturns' (by decide)
  obtain ⟨-, -, -, hresults⟩ := hsame rs r () rs' r' () hrun hrun'
  exact ⟨rs, r, rs', r', hrun, hrun', hresults 2 (by decide)⟩

end Replaying

section Recording

/-- A recording so far. Every tick used has its first key in the log, so returning to a tick
writes over it; where no tick was returned to, the log holds what the calls returned. -/
structure Recording (past : CallHistory) (r : EventRecorder) : Prop where
  mode_eq : r.mode = .record
  latest : past.ticks ≠ [] → past.ticks.getLast? = some r.currentTick
  fresh : past.ticks = [] → r.currentOrdinal = 0
  first_mem : ∀ t ∈ past.ticks, (⟨t, 0⟩ : EventKey) ∈ r.log
  card_le : r.log.keys.card ≤ past.length
  card_eq_iff : r.log.keys.card = past.length ↔ NoReturn past.ticks
  counted : NoReturn past.ticks → Counted past.ticks r
  get?_eq : NoReturn past.ticks → ∀ t o,
    (r.log.get? ⟨t, o⟩).map .ok = (past.atTick t).results[o.toNat]?

theorem recording_new : Recording [] (new .record) where
  mode_eq := rfl
  latest h := absurd rfl h
  fresh _ := rfl
  first_mem _ h := absurd h List.not_mem_nil
  card_le := le_rfl
  card_eq_iff := ⟨fun _ pre t post heq => by simp [CallHistory.ticks] at heq, fun _ => rfl⟩
  counted _ := ⟨fun h => absurd rfl h, rfl⟩
  get?_eq _ t o := rfl

/-- A tick used for the first time starts at ordinal zero, the initial tick included. -/
theorem Recording.ordinalAt_of_notMem {past : CallHistory} {r : EventRecorder} {t : Tick}
    (h : Recording past r) (ht : t ∉ past.ticks) : r.ordinalAt t = 0 := by
  unfold ordinalAt
  split_ifs with hcurrent
  · apply h.fresh
    by_contra hne
    have hlast := h.latest hne
    rw [← hcurrent] at hlast
    exact ht (List.mem_of_getLast? hlast)
  · rfl

/-- The next key is free exactly when the next call does not return to a tick. -/
theorem Recording.keyAt_notMem_iff {past : CallHistory} {r : EventRecorder} {t : Tick}
    (h : Recording past r) (hticks : NoReturn past.ticks) :
    r.keyAt t ∉ r.log ↔ (t ∈ past.ticks → past.ticks.getLast? = some t) := by
  constructor
  · intro hfree hmem
    by_contra hlast
    rw [h.latest (List.ne_nil_of_mem hmem)] at hlast
    have hzero : r.ordinalAt t = 0 := by
      unfold ordinalAt
      rw [if_neg fun heq => hlast (congrArg some heq.symm)]
    apply hfree
    rw [keyAt, hzero]
    exact h.first_mem t hmem
  · intro hlast
    have hordinal := (h.counted hticks).ordinalAt_eq (noReturn_concat.mpr ⟨hticks, hlast⟩)
    have hget := h.get?_eq hticks t (r.ordinalAt t)
    rw [hordinal, ← CallHistory.length_atTick,
      List.getElem?_eq_none (by simp [CallHistory.results]), Option.map_eq_none_iff] at hget
    exact HashMap.get?_eq_none.mp hget

/-- Recording one more call under the next key. -/
theorem Recording.card_insert_iff {past : CallHistory} {r : EventRecorder} {t : Tick}
    (h : Recording past r) (v : RecordedValue) :
    (r.log.insert (r.keyAt t) v).keys.card = past.length + 1 ↔
      NoReturn (past.ticks ++ [t]) := by
  have hle := h.card_le
  rw [HashMap.keys_insert, noReturn_concat]
  by_cases hkey : r.keyAt t ∈ r.log
  · rw [Finset.insert_eq_of_mem (Finmap.mem_keys.mpr hkey)]
    constructor
    · intro hcard
      omega
    · rintro ⟨hticks, hlast⟩
      exact absurd hkey ((h.keyAt_notMem_iff hticks).mpr hlast)
  · rw [Finset.card_insert_of_notMem (mt Finmap.mem_keys.mp hkey), Nat.add_right_cancel_iff,
      h.card_eq_iff]
    exact ⟨fun hticks => ⟨hticks, (h.keyAt_notMem_iff hticks).mp hkey⟩, And.left⟩

theorem Recording.get?_insert {past : CallHistory} {r : EventRecorder} {c : HostCall}
    (h : Recording past r) (hticks : NoReturn (past.ticks ++ [c.tick])) (v : RecordedValue)
    (t : Tick) (o : UInt64) :
    (HashMap.get? (r.log.insert (r.keyAt c.tick) v) ⟨t, o⟩).map .ok =
      (CallHistory.atTick (past ++ [(c, .ok v)]) t).results[o.toNat]? := by
  have hpast := h.get?_eq hticks.left t o
  have hordinal := (h.counted hticks.left).ordinalAt_eq hticks
  rw [← CallHistory.length_atTick] at hordinal
  rw [HashMap.get?_insert, keyAt]
  by_cases ht : c.tick = t
  · subst ht
    have hconcat : (CallHistory.atTick (past ++ [(c, .ok v)]) c.tick).results =
        (past.atTick c.tick).results ++ [.ok v] := by
      rw [CallHistory.atTick_concat_self past (c, .ok v)]
      simp [CallHistory.results]
    have hlen : (past.atTick c.tick).results.length = (r.ordinalAt c.tick).toNat := by
      rw [hordinal, CallHistory.results, List.length_map]
    rw [hconcat]
    by_cases ho : o = r.ordinalAt c.tick
    · rw [ho, if_pos rfl, ← hlen, List.getElem?_concat_length]
      rfl
    · have hne : o.toNat ≠ (r.ordinalAt c.tick).toNat := fun heq => ho (UInt64.toNat_inj.mp heq)
      rw [if_neg fun hkey => ho (congrArg EventKey.callOrdinal hkey), hpast]
      by_cases hlt : o.toNat < (r.ordinalAt c.tick).toNat
      · rw [List.getElem?_append_left (by omega)]
      · rw [List.getElem?_eq_none (by omega),
          List.getElem?_eq_none (by rw [List.length_append, List.length_singleton]; omega)]
  · rw [if_neg fun hkey => ht (congrArg EventKey.tick hkey).symm, hpast,
      CallHistory.atTick_concat_ne past ht]

theorem Recording.perform {host : HostSource Ω} {past : CallHistory} {c : HostCall}
    {r r' : EventRecorder} {ω ω' : Ω} {result : Except ReplayError HostValue}
    (h : Recording past r) (hc : c.perform host r ω = .ok (result, r', ω')) :
    Recording (past ++ [(c, result)]) r' := by
  obtain ⟨v, next, rfl, -, hnext, rfl⟩ := perform_record h.mode_eq hc
  have hconcat := CallHistory.ticks_concat past (c, .ok v)
  dsimp only at hconcat
  constructor
  · exact h.mode_eq
  · intro _
    rw [hconcat, List.getLast?_concat]
    rfl
  · intro hnil
    rw [hconcat] at hnil
    simp at hnil
  · intro t ht
    rw [Finmap.mem_insert]
    rw [hconcat, List.mem_append, List.mem_singleton] at ht
    by_cases hpast : t ∈ past.ticks
    · exact .inr (h.first_mem t hpast)
    · obtain rfl := ht.resolve_left hpast
      rw [keyAt, h.ordinalAt_of_notMem hpast]
      exact .inl rfl
  · rw [HashMap.keys_insert, List.length_append]
    exact (Finset.card_insert_le _ _).trans (Nat.add_le_add_right h.card_le 1)
  · rw [hconcat, List.length_append]
    exact h.card_insert_iff v
  · intro hticks
    rw [hconcat] at hticks ⊢
    exact (h.counted hticks.left).movedTo hticks hnext rfl rfl
  · intro hticks
    rw [hconcat] at hticks
    exact h.get?_insert hticks v

theorem mem_exportLog {r : EventRecorder} (order : Iteration r.log) (t : Tick) (o : UInt64)
    (e : ReplayEntry) :
    (t, o, e) ∈ r.exportLog order ↔ r.log.get? ⟨t, o⟩ = some e.toRecorded := by
  unfold exportLog
  rw [List.mem_map]
  constructor
  · rintro ⟨⟨key, v⟩, hmem, heq⟩
    cases heq
    rw [RecordedValue.toRecorded_toEntry]
    exact order.mem_entries.mp hmem
  · intro hget
    refine ⟨⟨⟨t, o⟩, e.toRecorded⟩, order.mem_entries.mpr hget, ?_⟩
    cases e <;> rfl

/-- Any fewer than `2 ^ 64` recorded calls return, and the exported log has as many entries as
calls were made exactly when no tick was returned to. Then the entries of each tick are those
of its calls, numbered from zero in call order. -/
theorem exportLog_keeps_calls (host : HostSource Ω) (cs : List HostCall) (ω : Ω)
    (hlen : cs.length < 2 ^ 64) :
    ∃ rs r ω', performAll host cs (new .record) ω = .ok (rs, r, ω') ∧
      ∀ order : Iteration r.log,
        ((r.exportLog order).length = cs.length ↔ NoReturn (cs.map HostCall.tick)) ∧
        (NoReturn (cs.map HostCall.tick) → ∀ t,
          (CallHistory.atTick (cs.zip rs) t).results.length = (cs.map HostCall.tick).count t ∧
          ∀ o e, (t, o, e) ∈ r.exportLog order ↔
            (CallHistory.atTick (cs.zip rs) t).results[o.toNat]? = some (.ok e.toRecorded)) := by
  have hzero : (new .record).currentOrdinal.toNat = 0 := rfl
  obtain ⟨rs, r, ω', hrun⟩ := performAll_returns host cs (r := new .record) ω (by omega)
  refine ⟨rs, r, ω', hrun, ?_⟩
  intro order
  have h : Recording (cs.zip rs) r := performAll_invariant (P := Recording)
    (fun _ _ _ _ _ _ _ h hc => h.perform hc) recording_new hrun
  have hrs := length_performAll hrun
  have hzip : (cs.zip rs).length = cs.length := by rw [List.length_zip, hrs, min_self]
  rw [← CallHistory.ticks_zip hrs]
  constructor
  · rw [exportLog, List.length_map, order.length_entries, ← hzip]
    exact h.card_eq_iff
  · intro hticks t
    constructor
    · rw [CallHistory.results, List.length_map, CallHistory.length_atTick]
    · intro o e
      rw [← h.get?_eq hticks, mem_exportLog]
      simp

/-- The third call returns to tick 0, so the log has lost a call. -/
theorem exportLog_revisited :
    ∃ rs r ω', performAll (HostSource.frozen 7) [.clock 0, .random 1 [4], .clock 0] (new .record) ()
        = .ok (rs, r, ω') ∧
      ∀ order : Iteration r.log, ((r.exportLog order).length = 3 ↔ NoReturn [0, 1, 0]) := by
  obtain ⟨rs, r, ω', hrun, h⟩ := exportLog_keeps_calls (HostSource.frozen 7)
    [.clock 0, .random 1 [4], .clock 0] () (by decide)
  exact ⟨rs, r, ω', hrun, fun order => (h order).1⟩

end Recording
end EventRecorder
end ChronosUvm
