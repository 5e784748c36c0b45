import Mathlib.Tactic
import ChronosUvm.Foundations.Histories
import ChronosUvm.Foundations.Transitions
import ChronosUvm.Io.FdTable

/-!
Whole runs of a descriptor table against their history. The table and its counter
are forgotten in the statements: what a descriptor resolves to is said by the calls
made and the answers given.
-/
namespace ChronosUvm
open Panicking Tables Histories
namespace FdTable

inductive Call where
  | register (hostFd : Int32)
  | close (guestFd : GuestFd)
  | resolve (guestFd : GuestFd)

inductive Answer where
  | registered (guestFd : GuestFd)
  | closed (hostFd : Option Int32)
  | resolved (result : Except IoError Int32)

/-- A table in use, with the calls made so far and their answers. -/
structure InUse where
  table : FdTable
  history : List (Call × Answer)

namespace InUse

def start : InUse := ⟨FdTable.new, []⟩

def call (s : InUse) : Call → Checked InUse
  | .register hostFd => do
    let (guestFd, table) ← s.table.register hostFd
    return ⟨table, s.history ++ [(.register hostFd, .registered guestFd)]⟩
  | .close guestFd =>
    .ok ⟨(s.table.close guestFd).2,
      s.history ++ [(.close guestFd, .closed (s.table.close guestFd).1)]⟩
  | .resolve guestFd =>
    .ok ⟨s.table, s.history ++ [(.resolve guestFd, .resolved (s.table.resolve guestFd))]⟩

end InUse

/-- A `register(hostFd)` issued the descriptor, and no later call closed it. -/
def OpenAs (history : List (Call × Answer)) (guestFd : GuestFd) (hostFd : Int32) : Prop :=
  Since (· = (.register hostFd, .registered guestFd)) (fun e => e.1 = .close guestFd) history

def Answer.issued? : Answer → Option GuestFd
  | .registered guestFd => some guestFd
  | .closed _ => none
  | .resolved _ => none

/-- The descriptors issued in a run, in order. -/
def issued (history : List (Call × Answer)) : List GuestFd :=
  history.filterMap fun e => e.2.issued?

def Call.isRegister : Call → Bool
  | .register _ => true
  | .close _ => false
  | .resolve _ => false

theorem issued_concat (history : List (Call × Answer)) (c : Call) (a : Answer) :
    issued (history ++ [(c, a)]) = issued history ++ a.issued?.toList := by
  unfold issued
  rw [List.filterMap_append]
  cases a <;> rfl

theorem OpenAs.mem_issued {history : List (Call × Answer)} {g : GuestFd} {h : Int32}
    (hopen : OpenAs history g h) : g ∈ issued history := by
  obtain ⟨e, he, rfl⟩ := Since.exists_mem hopen
  exact List.mem_filterMap.mpr ⟨_, he, rfl⟩

/-- The table against its history. The counter is one past every number issued, so a fresh
number was never issued before. -/
structure Tracks (s : InUse) : Prop where
  get?_iff : ∀ g h, s.table.entries.get? g = some h ↔ OpenAs s.history g h
  next_eq : s.table.nextGuestFd.toNat = 3 + (issued s.history).length
  issued_eq : (issued s.history).map UInt32.toNat = List.range' 3 (issued s.history).length

namespace Tracks

theorem start : Tracks InUse.start where
  get?_iff g h := by
    rw [InUse.start, FdTable.new, HashMap.get?_empty]
    simp [OpenAs, not_since_nil]
  next_eq := rfl
  issued_eq := rfl

theorem toNat_lt_next {s : InUse} (hs : Tracks s) {g : GuestFd} (hg : g ∈ issued s.history) :
    3 ≤ g.toNat ∧ g.toNat < s.table.nextGuestFd.toNat := by
  have hmem : g.toNat ∈ (issued s.history).map UInt32.toNat := List.mem_map_of_mem hg
  rw [hs.issued_eq, List.mem_range'_1] at hmem
  rw [hs.next_eq]
  exact hmem

theorem nodup_issued {s : InUse} (hs : Tracks s) : (issued s.history).Nodup := by
  apply List.Nodup.of_map UInt32.toNat
  rw [hs.issued_eq]
  exact List.nodup_range'

theorem call {s s' : InUse} {c : Call} (hs : Tracks s) (h : s.call c = .ok s') : Tracks s' := by
  cases c with
  | register hostFd =>
    unfold InUse.call at h
    obtain ⟨⟨g, table⟩, hreg, h⟩ := bind_returned.mp h
    cases h
    obtain ⟨rfl, hnext, hentries⟩ := register_eq_ok hreg
    have hfresh (h : Int32) : ¬ OpenAs s.history s.table.nextGuestFd h :=
      fun hopen => absurd (hs.toNat_lt_next hopen.mem_issued).2 (lt_irrefl _)
    constructor
    · intro g h
      rw [hentries, HashMap.get?_insert, OpenAs, since_concat, ← OpenAs, ← hs.get?_iff]
      split_ifs with hg
      · subst hg
        rw [hs.get?_iff]
        simp [hfresh]
      · simp [Ne.symm hg]
    · rw [issued_concat, hnext, hs.next_eq]
      simp [Answer.issued?]
      omega
    · rw [issued_concat, List.map_append, hs.issued_eq]
      simp [Answer.issued?, List.range'_concat, hs.next_eq]
  | close g =>
    cases h
    constructor
    · intro g' h
      rw [OpenAs, since_concat, ← OpenAs, ← hs.get?_iff]
      change HashMap.get? (s.table.entries.erase g) g' = some h ↔ _
      rw [HashMap.get?_erase]
      split_ifs with hg
      · simp [hg]
      · simp [Ne.symm hg]
    · rw [issued_concat]
      simpa [Answer.issued?, close] using hs.next_eq
    · rw [issued_concat]
      simpa [Answer.issued?] using hs.issued_eq
  | resolve g =>
    cases h
    constructor
    · intro g' h
      rw [OpenAs, since_concat, ← OpenAs, ← hs.get?_iff]
      simp
    · rw [issued_concat]
      simpa [Answer.issued?] using hs.next_eq
    · rw [issued_concat]
      simpa [Answer.issued?] using hs.issued_eq

end Tracks

/-- A run returns as long as the counter has room for its register calls. -/
theorem run_returns {s : InUse} {calls : List Call}
    (hroom : s.table.nextGuestFd.toNat + calls.countP Call.isRegister < 2 ^ 32) :
    ∃ s', Transitions.run InUse.call s calls = .ok s' ∧
      s'.history.map Prod.fst = s.history.map Prod.fst ++ calls := by
  induction calls generalizing s with
  | nil => exact ⟨s, rfl, by simp⟩
  | cons c calls ih =>
    have hcall : ∃ t, s.call c = .ok t ∧
        t.table.nextGuestFd.toNat + calls.countP Call.isRegister < 2 ^ 32 ∧
        t.history.map Prod.fst = s.history.map Prod.fst ++ [c] := by
      cases c with
      | register hostFd =>
        rw [List.countP_cons_of_pos rfl] at hroom
        obtain ⟨table, hreg⟩ := register_returns (t := s.table) (by omega) hostFd
        obtain ⟨-, hnext, -⟩ := register_eq_ok hreg
        refine ⟨⟨table, s.history ++ [(.register hostFd, .registered s.table.nextGuestFd)]⟩,
          ?_, ?_, ?_⟩
        · simp only [InUse.call, hreg, ok_bind, pure_ok]
        · rw [hnext]
          omega
        · simp
      | close g =>
        rw [List.countP_cons_of_neg (by simp [Call.isRegister])] at hroom
        exact ⟨_, rfl, hroom, by simp⟩
      | resolve g =>
        rw [List.countP_cons_of_neg (by simp [Call.isRegister])] at hroom
        exact ⟨_, rfl, hroom, by simp⟩
    obtain ⟨t, ht, hrest, hpast⟩ := hcall
    obtain ⟨s', hrun, hmade⟩ := ih hrest
    refine ⟨s', Transitions.run_cons_eq_ok.mpr ⟨t, ht, hrun⟩, ?_⟩
    rw [hmade, hpast, List.append_assoc]
    rfl

/-- What the calls answer next is what the history says: no number is issued twice, and every
number resolves to the file it was issued for, until it is closed. -/
structure NeverConfuses (s : InUse) : Prop where
  nodup_issued : (issued s.history).Nodup
  three_le : ∀ g ∈ issued s.history, 3 ≤ g.toNat
  resolve_iff : ∀ g h, s.table.resolve g = .ok h ↔ OpenAs s.history g h
  resolve_unknown : ∀ g, (∀ h, ¬ OpenAs s.history g h) →
    s.table.resolve g = .error (.unknownFd g)
  close_iff : ∀ g h, (s.table.close g).1 = some h ↔ OpenAs s.history g h
  close_other : ∀ g g', g' ≠ g → (s.table.close g).2.resolve g' = s.table.resolve g'

theorem resolve_eq_ok (t : FdTable) (g : GuestFd) (h : Int32) :
    t.resolve g = .ok h ↔ t.entries.get? g = some h := by
  unfold resolve
  cases t.entries.get? g <;> simp

theorem Tracks.neverConfuses {s : InUse} (hs : Tracks s) : NeverConfuses s where
  nodup_issued := hs.nodup_issued
  three_le g hg := (hs.toNat_lt_next hg).1
  resolve_iff g h := (resolve_eq_ok s.table g h).trans (hs.get?_iff g h)
  resolve_unknown g hnone := by
    have hget : s.table.entries.get? g = none := by
      rw [Option.eq_none_iff_forall_ne_some]
      intro h hget
      exact hnone h ((hs.get?_iff g h).mp hget)
    unfold resolve
    rw [hget]
  close_iff g h := hs.get?_iff g h
  close_other g g' hne := by
    unfold resolve close
    rw [HashMap.get?_erase, if_neg hne]

/-- Every sequence of calls that the counter has room for returns, and leaves a table that
never confuses two descriptors. -/
theorem run_neverConfuses (calls : List Call)
    (hregisters : calls.countP Call.isRegister < 2 ^ 32 - 3) :
    ∃ s, Transitions.run InUse.call InUse.start calls = .ok s ∧
      s.history.map Prod.fst = calls ∧ NeverConfuses s := by
  have hstart : InUse.start.table.nextGuestFd.toNat = 3 := rfl
  have hroom : InUse.start.table.nextGuestFd.toNat + calls.countP Call.isRegister < 2 ^ 32 := by
    omega
  obtain ⟨s, hrun, hmade⟩ := run_returns hroom
  have htracks : Tracks s :=
    Transitions.run_invariant (fun c _ t t' ht => ht.call) Tracks.start hrun
  exact ⟨s, hrun, hmade, htracks.neverConfuses⟩

theorem run_neverConfuses_after_close :
    ∃ s, Transitions.run InUse.call InUse.start
        [.register 7, .register 8, .close 3, .register 9, .resolve 3, .close 3] = .ok s ∧
      s.history.map Prod.fst =
        [.register 7, .register 8, .close 3, .register 9, .resolve 3, .close 3] ∧
      NeverConfuses s :=
  run_neverConfuses _ (by decide)

end FdTable
end ChronosUvm
