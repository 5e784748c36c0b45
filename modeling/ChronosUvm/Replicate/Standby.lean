import Mathlib.Tactic
import ChronosUvm.Mem.DeltaEngine
import ChronosUvm.Replicate.Ring

/-!
The standby's apply loop. Every batch at or below the last applied tick is
refused, which is what turns at-least-once delivery into exactly-once application.
-/
namespace ChronosUvm
open Panicking

inductive ApplyError where
  | outOfOrder (expectedAfter got : Tick)
  deriving DecidableEq, Repr

/-- The vectors can be resized for every page of the batch. -/
def TickBatch.Resizable (b : TickBatch) : Prop :=
  ∀ d ∈ b.deltas, DeltaEngine.Resizable d.pageIdx

instance (b : TickBatch) : Decidable b.Resizable := List.decidableBAll _ _

namespace DeltaEngine

/-- `for delta in &batch.deltas { self.engine.apply(delta); }` -/
def applyDeltas (e : DeltaEngine) : List PageDelta → Checked DeltaEngine
  | [] => .ok e
  | d :: ds => e.apply d >>= fun r => applyDeltas r.2 ds

theorem applyDeltas_of_resizable (e : DeltaEngine) {ds : List PageDelta}
    (h : ∀ d ∈ ds, Resizable d.pageIdx) : e.applyDeltas ds = .ok (ds.foldl applied e) := by
  induction ds generalizing e with
  | nil => rfl
  | cons d ds ih =>
    rw [applyDeltas, apply_of_hasRoom (.inr (h d List.mem_cons_self)), ok_bind,
      ih _ fun d' hd' => h d' (List.mem_cons_of_mem d hd'), List.foldl_cons]

/-- The vectors are no longer than a vector can be. -/
def Sized (e : DeltaEngine) : Prop := e.baseline.length * pageSize < 2 ^ 63

theorem Sized.hasRoom_iff {e : DeltaEngine} (h : e.Sized) {i : UInt64} :
    e.HasRoom i ↔ Resizable i := by
  unfold Sized pageSize at h
  unfold HasRoom Resizable pageSize
  omega

theorem Sized.applied {e : DeltaEngine} (h : e.Sized) {d : PageDelta}
    (hroom : Resizable d.pageIdx) : (e.applied d).Sized := by
  unfold Sized DeltaEngine.applied commit grown resized
  split_ifs
  · rw [List.length_set, length_resize]
    exact hroom
  · rw [List.length_set]
    exact h

theorem Sized.foldl_applied {e : DeltaEngine} (h : e.Sized) {ds : List PageDelta}
    (hroom : ∀ d ∈ ds, Resizable d.pageIdx) : (ds.foldl DeltaEngine.applied e).Sized := by
  induction ds generalizing e with
  | nil => exact h
  | cons d ds ih =>
    exact ih (h.applied (hroom d List.mem_cons_self)) fun d' hd' =>
      hroom d' (List.mem_cons_of_mem d hd')

/-- The deltas are applied, or the vectors cannot be resized for one of them. -/
theorem Sized.applyDeltas_returns_iff {e : DeltaEngine} (h : e.Sized) (ds : List PageDelta) :
    (∃ e', e.applyDeltas ds = .ok e') ↔ ∀ d ∈ ds, Resizable d.pageIdx := by
  constructor
  · rintro ⟨e', happly⟩
    induction ds generalizing e with
    | nil => exact fun d hd => absurd hd List.not_mem_nil
    | cons d ds ih =>
      obtain ⟨r, hd, hrest⟩ := bind_returned.mp happly
      obtain ⟨hroom, rfl⟩ := apply_eq_ok.mp hd
      have hroom := h.hasRoom_iff.mp hroom
      exact List.forall_mem_cons.mpr ⟨hroom, ih (h.applied hroom) hrest⟩
  · intro hroom
    exact ⟨_, applyDeltas_of_resizable e hroom⟩

theorem page?_foldl_of_ne (e : DeltaEngine) {deltas : List PageDelta} {i : ℕ}
    (h : ∀ d ∈ deltas, d.idx ≠ i) : (deltas.foldl applied e).page? i = e.page? i := by
  induction deltas generalizing e with
  | nil => rfl
  | cons d deltas ih =>
    rw [List.foldl_cons, ih _ fun d' hd' => h d' (List.mem_cons_of_mem _ hd'), page?_applied,
      if_neg (h d List.mem_cons_self).symm]

/-- Raw deltas overwrite the pages they list and no other. -/
theorem page?_foldl_raw (e : DeltaEngine) {pages : List ℕ} (h : ∀ p ∈ pages, p < 2 ^ 32)
    (content : ℕ → Page) (i : ℕ) :
    ((pages.map fun p => PageDelta.raw (.ofNat p) (content p)).foldl applied e).page? i =
      if i ∈ pages then some (content i) else e.page? i := by
  induction pages generalizing e with
  | nil => simp
  | cons p pages ih =>
    have hidx : (PageDelta.raw (.ofNat p) (content p)).idx = p :=
      PageDelta.idx_raw_ofNat (h p List.mem_cons_self) _
    have hfirst : (e.applied (.raw (.ofNat p) (content p))).page? i =
        if i = p then some (content p) else e.page? i := by
      rw [page?_applied, hidx]
      rfl
    rw [List.map_cons, List.foldl_cons, ih _ fun q hq => h q (List.mem_cons_of_mem p hq), hfirst]
    by_cases hrest : i ∈ pages
    · simp [hrest]
    · by_cases hi : i = p
      · simp [hi]
      · simp [hrest, hi]

end DeltaEngine

structure StandbyApplyLoop where
  engine : DeltaEngine
  lastAppliedTick : Tick

namespace StandbyApplyLoop

/-- A standby that has applied nothing. -/
def fresh (capacityPages : ℕ) : StandbyApplyLoop := ⟨DeltaEngine.fresh capacityPages, 0⟩

def new (initialCapacityPages : ℕ) : Checked StandbyApplyLoop := do
  let engine ← DeltaEngine.new initialCapacityPages
  return ⟨engine, 0⟩

theorem new_eq_ok {capacity : ℕ} {s : StandbyApplyLoop} :
    new capacity = .ok s ↔ capacity * pageSize < 2 ^ 63 ∧ s = fresh capacity := by
  unfold new
  rw [bind_returned]
  simp only [DeltaEngine.new_eq_ok, pure_ok, Except.ok.injEq]
  constructor
  · rintro ⟨e, ⟨hroom, rfl⟩, rfl⟩
    exact ⟨hroom, rfl⟩
  · rintro ⟨hroom, rfl⟩
    exact ⟨_, ⟨hroom, rfl⟩, rfl⟩

def applyBatch (s : StandbyApplyLoop) (batch : TickBatch) :
    Checked (Except ApplyError Unit × StandbyApplyLoop) :=
  if batch.tick ≤ s.lastAppliedTick ∧ s.lastAppliedTick ≠ 0 then
    .ok (.error (.outOfOrder s.lastAppliedTick batch.tick), s)
  else do
    let engine ← s.engine.applyDeltas batch.deltas
    return (.ok (), ⟨engine, batch.tick⟩)

theorem applyBatch_stale {s : StandbyApplyLoop} {b : TickBatch}
    (h : b.tick ≤ s.lastAppliedTick ∧ s.lastAppliedTick ≠ 0) :
    s.applyBatch b = .ok (.error (.outOfOrder s.lastAppliedTick b.tick), s) := by
  unfold applyBatch
  rw [if_pos h]

/-- A refused batch leaves the standby as it was. -/
theorem applyBatch_refused {s s' : StandbyApplyLoop} {b : TickBatch} {error : ApplyError}
    (h : s.applyBatch b = .ok (.error error, s')) : s' = s := by
  unfold applyBatch at h
  split_ifs at h
  · cases h
    rfl
  · obtain ⟨engine, -, h⟩ := bind_returned.mp h
    cases h

theorem sized_new {capacity : ℕ} {s : StandbyApplyLoop} (h : new capacity = .ok s) :
    s.engine.Sized := by
  obtain ⟨hcapacity, rfl⟩ := new_eq_ok.mp h
  show (List.replicate capacity zeroPage).length * pageSize < 2 ^ 63
  rwa [List.length_replicate]

/-- The gate is open for a batch that is later than the last one applied. -/
theorem gate_of_lt {s : StandbyApplyLoop} {b : TickBatch} (h : s.lastAppliedTick < b.tick) :
    ¬ (b.tick ≤ s.lastAppliedTick ∧ s.lastAppliedTick ≠ 0) :=
  fun hstale => UInt64.not_lt.mpr hstale.1 h

theorem applyBatch_open {s : StandbyApplyLoop} {b : TickBatch}
    (hgate : ¬ (b.tick ≤ s.lastAppliedTick ∧ s.lastAppliedTick ≠ 0)) (hroom : b.Resizable) :
    s.applyBatch b = .ok (.ok (), ⟨b.deltas.foldl DeltaEngine.applied s.engine, b.tick⟩) := by
  unfold applyBatch
  rw [if_neg hgate, DeltaEngine.applyDeltas_of_resizable s.engine hroom]
  rfl

theorem applyBatch_fresh {s : StandbyApplyLoop} {b : TickBatch}
    (h : s.lastAppliedTick < b.tick) (hroom : b.Resizable) :
    s.applyBatch b = .ok (.ok (), ⟨b.deltas.foldl DeltaEngine.applied s.engine, b.tick⟩) :=
  applyBatch_open (gate_of_lt h) hroom

/-- A batch that the vectors cannot be resized for panics, once it is past the gate. -/
theorem applyBatch_panics {s : StandbyApplyLoop} {b : TickBatch} (hsized : s.engine.Sized)
    (hgate : ¬ (b.tick ≤ s.lastAppliedTick ∧ s.lastAppliedTick ≠ 0)) (hroom : ¬ b.Resizable) :
    ∃ panic, s.applyBatch b = .error panic := by
  unfold applyBatch
  rw [if_neg hgate]
  cases h : s.engine.applyDeltas b.deltas with
  | ok e => exact absurd ((hsized.applyDeltas_returns_iff b.deltas).mp ⟨e, h⟩) hroom
  | error panic => exact ⟨panic, rfl⟩

theorem applyBatch_returns (s : StandbyApplyLoop) {b : TickBatch} (hroom : b.Resizable) :
    ∃ r, s.applyBatch b = .ok r := by
  unfold applyBatch
  split_ifs
  · exact ⟨_, rfl⟩
  · rw [DeltaEngine.applyDeltas_of_resizable s.engine hroom]
    exact ⟨_, rfl⟩

/-- Feed a sequence of batches, whatever each call returns. -/
def applyAll (s : StandbyApplyLoop) : List TickBatch → Checked StandbyApplyLoop
  | [] => .ok s
  | b :: rest => s.applyBatch b >>= fun r => applyAll r.2 rest

/-- A delivery of the batches `pending`, given those that have `arrived`: the first
arrivals come in order, and in between anything that has arrived may come again. -/
inductive Delivery : List TickBatch → List TickBatch → List TickBatch → Prop where
  | done (arrived : List TickBatch) : Delivery arrived [] []
  | first {arrived pending rest : List TickBatch} {b : TickBatch}
      (h : Delivery (arrived ++ [b]) pending rest) : Delivery arrived (b :: pending) (b :: rest)
  | again {arrived pending rest : List TickBatch} {b : TickBatch} (hb : b ∈ arrived)
      (h : Delivery arrived pending rest) : Delivery arrived pending (b :: rest)

/-- The standby has applied each arrived batch exactly once, and its tick separates the
arrived batches from the pending ones. -/
structure AppliedOnce (capacity : ℕ) (arrived pending : List TickBatch)
    (s : StandbyApplyLoop) : Prop where
  engine_eq : s.engine =
    (arrived.flatMap TickBatch.deltas).foldl DeltaEngine.applied (DeltaEngine.fresh capacity)
  sized : s.engine.Sized
  arrived_le : ∀ b ∈ arrived, b.tick ≤ s.lastAppliedTick ∧ s.lastAppliedTick ≠ 0
  lt_pending : ∀ b ∈ pending, s.lastAppliedTick < b.tick

theorem AppliedOnce.first {capacity : ℕ} {arrived pending : List TickBatch} {b : TickBatch}
    {s : StandbyApplyLoop} (h : AppliedOnce capacity arrived (b :: pending) s)
    (hsorted : ∀ b' ∈ pending, b.tick < b'.tick) (hroom : b.Resizable) :
    ∃ s', s.applyBatch b = .ok (.ok (), s') ∧
      AppliedOnce capacity (arrived ++ [b]) pending s' := by
  have hlt := h.lt_pending b List.mem_cons_self
  refine ⟨_, applyBatch_fresh hlt hroom, ?_, h.sized.foldl_applied hroom, ?_, hsorted⟩
  · rw [List.flatMap_append, List.foldl_append, ← h.engine_eq, List.flatMap_singleton]
  · intro b' hb'
    rcases List.mem_append.mp hb' with hold | hnew
    · have := h.arrived_le b' hold
      grind
    · obtain rfl := List.mem_singleton.mp hnew
      grind

/-- What a prefix of a delivery has done: the batches it contains have arrived, each was
applied exactly once, and the rest of the delivery continues from there. -/
theorem Delivery.prefix_applied {capacity : ℕ} {arrived pending pre post : List TickBatch}
    {s : StandbyApplyLoop} (h : Delivery arrived pending (pre ++ post))
    (hsorted : pending.Pairwise fun a b => a.tick < b.tick)
    (hroom : ∀ b ∈ pre, b.Resizable) (hs : AppliedOnce capacity arrived pending s) :
    ∃ arrived' pending' s', s.applyAll pre = .ok s' ∧
      arrived' ++ pending' = arrived ++ pending ∧ (∀ b, b ∈ arrived' ↔ b ∈ arrived ∨ b ∈ pre) ∧
      pending'.Pairwise (fun a b => a.tick < b.tick) ∧
      AppliedOnce capacity arrived' pending' s' ∧ Delivery arrived' pending' post := by
  induction pre generalizing arrived pending s with
  | nil => exact ⟨arrived, pending, s, rfl, rfl, by simp, hsorted, hs, h⟩
  | cons b pre ih =>
    have hpre := fun b' hb' => hroom b' (List.mem_cons_of_mem b hb')
    rw [List.cons_append] at h
    cases h with
    | first h =>
      obtain ⟨hb, hsorted⟩ := List.pairwise_cons.mp hsorted
      obtain ⟨s₁, happly, hs₁⟩ := hs.first hb (hroom b List.mem_cons_self)
      obtain ⟨a', p', s', hall, happ, hmem, hrest⟩ := ih h hsorted hpre hs₁
      refine ⟨a', p', s', ?_, ?_, ?_, hrest⟩
      · unfold applyAll
        rw [happly]
        exact hall
      · simpa using happ
      · intro x
        rw [hmem]
        simp [or_assoc]
    | again hb h =>
      obtain ⟨a', p', s', hall, happ, hmem, hrest⟩ := ih h hsorted hpre hs
      refine ⟨a', p', s', ?_, happ, ?_, hrest⟩
      · unfold applyAll
        rw [applyBatch_stale (hs.arrived_le b hb)]
        exact hall
      · intro x
        rw [hmem]
        simp only [List.mem_cons]
        constructor
        · rintro (hx | hx)
          · exact .inl hx
          · exact .inr (.inr hx)
        · rintro (hx | rfl | hx)
          · exact .inl hx
          · exact .inl hb
          · exact .inr hx

theorem appliedOnce_new {capacity : ℕ} {start : StandbyApplyLoop}
    (hnew : new capacity = .ok start) {batches : List TickBatch}
    (hpos : ∀ b ∈ batches, 1 ≤ b.tick) : AppliedOnce capacity [] batches start := by
  have hsized := sized_new hnew
  obtain ⟨-, rfl⟩ := new_eq_ok.mp hnew
  refine ⟨rfl, hsized, by simp, ?_⟩
  intro b hb
  have := hpos b hb
  change (0 : UInt64) < b.tick
  grind

/-- At-least-once delivery is applied exactly once, up to a batch with a page index that the
vectors cannot be resized for. At every position of the delivery before which there was no
such batch, a redelivered batch is refused without any effect, and a first arrival is accepted
or is itself such a batch and panics. A delivery without any ends with the engine obtained by
applying each batch exactly once. -/
theorem delivery_applied_exactly_once {capacity : ℕ} {start : StandbyApplyLoop}
    (hnew : new capacity = .ok start) (batches delivery : List TickBatch)
    (hsorted : batches.Pairwise fun a b => a.tick < b.tick)
    (hpos : ∀ b ∈ batches, 1 ≤ b.tick) (hdelivery : Delivery [] batches delivery) :
    (∀ pre b post, delivery = pre ++ b :: post → (∀ b' ∈ pre, b'.Resizable) →
      ∃ s, start.applyAll pre = .ok s ∧
        (b ∈ pre → s.applyBatch b = .ok (.error (.outOfOrder s.lastAppliedTick b.tick), s)) ∧
        (b ∉ pre → b.Resizable → ∃ s', s.applyBatch b = .ok (.ok (), s')) ∧
        (b ∉ pre → ¬ b.Resizable → ∃ panic, s.applyBatch b = .error panic)) ∧
    ((∀ b ∈ delivery, b.Resizable) → ∃ s, start.applyAll delivery = .ok s ∧
      start.engine.applyDeltas (batches.flatMap TickBatch.deltas) = .ok s.engine) := by
  have hstart := appliedOnce_new hnew hpos
  constructor
  · intro pre b post hsplit hroom
    rw [hsplit] at hdelivery
    obtain ⟨a, p, s, hall, -, hmem, hp, hs, hrest⟩ :=
      hdelivery.prefix_applied hsorted hroom hstart
    refine ⟨s, hall, ?_, ?_, ?_⟩
    · intro hb
      exact applyBatch_stale (hs.arrived_le b ((hmem b).mpr (.inr hb)))
    · intro hb hfirst
      cases hrest with
      | first h =>
        obtain ⟨s', h', -⟩ := hs.first (List.pairwise_cons.mp hp).1 hfirst
        exact ⟨s', h'⟩
      | again ha h =>
        rcases (hmem b).mp ha with hnil | hpre
        · cases hnil
        · exact absurd hpre hb
    · intro hb hfirst
      cases hrest with
      | first h =>
        exact applyBatch_panics hs.sized (gate_of_lt (hs.lt_pending b List.mem_cons_self)) hfirst
      | again ha h =>
        rcases (hmem b).mp ha with hnil | hpre
        · cases hnil
        · exact absurd hpre hb
  · intro hroom
    rw [← List.append_nil delivery] at hdelivery
    obtain ⟨a, p, s, hall, happ, hmem, -, hs, hrest⟩ :=
      hdelivery.prefix_applied hsorted hroom hstart
    cases hrest
    rw [List.append_nil, List.nil_append] at happ
    subst happ
    refine ⟨s, hall, ?_⟩
    rw [hs.engine_eq, (new_eq_ok.mp hnew).2]
    apply DeltaEngine.applyDeltas_of_resizable
    intro d hd
    obtain ⟨b, hb, hd⟩ := List.mem_flatMap.mp hd
    rcases (hmem b).mp hb with hnil | hb
    · cases hnil
    · exact hroom b hb d hd

/-- An XOR delta delivered three times, around a later batch. -/
theorem delivery_with_repeats :
    ∃ start s, new 4 = .ok start ∧
      start.applyAll [⟨1, [.xor 0 [⟨0, [7]⟩]]⟩, ⟨1, [.xor 0 [⟨0, [7]⟩]]⟩,
        ⟨3, [.xor 9 [⟨5, [1, 2]⟩]]⟩, ⟨1, [.xor 0 [⟨0, [7]⟩]]⟩] = .ok s ∧
      start.engine.applyDeltas [.xor 0 [⟨0, [7]⟩], .xor 9 [⟨5, [1, 2]⟩]] = .ok s.engine := by
  have hnew : new 4 = .ok (fresh 4) := new_eq_ok.mpr ⟨by decide, rfl⟩
  have hdelivery : Delivery []
      [⟨1, [.xor 0 [⟨0, [7]⟩]]⟩, ⟨3, [.xor 9 [⟨5, [1, 2]⟩]]⟩]
      [⟨1, [.xor 0 [⟨0, [7]⟩]]⟩, ⟨1, [.xor 0 [⟨0, [7]⟩]]⟩, ⟨3, [.xor 9 [⟨5, [1, 2]⟩]]⟩,
        ⟨1, [.xor 0 [⟨0, [7]⟩]]⟩] :=
    .first (.again (by simp) (.first (.again (by simp) (.done _))))
  obtain ⟨s, hall, hengine⟩ :=
    (delivery_applied_exactly_once hnew _ _ (by simp) (by simp) hdelivery).2 (by decide)
  exact ⟨_, s, hnew, hall, hengine⟩

/-- The last page index there is: the length that it asks for overflows. -/
theorem first_arrival_overflows :
    ∃ start, new 4 = .ok start ∧
      Delivery [] [⟨1, [.raw 18446744073709551615 zeroPage]⟩]
        [⟨1, [.raw 18446744073709551615 zeroPage]⟩] ∧
      start.applyBatch ⟨1, [.raw 18446744073709551615 zeroPage]⟩ = .error .overflow :=
  ⟨fresh 4, new_eq_ok.mpr ⟨by decide, rfl⟩, .first (.done _), rfl⟩

end StandbyApplyLoop
end ChronosUvm
