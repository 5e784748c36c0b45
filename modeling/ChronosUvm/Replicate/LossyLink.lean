import Mathlib.Data.List.DropRight
import Mathlib.Tactic
import ChronosUvm.Foundations.Transitions
import ChronosUvm.Mem.DeltaSize
import ChronosUvm.Replicate.Standby

/-!
The delta stream over a link that loses batches. The tick gate does not notice a gap, so
a delta that follows one is applied to a baseline the primary no longer has. What the
standby is off by is the exclusive or of the changes lost since the page last arrived in
full, and nothing but the next full page repairs it.
-/
namespace ChronosUvm
open Panicking RunLength

theorem xorPage_comm (a b : Page) : xorPage a b = xorPage b a := by
  funext i
  exact UInt8.xor_comm (a i) (b i)

theorem xorPage_assoc (a b c : Page) : xorPage (xorPage a b) c = xorPage a (xorPage b c) := by
  funext i
  exact UInt8.xor_assoc (a i) (b i) (c i)

theorem xorPage_self (a : Page) : xorPage a a = zeroPage := by
  funext i
  exact UInt8.xor_self

theorem xorPage_eq_zeroPage {a b : Page} : xorPage a b = zeroPage ↔ a = b := by
  constructor
  · intro h
    funext i
    exact UInt8.xor_eq_zero_iff.mp (congrFun h i)
  · rintro rfl
    exact xorPage_self a

/-- The change that takes `a` to `c` is the change to `b`, then from `b`. -/
theorem xorPage_trans (a b c : Page) : xorPage (xorPage a b) (xorPage a c) = xorPage c b := by
  rw [xorPage_comm a b, xorPage_assoc, xorPage_xorPage, xorPage_comm]

def PageDelta.isRaw : PageDelta → Bool
  | .raw _ _ => true
  | .xor _ _ => false

/-- One delta on the link, with the primary's copy of the page before and after it. -/
structure Transfer where
  delta : PageDelta
  before : Page
  after : Page
  arrives : Bool

def Transfer.change (t : Transfer) : Page := xorPage t.before t.after

/-- The lost deltas of a page since it last arrived in full. -/
def unrepaired (j : ℕ) (transfers : List Transfer) : List Transfer :=
  ((transfers.filter fun t => t.delta.idx = j).rtakeWhile
    fun t : Transfer => !(t.arrives && t.delta.isRaw)).filter fun t => !t.arrives

/-- What the standby's copy of a page is off by. -/
def drift (j : ℕ) (transfers : List Transfer) : Page :=
  ((unrepaired j transfers).map Transfer.change).foldl xorPage zeroPage

theorem drift_concat (j : ℕ) (transfers : List Transfer) (t : Transfer) :
    drift j (transfers ++ [t]) =
      if t.delta.idx = j then
        if t.arrives then (if t.delta.isRaw then zeroPage else drift j transfers)
        else xorPage (drift j transfers) t.change
      else drift j transfers := by
  unfold drift unrepaired
  by_cases hj : t.delta.idx = j
  · cases harrives : t.arrives <;> cases hraw : t.delta.isRaw <;>
      simp [hj, harrives, hraw, List.filter_append]
  · simp [hj, List.filter_append]

/-- A flush of the primary: the pages and their contents, under the tick of the batch. -/
structure Shipment where
  tick : Tick
  pages : List (UInt64 × Page)
  arrives : Bool

/-- The primary's engine, the standby, and the record of what was on the link. -/
structure Link where
  primary : DeltaEngine
  standby : StandbyApplyLoop
  transfers : List Transfer
  results : List (Except ApplyError Unit)

/-- The primary takes the deltas of a flush. -/
def DeltaEngine.takeDeltas (arrives : Bool) (e : DeltaEngine) :
    List (UInt64 × Page) → Checked (List Transfer × DeltaEngine)
  | [] => .ok ([], e)
  | (i, page) :: rest => do
    let (delta, e₁) ← e.diffAndCommit i page.toList
    let (transfers, e₂) ← takeDeltas arrives e₁ rest
    return (⟨delta, e.pageOrZero i.toNat, page, arrives⟩ :: transfers, e₂)

namespace Link

def new (primaryCapacity standbyCapacity : ℕ) : Checked Link := do
  let primary ← DeltaEngine.new primaryCapacity
  let standby ← StandbyApplyLoop.new standbyCapacity
  return ⟨primary, standby, [], []⟩

theorem new_eq_ok {primaryCapacity standbyCapacity : ℕ} {l : Link}
    (h : new primaryCapacity standbyCapacity = .ok l) :
    l = ⟨.fresh primaryCapacity, .fresh standbyCapacity, [], []⟩ := by
  obtain ⟨primary, hprimary, h⟩ := bind_returned.mp h
  obtain ⟨standby, hstandby, h⟩ := bind_returned.mp h
  obtain ⟨-, rfl⟩ := DeltaEngine.new_eq_ok.mp hprimary
  obtain ⟨-, rfl⟩ := StandbyApplyLoop.new_eq_ok.mp hstandby
  exact (Except.ok.inj h).symm

/-- The primary takes its deltas whether or not the batch arrives. -/
def step (l : Link) (b : Shipment) : Checked Link := do
  let (transfers, primary) ← l.primary.takeDeltas b.arrives b.pages
  if b.arrives then do
    let (result, standby) ← l.standby.applyBatch ⟨b.tick, transfers.map Transfer.delta⟩
    return ⟨primary, standby, l.transfers ++ transfers, l.results ++ [result]⟩
  else return ⟨primary, l.standby, l.transfers ++ transfers, l.results⟩

end Link

/-- Page, content and fate of a delta; the deltas of a shipment are those of its pages. -/
def Transfer.label (t : Transfer) : UInt64 × Page × Bool :=
  (t.delta.pageIdx, t.after, t.arrives)

def Shipment.labels (b : Shipment) : List (UInt64 × Page × Bool) :=
  b.pages.map fun x => (x.1, x.2, b.arrives)

/-- The vectors of both sides can be resized for every page shipped. -/
def Shipment.Resizable (b : Shipment) : Prop := ∀ x ∈ b.pages, DeltaEngine.Resizable x.1

instance (b : Shipment) : Decidable b.Resizable := List.decidableBAll _ _

/-- The two engines differ on every page by what the lost deltas changed. -/
def Drifted (primary standby : DeltaEngine) (transfers : List Transfer) : Prop :=
  ∀ j, xorPage (primary.pageOrZero j) (standby.pageOrZero j) = drift j transfers

/-- One delta, taken and delivered or lost. -/
theorem Drifted.transfer {primary standby : DeltaEngine} {past : List Transfer}
    (h : Drifted primary standby past) (i : UInt64) (page : Page) (arrives : Bool) :
    let d := DeltaEngine.deltaFrom (primary.page? i.toNat) i page
    Drifted (primary.committed i page) (if arrives then standby.applied d else standby)
      (past ++ [⟨d, primary.pageOrZero i.toNat, page, arrives⟩]) := by
  intro d j
  have hidx : d.idx = i.toNat := DeltaEngine.idx_deltaFrom (primary.page? i.toNat) i page
  have hpatch : DeltaEngine.patch (primary.pageOrZero i.toNat) d = page :=
    DeltaEngine.patch_deltaFrom (primary.page? i.toNat) i page
  have hprimary : (primary.committed i page).pageOrZero j =
      if j = i.toNat then page else primary.pageOrZero j := by
    unfold DeltaEngine.pageOrZero
    rw [DeltaEngine.page?_committed]
    split_ifs <;> rfl
  have hstandby : (standby.applied d).pageOrZero j =
      if j = i.toNat then DeltaEngine.patch (standby.pageOrZero i.toNat) d
      else standby.pageOrZero j := by
    unfold DeltaEngine.pageOrZero
    rw [DeltaEngine.page?_applied, hidx]
    split_ifs <;> rfl
  rw [drift_concat, hprimary]
  by_cases hj : j = i.toNat
  · subst hj
    have hold := h i.toNat
    cases arrives with
    | false =>
      simp only [hidx, if_true, Bool.false_eq_true, if_false, Transfer.change]
      rw [← hold, xorPage_trans]
    | true =>
      simp only [hidx, if_true]
      rw [hstandby, if_pos rfl]
      cases hd : d with
      | raw p bytes =>
        rw [hd] at hpatch
        rw [← hpatch]
        exact xorPage_self bytes
      | xor p runs =>
        rw [hd] at hpatch
        rw [← hpatch, ← hold]
        -- the same change was made on both sides
        show xorPage (xorPage _ (expandPage runs)) (xorPage _ (expandPage runs)) = _
        rw [xorPage_comm _ (expandPage runs), xorPage_comm _ (expandPage runs), xorPage_trans,
          xorPage_comm]
        rfl
  · have hne : ¬ i.toNat = j := fun heq => hj heq.symm
    simp only [hidx, hj, hne, if_false]
    cases arrives with
    | false => exact h j
    | true =>
      rw [if_pos rfl, hstandby, if_neg hj]
      exact h j

/-- The deltas of a whole flush. -/
theorem Drifted.takeDeltas {primary standby : DeltaEngine} {past : List Transfer}
    (h : Drifted primary standby past) (arrives : Bool) {pages : List (UInt64 × Page)}
    (hroom : ∀ x ∈ pages, DeltaEngine.Resizable x.1) :
    ∃ transfers primary', primary.takeDeltas arrives pages = .ok (transfers, primary') ∧
      transfers.map Transfer.label = pages.map (fun x => (x.1, x.2, arrives)) ∧
      Drifted primary' (if arrives then
        (transfers.map Transfer.delta).foldl DeltaEngine.applied standby else standby)
        (past ++ transfers) := by
  induction pages generalizing primary standby past with
  | nil =>
    refine ⟨[], primary, rfl, rfl, ?_⟩
    simpa using h
  | cons x rest ih =>
    obtain ⟨i, page⟩ := x
    obtain ⟨transfers, primary', htake, hlabels, hdrifted⟩ := ih (h.transfer i page arrives)
      fun x hx => hroom x (List.mem_cons_of_mem _ hx)
    refine ⟨⟨DeltaEngine.deltaFrom (primary.page? i.toNat) i page, primary.pageOrZero i.toNat,
      page, arrives⟩ :: transfers, primary', ?_, ?_, ?_⟩
    · unfold DeltaEngine.takeDeltas
      rw [DeltaEngine.diffAndCommit_of_hasRoom (.inr (hroom (i, page) List.mem_cons_self)),
        ok_bind]
      dsimp only
      rw [htake]
      rfl
    · rw [List.map_cons, List.map_cons, hlabels, Transfer.label, DeltaEngine.pageIdx_deltaFrom]
    · rw [List.append_cons]
      cases arrives <;> exact hdrifted

namespace Link
open Transitions

/-- The deltas of a shipment are for its pages, so the standby can apply them too. -/
theorem resizable_of_labels {b : Shipment} (hroom : b.Resizable) {transfers : List Transfer}
    (hlabels : transfers.map Transfer.label = b.labels) :
    (⟨b.tick, transfers.map Transfer.delta⟩ : TickBatch).Resizable := by
  intro d hd
  obtain ⟨t, ht, rfl⟩ := List.mem_map.mp hd
  have hlabel : t.label ∈ b.labels := hlabels ▸ List.mem_map_of_mem ht
  obtain ⟨x, hx, heq⟩ := List.mem_map.mp hlabel
  have hidx : x.1 = t.delta.pageIdx := congrArg Prod.fst heq
  exact hidx ▸ hroom x hx

/-- The state of the link after the shipments `past`, with the standby's gate open for every
one of `rest`. -/
structure Running (past rest : List Shipment) (l : Link) : Prop where
  drifted : Drifted l.primary l.standby.engine l.transfers
  labels : l.transfers.map Transfer.label = past.flatMap Shipment.labels
  results : l.results = (past.filter Shipment.arrives).map fun _ => .ok ()
  gate : ∀ b ∈ rest, l.standby.lastAppliedTick = 0 ∨ l.standby.lastAppliedTick < b.tick

theorem Running.step {past rest : List Shipment} {b : Shipment} {l : Link}
    (h : Running past (b :: rest) l) (hticks : ∀ b' ∈ rest, b.tick < b'.tick)
    (hroom : b.Resizable) : ∃ l', l.step b = .ok l' ∧ Running (past ++ [b]) rest l' := by
  obtain ⟨transfers, primary, htake, hlabels, hdrifted⟩ := h.drifted.takeDeltas b.arrives hroom
  have hlabels' : (l.transfers ++ transfers).map Transfer.label =
      (past ++ [b]).flatMap Shipment.labels := by
    rw [List.map_append, List.flatMap_append, h.labels, hlabels]
    simp [Shipment.labels]
  cases harrives : b.arrives with
  | false =>
    rw [harrives] at htake hdrifted
    refine ⟨⟨primary, l.standby, l.transfers ++ transfers, l.results⟩, ?_, ?_⟩
    · unfold Link.step
      rw [harrives, htake]
      rfl
    · refine ⟨hdrifted, hlabels', ?_, fun b' hb' => h.gate b' (List.mem_cons_of_mem b hb')⟩
      rw [h.results]
      simp [List.filter_append, harrives]
  | true =>
    rw [harrives] at htake hdrifted
    have hopen : ¬ (b.tick ≤ l.standby.lastAppliedTick ∧ l.standby.lastAppliedTick ≠ 0) := by
      rintro ⟨hle, hne⟩
      rcases h.gate b List.mem_cons_self with hzero | hlt
      · exact hne hzero
      · exact absurd hlt (UInt64.not_lt.mpr hle)
    refine ⟨⟨primary, ⟨(transfers.map Transfer.delta).foldl DeltaEngine.applied l.standby.engine,
      b.tick⟩, l.transfers ++ transfers, l.results ++ [.ok ()]⟩, ?_, ?_⟩
    · have happly := StandbyApplyLoop.applyBatch_open (s := l.standby) hopen
        (resizable_of_labels hroom hlabels)
      unfold Link.step
      rw [harrives, htake]
      simp only [ok_bind, if_true, happly, pure_ok]
    · refine ⟨hdrifted, hlabels', ?_, fun b' hb' => .inr (hticks b' hb')⟩
      rw [h.results]
      simp [List.filter_append, harrives]

theorem Running.run {past rest : List Shipment} {l : Link} (h : Running past rest l)
    (hticks : rest.Pairwise fun b b' => b.tick < b'.tick) (hroom : ∀ b ∈ rest, b.Resizable) :
    ∃ l', Transitions.run Link.step l rest = .ok l' ∧ Running (past ++ rest) [] l' := by
  induction rest generalizing past l with
  | nil => exact ⟨l, rfl, by simpa using h⟩
  | cons b rest ih =>
    obtain ⟨hfirst, hrest⟩ := List.pairwise_cons.mp hticks
    obtain ⟨l₁, hstep, h₁⟩ := h.step hfirst (hroom b List.mem_cons_self)
    obtain ⟨l', hrun, hend⟩ := ih h₁ hrest fun b' hb' => hroom b' (List.mem_cons_of_mem b hb')
    refine ⟨l', run_cons_eq_ok.mpr ⟨l₁, hstep, hrun⟩, ?_⟩
    rw [List.append_cons]
    exact hend

/-- Whatever batches a link loses, every batch that does arrive is accepted, and on every page
the standby is off by the exclusive or of the changes lost since the page last arrived in full.
So its copy is the primary's exactly when these cancel out. -/
theorem lossy_link_drift (primaryCapacity standbyCapacity : ℕ) (start : Link)
    (hnew : new primaryCapacity standbyCapacity = .ok start) (sent : List Shipment)
    (hticks : sent.Pairwise fun b b' => b.tick < b'.tick) (hroom : ∀ b ∈ sent, b.Resizable) :
    ∃ l, Transitions.run Link.step start sent = .ok l ∧
      l.results = (sent.filter Shipment.arrives).map (fun _ => .ok ()) ∧
      l.transfers.map Transfer.label = sent.flatMap Shipment.labels ∧
      ∀ j, l.standby.engine.pageOrZero j = xorPage (l.primary.pageOrZero j) (drift j l.transfers) ∧
        (l.standby.engine.pageOrZero j = l.primary.pageOrZero j ↔
          drift j l.transfers = zeroPage) := by
  obtain rfl := new_eq_ok hnew
  have hstart : Running [] sent ⟨.fresh primaryCapacity, .fresh standbyCapacity, [], []⟩ := by
    refine ⟨?_, rfl, rfl, fun b hb => .inl rfl⟩
    intro j
    unfold StandbyApplyLoop.fresh DeltaEngine.pageOrZero
    rw [DeltaEngine.page?_fresh, DeltaEngine.page?_fresh]
    exact xorPage_self zeroPage
  obtain ⟨l, hrun, hend⟩ := hstart.run hticks hroom
  refine ⟨l, hrun, hend.results, hend.labels, fun j => ?_⟩
  have hj := hend.drifted j
  constructor
  · rw [← hj, xorPage_xorPage]
  · rw [← hj, xorPage_eq_zeroPage]
    exact eq_comm

/-- What a shipment of one page puts on the link. -/
theorem transfers_step {l l' : Link} {tick : Tick} {i : UInt64} (hroom : DeltaEngine.Resizable i)
    {page : Page} {arrives : Bool} (h : l.step ⟨tick, [(i, page)], arrives⟩ = .ok l') :
    l'.primary.page? i.toNat = some page ∧ l'.transfers = l.transfers ++
      [⟨DeltaEngine.deltaFrom (l.primary.page? i.toNat) i page, l.primary.pageOrZero i.toNat,
        page, arrives⟩] := by
  have hpage : (l.primary.committed i page).page? i.toNat = some page := by
    rw [DeltaEngine.page?_committed, if_pos rfl]
  have htake : l.primary.takeDeltas arrives [(i, page)] =
      .ok ([⟨DeltaEngine.deltaFrom (l.primary.page? i.toNat) i page,
        l.primary.pageOrZero i.toNat, page, arrives⟩], l.primary.committed i page) := by
    unfold DeltaEngine.takeDeltas
    rw [DeltaEngine.diffAndCommit_of_hasRoom (.inr hroom)]
    rfl
  unfold step at h
  rw [htake, ok_bind] at h
  cases arrives with
  | false =>
    cases h
    exact ⟨hpage, rfl⟩
  | true =>
    obtain ⟨applied, -, h⟩ := bind_returned.mp h
    cases h
    exact ⟨hpage, rfl⟩

/-- The second content of a page is lost. Sending it once more does not help: the primary
takes the delta against its own baseline, so what arrives says that nothing changed. -/
theorem lossy_link_drift_resent :
    ∃ start l, new 1 1 = .ok start ∧
      Transitions.run Link.step start [⟨1, [(0, fun _ => 1)], true⟩,
        ⟨2, [(0, fun _ => 2)], false⟩, ⟨3, [(0, fun _ => 2)], true⟩] = .ok l ∧
      l.results = [.ok (), .ok ()] ∧
      l.standby.engine.pageOrZero 0 ≠ l.primary.pageOrZero 0 := by
  have hnew : new 1 1 = .ok ⟨.fresh 1, .fresh 1, [], []⟩ := rfl
  obtain ⟨l, hrun, hresults, -, hpages⟩ := lossy_link_drift 1 1 _ hnew
    [⟨1, [(0, fun _ => 1)], true⟩, ⟨2, [(0, fun _ => 2)], false⟩, ⟨3, [(0, fun _ => 2)], true⟩]
    (by decide) (by decide)
  refine ⟨_, l, hnew, hrun, hresults, ?_⟩
  have hzero : DeltaEngine.Resizable 0 := by decide
  rw [Ne, (hpages 0).2]
  obtain ⟨l₁, h₁, hrun⟩ := run_cons_eq_ok.mp hrun
  obtain ⟨l₂, h₂, hrun⟩ := run_cons_eq_ok.mp hrun
  obtain ⟨l₃, h₃, hrun⟩ := run_cons_eq_ok.mp hrun
  cases hrun
  obtain ⟨hpage₁, htransfers₁⟩ := transfers_step hzero h₁
  obtain ⟨hpage₂, htransfers₂⟩ := transfers_step hzero h₂
  have htransfers₃ := (transfers_step hzero h₃).2
  rw [hpage₂] at htransfers₃
  have hsize : xorSize (xorPage (fun _ => 2) fun _ => 2) < pageSize := by
    rw [xorPage_self]
    decide +kernel
  obtain ⟨runs, hxor⟩ :=
    (DeltaEngine.encodedLen_deltaFrom_some (fun _ => 2) 0 fun _ => 2).2.mpr hsize
  rw [htransfers₃, drift_concat, hxor]
  simp only [PageDelta.idx, PageDelta.pageIdx, PageDelta.isRaw, if_true, Bool.false_eq_true,
    if_false]
  have hfirst : drift 0 l₁.transfers = zeroPage := by
    rw [htransfers₁, drift_concat]
    simp only [if_true]
    split_ifs <;> rfl
  rw [htransfers₂, drift_concat, hfirst]
  simp only [DeltaEngine.idx_deltaFrom, Bool.false_eq_true, if_false,
    DeltaEngine.pageOrZero, hpage₁, Option.getD_some, Transfer.change]
  intro hzero
  exact absurd (congrFun hzero ⟨0, by decide⟩) (by decide)

end Link
end ChronosUvm
