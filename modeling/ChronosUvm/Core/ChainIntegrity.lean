import Mathlib.Tactic
import ChronosUvm.Core.IncrementalCheckpoint
import ChronosUvm.Mem.ChainAudit
import ChronosUvm.Mem.RootBinding

/-!
One hash for a tenant's whole history. The hash of a chain's last entry binds the
claims of all entries, and the root of each entry binds every page of the memory that
the quantum of its tick left; so two tenants with one hash have lived the same history,
on whatever supervisors, unless two strings hashed for them collide.
-/
namespace ChronosUvm
open Panicking Tables Transitions MmapGuardedMemory

namespace CheckpointChain
variable {blake3 : Blake3} {c c' : CheckpointChain}

theorem audited_new (blake3 : Blake3) : Audited blake3 new := by
  intro pre e post hsplit
  simp [new] at hsplit

/-- The hash of the last entry is the verified hash of all claims. -/
theorem Audited.verifyChain_latest (h : Audited blake3 c) {e : CheckpointEntry}
    (hlast : c.latest = some e) :
    verifyChain blake3 (c.entries.map CheckpointEntry.claim) = .ok e.chainHash := by
  obtain ⟨init, hinit⟩ := List.getLast?_eq_some_iff.mp hlast
  have := h init e [] hinit
  rwa [← hinit] at this

/-- The claims of a chain determine its entries. -/
theorem Audited.entries_eq (h : Audited blake3 c) (h' : Audited blake3 c')
    (hclaims : c.entries.map CheckpointEntry.claim = c'.entries.map CheckpointEntry.claim) :
    c.entries = c'.entries := by
  have hlength : c.entries.length = c'.entries.length := by
    simpa using congrArg List.length hclaims
  have hhash {c : CheckpointChain} (h : Audited blake3 c) (i : ℕ) (hi : i < c.entries.length) :
      verifyChain blake3 ((c.entries.map CheckpointEntry.claim).take (i + 1)) =
        .ok c.entries[i].chainHash := by
    rw [← List.map_take, List.take_add_one, List.getElem?_eq_getElem hi]
    exact h (c.entries.take i) c.entries[i] (c.entries.drop (i + 1)) (by simp)
  apply List.ext_getElem hlength
  intro i hi hi'
  have hchain := hhash h i hi
  rw [hclaims, hhash h' i hi', Except.ok.injEq] at hchain
  have hclaim : c.entries[i].claim = c'.entries[i].claim := by
    have := congrArg (fun l => l[i]?) hclaims
    simpa [hi, hi'] using this
  obtain ⟨htick, hrest⟩ := Prod.mk.inj hclaim
  obtain ⟨hroot, hdigest⟩ := Prod.mk.inj hrest
  calc c.entries[i] = ⟨c.entries[i].tick, c.entries[i].smtRoot, c.entries[i].registerDigest,
        c.entries[i].chainHash⟩ := rfl
    _ = ⟨c'.entries[i].tick, c'.entries[i].smtRoot, c'.entries[i].registerDigest,
        c'.entries[i].chainHash⟩ := by rw [htick, hroot, hdigest, hchain]
    _ = c'.entries[i] := rfl

end CheckpointChain

/-- The pages that the tree has no leaf for are beyond every committed size. -/
theorem MmapGuardedMemory.committedPage_of_le {m : MmapGuardedMemory} {i : ℕ}
    (hi : 2 ^ treeDepth ≤ i) : m.committedPage i = zeroPage := by
  have hsize := m.sizeBytes.toNat_lt
  have hdepth : 2 ^ treeDepth = 4294967296 := by decide
  unfold MmapGuardedMemory.committedPage pageSize
  rw [if_neg (by omega)]

namespace World
variable {E : Type} {blake3 : Blake3} {executor : QuantumExecutor E} {w w' : World E}
  {a : Action}

/-- Every cell's chain verifies, entry by entry. -/
def ChainsAudited (blake3 : Blake3) (w : World E) : Prop :=
  ∀ id c, w.supervisor.cells.get? id = some c → c.checkpoints.Audited blake3

theorem ChainsAudited.cycled (hchain : executor.KeepsChain) (h : ChainsAudited blake3 w)
    {visit : VisitOrder} {reported : Except SupervisorError (Option (CellId × Tick))}
    {s' : Supervisor} {e' : E}
    (d : Supervisor.Dispatch blake3 executor visit w.supervisor s' w.executor e' reported)
    {id : CellId} {c : Cell} (hget : s'.cells.get? id = some c) :
    c.checkpoints.Audited blake3 := by
  rw [d.cells_eq, HashMap.get?_insert] at hget
  split_ifs at hget with hid
  · cases hget
    have hran : d.ran.checkpoints.Audited blake3 := by
      rw [hchain _ _ _ _ _ _ d.ran_eq]
      exact h d.id d.before d.before_eq
    have hnext := hran.checkpoint ⟨visit, d.tick, d.ran.memory, d.ran.memory.dirty,
      executor.registerDigest e' d.ran⟩
    rcases d.ended.stored_cases with ⟨-, hstored⟩ | ⟨-, -, hstored | hstored⟩
    · rwa [hstored]
    · rw [hstored]
      exact hnext
    · rw [hstored]
      exact hnext
  · exact h id c hget

theorem ChainsAudited.step (hchain : executor.KeepsChain) (h : ChainsAudited blake3 w)
    (hstep : World.step blake3 executor w a = .ok w') : ChainsAudited blake3 w' := by
  cases step_cases hstep with
  | idle => exact h
  | spawned =>
    intro id c hget
    rw [HashMap.get?_insert] at hget
    split_ifs at hget with hid
    · cases hget
      exact CheckpointChain.audited_new blake3
    · exact h id c hget
  | enabled => exact h
  | cycled d => exact fun id c hget => h.cycled hchain d hget
  | popped => exact h
  | accepted => exact h
  | refused => exact h

/-- The strings hashed for a cell's chain and for the trees of its checkpoints. -/
inductive HashedFor (blake3 : Blake3) (quanta : List Quantum) (id : CellId)
    (entries : List CheckpointEntry) : List UInt8 → Prop where
  | genesis : HashedFor blake3 quanta id entries genesisBytes
  | link {x : List UInt8}
      (hx : x ∈ CheckpointChain.linkInputs blake3 (entries.map CheckpointEntry.claim)) :
      HashedFor blake3 quanta id entries x
  | tree {entry : CheckpointEntry} {q : Quantum} {x : List UInt8} (hentry : entry ∈ entries)
      (hq : q ∈ quanta) (hcell : q.cell = id) (htick : q.tick = entry.tick)
      (hx : SparseMerkleTree.HashedFor blake3 (fun i => (q.memory.committedPage i).toList) x) :
      HashedFor blake3 quanta id entries x

/-- Two strings with one hash, the first hashed for the one cell and the second for the other. -/
def Collides (blake3 : Blake3) (hashed hashed' : List UInt8 → Prop) : Prop :=
  ∃ x y, hashed x ∧ hashed' y ∧ x ≠ y ∧ blake3 x = blake3 y

/-- The entry belongs to a quantum of each of the two cells, and these left the same pages. -/
def SamePages (quanta quanta' : List Quantum) (id id' : CellId) (entry : CheckpointEntry) : Prop :=
  ∃ q ∈ quanta, ∃ q' ∈ quanta', q.cell = id ∧ q'.cell = id' ∧ q.tick = entry.tick ∧
    q'.tick = entry.tick ∧ ∀ i, q'.memory.committedPage i = q.memory.committedPage i

/-- Chains with one last hash have the same entries. -/
theorem entries_eq_or_collides (quanta quanta' : List Quantum) (id id' : CellId)
    {c c' : CheckpointChain} {e e' : CheckpointEntry} (h : c.Audited blake3)
    (h' : c'.Audited blake3) (hlast : c.latest = some e) (hlast' : c'.latest = some e')
    (hhash : e.chainHash = e'.chainHash) :
    c.entries = c'.entries ∨
      Collides blake3 (HashedFor blake3 quanta id c.entries)
        (HashedFor blake3 quanta' id' c'.entries) := by
  have hverify := h.verifyChain_latest hlast
  rw [hhash, ← h'.verifyChain_latest hlast', CheckpointChain.verifyChain_eq_fold,
    CheckpointChain.verifyChain_eq_fold, Except.ok.injEq] at hverify
  rcases HashChain.eq_or_collision blake3 linkBytes genesisBytes linkBytes_inj hverify with
    heq | ⟨x, hx, y, hy, hne, hxy⟩ | ⟨x, hx | hx, hgenesis⟩
  · exact .inl (h.entries_eq h' heq)
  · exact .inr ⟨x, y, .link hx, .link hy, hne, hxy⟩
  · exact .inr ⟨x, genesisBytes, .link hx, .genesis,
      (CheckpointChain.length_of_mem_inputs hx).2, hgenesis⟩
  · exact .inr ⟨genesisBytes, x, .genesis, .link hx,
      (CheckpointChain.length_of_mem_inputs hx).2.symm, hgenesis.symm⟩

/-- An entry with one root for two memories. -/
theorem samePages_or_collides {quanta quanta' : List Quantum} {id id' : CellId}
    {entries : List CheckpointEntry} {entry : CheckpointEntry} (hentry : entry ∈ entries)
    (h : FullyRehashed blake3 quanta id entry) (h' : FullyRehashed blake3 quanta' id' entry) :
    SamePages quanta quanta' id id' entry ∨
      Collides blake3 (HashedFor blake3 quanta id entries)
        (HashedFor blake3 quanta' id' entries) := by
  obtain ⟨q, hq, hcell, htick, hroot⟩ := h
  obtain ⟨q', hq', hcell', htick', hroot'⟩ := h'
  by_cases hsame : ∀ i, q'.memory.committedPage i = q.memory.committedPage i
  · exact .inl ⟨q, hq, q', hq', hcell, hcell', htick, htick', hsame⟩
  · right
    obtain ⟨i, hi⟩ := not_forall.mp hsame
    have hlt : i < 2 ^ treeDepth := by
      by_contra hge
      exact hi (by rw [committedPage_of_le (by omega), committedPage_of_le (by omega)])
    obtain ⟨x, y, hx, hy, hne, hxy, -⟩ := SparseMerkleTree.collision_of_fullRoot_eq
      (hroot.symm.trans hroot') hlt fun heq => hi (List.ofFn_injective heq).symm
    exact ⟨x, y, .tree hentry hq hcell htick hx, .tree hentry hq' hcell' htick' hy, hne, hxy⟩

/-- The last hash binds the history. Two cells of any two runs, with the same hash in the last
entries of their chains: the chains are equal entry by entry, and at every checkpoint the two
memories had the same pages, or two strings hashed for the two cells collide. -/
theorem history_bound_by_chainHash {E' : Type} (blake3 : Blake3) (executor : QuantumExecutor E)
    (executor' : QuantumExecutor E') (hwrites : executor.MarksWrites)
    (hchain : executor.KeepsChain) (hwrites' : executor'.MarksWrites)
    (hchain' : executor'.KeepsChain) (max max' : UInt64) (e : E) (e' : E')
    (standbyPages standbyPages' : ℕ) (actions actions' : List Action) (w : World E)
    (w' : World E')
    (hrun : run (World.step blake3 executor) (new max e standbyPages) actions = .ok w)
    (hrun' : run (World.step blake3 executor') (new max' e' standbyPages') actions' = .ok w')
    (id id' : CellId) (c c' : Cell) (hcell : w.supervisor.cell id = some c)
    (hcell' : w'.supervisor.cell id' = some c') (last last' : CheckpointEntry)
    (hlast : c.checkpoints.latest = some last) (hlast' : c'.checkpoints.latest = some last')
    (hhash : last.chainHash = last'.chainHash) :
    (c'.checkpoints.entries = c.checkpoints.entries ∧
      ∀ entry ∈ c.checkpoints.entries, SamePages w.quanta w'.quanta id id' entry) ∨
    Collides blake3 (HashedFor blake3 w.quanta id c.checkpoints.entries)
      (HashedFor blake3 w'.quanta id' c'.checkpoints.entries) := by
  obtain ⟨haudited, hrehashed⟩ := run_invariant
    (P := fun w : World E => ChainsAudited blake3 w ∧ Rehashed blake3 w)
    (fun _ _ _ _ hw hs => ⟨hw.1.step hchain hs, hw.2.step hwrites hchain hs⟩)
    ⟨fun _ _ h => (by cases h), fun _ _ h => (by cases h)⟩ hrun
  obtain ⟨haudited', hrehashed'⟩ := run_invariant
    (P := fun w : World E' => ChainsAudited blake3 w ∧ Rehashed blake3 w)
    (fun _ _ _ _ hw hs => ⟨hw.1.step hchain' hs, hw.2.step hwrites' hchain' hs⟩)
    ⟨fun _ _ h => (by cases h), fun _ _ h => (by cases h)⟩ hrun'
  rcases entries_eq_or_collides w.quanta w'.quanta id id' (haudited id c hcell)
    (haudited' id' c' hcell') hlast hlast' hhash with hentries | hcollides
  · by_cases hpages : ∀ entry ∈ c.checkpoints.entries, SamePages w.quanta w'.quanta id id' entry
    · exact .inl ⟨hentries.symm, hpages⟩
    · push Not at hpages
      obtain ⟨entry, hentry, hne⟩ := hpages
      have hfull := (hrehashed id c hcell).2 entry hentry
      have hfull' := (hrehashed' id' c' hcell').2 entry (by rwa [← hentries])
      rw [← hentries]
      exact .inr ((samePages_or_collides hentry hfull hfull').resolve_left hne)
  · exact .inr hcollides

/-- Three checkpoints over two pages against two over one page. Under a hash that ignores its
input the two chains end in one hash. -/
theorem history_bound_by_chainHash_lengths :
    ∃ w w' c c' last last',
      run Guest.scriptedStep (Guest.scriptedWorld [.poke 5 7, .poke 4097 8, .poke 5 9])
        [.spawn ⟨1, 8192, 8192, 1⟩ .record, .ascendingCycle, .ascendingCycle, .ascendingCycle] =
          .ok w ∧
      run Guest.scriptedStep (Guest.scriptedWorld [.poke 4097 8, .rest])
        [.spawn ⟨2, 8192, 8192, 1⟩ .record, .ascendingCycle, .ascendingCycle] = .ok w' ∧
      w.supervisor.cell 1 = some c ∧ w'.supervisor.cell 2 = some c' ∧
      c.checkpoints.entries.length = 3 ∧ c'.checkpoints.entries.length = 2 ∧
      c.checkpoints.latest = some last ∧ c'.checkpoints.latest = some last' ∧
      last.chainHash = last'.chainHash ∧
      Collides (fun _ _ => 0) (HashedFor (fun _ _ => 0) w.quanta 1 c.checkpoints.entries)
        (HashedFor (fun _ _ => 0) w'.quanta 2 c'.checkpoints.entries) := by
  have hreturns : returnsWith
      (run Guest.scriptedStep (Guest.scriptedWorld [.poke 5 7, .poke 4097 8, .poke 5 9])
        [.spawn ⟨1, 8192, 8192, 1⟩ .record, .ascendingCycle, .ascendingCycle, .ascendingCycle])
      (fun w => (w.supervisor.cell 1).any fun c => c.checkpoints.entries.length == 3 &&
        c.checkpoints.latest.any fun e => decide (e.chainHash = fun _ => 0)) = true := by
    decide +kernel
  have hreturns' : returnsWith
      (run Guest.scriptedStep (Guest.scriptedWorld [.poke 4097 8, .rest])
        [.spawn ⟨2, 8192, 8192, 1⟩ .record, .ascendingCycle, .ascendingCycle])
      (fun w => (w.supervisor.cell 2).any fun c => c.checkpoints.entries.length == 2 &&
        c.checkpoints.latest.any fun e => decide (e.chainHash = fun _ => 0)) = true := by
    decide +kernel
  obtain ⟨w, hrun, htest⟩ := returnsWith_eq_true.mp hreturns
  obtain ⟨w', hrun', htest'⟩ := returnsWith_eq_true.mp hreturns'
  obtain ⟨c, hcell, htest⟩ := (Option.any_eq_true _ _).mp htest
  obtain ⟨c', hcell', htest'⟩ := (Option.any_eq_true _ _).mp htest'
  rw [Bool.and_eq_true, beq_iff_eq] at htest htest'
  obtain ⟨last, hlast, hhash⟩ := (Option.any_eq_true _ _).mp htest.2
  obtain ⟨last', hlast', hhash'⟩ := (Option.any_eq_true _ _).mp htest'.2
  have hsame := (of_decide_eq_true hhash).trans (of_decide_eq_true hhash').symm
  have hbound := history_bound_by_chainHash _ _ _ (Guest.executor_marksWrites _ _)
    (Guest.executor_keepsChain _ _) (Guest.executor_marksWrites _ _)
    (Guest.executor_keepsChain _ _) _ _ _ _ _ _ _ _ w w' hrun hrun' 1 2 c c' hcell hcell'
    last last' hlast hlast' hsame
  refine ⟨w, w', c, c', last, last', hrun, hrun', hcell, hcell', htest.1, htest'.1, hlast, hlast',
    hsame, hbound.resolve_left ?_⟩
  rintro ⟨hentries, -⟩
  have hlength := congrArg List.length hentries
  omega

end World
end ChronosUvm
