import Mathlib.Tactic
import ChronosUvm.Foundations.HashChain
import ChronosUvm.Mem.CheckpointChain

/-!
The auditor's side of the checkpoint chain. `verify_chain` folds claimed checkpoints
in one pass, `checkpoint` folds them one by one with the state kept in the entries;
both are the same hash chain, over the same encoding of a link.
-/
namespace ChronosUvm

/-- What an auditor is told about a checkpoint: tick, root and register digest. -/
abbrev ChainClaim := Tick × Hash × Hash

inductive ChainVerifyError where
  | empty
  deriving DecidableEq, Repr

def genesisBytes : List UInt8 := "chronos-uvm-genesis".toUTF8.toList

/-- The bytes fed to the hasher for one link. -/
def linkBytes (prevChainHash : Hash) (claim : ChainClaim) : List UInt8 :=
  prevChainHash.toList ++ claim.2.1.toList ++ claim.2.2.toList ++ toLeBytes claim.1

private theorem toNat_byte (n : UInt64) (i : Fin 8) :
    ((n >>> UInt64.ofNat (8 * i)).toUInt8).toNat = n.toNat / 2 ^ (8 * (i : ℕ)) % 2 ^ 8 := by
  have hi : 8 * (i : ℕ) % 2 ^ 64 % 64 = 8 * i := by omega
  rw [UInt64.toNat_toUInt8, UInt64.toNat_shiftRight, UInt64.toNat_ofNat', hi,
    Nat.shiftRight_eq_div_pow]

/-- Bit `j` of a number is a bit of its byte `j / 8`. -/
private theorem testBit_byte (n j : ℕ) :
    n.testBit j = (n / 2 ^ (8 * (j / 8)) % 2 ^ 8).testBit (j % 8) := by
  have hj : j % 8 < 8 := Nat.mod_lt _ (by decide)
  rw [Nat.testBit_mod_two_pow, Nat.testBit_div_two_pow, Nat.mod_add_div]
  simp [hj]

theorem toLeBytes_injective : Function.Injective toLeBytes := by
  intro a b h
  apply UInt64.toNat_inj.mp
  apply Nat.eq_of_testBit_eq
  intro j
  by_cases hj : j < 64
  · have hbyte := congrArg UInt8.toNat (congrFun (List.ofFn_injective h) ⟨j / 8, by omega⟩)
    rw [toNat_byte, toNat_byte] at hbyte
    rw [testBit_byte, hbyte, ← testBit_byte]
  · have hpow : 2 ^ 64 ≤ 2 ^ j := Nat.pow_le_pow_right (by decide) (by omega)
    rw [Nat.testBit_lt_two_pow (a.toNat_lt.trans_le hpow),
      Nat.testBit_lt_two_pow (b.toNat_lt.trans_le hpow)]

theorem length_linkBytes (prev : Hash) (claim : ChainClaim) :
    (linkBytes prev claim).length = 104 := by
  simp [linkBytes, toLeBytes]

theorem linkBytes_ne_genesis (prev : Hash) (claim : ChainClaim) :
    linkBytes prev claim ≠ genesisBytes := by
  intro h
  have hlength := congrArg List.length h
  have hgenesis : genesisBytes.length = 19 := by decide +kernel
  rw [length_linkBytes, hgenesis] at hlength
  omega

/-- The fields of a link have fixed widths, so its bytes determine them. -/
theorem linkBytes_inj (prev : Hash) (claim : ChainClaim) (prev' : Hash) (claim' : ChainClaim)
    (h : linkBytes prev claim = linkBytes prev' claim') : prev = prev' ∧ claim = claim' := by
  unfold linkBytes at h
  obtain ⟨h, htick⟩ := List.append_inj h (by simp)
  obtain ⟨h, hdigest⟩ := List.append_inj h (by simp)
  obtain ⟨hprev, hroot⟩ := List.append_inj h (by simp)
  refine ⟨List.ofFn_injective hprev, ?_⟩
  exact Prod.ext (toLeBytes_injective htick)
    (Prod.ext (List.ofFn_injective hroot) (List.ofFn_injective hdigest))

namespace CheckpointChain

/-- The loop over the claims; `ChainVerifyError::Empty` is never returned. -/
def verifyChain (blake3 : Blake3) (claims : List ChainClaim) : Except ChainVerifyError Hash :=
  .ok (claims.foldl
    (fun chainHash claim => chainLink blake3 chainHash claim.2.1 claim.2.2 claim.1)
    (genesisHash blake3))

def latest (c : CheckpointChain) : Option CheckpointEntry := c.entries.getLast?

/-- The links hashed by `verify_chain`. -/
def linkInputs (blake3 : Blake3) (claims : List ChainClaim) : List (List UInt8) :=
  HashChain.inputs blake3 linkBytes (genesisHash blake3) claims

theorem verifyChain_eq_fold (blake3 : Blake3) (claims : List ChainClaim) :
    verifyChain blake3 claims = .ok (HashChain.fold blake3 linkBytes genesisBytes claims) := rfl

theorem length_of_mem_inputs {blake3 : Blake3} {h : Hash} {claims : List ChainClaim}
    {x : List UInt8} (hx : x ∈ HashChain.inputs blake3 linkBytes h claims) :
    x.length = 104 ∧ x ≠ genesisBytes := by
  induction claims generalizing h with
  | nil => cases hx
  | cons claim claims ih =>
    rcases List.mem_cons.mp hx with rfl | hx
    · exact ⟨length_linkBytes h claim, linkBytes_ne_genesis h claim⟩
    · exact ih hx

/-- The chain is binding. Two claim sequences of any lengths with the same verified hash
are equal, or a collision can be read off the two computations: two different links, or a
link and the genesis string. -/
theorem verifyChain_binding (blake3 : Blake3) (claims claims' : List ChainClaim)
    (h : verifyChain blake3 claims = verifyChain blake3 claims') :
    claims = claims' ∨
    (∃ x ∈ linkInputs blake3 claims, ∃ y ∈ linkInputs blake3 claims',
      x.length = 104 ∧ y.length = 104 ∧ x ≠ y ∧ blake3 x = blake3 y) ∨
    ∃ x, (x ∈ linkInputs blake3 claims ∨ x ∈ linkInputs blake3 claims') ∧
      x.length = 104 ∧ x ≠ genesisBytes ∧ blake3 x = blake3 genesisBytes := by
  rw [verifyChain_eq_fold, verifyChain_eq_fold, Except.ok.injEq] at h
  rcases HashChain.eq_or_collision blake3 linkBytes genesisBytes linkBytes_inj h with
    heq | ⟨x, hx, y, hy, hne, hhash⟩ | ⟨x, hx, hhash⟩
  · exact .inl heq
  · have hlength := (length_of_mem_inputs hx).1
    have hlength' := (length_of_mem_inputs hy).1
    exact .inr (.inl ⟨x, hx, y, hy, hlength, hlength', hne, hhash⟩)
  · have hlink : x.length = 104 ∧ x ≠ genesisBytes := by
      rcases hx with hx | hx
      · exact length_of_mem_inputs hx
      · exact length_of_mem_inputs hx
    exact .inr (.inr ⟨x, hx, hlink.1, hlink.2, hhash⟩)

/-- A hash that reads the last byte of its input only. -/
def lastByteHash : Blake3 := fun bytes _ => bytes.getLastD 0

/-- Under a hash that reads only the last byte of a tick, a chain of three links and one of two
verify to one hash, and two colliding strings are read off. -/
theorem verifyChain_binding_lengths :
    verifyChain lastByteHash [(1, fun _ => 4, fun _ => 0), (2, fun _ => 5, fun _ => 1),
        (7, fun _ => 6, fun _ => 2)] =
      verifyChain lastByteHash [(1, fun _ => 4, fun _ => 0), (7, fun _ => 9, fun _ => 2)] ∧
    ∃ x y, x ∈ linkInputs lastByteHash [(1, fun _ => 4, fun _ => 0),
        (2, fun _ => 5, fun _ => 1), (7, fun _ => 6, fun _ => 2)] ++
      linkInputs lastByteHash [(1, fun _ => 4, fun _ => 0), (7, fun _ => 9, fun _ => 2)] ∧
      x.length = 104 ∧ x ≠ y ∧ lastByteHash x = lastByteHash y := by
  have hsame : verifyChain lastByteHash [(1, fun _ => 4, fun _ => 0),
        (2, fun _ => 5, fun _ => 1), (7, fun _ => 6, fun _ => 2)] =
      verifyChain lastByteHash [(1, fun _ => 4, fun _ => 0), (7, fun _ => 9, fun _ => 2)] := rfl
  refine ⟨hsame, ?_⟩
  rcases verifyChain_binding lastByteHash _ _ hsame with
    h | ⟨x, hx, y, -, hlength, -, hne, hhash⟩ | ⟨x, hx, hlength, hne, hhash⟩
  · exact absurd (congrArg List.length h) (by decide)
  · exact ⟨x, y, List.mem_append_left _ hx, hlength, hne, hhash⟩
  · exact ⟨x, genesisBytes, List.mem_append.mpr hx, hlength, hne, hhash⟩

/-- One call of `checkpoint`: its arguments and the table orders inside it. -/
structure Call where
  visit : VisitOrder
  tick : Tick
  mem : MmapGuardedMemory
  dirty : DirtyPageSet
  registerDigest : Hash

/-- A sequence of calls, with the entries they return. -/
def checkpointAll (blake3 : Blake3) (c : CheckpointChain) :
    List Call → List CheckpointEntry × CheckpointChain
  | [] => ([], c)
  | call :: rest =>
    let (entry, c) := c.checkpoint blake3 call.visit call.tick call.mem call.dirty
      call.registerDigest
    let (entries, c) := checkpointAll blake3 c rest
    (entry :: entries, c)

end CheckpointChain

def CheckpointEntry.claim (e : CheckpointEntry) : ChainClaim :=
  (e.tick, e.smtRoot, e.registerDigest)

namespace CheckpointChain
variable {blake3 : Blake3} {c : CheckpointChain}

/-- Every entry carries the hash of the claims up to it. -/
def Audited (blake3 : Blake3) (c : CheckpointChain) : Prop :=
  ∀ pre e post, c.entries = pre ++ e :: post →
    verifyChain blake3 ((pre ++ [e]).map CheckpointEntry.claim) = .ok e.chainHash

/-- The hash that the next entry is linked to is the verified hash of the whole chain. -/
theorem Audited.verifyChain_entries (h : Audited blake3 c) :
    verifyChain blake3 (c.entries.map CheckpointEntry.claim) =
      .ok (match c.entries.getLast? with
        | some e => e.chainHash
        | none => genesisHash blake3) := by
  rcases List.eq_nil_or_concat c.entries with hnil | ⟨init, e, hconcat⟩
  · rw [hnil]
    rfl
  · rw [List.concat_eq_append] at hconcat
    have hlast := h init e [] hconcat
    rw [hconcat, List.getLast?_concat]
    exact hlast

theorem Audited.checkpoint (h : Audited blake3 c) (call : Call) :
    Audited blake3 (c.checkpoint blake3 call.visit call.tick call.mem call.dirty
      call.registerDigest).2 := by
  intro pre e post hsplit
  rw [checkpoint_eq] at hsplit
  rcases List.eq_nil_or_concat post with rfl | ⟨post, last, rfl⟩
  · obtain ⟨rfl, hnew⟩ := List.append_inj' hsplit rfl
    obtain rfl := List.singleton_inj.mp hnew
    have hprev := h.verifyChain_entries
    rw [verifyChain_eq_fold, Except.ok.injEq] at hprev
    rw [List.map_append, List.map_singleton, verifyChain_eq_fold,
      HashChain.fold_append_singleton, hprev]
    rfl
  · rw [List.concat_eq_append, ← List.cons_append, ← List.append_assoc] at hsplit
    obtain ⟨hold, -⟩ := List.append_inj' hsplit rfl
    exact h pre e post hold

/-- The calls return exactly the entries they append. -/
theorem entries_checkpointAll (blake3 : Blake3) (c : CheckpointChain) (calls : List Call) :
    (checkpointAll blake3 c calls).2.entries =
        c.entries ++ (checkpointAll blake3 c calls).1 ∧
      (checkpointAll blake3 c calls).1.length = calls.length := by
  induction calls generalizing c with
  | nil => exact ⟨(List.append_nil _).symm, rfl⟩
  | cons call calls ih =>
    obtain ⟨hentries, hlength⟩ := ih (c.checkpoint blake3 call.visit call.tick call.mem call.dirty
      call.registerDigest).2
    constructor
    · exact hentries.trans (List.append_assoc c.entries [_] _)
    · exact congrArg Nat.succ hlength

theorem Audited.checkpointAll (h : Audited blake3 c) (calls : List Call) :
    Audited blake3 (checkpointAll blake3 c calls).2 := by
  induction calls generalizing c with
  | nil => exact h
  | cons call calls ih => exact ih (h.checkpoint call)

theorem checkpointAll_take (blake3 : Blake3) (c : CheckpointChain) (calls : List Call) (k : ℕ) :
    (checkpointAll blake3 c (calls.take k)).1 = (checkpointAll blake3 c calls).1.take k := by
  induction calls generalizing c k with
  | nil => simp [CheckpointChain.checkpointAll]
  | cons call calls ih =>
    cases k with
    | zero => rfl
    | succ k =>
      exact congrArg (List.cons _) (ih _ k)

/-- Auditor and primary fold the same chain. The entries returned by any calls on a fresh
chain are the chain's entries, a later call alters none of them, every prefix of them
verifies to the hash of its last entry, and all of them to that of `latest`. -/
theorem verifyChain_checkpointAll (blake3 : Blake3) (calls : List Call) :
    (checkpointAll blake3 new calls).2.entries = (checkpointAll blake3 new calls).1 ∧
    (checkpointAll blake3 new calls).1.length = calls.length ∧
    (∀ k, (checkpointAll blake3 new (calls.take k)).2.entries =
      (checkpointAll blake3 new calls).1.take k) ∧
    (∀ pre e post, (checkpointAll blake3 new calls).1 = pre ++ e :: post →
      verifyChain blake3 ((pre ++ [e]).map CheckpointEntry.claim) = .ok e.chainHash) ∧
    ∀ e, (checkpointAll blake3 new calls).2.latest = some e →
      verifyChain blake3 ((checkpointAll blake3 new calls).1.map CheckpointEntry.claim) =
        .ok e.chainHash := by
  have hnew : Audited blake3 new := by
    intro pre e post hsplit
    simp [new] at hsplit
  have hentries (calls : List Call) :
      (checkpointAll blake3 new calls).2.entries = (checkpointAll blake3 new calls).1 :=
    (entries_checkpointAll blake3 new calls).1
  have haudited := hnew.checkpointAll calls
  refine ⟨hentries calls, (entries_checkpointAll blake3 new calls).2, ?_, ?_, ?_⟩
  · intro k
    rw [hentries, checkpointAll_take]
  · intro pre e post hsplit
    exact haudited pre e post ((hentries calls).trans hsplit)
  · intro e he
    have hall := haudited.verifyChain_entries
    unfold latest at he
    rw [he, hentries] at hall
    exact hall

end CheckpointChain
end ChronosUvm
