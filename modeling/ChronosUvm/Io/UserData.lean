import Mathlib.Tactic
import ChronosUvm.Io.FdTable

/-!
The request identity packed into the 64 bits of user data that the kernel hands
back with a completion. The range assertions are debug assertions and absent here.
-/
namespace ChronosUvm

def packUserData (cell : CellId) (guestFd : GuestFd) (requestId : UInt64) : UInt64 :=
  (cell <<< 40) ||| (guestFd.toUInt64 <<< 20) ||| (requestId &&& 0xFFFFF)

def unpackUserData (bits : UInt64) : CellId × GuestFd × UInt64 :=
  let cell := bits >>> 40
  let guestFd := ((bits >>> 20) &&& 0xFFFFF).toUInt32
  let requestId := bits &&& 0xFFFFF
  (cell, guestFd, requestId)

/-- A completion queue entry: the submitted user data and the operation's result. -/
structure CompletionEntry where
  userData : UInt64
  result : Int32

def pollCompletions (cq : List CompletionEntry) : List IoCompletion :=
  cq.map fun cqe =>
    let (cell, guestFd, requestId) := unpackUserData cqe.userData
    ⟨cell, guestFd, requestId, cqe.result⟩

private theorem and_mask (n : ℕ) : n &&& 1048575 = n % 2 ^ 20 :=
  Nat.and_two_pow_sub_one_eq_mod n 20

theorem toNat_unpackUserData (bits : UInt64) :
    (unpackUserData bits).1.toNat = bits.toNat / 2 ^ 40 ∧
    (unpackUserData bits).2.1.toNat = bits.toNat / 2 ^ 20 % 2 ^ 20 ∧
    (unpackUserData bits).2.2.toNat = bits.toNat % 2 ^ 20 := by
  refine ⟨?_, ?_, ?_⟩
  · simp [unpackUserData, Nat.shiftRight_eq_div_pow]
  · simp [unpackUserData, Nat.shiftRight_eq_div_pow, and_mask]
  · simp [unpackUserData, and_mask]

theorem toNat_packUserData {cell : CellId} {guestFd : GuestFd} {requestId : UInt64}
    (hc : cell.toNat < 2 ^ 24) (hg : guestFd.toNat < 2 ^ 20) (hr : requestId.toNat < 2 ^ 20) :
    (packUserData cell guestFd requestId).toNat =
      cell.toNat * 2 ^ 40 + (guestFd.toNat * 2 ^ 20 + requestId.toNat) := by
  have hc' : (cell.toNat <<< 40) % 2 ^ 64 = cell.toNat <<< 40 := by
    apply Nat.mod_eq_of_lt
    rw [Nat.shiftLeft_eq]
    omega
  have hg' : (guestFd.toNat <<< 20) % 2 ^ 64 = guestFd.toNat <<< 20 := by
    apply Nat.mod_eq_of_lt
    rw [Nat.shiftLeft_eq]
    omega
  have hlow : guestFd.toNat <<< 20 ||| requestId.toNat =
      guestFd.toNat * 2 ^ 20 + requestId.toNat := by
    rw [← Nat.shiftLeft_add_eq_or_of_lt hr, Nat.shiftLeft_eq]
  have hlow_lt : guestFd.toNat * 2 ^ 20 + requestId.toNat < 2 ^ 40 := by omega
  have hhigh := Nat.shiftLeft_add_eq_or_of_lt hlow_lt cell.toNat
  have hpack : (packUserData cell guestFd requestId).toNat =
      (cell.toNat <<< 40) % 2 ^ 64 ||| (guestFd.toNat <<< 20) % 2 ^ 64 |||
        (requestId.toNat &&& 1048575) := by
    unfold packUserData
    simp only [UInt64.toNat_or, UInt64.toNat_shiftLeft, UInt64.toNat_and,
      UInt32.toNat_toUInt64]
    rfl
  rw [hpack, hc', hg', and_mask, Nat.mod_eq_of_lt hr, Nat.or_assoc, hlow, ← hhigh,
    Nat.shiftLeft_eq]

/-- What is unpacked fits the fields it was unpacked from. -/
theorem unpackUserData_lt (bits : UInt64) :
    (unpackUserData bits).1.toNat < 2 ^ 24 ∧ (unpackUserData bits).2.1.toNat < 2 ^ 20 ∧
      (unpackUserData bits).2.2.toNat < 2 ^ 20 := by
  obtain ⟨h1, h2, h3⟩ := toNat_unpackUserData bits
  have hbits := bits.toNat_lt
  omega

/-- Every word of user data is the packing of its parts. -/
theorem pack_unpack (bits : UInt64) :
    packUserData (unpackUserData bits).1 (unpackUserData bits).2.1 (unpackUserData bits).2.2 =
      bits := by
  obtain ⟨hc, hg, hr⟩ := unpackUserData_lt bits
  obtain ⟨h1, h2, h3⟩ := toNat_unpackUserData bits
  rw [← UInt64.toNat_inj, toNat_packUserData hc hg hr, h1, h2, h3]
  omega

/-- The identity survives the round trip exactly when all three parts fit their fields. -/
theorem unpack_pack_iff (cell : CellId) (guestFd : GuestFd) (requestId : UInt64) :
    unpackUserData (packUserData cell guestFd requestId) = (cell, guestFd, requestId) ↔
      cell.toNat < 2 ^ 24 ∧ guestFd.toNat < 2 ^ 20 ∧ requestId.toNat < 2 ^ 20 := by
  obtain ⟨h1, h2, h3⟩ := toNat_unpackUserData (packUserData cell guestFd requestId)
  have hbits := (packUserData cell guestFd requestId).toNat_lt
  constructor
  · intro h
    rw [h] at h1 h2 h3
    simp only at h1 h2 h3
    omega
  · intro ⟨hc, hg, hr⟩
    rw [toNat_packUserData hc hg hr] at h1 h2 h3
    refine Prod.ext ?_ (Prod.ext ?_ ?_)
    · rw [← UInt64.toNat_inj, h1]
      show _ = cell.toNat
      omega
    · rw [← UInt32.toNat_inj, h2]
      show _ = guestFd.toNat
      omega
    · rw [← UInt64.toNat_inj, h3]
      show _ = requestId.toNat
      omega

/-- Packing is a bijection between the identities that fit their fields and the words. -/
theorem userData_bijection :
    (∀ (cell : CellId) (guestFd : GuestFd) (requestId : UInt64), cell.toNat < 2 ^ 24 →
      guestFd.toNat < 2 ^ 20 → requestId.toNat < 2 ^ 20 →
      unpackUserData (packUserData cell guestFd requestId) = (cell, guestFd, requestId)) ∧
    ∀ bits : UInt64,
      ((unpackUserData bits).1.toNat < 2 ^ 24 ∧ (unpackUserData bits).2.1.toNat < 2 ^ 20 ∧
        (unpackUserData bits).2.2.toNat < 2 ^ 20) ∧
      packUserData (unpackUserData bits).1 (unpackUserData bits).2.1 (unpackUserData bits).2.2 =
        bits := by
  constructor
  · intro cell guestFd requestId hc hg hr
    exact (unpack_pack_iff cell guestFd requestId).mpr ⟨hc, hg, hr⟩
  · intro bits
    exact ⟨unpackUserData_lt bits, pack_unpack bits⟩

end ChronosUvm
