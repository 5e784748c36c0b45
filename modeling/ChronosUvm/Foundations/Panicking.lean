import Mathlib.Tactic

/-!
Computations that may panic. A panic ends the run, so a result about every run
is a result about every run that returned. Counters use the checked addition
below, as in a build with overflow checks.
-/
namespace Panicking

inductive Panic where
  | overflow
  | indexOutOfRange
  | assertion
  | expect
  | zeroCapacity
  | capacityOverflow
  deriving DecidableEq, Repr

abbrev Checked := Except Panic

variable {ε α β : Type}

/-- A sequence returned exactly when its first part did and the rest did on its value. -/
theorem bind_returned {x : Except ε α} {f : α → Except ε β} {b : β} :
    x >>= f = .ok b ↔ ∃ a, x = .ok a ∧ f a = .ok b := by
  cases x <;> simp [bind, Except.bind]

@[simp] theorem ok_bind (a : α) (f : α → Except ε β) :
    (Except.ok a : Except ε α) >>= f = f a := rfl

@[simp] theorem pure_ok (a : α) : (pure a : Except ε α) = .ok a := rfl

/-- Only what the first part returned matters for the rest. -/
theorem bind_congr_ok {x : Except ε α} {f g : α → Except ε β}
    (h : ∀ a, x = .ok a → f a = g a) : x >>= f = x >>= g := by
  cases x with
  | error e => rfl
  | ok a => exact h a rfl

/-- The computation returned a value that passes the test. -/
def returnsWith (x : Except ε α) (test : α → Bool) : Bool :=
  match x with
  | .ok a => test a
  | .error _ => false

theorem returnsWith_eq_true {x : Except ε α} {test : α → Bool} :
    returnsWith x test = true ↔ ∃ a, x = .ok a ∧ test a = true := by
  cases x <;> simp [returnsWith]

def addU64 (a b : UInt64) : Checked UInt64 :=
  if a.toNat + b.toNat < 2 ^ 64 then .ok (a + b) else .error .overflow

def addU32 (a b : UInt32) : Checked UInt32 :=
  if a.toNat + b.toNat < 2 ^ 32 then .ok (a + b) else .error .overflow

theorem addU64_eq_ok {a b c : UInt64} :
    addU64 a b = .ok c ↔ c.toNat = a.toNat + b.toNat := by
  have hc := c.toNat_lt
  unfold addU64
  split_ifs with h
  · rw [Except.ok.injEq, ← UInt64.toNat_inj, UInt64.toNat_add, Nat.mod_eq_of_lt h]
    exact eq_comm
  · simp only [false_iff]
    omega

theorem addU64_of_lt {a b : UInt64} (h : a.toNat + b.toNat < 2 ^ 64) :
    addU64 a b = .ok (a + b) := by
  unfold addU64
  rw [if_pos h]

theorem addU32_eq_ok {a b c : UInt32} :
    addU32 a b = .ok c ↔ c.toNat = a.toNat + b.toNat := by
  have hc := c.toNat_lt
  unfold addU32
  split_ifs with h
  · rw [Except.ok.injEq, ← UInt32.toNat_inj, UInt32.toNat_add, Nat.mod_eq_of_lt h]
    exact eq_comm
  · simp only [false_iff]
    omega

end Panicking
