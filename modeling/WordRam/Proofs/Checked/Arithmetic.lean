import WordRam.Power

/-!
# Checked arithmetic

Numbers of so many bits, as hardware has them. A `Checked` computation crashes where there is no
answer: on an index past the end, a zero divisor, a shift by all bits or more, and a sum, difference
or product that does not fit. Each operation comes with the condition under which it does not.
-/

namespace WordRam

/-- What a computation can crash on. -/
inductive Crash where
  | width (bits : Nat)
  | index (i size : Nat)
  | zeroDivisor
  | shift (n : Nat)
  | overflow
deriving DecidableEq, Repr

abbrev Checked := Except Crash

namespace Checked

def index {α : Type} (xs : Array α) (i : Nat) : Checked α :=
  match xs[i]? with
  | some a => pure a
  | none => throw (.index i xs.size)

def add (bits a b : Nat) : Checked Nat :=
  if a + b < 2 ^ bits then pure (a + b) else throw .overflow

def sub (a b : Nat) : Checked Nat :=
  if b ≤ a then pure (a - b) else throw .overflow

def mul (bits a b : Nat) : Checked Nat :=
  if a * b < 2 ^ bits then pure (a * b) else throw .overflow

def div (a b : Nat) : Checked Nat :=
  if b = 0 then throw .zeroDivisor else pure (a / b)

def rem (a b : Nat) : Checked Nat :=
  if b = 0 then throw .zeroDivisor else pure (a % b)

/-- A shift to the left drops the bits that leave the number. -/
def shl (bits a n : Nat) : Checked Nat :=
  if n < bits then pure (a * 2 ^ n % 2 ^ bits) else throw (.shift n)

def shr (bits a n : Nat) : Checked Nat :=
  if n < bits then pure (a / 2 ^ n) else throw (.shift n)

/-- All 64 bits of a number turned over. -/
def complement (a : Nat) : Nat :=
  2 ^ 64 - (a + 1)

/-- An integer that fits. -/
def int (bits : Nat) (i : Int) : Checked Int :=
  if -2 ^ (bits - 1) ≤ i ∧ i < 2 ^ (bits - 1) then pure i else throw .overflow

/-- A shift of an integer to the right keeps the sign. -/
def sar (bits : Nat) (i : Int) (n : Nat) : Checked Int :=
  if n < bits then pure (i / 2 ^ n) else throw (.shift n)

/-- The lowest 64 bits of an integer. -/
def low (i : Int) : Nat :=
  (i % 2 ^ 64).toNat

variable {bits a b n : Nat} {i : Int}

theorem add_eq (h : a + b < 2 ^ bits) : add bits a b = pure (a + b) := if_pos h

theorem sub_eq (h : b ≤ a) : sub a b = pure (a - b) := if_pos h

theorem mul_eq (h : a * b < 2 ^ bits) : mul bits a b = pure (a * b) := if_pos h

theorem div_eq (h : b ≠ 0) : div a b = pure (a / b) := if_neg h

theorem rem_eq (h : b ≠ 0) : rem a b = pure (a % b) := if_neg h

theorem shl_eq (h : n < bits) : shl bits a n = pure (a * 2 ^ n % 2 ^ bits) := if_pos h

theorem shr_eq (h : n < bits) : shr bits a n = pure (a / 2 ^ n) := if_pos h

theorem int_eq (hl : -2 ^ (bits - 1) ≤ i) (hu : i < 2 ^ (bits - 1)) : int bits i = pure i :=
  if_pos ⟨hl, hu⟩

theorem sar_eq (h : n < bits) : sar bits i n = pure (i / 2 ^ n) := if_pos h

theorem testBit_complement (h : a < 2 ^ 64) (j : Nat) :
    (complement a).testBit j = (decide (j < 64) && !a.testBit j) :=
  Nat.testBit_two_pow_sub_succ h j

/-- Nothing of `a` lies outside of `b` if and only if all of it lies in `b`. -/
theorem and_complement_eq_zero_iff (ha : a < 2 ^ 64) (hb : b < 2 ^ 64) :
    a &&& complement b = 0 ↔ a &&& b = a := by
  -- bit by bit, what is left of the one is what the other lacks
  have hbit (j : Nat) : (a &&& complement b).testBit j = (a.testBit j && !b.testBit j) := by
    rw [Nat.testBit_and, testBit_complement hb]
    by_cases hj : j < 64
    · simp [hj]
    · have hhigh : a < 2 ^ j :=
        Nat.lt_of_lt_of_le ha (Nat.pow_le_pow_right (by decide) (Nat.not_lt.1 hj))
      simp [Nat.testBit_lt_two_pow hhigh]
  constructor
  · intro h
    refine Nat.eq_of_testBit_eq fun j => ?_
    have hj := hbit j
    rw [h, Nat.zero_testBit] at hj
    rw [Nat.testBit_and]
    revert hj
    cases a.testBit j <;> cases b.testBit j <;> simp
  · intro h
    refine Nat.eq_of_testBit_eq fun j => ?_
    rw [hbit, Nat.zero_testBit]
    have hj := congrArg (Nat.testBit · j) h
    simp only [Nat.testBit_and] at hj
    revert hj
    cases a.testBit j <;> cases b.testBit j <;> simp

end Checked

end WordRam
