import WordRam.Machine.Execute
import WordRam.Proofs.Checked.Arithmetic
import Mathlib.Algebra.Order.Ring.Abs
import Mathlib.Algebra.Order.Ring.Int

/-!
# Words in 64 bits

`Alu` has the operations of a word width made of checked operations on 64 and 128 bits. On numbers
of 64 bits none of them crashes, whatever the width, and each gives what the operation of `Width`
gives (`Width.alu_eval`, `Width.alu_divide`, `Width.alu_compare`).
-/

namespace WordRam

/-- The arithmetic of a word width. -/
structure Alu where
  bits : Nat
  mask : Nat

namespace Alu
open Checked

/-- The arithmetic of words of so many bits, if there are any. -/
def new (bits : Nat) : Checked Alu := do
  if 1 ≤ bits ∧ bits ≤ 64 then
    let mask ← if bits = 64 then pure (2 ^ 64 - 1) else do sub (← shl 64 1 bits) 1
    return ⟨bits, mask⟩
  else throw (.width bits)

variable (alu : Alu)

def truncate (v : Nat) : Nat :=
  v &&& alu.mask

def signed (v : Nat) : Checked Int := do
  let shift ← sub 64 alu.bits
  let raised ← shl 64 v shift
  sar 64 (Int.bmod raised (2 ^ 64)) shift

def bit (v i : Nat) : Checked Bool := do
  return (← shr 64 v i) &&& 1 ≠ 0

def add (a b : Nat) : Checked Flagged := do
  let sum ← Checked.add 128 a b
  return ⟨alu.truncate (sum % 2 ^ 64), alu.mask < sum⟩

def sub (a b : Nat) : Checked Flagged :=
  return ⟨alu.truncate (low (a - b)), a < b⟩

def mulLow (a b : Nat) : Checked Flagged := do
  let p ← mul 128 a b
  return ⟨alu.truncate (p % 2 ^ 64), alu.mask < p⟩

def mulHigh (a b : Nat) : Checked Flagged := do
  let p ← mul 128 a b
  let high := alu.truncate ((← shr 128 p alu.bits) % 2 ^ 64)
  return ⟨high, high ≠ 0⟩

/-- The number of words that are not negative in two's complement. -/
def half : Checked Nat := do
  shl 128 1 (← Checked.sub alu.bits 1)

/-- The least integer in two's complement. -/
def least : Checked Int := do
  int 128 (-(← alu.half))

def mulHighSigned (a b : Nat) : Checked Flagged := do
  let p ← int 128 ((← alu.signed a) * (← alu.signed b))
  let high := alu.truncate (low (← sar 128 p alu.bits))
  return ⟨high, p < (← alu.least) || (← alu.half) ≤ p⟩

def shiftLeft (a n : Nat) : Checked Flagged :=
  if n = 0 then return ⟨alu.truncate a, false⟩
  else if alu.bits < n then return ⟨0, false⟩
  else if n = alu.bits then return ⟨0, a &&& 1 ≠ 0⟩
  else do return ⟨alu.truncate (← shl 64 a n), ← bit a (← Checked.sub alu.bits n)⟩

def shiftRight (a n : Nat) : Checked Flagged :=
  if n = 0 then return ⟨alu.truncate a, false⟩
  else if alu.bits < n then return ⟨0, false⟩
  else if n = alu.bits then do return ⟨0, ← bit a (← Checked.sub alu.bits 1)⟩
  else do return ⟨← shr 64 (alu.truncate a) n, ← bit a (← Checked.sub n 1)⟩

def eval : Operation → Nat → Nat → Checked Flagged
  | .and, a, b => return ⟨a &&& b, false⟩
  | .or, a, b => return ⟨alu.truncate (a ||| b), false⟩
  | .xor, a, b => return ⟨alu.truncate (a ^^^ b), false⟩
  | .add, a, b => alu.add a b
  | .sub, a, b => alu.sub a b
  | .mull, a, b => alu.mulLow a b
  | .umulh, a, b => alu.mulHigh a b
  | .smulh, a, b => alu.mulHighSigned a b
  | .shl, a, b => alu.shiftLeft a b
  | .shr, a, b => alu.shiftRight a b

def not (a : Nat) : Flagged :=
  ⟨alu.truncate (complement a), false⟩

def divide : Division → Nat → Nat → Checked (Option Nat)
  | .udiv, a, b => if b = 0 then return none else do return some (alu.truncate (← div a b))
  | .umod, a, b => if b = 0 then return none else do return some (alu.truncate (← rem a b))

def compare : Comparison → Nat → Nat → Checked Bool
  | .cmpe, a, b => return alu.truncate a = alu.truncate b
  | .cmpa, a, b => return alu.truncate b < alu.truncate a
  | .cmpae, a, b => return alu.truncate b ≤ alu.truncate a
  | .cmpg, a, b => do
    let x ← alu.signed a
    let y ← alu.signed b
    return y < x
  | .cmpge, a, b => do
    let x ← alu.signed a
    let y ← alu.signed b
    return y ≤ x

end Alu

/-! ### No crash -/

namespace Width
open Checked (shl_eq sar_eq shr_eq low)

def alu (w : Width) : Alu :=
  ⟨w.bits, w.mask⟩

variable (w : Width)

theorem new_alu (bits : Nat) : Alu.new bits = match Width.ofNat? bits with
    | some w => pure w.alu
    | none => throw (.width bits) := by
  unfold Alu.new Width.ofNat?
  by_cases h : 1 ≤ bits ∧ bits ≤ 64
  · by_cases h64 : bits = 64
    · subst h64; rfl
    · have hlt : bits < 64 := by omega
      have hpow : 1 * 2 ^ bits < 2 ^ 64 := by
        rw [Nat.one_mul]; exact Nat.pow_lt_pow_right (by decide) hlt
      have hpos : 1 ≤ 1 * 2 ^ bits := by rw [Nat.one_mul]; exact Nat.one_le_two_pow
      rw [if_pos h, if_neg h64, shl_eq hlt, Nat.mod_eq_of_lt hpow, pure_bind, Checked.sub_eq hpos,
        Nat.one_mul, dif_pos h]
      rfl
  · rw [if_neg h, dif_neg h]

theorem new_alu_bits : Alu.new w.bits = pure w.alu := by
  rw [new_alu, ofNat?, dif_pos ⟨w.one_le_bits, w.bits_le⟩]

theorem alu_truncate (v : Nat) : w.alu.truncate v = w.truncate v :=
  Nat.and_two_pow_sub_one_eq_mod v w.bits

theorem size_dvd : w.size ∣ 2 ^ 64 :=
  Nat.pow_dvd_pow 2 w.bits_le

theorem two_pow_eq : 2 ^ 64 = w.size * 2 ^ (64 - w.bits) := by
  rw [size, ← Nat.pow_add, Nat.add_sub_cancel' w.bits_le]

theorem truncate_mod (v : Nat) : w.truncate (v % 2 ^ 64) = w.truncate v :=
  Nat.mod_mod_of_dvd v w.size_dvd

theorem natCast_ofInt (i : Int) : (w.ofInt i : Int) = i % w.size := by
  have hne : (w.size : Int) ≠ 0 := by exact_mod_cast w.size_pos.ne'
  rw [ofInt, Int.toNat_of_nonneg (Int.emod_nonneg i hne)]

theorem truncate_low (i : Int) : w.truncate (low i) = w.ofInt i := by
  have hdvd : (w.size : Int) ∣ 2 ^ 64 := by exact_mod_cast w.size_dvd
  have hnonneg : 0 ≤ i % 2 ^ 64 := Int.emod_nonneg i (by decide)
  apply Int.ofNat.inj
  show ((low i % w.size : Nat) : Int) = (w.ofInt i : Int)
  rw [natCast_ofInt, low, Int.natCast_mod, Int.toNat_of_nonneg hnonneg,
    Int.emod_emod_of_dvd i hdvd]

theorem bmod_mul (v : Int) (h : Nat) {c : Nat} (hc : 0 < c) :
    (v * c).bmod (2 * h * c) = v.bmod (2 * h) * c := by
  have hc' : (0 : Int) < c := by exact_mod_cast hc
  have hhalf : (((2 * h : Nat) : Int) + 1) / 2 = h := by omega
  have hhalf' : (((2 * h * c : Nat) : Int) + 1) / 2 = h * c := by
    rw [Nat.mul_assoc]; push_cast; omega
  have hmod : v * c % ((2 * h * c : Nat) : Int) = v % ((2 * h : Nat) : Int) * c := by
    rw [Nat.cast_mul (2 * h), Int.mul_comm v, Int.mul_comm _ (c : Int),
      Int.mul_emod_mul_of_pos _ _ hc', Int.mul_comm]
  rw [Int.bmod_eq_emod, Int.bmod_eq_emod, hhalf, hhalf', hmod]
  by_cases hle : (h : Int) ≤ v % ((2 * h : Nat) : Int)
  · rw [if_pos hle, if_pos (Int.mul_le_mul_of_nonneg_right hle hc'.le), Nat.cast_mul (2 * h),
      Int.sub_mul]
  · have hlt := Int.mul_lt_mul_of_pos_right (Int.not_le.1 hle) hc'
    rw [if_neg hle, if_neg (Int.not_le.2 hlt)]
    simp

theorem size_eq_two_mul_half : w.size = 2 * w.half := by
  rw [size, half, Nat.mul_comm, ← Nat.pow_succ, Nat.succ_eq_add_one,
    Nat.sub_add_cancel w.one_le_bits]

theorem natCast_size (w : Width) : (w.size : Int) = 2 ^ w.bits :=
  Int.natCast_pow 2 w.bits

theorem natCast_half (w : Width) : (w.half : Int) = 2 ^ (w.bits - 1) :=
  Int.natCast_pow 2 (w.bits - 1)

theorem half_le : w.half ≤ 2 ^ 63 :=
  Nat.pow_le_pow_right (by decide) (by have := w.bits_le; omega)

theorem signed_bounds (v : Nat) : -(w.half : Int) ≤ w.signed v ∧ w.signed v < w.half := by
  have hpos := w.size_pos
  have hl := Int.le_bmod (x := v) hpos
  have hu := Int.bmod_lt (x := v) hpos
  have hsize := w.size_eq_two_mul_half
  unfold signed
  omega

/-- Raised to the top of 64 bits and lowered again, a word comes with its sign. -/
theorem alu_signed (v : Nat) : w.alu.signed v = pure (w.signed v) := by
  have hle := w.bits_le
  have hshift : 64 - w.bits < 64 := by have := w.one_le_bits; omega
  unfold Alu.signed
  rw [show w.alu.bits = w.bits from rfl, Checked.sub_eq hle, pure_bind, shl_eq hshift, pure_bind,
    sar_eq hshift]
  refine congrArg pure ?_
  have hpos : (0 : Int) < 2 ^ (64 - w.bits) := Int.pow_pos (by decide)
  rw [Int.natCast_mod, Int.emod_bmod, w.two_pow_eq, size_eq_two_mul_half, Nat.cast_mul,
    bmod_mul _ _ (Nat.two_pow_pos _), signed, size_eq_two_mul_half]
  push_cast
  exact Int.mul_ediv_cancel _ hpos.ne'

theorem alu_bit {v i : Nat} (h : i < 64) : Alu.bit v i = pure (v.testBit i) := by
  rw [Alu.bit, shr_eq h, pure_bind, Nat.and_one_is_mod, Nat.testBit_eq_decide_div_mod_eq]
  congr 2
  simp

variable {a b : Nat}

theorem alu_add (ha : a < 2 ^ 64) (hb : b < 2 ^ 64) : w.alu.add a b = pure (w.add a b) := by
  have hsum : a + b < 2 ^ 128 := by omega
  rw [Alu.add, Checked.add_eq hsum, pure_bind, alu_truncate, truncate_mod]
  rfl

theorem alu_sub (a b : Nat) : w.alu.sub a b = pure (w.sub a b) := by
  rw [Alu.sub, alu_truncate, truncate_low]
  rfl

theorem mul_lt (ha : a < 2 ^ 64) (hb : b < 2 ^ 64) : a * b < 2 ^ 128 := by
  have h := Nat.mul_lt_mul'' ha hb
  rwa [← Nat.pow_add] at h

theorem alu_mulLow (ha : a < 2 ^ 64) (hb : b < 2 ^ 64) :
    w.alu.mulLow a b = pure (w.mulLow a b) := by
  rw [Alu.mulLow, Checked.mul_eq (mul_lt ha hb), pure_bind, alu_truncate, truncate_mod]
  rfl

theorem alu_mulHigh (ha : a < 2 ^ 64) (hb : b < 2 ^ 64) :
    w.alu.mulHigh a b = pure (w.mulHigh a b) := by
  have hbits : w.bits < 128 := Nat.lt_of_le_of_lt w.bits_le (by decide)
  rw [Alu.mulHigh, Checked.mul_eq (mul_lt ha hb), pure_bind, show w.alu.bits = w.bits from rfl,
    shr_eq hbits, pure_bind, alu_truncate, truncate_mod]
  rfl

theorem abs_mul_signed_le (a b : Nat) : |w.signed a * w.signed b| ≤ w.half * w.half := by
  have hbound (v : Nat) : |w.signed v| ≤ w.half := by
    obtain ⟨hl, hu⟩ := w.signed_bounds v
    exact abs_le.2 ⟨hl, hu.le⟩
  rw [abs_mul]
  exact mul_le_mul (hbound a) (hbound b) (abs_nonneg _) (by omega)

theorem mul_signed_bounds (a b : Nat) :
    -2 ^ 126 ≤ w.signed a * w.signed b ∧ w.signed a * w.signed b ≤ 2 ^ 126 := by
  have hhalf : (w.half : Int) ≤ 2 ^ 63 := by exact_mod_cast w.half_le
  have hsquare := mul_le_mul hhalf hhalf (by omega) (by decide)
  rw [← pow_add] at hsquare
  exact abs_le.1 ((w.abs_mul_signed_le a b).trans hsquare)

theorem alu_half : w.alu.half = pure w.half := by
  have hshift : w.bits - 1 < 128 := by have := w.bits_le; omega
  have hhalf := w.half_le
  rw [Alu.half, show w.alu.bits = w.bits from rfl, Checked.sub_eq w.one_le_bits, pure_bind,
    shl_eq hshift, Nat.one_mul, ← half, Nat.mod_eq_of_lt (by omega)]

theorem alu_least : w.alu.least = pure (-w.half : Int) := by
  have hhalf := w.half_le
  rw [Alu.least, alu_half, pure_bind, Checked.int_eq (by omega) (by omega)]

theorem alu_mulHighSigned (a b : Nat) : w.alu.mulHighSigned a b = pure (w.mulHighSigned a b) := by
  have hbits : w.bits < 128 := Nat.lt_of_le_of_lt w.bits_le (by decide)
  obtain ⟨hl, hu⟩ := w.mul_signed_bounds a b
  have hprod : Checked.int 128 (w.signed a * w.signed b) = pure (w.signed a * w.signed b) :=
    Checked.int_eq (by omega) (by omega)
  simp only [Alu.mulHighSigned, alu_signed, pure_bind, hprod, show w.alu.bits = w.bits from rfl,
    sar_eq hbits, alu_least, alu_half, alu_truncate, truncate_low, mulHighSigned, size,
    Nat.cast_pow, Nat.cast_ofNat]

theorem alu_shiftLeft (a n : Nat) : w.alu.shiftLeft a n = pure (w.shiftLeft a n) := by
  have hle := w.bits_le
  unfold Alu.shiftLeft shiftLeft
  rw [show w.alu.bits = w.bits from rfl]
  by_cases h0 : n = 0
  · rw [if_pos h0, if_pos h0, alu_truncate]
  by_cases hlt : w.bits < n
  · rw [if_neg h0, if_pos hlt, if_neg h0, if_pos hlt]
  rw [if_neg h0, if_neg hlt, if_neg h0, if_neg hlt]
  by_cases heq : n = w.bits
  · have hall : w.truncate (a * 2 ^ n) = 0 := by
      rw [heq]; exact Nat.mul_mod_left _ _
    have hlow : a.testBit (w.bits - n) = decide (a &&& 1 ≠ 0) := by
      rw [heq, Nat.sub_self, Nat.testBit_zero, Nat.and_one_is_mod]
      congr 1
      simp
    rw [if_pos heq, hall, hlow]
  · have hn : n < 64 := by omega
    have hsub : n ≤ w.bits := Nat.not_lt.1 hlt
    rw [if_neg heq, shl_eq hn, pure_bind, Checked.sub_eq hsub, pure_bind, alu_bit (by omega),
      pure_bind, alu_truncate, truncate_mod]

theorem alu_shiftRight (a n : Nat) : w.alu.shiftRight a n = pure (w.shiftRight a n) := by
  have hle := w.bits_le
  unfold Alu.shiftRight shiftRight
  rw [show w.alu.bits = w.bits from rfl]
  by_cases h0 : n = 0
  · rw [if_pos h0, if_pos h0, alu_truncate]
  by_cases hlt : w.bits < n
  · rw [if_neg h0, if_pos hlt, if_neg h0, if_pos hlt]
  rw [if_neg h0, if_neg hlt, if_neg h0, if_neg hlt]
  have hone : 1 ≤ n := Nat.one_le_iff_ne_zero.2 h0
  by_cases heq : n = w.bits
  · have hall : w.truncate a / 2 ^ n = 0 := by
      rw [heq]; exact Nat.div_eq_of_lt (truncate_lt a)
    rw [if_pos heq, Checked.sub_eq w.one_le_bits, pure_bind, alu_bit (by omega), pure_bind, hall,
      ← heq]
  · rw [if_neg heq, shr_eq (by omega), pure_bind, Checked.sub_eq hone, pure_bind,
      alu_bit (by omega), pure_bind, alu_truncate]

theorem alu_not (ha : a < 2 ^ 64) : w.alu.not a = w.not a := by
  have hmod : a % 2 ^ w.bits < 2 ^ w.bits := truncate_lt a
  have hmask : w.mask - w.truncate a = 2 ^ w.bits - (a % 2 ^ w.bits + 1) := by
    unfold mask truncate size; omega
  have heq : w.truncate (Checked.complement a) = w.mask - w.truncate a := by
    refine Nat.eq_of_testBit_eq fun i => ?_
    rw [hmask, Nat.testBit_two_pow_sub_succ hmod, Nat.testBit_mod_two_pow, truncate, size,
      Nat.testBit_mod_two_pow, Checked.testBit_complement ha]
    by_cases hi : i < w.bits
    · simp [hi, Nat.lt_of_lt_of_le hi w.bits_le]
    · simp [hi]
  rw [Alu.not, alu_truncate, heq, not]

theorem alu_eval (op : Operation) (ha : a < 2 ^ 64) (hb : b < 2 ^ 64) :
    w.alu.eval op a b = pure (op.eval w a b) := by
  cases op with
  | and => rfl
  | or => rw [Alu.eval, alu_truncate]; rfl
  | xor => rw [Alu.eval, alu_truncate]; rfl
  | add => exact w.alu_add ha hb
  | sub => exact w.alu_sub a b
  | mull => exact w.alu_mulLow ha hb
  | umulh => exact w.alu_mulHigh ha hb
  | smulh => exact w.alu_mulHighSigned a b
  | shl => exact w.alu_shiftLeft a b
  | shr => exact w.alu_shiftRight a b

theorem alu_divide (op : Division) (a b : Nat) : w.alu.divide op a b = pure (op.eval? w a b) := by
  by_cases hb : b = 0
  · cases op <;> simp [Alu.divide, Division.eval?, div?, mod?, hb]
  · cases op <;>
      simp [Alu.divide, Division.eval?, div?, mod?, hb, Checked.div_eq, Checked.rem_eq,
        alu_truncate]

theorem alu_compare (op : Comparison) (a b : Nat) :
    w.alu.compare op a b = pure (op.eval w a b) := by
  cases op <;>
    simp [Alu.compare, Comparison.eval, equal, above, aboveOrEqual, greater, greaterOrEqual,
      alu_truncate, alu_signed]

end Width

end WordRam
