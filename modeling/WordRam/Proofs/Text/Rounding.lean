import WordRam.Power
import Mathlib.Algebra.Order.Field.Power
import Mathlib.Algebra.Order.Field.Rat
import Mathlib.Tactic.Linarith
import Mathlib.Tactic.NormNum
import Mathlib.Tactic.Ring

/-!
# Rounding to binary numbers

A binary number has a significand of 53 bits at most. `RoundsTo q x` says that `x` is the binary
number nearest to `q`, and the one with an even significand if there are two. From a power of two
the next binary number above is twice as far away as the next one below, and there is none between
(`BinaryForm.apart`). So what rounds to a power of two lies between the two midpoints, ends included
since the significand is even (`roundsTo_two_pow_iff`).
-/

namespace WordRam.Text

/-- The number `x` is `m * 2 ^ e`, with all 53 bits of `m` in use unless `e` is the least exponent
that there is. No largest exponent is set: what is past it counts as infinite. -/
structure BinaryForm (x : ℚ) (m e : ℤ) : Prop where
  value : x = m * 2 ^ e
  bits : m.natAbs < 2 ^ 53
  least : -1074 ≤ e
  full : 2 ^ 52 ≤ m.natAbs ∨ e = -1074

/-- The binary number nearest to `q` is `x`; of two that are equally near, it is the even one. -/
def RoundsTo (q x : ℚ) : Prop :=
  ∃ m e, BinaryForm x m e ∧ ∀ y m' e', BinaryForm y m' e' →
    |q - x| ≤ |q - y| ∧ (|q - x| = |q - y| → y = x ∨ Even m)

variable {q x y g : ℚ} {m e : ℤ} {k : ℕ}

theorem nearer_than_below (h : y < x) : |q - x| ≤ |q - y| ↔ y + x ≤ 2 * q := by
  rcases abs_cases (q - x) with ⟨hx, hx'⟩ | ⟨hx, hx'⟩ <;>
    rcases abs_cases (q - y) with ⟨hy, hy'⟩ | ⟨hy, hy'⟩ <;> rw [hx, hy] <;> constructor <;>
    intro hle <;> linarith

theorem nearer_than_above (h : x < y) : |q - x| ≤ |q - y| ↔ 2 * q ≤ x + y := by
  rcases abs_cases (q - x) with ⟨hx, hx'⟩ | ⟨hx, hx'⟩ <;>
    rcases abs_cases (q - y) with ⟨hy, hy'⟩ | ⟨hy, hy'⟩ <;> rw [hx, hy] <;> constructor <;>
    intro hle <;> linarith

/-- The distance to the next binary number below the power is `2 ^ (k - 53)`, and above it is twice
that. -/
theorem two_pow_eq_gap (k : ℕ) : (2 : ℚ) ^ k = 2 ^ 53 * 2 ^ ((k : ℤ) - 53) := by
  rw [zpow_sub₀ two_ne_zero, zpow_natCast]
  norm_num
  ring

theorem two_zpow_eq_gap (k : ℕ) : (2 : ℚ) ^ ((k : ℤ) - 52) = 2 * 2 ^ ((k : ℤ) - 53) := by
  rw [← zpow_one_add₀ two_ne_zero]
  congr 1
  ring

theorem binaryForm_two_pow (k : ℕ) : BinaryForm (2 ^ k) (2 ^ 52) (k - 52) where
  value := by
    rw [two_zpow_eq_gap, two_pow_eq_gap]
    push_cast
    ring
  bits := by decide
  least := by omega
  full := .inl (by decide)

theorem binaryForm_below (k : ℕ) :
    BinaryForm ((2 ^ 53 - 1) * 2 ^ ((k : ℤ) - 53)) (2 ^ 53 - 1) (k - 53) where
  value := by norm_num
  bits := by decide
  least := by omega
  full := .inl (by decide)

theorem binaryForm_above (k : ℕ) :
    BinaryForm ((2 ^ 53 + 2) * 2 ^ ((k : ℤ) - 53)) (2 ^ 52 + 1) (k - 52) where
  value := by
    rw [two_zpow_eq_gap]
    push_cast
    ring
  bits := by decide
  least := by omega
  full := .inl (by decide)

/-- There is no binary number between a power of two and its neighbours. -/
theorem BinaryForm.apart (h : BinaryForm y m e) (k : ℕ) :
    y ≤ (2 ^ 53 - 1) * 2 ^ ((k : ℤ) - 53) ∨ y = 2 ^ k ∨
      (2 ^ 53 + 2) * 2 ^ ((k : ℤ) - 53) ≤ y := by
  have hgap : (0 : ℚ) < 2 ^ ((k : ℤ) - 53) := zpow_pos two_pos _
  rw [h.value]
  obtain hsmall | hlarge : e ≤ k - 53 ∨ (k : ℤ) - 52 ≤ e := by omega
  · -- the exponent is too small to reach the power
    have hm : (m : ℚ) ≤ 2 ^ 53 - 1 := by
      have hle : m ≤ 2 ^ 53 - 1 := by
        have := h.bits
        omega
      exact_mod_cast hle
    have he : (2 : ℚ) ^ e ≤ 2 ^ ((k : ℤ) - 53) := zpow_le_zpow_right₀ one_le_two hsmall
    left
    calc (m : ℚ) * 2 ^ e ≤ (2 ^ 53 - 1) * 2 ^ e :=
          mul_le_mul_of_nonneg_right hm (zpow_pos two_pos e).le
      _ ≤ (2 ^ 53 - 1) * 2 ^ ((k : ℤ) - 53) := mul_le_mul_of_nonneg_left he (by norm_num)
  · -- the number is a multiple of the distance to the next one above
    obtain ⟨n, hn⟩ : ∃ n : ℕ, e = n + ((k : ℤ) - 52) := ⟨(e - (k - 52)).toNat, by omega⟩
    obtain ⟨j, hj⟩ : ∃ j : ℤ, (m : ℚ) * 2 ^ e = j * (2 * 2 ^ ((k : ℤ) - 53)) := by
      refine ⟨m * 2 ^ n, ?_⟩
      rw [hn, zpow_add₀ two_ne_zero, zpow_natCast, two_zpow_eq_gap]
      push_cast
      ring
    rw [hj, two_pow_eq_gap k]
    -- which is below, at, or above the power
    obtain hless | heq | hmore : j ≤ 2 ^ 52 - 1 ∨ j = 2 ^ 52 ∨ 2 ^ 52 + 1 ≤ j := by omega
    · have hless : (j : ℚ) ≤ 2 ^ 52 - 1 := by exact_mod_cast hless
      have hscaled := mul_le_mul_of_nonneg_right hless hgap.le
      left
      linarith
    · right; left
      rw [heq]
      push_cast
      ring
    · have hmore : (2 : ℚ) ^ 52 + 1 ≤ j := by exact_mod_cast hmore
      have hscaled := mul_le_mul_of_nonneg_right hmore hgap.le
      right; right
      linarith

theorem roundsTo_two_pow_iff : RoundsTo q (2 ^ k) ↔
    2 ^ k * (2 ^ 54 - 1) ≤ q * 2 ^ 54 ∧ q * 2 ^ 54 ≤ 2 ^ k * (2 ^ 54 + 2) := by
  have hgap : (0 : ℚ) < 2 ^ ((k : ℤ) - 53) := zpow_pos two_pos _
  have hpow := two_pow_eq_gap k
  have hbelow : (2 ^ 53 - 1) * (2 : ℚ) ^ ((k : ℤ) - 53) < 2 ^ k := by rw [hpow]; linarith
  have habove : (2 : ℚ) ^ k < (2 ^ 53 + 2) * 2 ^ ((k : ℤ) - 53) := by rw [hpow]; linarith
  constructor
  · rintro ⟨m, e, -, hnearest⟩
    have hl := (nearer_than_below hbelow).1 (hnearest _ _ _ (binaryForm_below k)).1
    have hu := (nearer_than_above habove).1 (hnearest _ _ _ (binaryForm_above k)).1
    rw [hpow] at hl hu ⊢
    constructor <;> linarith
  · rintro ⟨hl, hu⟩
    refine ⟨_, _, binaryForm_two_pow k, fun y m' e' hy => ⟨?_, fun _ => .inr ?_⟩⟩
    · obtain hy | hy | hy := hy.apart k
      · rw [nearer_than_below (hy.trans_lt hbelow)]
        linarith
      · rw [hy]
      · rw [nearer_than_above (habove.trans_le hy)]
        linarith
    · exact Int.even_pow.2 ⟨even_two, by norm_num⟩

end WordRam.Text
