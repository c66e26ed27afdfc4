import Mathlib.Logic.Function.Iterate
import WordRam.Proofs.Checked.Alu

/-!
# Shifts

A shift moves the bits of a word within the unbounded number that it stands for. What has left the
word to the left is in `a * 2 ^ n` above the word, and the flag is the lowest bit of that
(`Width.shiftLeft_eq`); what has left it to the right is in `a` below bit `n`, and the flag is the
highest bit of that (`Width.shiftRight_eq`). In these forms it makes no difference whether a shift
is shorter than the word, as long or longer, so a shift by one place more is a shift and then a
shift by one place (`Width.shiftLeft_succ`, `Width.shiftRight_succ`). Main statement:
`Width.shifts_by_one`.
-/

namespace WordRam
namespace Width

variable {w : Width} {a : Nat}

theorem testBit_of_le (ha : a < w.size) {i : Nat} (hi : w.bits ≤ i) : a.testBit i = false :=
  Nat.testBit_lt_two_pow (Nat.lt_of_lt_of_le ha (Nat.pow_le_pow_right (by decide) hi))

theorem shiftLeft_eq (ha : a < w.size) (n : Nat) :
    w.shiftLeft a n = ⟨w.truncate (a * 2 ^ n), (a * 2 ^ n).testBit w.bits⟩ := by
  rw [Nat.testBit_mul_two_pow]
  unfold shiftLeft
  split
  · next hzero => simp [hzero, testBit_of_le ha]
  · split
    · next hlong =>
      -- nothing of the word is left
      have hdvd : w.size ∣ a * 2 ^ n :=
        Dvd.dvd.mul_left (Nat.pow_dvd_pow 2 (Nat.le_of_lt hlong)) a
      rw [truncate, Nat.mod_eq_zero_of_dvd hdvd]
      simp [Nat.not_le.2 hlong]
    · next hshort => simp [Nat.not_lt.1 hshort]

theorem shiftLeft_zero (ha : a < w.size) : w.shiftLeft a 0 = ⟨a, false⟩ := by
  rw [shiftLeft, if_pos rfl, truncate_of_lt ha]

theorem shiftLeft_succ (ha : a < w.size) (n : Nat) :
    w.shiftLeft a (n + 1) = w.shiftLeft (w.shiftLeft a n).value 1 := by
  have hpos := w.one_le_bits
  rw [shiftLeft_eq ha n, shiftLeft_eq ha, shiftLeft_eq (truncate_lt _), Nat.pow_add,
    ← Nat.mul_assoc]
  congr 1
  · rw [truncate, truncate, truncate, Nat.mod_mul_mod]
  · -- the bit that leaves the word is its top bit, which cutting down has kept
    have htop : w.bits - 1 < w.bits := by omega
    rw [Nat.testBit_mul_two_pow (a * 2 ^ n), Nat.testBit_mul_two_pow (w.truncate (a * 2 ^ n)),
      truncate, size, Nat.testBit_mod_two_pow, decide_eq_true htop, Bool.true_and]

theorem shiftRight_eq (ha : a < w.size) {n : Nat} (hn : 1 ≤ n) :
    w.shiftRight a n = ⟨a / 2 ^ n, a.testBit (n - 1)⟩ := by
  have hne : n ≠ 0 := by omega
  rw [shiftRight, if_neg hne, truncate_of_lt ha]
  split
  · next hlong =>
    have hsize : a < 2 ^ n :=
      Nat.lt_trans ha (Nat.pow_lt_pow_right (by decide) hlong)
    have hbit : w.bits ≤ n - 1 := by omega
    rw [Nat.div_eq_of_lt hsize, testBit_of_le ha hbit]
  · rfl

theorem shiftRight_zero (ha : a < w.size) : w.shiftRight a 0 = ⟨a, false⟩ := by
  rw [shiftRight, if_pos rfl, truncate_of_lt ha]

theorem shiftRight_value (ha : a < w.size) (n : Nat) : (w.shiftRight a n).value = a / 2 ^ n := by
  cases n with
  | zero => rw [shiftRight_zero ha, Nat.pow_zero, Nat.div_one]
  | succ n => rw [shiftRight_eq ha (Nat.succ_pos n)]

theorem shiftRight_succ (ha : a < w.size) (n : Nat) :
    w.shiftRight a (n + 1) = w.shiftRight (w.shiftRight a n).value 1 := by
  have hless : a / 2 ^ n < w.size := Nat.lt_of_le_of_lt (Nat.div_le_self _ _) ha
  rw [shiftRight_value ha, shiftRight_eq hless (Nat.le_refl 1), shiftRight_eq ha (Nat.succ_pos n),
    Nat.div_div_eq_div_mul, Nat.pow_one, ← Nat.pow_succ, Nat.testBit_div_two_pow]
  simp

/-- Shifts what the last shift has left by one place. -/
def oneMore (shift : Nat → Nat → Flagged) (r : Flagged) : Flagged :=
  shift r.value 1

/-- A shift that goes on from a shift by `n` places as it goes on by one place is the shift by one
place, over and over; the flag that there was before the first does not matter. -/
theorem iterate_oneMore {shift : Nat → Nat → Flagged}
    (hsucc : ∀ n, shift a (n + 1) = shift (shift a n).value 1) (flag : Bool) {n : Nat}
    (hn : 1 ≤ n) : (oneMore shift)^[n] ⟨a, flag⟩ = shift a n := by
  induction n, hn using Nat.le_induction with
  | base => rfl
  | succ n _ ih =>
    rw [Function.iterate_succ_apply', ih, hsucc]
    rfl

/-- What shifting a word by any number of places comes to. The flag of a shift to the left is the
bit of the whole number just above the word, and the flag of a shift to the right is the last bit
below the quotient. -/
structure ShiftsStepwise (w : Width) (a : Nat) : Prop where
  zero : w.shiftLeft a 0 = ⟨a, false⟩ ∧ w.shiftRight a 0 = ⟨a, false⟩
  left : ∀ n, 1 ≤ n → ∀ flag, (oneMore w.shiftLeft)^[n] ⟨a, flag⟩ = w.shiftLeft a n
  right : ∀ n, 1 ≤ n → ∀ flag, (oneMore w.shiftRight)^[n] ⟨a, flag⟩ = w.shiftRight a n
  left_eq : ∀ n, 1 ≤ n →
    w.shiftLeft a n = ⟨a * 2 ^ n % 2 ^ w.bits, (a * 2 ^ n).testBit w.bits⟩
  right_eq : ∀ n, 1 ≤ n → w.shiftRight a n = ⟨a / 2 ^ n, a.testBit (n - 1)⟩
  /-- In 64 bits too, where no number can be shifted by 64 places or more. -/
  checked : ∀ n, w.alu.shiftLeft a n = pure (w.shiftLeft a n) ∧
    w.alu.shiftRight a n = pure (w.shiftRight a n)

theorem shifts_by_one (ha : a ≤ 2 ^ w.bits - 1) : w.ShiftsStepwise a := by
  have ha : a < w.size := Nat.lt_of_le_of_lt ha (Nat.sub_lt w.size_pos Nat.one_pos)
  refine ⟨⟨shiftLeft_zero ha, shiftRight_zero ha⟩, fun n hn flag => ?_, fun n hn flag => ?_,
    fun n _ => shiftLeft_eq ha n, fun n hn => shiftRight_eq ha hn,
    fun n => ⟨alu_shiftLeft w a n, alu_shiftRight w a n⟩⟩
  · exact iterate_oneMore (shiftLeft_succ ha) flag hn
  · exact iterate_oneMore (shiftRight_succ ha) flag hn

/-- Of the widest word, the lowest bit is the last to leave to the left, and the highest is the last
to leave to the right. One place more, and there is none left. -/
theorem shifts_by_one_widest :
    let w : Width := ⟨64, by decide, by decide⟩
    2 ^ 63 + 1 ≤ 2 ^ w.bits - 1 ∧
      (oneMore w.shiftLeft)^[64] ⟨2 ^ 63 + 1, false⟩ = ⟨0, true⟩ ∧
      (oneMore w.shiftRight)^[64] ⟨2 ^ 63 + 1, false⟩ = ⟨0, true⟩ ∧
      (oneMore w.shiftRight)^[65] ⟨2 ^ 63 + 1, true⟩ = ⟨0, false⟩ := by
  intro w
  have hword : 2 ^ 63 + 1 ≤ 2 ^ w.bits - 1 := by decide
  have hshifts := shifts_by_one hword
  refine ⟨hword, ?_, ?_, ?_⟩
  · rw [hshifts.left 64 (by decide)]
    decide
  · rw [hshifts.right 64 (by decide)]
    decide
  · rw [hshifts.right 65 (by decide)]
    decide

end Width
end WordRam
