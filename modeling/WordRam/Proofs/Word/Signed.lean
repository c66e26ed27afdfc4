import WordRam.Proofs.Word.Arithmetic

/-!
# Words with a sign

The integer that a word stands for in two's complement is the only one of its residue between the
halves (`Width.signed_eq_iff`). It is also the word with its top bit turned over, less half the
words (`Width.signed_eq_flip`). So an order by that integer is the order of words with their top
bits turned over, and numbers that stand for one integer leave one word (`Width.signed_inj`). Main
statement: `Width.twos_complement`.
-/

namespace WordRam
namespace Width

variable {w : Width} {a b v : Nat}

theorem signed_eq_iff {i : Int} : w.signed v = i ↔
    -(w.half : Int) ≤ i ∧ i < w.half ∧ i % w.size = v % w.size := by
  have hsize := w.size_eq_two_mul_half
  have hlow : -((w.size : Int) / 2) = -w.half := by omega
  have hhigh : ((w.size : Int) + 1) / 2 = w.half := by omega
  rw [signed, Int.bmod_eq_iff w.size_pos, hlow, hhigh, Int.dvd_iff_emod_eq_zero,
    Int.emod_eq_emod_iff_emod_sub_eq_zero]

/-- Turning over the top bit of a word adds half the words, and a carry leaves the word. -/
theorem truncate_flip (w : Width) (v : Nat) :
    w.truncate (v ^^^ w.half) = w.truncate (w.half + v) := by
  have hbits := w.one_le_bits
  refine Nat.eq_of_testBit_eq fun i => ?_
  rw [truncate, truncate, size, half, Nat.testBit_mod_two_pow, Nat.testBit_mod_two_pow,
    Nat.testBit_xor, Nat.testBit_two_pow]
  obtain hlow | htop | hhigh : i < w.bits - 1 ∨ i = w.bits - 1 ∨ w.bits ≤ i := by omega
  · simp [Nat.testBit_two_pow_add_gt hlow, hlow.ne']
  · simp [htop, Nat.testBit_two_pow_add_eq]
  · simp [Nat.not_lt.2 hhigh]

theorem signed_eq_flip (v : Nat) : w.signed v = (w.truncate (v ^^^ w.half) : Int) - w.half := by
  have hsize := w.size_eq_two_mul_half
  have hlt : w.truncate (w.half + v) < w.size := truncate_lt _
  rw [truncate_flip, signed_eq_iff]
  refine ⟨by omega, by omega, ?_⟩
  rw [truncate, Int.natCast_mod, Int.emod_sub_emod, Nat.cast_add, add_sub_cancel_left]

theorem ofInt_signed (v : Nat) : w.ofInt (w.signed v) = w.truncate v := by
  rw [ofInt, signed_emod, ← Int.natCast_mod, Int.toNat_natCast, truncate]

theorem signed_truncate (v : Nat) : w.signed (w.truncate v) = w.signed v := by
  rw [signed, truncate, Int.natCast_mod, Int.emod_bmod, signed]

theorem signed_inj : w.signed a = w.signed b ↔ w.truncate a = w.truncate b := by
  constructor
  · intro h
    rw [← ofInt_signed a, h, ofInt_signed]
  · intro h
    rw [← signed_truncate a, h, signed_truncate]

/-- Of two things in an order, exactly one of three holds. -/
theorem one_of_three {α : Type} [LinearOrder α] (x y : α) :
    (decide (y < x)).toNat + (decide (x = y)).toNat + (decide (x < y)).toNat = 1 := by
  rcases lt_trichotomy x y with h | h | h
  · simp [h, h.ne, h.le]
  · simp [h]
  · simp [h, h.ne', h.le]

theorem equal_eq_signed (a b : Nat) : w.equal a b = decide (w.signed a = w.signed b) := by
  rw [equal, decide_eq_decide, signed_inj]

theorem greater_eq_above_flip (a b : Nat) :
    w.greater a b = w.above (a ^^^ w.half) (b ^^^ w.half) := by
  rw [greater, above, signed_eq_flip, signed_eq_flip, decide_eq_decide]
  omega

theorem aboveOrEqual_eq (a b : Nat) : w.aboveOrEqual a b = !w.above b a := by
  rw [aboveOrEqual, above, ← decide_not, decide_eq_decide, not_lt]

theorem greaterOrEqual_eq (a b : Nat) : w.greaterOrEqual a b = !w.greater b a := by
  rw [greaterOrEqual, greater, ← decide_not, decide_eq_decide, not_lt]

/-- How numbers are read in two's complement, and how they compare, with a sign or without one. -/
structure TwosComplement (w : Width) (a b : Nat) : Prop where
  signed : ∀ i : Int, i = w.signed a ↔
    -2 ^ (w.bits - 1) ≤ i ∧ i < 2 ^ (w.bits - 1) ∧ i % 2 ^ w.bits = a % 2 ^ w.bits
  truncate_signed : w.truncate (Checked.low (w.signed a)) = w.truncate a
  unsigned_one : (w.above a b).toNat + (w.equal a b).toNat + (w.above b a).toNat = 1
  signed_one : (w.greater a b).toNat + (w.equal a b).toNat + (w.greater b a).toNat = 1
  aboveOrEqual : w.aboveOrEqual a b = !w.above b a
  greaterOrEqual : w.greaterOrEqual a b = !w.greater b a
  greater : w.greater a b = w.above (a ^^^ 2 ^ (w.bits - 1)) (b ^^^ 2 ^ (w.bits - 1))
  /-- In 64 bits the sign comes from a shift to the top and back. -/
  signed_checked : w.alu.signed a = pure (w.signed a)
  checked : ∀ op : Comparison, w.alu.compare op a b = pure (op.eval w a b)

theorem twos_complement (w : Width) (a b : Nat) : w.TwosComplement a b where
  signed i := by rw [eq_comm, signed_eq_iff, natCast_half, natCast_size]
  truncate_signed := by rw [truncate_low, ofInt_signed]
  unsigned_one := one_of_three (w.truncate a) (w.truncate b)
  signed_one := by
    rw [equal_eq_signed]
    exact one_of_three (w.signed a) (w.signed b)
  aboveOrEqual := aboveOrEqual_eq a b
  greaterOrEqual := greaterOrEqual_eq a b
  greater := greater_eq_above_flip a b
  signed_checked := w.alu_signed a
  checked op := w.alu_compare op a b

end Width
end WordRam
