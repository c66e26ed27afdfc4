import WordRam.Proofs.Checked.Alu

/-!
# Arithmetic of words

The value and the flag of an operation on two words tell what it would come to in whole numbers
(`Width.ExactArithmetic`). A carry and a borrow stand for one word size each, so adding a number and
taking it away again leaves nothing behind (`Width.sub_add`). The words of a product are its digits
to the base of the word size, and so are those of the signed product, whose lower one is the same
(`Width.mulLow_signed`). Main statement: `Width.exact_arithmetic`.
-/

namespace WordRam
namespace Width

variable {w : Width} {a b : Nat}

theorem le_mask_iff {v : Nat} : v ≤ 2 ^ w.bits - 1 ↔ v < w.size := by
  have hpos := w.size_pos
  unfold size at hpos ⊢
  omega

theorem mask_lt_iff {v : Nat} : w.mask < v ↔ w.size ≤ v := by
  have hpos := w.size_pos
  unfold mask
  omega

theorem ofInt_lt (i : Int) : w.ofInt i < w.size := by
  have hpos : (0 : Int) < w.size := by exact_mod_cast w.size_pos
  have hlt := Int.emod_lt_of_pos i hpos
  rw [← natCast_ofInt] at hlt
  exact_mod_cast hlt

theorem add_exact (ha : a < w.size) (hb : b < w.size) :
    (w.add a b).value + (w.add a b).flag.toNat * w.size = a + b := by
  simp only [add, truncate, mask_lt_iff]
  by_cases hcarry : w.size ≤ a + b
  · rw [decide_eq_true hcarry, Nat.mod_eq_sub_mod hcarry, Nat.mod_eq_of_lt (by omega)]
    simp only [Bool.toNat_true]
    omega
  · rw [decide_eq_false hcarry, Nat.mod_eq_of_lt (by omega)]
    simp

theorem sub_exact (ha : a < w.size) (hb : b < w.size) :
    ((w.sub a b).value : Int) = a - b + (w.sub a b).flag.toNat * w.size := by
  simp only [sub, natCast_ofInt]
  by_cases hborrow : a < b
  · rw [decide_eq_true hborrow, ← Int.add_emod_right, Int.emod_eq_of_lt (by omega) (by omega)]
    simp
  · rw [decide_eq_false hborrow, Int.emod_eq_of_lt (by omega) (by omega)]
    simp

theorem sub_add (ha : a < w.size) (hb : b < w.size) :
    w.sub (w.add a b).value b = ⟨a, (w.add a b).flag⟩ := by
  have hsum := add_exact ha hb
  have hword : (w.add a b).value < w.size := truncate_lt _
  have hdifference := sub_exact hword hb
  have hword' : (w.sub (w.add a b).value b).value < w.size := ofInt_lt _
  generalize w.add a b = sum at *
  generalize w.sub sum.value b = difference at *
  obtain ⟨sum, carry⟩ := sum
  obtain ⟨difference, borrow⟩ := difference
  dsimp only at hsum hword hdifference hword'
  -- the difference is `a` but for a word size each for carry and borrow
  have hflag : borrow = carry := by
    cases carry <;> cases borrow <;> simp at hsum hdifference ⊢ <;> omega
  subst hflag
  rw [Flagged.mk.injEq, and_iff_left rfl]
  omega

theorem mulHigh_value (ha : a < w.size) (hb : b < w.size) :
    (w.mulHigh a b).value = a * b / w.size :=
  truncate_of_lt (Nat.div_lt_of_lt_mul (Nat.mul_lt_mul'' ha hb))

theorem mul_exact (ha : a < w.size) (hb : b < w.size) :
    (w.mulHigh a b).value * w.size + (w.mulLow a b).value = a * b := by
  rw [mulHigh_value ha hb]
  exact Nat.div_add_mod' _ _

theorem mulLow_flag (a b : Nat) : (w.mulLow a b).flag ↔ w.size ≤ a * b := by
  simp only [mulLow, decide_eq_true_eq, mask_lt_iff]

theorem mulHigh_flag (ha : a < w.size) (hb : b < w.size) :
    (w.mulHigh a b).flag ↔ w.size ≤ a * b := by
  have hflag : (w.mulHigh a b).flag = decide ((w.mulHigh a b).value ≠ 0) := rfl
  rw [hflag, mulHigh_value ha hb, decide_eq_true_eq, Nat.div_ne_zero_iff]
  exact and_iff_right w.size_pos.ne'

theorem signed_ofInt {i : Int} (hl : -(w.half : Int) ≤ i) (hu : i < w.half) :
    w.signed (w.ofInt i) = i := by
  have hsize := w.size_eq_two_mul_half
  rw [signed, natCast_ofInt, Int.emod_bmod]
  exact Int.bmod_eq_of_le_mul_two (by omega) (by omega)

theorem signed_emod (v : Nat) : w.signed v % w.size = v % w.size :=
  Int.bmod_emod

/-- The low words of the product and of the signed product are the same. -/
theorem mulLow_signed (a b : Nat) :
    ((w.mulLow a b).value : Int) = w.signed a * w.signed b % w.size := by
  rw [Int.mul_emod, signed_emod, signed_emod, ← Int.mul_emod]
  rfl

/-- The high word of the signed product is no further from zero than words can be. -/
theorem signed_mulHighSigned (a b : Nat) :
    w.signed (w.mulHighSigned a b).value = w.signed a * w.signed b / w.size := by
  obtain ⟨hl, hu⟩ := abs_le.1 (w.abs_mul_signed_le a b)
  have hpos : (0 : Int) < w.half := by exact_mod_cast Nat.two_pow_pos _
  have hsize : (w.size : Int) = 2 * w.half := by exact_mod_cast w.size_eq_two_mul_half
  have hsquare : (0 : Int) < w.half * w.half := Int.mul_pos hpos hpos
  have hscaled : (w.half : Int) * w.size = 2 * (w.half * w.half) := by
    rw [hsize, Int.mul_left_comm]
  refine signed_ofInt (Int.le_ediv_of_mul_le (by omega) ?_) (Int.ediv_lt_of_lt_mul (by omega) ?_)
  · rw [Int.neg_mul]
    omega
  · omega

theorem mulHighSigned_exact (a b : Nat) :
    w.signed (w.mulHighSigned a b).value * w.size + (w.mulLow a b).value =
      w.signed a * w.signed b := by
  rw [signed_mulHighSigned, mulLow_signed]
  exact Int.ediv_mul_add_emod _ _

theorem mulHighSigned_flag (a b : Nat) : (w.mulHighSigned a b).flag ↔
    ¬ (-(w.half : Int) ≤ w.signed a * w.signed b ∧ w.signed a * w.signed b < w.half) := by
  simp only [mulHighSigned, Bool.or_eq_true, decide_eq_true_eq, not_and_or, not_le, not_lt]

theorem div?_of_pos (ha : a < w.size) (hb : 0 < b) : w.div? a b = some (a / b) := by
  rw [div?, if_neg hb.ne', truncate_of_lt (Nat.lt_of_le_of_lt (Nat.div_le_self a b) ha)]

theorem mod?_of_pos (ha : a < w.size) (hb : 0 < b) : w.mod? a b = some (a % b) := by
  rw [mod?, if_neg hb.ne', truncate_of_lt (Nat.lt_of_le_of_lt (Nat.mod_le a b) ha)]

theorem eval?_eq_none_iff (op : Division) : op.eval? w a b = none ↔ b = 0 := by
  cases op <;> simp [Division.eval?, div?, mod?]

/-- All operations but conjunction cut their result down. -/
theorem eval_lt_of_ne {op : Operation} (hop : op ≠ .and) (a b : Nat) :
    (op.eval w a b).value < w.size := by
  cases op with
  | and => exact absurd rfl hop
  | or | xor | add | mull | umulh => exact truncate_lt _
  | sub | smulh => exact ofInt_lt _
  | shl =>
    simp only [Operation.eval, shiftLeft]
    split
    · exact truncate_lt _
    · split
      · exact size_pos
      · exact truncate_lt _
  | shr =>
    simp only [Operation.eval, shiftRight]
    split
    · exact truncate_lt _
    · split
      · exact size_pos
      · exact Nat.lt_of_le_of_lt (Nat.div_le_self _ _) (truncate_lt _)

theorem eval_lt (op : Operation) (ha : a < w.size) : (op.eval w a b).value < w.size := by
  by_cases hop : op = .and
  · subst hop
    exact Nat.lt_of_le_of_lt Nat.and_le_left ha
  · exact eval_lt_of_ne hop a b

theorem eval?_lt {op : Division} {v : Nat} (h : op.eval? w a b = some v) : v < w.size := by
  cases op <;> simp only [Division.eval?, div?, mod?] at h <;> split at h <;> cases h <;>
    exact truncate_lt _

theorem lt_of_lt_size (ha : a < w.size) : a < 2 ^ 64 :=
  Nat.lt_of_lt_of_le ha w.size_le

/-- Raised to the top of 64 bits, a word loses no bit. -/
theorem raised_lt (ha : a < w.size) : a * 2 ^ (64 - w.bits) < 2 ^ 64 := by
  rw [w.two_pow_eq]
  exact Nat.mul_lt_mul_of_pos_right ha (Nat.two_pow_pos _)

/-- In 64 bits, a difference of words wraps around exactly if the words have a borrow. -/
theorem low_sub (ha : a < w.size) (hb : b < w.size) :
    (Checked.low (a - b) : Int) = a - b + (w.sub a b).flag.toNat * 2 ^ 64 := by
  let all : Width := ⟨64, by decide, by decide⟩
  exact sub_exact (w := all) (lt_of_lt_size ha) (lt_of_lt_size hb)

/-- What the arithmetic of two words comes to in whole numbers. -/
structure ExactArithmetic (w : Width) (a b : Nat) : Prop where
  add : (w.add a b).value + (w.add a b).flag.toNat * 2 ^ w.bits = a + b
  sub : ((w.sub a b).value : Int) = a - b + (w.sub a b).flag.toNat * 2 ^ w.bits
  sub_add : w.sub (w.add a b).value b = ⟨a, (w.add a b).flag⟩
  mul : (w.mulHigh a b).value * 2 ^ w.bits + (w.mulLow a b).value = a * b
  mul_flags : ((w.mulLow a b).flag ↔ 2 ^ w.bits ≤ a * b) ∧
    ((w.mulHigh a b).flag ↔ 2 ^ w.bits ≤ a * b)
  mulSigned : w.signed (w.mulHighSigned a b).value * 2 ^ w.bits + (w.mulLow a b).value =
    w.signed a * w.signed b
  mulSigned_flag : (w.mulHighSigned a b).flag ↔ ¬ (-2 ^ (w.bits - 1) ≤ w.signed a * w.signed b ∧
    w.signed a * w.signed b < 2 ^ (w.bits - 1))
  divide : 0 < b → ∃ q r, w.div? a b = some q ∧ w.mod? a b = some r ∧ a = q * b + r ∧ r < b
  divide_none : ∀ op : Division, op.eval? w a b = none ↔ b = 0
  word : ∀ op : Operation, (op.eval w a b).value ≤ 2 ^ w.bits - 1
  divide_word : ∀ (op : Division) v, op.eval? w a b = some v → v ≤ 2 ^ w.bits - 1
  /-- In 64 and 128 bits nothing overflows on the way to the result. -/
  checked : ∀ op : Operation, w.alu.eval op a b = pure (op.eval w a b)
  divide_checked : ∀ op : Division, w.alu.divide op a b = pure (op.eval? w a b)
  /-- A difference is meant to wrap around in 64 bits, and does so by what the flag says. -/
  sub_low : (Checked.low (a - b) : Int) = a - b + (w.sub a b).flag.toNat * 2 ^ 64
  /-- The sign of a word is read after a shift to the top of 64 bits, which loses nothing. -/
  raised : a * 2 ^ (64 - w.bits) < 2 ^ 64 ∧ b * 2 ^ (64 - w.bits) < 2 ^ 64

theorem exact_arithmetic (ha : a ≤ 2 ^ w.bits - 1) (hb : b ≤ 2 ^ w.bits - 1) :
    w.ExactArithmetic a b := by
  rw [le_mask_iff] at ha hb
  have ha64 := lt_of_lt_size ha
  have hb64 := lt_of_lt_size hb
  have hhalf : (w.half : Int) = 2 ^ (w.bits - 1) := by exact_mod_cast rfl
  have hsize : (w.size : Int) = 2 ^ w.bits := by exact_mod_cast rfl
  refine
    { add := add_exact ha hb
      sub := hsize ▸ sub_exact ha hb
      sub_add := Width.sub_add ha hb
      mul := mul_exact ha hb
      mul_flags := ⟨mulLow_flag a b, mulHigh_flag ha hb⟩
      mulSigned := hsize ▸ mulHighSigned_exact a b
      mulSigned_flag := hhalf ▸ mulHighSigned_flag a b
      divide := fun hpos => ⟨a / b, a % b, div?_of_pos ha hpos, mod?_of_pos ha hpos,
        (Nat.div_add_mod' a b).symm, Nat.mod_lt a hpos⟩
      divide_none := eval?_eq_none_iff
      word := fun op => le_mask_iff.2 (eval_lt op ha)
      divide_word := fun op v hv => le_mask_iff.2 (eval?_lt hv)
      checked := fun op => w.alu_eval op ha64 hb64
      divide_checked := fun op => w.alu_divide op a b
      sub_low := low_sub ha hb
      raised := ⟨raised_lt ha, raised_lt hb⟩ }

/-- The square of the least integer in 64 bits is the largest product there is. -/
theorem exact_arithmetic_least :
    let w : Width := ⟨64, by decide, by decide⟩
    2 ^ 63 ≤ 2 ^ w.bits - 1 ∧ w.ExactArithmetic (2 ^ 63) (2 ^ 63) ∧
      w.signed (2 ^ 63) = -2 ^ 63 ∧ w.mulHighSigned (2 ^ 63) (2 ^ 63) = ⟨2 ^ 62, true⟩ := by
  intro w
  have hword : 2 ^ 63 ≤ 2 ^ w.bits - 1 := by decide
  exact ⟨hword, exact_arithmetic hword hword, by decide, by decide⟩

end Width
end WordRam
