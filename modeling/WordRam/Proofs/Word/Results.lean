import WordRam.Proofs.Word.Arithmetic
import WordRam.Proofs.Word.Shifts

/-!
# Results that are words

Whatever the arguments, all operations but one cut their result down to a word
(`Width.eval_lt_of_ne`, `Width.eval?_lt`). Conjunction keeps every bit that its arguments have in
common: on words that is a word, and on other arguments it is one unless they share a bit above the
word (`Width.and_lt_iff`). Main statement: `Width.word_results`.
-/

namespace WordRam
namespace Width

variable {w : Width} {a b : Nat}

/-- A conjunction leaves the word exactly if a bit above the word is in both arguments. -/
theorem and_lt_iff : (w.and a b).value < w.size ↔
    ∀ i, w.bits ≤ i → ¬ (a.testBit i ∧ b.testBit i) := by
  have hbit (i : Nat) : ((a &&& b).testBit i = false) ↔ ¬ (a.testBit i ∧ b.testBit i) := by
    rw [Nat.testBit_and, ← Bool.and_eq_true, Bool.not_eq_true]
  constructor
  · intro h i hi
    exact (hbit i).1 (testBit_of_le h hi)
  · intro h
    exact Nat.lt_pow_two_of_testBit _ fun i hi => (hbit i).2 (h i hi)

theorem and_lt_of_word (h : a < w.size ∨ b < w.size) : (w.and a b).value < w.size := by
  obtain ha | hb := h
  · exact Nat.lt_of_le_of_lt Nat.and_le_left ha
  · exact Nat.lt_of_le_of_lt Nat.and_le_right hb

theorem not_lt_size (w : Width) (a : Nat) : (w.not a).value < w.size :=
  Nat.lt_of_le_of_lt (Nat.sub_le _ _) (Nat.sub_lt w.size_pos Nat.one_pos)

/-- Which results of the operations on two numbers of 64 bits are words. -/
structure WordResults (w : Width) (a b : Nat) : Prop where
  operation : ∀ op : Operation, op ≠ .and → (op.eval w a b).value ≤ 2 ^ w.bits - 1
  division : ∀ (op : Division) v, op.eval? w a b = some v → v ≤ 2 ^ w.bits - 1
  not : (w.not a).value ≤ 2 ^ w.bits - 1
  truncate : w.truncate a ≤ 2 ^ w.bits - 1
  /-- Conjunction alone can leave the word, and does so by the bits in both arguments. -/
  and : (w.and a b).value ≤ 2 ^ w.bits - 1 ↔ ∀ i, w.bits ≤ i → ¬ (a.testBit i ∧ b.testBit i)
  and_word : a ≤ 2 ^ w.bits - 1 ∨ b ≤ 2 ^ w.bits - 1 → (w.and a b).value ≤ 2 ^ w.bits - 1
  /-- The results are those of the arithmetic in 64 and 128 bits, which never overflows. -/
  checked : ∀ op : Operation, w.alu.eval op a b = pure (op.eval w a b)
  division_checked : ∀ op : Division, w.alu.divide op a b = pure (op.eval? w a b)
  not_checked : w.alu.not a = w.not a
  truncate_checked : w.alu.truncate a = w.truncate a

theorem word_results (ha : a < 2 ^ 64) (hb : b < 2 ^ 64) : w.WordResults a b := by
  refine
    { operation := fun op hop => le_mask_iff.2 (eval_lt_of_ne hop a b)
      division := fun op v hv => le_mask_iff.2 (eval?_lt hv)
      not := le_mask_iff.2 (not_lt_size w a)
      truncate := le_mask_iff.2 (truncate_lt a)
      and := le_mask_iff.trans and_lt_iff
      and_word := ?_
      checked := fun op => w.alu_eval op ha hb
      division_checked := fun op => w.alu_divide op a b
      not_checked := w.alu_not ha
      truncate_checked := w.alu_truncate a }
  rw [le_mask_iff, le_mask_iff, le_mask_iff]
  exact and_lt_of_word

/-- The largest number of 64 bits leaves words of eight bits, when it is shifted as when it is
divided, and its conjunction with a word is that word. -/
theorem word_results_largest :
    let w : Width := ⟨8, by decide, by decide⟩
    2 ^ 64 - 1 < 2 ^ 64 ∧ 3 < 2 ^ 64 ∧ w.WordResults (2 ^ 64 - 1) 3 ∧
      w.shiftLeft (2 ^ 64 - 1) 3 = ⟨248, true⟩ ∧ w.shiftRight (2 ^ 64 - 1) 3 = ⟨31, true⟩ ∧
      w.div? (2 ^ 64 - 1) 3 = some 85 ∧ w.and (2 ^ 64 - 1) 3 = ⟨3, false⟩ := by
  intro w
  exact ⟨by decide, by decide, word_results (by decide) (by decide), by decide, by decide,
    by decide, by decide⟩

/-- Conjunction keeps a bit above the word that both arguments have, where disjunction drops it. -/
theorem and_of_no_words :
    let w : Width := ⟨8, by decide, by decide⟩
    511 < 2 ^ 64 ∧ w.or 511 511 = ⟨255, false⟩ ∧ w.alu.eval .and 511 511 = pure ⟨511, false⟩ ∧
      Operation.and.eval w 511 511 = ⟨511, false⟩ ∧
      ¬ (Operation.and.eval w 511 511).value ≤ 2 ^ w.bits - 1 := by
  intro w
  exact ⟨by decide, by decide, rfl, rfl, by decide⟩

end Width
end WordRam
