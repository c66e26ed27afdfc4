import Mathlib.Data.Nat.Digits.Defs
import WordRam.Memory

/-!
# The bytes of a word

A word is the number whose digits to the base `2 ^ 8` are its bytes (`ofDigits_bytesOf`), and
replacing a byte replaces a digit (`ofDigits_set`). What comes of it is a word again exactly if the
word has the bits that the new byte needs (`replaceByte_lt_size_iff`).
-/

namespace WordRam

/-- The lowest bytes of a number, so many of them, from the lowest up. -/
def bytesOf : Nat → Nat → List Nat
  | 0, _ => []
  | n + 1, word => word % 2 ^ 8 :: bytesOf n (word / 2 ^ 8)

variable {n k word v : Nat}

theorem getElem?_bytesOf (h : k < n) (word : Nat) :
    (bytesOf n word)[k]? = some (word / 2 ^ (8 * k) % 2 ^ 8) := by
  induction n generalizing k word with
  | zero => omega
  | succ n ih =>
    cases k with
    | zero => simp [bytesOf]
    | succ k =>
      have hpow : (2 : Nat) ^ 8 * 2 ^ (8 * k) = 2 ^ (8 * (k + 1)) := by
        rw [← Nat.pow_add, Nat.mul_succ, Nat.add_comm]
      rw [bytesOf, List.getElem?_cons_succ, ih (Nat.lt_of_succ_lt_succ h), Nat.div_div_eq_div_mul,
        hpow]

theorem ofDigits_bytesOf (h : word < 2 ^ (8 * n)) : Nat.ofDigits (2 ^ 8) (bytesOf n word) = word := by
  induction n generalizing word with
  | zero =>
    have hz : word = 0 := by simpa using h
    simp [bytesOf, hz]
  | succ n ih =>
    have hdiv : word / 2 ^ 8 < 2 ^ (8 * n) := by
      rw [Nat.div_lt_iff_lt_mul (by decide), ← Nat.pow_add]
      exact h
    rw [bytesOf, Nat.ofDigits_cons, ih hdiv]
    exact Nat.mod_add_div word (2 ^ 8)

namespace Width

theorem and_mask (w : Width) (v : Nat) : v &&& w.mask = v % w.size :=
  Nat.and_two_pow_sub_one_eq_mod v w.bits

theorem and_mask_eq_iff {w : Width} : v &&& w.mask = v ↔ v < w.size := by
  rw [and_mask, Nat.mod_eq_iff_lt (Nat.ne_of_gt w.size_pos)]

theorem size_le_bytes (w : Width) : w.size ≤ 2 ^ (8 * w.bytes) := by
  refine Nat.pow_le_pow_right (by decide) ?_
  unfold bytes
  omega

/-- Only the top byte of a word can lack bits, and only if the word does not consist of whole
bytes. -/
theorem top_of_size_le {w : Width} (hk : k < w.bytes) (hv : v < 2 ^ 8)
    (h : w.size ≤ v * 2 ^ (8 * k)) : k = w.bytes - 1 ∧ ¬ 8 ∣ w.bits := by
  have hbits : w.bits < 8 + 8 * k := by
    by_contra hle
    have hpow : 2 ^ (8 + 8 * k) ≤ w.size := Nat.pow_le_pow_right (by decide) (Nat.not_lt.1 hle)
    have hlt : v * 2 ^ (8 * k) < 2 ^ 8 * 2 ^ (8 * k) :=
      Nat.mul_lt_mul_of_pos_right hv (Nat.two_pow_pos _)
    rw [← Nat.pow_add] at hlt
    omega
  unfold bytes at hk ⊢
  omega

end Width

namespace Memory

/-- A word with a byte replaced is made of the bits above the byte, the new byte and the bits below
it. -/
theorem replaceByte_eq_add (word offset v : Nat) :
    Memory.replaceByte word offset v = 2 ^ (8 * offset) *
      (2 ^ 8 * (word / 2 ^ (8 * offset + 8)) + v) + word % 2 ^ (8 * offset) := by
  generalize hs : 8 * offset = s
  have hhigh := Nat.div_add_mod (word / 2 ^ s) (2 ^ 8)
  rw [Nat.div_div_eq_div_mul, ← Nat.pow_add] at hhigh
  have hword := Nat.div_add_mod word (2 ^ s)
  have hscaled := congrArg (2 ^ s * ·) hhigh
  simp only [Nat.mul_add] at hscaled
  have hcomm := Nat.mul_comm (2 ^ s) (word / 2 ^ s % 2 ^ 8)
  rw [Memory.replaceByte, hs, Nat.mul_add, Nat.mul_comm (2 ^ s) v]
  omega

theorem replaceByte_zero (word v : Nat) : replaceByte word 0 v = v + 2 ^ 8 * (word / 2 ^ 8) := by
  have hdiv := Nat.div_add_mod word (2 ^ 8)
  simp only [replaceByte, Nat.mul_zero, Nat.pow_zero, Nat.div_one, Nat.mul_one]
  omega

theorem replaceByte_succ (word offset v : Nat) : replaceByte word (offset + 1) v =
    word % 2 ^ 8 + 2 ^ 8 * replaceByte (word / 2 ^ 8) offset v := by
  have hpow : (2 : Nat) ^ (8 * (offset + 1)) = 2 ^ 8 * 2 ^ (8 * offset) := by
    rw [← Nat.pow_add, Nat.mul_succ, Nat.add_comm]
  have hhigh : word / 2 ^ (8 * (offset + 1) + 8) = word / 2 ^ 8 / 2 ^ (8 * offset + 8) := by
    rw [Nat.div_div_eq_div_mul, ← Nat.pow_add]
    congr 2
    omega
  rw [replaceByte_eq_add, replaceByte_eq_add, hhigh, hpow, Nat.mod_mul, Nat.mul_assoc, Nat.mul_add]
  omega

theorem ofDigits_set (h : word < 2 ^ (8 * n)) (hk : k < n) (v : Nat) :
    Nat.ofDigits (2 ^ 8) ((bytesOf n word).set k v) = replaceByte word k v := by
  induction n generalizing k word with
  | zero => omega
  | succ n ih =>
    have hdiv : word / 2 ^ 8 < 2 ^ (8 * n) := by
      rw [Nat.div_lt_iff_lt_mul (by decide), ← Nat.pow_add]
      exact h
    cases k with
    | zero => rw [bytesOf, List.set_cons_zero, Nat.ofDigits_cons, ofDigits_bytesOf hdiv,
        replaceByte_zero]
    | succ k => rw [bytesOf, List.set_cons_succ, Nat.ofDigits_cons, ih hdiv (Nat.lt_of_succ_lt_succ hk),
        replaceByte_succ]

theorem replaceByte_lt_size_iff {w : Width} (hword : word < w.size) (hk : k < w.bytes)
    (hv : v < 2 ^ 8) : replaceByte word k v < w.size ↔ v * 2 ^ (8 * k) < w.size := by
  have hbits : 8 * k < w.bits := by
    unfold Width.bytes at hk
    omega
  obtain ⟨above, habove⟩ := Nat.exists_eq_add_of_lt hbits
  have hpos : 0 < 2 ^ (8 * k) := Nat.two_pow_pos _
  -- the place of the byte and what is above it
  have hsize : w.size = 2 ^ (above + 1) * 2 ^ (8 * k) := by
    rw [Width.size, habove, ← Nat.pow_add]
    congr 1
    omega
  have hhigh : word / 2 ^ (8 * k) < 2 ^ (above + 1) := by
    rw [Nat.div_lt_iff_lt_mul hpos, ← hsize]
    exact hword
  have hlow : word % 2 ^ (8 * k) < 2 ^ (8 * k) := Nat.mod_lt _ hpos
  rw [hsize, Nat.mul_lt_mul_right hpos, replaceByte_eq_add, ← Nat.div_lt_iff_lt_mul hpos,
    Nat.mul_add_div hpos, Nat.div_eq_of_lt hlow, Nat.add_zero, Nat.pow_add,
    ← Nat.div_div_eq_div_mul]
  rcases Nat.lt_or_ge (above + 1) 8 with hpartial | hwhole
  · -- nothing of the word is above the byte
    have hle : 2 ^ (above + 1) ≤ 2 ^ 8 := Nat.pow_le_pow_right (by decide) (Nat.le_of_lt hpartial)
    omega
  · -- the whole byte belongs to the word
    obtain ⟨rest, hrest⟩ := Nat.exists_eq_add_of_le hwhole
    rw [hrest, Nat.pow_add] at hhigh ⊢
    omega

end Memory

end WordRam
