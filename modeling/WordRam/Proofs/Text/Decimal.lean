import WordRam.Proofs.Text.Numeral
import WordRam.Proofs.Text.Rounding
import WordRam.Text.Decimal

/-!
# Decimals and what they round to

The test for rounding to a power of two is a comparison of whole numbers. It says the same as the
comparison of the decimal itself with the midpoints (`Decimal.within_iff`), which is what rounding
to nearest comes to (`Decimal.roundsToTwoPow_iff`). What is read as a decimal is a sign, digits
around a point and an exponent, and the number is the one so written (`Decimal.spells_iff`).
-/

namespace WordRam.Text
namespace Decimal

variable {d : Decimal} {k : ℕ}

/-- The number without its sign. -/
def size (d : Decimal) : ℚ :=
  d.significand * 10 ^ d.exponent

def value (d : Decimal) : ℚ :=
  if d.negative then -d.size else d.size

theorem size_nonneg (d : Decimal) : 0 ≤ d.size :=
  mul_nonneg (Nat.cast_nonneg _) (zpow_nonneg (by norm_num) _)

/-- A power of ten as a quotient of whole numbers. -/
theorem zpow_mul_pow (e : ℤ) : (10 : ℚ) ^ e * 10 ^ (-e).toNat = 10 ^ e.toNat := by
  rw [← zpow_natCast, ← zpow_natCast, ← zpow_add₀ (by norm_num)]
  congr 1
  omega

/-- The midpoints around a power of two, in whole numbers. -/
theorem within_iff (d : Decimal) (k : ℕ) :
    (2 ^ k * 10 ^ (-d.exponent).toNat * (2 ^ 54 - 1) ≤
        d.significand * 10 ^ d.exponent.toNat * 2 ^ 54 ∧
      d.significand * 10 ^ d.exponent.toNat * 2 ^ 54 ≤
        2 ^ k * 10 ^ (-d.exponent).toNat * (2 ^ 54 + 2)) ↔
      (2 : ℚ) ^ k * (2 ^ 54 - 1) ≤ d.size * 2 ^ 54 ∧ d.size * 2 ^ 54 ≤ 2 ^ k * (2 ^ 54 + 2) := by
  have hpow := zpow_mul_pow d.exponent
  have hpos : (0 : ℚ) < 10 ^ (-d.exponent).toNat := by positivity
  have hscaled : ((d.significand * 10 ^ d.exponent.toNat * 2 ^ 54 : ℕ) : ℚ) =
      d.size * 2 ^ 54 * 10 ^ (-d.exponent).toNat := by
    push_cast
    rw [← hpow, size]
    ring
  have hunit (c : ℕ) : ((2 ^ k * 10 ^ (-d.exponent).toNat * c : ℕ) : ℚ) =
      2 ^ k * c * 10 ^ (-d.exponent).toNat := by
    push_cast
    ring
  rw [← Nat.cast_le (α := ℚ), ← Nat.cast_le (α := ℚ), hscaled, hunit, hunit,
    mul_le_mul_iff_of_pos_right hpos, mul_le_mul_iff_of_pos_right hpos]
  norm_num

theorem pow_length_toDigits (n : ℕ) : n < 10 ^ (Nat.toDigits 10 n).length :=
  (Nat.length_toDigits_le_iff (by decide) (List.length_pos_iff.2 Nat.toDigits_ne_nil)).1
    (Nat.le_refl _)

theorem pow_length_toDigits_le {n : ℕ} (hn : n ≠ 0) :
    10 ^ ((Nat.toDigits 10 n).length - 1) ≤ n := by
  obtain hone | hmore :
      (Nat.toDigits 10 n).length - 1 = 0 ∨ 0 < (Nat.toDigits 10 n).length - 1 := by
    omega
  · rw [hone]
    exact Nat.one_le_iff_ne_zero.2 hn
  · refine Nat.not_lt.1 fun hlt => ?_
    have hle := (Nat.length_toDigits_le_iff (by decide) hmore).2 hlt
    omega

/-- The exponent of the leading digit tells the size up to a factor of ten. -/
theorem magnitude_bounds (hd : d.significand ≠ 0) :
    (10 : ℚ) ^ d.magnitude ≤ d.size ∧ d.size < 10 ^ (d.magnitude + 1) := by
  have hlength : 0 < (Nat.toDigits 10 d.significand).length :=
    List.length_pos_iff.2 Nat.toDigits_ne_nil
  have hten : (0 : ℚ) < 10 ^ d.exponent := zpow_pos (by norm_num) _
  have hl : ((10 ^ ((Nat.toDigits 10 d.significand).length - 1) : ℕ) : ℚ) ≤ d.significand := by
    exact_mod_cast pow_length_toDigits_le hd
  have hu : (d.significand : ℚ) < ((10 ^ (Nat.toDigits 10 d.significand).length : ℕ) : ℚ) := by
    exact_mod_cast pow_length_toDigits d.significand
  have hmagnitude : d.magnitude =
      ((Nat.toDigits 10 d.significand).length - 1 : ℕ) + d.exponent := by
    rw [magnitude]
    omega
  have hnext : d.magnitude + 1 = ((Nat.toDigits 10 d.significand).length : ℕ) + d.exponent := by
    rw [magnitude]
    omega
  rw [hnext, hmagnitude, zpow_add₀ (by norm_num), zpow_add₀ (by norm_num), zpow_natCast,
    zpow_natCast, size]
  push_cast at hl hu
  exact ⟨mul_le_mul_of_nonneg_right hl hten.le, mul_lt_mul_of_pos_right hu hten⟩

/-- A number near a power of two is not so small or large that its magnitude turns it away. -/
theorem magnitude_of_within (hd : d.significand ≠ 0)
    (hl : (2 : ℚ) ^ k * (2 ^ 54 - 1) ≤ d.size * 2 ^ 54)
    (hu : d.size * 2 ^ 54 ≤ 2 ^ k * (2 ^ 54 + 2)) : -1 ≤ d.magnitude ∧ d.magnitude ≤ k := by
  obtain ⟨hlow, hhigh⟩ := magnitude_bounds hd
  have hone : (1 : ℚ) ≤ 2 ^ k := one_le_pow₀ (by norm_num)
  constructor
  · have hless : (10 : ℚ) ^ (-1 : ℤ) < 10 ^ (d.magnitude + 1) := by
      refine lt_of_lt_of_le ?_ hhigh.le
      norm_num
      linarith
    have := (zpow_lt_zpow_iff_right₀ (by norm_num)).1 hless
    omega
  · have hpow : (2 : ℚ) ^ (k + 1) ≤ 10 ^ (k + 1) := pow_le_pow_left₀ (by norm_num) (by norm_num) _
    have hless : (10 : ℚ) ^ d.magnitude < 10 ^ ((k : ℤ) + 1) := by
      rw [← Nat.cast_succ, zpow_natCast]
      refine lt_of_le_of_lt hlow (lt_of_lt_of_le ?_ hpow)
      rw [pow_succ]
      linarith
    have := (zpow_lt_zpow_iff_right₀ (by norm_num)).1 hless
    omega

theorem roundsToTwoPow_iff (d : Decimal) (k : ℕ) :
    d.roundsToTwoPow k ↔ RoundsTo d.value (2 ^ k) := by
  have htest : d.roundsToTwoPow k ↔ d.negative = false ∧ d.significand ≠ 0 ∧ -1 ≤ d.magnitude ∧
      d.magnitude ≤ k ∧ (2 : ℚ) ^ k * (2 ^ 54 - 1) ≤ d.size * 2 ^ 54 ∧
        d.size * 2 ^ 54 ≤ 2 ^ k * (2 ^ 54 + 2) := by
    simp only [roundsToTwoPow, Bool.and_eq_true, Bool.not_eq_true', decide_eq_true_eq, and_assoc,
      ← within_iff]
  rw [htest, roundsTo_two_pow_iff]
  constructor
  · rintro ⟨hsign, -, -, -, hl, hu⟩
    rw [value, hsign]
    exact ⟨hl, hu⟩
  · rintro ⟨hl, hu⟩
    have hpow : (0 : ℚ) < 2 ^ k := pow_pos two_pos k
    -- a number between the bounds is positive and not too long, so the test lets it through
    have hpos : 0 < d.value := by linarith
    have hsize := d.size_nonneg
    have hsign : d.negative = false := by
      refine Bool.eq_false_iff.2 fun hnegative => ?_
      rw [value, if_pos hnegative] at hpos
      linarith
    have hvalue : d.value = d.size := by
      rw [value, hsign]
      rfl
    rw [hvalue] at hl hu hpos
    have hsignificand : d.significand ≠ 0 := fun hzero => by
      rw [size, hzero, Nat.cast_zero, zero_mul] at hpos
      exact lt_irrefl 0 hpos
    obtain ⟨hlow, hhigh⟩ := magnitude_of_within hsignificand hl hu
    exact ⟨hsign, hsignificand, hlow, hhigh, hl, hu⟩

/-! ### The form of decimals -/

/-- A sign or none, and whether it is a minus sign. -/
inductive Sign : List Char → Bool → Prop
  | none : Sign [] false
  | plus : Sign ['+'] false
  | minus : Sign ['-'] true

/-- Digits with at most one point among them, and the number that they denote. -/
inductive Fixed : List Char → ℚ → Prop
  | whole {digits : List Char} {n : ℕ} (h : Digits digits n) : Fixed digits n
  | point {whole fraction : List Char} {n : ℕ} (h : Digits (whole ++ fraction) n) :
    Fixed (whole ++ '.' :: fraction) (n / 10 ^ fraction.length)

/-- The exponent of a decimal: the letter `e` in either case and an integer, or nothing. -/
inductive Scale : List Char → ℤ → Prop
  | none : Scale [] 0
  | exponent {c : Char} {sign digits : List Char} {negative : Bool} {n : ℕ}
    (hc : c = 'e' ∨ c = 'E') (hs : Sign sign negative) (hd : Digits digits n) :
    Scale (c :: (sign ++ digits)) (if negative then -n else n)

/-- A decimal as it is written, and the number that it denotes. Names such as `inf` are no decimals,
and what they denote is near to no power of two. -/
inductive Spells : List Char → ℚ → Prop
  | intro {sign fixed scale : List Char} {negative : Bool} {x : ℚ} {e : ℤ}
    (hs : Sign sign negative) (hf : Fixed fixed x) (he : Scale scale e) :
    Spells (sign ++ (fixed ++ scale)) (if negative then -(x * 10 ^ e) else x * 10 ^ e)

variable {cs sign digits rest scale text : List Char} {negative : Bool} {x q : ℚ} {e : ℤ}

theorem sign_takeSign (cs : List Char) :
    ∃ sign, cs = sign ++ (takeSign cs).2 ∧ Sign sign (takeSign cs).1 := by
  unfold takeSign
  split
  · exact ⟨_, rfl, .minus⟩
  · exact ⟨_, rfl, .plus⟩
  · exact ⟨[], rfl, .none⟩

theorem takeSign_append (h : Sign sign negative) (hrest : ∀ c ∈ rest.head?, c ≠ '-' ∧ c ≠ '+') :
    takeSign (sign ++ rest) = (negative, rest) := by
  cases h with
  | none =>
    rw [List.nil_append]
    unfold takeSign
    split
    · exact absurd rfl (hrest '-' rfl).1
    · exact absurd rfl (hrest '+' rfl).2
    · rfl
  | plus => rfl
  | minus => rfl

theorem head_ne_sign (h : ∀ c ∈ cs, isDigit c) : ∀ c ∈ cs.head?, c ≠ '-' ∧ c ≠ '+' := by
  intro c hc
  have hdigit := h c (List.mem_of_mem_head? hc)
  constructor <;> rintro rfl <;> exact absurd hdigit (by decide)

theorem exponent?_eq_some_iff : exponent? cs = some e ↔ Scale cs e := by
  constructor
  · intro h
    unfold exponent? at h
    split at h
    · cases h
      exact .none
    · next c cs =>
      split at h
      · next hc =>
        -- behind the letter there are a sign or none, and then digits only
        obtain ⟨sign, heq, hsign⟩ := sign_takeSign cs
        dsimp only at h
        split at h
        · next hd =>
          cases h
          have hc : c = 'e' ∨ c = 'E' := by simpa using hc
          have hscale := Scale.exponent hc hsign (digits_iff.2 ⟨hd, rfl⟩)
          rwa [← heq] at hscale
        · cases h
      · cases h
  · intro h
    cases h with
    | none => rfl
    | @exponent c sign digits negative n hc hs hd =>
      obtain ⟨hdigits, rfl⟩ := digits_iff.1 hd
      have hletter : (decide (c = 'e') || decide (c = 'E')) = true := by simpa using hc
      have hhead := head_ne_sign (mem_of_isDigits hdigits)
      simp only [exponent?, if_pos hletter, takeSign_append hs hhead, if_pos hdigits]

/-- The digits before a point, those after it, and what comes then. -/
def fixed (cs : List Char) : List Char × List Char × List Char :=
  (cs.takeWhile isDigit,
    match cs.dropWhile isDigit with
    | '.' :: r => (r.takeWhile isDigit, r.dropWhile isDigit)
    | r => ([], r))

theorem read?_eq (cs : List Char) : read? cs =
    let (negative, cs) := takeSign cs
    let (whole, fraction, rest) := fixed cs
    if whole = [] && fraction = [] then none
    else (exponent? rest).map fun e =>
      { negative
        significand := digitsValue (whole ++ fraction)
        exponent := e - fraction.length } := rfl

theorem span_digits (h : ∀ c ∈ digits, isDigit c) (hrest : ∀ c ∈ rest.head?, isDigit c = false) :
    (digits ++ rest).takeWhile isDigit = digits ∧ (digits ++ rest).dropWhile isDigit = rest := by
  rw [List.takeWhile_append_of_pos h, List.dropWhile_append_of_pos h]
  cases rest with
  | nil => exact ⟨List.append_nil digits, rfl⟩
  | cons c rest =>
    have hc : ¬ isDigit c := by simp [hrest c rfl]
    rw [List.takeWhile_cons_of_neg hc, List.dropWhile_cons_of_neg hc]
    exact ⟨List.append_nil digits, rfl⟩

/-- What `fixed` takes off a text is digits around a point. -/
theorem fixed_sound {whole fraction : List Char} (h : fixed cs = (whole, fraction, rest))
    (hne : whole ++ fraction ≠ []) : ∃ text, cs = text ++ rest ∧
      Fixed text (digitsValue (whole ++ fraction) / 10 ^ fraction.length) := by
  have hdigits (cs : List Char) : ∀ c ∈ cs.takeWhile isDigit, isDigit c := fun c hc =>
    List.all_eq_true.1 List.all_takeWhile c hc
  have hsplit := (List.takeWhile_append_dropWhile (p := isDigit) (l := cs)).symm
  obtain ⟨rfl, htail⟩ := Prod.mk.inj h
  split at htail
  · next r hr =>
    obtain ⟨rfl, rfl⟩ := Prod.mk.inj htail
    refine ⟨_, ?_, .point (digits_digitsValue hne fun c hc => ?_)⟩
    · rw [List.append_assoc, List.cons_append, List.takeWhile_append_dropWhile, ← hr]
      exact hsplit
    · exact (List.mem_append.1 hc).elim (hdigits cs c) (hdigits r c)
  · obtain ⟨rfl, rfl⟩ := Prod.mk.inj htail
    rw [List.append_nil] at hne ⊢
    rw [List.length_nil, pow_zero, div_one]
    exact ⟨_, hsplit, .whole (digits_digitsValue hne (hdigits cs))⟩

/-- Digits around a point are taken off a text as far as they go. -/
theorem fixed_append (h : Fixed text x)
    (hrest : ∀ c ∈ rest.head?, isDigit c = false ∧ c ≠ '.') :
    ∃ whole fraction, fixed (text ++ rest) = (whole, fraction, rest) ∧ whole ++ fraction ≠ [] ∧
      x = digitsValue (whole ++ fraction) / 10 ^ fraction.length := by
  have hend : ∀ c ∈ rest.head?, isDigit c = false := fun c hc => (hrest c hc).1
  cases h with
  | whole h =>
    obtain ⟨hdigits, rfl⟩ := digits_iff.1 h
    obtain ⟨htake, hdrop⟩ := span_digits (mem_of_isDigits hdigits) hend
    refine ⟨text, [], ?_, ?_, ?_⟩
    · rw [fixed, htake, hdrop]
      split
      · exact absurd rfl (hrest '.' rfl).2
      · rfl
    · rw [List.append_nil]
      exact h.ne_nil
    · rw [List.append_nil, List.length_nil, pow_zero, div_one]
  | @point whole fraction n h =>
    obtain ⟨hdigits, rfl⟩ := digits_iff.1 h
    obtain ⟨hwhole, hfraction⟩ := List.forall_mem_append.1 (mem_of_isDigits hdigits)
    -- the point ends the digits before it, and what follows ends those after it
    have hpoint : ∀ c ∈ ('.' :: (fraction ++ rest)).head?, isDigit c = false := by
      rintro c ⟨⟩
      decide
    obtain ⟨htake, hdrop⟩ := span_digits hwhole hpoint
    obtain ⟨htake', hdrop'⟩ := span_digits hfraction hend
    refine ⟨whole, fraction, ?_, h.ne_nil, rfl⟩
    rw [fixed, List.append_assoc, List.cons_append, htake, hdrop]
    simp only [htake', hdrop']

/-! ### Reading -/

theorem Fixed.head (h : Fixed text x) : text ≠ [] ∧ ∀ c ∈ text.head?, c ≠ '-' ∧ c ≠ '+' := by
  cases h with
  | whole h => exact ⟨h.ne_nil, head_ne_sign (mem_of_isDigits (digits_iff.1 h).1)⟩
  | @point whole fraction n h =>
    have hdigits := mem_of_isDigits (digits_iff.1 h).1
    refine ⟨by simp, ?_⟩
    cases whole with
    | nil =>
      rintro c hc
      cases hc
      decide
    | cons c whole =>
      have hhead := head_ne_sign hdigits
      exact hhead

theorem Scale.head (h : Scale scale e) : ∀ c ∈ scale.head?, isDigit c = false ∧ c ≠ '.' := by
  cases h with
  | none => exact nofun
  | exponent hc _ _ =>
    intro c hhead
    cases hhead
    obtain rfl | rfl := hc <;> decide

/-- Taking the digits after the point into the significand is made up for in the exponent. -/
theorem div_pow_mul_zpow (n k : ℕ) (e : ℤ) :
    (n : ℚ) / 10 ^ k * 10 ^ e = n * 10 ^ (e - k) := by
  rw [zpow_sub₀ (by norm_num), zpow_natCast]
  ring

/-- The decimals that are read are those that are written as such. -/
theorem spells_iff : Spells cs q ↔ ∃ d, read? cs = some d ∧ d.value = q := by
  constructor
  · intro h
    obtain @⟨sign, text, scale, negative, x, e, hs, hf, he⟩ := h
    obtain ⟨hne, hhead⟩ := hf.head
    have hnext : ∀ c ∈ (text ++ scale).head?, c ≠ '-' ∧ c ≠ '+' := by
      rwa [List.head?_append, Option.or_of_isSome (List.isSome_head?.2 hne)]
    obtain ⟨whole, fraction, hfixed, hdigits, rfl⟩ := fixed_append hf he.head
    have hnil : ¬ (decide (whole = []) && decide (fraction = [])) := by
      simpa [List.append_eq_nil_iff] using hdigits
    refine ⟨⟨negative, digitsValue (whole ++ fraction), e - fraction.length⟩, ?_, ?_⟩
    · rw [read?_eq, takeSign_append hs hnext]
      simp only [hfixed, if_neg hnil, exponent?_eq_some_iff.2 he, Option.map_some]
    · rw [value, size, div_pow_mul_zpow]
  · rintro ⟨d, hread, rfl⟩
    obtain ⟨sign, heq, hsign⟩ := sign_takeSign cs
    rcases hfixed : fixed (takeSign cs).2 with ⟨whole, fraction, rest⟩
    simp only [read?_eq, hfixed] at hread
    split at hread
    · cases hread
    · next hdigits =>
      obtain ⟨e, he, rfl⟩ := Option.map_eq_some_iff.1 hread
      have hne : whole ++ fraction ≠ [] := by simpa [List.append_eq_nil_iff] using hdigits
      obtain ⟨text, htext, hf⟩ := fixed_sound hfixed hne
      have hspells := Spells.intro hsign hf (exponent?_eq_some_iff.1 he)
      rwa [← htext, ← heq, div_pow_mul_zpow] at hspells

end Decimal
end WordRam.Text
