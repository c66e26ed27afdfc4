import WordRam.Proofs.Assembly.Defects

/-!
# The forms of operands

A token has the form of a register, of an integer, of a name, or none of them, and the forms are
apart but for the names of registers (`Term.NameForm`, `Term.isLabel_iff`). Reading a token tells
which form it has, whether the number in it is in range, and nothing else. Main statement:
`Term.token_forms`.
-/

namespace WordRam

open Text

namespace Term

/-- The letter `r` and the digits of a number. -/
def RegisterForm (token : List Char) (n : Nat) : Prop :=
  ∃ digits, token = 'r' :: digits ∧ Digits digits n

/-- The digits of a number, with a minus sign before them or none. -/
inductive IntegerForm : List Char → Int → Prop
  | nonneg {digits : List Char} {n : Nat} (h : Digits digits n) : IntegerForm digits n
  | neg {digits : List Char} {n : Nat} (h : Digits digits n) : IntegerForm ('-' :: digits) (-n)

/-- Letters, digits and underscores, the first of them no digit. -/
def NameForm (token : List Char) : Prop :=
  ∃ c rest, token = c :: rest ∧ (c.isAlpha ∨ c = '_') ∧ ∀ d ∈ rest, d.isAlphanum ∨ d = '_'

/-- An integer is a word, or is negative and a word in two's complement. -/
def InRange (w : Width) (i : Int) : Prop :=
  -2 ^ (w.bits - 1) ≤ i ∧ i ≤ 2 ^ w.bits - 1

variable {p : Params} {w : Width} {token : List Char} {n : Nat} {i : Int}

theorem registerIndex?_eq_some_iff : registerIndex? token = some n ↔ RegisterForm token n := by
  constructor
  · intro h
    obtain ⟨digits, rfl, hd, rfl⟩ := registerIndex?_eq_some h
    exact ⟨digits, rfl, digits_iff.2 ⟨hd, rfl⟩⟩
  · rintro ⟨digits, rfl, h⟩
    obtain ⟨hd, rfl⟩ := digits_iff.1 h
    exact registerIndex?_register hd

theorem registerIndex?_eq_none_iff :
    registerIndex? token = none ↔ ¬ ∃ n, RegisterForm token n := by
  rw [Option.eq_none_iff_forall_ne_some]
  simp only [ne_eq, registerIndex?_eq_some_iff, not_exists]

theorem integer?_eq_some_iff : integer? token = some i ↔ IntegerForm token i := by
  constructor
  · intro h
    obtain ⟨digits, hd, ⟨rfl, rfl⟩ | ⟨rfl, rfl⟩⟩ := integer?_eq_some h
    · exact .nonneg (digits_iff.2 ⟨hd, rfl⟩)
    · exact .neg (digits_iff.2 ⟨hd, rfl⟩)
  · intro h
    cases h with
    | nonneg h =>
      obtain ⟨hd, rfl⟩ := digits_iff.1 h
      exact integer?_of_isDigits hd
    | neg h =>
      obtain ⟨hd, rfl⟩ := digits_iff.1 h
      exact integer?_negative hd

theorem integer?_eq_none_iff : integer? token = none ↔ ¬ ∃ i, IntegerForm token i := by
  rw [Option.eq_none_iff_forall_ne_some]
  simp only [ne_eq, integer?_eq_some_iff, not_exists]

theorem isLetter_eq (c : Char) : isLetter c = c.isAlpha := by
  rw [Bool.eq_iff_iff]
  simp [isLetter, Char.isAlpha, Char.isUpper, Char.isLower, Char.le_def, or_comm]

theorem isLabel_iff : isLabel token ↔ NameForm token ∧ ¬ ∃ n, RegisterForm token n := by
  rw [← registerIndex?_eq_none_iff]
  cases token with
  | nil => simp [isLabel, NameForm]
  | cons c rest =>
    simp [isLabel, NameForm, isLetter_eq, isDigit_eq, Char.isAlphanum, or_assoc]

theorem startsNumber_of_integerForm (h : IntegerForm token i) : startsNumber token := by
  cases h with
  | nonneg h => exact startsNumber_of_isDigits (digits_iff.1 h).1
  | neg h => rfl

theorem inRange_iff : InRange w i ↔ -(w.half : Int) ≤ i ∧ i ≤ w.mask := by
  have hmask : (w.mask : Int) = w.size - 1 := by
    have := w.size_pos
    unfold Width.mask
    omega
  rw [InRange, Width.natCast_half, hmask, Width.natCast_size]

/-- What a token is read as, by its form and by the number in it. -/
inductive Reads (p : Params) (w : Width) (token : List Char) : Except Defect Term → Prop
  | register {n : Nat} (h : RegisterForm token n) (hn : n < p.registers) :
    Reads p w token (.ok (.reg n))
  | noSuchRegister {n : Nat} (h : RegisterForm token n) (hn : p.registers ≤ n) :
    Reads p w token (.error (.noSuchRegister (min n (2 ^ 64 - 1)) p.registers))
  | immediate {i : Int} {v : Nat} (h : IntegerForm token i) (hi : InRange w i)
    (hv : (v : Int) = i % 2 ^ w.bits) : Reads p w token (.ok (.imm v))
  | immediateRange {i : Int} (h : IntegerForm token i) (hi : ¬ InRange w i) :
    Reads p w token (.error (.immediateRange (String.ofList token) w.bits))
  | label (h : NameForm token) (hr : ¬ ∃ n, RegisterForm token n) :
    Reads p w token (.ok (.label (String.ofList token)))
  | malformed (hr : ¬ ∃ n, RegisterForm token n) (hi : ¬ ∃ i, IntegerForm token i)
    (hl : ¬ NameForm token) : Reads p w token (.error (.malformedOperand (String.ofList token)))

theorem read_of_registerForm (h : RegisterForm token n) : read p w token =
    if n < p.registers then .ok (.reg n)
    else .error (.noSuchRegister (min n (2 ^ 64 - 1)) p.registers) := by
  simp only [read, registerIndex?_eq_some_iff.2 h]

theorem read_of_integerForm (h : IntegerForm token i) : read p w token =
    if -(w.half : Int) ≤ i ∧ i ≤ w.mask then .ok (.imm (w.ofInt i))
    else .error (.immediateRange (String.ofList token) w.bits) :=
  read_eq_of_integer? p w (startsNumber_of_integerForm h) (integer?_eq_some_iff.2 h)

theorem read_of_no_form (hr : ¬ ∃ n, RegisterForm token n) (hi : ¬ ∃ i, IntegerForm token i)
    (hl : ¬ NameForm token) :
    read p w token = .error (.malformedOperand (String.ofList token)) := by
  have hlabel : ¬ isLabel token := fun h => hl (isLabel_iff.1 h).1
  simp only [read, registerIndex?_eq_none_iff.2 hr, readImmediate, integer?_eq_none_iff.2 hi,
    if_neg hlabel, ite_self]

theorem reads_read (p : Params) (w : Width) (token : List Char) :
    Reads p w token (read p w token) := by
  by_cases hr : ∃ n, RegisterForm token n
  · obtain ⟨n, h⟩ := hr
    rw [read_of_registerForm h]
    split
    · exact .register h ‹_›
    · exact .noSuchRegister h (Nat.not_lt.1 ‹_›)
  by_cases hi : ∃ i, IntegerForm token i
  · obtain ⟨i, h⟩ := hi
    rw [read_of_integerForm h]
    split
    · exact .immediate h (inRange_iff.2 ‹_›) (w.natCast_size ▸ w.natCast_ofInt i)
    · exact .immediateRange h (mt inRange_iff.1 ‹_›)
  by_cases hl : NameForm token
  · rw [read_of_isLabel (isLabel_iff.2 ⟨hl, hr⟩)]
    exact .label hl hr
  · rw [read_of_no_form hr hi hl]
    exact .malformed hr hi hl

theorem read_eq_of_reads {r : Except Defect Term} (h : Reads p w token r) : read p w token = r := by
  cases h with
  | register h hn => rw [read_of_registerForm h, if_pos hn]
  | noSuchRegister h hn => rw [read_of_registerForm h, if_neg (Nat.not_lt.2 hn)]
  | @immediate i v h hi hv =>
    have hword := w.natCast_ofInt i
    rw [Width.natCast_size, ← hv] at hword
    rw [read_of_integerForm h, if_pos (inRange_iff.1 hi), Int.ofNat.inj hword]
  | immediateRange h hi => rw [read_of_integerForm h, if_neg (mt inRange_iff.2 hi)]
  | label h hr => exact read_of_isLabel (isLabel_iff.2 ⟨h, hr⟩) p w
  | malformed hr hi hl => exact read_of_no_form hr hi hl

/-- An integer that takes more than 128 bits is out of the range of every width. -/
theorem bounds_of_inRange (h : InRange w i) : -2 ^ 127 ≤ i ∧ i < 2 ^ 127 := by
  obtain ⟨hl, hu⟩ := inRange_iff.1 h
  have hsize := w.size_le
  have hhalf := w.half_le
  have hmask : w.mask ≤ w.size := Nat.sub_le _ _
  omega

/-- How tokens are read as operands, and that numbers of 64 and 128 bits are enough for it. -/
structure TokenForms (p : Params) (w : Width) (token : List Char) : Prop where
  read : ∀ r, Term.read p w token = r ↔ Reads p w token r
  checked : Checked.readTerm p w token = Trial.found (Term.read p w token)
  register_bounded : ∀ digits n, token = 'r' :: digits → Digits digits n →
    (Numeral.read? (2 ^ 64) digits).getD (2 ^ 64 - 1) = min n (2 ^ 64 - 1)
  integer_bounded : ∀ i, IntegerForm token i → InRange w i → -2 ^ 127 ≤ i ∧ i < 2 ^ 127

theorem token_forms (p : Params) (w : Width) (token : List Char) : TokenForms p w token where
  read _ := ⟨fun h => h ▸ reads_read p w token, read_eq_of_reads⟩
  checked := Checked.readTerm_eq p w token
  register_bounded _ _ _ hd := Numeral.getD_read? (Nat.two_pow_pos 64) hd
  integer_bounded _ _ hi := bounds_of_inRange hi

end Term

end WordRam
