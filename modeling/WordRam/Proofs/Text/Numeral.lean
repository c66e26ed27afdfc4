import WordRam.Text.Numeral

/-!
# Numerals of numbers

The decimal digits of a number are read back as the number, with a bound (`Numeral.read?_toDigits`)
or without one (`digitsValue_toDigits`). What is read below a bound is digits, after a plus sign or
none, that denote a number below it, and nothing else (`Numeral.read?_eq_some_iff`).
-/

namespace WordRam.Text

variable {n bound : Nat} {c : Char} {cs : List Char}

theorem isDigit_eq (c : Char) : isDigit c = c.isDigit := by
  simp only [isDigit, Char.isDigit, Char.le_def, ge_iff_le]

theorem isDigit_of_mem_toDigits (h : c ∈ Nat.toDigits 10 n) : isDigit c := by
  rw [isDigit_eq]
  exact Nat.isDigit_of_mem_toDigits (by decide) (by decide) h

theorem isDigits_toDigits (n : Nat) : isDigits (Nat.toDigits 10 n) := by
  have hall : (Nat.toDigits 10 n).all isDigit :=
    List.all_eq_true.2 fun _ hc => isDigit_of_mem_toDigits hc
  simp [isDigits, Nat.toDigits_ne_nil, hall]

theorem digitsValue_toDigits (n : Nat) : digitsValue (Nat.toDigits 10 n) = n :=
  Nat.ofDigitChars_ten_toDigits

/-- Digits, at least one of them, and the number that they denote. -/
structure Digits (cs : List Char) (n : Nat) : Prop where
  ne_nil : cs ≠ []
  digit : ∀ c ∈ cs, c.isDigit
  value : Nat.ofDigitChars 10 cs 0 = n

theorem digits_iff : Digits cs n ↔ isDigits cs ∧ digitsValue cs = n := by
  simp only [isDigits, Bool.and_eq_true, decide_eq_true_eq, List.all_eq_true, isDigit_eq]
  exact ⟨fun h => ⟨⟨h.ne_nil, h.digit⟩, h.value⟩, fun h => ⟨h.1.1, h.1.2, h.2⟩⟩

theorem mem_of_isDigits (h : isDigits cs) : ∀ c ∈ cs, isDigit c := by
  simp only [isDigits, Bool.and_eq_true] at h
  exact List.all_eq_true.1 h.2

theorem digits_digitsValue (hne : cs ≠ []) (h : ∀ c ∈ cs, isDigit c) :
    Digits cs (digitsValue cs) :=
  ⟨hne, fun c hc => isDigit_eq c ▸ h c hc, rfl⟩

theorem Digits.unique {m : Nat} (hm : Digits cs m) (hn : Digits cs n) : m = n :=
  hm.value.symm.trans hn.value

namespace Numeral

theorem le_foldl_digits (m : Nat) (cs : List Char) :
    m ≤ cs.foldl (fun n c => 10 * n + digitValue c) m := by
  induction cs generalizing m with
  | nil => exact Nat.le_refl m
  | cons c cs ih =>
    have hle : m ≤ 10 * m + digitValue c := by omega
    exact Nat.le_trans hle (ih _)

/-- Digits stay below a bound as long as the number they denote in the end is below it. -/
theorem foldlM_push (hdigits : ∀ c ∈ cs, isDigit c) {m : Nat}
    (h : cs.foldl (fun n c => 10 * n + digitValue c) m < bound) :
    cs.foldlM (push bound) m = .ok (cs.foldl (fun n c => 10 * n + digitValue c) m) := by
  induction cs generalizing m with
  | nil => rfl
  | cons c cs ih =>
    have hlt : 10 * m + digitValue c < bound := Nat.lt_of_le_of_lt (le_foldl_digits _ cs) h
    have hpush : push bound m c = .ok (10 * m + digitValue c) := by
      rw [push, if_pos (hdigits c List.mem_cons_self)]
      exact if_pos hlt
    rw [List.foldlM_cons, hpush]
    exact ih (fun c hc => hdigits c (List.mem_cons_of_mem _ hc)) h

/-- What has stayed below a bound is digits. -/
theorem foldlM_push_ok {m : Nat} (h : cs.foldlM (push bound) m = .ok n) :
    (∀ c ∈ cs, isDigit c) ∧ cs.foldl (fun n c => 10 * n + digitValue c) m = n ∧
      (m < bound → n < bound) := by
  induction cs generalizing m with
  | nil =>
    cases h
    exact ⟨nofun, rfl, id⟩
  | cons c cs ih =>
    rw [List.foldlM_cons, push] at h
    split at h
    · next hc =>
      dsimp only at h
      split at h
      · next hlt =>
        obtain ⟨hdigits, hvalue, hbound⟩ := ih h
        exact ⟨List.forall_mem_cons.2 ⟨hc, hdigits⟩, hvalue, fun _ => hbound hlt⟩
      · cases h
    · cases h

/-- Digits, with a plus sign before them or none. -/
inductive Unsigned : List Char → Nat → Prop
  | bare {digits : List Char} {n : Nat} (h : Digits digits n) : Unsigned digits n
  | plus {digits : List Char} {n : Nat} (h : Digits digits n) : Unsigned ('+' :: digits) n

theorem not_digits_plus (digits : List Char) : ¬ Digits ('+' :: digits) n := fun h =>
  absurd (h.digit '+' List.mem_cons_self) (by decide)

theorem unsigned_plus_iff {digits : List Char} : Unsigned ('+' :: digits) n ↔ Digits digits n := by
  constructor
  · intro h
    cases h with
    | bare h => exact absurd h (not_digits_plus digits)
    | plus h => exact h
  · exact .plus

theorem unsigned_iff_digits (h : ∀ digits, cs ≠ '+' :: digits) : Unsigned cs n ↔ Digits cs n := by
  constructor
  · intro hu
    cases hu with
    | bare hd => exact hd
    | plus hd => exact absurd rfl (h _)
  · exact .bare

theorem Unsigned.unique {m : Nat} (hm : Unsigned cs m) (hn : Unsigned cs n) : m = n := by
  cases hm with
  | bare hm =>
    cases hn with
    | bare hn => exact hm.unique hn
    | plus _ => exact absurd hm (not_digits_plus _)
  | plus hm => exact hm.unique (unsigned_plus_iff.1 hn)

theorem foldlM_push_eq_some_iff (hne : cs ≠ []) (hpos : 0 < bound) :
    (cs.foldlM (push bound) 0).toOption = some n ↔ Digits cs n ∧ n < bound := by
  constructor
  · intro h
    cases hfold : cs.foldlM (push bound) 0 with
    | error e => rw [hfold] at h; cases h
    | ok m =>
      rw [hfold] at h
      cases h
      obtain ⟨hdigits, hvalue, hlt⟩ := foldlM_push_ok hfold
      exact ⟨⟨hne, fun c hc => isDigit_eq c ▸ hdigits c hc, hvalue⟩, hlt hpos⟩
  · rintro ⟨hdigits, hlt⟩
    have hfold := foldlM_push (fun c hc => (isDigit_eq c).symm ▸ hdigits.digit c hc)
      (hdigits.value.symm ▸ hlt)
    rw [hfold]
    exact congrArg some hdigits.value

theorem read?_eq_some_iff (hpos : 0 < bound) :
    read? bound cs = some n ↔ Unsigned cs n ∧ n < bound := by
  unfold read? read
  split
  · have hnone : ¬ Unsigned [] n := fun h => by
      cases h with
      | bare h => exact h.ne_nil rfl
    exact iff_of_false nofun fun h => hnone h.1
  · exact iff_of_false nofun fun h => (unsigned_plus_iff.1 h.1).ne_nil rfl
  · next digits hne =>
    rw [unsigned_plus_iff, foldlM_push_eq_some_iff (fun hnil => hne (by rw [hnil])) hpos]
  · next hnil hplus hsign =>
    rw [unsigned_iff_digits hsign, foldlM_push_eq_some_iff hnil hpos]

theorem read?_eq_none_iff (hpos : 0 < bound) :
    read? bound cs = none ↔ ∀ n, Unsigned cs n → bound ≤ n := by
  simp only [Option.eq_none_iff_forall_ne_some, ne_eq, read?_eq_some_iff hpos, not_and, Nat.not_lt]

/-- A number that is not below the bound counts as the largest that is. -/
theorem getD_read? (hpos : 0 < bound) (h : Digits cs n) :
    (read? bound cs).getD (bound - 1) = min n (bound - 1) := by
  cases hread : read? bound cs with
  | none =>
    have hle := (read?_eq_none_iff hpos).1 hread n (.bare h)
    rw [Option.getD_none]
    omega
  | some m =>
    obtain ⟨hm, hlt⟩ := (read?_eq_some_iff hpos).1 hread
    cases hm.unique (.bare h)
    rw [Option.getD_some]
    omega

theorem read?_toDigits (h : n < bound) : read? bound (Nat.toDigits 10 n) = some n := by
  have hpos : 0 < bound := Nat.zero_lt_of_lt h
  have hdigits := digits_iff.2 ⟨isDigits_toDigits n, digitsValue_toDigits n⟩
  exact (read?_eq_some_iff hpos).2 ⟨.bare hdigits, h⟩

end Numeral

end WordRam.Text
