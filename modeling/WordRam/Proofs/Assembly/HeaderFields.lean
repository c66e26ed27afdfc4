import WordRam.Proofs.Assembly.HeaderLine
import WordRam.Proofs.Text.Decimal

/-!
# The fields of a header

A word of a header states a field (`Header.States`), or else something is wrong with it
(`Header.BadWord`). Reading a word tells which it is, and the field or the error
(`Header.Field.read_eq_ok_iff`, `Header.Field.read_eq_error_iff`). What a version stands for is left
to rounding: it is a decimal whose nearest binary number is the number of a dialect
(`Dialect.ofVersion?_eq_some_iff`).
-/

namespace WordRam

open Text

/-- The version number of a dialect. -/
def Dialect.number : Dialect → ℚ
  | .v1 => 1
  | .v2 => 2

/-- No number is near to both versions. -/
theorem not_roundsTo_one_two {q : ℚ} (h1 : RoundsTo q 1) (h2 : RoundsTo q 2) : False := by
  rw [← pow_zero 2, roundsTo_two_pow_iff] at h1
  rw [← pow_one 2, roundsTo_two_pow_iff] at h2
  linarith [h1.2, h2.1]

theorem Dialect.ofVersion?_eq_some_iff {cs : List Char} {d : Dialect} :
    ofVersion? cs = some d ↔ ∃ q, Decimal.Spells cs q ∧ RoundsTo q d.number := by
  have hone (x : Decimal) : x.roundsToTwoPow 0 ↔ RoundsTo x.value 1 := by
    rw [Decimal.roundsToTwoPow_iff, pow_zero]
  have htwo (x : Decimal) : x.roundsToTwoPow 1 ↔ RoundsTo x.value 2 := by
    rw [Decimal.roundsToTwoPow_iff, pow_one]
  simp only [Decimal.spells_iff, ofVersion?]
  constructor
  · intro h
    split at h
    · cases h
    · next x hx =>
      refine ⟨x.value, ⟨x, hx, rfl⟩, ?_⟩
      split at h
      · next h1 =>
        cases h
        exact (hone x).1 h1
      · split at h
        · next h2 =>
          cases h
          exact (htwo x).1 h2
        · cases h
  · rintro ⟨_, ⟨x, hx, rfl⟩, hround⟩
    rw [hx]
    cases d with
    | v1 => simp only [if_pos ((hone x).2 hround)]
    | v2 =>
      -- the test for one comes first, and no number rounds to both
      have h1 : ¬ x.roundsToTwoPow 0 := fun h1 => not_roundsTo_one_two ((hone x).1 h1) hround
      simp only [if_neg h1, if_pos ((htwo x).2 hround)]

theorem MemoryModel.ofTag?_eq_some_iff {cs : List Char} {m : MemoryModel} :
    ofTag? cs = some m ↔ cs = m.tag.toList := by
  constructor
  · intro h
    have htag := List.find?_some h
    exact (of_decide_eq_true htag).symm
  · rintro rfl
    exact ofTag?_tag m

namespace Header

/-- A word that states a field: its letter, an equals sign and a value. -/
inductive States : List Char → Field → Prop
  | version {value : List Char} {q : ℚ} {d : Dialect} (hv : Decimal.Spells value q)
    (hd : RoundsTo q d.number) : States ('V' :: '=' :: value) (.dialect d)
  | memory (m : MemoryModel) : States ('M' :: '=' :: m.tag.toList) (.memory m)
  | wordBits {value : List Char} {n : Nat} (hv : Numeral.Unsigned value n) (hn : n < 2 ^ 32) :
    States ('W' :: '=' :: value) (.wordBits n)
  | registers {value : List Char} {n : Nat} (hv : Numeral.Unsigned value n) (hn : n < 2 ^ 16) :
    States ('K' :: '=' :: value) (.registers n)

/-- What is wrong with a word that states no field. -/
inductive BadWord : List Char → HeaderError → Prop
  | field {word : List Char}
    (h : ∀ (key : HeaderKey) (value : List Char), word ≠ key.letter :: '=' :: value) :
    BadWord word (.field (String.ofList word))
  | version {value : List Char}
    (h : ∀ q, Decimal.Spells value q → ∀ d, ¬ RoundsTo q (Dialect.number d)) :
    BadWord ('V' :: '=' :: value) (.version (String.ofList value))
  | memoryModel {value : List Char} (h : ∀ m : MemoryModel, value ≠ m.tag.toList) :
    BadWord ('M' :: '=' :: value) (.memoryModel (String.ofList value))
  | wordBits {value : List Char} (h : ∀ n, Numeral.Unsigned value n → 2 ^ 32 ≤ n) :
    BadWord ('W' :: '=' :: value) (.field (String.ofList ('W' :: '=' :: value)))
  | registers {value : List Char} (h : ∀ n, Numeral.Unsigned value n → 2 ^ 32 ≤ n) :
    BadWord ('K' :: '=' :: value) (.field (String.ofList ('K' :: '=' :: value)))
  /-- A register count that is a number, but takes more than 16 bits. -/
  | registerCount {value : List Char} {n : Nat} (hv : Numeral.Unsigned value n)
    (hl : 2 ^ 16 ≤ n) (hu : n < 2 ^ 32) : BadWord ('K' :: '=' :: value) (.registers n)

namespace Field

variable {word value : List Char} {f : Field} {e : HeaderError}

theorem read_version (value : List Char) : read ('V' :: '=' :: value) =
    match Dialect.ofVersion? value with
    | some d => .ok (dialect d)
    | none => .error (.version (String.ofList value)) := rfl

theorem read_memory (value : List Char) : read ('M' :: '=' :: value) =
    match MemoryModel.ofTag? value with
    | some m => .ok (memory m)
    | none => .error (.memoryModel (String.ofList value)) := rfl

theorem read_wordBits (value : List Char) : read ('W' :: '=' :: value) =
    match Numeral.read? (2 ^ 32) value with
    | some n => .ok (wordBits n)
    | none => .error (.field (String.ofList ('W' :: '=' :: value))) := rfl

theorem read_registers (value : List Char) : read ('K' :: '=' :: value) =
    match Numeral.read? (2 ^ 32) value with
    | some n => if n < 2 ^ 16 then .ok (registers n) else .error (.registers n)
    | none => .error (.field (String.ofList ('K' :: '=' :: value))) := rfl

theorem read_of_no_key
    (h : ∀ (key : HeaderKey) (value : List Char), word ≠ key.letter :: '=' :: value) :
    read word = .error (.field (String.ofList word)) := by
  have hcut (key : HeaderKey) {value : List Char}
      (hc : cut (· = '=') word = ([key.letter], some value)) : False := by
    obtain ⟨c, hc', heq⟩ := cut_of_some (congrArg Prod.snd hc)
    rw [of_decide_eq_true hc', congrArg Prod.fst hc] at heq
    exact h key value heq
  unfold read
  split
  · next heq => exact (hcut .version heq).elim
  · next heq => exact (hcut .memory heq).elim
  · next heq => exact (hcut .wordBits heq).elim
  · next heq => exact (hcut .registers heq).elim
  · rfl

theorem read_of_states (h : States word f) : read word = .ok f := by
  cases h with
  | version hv hd => simp only [read_version, Dialect.ofVersion?_eq_some_iff.2 ⟨_, hv, hd⟩]
  | memory m => simp only [read_memory, MemoryModel.ofTag?_tag]
  | wordBits hv hn =>
    simp only [read_wordBits, (Numeral.read?_eq_some_iff (Nat.two_pow_pos 32)).2 ⟨hv, hn⟩]
  | registers hv hn =>
    have hlt := Nat.lt_trans hn (show 2 ^ 16 < 2 ^ 32 by decide)
    simp only [read_registers, (Numeral.read?_eq_some_iff (Nat.two_pow_pos 32)).2 ⟨hv, hlt⟩,
      if_pos hn]

theorem read_of_badWord (h : BadWord word e) : read word = .error e := by
  cases h with
  | field h => exact read_of_no_key h
  | @version value h =>
    have hnone : Dialect.ofVersion? value = none :=
      Option.eq_none_iff_forall_ne_some.2 fun d hd => by
        obtain ⟨q, hq, hround⟩ := Dialect.ofVersion?_eq_some_iff.1 hd
        exact h q hq d hround
    simp only [read_version, hnone]
  | @memoryModel value h =>
    have hnone : MemoryModel.ofTag? value = none :=
      Option.eq_none_iff_forall_ne_some.2 fun m hm => h m (MemoryModel.ofTag?_eq_some_iff.1 hm)
    simp only [read_memory, hnone]
  | wordBits h => simp only [read_wordBits, (Numeral.read?_eq_none_iff (Nat.two_pow_pos 32)).2 h]
  | registers h => simp only [read_registers, (Numeral.read?_eq_none_iff (Nat.two_pow_pos 32)).2 h]
  | registerCount hv hl hu =>
    simp only [read_registers, (Numeral.read?_eq_some_iff (Nat.two_pow_pos 32)).2 ⟨hv, hu⟩,
      if_neg (Nat.not_lt.2 hl)]

/-- Every word states a field or has something wrong with it. -/
theorem states_or_badWord (word : List Char) : (∃ f, States word f) ∨ ∃ e, BadWord word e := by
  by_cases hkey : ∃ (key : HeaderKey) (value : List Char), word = key.letter :: '=' :: value
  · obtain ⟨key, value, rfl⟩ := hkey
    cases key with
    | version =>
      by_cases hv : ∃ q d, Decimal.Spells value q ∧ RoundsTo q (Dialect.number d)
      · obtain ⟨q, d, hq, hd⟩ := hv
        exact .inl ⟨_, .version hq hd⟩
      · exact .inr ⟨_, .version fun q hq d hd => hv ⟨q, d, hq, hd⟩⟩
    | memory =>
      by_cases hm : ∃ m : MemoryModel, value = m.tag.toList
      · obtain ⟨m, rfl⟩ := hm
        exact .inl ⟨_, .memory m⟩
      · exact .inr ⟨_, .memoryModel fun m heq => hm ⟨m, heq⟩⟩
    | wordBits =>
      by_cases hn : ∃ n, Numeral.Unsigned value n ∧ n < 2 ^ 32
      · obtain ⟨n, hv, hn⟩ := hn
        exact .inl ⟨_, .wordBits hv hn⟩
      · exact .inr ⟨_, .wordBits fun n hv => Nat.le_of_not_lt fun hlt => hn ⟨n, hv, hlt⟩⟩
    | registers =>
      by_cases hn : ∃ n, Numeral.Unsigned value n ∧ n < 2 ^ 32
      · obtain ⟨n, hv, hn⟩ := hn
        rcases Nat.lt_or_ge n (2 ^ 16) with hfew | hmany
        · exact .inl ⟨_, .registers hv hfew⟩
        · exact .inr ⟨_, .registerCount hv hmany hn⟩
      · exact .inr ⟨_, .registers fun n hv => Nat.le_of_not_lt fun hlt => hn ⟨n, hv, hlt⟩⟩
  · exact .inr ⟨_, .field fun key value heq => hkey ⟨key, value, heq⟩⟩

theorem read_eq_ok_iff : read word = .ok f ↔ States word f := by
  refine ⟨fun h => ?_, read_of_states⟩
  obtain ⟨f', hf⟩ | ⟨e, he⟩ := states_or_badWord word
  · cases (read_of_states hf).symm.trans h
    exact hf
  · cases (read_of_badWord he).symm.trans h

theorem read_eq_error_iff : read word = .error e ↔ BadWord word e := by
  refine ⟨fun h => ?_, read_of_badWord⟩
  obtain ⟨f, hf⟩ | ⟨e', he⟩ := states_or_badWord word
  · cases (read_of_states hf).symm.trans h
  · cases (read_of_badWord he).symm.trans h
    exact he

end Field
end Header
end WordRam
