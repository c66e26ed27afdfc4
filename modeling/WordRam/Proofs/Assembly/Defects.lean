import WordRam.Proofs.Assembly.Faults
import WordRam.Proofs.Assembly.Operands
import WordRam.Proofs.Checked.Assembly
import WordRam.Proofs.Text.Numeral

/-!
# Defects of source text

What can be wrong with a token, with a line and with a reference to a label, in the order in which
it counts where several things are wrong. The defects are stated on the text alone; reading a token,
adding a line to a draft and linking an entry fail with them and with nothing else
(`Term.read_error_iff`, `Draft.Reads.addLine_error_iff`, `Draft.Reads.link_error_iff`).
-/

namespace WordRam

open Text

/-! ### Tokens -/

/-- A token has the form of a register, of an immediate or of a label. -/
def Shaped (token : List Char) : Prop :=
  Term.isLabel token ∨ isDigits token ∨
    ∃ digits, isDigits digits ∧ (token = 'r' :: digits ∨ token = '-' :: digits)

/-- What is wrong with a token as an operand. -/
inductive TokenDefect (p : Params) : List Char → Defect → Prop
  | register {digits : List Char} (hd : isDigits digits) (hn : p.registers ≤ digitsValue digits) :
    TokenDefect p ('r' :: digits)
      (.noSuchRegister (min (digitsValue digits) (2 ^ 64 - 1)) p.registers)
  | number {digits : List Char} (hd : isDigits digits)
    (hv : 2 ^ p.wordBits - 1 < digitsValue digits) :
    TokenDefect p digits (.immediateRange (String.ofList digits) p.wordBits)
  | negative {digits : List Char} (hd : isDigits digits)
    (hv : 2 ^ (p.wordBits - 1) < digitsValue digits) :
    TokenDefect p ('-' :: digits) (.immediateRange (String.ofList ('-' :: digits)) p.wordBits)
  | malformed {token : List Char} (h : ¬ Shaped token) :
    TokenDefect p token (.malformedOperand (String.ofList token))

section
variable {digits token : List Char} {p : Params} {w : Width} {d : Defect}

theorem startsNumber_of_isDigits (h : isDigits digits) : Term.startsNumber digits := by
  match digits with
  | [] => cases h
  | c :: rest => simp [Term.startsNumber, mem_of_isDigits h c List.mem_cons_self]

theorem registerIndex?_register (h : isDigits digits) :
    Term.registerIndex? ('r' :: digits) = some (digitsValue digits) := by
  simp [Term.registerIndex?, h]

/-- What starts like an immediate has not the form of a register. -/
theorem registerIndex?_of_startsNumber (h : Term.startsNumber token) :
    Term.registerIndex? token = none := by
  match token with
  | [] => rfl
  | c :: rest =>
    unfold Term.registerIndex?
    split
    · next heq =>
      cases heq
      exact absurd h (by simp [Term.startsNumber, show isDigit 'r' = false by decide])
    · rfl

theorem integer?_of_isDigits (h : isDigits digits) :
    Term.integer? digits = some (digitsValue digits : Int) := by
  unfold Term.integer?
  split
  · exact absurd (mem_of_isDigits h '-' List.mem_cons_self) (by decide)
  · rw [if_pos h]

theorem integer?_negative (h : isDigits digits) :
    Term.integer? ('-' :: digits) = some (-(digitsValue digits : Int)) := by
  simp [Term.integer?, h]

theorem integer?_eq_some {i : Int} (h : Term.integer? token = some i) :
    ∃ digits, isDigits digits ∧ (token = digits ∧ i = digitsValue digits ∨
      token = '-' :: digits ∧ i = -digitsValue digits) := by
  unfold Term.integer? at h
  split at h
  · next digits =>
    split at h
    · next hd => exact ⟨digits, hd, .inr ⟨rfl, (Option.some.inj h).symm⟩⟩
    · cases h
  · split at h
    · next hd => exact ⟨token, hd, .inl ⟨rfl, (Option.some.inj h).symm⟩⟩
    · cases h

/-- What has none of the forms of an operand cannot be read as any. -/
theorem read_of_not_shaped (h : ¬ Shaped token) (p : Params) (w : Width) :
    Term.read p w token = .error (.malformedOperand (String.ofList token)) := by
  have hregister : Term.registerIndex? token = none := by
    cases hi : Term.registerIndex? token with
    | none => rfl
    | some n =>
      obtain ⟨digits, rfl, hd, -⟩ := Term.registerIndex?_eq_some hi
      exact absurd (.inr (.inr ⟨digits, hd, .inl rfl⟩)) h
  have hinteger : Term.integer? token = none := by
    cases hi : Term.integer? token with
    | none => rfl
    | some i =>
      obtain ⟨digits, hd, ⟨rfl, -⟩ | ⟨rfl, -⟩⟩ := integer?_eq_some hi
      · exact absurd (.inr (.inl hd)) h
      · exact absurd (.inr (.inr ⟨digits, hd, .inr rfl⟩)) h
  have hlabel : ¬ Term.isLabel token := fun hl => h (.inl hl)
  simp only [Term.read, hregister, Term.readImmediate, hinteger, if_neg hlabel, ite_self]

/-- An immediate is read if it is within the range of a word. -/
theorem read_eq_of_integer? (p : Params) (w : Width) (hs : Term.startsNumber token) {i : Int}
    (hi : Term.integer? token = some i) : Term.read p w token =
      if -(w.half : Int) ≤ i ∧ i ≤ w.mask then .ok (.imm (w.ofInt i))
      else .error (.immediateRange (String.ofList token) w.bits) := by
  simp only [Term.read, registerIndex?_of_startsNumber hs, if_pos hs, Term.readImmediate, hi]

theorem read_of_integer? (hw : w.bits = p.wordBits) (hs : Term.startsNumber token) {i : Int}
    (hi : Term.integer? token = some i) : Term.read p w token =
      if -((2 ^ (p.wordBits - 1) : Nat) : Int) ≤ i ∧ i ≤ ((2 ^ p.wordBits - 1 : Nat) : Int) then
        .ok (.imm (w.ofInt i))
      else .error (.immediateRange (String.ofList token) p.wordBits) := by
  have hmask : w.mask = 2 ^ p.wordBits - 1 := by rw [Width.mask, Width.size, hw]
  have hhalf : w.half = 2 ^ (p.wordBits - 1) := by rw [Width.half, hw]
  rw [read_eq_of_integer? p w hs hi, hmask, hhalf, hw]

theorem Term.read_error_iff (hw : w.bits = p.wordBits) :
    Term.read p w token = .error d ↔ TokenDefect p token d := by
  constructor
  · intro h
    -- a token with a shape is refused for its size, any other is malformed
    by_cases hshaped : Shaped token
    · obtain hlabel | hd | ⟨digits, hd, rfl | rfl⟩ := hshaped
      · rw [read_of_isLabel hlabel] at h
        cases h
      · rw [read_of_integer? hw (startsNumber_of_isDigits hd) (integer?_of_isDigits hd)] at h
        split at h
        · cases h
        · next hrange =>
          cases h
          have hpos : 0 < 2 ^ (p.wordBits - 1) := Nat.two_pow_pos _
          exact .number hd (by omega)
      · simp only [read, registerIndex?_register hd] at h
        split at h
        · cases h
        · next hn =>
          cases h
          exact .register hd (Nat.not_lt.1 hn)
      · rw [read_of_integer? hw rfl (integer?_negative hd)] at h
        split at h
        · cases h
        · next hrange =>
          cases h
          exact .negative hd (by omega)
    · rw [read_of_not_shaped hshaped] at h
      cases h
      exact .malformed hshaped
  · intro h
    cases h with
    | register hd hn => simp only [read, registerIndex?_register hd, if_neg (Nat.not_lt.2 hn)]
    | number hd hv =>
      rw [read_of_integer? hw (startsNumber_of_isDigits hd) (integer?_of_isDigits hd), if_neg]
      omega
    | negative hd hv =>
      rw [read_of_integer? hw rfl (integer?_negative hd), if_neg]
      omega
    | malformed h => exact read_of_not_shaped h p w

/-- What is read as a register, an immediate or a label has the form of one. -/
theorem Term.read_ok {t : Term} (h : Term.read p w token = .ok t) :
    (∃ n, registerIndex? token = some n ∧ t = .reg n) ∨
    (registerIndex? token = none ∧ ∃ v, t = .imm v) ∨
    (registerIndex? token = none ∧ isLabel token ∧ t = .label (String.ofList token)) := by
  unfold Term.read at h
  split at h
  · next n hn =>
    split at h
    · cases h; exact .inl ⟨n, hn, rfl⟩
    · cases h
  · next hn =>
    split at h
    · unfold readImmediate at h
      split at h
      · cases h
      · split at h
        · cases h; exact .inr (.inl ⟨hn, _, rfl⟩)
        · cases h
    · split at h
      · next hl => cases h; exact .inr (.inr ⟨hn, hl, rfl⟩)
      · cases h

end

/-! ### Operands -/

/-- A token without the form of a register stands in a place that only registers may take. -/
def RegisterDefect (tokens : List (List Char)) (place : Nat) (d : Defect) : Prop :=
  ∃ token, tokens[place]? = some token ∧ Term.registerIndex? token = none ∧
    d = .expectedRegister (String.ofList token)

/-- What is wrong with the operands of an opcode. Their number counts first, then each of them, and
then where registers stand. -/
inductive OperandDefect (p : Params) (op : Opcode) (tokens : List (List Char)) : Defect → Prop
  | count (hc : tokens.length ≠ op.shape.arity) :
    OperandDefect p op tokens (.operandCount op tokens.length)
  | token {d : Defect} (hc : tokens.length = op.shape.arity)
    (h : FirstFault (fun _ => TokenDefect p) tokens d) : OperandDefect p op tokens d
  | register {d : Defect} (hc : tokens.length = op.shape.arity)
    (hclean : Clean (fun _ => TokenDefect p) tokens)
    (h : FirstFault (fun _ => RegisterDefect tokens) op.shape.registerPlaces d) :
    OperandDefect p op tokens d

theorem Trial.mapM_found {ε α β : Type} (f : α → Except ε β) (xs : List α) :
    xs.mapM (fun x => found (f x)) = found (xs.mapM f) := by
  induction xs with
  | nil => rfl
  | cons x xs ih =>
    rw [List.mapM_cons, List.mapM_cons, ih]
    cases f x with
    | error e => rfl
    | ok y => cases xs.mapM f <;> rfl

theorem Trial.found_eq_error {ε α : Type} {x : Except ε α} {e : ε} :
    found x = .error (.inr e) ↔ x = .error e := by
  cases x <;> simp [found]

theorem Trial.found_eq_ok {ε α : Type} {x : Except ε α} {a : α} : found x = .ok a ↔ x = .ok a := by
  cases x <;> simp [found]

theorem Trial.Agrees.error_iff {ε α β : Type} {R : α → β → Prop} {x : Trial ε α} {y : Except ε β}
    (h : Agrees R x y) {e : ε} : y = .error e ↔ x = .error (.inr e) := by
  cases h <;> simp

theorem Shape.lt_arity_of_mem_registerPlaces {s : Shape} {i : Nat} (h : i ∈ s.registerPlaces) :
    i < s.arity := by
  cases s <;> simp [registerPlaces] at h <;> simp [arity] <;> omega

section
variable {p : Params} {w : Width} {op : Opcode} {tokens : List (List Char)} {terms : List Term}
variable {d : Defect}

/-- Where a token has been read, its place is checked by the form of the token. -/
theorem Checked.checkRegister_error_iff
    (h : List.Forall₂ (fun token t => Term.read p w token = .ok t) tokens terms) {i : Nat}
    (hi : i < tokens.length) (e : Crash ⊕ Defect) :
    checkRegister tokens.toArray terms.toArray i = .error e ↔
      ∃ d, RegisterDefect tokens i d ∧ Sum.inr d = e := by
  have htoken : tokens[i]? = some tokens[i] := List.getElem?_eq_getElem hi
  obtain ⟨t, ht, hread⟩ := forall₂_getElem? h htoken
  have hdefect : (∃ d, RegisterDefect tokens i d ∧ Sum.inr d = e) ↔
      Term.registerIndex? tokens[i] = none ∧
        .inr (.expectedRegister (String.ofList tokens[i])) = e := by
    simp [RegisterDefect, htoken]
  rw [hdefect, checkRegister, index, index, List.getElem?_toArray, List.getElem?_toArray, ht,
    htoken]
  obtain ⟨n, hn, rfl⟩ | ⟨hn, v, rfl⟩ | ⟨hn, -, rfl⟩ := Term.read_ok hread
  · rw [hn]
    constructor
    · intro h
      cases h
    · rintro ⟨h, -⟩
      cases h
  · rw [hn]
    exact ⟨fun h => ⟨rfl, Except.error.inj h⟩, fun h => congrArg _ h.2⟩
  · rw [hn]
    exact ⟨fun h => ⟨rfl, Except.error.inj h⟩, fun h => congrArg _ h.2⟩

/-- After all tokens have been read, the places of registers are checked. -/
theorem Checked.checkRegisters_error_iff (hc : tokens.length = op.shape.arity)
    (h : tokens.mapM (Term.read p w) = .ok terms) :
    (do op.shape.registerPlaces.forM (checkRegister tokens.toArray terms.toArray); return terms) =
        (.error (.inr d) : Trial Defect (List Term)) ↔
      FirstFault (fun _ => RegisterDefect tokens) op.shape.registerPlaces d := by
  have hplaces : op.shape.registerPlaces.forM (checkRegister tokens.toArray terms.toArray) =
      .error (.inr d) ↔ FirstFault (fun _ => RegisterDefect tokens) op.shape.registerPlaces d :=
    forM_error_iff.trans <| firstFault_image Sum.inr_injective fun i hi =>
      checkRegister_error_iff (mapM_ok h) (hc ▸ Shape.lt_arity_of_mem_registerPlaces hi)
  rw [bind_error_iff, hplaces]
  constructor
  · rintro (h | ⟨_, -, h⟩)
    · exact h
    · cases h
  · exact .inl

theorem Checked.readTerms_error_iff (hw : w.bits = p.wordBits) :
    readTerms (fun token => Trial.found (Term.read p w token)) op tokens = .error (.inr d) ↔
      OperandDefect p op tokens d := by
  have hread (d : Defect) : tokens.mapM (Term.read p w) = .error d ↔
      FirstFault (fun _ => TokenDefect p) tokens d := by
    simp only [mapM_error_iff, Term.read_error_iff hw]
  unfold readTerms
  -- the number of tokens is looked at first, then each token, then the registers
  by_cases hc : tokens.length = op.shape.arity
  · rw [if_neg (not_not.2 hc), Trial.mapM_found, bind_error_iff, Trial.found_eq_error, hread]
    simp only [Trial.found_eq_ok]
    constructor
    · rintro (h | ⟨terms, hterms, h⟩)
      · exact .token hc h
      · have hclean : Clean (fun _ => TokenDefect p) tokens :=
          clean_iff.2 fun d hd => nomatch hterms.symm.trans ((hread d).2 hd)
        exact .register hc hclean ((checkRegisters_error_iff hc hterms).1 h)
    · intro h
      cases h with
      | count hc' => exact absurd hc hc'
      | token _ h => exact .inl h
      | register _ hclean h =>
        -- registers are only looked at once all tokens have been read
        obtain ⟨terms, hterms⟩ : ∃ terms, tokens.mapM (Term.read p w) = .ok terms :=
          forall_ne_error.1 fun d hd => clean_iff.1 hclean d ((hread d).1 hd)
        exact .inr ⟨terms, hterms, (checkRegisters_error_iff hc hterms).2 h⟩
  · rw [if_pos hc]
    constructor
    · rintro ⟨⟩
      exact .count hc
    · intro h
      cases h with
      | count => rfl
      | token hc' => exact absurd hc' hc
      | register hc' => exact absurd hc' hc

theorem Code.readArguments_error_iff (hw : w.bits = p.wordBits) :
    readArguments (Term.read p w) op tokens = .error d ↔ OperandDefect p op tokens d :=
  (Checked.readTerms_agrees _ _ _).error_iff.trans (Checked.readTerms_error_iff hw)

end

/-! ### Lines -/

/-- What is wrong with a line of code. The mnemonic counts first, and whether the dialect has the
opcode counts before its operands. -/
inductive CodeDefect (p : Params) (text : List Char) : Defect → Prop
  | mnemonic (h : Opcode.ofMnemonic? (Code.mnemonicText text) = none) :
    CodeDefect p text (.unknownMnemonic (String.ofList (Code.mnemonicText text)))
  | dialect {op : Opcode} (h : Opcode.ofMnemonic? (Code.mnemonicText text) = some op)
    (hd : ¬ p.dialect.allows op) : CodeDefect p text (.notInDialect op p.dialect)
  | operands {op : Opcode} {d : Defect}
    (h : Opcode.ofMnemonic? (Code.mnemonicText text) = some op) (hd : p.dialect.allows op)
    (ho : OperandDefect p op (Code.operandTokens text) d) : CodeDefect p text d

/-- What is wrong with a line that comes after others. -/
inductive LineDefect (p : Params) (before : List (List Char × Nat)) (line : List Char) :
    Defect → Prop
  | malformedLabel (h : definesLabel line) (hn : ¬ Term.isLabel (labelText line)) :
    LineDefect p before line (.malformedLabel (String.ofList (labelText line)))
  | duplicateLabel {first : Label} (h : definesLabel line) (hn : Term.isLabel (labelText line))
    (hf : first ∈ definedLabels before) (he : first.name = String.ofList (labelText line)) :
    LineDefect p before line (.duplicateLabel first.name first.line)
  | code {d : Defect} (h : isCode line) (hd : CodeDefect p (codeText line) d) :
    LineDefect p before line d

section
variable {p : Params} {before : List (List Char × Nat)} {line : List Char} {d : Defect}

theorem lineDefect_of_isCode (hc : isCode line) :
    LineDefect p before line d ↔ CodeDefect p (codeText line) d := by
  have hd := not_definesLabel_of_isCode hc
  constructor
  · intro h
    cases h with
    | malformedLabel h => exact absurd h hd
    | duplicateLabel h => exact absurd h hd
    | code _ h => exact h
  · exact .code hc

theorem lineDefect_of_malformed (hd : definesLabel line) (hl : ¬ Term.isLabel (labelText line)) :
    LineDefect p before line d ↔ .malformedLabel (String.ofList (labelText line)) = d := by
  constructor
  · intro h
    cases h with
    | malformedLabel => rfl
    | duplicateLabel _ hn => exact absurd hn hl
    | code hc => exact absurd hd (not_definesLabel_of_isCode hc)
  · rintro rfl
    exact .malformedLabel hd hl

theorem lineDefect_of_isLabel (hd : definesLabel line) (hl : Term.isLabel (labelText line)) :
    LineDefect p before line d ↔ ∃ first ∈ definedLabels before,
      first.name = String.ofList (labelText line) ∧ .duplicateLabel first.name first.line = d := by
  constructor
  · intro h
    cases h with
    | malformedLabel _ hn => exact absurd hl hn
    | duplicateLabel _ _ hf he => exact ⟨_, hf, he, rfl⟩
    | code hc => exact absurd hd (not_definesLabel_of_isCode hc)
  · rintro ⟨first, hf, he, rfl⟩
    exact .duplicateLabel hd hl hf he

theorem not_lineDefect (hc : ¬ isCode line) (hd : ¬ definesLabel line) :
    ¬ LineDefect p before line d := by
  intro h
  cases h with
  | malformedLabel h => exact hd h
  | duplicateLabel h => exact hd h
  | code h => exact hc h

end

section
variable {p : Params} {w : Width} {text : List Char} {d : Defect}
variable {seen : List (List Char × Nat)} {line : List Char × Nat} {draft : Draft}

theorem Code.read_error_iff (hw : w.bits = p.wordBits) :
    Code.read p w text = .error d ↔ CodeDefect p text d := by
  rw [read_eq]
  constructor
  · intro h
    split at h
    · next hop => cases h; exact .mnemonic hop
    · next op hop =>
      split at h
      · next hd => exact .operands hop hd ((readArguments_error_iff hw).1 (map_error h))
      · next hd => cases h; exact .dialect hop hd
  · intro h
    cases h with
    | mnemonic hop => simp only [hop]
    | dialect hop hd => simp only [hop, if_neg hd]
    | operands hop hd ho => simp only [hop, if_pos hd, (readArguments_error_iff hw).2 ho]; rfl

namespace Draft.Reads

/-- The labels of a draft are found among those that its lines define. -/
theorem find?_eq_some_iff (h : draft.Reads p w seen) {name : String} {l : Label} :
    draft.labels.find? name = some l ↔ l ∈ definedLabels seen ∧ l.name = name := by
  rw [Program.find?_eq_some_iff h.names, ← h.labels, Array.mem_toList_iff]

theorem add_label_error_iff (h : draft.Reads p w seen) {name : String} {n : Nat} :
    draft.add n (.label name) = .error d ↔ ∃ first ∈ definedLabels seen,
      first.name = name ∧ .duplicateLabel first.name first.line = d := by
  have hadd : draft.add n (.label name) = .error d ↔
      ∃ first, draft.labels.find? name = some first ∧ .duplicateLabel name first.line = d := by
    simp only [Draft.add]
    cases draft.labels.find? name <;> simp
  rw [hadd]
  constructor
  · rintro ⟨first, hf, rfl⟩
    obtain ⟨hm, rfl⟩ := h.find?_eq_some_iff.1 hf
    exact ⟨first, hm, rfl, rfl⟩
  · rintro ⟨first, hm, rfl, rfl⟩
    exact ⟨first, h.find?_eq_some_iff.2 ⟨hm, rfl⟩, rfl⟩

theorem add_read_error_iff (hw : w.bits = p.wordBits) (h : draft.Reads p w seen) {n : Nat}
    {line : List Char} : (do draft.add n (← Statement.read p w line)) = .error d ↔
      LineDefect p seen line d := by
  rw [Statement.read_eq]
  by_cases hc : isCode line
  · rw [if_pos hc, lineDefect_of_isCode hc, ← Code.read_error_iff hw]
    have hadd (c : Code) : draft.add n (.code c) =
        pure { draft with entries := draft.entries.push ⟨n, c⟩ } := rfl
    simp only [bind_assoc, pure_bind, hadd, bind_pure_error_iff]
  · rw [if_neg hc]
    by_cases hd : definesLabel line
    · rw [if_pos hd]
      by_cases hl : Term.isLabel (labelText line)
      · rw [if_pos hl, lineDefect_of_isLabel hd hl]
        exact h.add_label_error_iff
      · rw [if_neg hl, lineDefect_of_malformed hd hl]
        exact ⟨fun h => Except.error.inj h, fun h => congrArg Except.error h⟩
    · rw [if_neg hd]
      exact ⟨nofun, fun h => absurd h (not_lineDefect hc hd)⟩

/-- A line that is added to a draft is refused for what is wrong with it. -/
theorem addLine_error_iff (hw : w.bits = p.wordBits) (h : draft.Reads p w seen) {e : Diagnostic} :
    draft.addLine p w line = .error e ↔ e.line = line.2 ∧ LineDefect p seen line.1 e.defect := by
  obtain ⟨n, d⟩ := e
  simp only [Draft.addLine, mapError_eq_error, h.add_read_error_iff hw, Diagnostic.mk.injEq]
  constructor
  · rintro ⟨d, h, rfl, rfl⟩
    exact ⟨rfl, h⟩
  · rintro ⟨rfl, h⟩
    exact ⟨d, h, rfl, rfl⟩

end Draft.Reads

end

/-! ### References -/

/-- What is wrong with a token as a reference to one of some labels. -/
inductive ReferenceDefect (p : Params) (labels : List Label) (token : List Char) : Defect → Prop
  | undefined (hn : Term.isLabel token) (hu : ∀ l ∈ labels, l.name ≠ String.ofList token) :
    ReferenceDefect p labels token (.undefinedLabel (String.ofList token))
  | range {l : Label} (hn : Term.isLabel token) (hl : l ∈ labels)
    (he : l.name = String.ofList token) (ha : 2 ^ p.wordBits - 1 < l.address) :
    ReferenceDefect p labels token (.labelRange l.name l.address p.wordBits)

section
variable {p : Params} {w : Width} {d : Defect} {token : List Char} {t : Term}

/-- The operand that is not in the place of a register decides whether all are resolved. -/
theorem Arguments.mapM_resolve_error_iff {labels : Labels} {s : Shape} {args : Arguments Term s} :
    args.mapM (Draft.resolve w labels) = .error d ↔
      FirstFault (fun _ t d => Draft.resolve w labels t = .error d) args.terms d := by
  have hreg (r : Reg) (d : Defect) : ¬ Draft.resolve w labels (.reg r) = .error d := nofun
  cases args <;>
    simp only [Arguments.mapM, Arguments.terms, firstFault_cons, hreg, bind_pure_error_iff,
      not_firstFault_nil, not_false_eq_true, implies_true, true_and, false_or, and_false, or_false]

namespace Draft.Reads

variable {seen : List (List Char × Nat)} {draft : Draft}

theorem resolve_label_error_iff (hw : w.bits = p.wordBits) (h : draft.Reads p w seen)
    (hl : Term.isLabel token) : resolve w draft.labels (.label (String.ofList token)) = .error d ↔
      ReferenceDefect p (definedLabels seen) token d := by
  have hmask : w.mask = 2 ^ p.wordBits - 1 := by rw [Width.mask, Width.size, hw]
  simp only [resolve, hmask, hw]
  constructor
  · intro hr
    split at hr
    · next hnone =>
      cases hr
      refine .undefined hl fun l hm hname => ?_
      cases hnone.symm.trans (h.find?_eq_some_iff.2 ⟨hm, hname⟩)
    · next l hsome =>
      obtain ⟨hm, hname⟩ := h.find?_eq_some_iff.1 hsome
      split at hr
      · cases hr
      · next ha =>
        cases hr
        rw [← hname]
        exact .range hl hm hname (Nat.not_le.1 ha)
  · intro hr
    cases hr with
    | undefined _ hu =>
      cases hf : draft.labels.find? (String.ofList token) with
      | none => rfl
      | some l =>
        obtain ⟨hm, hname⟩ := h.find?_eq_some_iff.1 hf
        exact absurd hname (hu l hm)
    | range _ hm hname ha =>
      rw [h.find?_eq_some_iff.2 ⟨hm, hname⟩]
      simp only [if_neg (Nat.not_le.2 ha), hname]

theorem resolve_error_iff (hw : w.bits = p.wordBits) (h : draft.Reads p w seen)
    (hr : Term.read p w token = .ok t) : resolve w draft.labels t = .error d ↔
      ReferenceDefect p (definedLabels seen) token d := by
  by_cases hl : Term.isLabel token
  · cases (Term.read_of_isLabel hl p w).symm.trans hr
    exact h.resolve_label_error_iff hw hl
  · have hnone : ¬ ReferenceDefect p (definedLabels seen) token d := by
      intro hd
      cases hd with
      | undefined hn => exact hl hn
      | range hn => exact hl hn
    obtain ⟨n, -, rfl⟩ | ⟨-, v, rfl⟩ | ⟨-, hn, -⟩ := Term.read_ok hr
    · exact ⟨nofun, fun hd => absurd hd hnone⟩
    · exact ⟨nofun, fun hd => absurd hd hnone⟩
    · exact absurd hn hl

/-- An entry for a line of code is refused for the first of its operands that refers to no label, or
to one out of range. -/
theorem link_error_iff (hw : w.bits = p.wordBits) (h : draft.Reads p w seen)
    {entry : Draft.Entry} {line : List Char × Nat} (hline : entry.line = line.2)
    (hread : Code.read p w (codeText line.1) = .ok entry.code) {e : Diagnostic} :
    entry.link w draft.labels = .error e ↔ e.line = line.2 ∧
      FirstFault (fun _ => ReferenceDefect p (definedLabels seen))
        (Code.operandTokens (codeText line.1)) e.defect := by
  obtain ⟨-, -, hargs⟩ := Code.read_eq_ok.1 hread
  have htokens (d : Defect) : FirstFault (fun _ => ReferenceDefect p (definedLabels seen))
      (Code.operandTokens (codeText line.1)) d ↔
        entry.code.arguments.mapM (resolve w draft.labels) = .error d := by
    rw [Arguments.mapM_resolve_error_iff]
    exact firstFault_of_forall₂ (Code.readArguments_ok hargs)
      fun token t hr d => (h.resolve_error_iff hw hr).symm
  obtain ⟨n, d⟩ := e
  simp only [Entry.link, mapError_eq_error, bind_pure_error_iff, htokens, Diagnostic.mk.injEq,
    hline]
  constructor
  · rintro ⟨d, hd, rfl, rfl⟩
    exact ⟨rfl, hd⟩
  · rintro ⟨rfl, hd⟩
    exact ⟨d, hd, rfl, rfl⟩

end Draft.Reads

end

end WordRam
