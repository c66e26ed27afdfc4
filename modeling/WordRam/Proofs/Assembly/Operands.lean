import WordRam.Proofs.Assembly.Listing

/-!
# The operands of a line of code

`Code.operandTokens` are the operands of a line as they are written. Main statement:
`Program.operands_of_assemble`. In an assembled program each instruction has the operands that the
tokens on its line are read as, with the addresses of labels in the place of their names.
-/

namespace WordRam

open Text

namespace Code

/-- The mnemonic of a text, in the case in which it is written. -/
def mnemonicText (text : List Char) : List Char :=
  (cut isBlank text).1

/-- The operands of a text as they are written. -/
def operandTokens (text : List Char) : List (List Char) :=
  tokens ((cut isBlank text).2.getD [])

variable {p : Params} {w : Width} {text : List Char} {c : Code}

theorem read_eq (p : Params) (w : Width) (text : List Char) :
    Code.read p w text =
      match Opcode.ofMnemonic? (mnemonicText text) with
      | none => .error (.unknownMnemonic (String.ofList (mnemonicText text)))
      | some op =>
        if p.dialect.allows op then
          (readArguments (Term.read p w) op (operandTokens text)).map (⟨op, ·⟩)
        else .error (.notInDialect op p.dialect) := rfl

theorem read_eq_ok : Code.read p w text = .ok c ↔
    Opcode.ofMnemonic? (mnemonicText text) = some c.opcode ∧ p.dialect.allows c.opcode ∧
      readArguments (Term.read p w) c.opcode (operandTokens text) = .ok c.arguments := by
  rw [read_eq]
  constructor
  · intro h
    split at h
    · cases h
    · next op hop =>
      split at h
      · next hallows =>
        obtain ⟨args, hargs, rfl⟩ := map_ok h
        exact ⟨hop, hallows, hargs⟩
      · cases h
  · rintro ⟨hop, hallows, hargs⟩
    simp only [hop, if_pos hallows, hargs]
    rfl

end Code

theorem Draft.Entry.link_ok {w : Width} {labels : Labels} {e : Draft.Entry} {i : Instruction}
    (h : e.link w labels = .ok i) :
    ∃ args, e.code.arguments.mapM (Draft.resolve w labels) = .ok args ∧
      i = Instruction.build e.code.opcode args := by
  obtain ⟨args, hargs, hi⟩ := bind_ok (mapError_ok h)
  cases hi
  exact ⟨args, hargs, rfl⟩

theorem Term.not_startsNumber_of_isLabel {name : List Char} (h : isLabel name) :
    ¬ startsNumber name := by
  match name with
  | [] => cases h
  | c :: rest =>
    simp only [isLabel, isLetter, Bool.and_eq_true, Bool.or_eq_true, decide_eq_true_eq, Char.le_def,
      UInt32.le_iff_toNat_le] at h
    simp only [startsNumber, isDigit, Bool.and_eq_true, Bool.or_eq_true, decide_eq_true_eq,
      Char.le_def, UInt32.le_iff_toNat_le]
    rintro (⟨-, hle⟩ | rfl)
    · obtain (⟨hge, -⟩ | ⟨hge, -⟩) | rfl := h.1.1
      · exact absurd (Nat.le_trans hge hle) (by decide)
      · exact absurd (Nat.le_trans hge hle) (by decide)
      · exact absurd hle (by decide)
    · exact absurd h.1.1 (by decide)

/-- A token that has the form of a label is read as one. -/
theorem Term.read_of_isLabel {name : List Char} (h : isLabel name) (p : Params) (w : Width) :
    Term.read p w name = .ok (.label (String.ofList name)) := by
  have hnone : registerIndex? name = none := by
    match name with
    | [] => rfl
    | c :: rest =>
      simp only [isLabel, Bool.and_eq_true, Option.isNone_iff_eq_none] at h
      exact h.2
  rw [Term.read, hnone]
  simp only [if_neg (not_startsNumber_of_isLabel h), if_pos h]

namespace Program

variable {source : String} {given : Option Params} {p : Program}

theorem operands_of_assemble (h : assemble source given = .ok p) :
    ∃ w, p.params.width = .ok w ∧
      List.Forall₂ (fun line i => List.Forall₂ (fun token o =>
          ∃ t, Term.read p.params w token = .ok t ∧ Draft.resolve w p.labels t = .ok o)
        (Code.operandTokens (codeText line.1)) i.arguments.toList)
        (codeLines (numberedLines source)) p.instructions.toList := by
  obtain ⟨-, w, d, hw, hd, hi, hl, -⟩ := assemble_ok h
  refine ⟨w, hw, ?_⟩
  rw [hl]
  refine forall₂_comp (Draft.reads_of_ofLines hd).entries (array_mapM_ok hi) ?_
  intro line e i he hlink
  obtain ⟨args, hargs, rfl⟩ := Draft.Entry.link_ok hlink
  obtain ⟨-, -, hread⟩ := Code.read_eq_ok.1 he.2
  rw [Instruction.toList_build]
  exact forall₂_comp (Code.readArguments_ok hread) (Arguments.mapM_resolve_ok hargs)
    fun _ t _ ht ho => ⟨t, ht, ho⟩

end Program

end WordRam
