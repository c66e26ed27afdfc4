import WordRam.Proofs.Assembly.Errors

/-!
# Dialects

The first dialect lacks some opcodes of the second, and the assembler looks at nothing else in a
dialect. So adding a line in the first dialect is adding it in the second, unless its opcode is
lacking (`Draft.addLine_v1`), and what is assembled in one dialect is assembled in the other as long
as no opcode is lacking (`Program.assemble_v2`, `Program.assemble_v1`). Otherwise the first line
with such an opcode is refused (`Program.assemble_guarded`).
-/

namespace WordRam

open Text

def Params.withDialect (p : Params) (d : Dialect) : Params :=
  { p with dialect := d }

/-- The same program, assembled for another dialect. -/
def Program.withDialect (p : Program) (d : Dialect) : Program :=
  { p with params := p.params.withDialect d }

theorem Dialect.v2_allows (op : Opcode) : Dialect.v2.allows op := rfl

/-- The opcode of a text that the first dialect lacks. -/
def Code.lacking? (text : List Char) : Option Opcode :=
  (Opcode.ofMnemonic? (mnemonicText text)).filter fun op => !Dialect.v1.allows op

/-- Why the first dialect alone refuses a line. -/
def refusal? (line : List Char × Nat) : Option Diagnostic :=
  if isCode line.1 then
    (Code.lacking? (codeText line.1)).map fun op => ⟨line.2, .notInDialect op .v1⟩
  else none

/-- The instruction at `pc` is the first one in a program that the first dialect lacks. -/
def Program.FirstLacking (q : Program) (pc : Nat) (i : Instruction) : Prop :=
  q.instructions[pc]? = some i ∧ ¬ Dialect.v1.allows i.opcode ∧
    ∀ earlier < pc, ∀ i', q.instructions[earlier]? = some i' → Dialect.v1.allows i'.opcode

/-- A step that is refused if the guard says so. -/
def guarded {ε α β : Type} (guard : α → Option ε) (f : β → α → Except ε β) (b : β) (x : α) :
    Except ε β :=
  match guard x with
  | some e => .error e
  | none => f b x

section
variable {ε α β : Type} {guard : α → Option ε} {f : β → α → Except ε β} {xs : List α} {b b' : β}

/-- With a guard, a pass comes to the same end, or to the first thing that the guard says. -/
theorem foldlM_guarded (h : xs.foldlM f b = .ok b') :
    xs.foldlM (guarded guard f) b = (xs.findSome? guard).elim (.ok b') .error := by
  induction xs generalizing b with
  | nil => exact h
  | cons x xs ih =>
    rw [List.foldlM_cons] at h ⊢
    obtain ⟨c, hc, h⟩ := bind_ok h
    rw [guarded, List.findSome?_cons]
    cases guard x with
    | some e => rfl
    | none => simp only [hc]; exact ih h

/-- A pass that comes to an end in spite of its guard does so without it. -/
theorem foldlM_of_guarded (h : xs.foldlM (guarded guard f) b = .ok b') :
    xs.foldlM f b = .ok b' := by
  induction xs generalizing b with
  | nil => exact h
  | cons x xs ih =>
    rw [List.foldlM_cons] at h ⊢
    obtain ⟨c, hc, h⟩ := bind_ok h
    rw [guarded] at hc
    cases hg : guard x with
    | some e => simp only [hg] at hc; cases hc
    | none => simp only [hg] at hc; rw [hc]; exact ih h

end

theorem Code.read_v1 (p : Params) (w : Width) (text : List Char) :
    Code.read (p.withDialect .v1) w text = match lacking? text with
      | some op => .error (.notInDialect op .v1)
      | none => Code.read (p.withDialect .v2) w text := by
  rw [read_eq, read_eq, lacking?]
  cases Opcode.ofMnemonic? (mnemonicText text) with
  | none => rfl
  | some op =>
    by_cases h : Dialect.v1.allows op
    · simp [Option.filter, h, Params.withDialect, Dialect.v2_allows]
      rfl
    · simp [Option.filter, h, Params.withDialect]

theorem Draft.addLine_v1 (p : Params) (w : Width) :
    addLine (p.withDialect .v1) w = guarded refusal? (addLine (p.withDialect .v2) w) := by
  funext d line
  rw [guarded, refusal?, addLine, addLine, Statement.read_eq, Statement.read_eq]
  by_cases hc : isCode line.1
  · simp only [if_pos hc, Code.read_v1]
    cases Code.lacking? (codeText line.1) with
    | some op => rfl
    | none => rfl
  · simp only [if_neg hc]

namespace Program

variable {source : String} {p : Params} {w : Width} {q : Program}

/-- A program is assembled for the parameters given, and its draft is linked in the same way for
all parameters with that width. -/
theorem draft_of_assemble (h : assemble source (some p) = .ok q) :
    q.params = p ∧ ∃ w d, p.width = .ok w ∧
      Draft.ofLines p w (Text.lines source.toList) = .ok d ∧
      ∀ p', d.link p' w = .ok { q with params := p' } := by
  obtain ⟨hparams, w, d, hw, hd, hi, hl, hlines⟩ := assemble_ok h
  obtain ⟨params, is, labels, lines⟩ := q
  obtain hparams | ⟨hparams, -⟩ := hparams
  · cases hparams
    cases hl
    cases hlines
    refine ⟨rfl, w, d, hw, hd, fun p' => ?_⟩
    have hi' : d.entries.mapM (Draft.Entry.link w d.labels) = pure is := hi
    simp only [Draft.link, hi', pure_bind]
    rfl
  · cases hparams

theorem assemble_given (hw : p.width = .ok w) (source : String) : assemble source (some p) =
    (do (← Draft.ofLines p w (Text.lines source.toList)).link p w) := by
  have hp : ParamsFor source (some p) p := ⟨.inl rfl, w, hw⟩
  obtain ⟨w', hw', h⟩ := assemble_of_paramsFor hp
  cases hw.symm.trans hw'
  exact h

/-- What is assembled in the first dialect is assembled in the second. -/
theorem assemble_v2 (h : assemble source (some (p.withDialect .v1)) = .ok q) :
    assemble source (some (p.withDialect .v2)) = .ok (q.withDialect .v2) := by
  obtain ⟨hparams, w, d, hw, hd, hlink⟩ := draft_of_assemble h
  have hw' : (p.withDialect .v2).width = .ok w := hw
  have hd' : Draft.ofLines (p.withDialect .v2) w (Text.lines source.toList) = .ok d := by
    rw [Draft.ofLines, Draft.addLine_v1] at hd
    exact foldlM_of_guarded hd
  rw [assemble_given hw', hd', withDialect, hparams]
  exact hlink _

/-- Among the lines of code, those are refused whose instructions have opcodes that are lacking. -/
theorem refusal?_of_assemble (h : assemble source (some (p.withDialect .v2)) = .ok q) :
    List.Forall₂ (fun line i => refusal? line =
        if Dialect.v1.allows i.opcode then none else some ⟨line.2, .notInDialect i.opcode .v1⟩)
      (codeLines (numberedLines source)) q.instructions.toList := by
  obtain ⟨-, w, d, -, hd, hi, -⟩ := assemble_ok h
  have hentries := (List.forall₂_and_left _ _).2
    ⟨fun line hm => (List.mem_filter.1 hm).2, (Draft.reads_of_ofLines hd).entries⟩
  refine forall₂_comp hentries (array_mapM_ok hi) ?_
  rintro line entry i ⟨hc, -, hread⟩ hlink
  obtain ⟨args, -, rfl⟩ := Draft.Entry.link_ok hlink
  obtain ⟨hop, -, -⟩ := Code.read_eq_ok.1 hread
  rw [Instruction.opcode_build, refusal?, if_pos hc, Code.lacking?, hop]
  by_cases hallows : Dialect.v1.allows entry.code.opcode
  · simp [Option.filter, hallows]
  · simp [Option.filter, hallows]

/-- What is assembled in the second dialect is assembled in the first, or the first line that the
first dialect refuses is. -/
theorem assemble_guarded (h : assemble source (some (p.withDialect .v2)) = .ok q) :
    assemble source (some (p.withDialect .v1)) =
      ((numberedLines source).findSome? refusal?).elim (.ok (q.withDialect .v1)) .error := by
  obtain ⟨hparams, w, d, hw, hd, hlink⟩ := draft_of_assemble h
  have hw' : (p.withDialect .v1).width = .ok w := hw
  have hd' : Draft.ofLines (p.withDialect .v1) w (Text.lines source.toList) =
      ((numberedLines source).findSome? refusal?).elim (.ok d) .error := by
    rw [Draft.ofLines, Draft.addLine_v1]
    exact foldlM_guarded hd
  rw [assemble_given hw', hd', withDialect, hparams]
  cases (numberedLines source).findSome? refusal? with
  | some e => rfl
  | none => exact hlink _

/-- What is assembled in the second dialect is assembled in the first if that has all opcodes;
otherwise the line of the first instruction that is lacking is refused. -/
theorem assemble_v1 (h : assemble source (some (p.withDialect .v2)) = .ok q) :
    (∀ i ∈ q.instructions, Dialect.v1.allows i.opcode) ∧
        assemble source (some (p.withDialect .v1)) = .ok (q.withDialect .v1) ∨
      ∃ pc i line, q.FirstLacking pc i ∧ q.line? pc = some line ∧
        assemble source (some (p.withDialect .v1)) = .error ⟨line, .notInDialect i.opcode .v1⟩ := by
  have hrefusal := refusal?_of_assemble h
  -- each instruction has its line of code, which is refused if the dialect lacks it
  have hline {k : Nat} {i : Instruction} (hi : q.instructions[k]? = some i) :
      ∃ line, (codeLines (numberedLines source))[k]? = some line ∧
        (refusal? line = none → Dialect.v1.allows i.opcode) := by
    rw [← Array.getElem?_toList] at hi
    obtain ⟨line, hk, hr⟩ := forall₂_getElem? hrefusal.flip hi
    refine ⟨line, hk, fun hnone => ?_⟩
    by_contra hallows
    have hsome : refusal? line = some ⟨line.2, .notInDialect i.opcode .v1⟩ :=
      Eq.trans hr (if_neg hallows)
    cases hnone.symm.trans hsome
  rw [assemble_guarded h]
  cases hf : (numberedLines source).findSome? refusal? with
  | none =>
    refine .inl ⟨fun i hi => ?_, rfl⟩
    obtain ⟨k, hi⟩ := Array.mem_iff_getElem?.1 hi
    obtain ⟨line, hk, hallows⟩ := hline hi
    have hm : line ∈ numberedLines source := (List.mem_filter.1 (List.mem_of_getElem? hk)).1
    exact hallows (List.findSome?_eq_none_iff.1 hf line hm)
  | some e =>
    obtain ⟨before, line, after, heq, hrefused, hbefore⟩ := List.findSome?_eq_some_iff.1 hf
    -- only code is refused, so the line belongs to an instruction
    have hc : isCode line.1 := by
      by_contra hc
      rw [refusal?, if_neg hc] at hrefused
      cases hrefused
    have hcode : codeLines (numberedLines source) =
        codeLines before ++ line :: codeLines after := by
      rw [heq]
      simp [codeLines, hc]
    -- the place of the instruction is the number of lines of code before
    have hpc : (codeLines (numberedLines source))[(codeLines before).length]? = some line := by
      rw [hcode]
      simp
    obtain ⟨i, hi, hr⟩ := forall₂_getElem? hrefusal hpc
    rw [Array.getElem?_toList] at hi
    rw [hrefused] at hr
    by_cases hallows : Dialect.v1.allows i.opcode
    · rw [if_pos hallows] at hr
      cases hr
    · rw [if_neg hallows] at hr
      cases hr
      refine .inr ⟨_, i, line.2, ⟨hi, hallows, fun earlier hlt i' hi' => ?_⟩, ?_, rfl⟩
      · -- what comes earlier stands on a line before, and these are not refused
        obtain ⟨line', hk, hallows'⟩ := hline hi'
        rw [hcode, List.getElem?_append_left hlt] at hk
        exact hallows' (hbefore line' (List.mem_filter.1 (List.mem_of_getElem? hk)).1)
      · rw [(renders_of_assemble h).line, hpc]
        rfl

end Program
end WordRam
