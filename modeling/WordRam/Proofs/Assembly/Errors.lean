import WordRam.Proofs.Assembly.Defects

/-!
# What is wrong with a source text

A source text that is no program has bad parameters, or else a bad line, or else a bad reference,
and the first of these that is found is what is reported (`Program.assemble_error_iff`). What is bad
is stated on the text, and no pass over it is mentioned.
-/

namespace WordRam

open Text

namespace Program

/-- What is wrong with the header of a source text. -/
inductive BadHeader (lines : List (List Char)) : Diagnostic → Prop
  | absent (h : firstLine? lines = none) : BadHeader lines ⟨0, .missingHeader⟩
  | missing {line : List Char × Nat} (h : firstLine? lines = some line)
    (hr : Header.read line.1 = .ok none) : BadHeader lines ⟨line.2, .missingHeader⟩
  | malformed {line : List Char × Nat} {e : HeaderError} (h : firstLine? lines = some line)
    (hr : Header.read line.1 = .error e) : BadHeader lines ⟨line.2, .header e⟩

/-- What is wrong with the parameters given, or else with the header. -/
inductive BadParams (source : String) (given : Option Params) : Diagnostic → Prop
  | given {p : Params} {e : HeaderError} (hg : given = some p) (hw : p.width = .error e) :
    BadParams source given ⟨0, .header e⟩
  | header {e : Diagnostic} (hg : given = none) (h : BadHeader (Text.lines source.toList) e) :
    BadParams source given e

/-- The parameters given, or else those of the header, are `p`, and they are within bounds. -/
def ParamsFor (source : String) (given : Option Params) (p : Params) : Prop :=
  (given = some p ∨ given = none ∧ headerParams (Text.lines source.toList) = .ok p) ∧
    ∃ w, p.width = .ok w

def LineFault (p : Params) (seen : List (List Char × Nat)) (line : List Char × Nat)
    (e : Diagnostic) : Prop :=
  e.line = line.2 ∧ LineDefect p seen line.1 e.defect

def ReferenceFault (p : Params) (labels : List Label) (line : List Char × Nat) (e : Diagnostic) :
    Prop :=
  e.line = line.2 ∧ FirstFault (fun _ => ReferenceDefect p labels)
    (Code.operandTokens (codeText line.1)) e.defect

/-- What is wrong with the first bad line, after good parameters. -/
def BadLine (source : String) (given : Option Params) (e : Diagnostic) : Prop :=
  ∃ p, ParamsFor source given p ∧ FirstFault (LineFault p) (numberedLines source) e

/-- What is wrong with the first bad reference, after good parameters and good lines. -/
def BadReference (source : String) (given : Option Params) (e : Diagnostic) : Prop :=
  ∃ p, ParamsFor source given p ∧ Clean (LineFault p) (numberedLines source) ∧
    FirstFault (fun _ => ReferenceFault p (definedLabels (numberedLines source)))
      (codeLines (numberedLines source)) e

section
variable {p : Params} {w : Width} {e : Diagnostic}

/-- The first pass fails with what is wrong with the first bad line. -/
theorem draft_error_iff (hw : w.bits = p.wordBits) (lines : List (List Char)) :
    Draft.ofLines p w lines = .error e ↔ FirstFault (LineFault p) (lines.zipIdx 1) e := by
  refine foldlM_error_iff (P := fun seen d => Draft.Reads p w seen d) ?_ ?_ .empty
  · exact fun seen line rest d _ hd e => hd.addLine_error_iff hw
  · exact fun seen line rest d d' heq hd ha => hd.addLine (Draft.lt_of_zipIdx_eq heq) ha

/-- The second pass fails with what is wrong with the first bad reference. -/
theorem link_error_iff (hw : w.bits = p.wordBits) {seen : List (List Char × Nat)} {d : Draft}
    (h : d.Reads p w seen) : d.link p w = .error e ↔
      FirstFault (fun _ => ReferenceFault p (definedLabels seen)) (codeLines seen) e := by
  have hentry (line : List Char × Nat) (entry : Draft.Entry)
      (he : entry.line = line.2 ∧ Code.read p w (codeText line.1) = .ok entry.code)
      (e : Diagnostic) : ReferenceFault p (definedLabels seen) line e ↔
        entry.link w d.labels = .error e := (h.link_error_iff hw he.1 he.2).symm
  rw [firstFault_of_forall₂ h.entries hentry, ← mapM_error_iff, Draft.link, bind_pure_error_iff,
    Array.mapM_eq_mapM_toList, map_eq_pure_bind]
  exact bind_pure_error_iff

end

theorem headerParams_error_iff {lines : List (List Char)} {e : Diagnostic} :
    headerParams lines = .error e ↔ BadHeader lines e := by
  unfold headerParams
  constructor
  · intro h
    split at h
    · next hl => cases h; exact .absent hl
    · next hl =>
      split at h
      · next hr => cases h; exact .malformed hl hr
      · next hr => cases h; exact .missing hl hr
      · cases h
  · intro h
    cases h with
    | absent hl => rw [hl]
    | missing hl hr => simp only [hl, hr]
    | malformed hl hr => simp only [hl, hr]

section
variable {source : String} {given : Option Params} {e : Diagnostic} {p q : Params}

theorem assemble_of_paramsFor (h : ParamsFor source given p) :
    ∃ w, p.width = .ok w ∧ assemble source given = ofLines p w (Text.lines source.toList) := by
  obtain ⟨rfl | ⟨rfl, hh⟩, w, hw⟩ := h
  · refine ⟨w, hw, ?_⟩
    simp only [assemble, pure_bind, hw]
    rfl
  · refine ⟨w, hw, ?_⟩
    have hheader : headerParams (Text.lines source.toList) = pure p := hh
    simp only [assemble, hheader, pure_bind, hw]
    rfl

theorem assemble_of_badParams (h : BadParams source given e) :
    assemble source given = .error e := by
  cases h with
  | given hg hw =>
    subst hg
    simp only [assemble, pure_bind, hw]
    rfl
  | header hg hh =>
    subst hg
    simp only [assemble, headerParams_error_iff.2 hh]
    rfl

/-- The parameters are good or bad. -/
theorem paramsFor_or_badParams (source : String) (given : Option Params) :
    (∃ p, ParamsFor source given p) ∨ ∃ e, BadParams source given e := by
  cases given with
  | some p =>
    cases hw : p.width with
    | ok w => exact .inl ⟨p, .inl rfl, w, hw⟩
    | error e => exact .inr ⟨_, .given rfl hw⟩
  | none =>
    cases hh : headerParams (Text.lines source.toList) with
    | ok p => exact .inl ⟨p, .inr ⟨rfl, hh⟩, Checked.headerParams_width hh⟩
    | error e => exact .inr ⟨e, .header rfl (headerParams_error_iff.1 hh)⟩

theorem ParamsFor.unique (hp : ParamsFor source given p) (hq : ParamsFor source given q) :
    p = q := by
  obtain ⟨rfl | ⟨rfl, hp⟩, -⟩ := hp
  · obtain ⟨hq | ⟨hq, -⟩, -⟩ := hq
    · exact Option.some.inj hq
    · cases hq
  · obtain ⟨hq | ⟨-, hq⟩, -⟩ := hq
    · cases hq
    · exact Except.ok.inj (hp.symm.trans hq)

theorem ParamsFor.not_badParams (hp : ParamsFor source given p) : ¬ BadParams source given e := by
  intro h
  obtain ⟨hp, w, hw⟩ := hp
  cases h with
  | given hg hw' =>
    subst hg
    obtain hp | ⟨hp, -⟩ := hp
    · cases hp
      cases hw.symm.trans hw'
    · cases hp
  | header hg hh =>
    subst hg
    obtain hp | ⟨-, hp⟩ := hp
    · cases hp
    · cases hp.symm.trans (headerParams_error_iff.2 hh)

theorem ofLines_error_iff {w : Width} (hw : p.width = .ok w) (lines : List (List Char)) :
    ofLines p w lines = .error e ↔ FirstFault (LineFault p) (lines.zipIdx 1) e ∨
      Clean (LineFault p) (lines.zipIdx 1) ∧
        FirstFault (fun _ => ReferenceFault p (definedLabels (lines.zipIdx 1)))
          (codeLines (lines.zipIdx 1)) e := by
  have hbits := Params.bits_of_width hw
  rw [ofLines, bind_error_iff, draft_error_iff hbits]
  refine or_congr_right ⟨?_, ?_⟩
  · rintro ⟨d, hd, hlink⟩
    refine ⟨clean_iff.2 fun e he => ?_, (link_error_iff hbits (Draft.reads_of_ofLines hd)).1 hlink⟩
    cases hd.symm.trans ((draft_error_iff hbits lines).2 he)
  · rintro ⟨hclean, href⟩
    obtain ⟨d, hd⟩ : ∃ d, Draft.ofLines p w lines = .ok d :=
      forall_ne_error.1 fun e he => clean_iff.1 hclean e ((draft_error_iff hbits lines).1 he)
    exact ⟨d, hd, (link_error_iff hbits (Draft.reads_of_ofLines hd)).2 href⟩

theorem assemble_error_iff : assemble source given = .error e ↔
    BadParams source given e ∨ BadLine source given e ∨ BadReference source given e := by
  rcases paramsFor_or_badParams source given with ⟨p, hp⟩ | ⟨e', he'⟩
  · obtain ⟨w, hw, hassemble⟩ := assemble_of_paramsFor hp
    have hfaults := ofLines_error_iff (e := e) hw (Text.lines source.toList)
    rw [hassemble, hfaults]
    constructor
    · rintro (h | ⟨hclean, h⟩)
      · exact .inr (.inl ⟨p, hp, h⟩)
      · exact .inr (.inr ⟨p, hp, hclean, h⟩)
    · rintro (h | ⟨q, hq, h⟩ | ⟨q, hq, hclean, h⟩)
      · exact absurd h hp.not_badParams
      · cases hp.unique hq
        exact .inl h
      · cases hp.unique hq
        exact .inr ⟨hclean, h⟩
  · rw [assemble_of_badParams he']
    constructor
    · intro h
      exact .inl (Except.error.inj h ▸ he')
    · rintro (h | ⟨p, hp, -⟩ | ⟨p, hp, -⟩)
      · rw [← assemble_of_badParams he', assemble_of_badParams h]
      · exact absurd he' hp.not_badParams
      · exact absurd he' hp.not_badParams

end

end Program
end WordRam
