import WordRam.Proofs.Assembly.Errors
import WordRam.Proofs.Text.Start

/-!
# Which error is reported

Bad parameters count before bad lines, and these before bad references, wherever they are; of
several bad lines the first counts. What comes after that line has no part in it: another text that
starts with the same lines has the same error (`Program.error_of_sameStart`). Main statement:
`Program.diagnosis`.
-/

namespace WordRam

open Text

section
variable {p : Params} {seen : List (List Char × Nat)} {line : List Char} {d : Defect}

theorem codeText_trim (line : List Char) : codeText (trim line) = codeText line := by
  refine trim_cut_trim (fun c hc => decide_eq_false ?_) line
  rintro rfl
  exact absurd hc (by decide)

theorem isCode_trim (line : List Char) : isCode (trim line) = isCode line := by
  simp only [isCode, codeText_trim]

theorem definesLabel_trim (line : List Char) : definesLabel (trim line) = definesLabel line := by
  simp only [definesLabel, codeText_trim]

theorem labelText_trim (line : List Char) : labelText (trim line) = labelText line := by
  simp only [labelText, codeText_trim]

theorem definedLabels_trim (seen : List (List Char × Nat)) :
    definedLabels (seen.map (Prod.map trim id)) = definedLabels seen := by
  have hcount (n : Nat) : (codeLines (seen.map (Prod.map trim id))).countP (·.2 < n) =
      (codeLines seen).countP (·.2 < n) := by
    rw [codeLines, List.filter_map, List.countP_map, codeLines]
    simp only [Function.comp_def, Prod.map_fst, Prod.map_snd, isCode_trim, id]
  unfold definedLabels
  rw [List.filter_map, List.map_map]
  simp only [Function.comp_def, Prod.map_fst, Prod.map_snd, definesLabel_trim, labelText_trim, id,
    hcount]

theorem lineDefect_trim :
    LineDefect p (seen.map (Prod.map trim id)) (trim line) d ↔ LineDefect p seen line d := by
  by_cases hc : isCode line
  · rw [lineDefect_of_isCode hc, lineDefect_of_isCode (by rwa [isCode_trim]), codeText_trim]
  · have hc' : ¬ isCode (trim line) := by rwa [isCode_trim]
    by_cases hd : definesLabel line
    · have hd' : definesLabel (trim line) := by rwa [definesLabel_trim]
      by_cases hl : Term.isLabel (labelText line)
      · rw [lineDefect_of_isLabel hd hl, lineDefect_of_isLabel hd' (by rwa [labelText_trim]),
          labelText_trim, definedLabels_trim]
      · rw [lineDefect_of_malformed hd hl, lineDefect_of_malformed hd' (by rwa [labelText_trim]),
          labelText_trim]
    · have hd' : ¬ definesLabel (trim line) := by rwa [definesLabel_trim]
      exact ⟨fun h => absurd h (not_lineDefect hc' hd'), fun h => absurd h (not_lineDefect hc hd)⟩

/-- A line with a defect is not blank. -/
theorem trim_ne_nil_of_lineDefect (h : LineDefect p seen line d) : trim line ≠ [] := by
  intro hnil
  have htext : codeText line = [] := by rw [← codeText_trim, hnil]; rfl
  cases h with
  | malformedLabel h => simp [definesLabel, htext] at h
  | duplicateLabel h => simp [definesLabel, htext] at h
  | code h => simp [isCode, htext] at h

end

theorem Header.read_trim (line : List Char) : read (trim line) = read line := by
  simp only [read, fields?, trim_trim]

namespace Program

theorem headerParams_trim (lines : List (List Char)) :
    headerParams (lines.map trim) = headerParams lines := by
  have hfirst : firstLine? (lines.map trim) = (firstLine? lines).map (Prod.map trim id) := by
    rw [firstLine?, List.zipIdx_map, List.find?_map, firstLine?]
    simp only [Function.comp_def, Prod.map_fst, trim_trim]
  unfold headerParams
  rw [hfirst]
  cases firstLine? lines with
  | none => rfl
  | some line =>
    obtain ⟨line, n⟩ := line
    simp only [Option.map_some, Prod.map_apply, Header.read_trim, id]

/-- A header that is bad on a line is bad on the first line that is not blank. -/
theorem BadHeader.exists_not_blank {lines : List (List Char)} {e : Diagnostic}
    (h : BadHeader lines e) (hline : 1 ≤ e.line) : ∃ line ∈ lines.take e.line, trim line ≠ [] := by
  have hmem {line : List Char × Nat} (hf : firstLine? lines = some line) :
      ∃ text ∈ lines.take line.2, trim text ≠ [] := by
    obtain ⟨text, n⟩ := line
    obtain ⟨hle, hlt, htext⟩ := List.mem_zipIdx (List.mem_of_find?_eq_some hf)
    have hne : trim text ≠ [] := by simpa using List.find?_some hf
    refine ⟨text, List.mem_of_getElem? (i := n - 1) ?_, hne⟩
    rw [List.getElem?_take_of_lt (Nat.sub_lt hle Nat.one_pos), htext]
    exact List.getElem?_eq_getElem _
  cases h with
  | absent => exact absurd hline (by simp)
  | missing hf => exact hmem hf
  | malformed hf => exact hmem hf

/-- Where a line is not blank, the lines after it have no part in the header. -/
theorem headerParams_append {lines : List (List Char)} (h : ∃ line ∈ lines, trim line ≠ [])
    (more : List (List Char)) : headerParams (lines ++ more) = headerParams lines := by
  have hfirst : firstLine? (lines ++ more) = firstLine? lines := by
    obtain ⟨line, hm, hne⟩ := h
    have hsome : (firstLine? lines).isSome := by
      rw [firstLine?, List.find?_isSome]
      obtain ⟨i, hi⟩ := List.mem_iff_getElem?.1 hm
      refine ⟨(line, 1 + i), List.mem_of_getElem? (i := i) ?_, decide_eq_true hne⟩
      rw [List.getElem?_zipIdx, hi]
      rfl
    obtain ⟨first, hf⟩ := Option.isSome_iff_exists.1 hsome
    rw [firstLine?] at hf
    rw [firstLine?, List.zipIdx_append, List.find?_append, hf, firstLine?, hf]
    rfl
  simp only [headerParams, hfirst]

/-! ### Texts that start with the same lines -/

section
variable {p : Params} {lines : List (List Char)} {e : Diagnostic}

theorem firstFault_trim : FirstFault (LineFault p) ((lines.map trim).zipIdx 1) e ↔
    FirstFault (LineFault p) (lines.zipIdx 1) e := by
  rw [List.zipIdx_map, firstFault_map]
  exact FirstFault.congr fun seen line rest _ e => and_congr_right fun _ => lineDefect_trim

theorem take_zipIdx {α : Type} (xs : List α) (k n : Nat) :
    (xs.zipIdx k).take n = (xs.take n).zipIdx k := by
  induction xs generalizing k n with
  | nil => simp
  | cons x xs ih =>
    cases n with
    | zero => rfl
    | succ n => simp [List.zipIdx_cons, ih]

/-- The first bad line is the last of the lines up to it, and it is not blank. -/
theorem firstFault_take (h : FirstFault (LineFault p) (lines.zipIdx 1) e) :
    FirstFault (LineFault p) ((lines.take e.line).zipIdx 1) e ∧
      ∃ line ∈ lines.take e.line, trim line ≠ [] := by
  obtain ⟨before, x, after, heq, ⟨hline, hd⟩, hclean⟩ := h
  have hx : (lines.zipIdx 1)[before.length]? = some x := by rw [heq]; simp
  rw [List.getElem?_zipIdx, Option.map_eq_some_iff] at hx
  obtain ⟨text, htext, rfl⟩ := hx
  have hnumber : e.line = before.length + 1 := hline.trans (Nat.add_comm _ _)
  have htake : (lines.take e.line).zipIdx 1 = before ++ [(text, 1 + before.length)] := by
    rw [← take_zipIdx, heq, List.append_cons, List.take_left' (by simp [hnumber])]
  rw [htake]
  refine ⟨⟨before, _, [], rfl, ⟨hline, hd⟩, hclean⟩, text, ?_, trim_ne_nil_of_lineDefect hd⟩
  refine List.mem_of_getElem? (i := before.length) ?_
  rw [List.getElem?_take_of_lt (by omega), htext]

end

/-- The first `n` lines of the texts are the same, up to white space at their ends. -/
def SameStart (n : Nat) (source source' : String) : Prop :=
  ((Text.lines source.toList).take n).map trim = ((Text.lines source'.toList).take n).map trim

variable {source source' : String} {given : Option Params} {e : Diagnostic} {n : Nat}

theorem SameStart.headerParams (h : SameStart n source source')
    (hne : ∃ line ∈ (Text.lines source.toList).take n, trim line ≠ []) :
    headerParams (Text.lines source'.toList) = headerParams (Text.lines source.toList) := by
  have hstart (source : String)
      (hne : ∃ line ∈ (Text.lines source.toList).take n, trim line ≠ []) :
      Program.headerParams (Text.lines source.toList) =
        Program.headerParams (((Text.lines source.toList).take n).map trim) := by
    rw [headerParams_trim, ← headerParams_append hne ((Text.lines source.toList).drop n),
      List.take_append_drop]
  have hne' : ∃ line ∈ (Text.lines source'.toList).take n, trim line ≠ [] := by
    obtain ⟨line, hm, hline⟩ := hne
    have hm' : trim line ∈ ((Text.lines source.toList).take n).map trim := List.mem_map_of_mem hm
    rw [h] at hm'
    obtain ⟨line', hm', heq⟩ := List.mem_map.1 hm'
    exact ⟨line', hm', heq ▸ hline⟩
  rw [hstart source hne, hstart source' hne', h]

/-- What comes after a bad header or the first bad line has no part in the error. -/
theorem error_of_sameStart (h : BadParams source given e ∨ BadLine source given e)
    (hline : 1 ≤ e.line) (hs : SameStart e.line source source') :
    assemble source' given = .error e := by
  rcases h with h | ⟨p, hp, hfirst⟩
  · cases h with
    | given => exact absurd hline (by simp)
    | header hg hh =>
      have hheader := hs.headerParams (hh.exists_not_blank hline)
      refine assemble_of_badParams (.header hg (headerParams_error_iff.1 ?_))
      rw [hheader]
      exact headerParams_error_iff.2 hh
  · obtain ⟨htake, hne⟩ := firstFault_take hfirst
    have hp' : ParamsFor source' given p :=
      ⟨hp.1.imp_right fun hh => ⟨hh.1, (hs.headerParams hne).trans hh.2⟩, hp.2⟩
    have hfirst' : FirstFault (LineFault p) (numberedLines source') e := by
      rw [← firstFault_trim, hs, firstFault_trim] at htake
      rw [numberedLines, ← List.take_append_drop e.line (Text.lines source'.toList),
        List.zipIdx_append]
      exact htake.append _
    exact assemble_error_iff.2 (.inr (.inl ⟨p, hp', hfirst'⟩))

theorem sameStart_of_append {kept tail tail' : List Char} (ht : StartsAfresh tail)
    (ht' : StartsAfresh tail') (hn : n ≤ (Text.lines kept).length) :
    SameStart n (String.ofList (kept ++ tail)) (String.ofList (kept ++ tail')) := by
  unfold SameStart
  rw [String.toList_ofList, String.toList_ofList, take_lines_append ht hn, take_lines_append ht' hn]

/-! ### The second pass -/

theorem defect_of_badReference (h : BadReference source given e) :
    (∃ name, e.defect = .undefinedLabel name) ∨
      ∃ name address bits, e.defect = .labelRange name address bits := by
  obtain ⟨p, -, -, _, line, _, -, ⟨-, _, token, _, -, hd, -⟩, -⟩ := h
  generalize e.defect = d at hd
  cases hd with
  | undefined => exact .inl ⟨_, rfl⟩
  | range => exact .inr ⟨_, _, _, rfl⟩

/-- The operands that the second pass resolves always make an instruction: their number and the
places of registers have been looked at in the first. -/
theorem build_of_resolve {p : Params} {w : Width} {lines : List (List Char × Nat)}
    {s : Checked.FirstPass} (hs : lines.foldlM (Checked.addLine p w) {} = .ok s)
    {entry : Checked.Pending} (hm : entry ∈ s.pending) {operands : List Operand}
    (ho : entry.terms.mapM (Checked.resolve w s.table) = .ok operands) :
    ∃ i, Checked.build entry.opcode operands.toArray = .ok i := by
  have hempty : Checked.FirstPass.Holds {} {} := ⟨.empty, .nil⟩
  have hfirst :=
    Trial.Agrees.foldlM (fun _ _ line h => Checked.addLine_agrees p w h line) lines hempty
  rw [hs] at hfirst
  generalize lines.foldlM (Draft.addLine p w) {} = x at hfirst
  cases hfirst with
  | @ok _ d hholds =>
    obtain ⟨⟨line, op, args⟩, rfl, rfl, hterms⟩ :=
      forall₂_mem_right hholds.pending.flip (Array.mem_toList_iff.2 hm)
    have hoperands := Checked.operands_agrees w hholds.table args
    rw [← hterms, ho] at hoperands
    generalize args.mapM (Draft.resolve w d.labels) = y at hoperands
    cases hoperands with
    | ok heq => exact ⟨_, heq ▸ Checked.build_eq entry.opcode _⟩

/-- What is reported for a source text. -/
structure Diagnosis (source : String) (given : Option Params) : Prop where
  error : ∀ e, assemble source given = .error e ↔
    BadParams source given e ∨ BadLine source given e ∨ BadReference source given e
  /-- Only one of them is reported. -/
  params : ∀ e e', BadParams source given e →
    ¬ BadLine source given e' ∧ ¬ BadReference source given e'
  lines : ∀ e e', BadLine source given e → ¬ BadReference source given e'
  reference : ∀ e, BadReference source given e →
    (∃ name, e.defect = .undefinedLabel name) ∨
      ∃ name address bits, e.defect = .labelRange name address bits
  /-- Nothing else can fail in the second pass. -/
  build : ∀ p w s, (numberedLines source).foldlM (Checked.addLine p w) {} = .ok s →
    ∀ entry ∈ s.pending, ∀ operands, entry.terms.mapM (Checked.resolve w s.table) = .ok operands →
      ∃ i, Checked.build entry.opcode operands.toArray = .ok i
  /-- What comes after a bad header or a bad line has no part in the error. -/
  start : ∀ e source', BadParams source given e ∨ BadLine source given e → 1 ≤ e.line →
    SameStart e.line source source' → assemble source' given = .error e
  /-- So the text after that line can be replaced. -/
  replace : ∀ e kept tail tail', source = String.ofList (kept ++ tail) → StartsAfresh tail →
    StartsAfresh tail' → e.line ≤ (Text.lines kept).length →
    BadParams source given e ∨ BadLine source given e → 1 ≤ e.line →
    assemble (String.ofList (kept ++ tail')) given = .error e

theorem diagnosis (source : String) (given : Option Params) : Diagnosis source given where
  error _ := assemble_error_iff
  params e e' h := by
    constructor
    · rintro ⟨p, hp, -⟩
      exact hp.not_badParams h
    · rintro ⟨p, hp, -⟩
      exact hp.not_badParams h
  lines e e' := by
    rintro ⟨p, hp, hfirst⟩ ⟨q, hq, hclean, -⟩
    cases hp.unique hq
    exact clean_iff.1 hclean e hfirst
  reference _ := defect_of_badReference
  build _ _ _ hs _ hm _ ho := build_of_resolve hs hm ho
  start _ _ h hline hs := error_of_sameStart h hline hs
  replace e kept tail tail' heq ht ht' hn h hline :=
    error_of_sameStart h hline (heq ▸ sameStart_of_append ht ht' hn)

/-- A bad line counts before the label that is not defined on the line before it. -/
example : assemble "; TinyRAM V=1.000 W=8 K=1\njmp nowhere\nhalt" none =
    .error ⟨3, .unknownMnemonic "halt"⟩ := by cbv

end Program
end WordRam
