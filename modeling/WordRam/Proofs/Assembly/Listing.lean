import Mathlib
import WordRam.Proofs.Assembly.Draft

/-!
# Programs and their source texts

`Program.Renders` says what program a source text is: an instruction for each line of code, in the
same order, spelled by that line, and a label for each definition, whose address is the number of
lines of code before it. Every program that is assembled renders its source text, so the registers
that it names exist (`Program.within_of_assemble`).
-/

namespace WordRam

open Text

namespace Program

/-- The lines of a source text, numbered from one. -/
def numberedLines (source : String) : List (List Char × Nat) :=
  (Text.lines source.toList).zipIdx 1

structure Renders (source : String) (given : Option Params) (p : Program) : Prop where
  /-- The parameters are those given, or else those of the header. -/
  params : given = some p.params ∨
    given = none ∧ headerParams (Text.lines source.toList) = .ok p.params
  size : p.instructions.size = (codeLines (numberedLines source)).length
  line : ∀ pc, p.line? pc = ((codeLines (numberedLines source))[pc]?).map (·.2)
  line_size : p.line? p.instructions.size = none
  increasing : ∀ pc pc' n n', pc < pc' → p.line? pc = some n → p.line? pc' = some n' → n < n'
  labels : p.labels.toList = definedLabels (numberedLines source)
  names : (p.labels.toList.map (·.name)).Nodup
  valid : ∀ l ∈ p.labels, Term.isLabel l.name.toList
  find : ∀ name l, p.labels.find? name = some l ↔ l ∈ p.labels ∧ l.name = name
  spelled : ∀ (pc : Nat) line, (codeLines (numberedLines source))[pc]? = some line →
    ∃ i, p.instructions[pc]? = some i ∧ i.Spelled p.params p.labels (codeText line.1)

variable {source : String} {given : Option Params} {p : Program}

/-- An assembled program is a draft of the source text, linked. -/
theorem assemble_ok (h : assemble source given = .ok p) :
    (given = some p.params ∨
      given = none ∧ headerParams (Text.lines source.toList) = .ok p.params) ∧
      ∃ w d, p.params.width = .ok w ∧ Draft.ofLines p.params w (Text.lines source.toList) = .ok d ∧
        d.entries.mapM (Draft.Entry.link w d.labels) = .ok p.instructions ∧
        p.labels = d.labels ∧ p.lines = d.entries.map (·.line) := by
  have hparams : ∃ q,
      (given = some q ∨ given = none ∧ headerParams (Text.lines source.toList) = .ok q) ∧
      (q.width.mapError (⟨0, .header ·⟩) >>= fun w =>
        ofLines q w (Text.lines source.toList)) = .ok p := by
    cases given with
    | some q => exact ⟨q, .inl rfl, h⟩
    | none =>
      obtain ⟨q, hq, h⟩ := bind_ok h
      exact ⟨q, .inr ⟨rfl, hq⟩, h⟩
  obtain ⟨q, hq, h⟩ := hparams
  obtain ⟨w, hw, h⟩ := bind_ok h
  obtain ⟨d, hd, h⟩ := bind_ok h
  obtain ⟨is, his, h⟩ := bind_ok h
  cases h
  exact ⟨hq, w, d, mapError_ok hw, hd, his, rfl, rfl⟩

/-- Where names are distinct, the label with a name is the one that is found. -/
theorem find?_eq_some_iff {labels : Labels} (h : (labels.toList.map (·.name)).Nodup)
    {name : String} {l : Label} : labels.find? name = some l ↔ l ∈ labels ∧ l.name = name := by
  constructor
  · intro hf
    exact ⟨Array.mem_of_find?_eq_some hf, by simpa using Array.find?_some hf⟩
  · rintro ⟨hm, rfl⟩
    cases hf : labels.find? l.name with
    | none => exact absurd (by simp) (Array.find?_eq_none.1 hf l hm)
    | some l' =>
      have hm' := Array.mem_toList_iff.2 (Array.mem_of_find?_eq_some hf)
      have hname : l'.name = l.name := by simpa using Array.find?_some hf
      exact congrArg some (List.inj_on_of_nodup_map h hm' (Array.mem_toList_iff.2 hm) hname)

theorem spelled_of_assemble (h : assemble source given = .ok p) :
    List.Forall₂ (fun line i => i.Spelled p.params p.labels (codeText line.1))
      (codeLines (numberedLines source)) p.instructions.toList := by
  obtain ⟨-, w, d, hw, hd, hi, hl, -⟩ := assemble_ok h
  rw [hl]
  exact forall₂_comp (Draft.reads_of_ofLines hd).entries (array_mapM_ok hi)
    fun _ _ _ he hlink => Draft.Entry.spelled_of_link (Params.bits_of_width hw) he.2 hlink

/-- The registers that an assembled program names exist. -/
theorem within_of_assemble (h : assemble source given = .ok p) :
    ∀ i ∈ p.instructions, i.Within p.params.registers := by
  intro i hi
  obtain ⟨line, hs⟩ := forall₂_mem_right (spelled_of_assemble h) (Array.mem_toList_iff.2 hi)
  exact hs.within

theorem lines_of_assemble (h : assemble source given = .ok p) :
    p.lines.toList = (codeLines (numberedLines source)).map (·.2) := by
  obtain ⟨-, w, d, -, hd, -, -, hlines⟩ := assemble_ok h
  rw [hlines, Array.toList_map]
  exact (forall₂_map_eq (Draft.reads_of_ofLines hd).entries fun _ _ he => he.1.symm).symm

theorem renders_of_assemble (h : assemble source given = .ok p) : p.Renders source given := by
  obtain ⟨hparams, w, d, hw, hd, hi, hl, hlines⟩ := assemble_ok h
  have hreads := Draft.reads_of_ofLines hd
  have hspelled := spelled_of_assemble h
  have hsize : p.instructions.size = (codeLines (numberedLines source)).length :=
    hspelled.length_eq.symm
  have hline (pc : Nat) : p.line? pc = ((codeLines (numberedLines source))[pc]?).map (·.2) := by
    rw [line?, ← Array.getElem?_toList, lines_of_assemble h, List.getElem?_map]
  -- lines are numbered in ascending order, and so are those with code
  have hpw : (codeLines (numberedLines source)).Pairwise (·.2 < ·.2) :=
    (Draft.pairwise_zipIdx _ 1).filter _
  refine ⟨hparams, hsize, hline, ?_, fun pc pc' n n' hlt hn hn' => ?_, ?_, ?_, ?_, ?_, ?_⟩
  · rw [hline, hsize, List.getElem?_eq_none (Nat.le_refl _)]; rfl
  · rw [hline, Option.map_eq_some_iff] at hn hn'
    obtain ⟨⟨_, _⟩, hn, rfl⟩ := hn
    obtain ⟨⟨_, _⟩, hn', rfl⟩ := hn'
    obtain ⟨hpc, hn⟩ := List.getElem?_eq_some_iff.1 hn
    obtain ⟨hpc', hn'⟩ := List.getElem?_eq_some_iff.1 hn'
    have h := List.pairwise_iff_getElem.1 hpw pc pc' hpc hpc' hlt
    rwa [hn, hn'] at h
  · rw [hl]; exact hreads.labels
  · rw [hl]; exact hreads.names
  · rw [hl]; exact hreads.valid
  · rw [hl]; exact fun name l => find?_eq_some_iff hreads.names
  · intro pc line hpc
    obtain ⟨i, hi, hs⟩ := forall₂_getElem? hspelled hpc
    exact ⟨i, by rwa [← Array.getElem?_toList], hs⟩

/-- A source text that divides the largest word by each word of the primary tape. -/
def divideAllText : String :=
  "; TinyRAM V=2.00 W=8 K=2
     mov r0, -1
   next: ; once for each word
     read r1, 0
     cjmp end
     UDIV r0,r0 , r1
     jmp next
   end:
     answer r0"

/-- The program that `divideAllText` is. -/
def divideAll : Program where
  params := { dialect := .v2, wordBits := 8, registers := 2 }
  instructions := #[.mov 0 (.imm 255), .read 1 (.imm 0), .jump .flagSet (.imm 5),
    .divide .udiv 0 0 (.reg 1), .jump .always (.imm 1), .answer (.reg 0)]
  labels := #[⟨"next", 1, 3⟩, ⟨"end", 5, 8⟩]
  lines := #[2, 4, 5, 6, 7, 9]

theorem assemble_divideAllText : assemble divideAllText none = .ok divideAll := by cbv

theorem renders_divideAll :
    assemble divideAllText none = .ok divideAll ∧ divideAll.Renders divideAllText none :=
  ⟨assemble_divideAllText, renders_of_assemble assemble_divideAllText⟩

end Program

end WordRam
