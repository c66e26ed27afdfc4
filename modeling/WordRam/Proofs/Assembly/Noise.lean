import WordRam.Proofs.Assembly.Dialect
import WordRam.Proofs.Assembly.Renumbering
import WordRam.Proofs.Assembly.Rewording

/-!
# Sources that say the same

Two sources say the same if one can be edited into the other by inserting lines that say nothing and
by writing lines in another way (`Edits`). The first kind of edit moves the lines below, and is
exact (`Program.ofLines_insert`); the second leaves them where they are, and what is read from the
line is the same up to the text that a defect may quote (`Reworded.synonymous`). So the results of
assembling the sources are the same up to both (`SameUpTo`), whichever edits are made in whatever
order. Main statement: `Program.sameUpTo_of_edits`.
-/

namespace WordRam

open Text

/-- A result with other line numbers, or an error of the same kind on the line that `f` takes its
line to. -/
inductive SameUpTo {α : Type} (f : Nat → Nat) (g : α → α) :
    Except Diagnostic α → Except Diagnostic α → Prop
  | ok (a : α) : SameUpTo f g (.ok a) (.ok (g a))
  | error {e e' : Diagnostic} (hline : e'.line = f e.line)
    (hkind : e'.defect.ctorIdx = e.defect.ctorIdx) : SameUpTo f g (.error e) (.error e')

theorem Defect.ctorIdx_renumber (f : Nat → Nat) (d : Defect) :
    (d.renumber f).ctorIdx = d.ctorIdx := by
  cases d <;> rfl

namespace SameUpTo

variable {α β : Type} {f f' : Nat → Nat} {g g' : α → α} {x y z : Except Diagnostic α}

theorem refl : ∀ x : Except Diagnostic α, SameUpTo id id x x
  | .ok a => .ok a
  | .error _ => .error rfl rfl

theorem renumbered (f : Nat → Nat) (g : α → α) :
    ∀ x : Except Diagnostic α, SameUpTo f g x (renumbered f g x)
  | .ok a => .ok a
  | .error e => .error rfl (e.defect.ctorIdx_renumber f)

theorem trans (h : SameUpTo f g x y) (h' : SameUpTo f' g' y z) :
    SameUpTo (f' ∘ f) (g' ∘ g) x z := by
  cases h with
  | ok a =>
    cases h' with
    | ok => exact .ok a
  | error hline hkind =>
    cases h' with
    | error hline' hkind' =>
      refine .error ?_ (hkind'.trans hkind)
      rw [hline', hline]
      rfl

theorem bind (h : SameUpTo id id x y) (k : α → Except Diagnostic β) :
    SameUpTo id id (x >>= k) (y >>= k) := by
  cases h with
  | ok a => exact .refl (k a)
  | error hline hkind => exact .error hline hkind

end SameUpTo

/-- The lines of a source are edited into other lines. Lines that are inserted say nothing, and line
`n` becomes line `f n`. -/
inductive Edits (lines : List (List Char)) : List (List Char) → (Nat → Nat) → Prop
  | none : Edits lines lines id
  | insert {before after : List (List Char)} {line : List Char} {f : Nat → Nat}
    (h : Edits lines (before ++ after) f) (hline : Idle line) :
    Edits lines (before ++ line :: after) (shift before.length ∘ f)
  | reword {before after : List (List Char)} {line line' : List Char} {f : Nat → Nat}
    (h : Edits lines (before ++ line :: after) f) (hline : Reworded line line') :
    Edits lines (before ++ line' :: after) f

namespace Edits

variable {lines lines' : List (List Char)} {f : Nat → Nat}

/-- No line has the number zero, and none gets it. -/
theorem apply_zero (h : Edits lines lines' f) : f 0 = 0 := by
  induction h with
  | none => rfl
  | insert h hline ih => simp [shift, ih]
  | reword h hline ih => exact ih

end Edits

section
variable {p : Params} {w : Width} {line line' : List Char}

theorem Idle.read (h : Idle line) (p : Params) (w : Width) :
    Statement.read p w line = .ok .blank := by
  rw [Statement.read, h.codeText]
  rfl

theorem Draft.addLine_sameUpTo (h : SameKind (Statement.read p w line) (Statement.read p w line'))
    (d : Draft) (n : Nat) :
    SameUpTo id id (d.addLine p w (line, n)) (d.addLine p w (line', n)) := by
  simp only [addLine]
  generalize Statement.read p w line = x at h
  generalize Statement.read p w line' = y at h
  cases h with
  | ok s => exact .refl _
  | error hkind => exact .error rfl hkind

theorem Program.ofLines_reword (h : Reworded line line') (before after : List (List Char)) :
    SameUpTo id id (ofLines p w (before ++ line :: after))
      (ofLines p w (before ++ line' :: after)) := by
  refine SameUpTo.bind ?_ _
  rw [Draft.ofLines, Draft.ofLines, zipIdx_insert, zipIdx_insert, List.foldlM_append,
    List.foldlM_append]
  rcases (before.zipIdx 1).foldlM (Draft.addLine p w) {} with e | d
  · exact .refl _
  · show SameUpTo id id (List.foldlM _ d _) (List.foldlM _ d _)
    rw [List.foldlM_cons, List.foldlM_cons]
    exact (Draft.addLine_sameUpTo (h.synonymous.read p w) d _).bind _

end

namespace Program

variable {p : Params} {w : Width} {lines lines' : List (List Char)} {f : Nat → Nat}

theorem ofLines_edits (hw : w.bits = p.wordBits) (h : Edits lines lines' f) :
    SameUpTo f (renumber f) (ofLines p w lines) (ofLines p w lines') := by
  induction h with
  | none =>
    have hid : renumber id = id := funext renumber_id
    rw [hid]
    exact .refl _
  | @insert before after line f h hline ih =>
    have hshift : renumber (shift before.length ∘ f) =
        renumber (shift before.length) ∘ renumber f :=
      funext fun q => (renumber_renumber f _ q).symm
    rw [ofLines_insert hw (hline.read p w), hshift]
    exact ih.trans (.renumbered _ _ _)
  | reword h hline ih => exact ih.trans (ofLines_reword hline _ _)

/-- A source that says the same is assembled to the same program, or is refused for a defect of the
same kind, but for the numbers of the lines that insertions have moved. -/
theorem sameUpTo_of_edits {source source' : String} (p : Params)
    (h : Edits (Text.lines source.toList) (Text.lines source'.toList) f) :
    SameUpTo f (renumber f) (assemble source (some p)) (assemble source' (some p)) := by
  rcases hw : p.width with e | w
  · rw [assemble_of_badParams (.given rfl hw), assemble_of_badParams (.given rfl hw)]
    exact .error h.apply_zero.symm rfl
  · rw [assemble_given hw, assemble_given hw]
    exact ofLines_edits (Params.bits_of_width hw) h

/-- White space is put before a colon, around a comma and at the ends of a line, more of it after a
mnemonic, the mnemonic of another line is written in capitals, and there are two comments more. -/
theorem edits_spaced : Edits ["go:".toList, "mov r0,1".toList, "jmp go".toList]
    ["go :".toList, " ; again".toList, "MOV r0 , 1 ; one".toList, " jmp  go".toList]
    (shift 1 ∘ id) := by
  have hblank : ∀ c ∈ [' '], isBlank c := List.all_eq_true.1 (by decide)
  have hwide : ∀ c ∈ [' ', ' '], isBlank c := List.all_eq_true.1 (by decide)
  have hword : ∀ c ∈ ['j', 'm', 'p'], isBlank c = false := by simp; decide
  have hnil : ∀ c ∈ ([] : List Char), isBlank c := nofun
  have hcolon : Reworded "go:".toList "go :".toList :=
    @Reworded.colon "go".toList [] [' '] [] (by decide) hnil hblank (.blank hnil)
  have hletters : Reworded "mov r0,1".toList "MOV r0,1".toList :=
    @Reworded.letters [] "mov".toList "MOV".toList [' ', 'r', '0', ',', '1'] .mov hnil (by cbv)
      (by cbv) (by simp; decide) (by cbv)
  have hcomma : Reworded "MOV r0,1".toList "MOV r0 , 1".toList :=
    @Reworded.comma "MOV r0".toList [] [' '] [] [' '] (by decide) hnil hblank hnil hblank
      (.inr (by cbv)) "1".toList
  have hends : Reworded "MOV r0 , 1".toList "MOV r0 , 1 ; one".toList :=
    @Reworded.ends [] [] [] " ; one".toList hnil hnil (.blank hnil) (.comment hblank " one".toList)
      "MOV r0 , 1".toList
  have hoperands : Reworded "jmp go".toList "jmp  go".toList :=
    @Reworded.operands [] ['j', 'm', 'p'] [' '] [' ', ' '] hnil (by decide) hword (by decide)
      ⟨by decide, hblank⟩ ⟨by decide, hwide⟩ "go".toList
  have hlead : Reworded "jmp  go".toList " jmp  go".toList :=
    @Reworded.ends [] [' '] [] [] hnil hblank (.blank hnil) (.blank hnil) "jmp  go".toList
  have h1 : Edits ["go:".toList, "mov r0,1".toList, "jmp go".toList]
      ["go :".toList, "mov r0,1".toList, "jmp go".toList] id :=
    @Edits.reword _ [] _ _ _ _ .none hcolon
  have h2 := @Edits.reword _ ["go :".toList] _ _ _ _ h1 hletters
  have h3 := @Edits.reword _ ["go :".toList] _ _ _ _ h2 hcomma
  have h4 := @Edits.reword _ ["go :".toList] _ _ _ _ h3 hends
  have h5 := @Edits.reword _ ["go :".toList, "MOV r0 , 1 ; one".toList] _ _ _ _ h4 hoperands
  have h6 := @Edits.reword _ ["go :".toList, "MOV r0 , 1 ; one".toList] _ _ _ _ h5 hlead
  exact @Edits.insert _ ["go :".toList] _ _ _ h6 (.comment hblank " again".toList)

theorem spaced_sameUpTo :
    Edits (Text.lines "go:\nmov r0,1\njmp go".toList)
        (Text.lines "go :\n ; again\nMOV r0 , 1 ; one\n jmp  go".toList) (shift 1 ∘ id) ∧
      SameUpTo (shift 1 ∘ id) (renumber (shift 1 ∘ id))
        (assemble "go:\nmov r0,1\njmp go"
          (some { dialect := .v1, wordBits := 8, registers := 1 }))
        (assemble "go :\n ; again\nMOV r0 , 1 ; one\n jmp  go"
          (some { dialect := .v1, wordBits := 8, registers := 1 })) := by
  have hlines : Text.lines "go:\nmov r0,1\njmp go".toList =
      ["go:".toList, "mov r0,1".toList, "jmp go".toList] := by cbv
  have hlines' : Text.lines "go :\n ; again\nMOV r0 , 1 ; one\n jmp  go".toList =
      ["go :".toList, " ; again".toList, "MOV r0 , 1 ; one".toList, " jmp  go".toList] := by cbv
  have hedits := edits_spaced
  rw [← hlines, ← hlines'] at hedits
  exact ⟨hedits, sameUpTo_of_edits _ hedits⟩

/-- The first white space of a line of code ends its mnemonic. So some of it has to be left there,
and it matters whether any stands between a mnemonic and a comma. -/
theorem white_space_ends_mnemonic :
    ¬ SameUpTo id id
        (assemble "jmp," (some { dialect := .v1, wordBits := 8, registers := 1 }))
        (assemble "jmp ," (some { dialect := .v1, wordBits := 8, registers := 1 })) ∧
      ¬ SameUpTo id id
        (assemble "jmp 0" (some { dialect := .v1, wordBits := 8, registers := 1 }))
        (assemble "jmp0" (some { dialect := .v1, wordBits := 8, registers := 1 })) := by
  have htight : assemble "jmp," (some { dialect := .v1, wordBits := 8, registers := 1 }) =
      .error ⟨1, .unknownMnemonic "jmp,"⟩ := by cbv
  have hspaced : assemble "jmp ," (some { dialect := .v1, wordBits := 8, registers := 1 }) =
      .error ⟨1, .operandCount (.jump .always) 2⟩ := by cbv
  have hgood : assemble "jmp 0" (some { dialect := .v1, wordBits := 8, registers := 1 }) =
      .ok { params := { dialect := .v1, wordBits := 8, registers := 1 }
            instructions := #[.jump .always (.imm 0)], labels := #[], lines := #[1] } := by cbv
  have hbad : assemble "jmp0" (some { dialect := .v1, wordBits := 8, registers := 1 }) =
      .error ⟨1, .unknownMnemonic "jmp0"⟩ := by cbv
  rw [htight, hspaced, hgood, hbad]
  constructor
  · intro h
    cases h with
    | error hline hkind => cases hkind
  · intro h
    cases h

end Program
end WordRam
