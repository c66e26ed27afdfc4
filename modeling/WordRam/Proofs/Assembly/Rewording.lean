import WordRam.Proofs.Assembly.Disassembly
import WordRam.Proofs.Assembly.Tokens
import WordRam.Proofs.Text.Trimming

/-!
# Lines that say the same

A line of source text can be written in several ways (`Reworded`). White space at its ends and what
follows a semicolon are gone before anything is read (`codeText_ends`), and white space around an
operand is gone before the operand is (`Code.tokens_append_cons`). That leaves the first white space
after a mnemonic, which is where the mnemonic ends: however much of it there is, and however the
mnemonic is written, the same opcode is read from the line, with the same operands
(`Code.Synonymous`). If nothing is read, the defect may quote the line, but it is of the same kind.
Main statements: `Reworded.synonymous` and `Synonymous.read`.
-/

namespace WordRam

open Text

variable {line line' lead lead' word gap gap' trail trail' cs rest text text' : List Char}

/-! ### Comments -/

/-- The part of a line before its comment. -/
def uncommented (line : List Char) : List Char :=
  (cut (· = ';') line).1

theorem codeText_eq (line : List Char) : codeText line = trim (uncommented line) := rfl

theorem uncommented_append (h : ';' ∉ cs) (rest : List Char) :
    uncommented (cs ++ rest) = cs ++ uncommented rest := by
  rw [uncommented, uncommented, cut_fst, cut_fst, List.takeWhile_append_of_pos]
  intro c hc
  have hne : c ≠ ';' := fun heq => h (heq ▸ hc)
  simpa using hne

theorem uncommented_append_of_mem (h : ';' ∈ cs) (rest : List Char) :
    uncommented (cs ++ rest) = uncommented cs := by
  rcases List.append_of_mem h with ⟨init, more, rfl⟩
  simp only [uncommented, cut_fst, List.append_assoc, List.cons_append, List.takeWhile_append]
  split
  · simp
  · rfl

theorem not_semicolon_of_blank (h : ∀ c ∈ gap, isBlank c) : ';' ∉ gap :=
  fun hm => absurd (h _ hm) (by decide)

/-- A line with nothing on it but white space and a comment. -/
inductive Idle : List Char → Prop
  | blank {gap : List Char} (h : ∀ c ∈ gap, isBlank c) : Idle gap
  | comment {gap : List Char} (h : ∀ c ∈ gap, isBlank c) (words : List Char) :
    Idle (gap ++ ';' :: words)

theorem Idle.uncommented (h : Idle line) : ∀ c ∈ uncommented line, isBlank c := by
  cases h with
  | blank h =>
    have hself := uncommented_append (not_semicolon_of_blank h) []
    rw [List.append_nil] at hself
    rw [hself]
    simpa [WordRam.uncommented, cut] using h
  | comment h words =>
    rw [uncommented_append (not_semicolon_of_blank h)]
    simpa [WordRam.uncommented, cut] using h

theorem Idle.codeText (h : Idle line) : codeText line = [] :=
  trim_eq_nil h.uncommented

/-- What stands around the code of a line plays no part in it. -/
theorem codeText_ends (hlead : ∀ c ∈ lead, isBlank c) (htrail : Idle trail) (body : List Char) :
    codeText (lead ++ body ++ trail) = codeText body := by
  rw [codeText_eq, codeText_eq, List.append_assoc, uncommented_append (not_semicolon_of_blank hlead),
    trim_append_left hlead]
  by_cases h : ';' ∈ body
  · rw [uncommented_append_of_mem h]
  · have hself := uncommented_append h []
    rw [List.append_nil] at hself
    have hnil : ∀ c ∈ uncommented [], isBlank c := nofun
    rw [uncommented_append h, hself, trim_append_right htrail.uncommented, trim_append_right hnil]

/-- A word at the start of a line is left as it is. -/
theorem codeText_word (hlead : ∀ c ∈ lead, isBlank c) (hne : word ≠ [])
    (hword : ∀ c ∈ word, isBlank c = false) (hbefore : ';' ∉ word) (rest : List Char) :
    codeText (lead ++ word ++ rest) = word ++ trimEnd (uncommented rest) := by
  have hcut : ';' ∉ lead ++ word := by
    simp [hbefore, not_semicolon_of_blank hlead]
  rw [codeText_eq, uncommented_append hcut, List.append_assoc, trim_append_left hlead,
    trim_word_append hne hword]

/-- If anything follows the first word of a line, it begins with white space. -/
theorem trimEnd_uncommented (h : ∀ c ∈ rest.head?, isBlank c ∨ c = ';') :
    trimEnd (uncommented rest) = [] ∨
      ∃ c more, trimEnd (uncommented rest) = c :: more ∧ isBlank c := by
  rcases rest with _ | ⟨c, rest⟩
  · exact .inl rfl
  · rcases h c rfl with hc | rfl
    · have hcut : ';' ∉ [c] := not_semicolon_of_blank (List.forall_mem_singleton.2 hc)
      have hself : uncommented (c :: rest) = [c] ++ uncommented rest := uncommented_append hcut rest
      rw [hself]
      by_cases hrest : trimEnd (uncommented rest) = []
      · rw [trimEnd_append_of_nil hrest]
        exact .inl (trimEnd_eq_nil (List.forall_mem_singleton.2 hc))
      · rw [trimEnd_append hrest]
        exact .inr ⟨c, _, rfl, hc⟩
    · exact .inl rfl

/-! ### Characters -/

theorem Term.isPlain_of_isLabel {name : List Char} (h : isLabel name) {c : Char} (hc : c ∈ name) :
    isPlain c ∨ c = '_' := by
  match name with
  | [] => cases hc
  | d :: more =>
    simp only [isLabel, Bool.and_eq_true, Bool.or_eq_true, decide_eq_true_eq, List.all_eq_true] at h
    rcases List.mem_cons.1 hc with rfl | hc
    · exact h.1.1.imp_left fun hl => by simp [isPlain, hl]
    · exact (h.1.2 c hc).imp_left fun hl => by rcases hl with hl | hl <;> simp [isPlain, hl]

theorem Term.not_isLabel_of_blank {name : List Char} {c : Char} (hc : c ∈ name) (hb : isBlank c) :
    ¬ isLabel name := by
  intro h
  rcases isPlain_of_isLabel h hc with hp | rfl
  · simp [not_isBlank_of_isPlain hp] at hb
  · exact absurd hb (by decide)

theorem Term.not_isLabel_of_comma {name : List Char} (h : ',' ∈ name) : ¬ isLabel name := by
  intro hl
  exact absurd (isPlain_of_isLabel hl h) (by decide)

/-- What stands before a colon is no label if there is a comma in it. -/
theorem Term.not_isLabel_of_comma_colon {s v : List Char}
    (h : (s ++ ',' :: v).getLast? = some ':') : ¬ isLabel (trimEnd (s ++ ',' :: v).dropLast) := by
  rcases List.eq_nil_or_concat v with rfl | ⟨init, d, rfl⟩
  · simp at h
  · refine not_isLabel_of_comma ?_
    have hdrop : (s ++ ',' :: init.concat d).dropLast = s ++ ',' :: init := by
      rw [List.concat_eq_append, ← List.cons_append, ← List.append_assoc, List.dropLast_concat]
    rw [hdrop, trimEnd_append_cons (by decide)]
    simp

theorem isPlain_of_toLower {c : Char} (h : isPlain c.toLower) : isPlain c := by
  unfold Char.toLower at h
  split at h
  · next hupper =>
    have hletter : Term.isLetter c := by
      rw [Term.isLetter, Bool.or_eq_true, Bool.and_eq_true, Bool.and_eq_true]
      exact .inr ⟨decide_eq_true hupper.1, decide_eq_true hupper.2⟩
    simp [isPlain, hletter]
  · exact h

/-- The name of an opcode is written with plain characters, in whatever case. -/
theorem Opcode.isPlain_of_ofMnemonic? {name : List Char} {op : Opcode}
    (h : ofMnemonic? name = some op) : name ≠ [] ∧ ∀ c ∈ name, isPlain c := by
  have heq : op.mnemonic.toList = name.map Char.toLower := by simpa using List.find?_some h
  rcases isPlain_mnemonic op with ⟨hne, hplain⟩
  rw [heq] at hne hplain
  refine ⟨fun hnil => hne (congrArg _ hnil), fun c hc => ?_⟩
  exact isPlain_of_toLower (hplain _ (List.mem_map_of_mem hc))

theorem Opcode.not_mem_of_ofMnemonic? {name : List Char} {op : Opcode}
    (h : ofMnemonic? name = some op) {c : Char} (hc : isPlain c = false) : c ∉ name := by
  intro hm
  simp [(isPlain_of_ofMnemonic? h).2 c hm] at hc

theorem Opcode.not_blank_of_ofMnemonic? {name : List Char} {op : Opcode}
    (h : ofMnemonic? name = some op) : ∀ c ∈ name, isBlank c = false :=
  fun c hc => not_isBlank_of_isPlain ((isPlain_of_ofMnemonic? h).2 c hc)

theorem Opcode.ofMnemonic?_of_comma {name : List Char} (h : ',' ∈ name) :
    ofMnemonic? name = none := by
  rcases hop : ofMnemonic? name with _ | op
  · rfl
  · exact absurd ((isPlain_of_ofMnemonic? hop).2 _ h) (by decide)

/-! ### Operands -/

namespace Code

variable {m r v : List Char} {c : Char}

theorem not_comma_of_blank (c : Char) (hc : isBlank c) : decide (c = ',') = false := by
  refine decide_eq_false ?_
  rintro rfl
  exact absurd hc (by decide)

theorem tokens_append_cons (r v : List Char) :
    tokens (r ++ ',' :: v) = trimmed (· = ',') r ++ trimmed (· = ',') v := by
  have htrim : trim (r ++ ',' :: v) = trimStart r ++ ',' :: trimEnd v :=
    trim_append_cons (by decide) r v
  have hpieces : tokens (r ++ ',' :: v) = trimmed (· = ',') (trimStart r ++ ',' :: trimEnd v) := by
    unfold tokens
    rw [htrim]
    split
    · next hnil => simp at hnil
    · rfl
  rw [hpieces, trimmed_append_cons (by decide), trimmed_trimStart not_comma_of_blank,
    trimmed_trimEnd not_comma_of_blank]

theorem tokens_comma {r r' v v' : List Char} (hr : trimmed (· = ',') r' = trimmed (· = ',') r)
    (hv : trimmed (· = ',') v' = trimmed (· = ',') v) :
    tokens (r' ++ ',' :: v') = tokens (r ++ ',' :: v) := by
  rw [tokens_append_cons, tokens_append_cons, hr, hv]

theorem trimmed_of_blank (h : ∀ c ∈ gap, isBlank c) : trimmed (· = ',') gap = [[]] := by
  have hnil := trimmed_append_left not_comma_of_blank h []
  rwa [List.append_nil] at hnil

theorem tokens_append_left (h : ∀ c ∈ gap, isBlank c) (cs : List Char) :
    tokens (gap ++ cs) = tokens cs := by
  rw [tokens, trim_append_left h, tokens]

theorem mnemonicText_word (hm : ∀ c ∈ m, isBlank c = false) : mnemonicText m = m := by
  rw [mnemonicText, cut_of_not hm]

theorem mnemonicText_append (hm : ∀ c ∈ m, isBlank c = false) (hc : isBlank c)
    (r : List Char) : mnemonicText (m ++ c :: r) = m := by
  rw [mnemonicText, cut_append_cons hm hc]

theorem operandTokens_append (hm : ∀ c ∈ m, isBlank c = false) (hc : isBlank c)
    (r : List Char) : operandTokens (m ++ c :: r) = tokens r := by
  rw [operandTokens, cut_append_cons hm hc]
  rfl

/-- A text that begins with a word and a comma begins with no mnemonic, unless there is white space
between them and the word is one. -/
theorem ofMnemonic?_comma (hm : ∀ c ∈ m, isBlank c = false) (hgap : ∀ c ∈ gap, isBlank c)
    (h : gap = [] ∨ Opcode.ofMnemonic? m = none) (v : List Char) :
    Opcode.ofMnemonic? (mnemonicText (m ++ gap ++ ',' :: v)) = none := by
  rcases gap with _ | ⟨c, gap⟩
  · refine Opcode.ofMnemonic?_of_comma ?_
    have hword : ∀ c ∈ m ++ [','], (!isBlank c) = true := by
      intro c hc
      rcases List.mem_append.1 hc with hc | hc
      · simp [hm c hc]
      · rw [List.mem_singleton.1 hc]
        rfl
    rw [mnemonicText, cut_fst, List.append_nil, List.append_cons,
      List.takeWhile_append_of_pos hword]
    simp
  · rw [List.append_assoc, List.cons_append, mnemonicText_append hm (hgap c List.mem_cons_self)]
    exact h.resolve_left (List.cons_ne_nil _ _)

end Code

/-- The texts begin with the same mnemonic, and with the same operands after it if it is the name of
an opcode. -/
structure Code.Synonymous (text text' : List Char) : Prop where
  opcode : Opcode.ofMnemonic? (mnemonicText text') = Opcode.ofMnemonic? (mnemonicText text)
  operands : Opcode.ofMnemonic? (mnemonicText text) ≠ none →
    operandTokens text' = operandTokens text

namespace Code.Synonymous

variable {b g g' v v' : List Char}

theorem of_none (h : Opcode.ofMnemonic? (mnemonicText text) = none)
    (h' : Opcode.ofMnemonic? (mnemonicText text') = none) : Synonymous text text' :=
  ⟨h'.trans h.symm, fun hne => absurd h hne⟩

theorem of_append {m r r' : List Char} {c c' : Char} (hm : ∀ c ∈ m, isBlank c = false)
    (hc : isBlank c) (hc' : isBlank c') (hr : tokens r' = tokens r) :
    Synonymous (m ++ c :: r) (m ++ c' :: r') := by
  constructor
  · rw [mnemonicText_append hm hc, mnemonicText_append hm hc']
  · intro _
    rw [operandTokens_append hm hc, operandTokens_append hm hc', hr]

/-- White space between a word and a comma does not matter if there is some before the edit and after
it, or if the word is no mnemonic. -/
theorem comma_word (hb : ∀ c ∈ b, isBlank c = false) (hg : ∀ c ∈ g, isBlank c)
    (hg' : ∀ c ∈ g', isBlank c) (hgap : (g = [] ↔ g' = []) ∨ Opcode.ofMnemonic? b = none)
    (hv : trimmed (· = ',') v' = trimmed (· = ',') v) :
    Synonymous (b ++ g ++ ',' :: v) (b ++ g' ++ ',' :: v') := by
  rcases hgap with hgap | hnone
  · by_cases hnil : g = []
    · exact .of_none (ofMnemonic?_comma hb hg (.inl hnil) v)
        (ofMnemonic?_comma hb hg' (.inl (hgap.1 hnil)) v')
    · rcases List.exists_cons_of_ne_nil hnil with ⟨c, more, rfl⟩
      rcases List.exists_cons_of_ne_nil (mt hgap.2 hnil) with ⟨c', more', rfl⟩
      rcases List.forall_mem_cons.1 hg with ⟨hc, hmore⟩
      rcases List.forall_mem_cons.1 hg' with ⟨hc', hmore'⟩
      simp only [List.append_assoc, List.cons_append]
      refine .of_append hb hc hc' (tokens_comma ?_ hv)
      rw [trimmed_of_blank hmore, trimmed_of_blank hmore']
  · exact .of_none (ofMnemonic?_comma hb hg (.inr hnone) v)
      (ofMnemonic?_comma hb hg' (.inr hnone) v')

theorem comma (hg : ∀ c ∈ g, isBlank c) (hg' : ∀ c ∈ g', isBlank c)
    (hgap : (g = [] ↔ g' = []) ∨ Opcode.ofMnemonic? (trim b) = none)
    (hv : trimmed (· = ',') v' = trimmed (· = ',') v) :
    Synonymous (trimStart (b ++ g) ++ ',' :: v) (trimStart (b ++ g') ++ ',' :: v') := by
  by_cases hb : trimStart b = []
  · -- the comma comes first, whatever white space is before it
    have hnil : ∀ c ∈ ([] : List Char), isBlank c = false := nofun
    have hnil' : ∀ c ∈ ([] : List Char), isBlank c := nofun
    rcases eq_append_trimStart b with ⟨lead, heq, hlead⟩
    rw [hb, List.append_nil] at heq
    rw [heq, trimStart_append_left hlead, trimStart_append_left hlead, trimStart_eq_nil hg,
      trimStart_eq_nil hg']
    exact .comma_word hnil hnil' hnil' (.inl Iff.rfl) hv
  rw [trimStart_append hb, trimStart_append hb]
  have htrim : trimEnd (trimStart b) = trim b := rfl
  generalize trimStart b = s at hb htrim ⊢
  rcases cut_cases isBlank s with hs | ⟨m, c, r, rfl, hm, hc⟩
  · rw [← htrim, trimEnd_of_not_blank hs] at hgap
    exact .comma_word hs hg hg' hgap hv
  · -- the mnemonic ends long before the comma
    simp only [List.append_assoc, List.cons_append]
    refine .of_append hm hc hc ?_
    rw [← List.append_assoc, ← List.append_assoc]
    refine tokens_comma ?_ hv
    rw [trimmed_append_right not_comma_of_blank hg, trimmed_append_right not_comma_of_blank hg']

/-- The case of the letters of a mnemonic does not matter. -/
theorem letters {name name' : List Char} {op : Opcode} (hop : Opcode.ofMnemonic? name = some op)
    (hop' : Opcode.ofMnemonic? name' = some op)
    (hr : rest = [] ∨ ∃ c more, rest = c :: more ∧ isBlank c) :
    Synonymous (name ++ rest) (name' ++ rest) := by
  have hword := Opcode.not_blank_of_ofMnemonic? hop
  have hword' := Opcode.not_blank_of_ofMnemonic? hop'
  rcases hr with rfl | ⟨c, more, rfl, hc⟩
  · rw [List.append_nil, List.append_nil]
    constructor
    · rw [mnemonicText_word hword, mnemonicText_word hword', hop, hop']
    · intro _
      rw [operandTokens, operandTokens, cut_of_not hword, cut_of_not hword']
  · constructor
    · rw [mnemonicText_append hword hc, mnemonicText_append hword' hc, hop, hop']
    · intro _
      rw [operandTokens_append hword hc, operandTokens_append hword' hc]

end Code.Synonymous

/-! ### Lines -/

/-- The same value, or defects of the same kind. -/
inductive SameKind {α : Type} : Except Defect α → Except Defect α → Prop
  | ok (a : α) : SameKind (.ok a) (.ok a)
  | error {d d' : Defect} (h : d'.ctorIdx = d.ctorIdx) : SameKind (.error d) (.error d')

theorem SameKind.refl {α : Type} : ∀ x : Except Defect α, SameKind x x
  | .ok a => .ok a
  | .error _ => .error rfl

theorem Code.Synonymous.read (h : Code.Synonymous text text') (p : Params) (w : Width) :
    SameKind (Code.read p w text) (Code.read p w text') := by
  rw [read_eq, read_eq, h.opcode]
  rcases hop : Opcode.ofMnemonic? (mnemonicText text) with _ | op
  · exact .error rfl
  · rw [h.operands (by simp [hop])]
    exact .refl _

/-- The lines say the same, or neither of them says anything. -/
inductive Synonymous (line line' : List Char) : Prop
  | text (h : codeText line' = codeText line)
  | code (hc : isCode line) (hc' : isCode line')
    (h : Code.Synonymous (codeText line) (codeText line'))
  | label (hd : definesLabel line) (hd' : definesLabel line')
    (h : labelText line' = labelText line ∨
      ¬ Term.isLabel (labelText line) ∧ ¬ Term.isLabel (labelText line'))

theorem Synonymous.read (h : Synonymous line line') (p : Params) (w : Width) :
    SameKind (Statement.read p w line) (Statement.read p w line') := by
  cases h with
  | text h =>
    rw [Statement.read, Statement.read, h]
    exact .refl _
  | code hc hc' h =>
    rw [Statement.read_eq, Statement.read_eq, if_pos hc, if_pos hc']
    have hread := h.read p w
    generalize Code.read p w (codeText line) = x at hread
    generalize Code.read p w (codeText line') = y at hread
    cases hread with
    | ok c => exact .ok _
    | error hkind => exact .error hkind
  | label hd hd' h =>
    have hc : ¬ isCode line := fun hc => not_definesLabel_of_isCode hc hd
    have hc' : ¬ isCode line' := fun hc => not_definesLabel_of_isCode hc hd'
    rw [Statement.read_eq, Statement.read_eq, if_neg hc, if_neg hc', if_pos hd, if_pos hd']
    rcases h with h | ⟨hn, hn'⟩
    · rw [h]
      exact .refl _
    · rw [if_neg hn, if_neg hn']
      exact .error rfl

/-- Texts that end alike are both code or both define a label. -/
theorem Synonymous.of_codeText (ht : codeText line = text) (ht' : codeText line' = text')
    (hne : text ≠ []) (hlast : text'.getLast? = text.getLast?)
    (hlabel : text.getLast? = some ':' → trimEnd text'.dropLast = trimEnd text.dropLast ∨
      ¬ Term.isLabel (trimEnd text.dropLast) ∧ ¬ Term.isLabel (trimEnd text'.dropLast))
    (hcode : Code.Synonymous text text') : Synonymous line line' := by
  have hne' : text' ≠ [] := by
    rintro rfl
    exact hne (List.getLast?_eq_none_iff.1 hlast.symm)
  by_cases hcolon : text.getLast? = some ':'
  · refine .label ?_ ?_ ?_
    · simp [definesLabel, ht, hcolon]
    · simp [definesLabel, ht', hlast, hcolon]
    · rw [labelText, labelText, ht, ht']
      exact hlabel hcolon
  · refine .code ?_ ?_ ?_
    · simp [isCode, ht, hne, hcolon]
    · simp [isCode, ht', hne', hlast, hcolon]
    · rw [ht, ht']
      exact hcode

/-- A line is written in another way: there is other white space in a place where it does not
matter, or another comment, or other letters in a mnemonic. -/
inductive Reworded : List Char → List Char → Prop
  /-- White space at the ends, and a comment after the line or none. -/
  | ends {lead lead' trail trail' : List Char} (hlead : ∀ c ∈ lead, isBlank c)
    (hlead' : ∀ c ∈ lead', isBlank c) (htrail : Idle trail) (htrail' : Idle trail')
    (body : List Char) : Reworded (lead ++ body ++ trail) (lead' ++ body ++ trail')
  /-- White space around a comma, but not the only white space after a mnemonic. -/
  | comma {before gap gap' rear rear' : List Char} (hbefore : ';' ∉ before)
    (hgap : ∀ c ∈ gap, isBlank c) (hgap' : ∀ c ∈ gap', isBlank c)
    (hrear : ∀ c ∈ rear, isBlank c) (hrear' : ∀ c ∈ rear', isBlank c)
    (hword : (gap = [] ↔ gap' = []) ∨ Opcode.ofMnemonic? (trim before) = none)
    (after : List Char) :
    Reworded (before ++ gap ++ ',' :: rear ++ after) (before ++ gap' ++ ',' :: rear' ++ after)
  /-- White space between a mnemonic and operands, of which some is left. -/
  | operands {lead word gap gap' : List Char} (hlead : ∀ c ∈ lead, isBlank c) (hne : word ≠ [])
    (hword : ∀ c ∈ word, isBlank c = false) (hbefore : ';' ∉ word)
    (hgap : gap ≠ [] ∧ ∀ c ∈ gap, isBlank c) (hgap' : gap' ≠ [] ∧ ∀ c ∈ gap', isBlank c)
    (rest : List Char) : Reworded (lead ++ word ++ gap ++ rest) (lead ++ word ++ gap' ++ rest)
  /-- White space before the colon of a label. -/
  | colon {before gap gap' trail : List Char} (hbefore : ';' ∉ before)
    (hgap : ∀ c ∈ gap, isBlank c) (hgap' : ∀ c ∈ gap', isBlank c) (htrail : Idle trail) :
    Reworded (before ++ gap ++ ':' :: trail) (before ++ gap' ++ ':' :: trail)
  /-- The case of the letters of a mnemonic. -/
  | letters {lead name name' rest : List Char} {op : Opcode} (hlead : ∀ c ∈ lead, isBlank c)
    (hop : Opcode.ofMnemonic? name = some op)
    (hcase : name'.map Char.toLower = name.map Char.toLower)
    (hrest : ∀ c ∈ rest.head?, isBlank c ∨ c = ';') (hcode : isCode (lead ++ name ++ rest)) :
    Reworded (lead ++ name ++ rest) (lead ++ name' ++ rest)

namespace Synonymous

theorem comma {before rear rear' : List Char} (hbefore : ';' ∉ before)
    (hgap : ∀ c ∈ gap, isBlank c) (hgap' : ∀ c ∈ gap', isBlank c)
    (hrear : ∀ c ∈ rear, isBlank c) (hrear' : ∀ c ∈ rear', isBlank c)
    (hword : (gap = [] ↔ gap' = []) ∨ Opcode.ofMnemonic? (trim before) = none)
    (after : List Char) :
    Synonymous (before ++ gap ++ ',' :: rear ++ after) (before ++ gap' ++ ',' :: rear' ++ after) := by
  have htext {gap rear : List Char} (hgap : ∀ c ∈ gap, isBlank c) (hrear : ∀ c ∈ rear, isBlank c) :
      codeText (before ++ gap ++ ',' :: rear ++ after) =
        trimStart (before ++ gap) ++ ',' :: trimEnd (rear ++ uncommented after) := by
    have hcut : ';' ∉ before ++ gap ++ ',' :: rear := by
      simp [hbefore, not_semicolon_of_blank hgap, not_semicolon_of_blank hrear]
    rw [codeText_eq, uncommented_append hcut, List.append_assoc, List.cons_append,
      trim_append_cons (by decide)]
  have hlast {s rear : List Char} (hrear : ∀ c ∈ rear, isBlank c) :
      (s ++ ',' :: trimEnd (rear ++ uncommented after)).getLast? =
        some ((trimEnd (uncommented after)).getLast?.getD ',') := by
    simp [List.getLast?_append, List.getLast?_cons, getLast?_trimEnd_append hrear]
  have hcomma := Code.not_comma_of_blank
  refine .of_codeText (htext hgap hrear) (htext hgap' hrear') (by simp) ?_ ?_ ?_
  · rw [hlast hrear, hlast hrear']
  · intro hcolon
    refine .inr ⟨Term.not_isLabel_of_comma_colon hcolon, Term.not_isLabel_of_comma_colon ?_⟩
    rw [hlast hrear', ← hlast hrear, hcolon]
  · refine .comma hgap hgap' hword ?_
    rw [trimmed_trimEnd hcomma, trimmed_trimEnd hcomma, trimmed_append_left hcomma hrear,
      trimmed_append_left hcomma hrear']

theorem operands {word : List Char} (hlead : ∀ c ∈ lead, isBlank c) (hne : word ≠ [])
    (hword : ∀ c ∈ word, isBlank c = false) (hbefore : ';' ∉ word)
    (hgap : gap ≠ [] ∧ ∀ c ∈ gap, isBlank c) (hgap' : gap' ≠ [] ∧ ∀ c ∈ gap', isBlank c)
    (rest : List Char) :
    Synonymous (lead ++ word ++ gap ++ rest) (lead ++ word ++ gap' ++ rest) := by
  have htext {gap : List Char} (hgap : ∀ c ∈ gap, isBlank c) :
      codeText (lead ++ word ++ gap ++ rest) = word ++ trimEnd (gap ++ uncommented rest) := by
    rw [List.append_assoc, codeText_word hlead hne hword hbefore,
      uncommented_append (not_semicolon_of_blank hgap)]
  -- with nothing after the gap, the gap is trimmed off as well
  by_cases hrest : trimEnd (uncommented rest) = []
  · refine .text ?_
    rw [htext hgap.2, htext hgap'.2, trimEnd_append_of_nil hrest, trimEnd_append_of_nil hrest,
      trimEnd_eq_nil hgap.2, trimEnd_eq_nil hgap'.2]
  · have htext {gap : List Char} (hgap : ∀ c ∈ gap, isBlank c) :
        codeText (lead ++ word ++ gap ++ rest) = word ++ (gap ++ trimEnd (uncommented rest)) := by
      rw [htext hgap, trimEnd_append hrest]
    -- otherwise the lines end alike, whatever the gap
    generalize trimEnd (uncommented rest) = v at hrest htext
    have hlast (cs : List Char) : (cs ++ v).getLast? = v.getLast? := by
      rw [List.getLast?_append, Option.or_of_isSome (List.getLast?_isSome.2 hrest)]
    have hdrop (gap : List Char) :
        (word ++ (gap ++ v)).dropLast = word ++ gap ++ v.dropLast := by
      rw [← List.append_assoc, List.dropLast_append_of_ne_nil hrest]
    refine .of_codeText (htext hgap.2) (htext hgap'.2) (by simp [hne]) ?_ (fun _ => ?_) ?_
    · rw [← List.append_assoc, ← List.append_assoc, hlast, hlast]
    · rw [hdrop, hdrop]
      by_cases hname : trimEnd v.dropLast = []
      · -- nothing but white space is left between the word and the colon
        rw [trimEnd_append_of_nil hname, trimEnd_append_of_nil hname, trimEnd_append_right hgap.2,
          trimEnd_append_right hgap'.2]
        exact .inl rfl
      · have hlabel {gap : List Char} (hgap : gap ≠ [] ∧ ∀ c ∈ gap, isBlank c) :
            ¬ Term.isLabel (trimEnd (word ++ gap ++ v.dropLast)) := by
          rcases List.exists_cons_of_ne_nil hgap.1 with ⟨c, more, rfl⟩
          rw [trimEnd_append hname]
          exact Term.not_isLabel_of_blank (c := c) (by simp) (hgap.2 c List.mem_cons_self)
        exact .inr ⟨hlabel hgap, hlabel hgap'⟩
    · -- the mnemonic ends at the first character of either gap
      rcases List.exists_cons_of_ne_nil hgap.1 with ⟨c, more, rfl⟩
      rcases List.exists_cons_of_ne_nil hgap'.1 with ⟨c', more', rfl⟩
      rcases List.forall_mem_cons.1 hgap.2 with ⟨hc, hmore⟩
      rcases List.forall_mem_cons.1 hgap'.2 with ⟨hc', hmore'⟩
      show Code.Synonymous (word ++ c :: (more ++ v)) (word ++ c' :: (more' ++ v))
      refine .of_append hword hc hc' ?_
      rw [Code.tokens_append_left hmore, Code.tokens_append_left hmore']

theorem colon {before : List Char} (hbefore : ';' ∉ before) (hgap : ∀ c ∈ gap, isBlank c)
    (hgap' : ∀ c ∈ gap', isBlank c) (htrail : Idle trail) :
    Synonymous (before ++ gap ++ ':' :: trail) (before ++ gap' ++ ':' :: trail) := by
  have htext {gap : List Char} (hgap : ∀ c ∈ gap, isBlank c) :
      codeText (before ++ gap ++ ':' :: trail) = trimStart (before ++ gap) ++ [':'] := by
    have hcut : ';' ∉ before ++ gap ++ [':'] := by
      simp [hbefore, not_semicolon_of_blank hgap]
    rw [codeText_eq, List.append_cons, uncommented_append hcut, List.append_assoc,
      List.singleton_append, trim_append_cons (by decide), trimEnd_eq_nil htrail.uncommented]
  have hname {gap : List Char} (hgap : ∀ c ∈ gap, isBlank c) :
      labelText (before ++ gap ++ ':' :: trail) = trim before := by
    rw [labelText, htext hgap, List.dropLast_concat]
    exact trim_append_right hgap before
  refine .label ?_ ?_ (.inl ?_)
  · rw [definesLabel, htext hgap]
    simp
  · rw [definesLabel, htext hgap']
    simp
  · rw [hname hgap, hname hgap']

theorem letters {name name' : List Char} {op : Opcode} (hlead : ∀ c ∈ lead, isBlank c)
    (hop : Opcode.ofMnemonic? name = some op)
    (hcase : name'.map Char.toLower = name.map Char.toLower)
    (hrest : ∀ c ∈ rest.head?, isBlank c ∨ c = ';') (hcode : isCode (lead ++ name ++ rest)) :
    Synonymous (lead ++ name ++ rest) (lead ++ name' ++ rest) := by
  have hop' : Opcode.ofMnemonic? name' = some op := by
    rw [← hop, Opcode.ofMnemonic?, hcase]
    rfl
  have htext {name : List Char} (hop : Opcode.ofMnemonic? name = some op) :
      codeText (lead ++ name ++ rest) = name ++ trimEnd (uncommented rest) :=
    codeText_word hlead (Opcode.isPlain_of_ofMnemonic? hop).1 (Opcode.not_blank_of_ofMnemonic? hop)
      (Opcode.not_mem_of_ofMnemonic? hop (by decide)) rest
  -- a mnemonic does not end with a colon, so the lines end with one only if what follows does
  have hlast {name : List Char} (hop : Opcode.ofMnemonic? name = some op) :
      (name ++ trimEnd (uncommented rest)).getLast? = some ':' ↔
        (trimEnd (uncommented rest)).getLast? = some ':' := by
    rw [List.getLast?_append]
    rcases (trimEnd (uncommented rest)).getLast? with _ | d
    · refine ⟨fun hcolon => ?_, fun hcolon => ?_⟩
      · exact absurd (List.mem_of_getLast? hcolon) (Opcode.not_mem_of_ofMnemonic? hop (by decide))
      · cases hcolon
    · exact Iff.rfl
  refine .code hcode ?_ ?_
  · simp only [isCode, htext hop, htext hop', Bool.and_eq_true, decide_eq_true_eq, ne_eq,
      hlast hop, hlast hop'] at hcode ⊢
    simp [(Opcode.isPlain_of_ofMnemonic? hop').1, hcode.2]
  · rw [htext hop, htext hop']
    exact .letters hop hop' (trimEnd_uncommented hrest)

end Synonymous

/-- However a line is written, it says the same. -/
theorem Reworded.synonymous (h : Reworded line line') : Synonymous line line' := by
  cases h with
  | ends hlead hlead' htrail htrail' body =>
    refine .text ?_
    rw [codeText_ends hlead htrail, codeText_ends hlead' htrail']
  | comma hbefore hgap hgap' hrear hrear' hword after =>
    exact .comma hbefore hgap hgap' hrear hrear' hword after
  | operands hlead hne hword hbefore hgap hgap' rest =>
    exact .operands hlead hne hword hbefore hgap hgap' rest
  | colon hbefore hgap hgap' htrail => exact .colon hbefore hgap hgap' htrail
  | letters hlead hop hcase hrest hcode => exact .letters hlead hop hcase hrest hcode

end WordRam
