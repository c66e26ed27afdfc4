import WordRam.Proofs.Assembly.HeaderLine
import WordRam.Proofs.Assembly.Listing

/-!
# Disassembly

A list of instructions is written down as source text: the header of the parameters, and then each
instruction on a line of its own. If the instructions belong to the dialect and their operands fit
the parameters (`Program.Listable`), the text is read back piece by piece: an operand from its token
(`Term.read_text`), the operands from the tokens between commas (`Code.readArguments_text`), the
instruction from its line (`Statement.read_text`), and the program from its lines
(`Program.Listable.ofLines`). Assembled programs are of that kind, so disassembly undoes assembly,
but for labels: `Program.assemble_disassembly`.
-/

namespace WordRam

open Text

variable {p : Params} {w : Width} {labels : Labels}

/-! ### Operands -/

namespace Operand

/-- The term that an operand is written as. -/
def term : Operand → Term
  | .reg r => .reg r
  | .imm v => .imm v

/-- The operand can be written at given parameters: a register that exists, or a word. -/
def Fits (p : Params) : Operand → Prop
  | .reg r => r < p.registers
  | .imm v => v ≤ 2 ^ p.wordBits - 1

instance : (o : Operand) → Decidable (o.Fits p)
  | .reg r => inferInstanceAs (Decidable (r < p.registers))
  | .imm v => inferInstanceAs (Decidable (v ≤ 2 ^ p.wordBits - 1))

theorem text_reg (r : Reg) : (reg r).text.toList = 'r' :: Nat.toDigits 10 r := by
  simp [text, toString]

theorem text_imm (v : Nat) : (imm v).text.toList = Nat.toDigits 10 v := by
  simp [text, toString]

theorem isPlain_of_mem_text {o : Operand} {c : Char} (h : c ∈ o.text.toList) : isPlain c := by
  cases o with
  | reg r =>
    rw [text_reg] at h
    rcases List.mem_cons.1 h with rfl | h
    · rfl
    · exact isPlain_of_mem_toDigits h
  | imm v =>
    rw [text_imm] at h
    exact isPlain_of_mem_toDigits h

theorem text_ne_nil (o : Operand) : o.text.toList ≠ [] := by
  cases o with
  | reg r => rw [text_reg]; exact List.cons_ne_nil _ _
  | imm v => rw [text_imm]; exact Nat.toDigits_ne_nil

end Operand

theorem Denotes.fits {token : List Char} {o : Operand} (h : Denotes p labels token o) :
    o.Fits p := by
  have hpos : 0 < 2 ^ p.wordBits := Nat.two_pow_pos _
  cases h with
  | register _ hn => exact hn
  | number => exact Nat.le_sub_one_of_lt (Nat.mod_lt _ hpos)
  | @negative digits =>
    have hlt : (-(digitsValue digits : Int) % 2 ^ p.wordBits).toNat < 2 ^ p.wordBits := by
      have hpos : (0 : Int) < 2 ^ p.wordBits := by exact_mod_cast hpos
      rw [Int.toNat_lt (Int.emod_nonneg _ hpos.ne')]
      exact_mod_cast Int.emod_lt_of_pos _ hpos
    exact Nat.le_sub_one_of_lt hlt
  | label _ _ _ ha => exact ha

namespace Term

theorem readImmediate_toDigits {v : Nat} (hv : v ≤ w.mask) :
    readImmediate w (Nat.toDigits 10 v) = .ok (.imm v) := by
  have hinteger : integer? (Nat.toDigits 10 v) = some (v : Int) := by
    unfold integer?
    split
    · next heq =>
      have hminus : '-' ∈ Nat.toDigits 10 v := by rw [heq]; exact List.mem_cons_self
      exact absurd (isDigit_of_mem_toDigits hminus) (by decide)
    · rw [if_pos (isDigits_toDigits v), digitsValue_toDigits]
  have hword : w.ofInt v = v := by
    have hlt : v < w.size := by
      have hpos := w.size_pos
      rw [Width.mask] at hv
      omega
    rw [Width.ofInt, Int.emod_eq_of_lt (by omega) (by omega), Int.toNat_natCast]
  have hrange : -(w.half : Int) ≤ v ∧ (v : Int) ≤ w.mask := by omega
  rw [readImmediate, hinteger]
  simp only [if_pos hrange, hword]

theorem read_text (hw : w.bits = p.wordBits) {o : Operand} (h : o.Fits p) :
    Term.read p w o.text.toList = .ok o.term := by
  cases o with
  | reg r =>
    have hindex : registerIndex? ('r' :: Nat.toDigits 10 r) = some r := by
      rw [registerIndex?, if_pos (isDigits_toDigits r), digitsValue_toDigits]
    rw [Operand.text_reg, Term.read, hindex]
    exact if_pos h
  | imm v =>
    -- the first digit shows that this is no register
    obtain ⟨c, cs, heq⟩ := List.exists_cons_of_ne_nil (Nat.toDigits_ne_nil (n := v) (b := 10))
    have hdigit : isDigit c := isDigit_of_mem_toDigits (n := v) (heq ▸ List.mem_cons_self)
    have hindex : registerIndex? (Nat.toDigits 10 v) = none := by
      unfold registerIndex?
      split
      · next digits heq' =>
        cases heq.symm.trans heq'
        exact absurd hdigit (by decide)
      · rfl
    have hnumber : startsNumber (Nat.toDigits 10 v) := by
      rw [heq, startsNumber, hdigit]
      rfl
    have hv : v ≤ w.mask := by
      rw [Width.mask, Width.size, hw]
      exact h
    rw [Operand.text_imm, Term.read, hindex]
    simp only [if_pos hnumber, readImmediate_toDigits hv]
    rfl

end Term

theorem Opcode.isPlain_mnemonic (op : Opcode) :
    op.mnemonic.toList ≠ [] ∧ ∀ c ∈ op.mnemonic.toList, isPlain c := by
  have hall : ∀ op ∈ Opcode.all,
      op.mnemonic.toList ≠ [] ∧ op.mnemonic.toList.all isPlain := by decide +kernel
  obtain ⟨hne, hplain⟩ := hall op (mem_all op)
  exact ⟨hne, List.all_eq_true.1 hplain⟩

/-- The operands with the one that is no register slot replaced. -/
def Arguments.map {α β : Type} (f : α → β) {s : Shape} : Arguments α s → Arguments β s
  | ternary d a b => ternary d a (f b)
  | binary r a => binary r (f a)
  | unary a => unary (f a)
  | store a r => store (f a) r

theorem Code.readArguments_text {read : List Char → Except Defect Term} {op : Opcode}
    (args : Arguments Operand op.shape) (h : ∀ o ∈ args.toList, read o.text.toList = .ok o.term) :
    readArguments read op (args.toList.map fun o => o.text.toList) =
      .ok (args.map Operand.term) := by
  unfold readArguments
  revert args
  generalize op.shape = s
  intro args h
  cases args <;>
    simp only [Arguments.toList, List.forall_mem_cons] at h <;>
    simp only [Arguments.toList, List.map_cons, List.map_nil, h, bind, Except.bind] <;>
    rfl

theorem Arguments.resolve_map {s : Shape} (args : Arguments Operand s) :
    (args.map Operand.term).mapM (Draft.resolve w labels) = .ok args := by
  have hterm (o : Operand) : Draft.resolve w labels o.term = .ok o := by cases o <;> rfl
  cases args <;> simp only [Arguments.map, Arguments.mapM, hterm] <;> rfl

namespace Instruction

/-- The code that an instruction is written as. -/
def code (i : Instruction) : Code :=
  ⟨i.opcode, i.arguments.map Operand.term⟩

theorem link_code (line : Nat) (i : Instruction) :
    Draft.Entry.link w labels ⟨line, i.code⟩ = .ok i := by
  rw [Draft.Entry.link, code]
  simp only [Arguments.resolve_map]
  exact congrArg Except.ok i.build_opcode_arguments

def tokens (i : Instruction) : List (List Char) :=
  i.arguments.toList.map fun o => o.text.toList

theorem text_toList (i : Instruction) : i.text.toList =
    i.opcode.mnemonic.toList ++ [' '] ++ List.intercalate [',', ' '] i.tokens := by
  simp [text, tokens, String.toList_intercalate, Function.comp_def]

theorem tokens_ne_nil (i : Instruction) : i.tokens ≠ [] := by
  cases i <;> exact List.cons_ne_nil _ _

theorem isPlain_of_mem_tokens {i : Instruction} {token : List Char} (ht : token ∈ i.tokens)
    {c : Char} (hc : c ∈ token) : isPlain c := by
  obtain ⟨o, -, rfl⟩ := List.mem_map.1 ht
  exact Operand.isPlain_of_mem_text hc

/-! ### Lines -/

/-- The characters of a line: those of words, and those between words. -/
theorem mem_text {i : Instruction} {c : Char} (h : c ∈ i.text.toList) :
    isPlain c ∨ c = ' ' ∨ c = ',' := by
  rw [text_toList, List.mem_append, List.mem_append, List.mem_singleton] at h
  rcases h with (h | rfl) | h
  · exact .inl (i.opcode.isPlain_mnemonic.2 c h)
  · exact .inr (.inl rfl)
  · rcases mem_intercalate h with h | ⟨token, ht, hc⟩
    · exact .inr (by simpa [or_comm] using h)
    · exact .inl (isPlain_of_mem_tokens ht hc)

theorem not_mem_text {i : Instruction} {c : Char} (hc : isPlain c = false) (hspace : c ≠ ' ')
    (hcomma : c ≠ ',') : c ∉ i.text.toList := by
  intro h
  rcases mem_text h with h | h | h
  · exact absurd h (by simp [hc])
  · exact hspace h
  · exact hcomma h

theorem tokens_tight (i : Instruction) : Tight (List.intercalate [',', ' '] i.tokens) := by
  refine .intercalate i.tokens_ne_nil (fun token ht => ?_) _
  refine .of_not_blank ?_ fun c hc => not_isBlank_of_isPlain (isPlain_of_mem_tokens ht hc)
  obtain ⟨o, -, rfl⟩ := List.mem_map.1 ht
  exact o.text_ne_nil

theorem text_tight (i : Instruction) : Tight i.text.toList := by
  have hmnemonic : Tight i.opcode.mnemonic.toList :=
    .of_not_blank i.opcode.isPlain_mnemonic.1 fun c hc =>
      not_isBlank_of_isPlain (i.opcode.isPlain_mnemonic.2 c hc)
  rw [text_toList]
  exact hmnemonic.append [' '] i.tokens_tight

end Instruction

theorem Code.read_text (hw : w.bits = p.wordBits) {i : Instruction}
    (hallows : p.dialect.allows i.opcode) (hfits : ∀ o ∈ i.arguments.toList, o.Fits p) :
    Code.read p w i.text.toList = .ok i.code := by
  -- the mnemonic has no white space, so the first one ends it
  have hcut : cut isBlank i.text.toList =
      (i.opcode.mnemonic.toList, some (List.intercalate [',', ' '] i.tokens)) := by
    rw [i.text_toList, List.append_assoc, List.singleton_append]
    exact cut_append_cons
      (fun c hc => not_isBlank_of_isPlain (i.opcode.isPlain_mnemonic.2 c hc)) (by decide) _
  -- no token has a comma, so the text falls into the tokens again
  have htokens : Code.tokens (List.intercalate [',', ' '] i.tokens) = i.tokens := by
    rw [Code.tokens, i.tokens_tight.trim]
    split
    · next hnil => exact absurd hnil i.tokens_tight.ne_nil
    · refine trim_pieces_intercalate i.tokens_ne_nil fun token ht c hc => ?_
      have hplain := Instruction.isPlain_of_mem_tokens ht hc
      refine ⟨?_, not_isBlank_of_isPlain hplain⟩
      rintro rfl
      exact absurd hplain (by decide)
  have hread : readArguments (Term.read p w) i.opcode i.tokens =
      .ok (i.arguments.map Operand.term) :=
    readArguments_text i.arguments fun o ho => Term.read_text hw (hfits o ho)
  rw [Code.read, hcut]
  simp only [Opcode.ofMnemonic?_mnemonic, if_pos hallows, Option.getD_some, htokens, hread]
  rfl

/-- A line on which an instruction is written says that instruction. -/
theorem Statement.read_text (hw : w.bits = p.wordBits) {i : Instruction}
    (hallows : p.dialect.allows i.opcode) (hfits : ∀ o ∈ i.arguments.toList, o.Fits p) :
    Statement.read p w i.text.toList = .ok (.code i.code) := by
  have hcode : codeText i.text.toList = i.text.toList := by
    have hsemicolon : ';' ∉ i.text.toList :=
      Instruction.not_mem_text (by decide) (by decide) (by decide)
    have hcut : cut (· = ';') i.text.toList = (i.text.toList, none) := by
      refine cut_of_not fun c hc => decide_eq_false ?_
      rintro rfl
      exact hsemicolon hc
    rw [codeText, hcut]
    exact i.text_tight.trim
  have hlabel : labelName? i.text.toList = none := by
    have hcolon : ':' ∉ i.text.toList :=
      Instruction.not_mem_text (by decide) (by decide) (by decide)
    exact if_neg fun hlast => hcolon (List.mem_of_mem_getLast? hlast)
  rw [Statement.read]
  simp only [hcode, if_neg i.text_tight.ne_nil, hlabel, Code.read_text hw hallows hfits]
  rfl

/-- The header is a comment like any other. -/
theorem Statement.read_header (p q : Params) (w : Width) :
    Statement.read p w q.header.toList = .ok .blank := by
  rw [Statement.read, q.header_toList]
  rfl

/-! ### Programs -/

theorem Draft.foldlM_text {is : List Instruction}
    (h : ∀ i ∈ is, Statement.read p w i.text.toList = .ok (.code i.code)) (k : Nat) (d : Draft) :
    ((is.map fun i => i.text.toList).zipIdx k).foldlM (addLine p w) d =
      .ok { d with
        entries := d.entries ++ ((is.zipIdx k).map fun x => Entry.mk x.2 x.1.code).toArray } := by
  induction is generalizing k d with
  | nil => simp [pure, Except.pure]
  | cons i is ih =>
    have hline : addLine p w d (i.text.toList, k) =
        .ok { d with entries := d.entries.push ⟨k, i.code⟩ } := by
      simp only [addLine, h i List.mem_cons_self, bind, Except.bind]
      rfl
    rw [List.map_cons, List.zipIdx_cons, List.foldlM_cons, hline]
    refine (ih (fun i hi => h i (List.mem_cons_of_mem _ hi)) (k + 1) _).trans ?_
    simp [List.zipIdx_cons]

namespace Program

/-- The lines of the disassembly: the header and the instructions. -/
def listing (p : Params) (is : Array Instruction) : List String :=
  p.header :: is.toList.map Instruction.text

/-- Instructions as a source text. -/
def disassembly (p : Params) (is : Array Instruction) : String :=
  "\n".intercalate (listing p is)

/-- The program that a disassembly is: no labels, and the instructions on the lines after the
first. -/
def listed (p : Params) (is : Array Instruction) : Program where
  params := p
  instructions := is
  labels := #[]
  lines := .range' 2 is.size

/-- The instructions can be written down for the parameters: the dialect has their opcodes, their
registers exist, and their immediates are words. -/
structure Listable (p : Params) (is : Array Instruction) : Prop where
  width : ∃ w, p.width = .ok w
  allowed : ∀ i ∈ is, p.dialect.allows i.opcode
  fits : ∀ i ∈ is, ∀ o ∈ i.arguments.toList, o.Fits p

/-- The disassembly, with or without a line feed at its end, assembles to the same parameters and
instructions, without labels, and with the instructions on the lines after the first. -/
def Reassembles (p : Params) (is : Array Instruction) : Prop :=
  ∀ ending ∈ ["", "\n"], ∃ q, assemble (disassembly p is ++ ending) none = .ok q ∧
    q.params = p ∧ q.instructions = is ∧ q.labels = #[] ∧
    ∀ pc, q.line? pc = if pc < is.size then some (pc + 2) else none

variable {is : Array Instruction} {source : String} {given : Option Params} {q : Program}

theorem lines_disassembly (p : Params) (is : Array Instruction) {ending : String}
    (he : ending ∈ ["", "\n"]) : Text.lines (disassembly p is ++ ending).toList =
      p.header.toList :: is.toList.map fun i => i.text.toList := by
  have hlisting : (listing p is).map String.toList =
      p.header.toList :: is.toList.map fun i => i.text.toList := by
    simp [listing]
  have hlines : ∀ line ∈ (listing p is).map String.toList,
      line ≠ [] ∧ '\n' ∉ line ∧ '\r' ∉ line := by
    rw [hlisting, List.forall_mem_cons]
    refine ⟨⟨p.header_tight.ne_nil, p.not_mem_header (by decide) (by decide) (by decide),
      p.not_mem_header (by decide) (by decide) (by decide)⟩, fun line hl => ?_⟩
    obtain ⟨i, -, rfl⟩ := List.mem_map.1 hl
    exact ⟨i.text_tight.ne_nil, Instruction.not_mem_text (by decide) (by decide) (by decide),
      Instruction.not_mem_text (by decide) (by decide) (by decide)⟩
  obtain ⟨hplain, hfeed⟩ := lines_intercalate (by simp [listing]) hlines
  rw [← hlisting, String.toList_append, disassembly, String.toList_intercalate]
  rcases List.mem_cons.1 he with rfl | he
  · simpa using hplain
  · rw [List.mem_singleton.1 he]
    exact hfeed

example : disassembly divideAll.params #[.divide .udiv 0 0 (.reg 1), .answer (.imm 10)] =
    "; TinyRAM V=2.00 W=8 K=2\nudiv r0, r0, r1\nanswer 10" := by decide

theorem headerParams_of_header (hw : p.width = .ok w) (rest : List (List Char)) :
    headerParams (p.header.toList :: rest) = .ok p := by
  have hfirst : firstLine? (p.header.toList :: rest) = some (p.header.toList, 1) := by
    rw [firstLine?, List.zipIdx_cons, List.find?_cons_of_pos]
    exact decide_eq_true (p.header_tight.trim.symm ▸ p.header_tight.ne_nil)
  rw [headerParams, hfirst]
  simp only [Header.read_header hw]

namespace Listable

theorem ofLines (h : Listable p is) (hw : p.width = .ok w) :
    Program.ofLines p w (p.header.toList :: is.toList.map fun i => i.text.toList) =
      .ok (listed p is) := by
  have hread : ∀ i ∈ is.toList, Statement.read p w i.text.toList = .ok (.code i.code) := by
    intro i hi
    have hi := Array.mem_toList_iff.1 hi
    exact Statement.read_text (Params.bits_of_width hw) (h.allowed i hi) (h.fits i hi)
  -- the header is a comment, so the instructions begin on the second line
  have hheader : Draft.addLine p w {} (p.header.toList, 1) = .ok {} := by
    rw [Draft.addLine]
    simp only [Statement.read_header]
    rfl
  have hdraft : Draft.ofLines p w (p.header.toList :: is.toList.map fun i => i.text.toList) =
      .ok { entries :=
              ((is.toList.zipIdx 2).map fun x => Draft.Entry.mk x.2 x.1.code).toArray } := by
    rw [Draft.ofLines, List.zipIdx_cons, List.foldlM_cons, hheader]
    refine (Draft.foldlM_text hread 2 {}).trans ?_
    simp
  -- no term is a label, so linking changes nothing
  have hlink : (((is.toList.zipIdx 2).map fun x => Draft.Entry.mk x.2 x.1.code).toArray).mapM
      (Draft.Entry.link w #[]) = .ok is := by
    have hlist : ((is.toList.zipIdx 2).map fun x => Draft.Entry.mk x.2 x.1.code).mapM
        (Draft.Entry.link w #[]) = .ok ((is.toList.zipIdx 2).map Prod.fst) := by
      rw [List.mapM_map]
      exact mapM_eq_ok fun x _ => x.1.link_code x.2
    rw [List.mapM_toArray, hlist, List.zipIdx_map_fst]
    rfl
  have hlines : (((is.toList.zipIdx 2).map fun x => Draft.Entry.mk x.2 x.1.code).toArray).map
      (·.line) = .range' 2 is.size := by
    rw [List.map_toArray, List.map_map]
    exact (congrArg List.toArray (List.zipIdx_map_snd 2 is.toList)).trans (by simp)
  rw [Program.ofLines, hdraft]
  simp only [bind, Except.bind, Draft.link, hlink, hlines]
  rfl

end Listable

theorem listable_of_assemble (h : assemble source given = .ok q) :
    Listable q.params q.instructions := by
  obtain ⟨-, w, -, hw, -⟩ := assemble_ok h
  have hspelled {i : Instruction} (hi : i ∈ q.instructions) :
      ∃ text, i.Spelled q.params q.labels text := by
    obtain ⟨line, hs⟩ := forall₂_mem_right (spelled_of_assemble h) (Array.mem_toList_iff.2 hi)
    exact ⟨_, hs⟩
  refine ⟨⟨w, hw⟩, fun i hi => ?_, fun i hi o ho => ?_⟩
  · obtain ⟨text, -, -, -, -, hallows, -⟩ := hspelled hi
    exact hallows
  · obtain ⟨_, _, _, -, -, -, hdenotes⟩ := hspelled hi
    obtain ⟨token, hd⟩ := forall₂_mem_right hdenotes ho
    exact hd.fits

/-- What is assembled from a text, or is listable to begin with, is assembled again from its
disassembly. -/
theorem assemble_disassembly :
    (∀ source given q, assemble source given = .ok q → Reassembles q.params q.instructions) ∧
      ∀ p is, Listable p is → Reassembles p is := by
  have hreassembles (p : Params) (is : Array Instruction) (h : Listable p is) :
      Reassembles p is := by
    obtain ⟨w, hw⟩ := h.width
    intro ending he
    refine ⟨listed p is, ?_, rfl, rfl, rfl, fun pc => ?_⟩
    · rw [assemble, lines_disassembly p is he]
      simp only [headerParams_of_header hw, hw, ok_mapError, bind, Except.bind]
      exact h.ofLines hw
    · rw [line?, listed, Array.getElem?_range', Nat.one_mul, Nat.add_comm 2]
  exact ⟨fun _ _ q h => hreassembles q.params q.instructions (listable_of_assemble h), hreassembles⟩

/-- So it is for the program of `divideAllText`, and for a store to the last of all words. -/
theorem reassembles_divideAll :
    Reassembles divideAll.params divideAll.instructions ∧
      Reassembles { dialect := .v1, memory := .harvard, wordBits := 64, registers := 1 }
        #[.store .word (.imm (2 ^ 64 - 1)) 0] := by
  obtain ⟨hassembled, hlistable⟩ := assemble_disassembly
  refine ⟨hassembled _ _ _ assemble_divideAllText, hlistable _ _ ⟨⟨_, rfl⟩, ?_, ?_⟩⟩
  · decide
  · decide

end Program

end WordRam
