import WordRam.Program
import WordRam.Proofs.Machine.Effect
import WordRam.Proofs.Assembly.Pass
import WordRam.Proofs.Text.Pieces

/-!
# How instructions are spelled

`Instruction.Spelled` relates an instruction to the text of a line of code: the text is the mnemonic
of the opcode in whatever case and the operands between commas, where a register stands for itself,
a number for the word that it leaves, and a label for its address. What the assembler reads and
links is so spelled (`Draft.Entry.spelled_of_link`).
-/

namespace WordRam

open Text

/-- A text is a mnemonic, white space, and tokens with commas between them and white space around
them. -/
def Writes (text mnemonic : List Char) (tokens : List (List Char)) : Prop :=
  ∃ gap pieces trail, text = mnemonic ++ gap ++ List.intercalate [','] pieces ++ trail ∧
    (∀ c ∈ mnemonic, isBlank c = false) ∧ gap ≠ [] ∧ (∀ c ∈ gap ++ trail, isBlank c) ∧
    (∀ piece ∈ pieces, ',' ∉ piece) ∧ tokens = pieces.map trim

/-- What a token stands for at given parameters and labels. -/
inductive Denotes (p : Params) (labels : Labels) : List Char → Operand → Prop
  | register {digits : List Char} (hd : isDigits digits)
    (hn : digitsValue digits < p.registers) :
    Denotes p labels ('r' :: digits) (.reg (digitsValue digits))
  | number {digits : List Char} (hd : isDigits digits)
    (hv : digitsValue digits ≤ 2 ^ p.wordBits - 1) :
    Denotes p labels digits (.imm (digitsValue digits % 2 ^ p.wordBits))
  | negative {digits : List Char} (hd : isDigits digits)
    (hv : digitsValue digits ≤ 2 ^ (p.wordBits - 1)) :
    Denotes p labels ('-' :: digits) (.imm (-(digitsValue digits : Int) % 2 ^ p.wordBits).toNat)
  | label {name : List Char} {l : Label} (hn : Term.isLabel name) (hl : l ∈ labels)
    (he : l.name = String.ofList name) (ha : l.address ≤ 2 ^ p.wordBits - 1) :
    Denotes p labels name (.imm l.address)

def Instruction.Spelled (p : Params) (labels : Labels) (text : List Char) (i : Instruction) :
    Prop :=
  ∃ mnemonic tokens, Writes text mnemonic tokens ∧
    i.opcode.mnemonic.toList = mnemonic.map Char.toLower ∧ p.dialect.allows i.opcode ∧
    List.Forall₂ (Denotes p labels) tokens i.arguments.toList

section
variable {p : Params} {labels : Labels}

theorem Denotes.within {token : List Char} {o : Operand} (h : Denotes p labels token o) :
    o.Within p.registers := by
  cases h with
  | register _ hn => exact hn
  | _ => trivial

theorem Arguments.within_of_denotes {s : Shape} {args : Arguments Operand s}
    {tokens : List (List Char)} (h : List.Forall₂ (Denotes p labels) tokens args.toList) :
    args.Within p.registers := by
  cases args with
  | ternary d a b =>
    obtain _ | ⟨hd, _ | ⟨ha, _ | ⟨hb, _⟩⟩⟩ := h
    exact ⟨hd.within, ha.within, hb.within⟩
  | binary r a =>
    obtain _ | ⟨hr, _ | ⟨ha, _⟩⟩ := h
    exact ⟨hr.within, ha.within⟩
  | unary a =>
    obtain _ | ⟨ha, _⟩ := h
    exact ha.within
  | store a r =>
    obtain _ | ⟨ha, _ | ⟨hr, _⟩⟩ := h
    exact ⟨ha.within, hr.within⟩

theorem Instruction.Spelled.within {text : List Char} {i : Instruction}
    (h : i.Spelled p labels text) : i.Within p.registers := by
  obtain ⟨_, _, _, _, _, hops⟩ := h
  exact Arguments.within_of_denotes hops

end

theorem Params.width_eq_ok {p : Params} {w : Width} : p.width = .ok w ↔
    Width.ofNat? p.wordBits = some w ∧ 1 ≤ p.registers ∧ p.registers ≤ maxRegisters := by
  unfold width
  cases Width.ofNat? p.wordBits with
  | none => simp
  | some v =>
    dsimp only
    split
    · next hregisters => simp [hregisters]
    · next hregisters => simp [hregisters]

theorem Params.exists_width {p : Params} (hbits : 1 ≤ p.wordBits ∧ p.wordBits ≤ 64)
    (hregisters : 1 ≤ p.registers ∧ p.registers ≤ maxRegisters) : ∃ w, p.width = .ok w :=
  ⟨⟨p.wordBits, hbits.1, hbits.2⟩, width_eq_ok.2 ⟨dif_pos hbits, hregisters⟩⟩

theorem Params.ofNat?_of_width {p : Params} {w : Width} (h : p.width = .ok w) :
    Width.ofNat? p.wordBits = some w :=
  (width_eq_ok.1 h).1

theorem Params.bits_of_width {p : Params} {w : Width} (h : p.width = .ok w) :
    w.bits = p.wordBits := by
  have hw := ofNat?_of_width h
  unfold Width.ofNat? at hw
  split at hw
  · cases hw; rfl
  · cases hw

/-! ### Tokens -/

variable {p : Params} {w : Width} {labels : Labels}

theorem Term.registerIndex?_eq_some {token : List Char} {n : Nat}
    (h : registerIndex? token = some n) :
    ∃ digits, token = 'r' :: digits ∧ isDigits digits ∧ n = digitsValue digits := by
  unfold registerIndex? at h
  split at h
  · split at h
    · cases h; exact ⟨_, rfl, ‹_›, rfl⟩
    · cases h
  · cases h

theorem Term.denotes_of_readImmediate (labels : Labels) (hw : w.bits = p.wordBits)
    {token : List Char} {t : Term} (h : readImmediate w token = .ok t) :
    ∃ v, t = .imm v ∧ Denotes p labels token (.imm v) := by
  have hsize : w.size = 2 ^ p.wordBits := by rw [Width.size, hw]
  have hmask : w.mask = 2 ^ p.wordBits - 1 := by rw [Width.mask, hsize]
  have hhalf : w.half = 2 ^ (p.wordBits - 1) := by rw [Width.half, hw]
  unfold readImmediate at h
  cases hi : integer? token with
  | none => rw [hi] at h; cases h
  | some i =>
    simp only [hi] at h
    split at h
    · next hrange =>
      cases h
      refine ⟨_, rfl, ?_⟩
      -- digits after a sign, or digits alone
      unfold integer? at hi
      split at hi
      · next digits =>
        split at hi
        · next hd =>
          cases hi
          have hv : digitsValue digits ≤ 2 ^ (p.wordBits - 1) := by omega
          have hden : Denotes p labels ('-' :: digits) _ := .negative hd hv
          simpa [Width.ofInt, hsize] using hden
        · cases hi
      · split at hi
        · next hd =>
          cases hi
          have hv : digitsValue token ≤ 2 ^ p.wordBits - 1 := by omega
          have heq : w.ofInt (digitsValue token) = digitsValue token % 2 ^ p.wordBits := by
            rw [Width.ofInt, hsize]; omega
          rw [heq]
          exact .number hd hv
        · cases hi
    · cases h

/-- What a token stands for is what it is read as, with labels replaced by their addresses. -/
theorem Term.denotes_of_read (hw : w.bits = p.wordBits) {token : List Char} {t : Term} {o : Operand}
    (hr : Term.read p w token = .ok t) (hs : Draft.resolve w labels t = .ok o) :
    Denotes p labels token o := by
  unfold Term.read at hr
  cases hi : registerIndex? token with
  | some n =>
    obtain ⟨digits, rfl, hd, rfl⟩ := registerIndex?_eq_some hi
    simp only [hi] at hr
    split at hr
    · cases hr; cases hs; exact .register hd ‹_›
    · cases hr
  | none =>
    simp only [hi] at hr
    split at hr
    · obtain ⟨v, rfl, hv⟩ := denotes_of_readImmediate labels hw hr
      cases hs; exact hv
    · split at hr
      · next hlabel =>
        cases hr
        simp only [Draft.resolve] at hs
        split at hs
        · cases hs
        · next l hl =>
          split at hs
          · next ha =>
            cases hs
            have hname := Array.find?_some hl
            refine .label hlabel (Array.mem_of_find?_eq_some hl) (of_decide_eq_true hname) ?_
            rwa [Width.mask, Width.size, hw] at ha
          · cases hs
      · cases hr

/-! ### Operands -/

/-- The operands as they are written, in their order. -/
def Arguments.terms {s : Shape} : Arguments Term s → List Term
  | ternary d a b => [.reg d, .reg a, b]
  | binary r a => [.reg r, a]
  | unary a => [a]
  | store a r => [a, .reg r]

theorem Term.asRegister_ok {token : List Char} {t : Term} {r : Reg}
    (h : t.asRegister token = .ok r) : t = .reg r := by
  cases t <;> cases h
  rfl

theorem Arguments.terms_ne_nil {s : Shape} (args : Arguments Term s) : args.terms ≠ [] := by
  cases args <;> exact List.cons_ne_nil _ _

theorem Code.readArguments_ok {read : List Char → Except Defect Term} {op : Opcode}
    {tokens : List (List Char)} {args : Arguments Term op.shape}
    (h : readArguments read op tokens = .ok args) :
    List.Forall₂ (fun token t => read token = .ok t) tokens args.terms := by
  unfold readArguments at h
  revert args
  generalize op.shape = s
  intro args h
  split at h
  · obtain ⟨d, hd, h⟩ := bind_ok h
    obtain ⟨a, ha, h⟩ := bind_ok h
    obtain ⟨b, hb, h⟩ := bind_ok h
    obtain ⟨d', hd', h⟩ := bind_ok h
    obtain ⟨a', ha', h⟩ := bind_ok h
    cases h
    cases Term.asRegister_ok hd'
    cases Term.asRegister_ok ha'
    exact .cons hd (.cons ha (.cons hb .nil))
  · obtain ⟨r, hr, h⟩ := bind_ok h
    obtain ⟨a, ha, h⟩ := bind_ok h
    obtain ⟨r', hr', h⟩ := bind_ok h
    cases h
    cases Term.asRegister_ok hr'
    exact .cons hr (.cons ha .nil)
  · obtain ⟨a, ha, h⟩ := bind_ok h
    cases h
    exact .cons ha .nil
  · obtain ⟨a, ha, h⟩ := bind_ok h
    obtain ⟨r, hr, h⟩ := bind_ok h
    obtain ⟨r', hr', h⟩ := bind_ok h
    cases h
    cases Term.asRegister_ok hr'
    exact .cons ha (.cons hr .nil)
  · cases h

theorem Arguments.mapM_resolve_ok {s : Shape} {args : Arguments Term s}
    {args' : Arguments Operand s} (h : args.mapM (Draft.resolve w labels) = .ok args') :
    List.Forall₂ (fun t o => Draft.resolve w labels t = .ok o) args.terms args'.toList := by
  cases args with
  | ternary d a b =>
    obtain ⟨b', hb, h⟩ := bind_ok h
    cases h
    exact .cons rfl (.cons rfl (.cons hb .nil))
  | binary r a =>
    obtain ⟨a', ha, h⟩ := bind_ok h
    cases h
    exact .cons rfl (.cons ha .nil)
  | unary a =>
    obtain ⟨a', ha, h⟩ := bind_ok h
    cases h
    exact .cons ha .nil
  | store a r =>
    obtain ⟨a', ha, h⟩ := bind_ok h
    cases h
    exact .cons ha (.cons rfl .nil)

theorem Code.tokens_writes {rest : List Char} (h : tokens rest ≠ []) :
    ∃ lead pieces trail, rest = lead ++ List.intercalate [','] pieces ++ trail ∧
      (∀ c ∈ lead ++ trail, isBlank c) ∧ (∀ piece ∈ pieces, ',' ∉ piece) ∧
      tokens rest = pieces.map trim := by
  obtain ⟨lead, trail, heq, hlead, htrail⟩ := eq_append_trim rest
  refine ⟨lead, pieces (· = ',') (trim rest), trail, ?_, ?_, fun piece hp hc => ?_, ?_⟩
  · rw [intercalate_pieces]; exact heq
  · exact fun c hc => (List.mem_append.1 hc).elim (hlead c) (htrail c)
  · simpa using not_of_mem_pieces hp ',' hc
  · unfold tokens
    split
    · next hnil => exact absurd (by rw [tokens, hnil]) h
    · rfl

theorem Instruction.opcode_build (op : Opcode) (args : Arguments Operand op.shape) :
    (build op args).opcode = op := by
  cases op <;> cases args <;> rfl

theorem Instruction.toList_build (op : Opcode) (args : Arguments Operand op.shape) :
    (build op args).arguments.toList = args.toList := by
  cases op <;> cases args <;> rfl

theorem Code.read_ok {text : List Char} {c : Code} (h : Code.read p w text = .ok c) :
    ∃ mnemonic tokens, Writes text mnemonic tokens ∧
      c.opcode.mnemonic.toList = mnemonic.map Char.toLower ∧ p.dialect.allows c.opcode ∧
      List.Forall₂ (fun token t => Term.read p w token = .ok t) tokens c.arguments.terms := by
  unfold Code.read at h
  cases hop : Opcode.ofMnemonic? (cut isBlank text).1 with
  | none => simp only [hop] at h; cases h
  | some op =>
    simp only [hop] at h
    split at h
    · next hallows =>
      obtain ⟨args, hargs, h⟩ := bind_ok h
      cases h
      have hread := readArguments_ok hargs
      have hmn : op.mnemonic.toList = (cut isBlank text).1.map Char.toLower := by
        simpa using List.find?_some hop
      refine ⟨(cut isBlank text).1, _, ?_, hmn, hallows, hread⟩
      -- there is an operand, so there is white space before it
      have hne : tokens ((cut isBlank text).2.getD []) ≠ [] := by
        intro hnil
        rw [hnil] at hread
        exact args.terms_ne_nil (List.forall₂_nil_left_iff.1 hread)
      cases hrest : (cut isBlank text).2 with
      | none => rw [hrest] at hne; exact absurd rfl hne
      | some rest =>
        rw [hrest] at hne
        obtain ⟨b, hb, htext⟩ := cut_of_some hrest
        obtain ⟨lead, pieces, trail, heq, hblank, hcomma, htok⟩ := tokens_writes hne
        refine ⟨b :: lead, pieces, trail, ?_, fun c hc => not_of_mem_cut hc, List.cons_ne_nil _ _,
          ?_, hcomma, htok⟩
        · rw [Option.getD_some] at heq
          rw [List.append_assoc, List.append_assoc, List.cons_append, ← List.append_assoc lead,
            ← heq]
          exact htext
        · rintro c (_ | hc)
          · exact hb
          · exact hblank c ‹_›
    · cases h

/-- An instruction that is read and linked is spelled by the text that it is read from. -/
theorem Draft.Entry.spelled_of_link (hw : w.bits = p.wordBits) {text : List Char}
    {e : Draft.Entry} {i : Instruction} (hr : Code.read p w text = .ok e.code)
    (hl : e.link w labels = .ok i) : i.Spelled p labels text := by
  obtain ⟨mnemonic, tokens, hwrites, hmn, hallows, hread⟩ := Code.read_ok hr
  cases hm : e.code.arguments.mapM (Draft.resolve w labels) with
  | error d => simp only [Draft.Entry.link, hm] at hl; cases hl
  | ok args =>
    simp only [Draft.Entry.link, hm] at hl
    cases hl
    refine ⟨mnemonic, tokens, hwrites, ?_, ?_, ?_⟩
    · rw [Instruction.opcode_build]; exact hmn
    · rw [Instruction.opcode_build]; exact hallows
    · rw [Instruction.toList_build]
      exact forall₂_comp hread (Arguments.mapM_resolve_ok hm) fun _ _ _ =>
        Term.denotes_of_read hw

end WordRam
