import WordRam.Proofs.Assembly.Spelling
import WordRam.Proofs.Checked.Execution

/-!
# Assembly by place

`Checked.assemble` assembles a source text with everything that can crash in its place: the width of
the words, operands and tokens by their place in a line, labels by their place in a table. It finds
the program or the defect that `Program.assemble` finds, and never crashes (`Checked.assemble_eq`):
the number of tokens is looked at before any is taken, and the table only refers to places that it
has.
-/

namespace WordRam

/-- A computation that can crash, and can also end with something that it has to say. -/
abbrev Trial (ε : Type) := Except (Crash ⊕ ε)

namespace Trial

variable {ε δ α β γ ι : Type}

def checked (x : Checked α) : Trial ε α :=
  x.mapError .inl

def found (x : Except ε α) : Trial ε α :=
  x.mapError .inr

def reject (e : ε) : Trial ε α :=
  .error (.inr e)

/-- The same computation, with what it has to say put another way. -/
def restate (f : ε → δ) (x : Trial ε α) : Trial δ α :=
  x.mapError (Sum.map id f)

/-- The two computations end alike, with results in the relation `R` or with the same thing to say,
and the first does not crash. -/
inductive Agrees (R : α → β → Prop) : Trial ε α → Except ε β → Prop
  | ok {a : α} {b : β} (h : R a b) : Agrees R (.ok a) (.ok b)
  | error (e : ε) : Agrees R (.error (.inr e)) (.error e)

namespace Agrees

variable {R : α → β → Prop} {x : Trial ε α} {y : Except ε β}

theorem eq_found {x : Trial ε α} {y : Except ε α} (h : Agrees (· = ·) x y) : x = found y := by
  cases h with
  | ok h => rw [h]; rfl
  | error e => rfl

theorem bind {α' β' : Type} {S : α' → β' → Prop} {f : α → Trial ε α'} {g : β → Except ε β'}
    (h : Agrees R x y) (hf : ∀ a b, R a b → Agrees S (f a) (g b)) :
    Agrees S (x >>= f) (y >>= g) := by
  cases h with
  | ok h => exact hf _ _ h
  | error e => exact .error e

theorem restate (f : ε → δ) (h : Agrees R x y) : Agrees R (x.restate f) (y.mapError f) := by
  cases h with
  | ok h => exact .ok h
  | error e => exact .error (f e)

theorem mapM {f : ι → Trial ε α} {g : γ → Except ε β} {S : ι → γ → Prop} {xs : List ι}
    {ys : List γ} (hs : List.Forall₂ S xs ys) (h : ∀ i c, S i c → Agrees R (f i) (g c)) :
    Agrees (List.Forall₂ R) (xs.mapM f) (ys.mapM g) := by
  induction hs with
  | nil => exact .ok .nil
  | cons hic _ ih =>
    rw [List.mapM_cons, List.mapM_cons]
    refine (h _ _ hic).bind fun a b hab => ih.bind fun as bs habs => ?_
    exact .ok (.cons hab habs)

theorem foldlM {f : α → ι → Trial ε α} {g : β → ι → Except ε β}
    (h : ∀ a b i, R a b → Agrees R (f a i) (g b i)) (is : List ι) {a : α} {b : β} (hab : R a b) :
    Agrees R (is.foldlM f a) (is.foldlM g b) := by
  induction is generalizing a b with
  | nil => exact .ok hab
  | cons i is ih =>
    rw [List.foldlM_cons, List.foldlM_cons]
    exact (h a b i hab).bind fun _ _ => ih

end Agrees
end Trial

/-- The places of the operands that only registers may take. -/
def Shape.registerPlaces : Shape → List Nat
  | .ternary => [0, 1]
  | .binary => [0]
  | .unary => []
  | .store => [1]

namespace Checked
open Text Trial

/-- Labels, and the place of each name among them. -/
structure Table where
  symbols : Array Label := #[]
  places : List (String × Nat) := []

def Table.find? (t : Table) (name : String) : Checked (Option Label) :=
  match t.places.lookup name with
  | none => return none
  | some i => do return some (← index t.symbols i)

def Table.insert (t : Table) (l : Label) : Table where
  symbols := t.symbols.push l
  places := (l.name, t.symbols.size) :: t.places

def checkRegister (tokens : Array (List Char)) (terms : Array Term) (i : Nat) :
    Trial Defect Unit := do
  match ← checked (index terms i) with
  | .reg _ => return ()
  | _ => reject (.expectedRegister (String.ofList (← checked (index tokens i))))

def readImmediate (w : Width) (token : List Char) : Trial Defect Term :=
  match Term.integer? token with
  | none => reject (.malformedOperand (String.ofList token))
  | some i => do
    let least ← checked w.alu.least
    if least ≤ i ∧ i ≤ w.alu.mask then return .imm (w.alu.truncate (low i))
    else reject (.immediateRange (String.ofList token) w.bits)

def readTerm (p : Params) (w : Width) (token : List Char) : Trial Defect Term :=
  match Term.registerIndex? token with
  | some index =>
    if index < p.registers then return .reg index
    else reject (.noSuchRegister (min index (2 ^ 64 - 1)) p.registers)
  | none =>
    if Term.startsNumber token then readImmediate w token
    else if Term.isLabel token then return .label (String.ofList token)
    else reject (.malformedOperand (String.ofList token))

def readTerms (read : List Char → Trial Defect Term) (op : Opcode) (tokens : List (List Char)) :
    Trial Defect (List Term) :=
  if tokens.length ≠ op.shape.arity then reject (.operandCount op tokens.length)
  else do
    let terms ← tokens.mapM read
    op.shape.registerPlaces.forM (checkRegister tokens.toArray terms.toArray)
    return terms

/-- An instruction whose labels are not known yet. -/
structure Pending where
  line : Nat
  opcode : Opcode
  terms : List Term

def readCode (p : Params) (w : Width) (line : Nat) (text : List Char) : Trial Defect Pending :=
  let (mnemonic, rest) := cut isBlank text
  match Opcode.ofMnemonic? mnemonic with
  | none => reject (.unknownMnemonic (String.ofList mnemonic))
  | some op =>
    if p.dialect.allows op then do
      return ⟨line, op, ← readTerms (readTerm p w) op (Code.tokens (rest.getD []))⟩
    else reject (.notInDialect op p.dialect)

/-- What the first pass has come to. -/
structure FirstPass where
  table : Table := {}
  pending : Array Pending := #[]

def addLine (p : Params) (w : Width) (s : FirstPass) (line : List Char × Nat) :
    Trial Diagnostic FirstPass :=
  restate (⟨line.2, ·⟩) <|
    let text := codeText line.1
    if text = [] then return s
    else match labelName? text with
      | some name =>
        if Term.isLabel name then do
          match ← checked (s.table.find? (String.ofList name)) with
          | some first => reject (.duplicateLabel (String.ofList name) first.line)
          | none =>
            return { s with table := s.table.insert ⟨String.ofList name, s.pending.size, line.2⟩ }
        else reject (.malformedLabel (String.ofList name))
      | none => do return { s with pending := s.pending.push (← readCode p w line.2 text) }

def resolve (w : Width) (t : Table) : Term → Trial Defect Operand
  | .reg r => return .reg r
  | .imm v => return .imm v
  | .label name => do
    match ← checked (t.find? name) with
    | none => reject (.undefinedLabel name)
    | some l =>
      if l.address ≤ w.mask then return .imm l.address
      else reject (.labelRange name l.address w.bits)

def registerAt (operands : Array Operand) (i : Nat) : Trial Defect Reg := do
  match ← checked (index operands i) with
  | .reg r => return r
  | .imm v => reject (.expectedRegister (toString v))

def arguments (operands : Array Operand) :
    (s : Shape) → Trial Defect (Arguments Operand s)
  | .ternary => do
    return .ternary (← registerAt operands 0) (← registerAt operands 1)
      (← checked (index operands 2))
  | .binary => do return .binary (← registerAt operands 0) (← checked (index operands 1))
  | .unary => do return .unary (← checked (index operands 0))
  | .store => do return .store (← checked (index operands 0)) (← registerAt operands 1)

def build (op : Opcode) (operands : Array Operand) : Trial Defect Instruction := do
  match Instruction.build? op (← arguments operands op.shape) with
  | some i => return i
  | none => reject (.operandCount op operands.size)

def link (w : Width) (t : Table) (e : Pending) : Trial Diagnostic Instruction :=
  restate (⟨e.line, ·⟩) do build e.opcode (← e.terms.mapM (resolve w t)).toArray

def ofLines (p : Params) (w : Width) (lines : List (List Char)) : Trial Diagnostic Program := do
  let s ← (lines.zipIdx 1).foldlM (addLine p w) {}
  let instructions ← s.pending.toList.mapM (link w s.table)
  return {
    params := p
    instructions := instructions.toArray
    labels := s.table.symbols
    lines := s.pending.map (·.line) }

def assemble (source : String) (given : Option Params) : Trial Diagnostic Program := do
  let lines := Text.lines source.toList
  let p ← match given with
    | some p => found ((check p).mapError (⟨0, .header ·⟩)) >>= fun _ => pure p
    | none => found (Program.headerParams lines)
  ofLines p (← checked (width p.wordBits)) lines

/-! ### No crash in the first pass -/

theorem readImmediate_eq (w : Width) (token : List Char) :
    readImmediate w token = found (Term.readImmediate w token) := by
  unfold readImmediate Term.readImmediate
  cases Term.integer? token with
  | none => rfl
  | some i =>
    rw [w.alu_least]
    show (if -w.half ≤ i ∧ i ≤ w.mask then _ else _) = found (if _ then _ else _)
    rw [w.alu_truncate, w.truncate_low]
    split <;> rfl

theorem readTerm_eq (p : Params) (w : Width) (token : List Char) :
    readTerm p w token = found (Term.read p w token) := by
  unfold readTerm Term.read
  cases Term.registerIndex? token with
  | some index => dsimp only; split <;> rfl
  | none =>
    dsimp only
    split
    · exact readImmediate_eq w token
    · split <;> rfl

/-- The tokens are as many as the opcode takes, so every place that is looked at is there. -/
theorem readTerms_agrees (read : List Char → Except Defect Term) (op : Opcode)
    (tokens : List (List Char)) :
    Agrees (fun terms args => terms = args.terms) (readTerms (fun t => found (read t)) op tokens)
      (Code.readArguments read op tokens) := by
  unfold readTerms Code.readArguments
  generalize op.shape = s
  -- the tokens that a shape takes are read in turn, any other number of them is refused
  cases s with
  | ternary =>
    match tokens with
    | [d, a, b] =>
      simp only [List.mapM_cons, List.mapM_nil]
      rcases read d with e | d'
      · exact .error e
      rcases read a with e | a'
      · exact .error e
      rcases read b with e | b'
      · exact .error e
      -- all three are read by now, and the first two have to be registers
      cases d' with
      | reg r => cases a' <;> first | exact .ok rfl | exact .error _
      | _ => exact .error _
    | [] | [_] | [_, _] => exact .error _
    | _ :: _ :: _ :: _ :: rest =>
      rw [if_pos (by simp [Shape.arity])]
      exact .error _
  | binary =>
    match tokens with
    | [r, a] =>
      simp only [List.mapM_cons, List.mapM_nil]
      rcases read r with e | r'
      · exact .error e
      rcases read a with e | a'
      · exact .error e
      cases r' <;> first | exact .ok rfl | exact .error _
    | [] | [_] => exact .error _
    | _ :: _ :: _ :: rest =>
      rw [if_pos (by simp [Shape.arity])]
      exact .error _
  | unary =>
    match tokens with
    | [a] =>
      simp only [List.mapM_cons, List.mapM_nil]
      rcases read a with e | a'
      · exact .error e
      · exact .ok rfl
    | [] => exact .error _
    | _ :: _ :: rest =>
      rw [if_pos (by simp [Shape.arity])]
      exact .error _
  | store =>
    match tokens with
    | [a, r] =>
      simp only [List.mapM_cons, List.mapM_nil]
      rcases read a with e | a'
      · exact .error e
      rcases read r with e | r'
      · exact .error e
      cases r' <;> first | exact .ok rfl | exact .error _
    | [] | [_] => exact .error _
    | _ :: _ :: _ :: rest =>
      rw [if_pos (by simp [Shape.arity])]
      exact .error _

/-- A pending instruction is an entry of a draft. -/
def Pending.Is (e : Pending) (e' : Draft.Entry) : Prop :=
  e.line = e'.line ∧ e.opcode = e'.code.opcode ∧ e.terms = e'.code.arguments.terms

theorem readCode_agrees (p : Params) (w : Width) (line : Nat) (text : List Char) :
    Agrees (fun e c => e.Is ⟨line, c⟩) (readCode p w line text) (Code.read p w text) := by
  unfold readCode Code.read
  dsimp only
  cases Opcode.ofMnemonic? (cut isBlank text).1 with
  | none => exact .error _
  | some op =>
    dsimp only
    split
    · rw [funext (readTerm_eq p w)]
      exact (readTerms_agrees _ _ _).bind fun terms args h => .ok ⟨rfl, rfl, h⟩
    · exact .error _

/-- A table holds labels, and finds each where it is. -/
structure Table.Holds (t : Table) (labels : Labels) : Prop where
  symbols : t.symbols = labels
  find : ∀ name, t.find? name = pure (labels.find? name)

theorem Table.Holds.empty : ({} : Table).Holds #[] :=
  ⟨rfl, fun _ => rfl⟩

theorem Table.Holds.insert {t : Table} {labels : Labels} {l : Label} (h : t.Holds labels)
    (hnew : labels.find? l.name = none) : (t.insert l).Holds (labels.push l) := by
  refine ⟨congrArg (·.push l) h.symbols, fun name => ?_⟩
  have hfind := h.find name
  unfold Table.find? at hfind ⊢
  unfold Labels.find? at hfind hnew ⊢
  rw [Array.find?_push, Table.insert]
  by_cases hname : name = l.name
  · subst hname
    simp [index, hnew]
  · rw [List.lookup_cons, beq_eq_false_iff_ne.2 hname]
    cases hl : t.places.lookup name with
    | none =>
      rw [hl] at hfind
      injection hfind with hfind
      simp [← hfind, Ne.symm hname]
    | some i =>
      simp only [hl, index] at hfind
      cases hi : t.symbols[i]? with
      | none => rw [hi] at hfind; cases hfind
      | some first =>
        rw [hi] at hfind
        have hlt : i < t.symbols.size := (Array.getElem?_eq_some_iff.1 hi).1
        injection hfind with hfind
        simp [index, Array.getElem?_push, Nat.ne_of_lt hlt, hi, ← hfind]

/-- What the first pass has come to is a draft. -/
structure FirstPass.Holds (s : FirstPass) (d : Draft) : Prop where
  table : s.table.Holds d.labels
  pending : List.Forall₂ Pending.Is s.pending.toList d.entries.toList

theorem FirstPass.Holds.size {s : FirstPass} {d : Draft} (h : s.Holds d) :
    s.pending.size = d.entries.size :=
  h.pending.length_eq

theorem addLine_agrees (p : Params) (w : Width) {s : FirstPass} {d : Draft} (h : s.Holds d)
    (line : List Char × Nat) :
    Agrees FirstPass.Holds (addLine p w s line) (d.addLine p w line) := by
  refine Agrees.restate _ ?_
  dsimp only
  unfold Statement.read
  dsimp only
  split
  · exact .ok h
  · cases labelName? (codeText line.1) with
    | some name =>
      dsimp only
      split
      · -- the table finds a label just if the list of labels does
        rw [h.table.find]
        show Agrees _ _ (d.add line.2 (.label (String.ofList name)))
        simp only [Draft.add]
        cases hfind : d.labels.find? (String.ofList name) with
        | some first => exact .error _
        | none =>
          rw [h.size]
          exact .ok ⟨h.table.insert hfind, h.pending⟩
      · exact .error _
    | none =>
      dsimp only
      rw [bind_assoc]
      refine (readCode_agrees p w line.2 (codeText line.1)).bind fun e c he => ?_
      refine .ok ⟨h.table, ?_⟩
      rw [Array.toList_push, Array.toList_push]
      exact List.rel_append h.pending (.cons he .nil)

/-! ### No crash in the second pass -/

theorem resolve_agrees (w : Width) {t : Table} {labels : Labels} (h : t.Holds labels)
    (term : Term) : Agrees (· = ·) (resolve w t term) (Draft.resolve w labels term) := by
  cases term with
  | reg r => exact .ok rfl
  | imm v => exact .ok rfl
  | label name =>
    simp only [resolve, Draft.resolve, h.find]
    cases labels.find? name with
    | none => exact .error _
    | some l =>
      show Agrees _ (if l.address ≤ w.mask then _ else _) (if l.address ≤ w.mask then _ else _)
      split
      · exact .ok rfl
      · exact .error _

/-- Registers are resolved to themselves, so the operands of an instruction come to a list of the
same form. -/
theorem operands_agrees (w : Width) {t : Table} {labels : Labels} (h : t.Holds labels) {s : Shape}
    (args : Arguments Term s) :
    Agrees (fun operands args' => operands = args'.toList) (args.terms.mapM (resolve w t))
      (args.mapM (Draft.resolve w labels)) := by
  have hreg (r : Reg) : resolve w t (.reg r) = pure (.reg r) := rfl
  cases args <;>
    simp only [Arguments.terms, Arguments.mapM, List.mapM_cons, List.mapM_nil, hreg, pure_bind,
      bind_assoc] <;>
    exact (resolve_agrees w h _).bind fun _ _ ho => .ok (ho ▸ rfl)

theorem build_eq (op : Opcode) (args : Arguments Operand op.shape) :
    build op args.toList.toArray = pure (Instruction.build op args) := by
  cases op <;> cases args <;> rfl

theorem link_agrees (w : Width) {t : Table} {labels : Labels} (h : t.Holds labels) {e : Pending}
    {e' : Draft.Entry} (he : e.Is e') :
    Agrees (· = ·) (link w t e) (e'.link w labels) := by
  obtain ⟨line, ⟨op, args⟩⟩ := e'
  obtain ⟨rfl, rfl, hterms⟩ := he
  refine Agrees.restate _ ?_
  rw [hterms]
  refine (operands_agrees w h args).bind fun operands args' ho => ?_
  rw [ho, build_eq]
  exact .ok rfl

theorem ofLines_agrees (p : Params) (w : Width) (lines : List (List Char)) :
    Agrees (· = ·) (ofLines p w lines) (Program.ofLines p w lines) := by
  have hempty : FirstPass.Holds {} {} := ⟨.empty, .nil⟩
  have hfirst := Agrees.foldlM (fun s d line h => addLine_agrees p w h line) (lines.zipIdx 1) hempty
  refine hfirst.bind fun s d h => ?_
  rw [Draft.link, Array.mapM_eq_mapM_toList, map_eq_pure_bind, bind_assoc]
  refine (Agrees.mapM h.pending fun _ _ => link_agrees w h.table).bind fun is is' his => ?_
  have hinstructions : is = is' := by rwa [← List.forall₂_eq_eq_eq]
  have hlines : s.pending.map (·.line) = d.entries.map (·.line) := by
    rw [← Array.toList_inj, Array.toList_map, Array.toList_map]
    exact forall₂_map_eq h.pending fun _ _ he => he.1
  rw [hinstructions, hlines, h.table.symbols]
  exact .ok rfl

theorem headerParams_width {lines : List (List Char)} {p : Params}
    (h : Program.headerParams lines = .ok p) : ∃ w, p.width = .ok w := by
  unfold Program.headerParams at h
  split at h
  · cases h
  · split at h
    · cases h
    · cases h
    · next hread =>
      cases h
      unfold Header.read at hread
      split at hread
      · cases hread
      · obtain ⟨fields, -, hread⟩ := bind_ok hread
        obtain ⟨q, hq, hread⟩ := bind_ok hread
        cases hread
        obtain ⟨_, -, hq⟩ := bind_ok hq
        obtain ⟨_, -, hq⟩ := bind_ok hq
        obtain ⟨_, -, hq⟩ := bind_ok hq
        obtain ⟨w, hw, hq⟩ := bind_ok hq
        cases hq
        exact ⟨w, hw⟩

theorem width_of_params {p : Params} {w : Width} (h : p.width = .ok w) :
    width p.wordBits = pure w :=
  width_eq (Params.ofNat?_of_width h)

theorem sized_agrees {p : Params} {w : Width} (h : p.width = .ok w) (lines : List (List Char)) :
    Agrees (· = ·) (do ofLines p (← checked (width p.wordBits)) lines)
      (do Program.ofLines p (← p.width.mapError (⟨0, .header ·⟩)) lines) := by
  rw [width_of_params h, h]
  exact ofLines_agrees p w lines

/-- Assembling a source text does not crash, and it comes to what `Program.assemble` says. -/
theorem assemble_eq (source : String) (given : Option Params) :
    assemble source given = found (Program.assemble source given) := by
  refine Agrees.eq_found ?_
  unfold assemble Program.assemble
  cases given with
  | some p =>
    dsimp only
    rw [pure_bind, width_of_check]
    cases hc : check p with
    | error e => exact .error _
    | ok u =>
      obtain ⟨w, hw⟩ := ofNat?_of_check hc
      have hp : p.width = .ok w := by rw [width_of_check, hc]; simp only [Except.bind, hw]
      have h := sized_agrees hp (Text.lines source.toList)
      rwa [width_of_check, hc] at h
  | none =>
    dsimp only
    cases hh : Program.headerParams (Text.lines source.toList) with
    | error d => exact .error _
    | ok p =>
      obtain ⟨w, hp⟩ := headerParams_width hh
      exact sized_agrees hp (Text.lines source.toList)

end Checked
end WordRam
