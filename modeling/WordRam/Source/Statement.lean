import WordRam.Source.Term
import WordRam.Text.Line

/-!
# Statements

What one line of source text says: nothing, the definition of a label, or an instruction. A line is
cut at its first semicolon, and white space at the ends of what is left does not count.
-/

namespace WordRam

open Text

structure Code where
  opcode : Opcode
  arguments : Arguments Term opcode.shape

inductive Statement where
  | blank
  /-- The definition of a label. -/
  | label (name : String)
  | code (c : Code)

/-- The part of a line before its comment, without white space at the ends. -/
def codeText (line : List Char) : List Char :=
  trim (cut (· = ';') line).1

namespace Code

/-- The operands that follow a mnemonic, between commas. -/
def tokens (cs : List Char) : List (List Char) :=
  match trim cs with
  | [] => []
  | text => (pieces (· = ',') text).map trim

/-- Reads the operands of an opcode: their number is looked at first, then each of them from the
left, and then whether registers stand where only they may. -/
def readArguments (read : List Char → Except Defect Term) (op : Opcode) (tokens : List (List Char)) :
    Except Defect (Arguments Term op.shape) :=
  match op.shape, tokens with
  | .ternary, [d, a, b] => do
    let d' ← read d
    let a' ← read a
    let b' ← read b
    return .ternary (← d'.asRegister d) (← a'.asRegister a) b'
  | .binary, [r, a] => do
    let r' ← read r
    let a' ← read a
    return .binary (← r'.asRegister r) a'
  | .unary, [a] => do
    let a' ← read a
    return .unary a'
  | .store, [a, r] => do
    let a' ← read a
    let r' ← read r
    return .store a' (← r'.asRegister r)
  | _, tokens => .error (.operandCount op tokens.length)

/-- Reads an instruction: a mnemonic of the dialect, white space, and operands. -/
def read (p : Params) (w : Width) (text : List Char) : Except Defect Code :=
  let (mnemonic, rest) := cut isBlank text
  match Opcode.ofMnemonic? mnemonic with
  | none => .error (.unknownMnemonic (String.ofList mnemonic))
  | some op =>
    if p.dialect.allows op then do
      return ⟨op, ← readArguments (Term.read p w) op (tokens (rest.getD []))⟩
    else .error (.notInDialect op p.dialect)

end Code

/-- The name before a colon at the end of a text. -/
def labelName? (text : List Char) : Option (List Char) :=
  if text.getLast? = some ':' then some (trimEnd text.dropLast) else none

def Statement.read (p : Params) (w : Width) (line : List Char) : Except Defect Statement :=
  let text := codeText line
  if text = [] then .ok .blank
  else match labelName? text with
    | some name =>
      if Term.isLabel name then .ok (.label (String.ofList name))
      else .error (.malformedLabel (String.ofList name))
    | none => do return .code (← Code.read p w text)

end WordRam
