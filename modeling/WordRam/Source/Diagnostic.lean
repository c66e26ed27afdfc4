import WordRam.Params

/-!
# Diagnostics

What the assembler says about a source text that is no program: one defect, with its line.
-/

namespace WordRam

inductive Defect where
  /-- The first line that is not blank is no header. -/
  | missingHeader
  /-- The header, or the parameters given in its place, are not valid. -/
  | header (error : HeaderError)
  | unknownMnemonic (word : String)
  /-- The opcode exists, but in another dialect. -/
  | notInDialect (opcode : Opcode) (dialect : Dialect)
  | operandCount (opcode : Opcode) (actual : Nat)
  /-- Another operand stands where only a register may. -/
  | expectedRegister (token : String)
  | noSuchRegister (index count : Nat)
  | immediateRange (token : String) (bits : Nat)
  /-- The operand is no register, no immediate and no label. -/
  | malformedOperand (token : String)
  | malformedLabel (name : String)
  /-- The label is defined before, on line `first`. -/
  | duplicateLabel (name : String) (first : Nat)
  | undefinedLabel (name : String)
  /-- The instruction after the label has an index that is no word. -/
  | labelRange (name : String) (address bits : Nat)
deriving DecidableEq, Repr

def Defect.message : Defect → String
  | .missingHeader => "missing `; TinyRAM V=.. W=.. K=..` header"
  | .header error => error.message
  | .unknownMnemonic word => s!"unknown mnemonic `{word}`"
  | .notInDialect op dialect => s!"`{op}` is not available in TinyRAM {dialect}"
  | .operandCount op actual => s!"`{op}` takes {op.shape.arity} operands, got {actual}"
  | .expectedRegister token => s!"expected a register, got `{token}`"
  | .noSuchRegister index count => s!"register r{index} does not exist (K = {count})"
  | .immediateRange token bits => s!"immediate `{token}` does not fit in {bits} bits"
  | .malformedOperand token => s!"malformed operand `{token}`"
  | .malformedLabel name => s!"malformed label `{name}`"
  | .duplicateLabel name first => s!"label `{name}` is already defined on line {first}"
  | .undefinedLabel name => s!"undefined label `{name}`"
  | .labelRange name address bits =>
    s!"label `{name}` is at instruction {address}, past {bits}-bit range"

/-- A defect with the number of its line, counted from one; zero if it lies on no line. -/
structure Diagnostic where
  line : Nat
  defect : Defect
deriving DecidableEq, Repr

def Diagnostic.message (d : Diagnostic) : String :=
  s!"line {d.line}: {d.defect.message}"

end WordRam
