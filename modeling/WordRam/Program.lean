import WordRam.Header
import WordRam.Source.Statement

/-!
# Programs

`Program.assemble` makes a program from a source text in two passes. The first reads the lines into
a `Draft`, in which labels have addresses and instructions may still name labels; the second
replaces those names by addresses, so a label may be used before it is defined. The first defect
ends the assembly.
-/

namespace WordRam

open Text

/-- A label with the index of the instruction after it and the line of its definition. -/
structure Label where
  name : String
  address : Nat
  line : Nat
deriving DecidableEq, Repr

/-- Labels in the order of their definitions. -/
abbrev Labels := Array Label

def Labels.find? (labels : Labels) (name : String) : Option Label :=
  Array.find? (·.name = name) labels

/-- A program with the parameters it was assembled for. -/
structure Program where
  params : Params
  instructions : Array Instruction
  labels : Labels
  /-- The line of each instruction. -/
  lines : Array Nat
deriving DecidableEq, Repr

/-- The line of the instruction at an index. -/
def Program.line? (p : Program) (pc : Nat) : Option Nat :=
  p.lines[pc]?

/-- An instruction as it is written, with its line. -/
structure Draft.Entry where
  line : Nat
  code : Code

/-- What the lines read so far define. -/
structure Draft where
  labels : Labels := #[]
  entries : Array Draft.Entry := #[]

namespace Draft

/-- Adds what one line says. A label stands for the instruction that comes next. -/
def add (d : Draft) (line : Nat) : Statement → Except Defect Draft
  | .blank => .ok d
  | .label name =>
    match d.labels.find? name with
    | some first => .error (.duplicateLabel name first.line)
    | none => .ok { d with labels := d.labels.push ⟨name, d.entries.size, line⟩ }
  | .code code => .ok { d with entries := d.entries.push ⟨line, code⟩ }

/-- Reads and adds one numbered line. -/
def addLine (p : Params) (w : Width) (d : Draft) (line : List Char × Nat) :
    Except Diagnostic Draft :=
  (do d.add line.2 (← Statement.read p w line.1)).mapError (⟨line.2, ·⟩)

/-- Reads all lines, which are numbered from one. -/
def ofLines (p : Params) (w : Width) (lines : List (List Char)) : Except Diagnostic Draft :=
  (lines.zipIdx 1).foldlM (addLine p w) {}

/-- The operand for a term; a label stands for its address. -/
def resolve (w : Width) (labels : Labels) : Term → Except Defect Operand
  | .reg r => .ok (.reg r)
  | .imm v => .ok (.imm v)
  | .label name =>
    match labels.find? name with
    | none => .error (.undefinedLabel name)
    | some l =>
      if l.address ≤ w.mask then .ok (.imm l.address)
      else .error (.labelRange name l.address w.bits)

def Entry.link (w : Width) (labels : Labels) (e : Entry) : Except Diagnostic Instruction :=
  (do return Instruction.build e.code.opcode (← e.code.arguments.mapM (resolve w labels))).mapError
    (⟨e.line, ·⟩)

def link (p : Params) (w : Width) (d : Draft) : Except Diagnostic Program := do
  let instructions ← d.entries.mapM (Entry.link w d.labels)
  return { params := p, instructions, labels := d.labels, lines := d.entries.map (·.line) }

end Draft

namespace Program

/-- The first line that is not blank, with its number. -/
def firstLine? (lines : List (List Char)) : Option (List Char × Nat) :=
  (lines.zipIdx 1).find? fun line => trim line.1 ≠ []

/-- The parameters that the header of a source text states. -/
def headerParams (lines : List (List Char)) : Except Diagnostic Params :=
  match firstLine? lines with
  | none => .error ⟨0, .missingHeader⟩
  | some (line, number) =>
    match Header.read line with
    | .error e => .error ⟨number, .header e⟩
    | .ok none => .error ⟨number, .missingHeader⟩
    | .ok (some p) => .ok p

/-- Assembles lines for checked parameters. -/
def ofLines (p : Params) (w : Width) (lines : List (List Char)) : Except Diagnostic Program := do
  let d ← Draft.ofLines p w lines
  d.link p w

/-- Assembles a source text for the parameters given, or else for those of its header. When they are
given, the header is a comment like any other. -/
def assemble (source : String) (given : Option Params) : Except Diagnostic Program := do
  let lines := Text.lines source.toList
  let p ← match given with
    | some p => pure p
    | none => headerParams lines
  let w ← p.width.mapError (⟨0, .header ·⟩)
  ofLines p w lines

end Program

end WordRam
