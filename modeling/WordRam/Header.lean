import WordRam.Params
import WordRam.Text.Blank
import WordRam.Text.Decimal

/-!
# Reading a header

A header is a comment whose first word is the name of the machine; its other words are fields, each
a letter, an equals sign and a value. The leftmost word that is no field is reported. Of fields with
the same letter the last one counts, and only then are absent fields and bounds looked at.
-/

namespace WordRam

open Text

/-- The dialect whose version number a decimal rounds to. -/
def Dialect.ofVersion? (cs : List Char) : Option Dialect :=
  match Decimal.read? cs with
  | none => none
  | some d =>
    if d.roundsToTwoPow 0 then some .v1
    else if d.roundsToTwoPow 1 then some .v2
    else none

namespace Header

inductive Field where
  | dialect (d : Dialect)
  | memory (m : MemoryModel)
  | wordBits (n : Nat)
  | registers (n : Nat)
deriving DecidableEq, Repr

namespace Field

/-- Reads a word as a field. Width and register count are numbers of 32 bits, and a register count
that takes more than 16 of them is out of bounds already here. -/
def read (word : List Char) : Except HeaderError Field :=
  match cut (· = '=') word with
  | (['V'], some value) =>
    match Dialect.ofVersion? value with
    | some d => .ok (dialect d)
    | none => .error (.version (String.ofList value))
  | (['M'], some value) =>
    match MemoryModel.ofTag? value with
    | some m => .ok (memory m)
    | none => .error (.memoryModel (String.ofList value))
  | (['W'], some value) =>
    match Numeral.read? (2 ^ 32) value with
    | some n => .ok (wordBits n)
    | none => .error (.field (String.ofList word))
  | (['K'], some value) =>
    match Numeral.read? (2 ^ 32) value with
    | some n => if n < 2 ^ 16 then .ok (registers n) else .error (.registers n)
    | none => .error (.field (String.ofList word))
  | _ => .error (.field (String.ofList word))

def dialect? : Field → Option Dialect
  | dialect d => some d
  | _ => none

def memory? : Field → Option MemoryModel
  | memory m => some m
  | _ => none

def wordBits? : Field → Option Nat
  | wordBits n => some n
  | _ => none

def registers? : Field → Option Nat
  | registers n => some n
  | _ => none

end Field

def last? {α : Type} (f : Field → Option α) (fields : List Field) : Option α :=
  fields.reverse.findSome? f

def require {α : Type} (key : HeaderKey) : Option α → Except HeaderError α
  | some a => .ok a
  | none => .error (.missing key)

/-- The parameters that the fields of a header state, within bounds. -/
def params (fields : List Field) : Except HeaderError Params := do
  let dialect ← require .version (last? Field.dialect? fields)
  let wordBits ← require .wordBits (last? Field.wordBits? fields)
  let registers ← require .registers (last? Field.registers? fields)
  let memory := (last? Field.memory? fields).getD .flat
  let p : Params := { dialect, memory, wordBits, registers }
  let _ ← p.width
  return p

/-- The words of a header after the name of the machine, or `none` for a line that is no header. -/
def fields? (line : List Char) : Option (List (List Char)) :=
  match trim line with
  | ';' :: rest =>
    match words rest with
    | name :: rest => if name = "TinyRAM".toList then some rest else none
    | [] => none
  | _ => none

/-- The parameters that a line states, or `none` if it is no header. -/
def read (line : List Char) : Except HeaderError (Option Params) :=
  match fields? line with
  | none => .ok none
  | some fs => do
    let fields ← fs.mapM Field.read
    let p ← params fields
    return some p

end Header

end WordRam
