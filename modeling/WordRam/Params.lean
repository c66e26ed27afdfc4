import WordRam.Opcode
import WordRam.Word

/-!
# Machine parameters

The parameters of a machine: its dialect, its memory model, its word width and its number of
registers. `Params.width` checks that the last two are within bounds, and `Params.header` is the
line of source text that states them all.
-/

namespace WordRam

/-- A version of the instruction set. -/
inductive Dialect where
  /-- Version 1: conditional jumps on a set flag, and word-addressed memory. -/
  | v1
  /-- Version 2: adds the jump on a clear flag and the wide and byte memory instructions. -/
  | v2
deriving DecidableEq, Repr

/-- Whether an opcode belongs to a dialect. -/
def Dialect.allows : Dialect → Opcode → Bool
  | .v1, .jump .flagClear | .v1, .store .wide | .v1, .load .wide | .v1, .store .byte
  | .v1, .load .byte => false
  | _, _ => true

/-- The version number as a header writes it. -/
def Dialect.version : Dialect → String
  | .v1 => "1.000"
  | .v2 => "2.00"

instance : ToString Dialect where
  toString d := "V=" ++ d.version

/-- How memory is divided. -/
inductive MemoryModel where
  /-- One writable memory. -/
  | flat
  /-- A read-only segment, loaded before the run, with writable memory after it. -/
  | harvard
deriving DecidableEq, Repr

/-- The name of a memory model in a header. -/
def MemoryModel.tag : MemoryModel → String
  | .flat => "vn"
  | .harvard => "hv"

def MemoryModel.ofTag? (cs : List Char) : Option MemoryModel :=
  [flat, harvard].find? fun m => m.tag.toList = cs

/-- What the address of a wide memory instruction counts. -/
inductive Addressing where
  | word
  | byte
deriving DecidableEq, Repr

/-- The parameters of a machine. They are checked when they are used, not when they are made. -/
structure Params where
  dialect : Dialect
  memory : MemoryModel := .flat
  /-- The width `W` of a word, in bits. -/
  wordBits : Nat
  /-- The number `K` of registers. -/
  registers : Nat
deriving DecidableEq, Repr

/-- The largest number of registers. -/
def maxRegisters : Nat := 1024

/-- The fields of a header. -/
inductive HeaderKey where
  | version | memory | wordBits | registers
deriving DecidableEq, Repr

/-- The letter before the equals sign of a field. -/
def HeaderKey.letter : HeaderKey → Char
  | .version => 'V'
  | .memory => 'M'
  | .wordBits => 'W'
  | .registers => 'K'

/-- What is wrong with a header, or with the parameters that it states. -/
inductive HeaderError where
  /-- The word is no field: no key with a value, or a width or register count that is no number. -/
  | field (word : String)
  /-- A field that every header has is absent. -/
  | missing (key : HeaderKey)
  /-- The version is not one of the dialects. -/
  | version (value : String)
  /-- The memory model has no such name. -/
  | memoryModel (value : String)
  /-- The word width is out of bounds. -/
  | wordBits (bits : Nat)
  /-- The register count is out of bounds. -/
  | registers (count : Nat)
deriving DecidableEq, Repr

def HeaderError.message : HeaderError → String
  | .field word => s!"malformed header field `{word}`"
  | .missing key => s!"header is missing the `{key.letter}=` field"
  | .version value => s!"unsupported TinyRAM version `{value}`"
  | .memoryModel value => s!"unknown memory model `{value}`"
  | .wordBits bits => s!"word width {bits} is outside 1..=64"
  | .registers count => s!"register count {count} is outside 1..={maxRegisters}"

namespace Params

/-- The word width of parameters that are within bounds: a width of one to 64 bits, and one to
`maxRegisters` registers. A width out of bounds is reported first. -/
def width (p : Params) : Except HeaderError Width :=
  match Width.ofNat? p.wordBits with
  | none => .error (.wordBits p.wordBits)
  | some w =>
    if 1 ≤ p.registers ∧ p.registers ≤ maxRegisters then .ok w
    else .error (.registers p.registers)

/-- The header line for the parameters. The flat memory model goes without saying. -/
def header (p : Params) : String :=
  let model := match p.memory with
    | .flat => ""
    | .harvard => " M=" ++ p.memory.tag
  s!"; TinyRAM {p.dialect}{model} W={p.wordBits} K={p.registers}"

instance : ToString Params where
  toString := header

end Params

end WordRam
