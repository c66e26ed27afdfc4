/-!
# Faults

Why a run ends without an answer, and why an instruction does not complete.
-/

namespace WordRam

inductive Fault where
  | divideByZero
  /-- An access lies past the end of memory. -/
  | outOfBounds (address : Nat)
  /-- A byte address of a word is no multiple of the word size. -/
  | misaligned (address : Nat)
  /-- A byte does not fit into the partial top byte of its word. -/
  | byteOverflow (address : Nat)
  | readOnly (index : Nat)
  | pcOutOfBounds
  /-- The machine has not halted within its step limit. -/
  | stepLimit (limit : Nat)
deriving DecidableEq, Repr

def Fault.message : Fault → String
  | .divideByZero => "division by zero"
  | .outOfBounds address => s!"memory access out of bounds (address {address})"
  | .misaligned address => s!"misaligned word access (address {address})"
  | .byteOverflow address => s!"byte does not fit in the top of the word (address {address})"
  | .readOnly index => s!"write to read-only memory (word {index})"
  | .pcOutOfBounds => "program counter outside of the program"
  | .stepLimit limit => s!"step limit of {limit} exceeded"

/-- Why the rules of the machine say nothing about an instruction. No machine that runs a program
it was configured for gets here. -/
inductive Stuck where
  | noRegister (index : Nat)
  /-- The word size gives no byte at the address. -/
  | noByte (address : Nat)
deriving DecidableEq, Repr

inductive Stop where
  | fault (f : Fault)
  | stuck (s : Stuck)
deriving DecidableEq, Repr

inductive Halt where
  | answer (code : Nat)
  /-- The machine faults, with the program counter at `pc`. -/
  | fault (pc : Nat) (cause : Fault)
deriving DecidableEq, Repr

namespace Halt

def code? : Halt → Option Nat
  | answer code => some code
  | fault .. => none

/-- A fault with the place where it happened. -/
def located (pc : Nat) (cause : Fault) : String :=
  s!"{cause.message} at pc {pc}"

def text : Halt → String
  | answer code => s!"answer {code}"
  | fault pc cause => "fault: " ++ located pc cause

instance : ToString Halt where
  toString := text

end Halt

end WordRam
