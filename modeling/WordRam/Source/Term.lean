import WordRam.Instruction
import WordRam.Source.Diagnostic
import WordRam.Text.Numeral

/-!
# Terms

A term is an operand as it is written: a register, an immediate, or a label whose address is not
known yet. The forms do not overlap. A register is `r` with digits, an immediate is digits with at
most a minus sign before them, and a label is a name that is not of register form.
-/

namespace WordRam

open Text

inductive Term where
  | reg (r : Reg)
  | imm (v : Nat)
  | label (name : String)
deriving DecidableEq, Repr

namespace Term

def registerIndex? : List Char → Option Nat
  | 'r' :: digits => if isDigits digits then some (digitsValue digits) else none
  | _ => none

def isLetter (c : Char) : Bool :=
  ('a' ≤ c && c ≤ 'z') || ('A' ≤ c && c ≤ 'Z')

/-- Whether a token is the name of a label: letters, digits and underscores, the first of them no
digit, and not of register form. -/
def isLabel (cs : List Char) : Bool :=
  match cs with
  | [] => false
  | c :: rest =>
    (isLetter c || c = '_') && rest.all (fun c => isLetter c || isDigit c || c = '_') &&
      (registerIndex? cs).isNone

def integer? : List Char → Option Int
  | '-' :: digits => if isDigits digits then some (-digitsValue digits) else none
  | digits => if isDigits digits then some (digitsValue digits) else none

/-- Reads an immediate. It may be any word, or a negative number that is a word in two's
complement. -/
def readImmediate (w : Width) (cs : List Char) : Except Defect Term :=
  match integer? cs with
  | none => .error (.malformedOperand (String.ofList cs))
  | some i =>
    if -w.half ≤ i ∧ i ≤ w.mask then .ok (imm (w.ofInt i))
    else .error (.immediateRange (String.ofList cs) w.bits)

/-- Whether a token starts like an immediate. -/
def startsNumber : List Char → Bool
  | c :: _ => isDigit c || c = '-'
  | [] => false

/-- Reads an operand. The register that a diagnostic reports is not above the largest number of 64
bits. -/
def read (p : Params) (w : Width) (cs : List Char) : Except Defect Term :=
  match registerIndex? cs with
  | some index =>
    if index < p.registers then .ok (reg index)
    else .error (.noSuchRegister (min index (2 ^ 64 - 1)) p.registers)
  | none =>
    if startsNumber cs then readImmediate w cs
    else if isLabel cs then .ok (label (String.ofList cs))
    else .error (.malformedOperand (String.ofList cs))

/-- The register of a term that was written as `token` in a register's place. -/
def asRegister (token : List Char) : Term → Except Defect Reg
  | reg r => .ok r
  | _ => .error (.expectedRegister (String.ofList token))

end Term

end WordRam
