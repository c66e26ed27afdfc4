/-!
# Decimal numerals

`Numeral.read` reads an unsigned numeral below a bound: digits with at most one plus sign before
them. The numeral is judged character by character from the left, and the first character that
makes it unreadable decides what is reported.
-/

namespace WordRam.Text

/-- Whether a character is one of the ten decimal digits of ASCII. -/
def isDigit (c : Char) : Bool :=
  '0' ≤ c && c ≤ '9'

def digitValue (c : Char) : Nat :=
  c.toNat - '0'.toNat

/-- The number that a sequence of digits denotes. -/
def digitsValue (cs : List Char) : Nat :=
  cs.foldl (fun n c => 10 * n + digitValue c) 0

def isDigits (cs : List Char) : Bool :=
  cs ≠ [] && cs.all isDigit

namespace Numeral

/-- Why a text is no numeral below a bound. -/
inductive Failure where
  | empty
  /-- A character is no digit, or a sign stands alone. -/
  | notDigit
  /-- The digits so far denote a number that is not below the bound. -/
  | tooLarge
deriving DecidableEq, Repr

def Failure.message : Failure → String
  | .empty => "cannot parse integer from empty string"
  | .notDigit => "invalid digit found in string"
  | .tooLarge => "number too large to fit in target type"

/-- Appends one digit to a number that has to stay below `bound`. -/
def push (bound n : Nat) (c : Char) : Except Failure Nat :=
  if isDigit c then
    let m := 10 * n + digitValue c
    if m < bound then .ok m else .error .tooLarge
  else .error .notDigit

/-- The number below `bound` that a text denotes. -/
def read (bound : Nat) : List Char → Except Failure Nat
  | [] => .error .empty
  | ['+'] => .error .notDigit
  | '+' :: cs => cs.foldlM (push bound) 0
  | cs => cs.foldlM (push bound) 0

/-- The number below `bound` that a text denotes, if it denotes one. -/
def read? (bound : Nat) (cs : List Char) : Option Nat :=
  (read bound cs).toOption

/-- The number below `bound` that a text denotes when a minus sign is allowed too; only the zero
can carry one. -/
def readSigned? (bound : Nat) : List Char → Option Nat
  | '-' :: cs => if isDigits cs && digitsValue cs = 0 then some 0 else none
  | cs => read? bound cs

end Numeral

end WordRam.Text
