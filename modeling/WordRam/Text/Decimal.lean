import WordRam.Power
import WordRam.Text.Numeral

/-!
# Decimals with a point and an exponent

`Decimal.read?` reads a decimal exactly, as a whole number times a power of ten.
`Decimal.roundsToTwoPow` then says when the nearest binary number with 53 significant bits is a
given power of two.
-/

namespace WordRam.Text

/-- The number `significand * 10 ^ exponent`, or its negative. -/
structure Decimal where
  negative : Bool
  significand : Nat
  exponent : Int
deriving DecidableEq, Repr

namespace Decimal

/-- Takes a sign off the front of a text, and says whether it was a minus sign. -/
def takeSign : List Char → Bool × List Char
  | '-' :: cs => (true, cs)
  | '+' :: cs => (false, cs)
  | cs => (false, cs)

/-- The exponent that follows a significand: nothing, or the letter `e` in either case, a sign or
none, and digits. -/
def exponent? : List Char → Option Int
  | [] => some 0
  | c :: cs =>
    if c = 'e' || c = 'E' then
      let (negative, digits) := takeSign cs
      if isDigits digits then
        some (if negative then -digitsValue digits else digitsValue digits)
      else none
    else none

/-- Reads a sign or none, digits with at most one point among them and at least one digit, and an
exponent or none. -/
def read? (cs : List Char) : Option Decimal :=
  let (negative, cs) := takeSign cs
  let whole := cs.takeWhile isDigit
  let (fraction, rest) :=
    match cs.dropWhile isDigit with
    | '.' :: r => (r.takeWhile isDigit, r.dropWhile isDigit)
    | r => ([], r)
  if whole = [] && fraction = [] then none
  else (exponent? rest).map fun e =>
    { negative
      significand := digitsValue (whole ++ fraction)
      exponent := e - fraction.length }

/-- The exponent of the leading digit of a positive decimal. -/
def magnitude (d : Decimal) : Int :=
  (Nat.toDigits 10 d.significand).length - 1 + d.exponent

/-- Whether `2 ^ k` is the nearest number with 53 significant bits, a tie going to the even one.
The numbers that round to a power of two reach from a quarter of the gap above it to below it, to
half of that gap above it, ends included. One of another magnitude is turned away first, so that no
large power of ten is formed. -/
def roundsToTwoPow (k : Nat) (d : Decimal) : Bool :=
  !d.negative && d.significand ≠ 0 && -1 ≤ d.magnitude && d.magnitude ≤ k &&
    (let n := d.significand * 10 ^ d.exponent.toNat * 2 ^ 54
     let unit := 2 ^ k * 10 ^ (-d.exponent).toNat
     unit * (2 ^ 54 - 1) ≤ n && n ≤ unit * (2 ^ 54 + 2))

end Decimal

end WordRam.Text
