import WordRam.Power

/-!
# Words of a fixed width

A word of width `W` is a natural number below `2 ^ W`. An operation of `Width` takes any natural
numbers and says what becomes of them at that width; the ones that set the condition flag return it
beside the value. Arguments that are not words already are cut down only where an operation says
so: the flags of addition, subtraction and multiplication, for instance, compare whole arguments.
-/

namespace WordRam

/-- A word width, between one and 64 bits. -/
structure Width where
  bits : Nat
  one_le_bits : 1 ≤ bits := by omega
  bits_le : bits ≤ 64 := by omega
deriving DecidableEq, Repr

/-- The value of an operation with the condition flag it sets. -/
structure Flagged where
  value : Nat
  flag : Bool
deriving DecidableEq, Repr

namespace Width

/-- The width of so many bits, if words can be that wide. -/
def ofNat? (bits : Nat) : Option Width :=
  if h : 1 ≤ bits ∧ bits ≤ 64 then some ⟨bits, h.1, h.2⟩ else none

variable (w : Width)

/-- The number of words. -/
def size : Nat :=
  2 ^ w.bits

def mask : Nat :=
  w.size - 1

/-- The number of bytes that hold one word. -/
def bytes : Nat :=
  (w.bits + 7) / 8

/-- The number of words that are not negative in two's complement. -/
def half : Nat :=
  2 ^ (w.bits - 1)

/-- The word that a number leaves. -/
def truncate (v : Nat) : Nat :=
  v % w.size

/-- The word that stands for an integer in two's complement. -/
def ofInt (i : Int) : Nat :=
  (i % w.size).toNat

/-- The integer that a word stands for in two's complement. -/
def signed (v : Nat) : Int :=
  Int.bmod v w.size

def add (a b : Nat) : Flagged :=
  ⟨w.truncate (a + b), w.mask < a + b⟩

def sub (a b : Nat) : Flagged :=
  ⟨w.ofInt (a - b), a < b⟩

/-- Low word of the product; the flag says that the product is no word. -/
def mulLow (a b : Nat) : Flagged :=
  ⟨w.truncate (a * b), w.mask < a * b⟩

/-- High word of the product; the flag says that it is not zero. -/
def mulHigh (a b : Nat) : Flagged :=
  let high := w.truncate (a * b / w.size)
  ⟨high, high ≠ 0⟩

/-- High word of the product in two's complement; the flag says that the product does not fit. -/
def mulHighSigned (a b : Nat) : Flagged :=
  let p := w.signed a * w.signed b
  ⟨w.ofInt (p / w.size), p < -w.half || w.half ≤ p⟩

def div? (a b : Nat) : Option Nat :=
  if b = 0 then none else some (w.truncate (a / b))

def mod? (a b : Nat) : Option Nat :=
  if b = 0 then none else some (w.truncate (a % b))

/-- The flag is the last bit shifted out. Shifting by nothing pushes none out, and once every bit of
the word is gone only zeros follow. -/
def shiftLeft (a n : Nat) : Flagged :=
  if n = 0 then ⟨w.truncate a, false⟩
  else if w.bits < n then ⟨0, false⟩
  else ⟨w.truncate (a * 2 ^ n), a.testBit (w.bits - n)⟩

def shiftRight (a n : Nat) : Flagged :=
  if n = 0 then ⟨w.truncate a, false⟩
  else if w.bits < n then ⟨0, false⟩
  else ⟨w.truncate a / 2 ^ n, a.testBit (n - 1)⟩

/-- Conjunction, bit by bit. Words give a word, so nothing is cut off. -/
def and (_ : Width) (a b : Nat) : Flagged :=
  ⟨a &&& b, false⟩

def or (a b : Nat) : Flagged :=
  ⟨w.truncate (a ||| b), false⟩

def xor (a b : Nat) : Flagged :=
  ⟨w.truncate (a ^^^ b), false⟩

def not (a : Nat) : Flagged :=
  ⟨w.mask - w.truncate a, false⟩

def equal (a b : Nat) : Bool :=
  w.truncate a = w.truncate b

def above (a b : Nat) : Bool :=
  w.truncate b < w.truncate a

def aboveOrEqual (a b : Nat) : Bool :=
  w.truncate b ≤ w.truncate a

/-- Whether the first word is larger in two's complement. -/
def greater (a b : Nat) : Bool :=
  w.signed b < w.signed a

/-- Whether the first word is at least as large in two's complement. -/
def greaterOrEqual (a b : Nat) : Bool :=
  w.signed b ≤ w.signed a

variable {w}

theorem size_pos : 0 < w.size :=
  Nat.two_pow_pos _

theorem size_le (w : Width) : w.size ≤ 2 ^ 64 :=
  Nat.pow_le_pow_right (by decide) w.bits_le

theorem truncate_lt (v : Nat) : w.truncate v < w.size :=
  Nat.mod_lt _ size_pos

theorem truncate_of_lt {v : Nat} (h : v < w.size) : w.truncate v = v :=
  Nat.mod_eq_of_lt h

theorem bytes_pos : 0 < w.bytes := by
  have := w.one_le_bits; unfold bytes; omega

theorem bytes_le : w.bytes ≤ 8 := by
  have := w.bits_le; unfold bytes; omega

end Width

end WordRam
