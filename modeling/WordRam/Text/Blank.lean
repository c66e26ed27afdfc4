import WordRam.Text.Ranges

/-!
# White space

`Blank` characters are those with the Unicode property White_Space. A text is trimmed of them at
its ends and falls into words between them.
-/

namespace WordRam.Text

/-- The property White_Space. -/
def blank : Ranges where
  bounds :=
    [(0x09, 0x0D), (0x20, 0x20), (0x85, 0x85), (0xA0, 0xA0), (0x1680, 0x1680), (0x2000, 0x200A),
     (0x2028, 0x2029), (0x202F, 0x202F), (0x205F, 0x205F), (0x3000, 0x3000)]

def isBlank (c : Char) : Bool :=
  blank.holds c

/-- The text without the white space before its first other character. -/
def trimStart (cs : List Char) : List Char :=
  cs.dropWhile isBlank

/-- The text without the white space after its last other character. -/
def trimEnd (cs : List Char) : List Char :=
  (cs.reverse.dropWhile isBlank).reverse

/-- The text without white space at either end. -/
def trim (cs : List Char) : List Char :=
  trimEnd (trimStart cs)

/-- The pieces of a text between the characters that satisfy `p`, which are dropped. There is one
piece more than there are such characters. -/
def pieces (p : Char → Bool) : List Char → List (List Char)
  | [] => [[]]
  | c :: cs =>
    if p c then [] :: pieces p cs
    else match pieces p cs with
      | [] => [[c]]
      | piece :: rest => (c :: piece) :: rest

/-- The words of a text: its longest runs without white space. -/
def words (cs : List Char) : List (List Char) :=
  (pieces isBlank cs).filter (· ≠ [])

/-- Cuts a text at the first character that satisfies `p`: the part before it and, if there is such
a character, the part after it. -/
def cut (p : Char → Bool) : List Char → List Char × Option (List Char)
  | [] => ([], none)
  | c :: cs => if p c then ([], some cs) else let (a, b) := cut p cs; (c :: a, b)

end WordRam.Text
