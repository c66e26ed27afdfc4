/-!
# Ranges of characters

A property of characters as a table of closed ranges of code points. The tables follow version 17.0
of the Unicode character database.
-/

namespace WordRam.Text

/-- A table of closed ranges of code points. -/
structure Ranges where
  bounds : List (Nat × Nat)

namespace Ranges

/-- Whether a character lies in one of the ranges. -/
def holds (rs : Ranges) (c : Char) : Bool :=
  rs.bounds.any fun r => r.1 ≤ c.toNat && c.toNat ≤ r.2

end Ranges

end WordRam.Text
