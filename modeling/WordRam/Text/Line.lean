import WordRam.Text.Blank

/-!
# Lines

A line ends at a line feed, or at the end of the text. One carriage return directly before a line
feed belongs to the end of the line; any other stays, as white space.
-/

namespace WordRam.Text

/-- The line without the carriage return at its end, if there is one. -/
def chomp (line : List Char) : List Char :=
  if line.getLast? = some '\r' then line.dropLast else line

/-- Drops what ends each line from the pieces between line feeds. The last piece has no line feed
after it, so it keeps its carriage return, and it is no line if it is empty. -/
def closeLines : List (List Char) → List (List Char)
  | [] => []
  | [last] => if last = [] then [] else [last]
  | piece :: rest => chomp piece :: closeLines rest

def lines (cs : List Char) : List (List Char) :=
  closeLines (pieces (· = '\n') cs)

end WordRam.Text
