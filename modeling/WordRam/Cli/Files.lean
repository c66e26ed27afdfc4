/-!
# Files

What the paths on a command line lead to: each to a text, or to nothing that could be read as one.
-/

namespace WordRam.Cli

/-- Why a file has no text. -/
inductive Unreadable where
  | missing
  /-- The path goes on behind a file. -/
  | notDirectory
  | isDirectory
  | nameTooLong
  /-- The bytes of the file are not the encoding of a text. -/
  | notText
  /-- The file could not be read for another reason. -/
  | other (reason : String)
deriving DecidableEq, Repr

def Unreadable.message : Unreadable → String
  | missing => "No such file or directory (os error 2)"
  | notDirectory => "Not a directory (os error 20)"
  | isDirectory => "Is a directory (os error 21)"
  | nameTooLong => "File name too long (os error 36)"
  | notText => "stream did not contain valid UTF-8"
  | other reason => reason

abbrev Files := String → Except Unreadable String

/-- What has been read, by the paths that led to it. -/
structure Directory where
  files : List (String × Except Unreadable String)

/-- Nothing else can be read. -/
def Directory.read (d : Directory) : Files := fun path =>
  (d.files.lookup path).getD (.error .missing)

end WordRam.Cli
