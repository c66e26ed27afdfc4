import WordRam.Cli.Session

/-!
# The command

Reads the command line, the files and the level of the log, and prints the report of the session.
-/

namespace WordRam.Cli

/-- The reason that an error of the system gives. Where a path cannot be opened the error names it,
where what it leads to cannot be read the error does not. -/
def Unreadable.ofError : IO.Error → Unreadable
  | .noFileOrDirectory .. => missing
  | .inappropriateType (some _) .. => notDirectory
  | .inappropriateType none .. => isDirectory
  | .invalidArgument .. => nameTooLong
  | .permissionDenied .. => other "Permission denied (os error 13)"
  | e => other (toString e)

/-- The text of a file, or why it has none. -/
def readFile (path : String) : IO (Except Unreadable String) := do
  try
    let bytes ← IO.FS.readBinFile path
    match String.fromUTF8? bytes with
    | some text => return .ok text
    | none => return .error .notText
  catch e =>
    return .error (.ofError e)

/-- Runs a session and prints its report. -/
def runSession (o : Options) (lowest : Option Level) : IO UInt32 := do
  let contents ← o.files.mapM fun path => do return (path, ← readFile path)
  let r := Session.report (Directory.mk contents).read o
  for line in r.output do IO.println line
  for line in r.errorLines lowest do IO.eprintln line
  return r.exitCode.toUInt32

def usage : String :=
  "usage: tinyram [options] PROGRAM\n\n" ++
  "  -t, --tape0 FILE              words of the primary tape\n" ++
  "  -a, --tape1 FILE              words of the auxiliary tape\n" ++
  "      --preload FILE            words at the bottom of memory\n" ++
  "      --step-limit N            fault after N instructions\n" ++
  "      --memory-words N          size of memory\n" ++
  "      --dialect v1|v2           dialect in place of the header's\n" ++
  "      --word-bits N             word width in place of the header's\n" ++
  "      --registers N             register count in place of the header's\n" ++
  "      --harvard                 protect the preloaded words\n" ++
  "      --wide-addressing word|byte\n" ++
  "      --trace-digest            print the digest of the transcript"

end WordRam.Cli

open WordRam.Cli in
/-- The command. The environment sets the level of the log. -/
def main (args : List String) : IO UInt32 := do
  let name := (← IO.getEnv "TINYRAM_LOG").getD "info"
  let lowest := WordRam.Level.lowest? name
  match Options.read? args with
  | some o => runSession o lowest
  | none =>
    IO.eprintln usage
    return 2
