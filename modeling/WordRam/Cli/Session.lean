import WordRam.Cli.Files
import WordRam.Cli.Options
import WordRam.Text.Quoted
import WordRam.Transcript

/-!
# Sessions

What the command does with its options and files: it assembles the program, runs it on the tapes and
reports how that went. A `Report` is everything that a session shows, so a session is a function of
its options and of what the files hold.
-/

namespace WordRam.Cli

open Text

inductive Failure where
  | unreadable (path : String) (reason : Unreadable)
  /-- Some parameters are given, and the header to take the others from is malformed. -/
  | header (error : HeaderError)
  /-- Some parameters are given, and there is no header to take the others from. -/
  | noHeader
  | notAssembled (path : String) (diagnostic : Diagnostic)
  | badWord (word : String) (position : Nat) (path : String) (reason : Numeral.Failure)
  | refused (refusal : Refusal)
  /-- The machine faults on a line of the program, or outside of it. -/
  | faulted (path : String) (line : Option Nat) (pc : Nat) (cause : Fault)
  /-- The machine has not halted after more steps than can be counted. -/
  | unfinished (path : String)
deriving DecidableEq, Repr

namespace Failure

def message : Failure → String
  | unreadable path _ => s!"failed to read {quoted path}"
  | header error => error.message
  | noHeader =>
    "program has no header; --dialect, --word-bits and --registers are all required"
  | notAssembled path _ => s!"failed to assemble {quoted path}"
  | badWord word position path _ => s!"bad word `{word}` at position {position} in {quoted path}"
  | refused refusal => refusal.message
  | faulted path line .. =>
    let place := match line with
      | some n => s!" (line {n})"
      | none => ""
    s!"{quoted path} faulted{place}"
  | unfinished path => s!"{quoted path} did not halt"

def cause? : Failure → Option String
  | unreadable _ reason => some reason.message
  | notAssembled _ diagnostic => some diagnostic.message
  | badWord _ _ _ reason => some reason.message
  | faulted _ _ pc cause => some (Halt.located pc cause)
  | header _ | noHeader | refused _ | unfinished _ => none

def lines (f : Failure) : List String :=
  ("Error: " ++ f.message) ::
    match f.cause? with
    | some cause => ["", "Caused by:", "    " ++ cause]
    | none => []

end Failure

/-- The parameters for a program whose header is overridden, or `none` if it is not. The header is
the first line that is not blank, if that line is one. -/
def Overrides.params (o : Overrides) (source : String) : Except Failure (Option Params) := do
  if o = {} then return none
  let header ← match Program.firstLine? (Text.lines source.toList) with
    | some (line, _) => (Header.read line).mapError .header
    | none => pure none
  match header with
  | some h => return some {
      dialect := o.dialect.getD h.dialect
      wordBits := o.wordBits.getD h.wordBits
      registers := o.registers.getD h.registers
      memory := if o.harvard then .harvard else h.memory }
  | none =>
    match o.dialect, o.wordBits, o.registers with
    | some dialect, some wordBits, some registers => return some {
        dialect, wordBits, registers
        memory := if o.harvard then .harvard else .flat }
    | _, _, _ => throw .noHeader

structure Report where
  records : List Record := []
  output : List String := []
  result : Except Failure Nat

namespace Report

/-- The lines of standard error when the log goes down to a level. -/
def errorLines (r : Report) (lowest : Option Level) : List String :=
  (r.records.filter fun record => record.level.shown lowest).map Record.line ++
    match r.result with
    | .ok _ => []
    | .error f => f.lines

/-- The exit code: the low eight bits of the answer, or one. -/
def exitCode (r : Report) : Nat :=
  match r.result with
  | .ok code => code % 2 ^ 8
  | .error _ => 1

end Report

def note (level : Level) (message : String) : Record where
  level
  origin := .command
  message

namespace Session

variable (files : Files) (o : Options)

def readText (path : String) : Except Failure String :=
  (files path).mapError (.unreadable path)

def readWords (path : String) : Except Failure (List Nat) := do
  let text ← readText files path
  (words text.toList).zipIdx.mapM fun (word, position) =>
    (Numeral.read (2 ^ 64) word).mapError (.badWord (String.ofList word) position path)

/-- The words in a file that may not be asked for. -/
def readWords? : Option String → Except Failure (List Nat)
  | some path => readWords files path
  | none => .ok []

/-- The source text and the program that it makes. -/
def load : Except Failure (String × Program) := do
  let source ← readText files o.program
  let params ← o.overrides.params source
  let program ← (Program.assemble source params).mapError (.notAssembled o.program)
  return (source, program)

/-- The execution to be run, with a transcript of what went into it. -/
def prepare (source : String) (program : Program) : Except Failure (Execution × Transcript) := do
  let tape0 ← readWords? files o.tape0
  let tape1 ← readWords? files o.tape1
  let preload ← readWords? files o.preload
  let usual := Config.ofParams program.params
  let config := { usual with
    stepLimit := o.stepLimit
    wide := o.wide
    memoryWords := o.memoryWords.getD usual.memoryWords
    preload }
  let e ← (Execution.start program config tape0 tape1).mapError .refused
  let t : Transcript := {}
  return (e, ((t.feed source.toUTF8.toList).feedWords tape0).feedWords tape1)

def tapeNote (name : String) (t : Tape) : Record :=
  note .debug s!"{name} tape: {t.consumed} words read, {t.remaining.length} unread"

def stateNotes (m : Machine) : List Record :=
  let registers := ", ".intercalate (m.registers.toList.map toString)
  note .info s!"flag: {m.flag.toNat}, pc: {m.pc}" ::
  note .info s!"registers: [{registers}]" ::
  m.memory.words.map fun (index, word) => note .info s!"  mem[{index}] = {word}"

def endNotes (e : Execution) : List Record :=
  e.journal.toList.map Event.record ++
    note .debug s!"ran {e.steps} steps" ::
    tapeNote "primary" e.machine.primary ::
    tapeNote "auxiliary" e.machine.auxiliary ::
    stateNotes e.machine

def result (path : String) (e : Execution) : Except Failure Nat :=
  match e.status with
  | .halted (.answer code) => .ok code
  | .halted (.fault pc cause) => .error (.faulted path (e.program.line? pc) pc cause)
  | .running | .stuck _ => .error (.unfinished path)

def answerNotes (e : Execution) : List Record :=
  match e.status.halt? with
  | some (.answer code) => [note .info s!"answer {code} after {e.steps} steps"]
  | _ => []

/-- Runs an execution, and records it in the transcript if that is asked for. -/
def finish (e : Execution) (t : Transcript) : Report :=
  if o.traceDigest then
    let (e, t) := t.record e
    { records := endNotes e ++ note .debug s!"transcript covers {t.states} states" :: answerNotes e
      output := [Digest.hex t.digest]
      result := result o.program e }
  else
    let e := e.run
    { records := endNotes e ++ answerNotes e
      result := result o.program e }

def report : Report :=
  match load files o with
  | .error f => { result := .error f }
  | .ok (source, program) =>
    let assembled := [(Event.assembled program).record, note .info
      s!"assembled {program.instructions.size} instructions for `{program.params}`"]
    match prepare files o source program with
    | .error f => { records := assembled, result := .error f }
    | .ok (e, t) =>
      let r := finish o e t
      { r with records := assembled ++ r.records }

end Session

end WordRam.Cli
