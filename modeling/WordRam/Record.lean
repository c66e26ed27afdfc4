import WordRam.Text.Blank

/-!
# Log records

A record is one message of the log, with its level and the part of the program that it comes from.
-/

namespace WordRam

/-- How much a record matters, from the gravest level down. -/
inductive Level where
  | error | warn | info | debug | trace
deriving DecidableEq, Repr

namespace Level

def all : List Level :=
  [error, warn, info, debug, trace]

def name : Level → String
  | error => "ERROR"
  | warn => "WARN"
  | info => "INFO"
  | debug => "DEBUG"
  | trace => "TRACE"

/-- The place of a level among all of them; the gravest is the first. -/
def rank : Level → Nat
  | error => 0
  | warn => 1
  | info => 2
  | debug => 3
  | trace => 4

/-- How far down a log goes that is asked for by a name: to the level of that name in any case, or
nowhere. -/
def lowest? (name : String) : Option Level :=
  let letters := (Text.trim name.toList).map Char.toUpper
  all.find? fun l => l.name.toList = letters

/-- Whether a log that goes down to `lowest` keeps records of a level. -/
def shown (lowest : Option Level) (l : Level) : Bool :=
  lowest.any fun m => l.rank ≤ m.rank

end Level

inductive Origin where
  | assembler | machine | command
deriving DecidableEq, Repr

/-- The name under which records of a part appear. -/
def Origin.target : Origin → String
  | .assembler => "tinyram_vm::asm"
  | .machine => "tinyram_vm::vm"
  | .command => "tinyram"

structure Record where
  level : Level
  origin : Origin
  message : String
deriving DecidableEq, Repr

/-- The line that a log has for a record. The name of the level takes up five columns. -/
def Record.line (r : Record) : String :=
  let level := String.ofList (r.level.name.toList.rightpad 5 ' ')
  s!"[{level} {r.origin.target}] {r.message}"

end WordRam
