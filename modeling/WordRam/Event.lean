import WordRam.Fault
import WordRam.Program
import WordRam.Record

/-!
# Events

What the assembler and the machine note while they work. An event holds what happened;
`Event.record` words it for the log.
-/

namespace WordRam

inductive Event where
  | assembled (program : Program)
  /-- A machine is ready to run, with so many words on its tapes. -/
  | started (params : Params) (primary auxiliary : Nat)
  /-- An instruction is executed. The flag is the one that it finds. -/
  | executed (pc : Nat) (instruction : Instruction) (flag : Bool)
  | halted (halt : Halt) (steps : Nat)
deriving DecidableEq, Repr

namespace Event

/-- A fault is a warning. The rest is for those who look for it. -/
def level : Event → Level
  | assembled _ | started .. | halted (.answer _) _ => .debug
  | executed .. => .trace
  | halted (.fault ..) _ => .warn

def origin : Event → Origin
  | assembled _ => .assembler
  | _ => .machine

/-- The wording of an event. Program counters stand right-aligned in six columns. -/
def text : Event → String
  | assembled p =>
    s!"assembled {p.instructions.size} instructions and {p.labels.size} labels for `{p.params}`"
  | started params primary auxiliary =>
    s!"starting `{params}` with {primary} + {auxiliary} tape words"
  | executed pc instruction flag =>
    let column := String.ofList ((toString pc).toList.leftpad 6 ' ')
    s!"{column}: {instruction} (flag = {flag.toNat})"
  | halted halt steps => s!"{halt} after {steps} steps"

def record (e : Event) : Record where
  level := e.level
  origin := e.origin
  message := e.text

end Event

end WordRam
