import WordRam.Config
import WordRam.Instruction
import WordRam.Memory
import WordRam.Tape

/-!
# Machines

The state of a machine: its registers, its flag, its program counter, its memory and its two input
tapes. A `MachineM` computation works on a machine in place. A register that does not exist leaves
it stuck.
-/

namespace WordRam

structure Machine where
  width : Width
  registers : Array Nat
  flag : Bool := false
  /-- The index of the next instruction. -/
  pc : Nat := 0
  memory : Memory
  /-- The primary tape, number 0. -/
  primary : Tape
  /-- The auxiliary tape, number 1. -/
  auxiliary : Tape
deriving DecidableEq

/-- The memory that a configuration starts with; the Harvard model protects what is loaded. -/
def Config.memory (c : Config) (w : Width) : Memory :=
  (Memory.ofWidth w c.memoryWords).preload c.preload (c.params.memory = .harvard)

namespace Machine

def start (w : Width) (c : Config) (tape0 tape1 : List Nat) : Machine where
  width := w
  registers := .replicate c.params.registers 0
  memory := c.memory w
  primary := .ofList tape0
  auxiliary := .ofList tape1

variable (m : Machine)

def get (r : Reg) : Except Stop Nat :=
  match m.registers[r]? with
  | some v => .ok v
  | none => .error (.stuck (.noRegister r))

def tape? : Nat → Option Tape
  | 0 => some m.primary
  | 1 => some m.auxiliary
  | _ => none

/-- The next word of the tape with a number, and the machine that has taken it. A tape that does not
exist has none. -/
def nextWord? : Nat → Option (Nat × Machine)
  | 0 => m.primary.next?.map fun (v, t) => (v, { m with primary := t })
  | 1 => m.auxiliary.next?.map fun (v, t) => (v, { m with auxiliary := t })
  | _ => none

end Machine

/-- A computation that changes a machine in place. What it has changed stays changed when it
stops. -/
abbrev MachineM := EStateM Stop Machine

namespace MachineM

def look {α : Type} (f : Machine → Except Stop α) : MachineM α := fun m =>
  match f m with
  | .ok a => .ok a m
  | .error s => .error s m

/-- Changes the machine, or leaves it as it is. -/
def change (f : Machine → Except Stop Machine) : MachineM Unit := fun m =>
  match f m with
  | .ok m' => .ok () m'
  | .error s => .error s m

def width : MachineM Width :=
  look fun m => .ok m.width

def flag : MachineM Bool :=
  look fun m => .ok m.flag

def get (r : Reg) : MachineM Nat :=
  look fun m => m.get r

/-- The value of an operand, always a word for an immediate. -/
def value : Operand → MachineM Nat
  | .reg r => get r
  | .imm v => do return (← width).truncate v

/-- Sets a register to the word that a number leaves. -/
def set (r : Reg) (v : Nat) : MachineM Unit :=
  change fun m =>
    if h : r < m.registers.size then
      .ok { m with registers := m.registers.set r (m.width.truncate v) }
    else .error (.stuck (.noRegister r))

def setFlag (flag : Bool) : MachineM Unit :=
  change fun m => .ok { m with flag }

/-- Takes the next word from the tape with a number, if there is one. -/
def readTape (i : Nat) : MachineM (Option Nat) := fun m =>
  match m.nextWord? i with
  | some (v, m') => .ok (some v) m'
  | none => .ok none m

end MachineM

end WordRam
