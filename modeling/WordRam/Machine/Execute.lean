import WordRam.Machine

/-!
# Executing an instruction

`MachineM.execute` is the meaning of each instruction: it changes the machine, but leaves the program
counter on the instruction, and says what comes next.
-/

namespace WordRam

def Operation.eval (w : Width) : Operation → Nat → Nat → Flagged
  | .and => w.and
  | .or => w.or
  | .xor => w.xor
  | .add => w.add
  | .sub => w.sub
  | .mull => w.mulLow
  | .umulh => w.mulHigh
  | .smulh => w.mulHighSigned
  | .shl => w.shiftLeft
  | .shr => w.shiftRight

/-- The division of words, except by zero. -/
def Division.eval? (w : Width) : Division → Nat → Nat → Option Nat
  | .udiv => w.div?
  | .umod => w.mod?

def Comparison.eval (w : Width) : Comparison → Nat → Nat → Bool
  | .cmpe => w.equal
  | .cmpa => w.above
  | .cmpae => w.aboveOrEqual
  | .cmpg => w.greater
  | .cmpge => w.greaterOrEqual

def Condition.holds (flag : Bool) : Condition → Bool
  | .always => true
  | .flagSet => flag
  | .flagClear => !flag

inductive Next where
  /-- The instruction after it. -/
  | step
  /-- The instruction at an index. -/
  | goto (target : Nat)
  /-- Nothing: the program answers. -/
  | answer (code : Nat)
deriving DecidableEq, Repr

namespace MachineM

/-- Reads memory as an access addresses it. -/
def readMemory (wide : Addressing) (access : Access) (address : Nat) : MachineM Nat :=
  look fun m =>
    match access with
    | .word => (m.memory.readWord address).mapError .fault
    | .wide => do
      let index ← m.memory.wordIndex address wide
      (m.memory.readWord index).mapError .fault
    | .byte => m.memory.readByte address

/-- Writes memory as an access addresses it; a byte takes the low eight bits of the value. -/
def writeMemory (wide : Addressing) (access : Access) (address v : Nat) : MachineM Unit :=
  change fun m => do
    let memory ← match access with
      | .word => (m.memory.writeWord address v).mapError .fault
      | .wide => do
        let index ← m.memory.wordIndex address wide
        (m.memory.writeWord index v).mapError .fault
      | .byte => m.memory.writeByte address (v % 2 ^ 8)
    return { m with memory }

/-- Executes an instruction, and says what comes next. -/
def execute (wide : Addressing) : Instruction → MachineM Next
  | .operate op d a b => do
    let x ← get a
    let y ← value b
    let r := op.eval (← width) x y
    set d r.value
    setFlag r.flag
    return .step
  | .not d a => do
    let x ← value a
    let r := (← width).not x
    set d r.value
    setFlag r.flag
    return .step
  | .divide op d a b => do
    let x ← get a
    let y ← value b
    match op.eval? (← width) x y with
    | none => throw (.fault .divideByZero)
    | some v =>
      set d v
      setFlag false
      return .step
  | .compare op a b => do
    let x ← get a
    let y ← value b
    setFlag (op.eval (← width) x y)
    return .step
  | .mov d a => do
    let v ← value a
    set d v
    return .step
  | .cmov d a => do
    if ← flag then
      let v ← value a
      set d v
    return .step
  | .jump condition target => do
    if condition.holds (← flag) then
      let t ← value target
      return .goto t
    return .step
  | .store access address source => do
    let a ← value address
    let v ← get source
    writeMemory wide access a v
    return .step
  | .load access d address => do
    let a ← value address
    let v ← readMemory wide access a
    set d v
    return .step
  | .read d tape => do
    let i ← value tape
    match ← readTape i with
    | some v =>
      set d v
      setFlag false
      return .step
    | none =>
      set d 0
      setFlag true
      return .step
  | .answer code => do
    let c ← value code
    return .answer c

end MachineM

end WordRam
