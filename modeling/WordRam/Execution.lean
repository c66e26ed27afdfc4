import WordRam.Event
import WordRam.Machine.Execute
import WordRam.Refusal

/-!
# Executions

A program in the course of being run. `Execution.step` executes one instruction and is total: an
execution that has halted stays as it is. Every way of running is `drive`, which steps on and looks
at each state it comes to.
-/

namespace WordRam

inductive Status where
  | running
  | halted (halt : Halt)
  | stuck (reason : Stuck)
deriving DecidableEq, Repr

def Status.halt? : Status → Option Halt
  | halted h => some h
  | _ => none

structure Execution where
  program : Program
  config : Config
  machine : Machine
  /-- The number of instructions executed since the start. -/
  steps : Nat := 0
  status : Status := .running
  /-- What has happened, from the first event on. -/
  journal : Array Event := #[]

structure Outcome where
  halt : Halt
  registers : Array Nat
  memory : Cells
  flag : Bool
  /-- The index of the last instruction executed. -/
  pc : Nat
  steps : Nat
deriving DecidableEq

namespace Execution

/-- The execution of a program at its start, if the configuration can run it. -/
def start (p : Program) (c : Config) (tape0 tape1 : List Nat) : Except Refusal Execution := do
  let w ← c.accept p
  return {
    program := p
    config := c
    machine := .start w c tape0 tape1
    journal := #[.started c.params tape0.length tape1.length] }

variable (e : Execution)

/-- The same execution at its start again, with other tapes. What has happened is not forgotten. -/
def restart (tape0 tape1 : List Nat) : Execution :=
  { e with
    machine := .start e.machine.width e.config tape0 tape1
    steps := 0
    status := .running }

/-! ### One step -/

/-- The instruction that comes next, or why there is none. The step limit is looked at first. -/
def fetch : Except Fault Instruction := do
  if let some limit := e.config.stepLimit then
    if limit ≤ e.steps then throw (.stepLimit limit)
  match e.program.instructions[e.machine.pc]? with
  | some i => return i
  | none => throw .pcOutOfBounds

/-- Counts an instruction that is about to be executed. -/
def count (i : Instruction) : Execution :=
  { e with
    steps := e.steps + 1
    journal := e.journal.push (.executed e.machine.pc i e.machine.flag) }

def halt (h : Halt) : Execution :=
  { e with
    status := .halted h
    journal := e.journal.push (.halted h e.steps) }

def resume (m : Machine) (pc : Nat) : Execution :=
  { e with machine := { m with pc } }

def perform (i : Instruction) : Execution :=
  let pc := e.machine.pc
  match MachineM.execute e.config.wide i e.machine with
  | .ok .step m => e.resume m (pc + 1)
  | .ok (.goto target) m => e.resume m target
  | .ok (.answer code) m => { e with machine := m }.halt (.answer code)
  | .error (.fault cause) m => { e with machine := m }.halt (.fault pc cause)
  | .error (.stuck reason) m => { e with machine := m, status := .stuck reason }

/-- Executes the next instruction of an execution that is still running. -/
def step : Execution :=
  match e.status with
  | .running =>
    match e.fetch with
    | .error cause => e.halt (.fault e.machine.pc cause)
    | .ok i => (e.count i).perform i
  | _ => e

/-! ### Many steps -/

/-- Steps until the execution runs no longer, until `visit`, which sees every state that a step
leads to, asks to stop, or until the fuel is used up. -/
def drive {σ : Type} (visit : Execution → σ → Bool × σ) : Nat → Execution → σ → Execution × σ
  | 0, e, s => (e, s)
  | fuel + 1, e, s =>
    let e := e.step
    let (stop, s) := visit e s
    if stop || e.status ≠ .running then (e, s) else drive visit fuel e s

/-- More steps than an execution takes to halt: its step limit halts it, and without one it is
followed for as long as 64 bits can count its steps. -/
def fuel : Nat :=
  match e.config.stepLimit with
  | some limit => limit - e.steps + 1
  | none => 2 ^ 64

def run : Execution :=
  (drive (fun _ _ => (false, ())) e.fuel e ()).1

/-- Runs until the machine halts or `stop`, which is asked after every instruction that does not
halt the machine, says so. What `stop` keeps from one instruction to the next is handed through. -/
def runUntil {σ : Type} (stop : Execution → σ → Bool × σ) (s : σ) : Execution × σ :=
  drive (fun e s => if e.status = .running then stop e s else (false, s)) e.fuel e s

def outcome? : Option Outcome :=
  e.status.halt?.map fun halt =>
    { halt
      registers := e.machine.registers
      memory := e.machine.memory.cells
      flag := e.machine.flag
      pc := e.machine.pc
      steps := e.steps }

end Execution

def Outcome.mem (o : Outcome) (index : Nat) : Nat :=
  o.memory.get index

end WordRam
