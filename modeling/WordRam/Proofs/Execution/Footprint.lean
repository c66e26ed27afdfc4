import WordRam.Proofs.Execution.InBounds
import WordRam.Proofs.Machine.Footprint

/-!
# What a step may change

A step that does not fault executes the instruction at the program counter, and the machine keeps to
the footprint of that instruction (`Execution.Transition.stepsBy`). Where the program counter goes
does not depend on what the instruction changes: it can be read off the machine before the step.
Main statement: `Execution.stepsBy_after`.
-/

namespace WordRam

/-- Where the program counter goes from `pc`. -/
def Next.pcFrom (pc : Nat) : Next → Nat
  | .step => pc + 1
  | .goto target => target
  | .answer _ => pc

namespace Execution

variable {p : Program} {c : Config} {w : Width} {tapes : List Nat × List Nat} {e e' : Execution}
variable {i : Instruction}

/-- `e'` is `e` after an instruction that does not fault. -/
structure StepsBy (i : Instruction) (e e' : Execution) : Prop where
  footprint : e.machine.Footprint e.config.wide i e'.machine
  pc : e'.machine.pc = (e.machine.following i).pcFrom e.machine.pc
  steps : e'.steps = e.steps + 1
  program : e'.program = e.program
  config : e'.config = e.config

theorem Transition.stepsBy (ht : e.Transition e') (hv : e.Valid p c w tapes)
    (hok : ∀ pc cause, e'.status ≠ .halted (.fault pc cause)) :
    ∃ i, e.program.instructions[e.machine.pc]? = some i ∧ StepsBy i e e' := by
  cases ht with
  | limit => exact absurd rfl (hok _ _)
  | outside => exact absurd rfl (hok _ _)
  | fault => exact absurd rfl (hok _ _)
  | next ha hi he | goto ha hi he =>
    refine ⟨_, hi, (hv.machine.effect_footprint he).at_pc _, ?_, rfl, rfl, rfl⟩
    rw [← Machine.effect_following he]
    rfl
  | answer ha hi he =>
    refine ⟨_, hi, hv.machine.effect_footprint he, ?_, rfl, rfl, rfl⟩
    rw [← Machine.effect_following he]
    rfl

/-- A source text that stores a byte, with words of two bytes of which the upper one is partial. -/
def byteText : String :=
  "; TinyRAM V=2.00 W=13 K=1
     mov r0, 5
     store.b 2, r0"

/-- The program that `byteText` is. -/
def byteProgram : Program where
  params := { dialect := .v2, wordBits := 13, registers := 1 }
  instructions := #[.mov 0 (.imm 5), .store .byte (.imm 2) 0]
  labels := #[]
  lines := #[2, 3]

theorem assemble_byteText : Program.assemble byteText none = .ok byteProgram := by cbv

/-- The configuration with `0xabc` where the byte is stored. -/
def byteConfig : Config :=
  { Config.ofParams byteProgram.params with preload := [0, 0xabc] }

def storingByte : Execution where
  program := byteProgram
  config := byteConfig
  machine := .start ⟨13, by decide, by decide⟩ byteConfig [] []
  journal := #[.started byteProgram.params 0 0]

theorem start_storingByte : start byteProgram byteConfig [] [] = .ok storingByte := rfl

variable {source : String} {given : Option Params} {tape0 tape1 : List Nat}

/-- After all calls, a step that does not fault changes what the instruction at the program counter
may change, and nothing else. -/
theorem stepsBy_after (hp : Program.assemble source given = .ok p)
    (hs : start p c tape0 tape1 = .ok e) (calls : List Call)
    (hrun : (e.after calls).status = .running)
    (hok : ∀ pc cause, (e.after calls).step.status ≠ .halted (.fault pc cause)) :
    ∃ i, p.instructions[(e.after calls).machine.pc]? = some i ∧
      StepsBy i (e.after calls) (e.after calls).step := by
  obtain ⟨w, -, hv⟩ := valid_after hp hs
  have hv := hv calls
  obtain ⟨i, hi, hsteps⟩ := (hv.transition hrun).stepsBy hv hok
  exact ⟨i, hv.program ▸ hi, hsteps⟩

/-- The upper byte of the word stays what it was. -/
theorem stepsBy_storingByte :
    (storingByte.after [.step]).status = .running ∧
      (storingByte.after [.step]).step.status = .running ∧
      StepsBy (.store .byte (.imm 2) 0) (storingByte.after [.step])
        (storingByte.after [.step]).step ∧
      (storingByte.after [.step]).step.machine.memory.cells.get 1 = 0xa05 := by
  have hgoes : (storingByte.after [.step]).step.status = .running := rfl
  have hok : ∀ pc cause, (storingByte.after [.step]).step.status ≠ .halted (.fault pc cause) :=
    fun pc cause heq => nomatch hgoes.symm.trans heq
  obtain ⟨i, hi, hsteps⟩ := stepsBy_after assemble_byteText start_storingByte [.step] rfl hok
  cases hi
  exact ⟨rfl, hgoes, hsteps, rfl⟩

end Execution
end WordRam
