import WordRam.Proofs.Execution.Lockstep
import WordRam.Proofs.Machine.Faults

/-!
# When a step faults

In a valid execution that may go on, the next instruction faults exactly as `Config.fault?` says of
it (`Execution.Valid.step_fault_iff`). What fault there has been after any calls is one that the
configuration admits: no step leaves another (`Execution.Admitted.of_transition`). Main statement:
`Execution.faultsBy_after`.
-/

namespace WordRam
namespace Execution

variable {p : Program} {c : Config} {w : Width} {tapes : List Nat × List Nat} {e e' : Execution}

/-- What fault there has been is one that the configuration admits. -/
def Admitted (c : Config) (e : Execution) : Prop :=
  ∀ pc cause, e.status = .halted (.fault pc cause) → c.Admits cause

/-- The next instruction faults as the table says, and what fault there has been is one that the
configuration admits. -/
structure FaultsBy (p : Program) (c : Config) (e : Execution) : Prop where
  step : e.status = .running → e.Allowed → ∀ i, p.instructions[e.machine.pc]? = some i →
    ∀ pc cause, e.step.status = .halted (.fault pc cause) ↔
      pc = e.machine.pc ∧ c.fault? e.machine i = some cause
  admitted : e.Admitted c

theorem Valid.step_fault_iff (hv : e.Valid p c w tapes) (hbits : w.bits = c.params.wordBits)
    (hrun : e.status = .running) (ha : e.Allowed) {i : Instruction}
    (hi : p.instructions[e.machine.pc]? = some i) {pc : Nat} {cause : Fault} :
    e.step.status = .halted (.fault pc cause) ↔
      pc = e.machine.pc ∧ c.fault? e.machine i = some cause := by
  rw [← hv.program] at hi
  rw [hv.step_eq hrun ha hi, hv.config, ← hv.machine.effect_error_iff hbits]
  rcases e.machine.effect c.wide i with found | ⟨m, _ | target | code⟩
  · show Status.halted (.fault e.machine.pc found) = .halted (.fault pc cause) ↔ _
    simp [eq_comm]
  · exact ⟨fun heq => (nomatch hrun.symm.trans heq), fun hfault => nomatch hfault.2⟩
  · exact ⟨fun heq => (nomatch hrun.symm.trans heq), fun hfault => nomatch hfault.2⟩
  · exact ⟨nofun, fun hfault => nomatch hfault.2⟩

namespace Admitted

theorem of_running (hrun : e.status = .running) : e.Admitted c :=
  fun _ _ heq => nomatch hrun.symm.trans heq

theorem of_transition (hv : e.Valid p c w tapes) (hbits : w.bits = c.params.wordBits)
    (hrun : e.status = .running) (ht : e.Transition e') : e'.Admitted c := by
  cases ht with
  | limit | outside =>
    intro pc cause heq
    cases heq
    trivial
  | fault ha hi he =>
    intro pc cause heq
    cases heq
    rw [hv.config] at he
    exact Config.admits_of_fault? hbits ((hv.machine.effect_error_iff hbits).1 he)
  | next | goto => exact of_running hrun
  | answer => exact fun _ _ heq => nomatch heq

theorem after (hv : e.Valid p c w tapes) (hbits : w.bits = c.params.wordBits) (h : e.Admitted c)
    (calls : List Call) : (e.after calls).Admitted c :=
  hv.after_of_transition (fun hv hrun _ => of_transition hv hbits hrun)
    (fun _ _ _ => of_running rfl) h calls

end Admitted

/-- A source text that stores a byte too large for its place. -/
def overflowText : String :=
  "; TinyRAM V=2.00 M=hv W=11 K=1
     mov r0, 255
     store.b 3, r0"

/-- The program that `overflowText` is. -/
def overflowProgram : Program where
  params := { dialect := .v2, memory := .harvard, wordBits := 11, registers := 1 }
  instructions := #[.mov 0 (.imm 255), .store .byte (.imm 3) 0]
  labels := #[]
  lines := #[2, 3]

theorem assemble_overflowText : Program.assemble overflowText none = .ok overflowProgram := by cbv

/-- The configuration in which the byte belongs to the second of two words that are loaded. -/
def overflowConfig : Config :=
  { Config.ofParams overflowProgram.params with preload := [5, 7] }

def overflowing : Execution where
  program := overflowProgram
  config := overflowConfig
  machine := .start ⟨11, by decide, by decide⟩ overflowConfig [] []
  journal := #[.started overflowProgram.params 0 0]

theorem start_overflowing : start overflowProgram overflowConfig [] [] = .ok overflowing := rfl

variable {source : String} {given : Option Params} {tape0 tape1 : List Nat}

/-- After all calls, the next instruction faults exactly if the table says so, with the fault that
it names. A byte has overflowed only where words do not consist of whole bytes, and an address has
been misaligned only where it counts bytes and words have more than one. -/
theorem faultsBy_after (hp : Program.assemble source given = .ok p)
    (hs : start p c tape0 tape1 = .ok e) (calls : List Call) : (e.after calls).FaultsBy p c := by
  obtain ⟨w, hw, hv⟩ := Valid.start (Program.within_of_assemble hp) hs
  have hbits := Params.bits_of_width hw
  refine ⟨fun hrun ha i hi pc cause => (hv.after calls).step_fault_iff hbits hrun ha hi, ?_⟩
  obtain ⟨w', -, hs⟩ := bind_ok hs
  refine Admitted.after hv hbits ?_ calls
  cases hs
  exact .of_running rfl

/-- That the word is protected is not noticed where the byte overflows. -/
theorem faultsBy_overflowing :
    (overflowing.after [.step]).FaultsBy overflowProgram overflowConfig ∧
      (overflowing.after [.step]).step.status = .halted (.fault 1 (.byteOverflow 3)) := by
  have hfaults := faultsBy_after assemble_overflowText start_overflowing [.step]
  have hallowed : (overflowing.after [.step]).Allowed := nofun
  exact ⟨hfaults, (hfaults.step rfl hallowed (.store .byte (.imm 3) 0) rfl 1 (.byteOverflow 3)).2
    ⟨rfl, by decide⟩⟩

end Execution
end WordRam
