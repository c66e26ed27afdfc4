import WordRam.Proofs.Execution.Valid
import WordRam.Proofs.Machine.Frame

/-!
# Executions on other tapes

A tape has no say in what a program does but through what is read from it. Executions of a program
that have counted the same instructions and come to the same place, with the same memory, are
`Similar`; if their registers and flags are the same too, they are so after another step
(`Similar.step`), even if that reads different words.
-/

namespace WordRam
namespace Execution

/-- Executions of a program that have done the same, except for what they have read. -/
structure Similar (a b : Execution) : Prop where
  program : b.program = a.program
  config : b.config = a.config
  steps : b.steps = a.steps
  status : b.status = a.status
  machine : a.machine.Alike b.machine

namespace Similar

variable {p : Program} {c : Config} {w : Width} {tapes : List Nat × List Nat}
variable {tape0 tape1 tape0' tape1' : List Nat}
variable {a b : Execution} {m m' : Machine}

theorem of_start (ha : start p c tape0 tape1 = .ok a)
    (hb : start p c tape0' tape1' = .ok b) :
    a.Similar b ∧ b.machine.registers = a.machine.registers ∧ b.machine.flag = a.machine.flag := by
  obtain ⟨w, hw, ha⟩ := bind_ok ha
  obtain ⟨w', hw', hb⟩ := bind_ok hb
  cases hw.symm.trans hw'
  cases ha
  cases hb
  exact ⟨⟨rfl, rfl, rfl, rfl, ⟨rfl, rfl, rfl, rfl⟩⟩, rfl, rfl⟩

theorem fetch (h : a.Similar b) : b.fetch = a.fetch := by
  simp only [Execution.fetch, h.config, h.steps, h.program, h.machine.pc]

theorem fuel (h : a.Similar b) : b.fuel = a.fuel := by
  simp only [Execution.fuel, h.config, h.steps]

theorem halt (h : a.Similar b) (how : Halt) : (a.halt how).Similar (b.halt how) :=
  ⟨h.program, h.config, h.steps, rfl, h.machine⟩

theorem count (h : a.Similar b) (i : Instruction) : (a.count i).Similar (b.count i) :=
  ⟨h.program, h.config, congrArg (· + 1) h.steps, h.status, h.machine⟩

theorem with_machine (h : a.Similar b) (hm : m.Alike m') :
    Similar { a with machine := m } { b with machine := m' } :=
  ⟨h.program, h.config, h.steps, h.status, hm⟩

theorem perform (h : a.Similar b) (hregisters : b.machine.registers = a.machine.registers)
    (hflag : b.machine.flag = a.machine.flag) (hsized : a.machine.memory.Sized) {i : Instruction}
    (hi : i.Within a.machine.registers.size) :
    ((a.count i).perform i).Similar ((b.count i).perform i) := by
  have hcount := h.count i
  have hsized' : b.machine.memory.Sized := h.machine.memory ▸ hsized
  have hi' : i.Within b.machine.registers.size := h.machine.size ▸ hi
  rw [perform_count hsized hi, perform_count hsized' hi', h.config, h.machine.pc]
  -- a read may set the register and the flag to something else, anything else does the same
  by_cases hread : ∃ d tape, i = .read d tape
  · obtain ⟨d, tape, rfl⟩ := hread
    obtain ⟨n, n', he, he', hn⟩ := h.machine.effect_read a.config.wide d tape
    rw [he, he']
    exact hcount.with_machine (hn _)
  · have hi : ∀ d tape, i ≠ .read d tape := fun d tape heq => hread ⟨d, tape, heq⟩
    rw [h.machine.eq_withTapes hregisters hflag, Machine.effect_withTapes hi]
    cases a.machine.effect a.config.wide i with
    | error cause => exact hcount.halt _
    | ok next =>
      obtain ⟨m, next⟩ := next
      have hm := Machine.Alike.withTapes m b.machine.primary b.machine.auxiliary
      cases next with
      | step => exact hcount.with_machine (hm.at_pc _)
      | goto target => exact hcount.with_machine (hm.at_pc _)
      | answer code => exact (hcount.with_machine hm).halt _

theorem step (h : a.Similar b) (ha : a.Valid p c w tapes)
    (hregisters : b.machine.registers = a.machine.registers)
    (hflag : b.machine.flag = a.machine.flag) : a.step.Similar b.step := by
  by_cases hrun : a.status = .running
  · rw [step_of_running hrun, step_of_running (h.status.trans hrun), h.fetch]
    cases hf : a.fetch with
    | error cause =>
      rw [h.machine.pc]
      exact h.halt _
    | ok i =>
      have hi := ha.within i (ha.program ▸ Array.mem_of_getElem? (fetch_ok hf))
      rw [← ha.machine.size] at hi
      exact h.perform hregisters hflag ha.machine.memory.sized hi
  · have hrun' : b.status ≠ .running := h.status ▸ hrun
    rw [step_of_not_running hrun, step_of_not_running hrun']
    exact h

end Similar

end Execution
end WordRam
