import WordRam.Execution
import WordRam.Proofs.Machine.Valid

/-!
# What one step can do

`Execution.Transition` lists what a step of a running execution leads to, with what the execution is
like in each case. Main statement: `step_transition`. It holds where a word has one to eight bytes
and the registers that the program names exist. A fault, a jump and an answer leave the machine as
it is, except for where a jump goes on.
-/

namespace WordRam
namespace Execution

/-- The step limit allows another instruction. -/
def Allowed (e : Execution) : Prop :=
  ∀ limit, e.config.stepLimit = some limit → e.steps < limit

/-- What `e` turns into by one step. -/
inductive Transition (e : Execution) : Execution → Prop
  | limit {limit : Nat} (hl : e.config.stepLimit = some limit) (hle : limit ≤ e.steps) :
    Transition e (e.halt (.fault e.machine.pc (.stepLimit limit)))
  | outside (ha : e.Allowed) (hi : e.program.instructions[e.machine.pc]? = none) :
    Transition e (e.halt (.fault e.machine.pc .pcOutOfBounds))
  | fault {i : Instruction} {cause : Fault} (ha : e.Allowed)
    (hi : e.program.instructions[e.machine.pc]? = some i)
    (he : e.machine.effect e.config.wide i = .error cause) :
    Transition e ((e.count i).halt (.fault e.machine.pc cause))
  | next {i : Instruction} {m : Machine} (ha : e.Allowed)
    (hi : e.program.instructions[e.machine.pc]? = some i)
    (he : e.machine.effect e.config.wide i = .ok (m, .step)) :
    Transition e ((e.count i).resume m (e.machine.pc + 1))
  | goto {i : Instruction} {target : Nat} (ha : e.Allowed)
    (hi : e.program.instructions[e.machine.pc]? = some i)
    (he : e.machine.effect e.config.wide i = .ok (e.machine, .goto target)) :
    Transition e ((e.count i).resume e.machine target)
  | answer {i : Instruction} {code : Nat} (ha : e.Allowed)
    (hi : e.program.instructions[e.machine.pc]? = some i)
    (he : e.machine.effect e.config.wide i = .ok (e.machine, .answer code)) :
    Transition e ((e.count i).halt (.answer code))

variable {e : Execution} {i : Instruction}

theorem fetch_of_spent {limit : Nat} (hl : e.config.stepLimit = some limit)
    (hle : limit ≤ e.steps) : e.fetch = .error (.stepLimit limit) := by
  simp only [fetch, hl, hle, if_true]
  rfl

theorem fetch_of_allowed (ha : e.Allowed) :
    e.fetch = match e.program.instructions[e.machine.pc]? with
      | some i => .ok i
      | none => .error .pcOutOfBounds := by
  unfold fetch
  cases hl : e.config.stepLimit with
  | none => rfl
  | some limit => simp only [if_neg (Nat.not_le.2 (ha limit hl))]; rfl

theorem allowed_or_spent (e : Execution) :
    e.Allowed ∨ ∃ limit, e.config.stepLimit = some limit ∧ limit ≤ e.steps := by
  cases hl : e.config.stepLimit with
  | none => exact .inl fun limit h => nomatch hl.symm.trans h
  | some limit =>
    rcases Nat.lt_or_ge e.steps limit with hlt | hle
    · exact .inl fun l h => Option.some.inj (hl.symm.trans h) ▸ hlt
    · exact .inr ⟨limit, rfl, hle⟩

theorem fetch_ok (h : e.fetch = .ok i) : e.program.instructions[e.machine.pc]? = some i := by
  rcases allowed_or_spent e with ha | ⟨limit, hl, hle⟩
  · rw [fetch_of_allowed ha] at h
    split at h
    · cases h; assumption
    · cases h
  · rw [fetch_of_spent hl hle] at h; cases h

theorem step_of_running (h : e.status = .running) :
    e.step = match e.fetch with
      | .error cause => e.halt (.fault e.machine.pc cause)
      | .ok i => (e.count i).perform i := by
  unfold step
  split
  · rfl
  · exact absurd h ‹_›

/-- An execution that has halted stays as it is. -/
theorem step_of_not_running (h : e.status ≠ .running) : e.step = e := by
  unfold step
  split
  · exact absurd ‹_› h
  · rfl

theorem not_running_of_halted {how : Halt} (h : e.status = .halted how) : e.status ≠ .running := by
  simp [h]

/-- An instruction is performed by its effect. -/
theorem perform_count (h : e.machine.memory.Sized) (hi : i.Within e.machine.registers.size) :
    (e.count i).perform i = match e.machine.effect e.config.wide i with
      | .ok (m, .step) => (e.count i).resume m (e.machine.pc + 1)
      | .ok (m, .goto target) => (e.count i).resume m target
      | .ok (m, .answer code) => { e.count i with machine := m }.halt (.answer code)
      | .error cause => (e.count i).halt (.fault e.machine.pc cause) := by
  simp only [perform, count, MachineM.execute_eq_effect h hi]
  rcases e.machine.effect e.config.wide i with cause | ⟨m, _ | target | code⟩ <;> rfl

theorem perform_steps (e : Execution) (i : Instruction) : (e.perform i).steps = e.steps := by
  unfold perform
  split <;> rfl

theorem steps_le_step (e : Execution) : e.steps ≤ e.step.steps := by
  unfold step
  split
  · split
    · exact Nat.le_refl _
    · rw [perform_steps]; exact Nat.le_succ _
  · exact Nat.le_refl _

theorem step_transition (h : e.status = .running) (hs : e.machine.memory.Sized)
    (hw : ∀ i ∈ e.program.instructions, i.Within e.machine.registers.size) :
    e.Transition e.step := by
  rw [step_of_running h]
  rcases allowed_or_spent e with ha | ⟨limit, hl, hle⟩
  · rw [fetch_of_allowed ha]
    cases hi : e.program.instructions[e.machine.pc]? with
    | none => exact .outside ha hi
    | some i =>
      simp only [perform_count hs (hw i (Array.mem_of_getElem? hi))]
      cases he : e.machine.effect e.config.wide i with
      | error cause => exact .fault ha hi he
      | ok p =>
        obtain ⟨m, n⟩ := p
        obtain rfl | ⟨rfl, o, rfl | rfl⟩ := Machine.effect_next he
        · exact .next ha hi he
        · exact .goto ha hi he
        · exact .answer ha hi he
  · rw [fetch_of_spent hl hle]
    exact .limit hl hle

end Execution
end WordRam
