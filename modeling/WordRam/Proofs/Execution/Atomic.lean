import WordRam.Proofs.Execution.InBounds

/-!
# Halting

An instruction that faults has no effect, and neither has one that answers: the step that halts an
execution leaves the machine as it is and only counts the instruction, if there was one
(`Execution.Transition.halts`). What is asked of the execution after that changes nothing, until it
is restarted.
-/

namespace WordRam

/-- A fault of an instruction, and not of the machine that has no instruction to execute. -/
def Fault.OfInstruction : Fault → Prop
  | .pcOutOfBounds | .stepLimit _ => False
  | _ => True

/-- The number of instructions that the last step has counted. -/
def Halt.counted : Halt → Nat
  | .fault _ .pcOutOfBounds | .fault _ (.stepLimit _) => 0
  | _ => 1

theorem Halt.counted_fault {cause : Fault} (h : cause.OfInstruction) (pc : Nat) :
    (Halt.fault pc cause).counted = 1 := by
  cases cause <;> first | rfl | cases h

namespace Memory

variable {m : Memory} {wide : Addressing} {access : Access} {address index v : Nat} {cause : Fault}

theorem target_error (h : m.target wide access address = .error cause) : cause.OfInstruction := by
  unfold target at h
  split at h
  · cases h
  · cases h
  · split at h <;> cases h
    trivial
  · split at h <;> cases h
    trivial

theorem readWord_error (h : m.readWord index = .error cause) : cause.OfInstruction := by
  unfold readWord at h
  split at h <;> cases h
  trivial

theorem writeWord_error (h : m.writeWord index v = .error cause) : cause.OfInstruction := by
  unfold writeWord at h
  split at h
  · cases h; trivial
  · split at h <;> cases h
    trivial

theorem load_error (h : m.load wide access address = .error cause) : cause.OfInstruction := by
  rcases bind_error h with ht | ⟨index, -, h⟩
  · exact target_error ht
  · rcases bind_error h with hr | ⟨word, -, h⟩
    · exact readWord_error hr
    · cases access <;> cases h

theorem store_error (h : m.store wide access address v = .error cause) :
    cause.OfInstruction := by
  rcases bind_error h with ht | ⟨index, -, h⟩
  · exact target_error ht
  · cases access with
    | word => exact writeWord_error h
    | wide => exact writeWord_error h
    | byte =>
      dsimp only at h
      split at h
      · cases h; trivial
      · exact writeWord_error h

end Memory

theorem Machine.effect_error {m : Machine} {wide : Addressing} {i : Instruction} {cause : Fault}
    (h : m.effect wide i = .error cause) : cause.OfInstruction := by
  cases i with
  | divide op d a b =>
    simp only [Machine.effect] at h
    split at h <;> cases h
    trivial
  | store access address source =>
    exact Memory.store_error (map_error h)
  | load access d address =>
    exact Memory.load_error (map_error h)
  | read d tape =>
    simp only [Machine.effect] at h
    split at h <;> cases h
  | _ => cases h

namespace Execution

/-- `e` has halted in place after `before`: nothing but the count of instructions and the status has
changed. -/
structure HaltsInPlace (before e : Execution) (how : Halt) : Prop where
  machine : e.machine = before.machine
  program : e.program = before.program
  config : e.config = before.config
  steps : e.steps = before.steps + how.counted
  pc : ∀ pc cause, how = .fault pc cause → pc = before.machine.pc

variable {e e' : Execution} {how : Halt}

theorem Transition.halts (h : e.Transition e') (hrun : e.status = .running)
    (hhalt : e'.status = .halted how) : HaltsInPlace e e' how := by
  cases h with
  | limit =>
    cases hhalt
    exact ⟨rfl, rfl, rfl, rfl, fun _ _ heq => by cases heq; rfl⟩
  | outside =>
    cases hhalt
    exact ⟨rfl, rfl, rfl, rfl, fun _ _ heq => by cases heq; rfl⟩
  | fault ha hi he =>
    cases hhalt
    refine ⟨rfl, rfl, rfl, ?_, fun _ _ heq => by cases heq; rfl⟩
    rw [Halt.counted_fault (Machine.effect_error he)]; rfl
  | next => exact nomatch hrun.symm.trans hhalt
  | goto => exact nomatch hrun.symm.trans hhalt
  | answer =>
    cases hhalt
    exact ⟨rfl, rfl, rfl, rfl, fun _ _ heq => nomatch heq⟩

variable {source : String} {given : Option Params} {p : Program} {c : Config}
variable {tape0 tape1 : List Nat}

/-- A step that halts an execution changes nothing but the status and the count of instructions, and
from then on every call but a restart leaves the execution as it is: it halts the same way, and no
function that is asked whether to stop is asked. -/
theorem halt_atomic_absorbing (hp : Program.assemble source given = .ok p)
    (hs : Execution.start p c tape0 tape1 = .ok e) (calls : List Call)
    (hrun : (e.after calls).status = .running)
    (hhalt : (e.after calls).step.status = .halted how) :
    HaltsInPlace (e.after calls) (e.after calls).step how ∧
      ∀ later : List Call, (∀ call ∈ later, ¬ call.Restarts) →
        (e.after calls).step.after later = (e.after calls).step ∧
        ((e.after calls).step.after later).status.halt? = some how ∧
        ∀ (σ : Type) (stop : Execution → σ → Bool × σ) (s : σ),
          ((e.after calls).step.after later).runUntil stop s = ((e.after calls).step, s) := by
  obtain ⟨w, -, hv⟩ := valid_after hp hs
  have hnot := not_running_of_halted hhalt
  refine ⟨((hv calls).transition hrun).halts hrun hhalt, fun later hlater => ?_⟩
  have hafter := after_of_not_running hnot hlater
  refine ⟨hafter, ?_, fun σ stop s => ?_⟩
  · rw [hafter, hhalt]; rfl
  · rw [hafter]; exact runUntil_of_not_running hnot stop s

/-- The usual execution of `Program.divideAll` halts at its second division, in place. -/
theorem divideAll_halts :
    ((divideAll [5, 0]).after (List.replicate 7 .step)).status = .running ∧
      HaltsInPlace ((divideAll [5, 0]).after (List.replicate 7 .step))
        ((divideAll [5, 0]).after (List.replicate 7 .step)).step (.fault 3 .divideByZero) :=
  ⟨rfl, (halt_atomic_absorbing Program.assemble_divideAllText (start_divideAll [5, 0])
    (List.replicate 7 .step) rfl rfl).1⟩

end Execution
end WordRam
