import WordRam.Proofs.Execution.Calls

/-!
# Valid executions

An execution is valid for a program and a configuration if its machine is, the program counter is a
word or within the program, no more instructions have been counted than the step limit allows, and
the halt, if there is one, names a word or the place where the machine stands. An execution of a
program whose registers exist starts valid (`Execution.Valid.start`) and stays so through every
sequence of calls (`Execution.Valid.after`). So it is enough for other properties that the
transitions of valid executions keep them (`Execution.Valid.after_of_transition`).
-/

namespace WordRam

/-- The status is one that a machine at `pc` can have: never stuck, answering with words, and
faulting where it stands. -/
def Status.Valid (w : Width) (pc : Nat) : Status → Prop
  | .running => True
  | .halted (.answer code) => code < w.size
  | .halted (.fault at_ _) => at_ = pc
  | .stuck _ => False

/-- What it takes for a configuration to run a program. -/
theorem Config.accept_ok {c : Config} {p : Program} {w : Width} (h : c.accept p = .ok w) :
    c.params.width = .ok w ∧ p.params.registers ≤ c.params.registers ∧
      (∀ i ∈ p.instructions, c.params.dialect.allows i.opcode) ∧
      c.preload.length ≤ c.memoryWords := by
  obtain ⟨v, hw, h⟩ := bind_ok h
  dsimp only at h
  split at h
  · cases h
  · next hregisters =>
    split at h
    · cases h
    · next hfind =>
      split at h
      · cases h
      · next hfits =>
        cases h
        refine ⟨mapError_ok hw, Nat.not_lt.1 hregisters, fun i hi => ?_, Nat.not_lt.1 hfits⟩
        simpa using Array.find?_eq_none.1 hfind i hi

theorem Config.accept_of {c : Config} {p : Program} {w : Width} (hw : c.params.width = .ok w)
    (hregisters : p.params.registers ≤ c.params.registers)
    (hallows : ∀ i ∈ p.instructions, c.params.dialect.allows i.opcode)
    (hfits : c.preload.length ≤ c.memoryWords) : c.accept p = .ok w := by
  have hfind : p.instructions.find? (fun i => !c.params.dialect.allows i.opcode) = none := by
    rw [Array.find?_eq_none]
    simpa using hallows
  rw [accept, hw, hfind, ok_mapError]
  simp only [bind, Except.bind, if_neg (Nat.not_lt.2 hregisters), if_neg (Nat.not_lt.2 hfits)]
  rfl

namespace Execution

structure Valid (p : Program) (c : Config) (w : Width) (tapes : List Nat × List Nat)
    (e : Execution) : Prop where
  program : e.program = p
  config : e.config = c
  within : ∀ i ∈ p.instructions, i.Within c.params.registers
  fits : c.preload.length ≤ c.memoryWords
  machine : e.machine.Valid c w tapes
  pc : e.machine.pc ≤ p.instructions.size ∨ e.machine.pc < w.size
  steps : ∀ limit, c.stepLimit = some limit → e.steps ≤ limit
  status : e.status.Valid w e.machine.pc

namespace Valid

variable {p : Program} {c : Config} {w : Width} {tapes : List Nat × List Nat} {e e' : Execution}

theorem start (hw : ∀ i ∈ p.instructions, i.Within p.params.registers) {tape0 tape1 : List Nat}
    (hs : Execution.start p c tape0 tape1 = .ok e) :
    ∃ w, c.params.width = .ok w ∧ e.Valid p c w (tape0, tape1) := by
  obtain ⟨w, ha, hs⟩ := bind_ok hs
  cases hs
  obtain ⟨hp, hk, -, hfits⟩ := Config.accept_ok ha
  exact ⟨w, hp, rfl, rfl, fun i hi => (hw i hi).mono hk, hfits, .start hfits (tape0, tape1),
    .inl (Nat.zero_le _), fun _ _ => Nat.zero_le _, trivial⟩

theorem transition (h : e.Valid p c w tapes) (hrun : e.status = .running) :
    e.Transition e.step :=
  step_transition hrun h.machine.memory.sized fun i hi => by
    rw [h.machine.size]; exact h.within i (h.program ▸ hi)

theorem halt (h : e.Valid p c w tapes) {how : Halt}
    (hs : (Status.halted how).Valid w e.machine.pc) : (e.halt how).Valid p c w tapes :=
  ⟨h.program, h.config, h.within, h.fits, h.machine, h.pc, h.steps, hs⟩

theorem count (h : e.Valid p c w tapes) (ha : e.Allowed) (i : Instruction) :
    (e.count i).Valid p c w tapes :=
  ⟨h.program, h.config, h.within, h.fits, h.machine, h.pc,
    fun limit hl => ha limit (h.config ▸ hl), h.status⟩

theorem resume (h : e.Valid p c w tapes) (hrun : e.status = .running) {m : Machine}
    (hm : m.Valid c w tapes) {pc : Nat} (hpc : pc ≤ p.instructions.size ∨ pc < w.size) :
    (e.resume m pc).Valid p c w tapes :=
  ⟨h.program, h.config, h.within, h.fits, hm.pc pc, hpc, h.steps, by
    show e.status.Valid w pc
    rw [hrun]; trivial⟩

theorem of_transition (h : e.Valid p c w tapes) (hrun : e.status = .running)
    (ht : e.Transition e') : e'.Valid p c w tapes := by
  cases ht with
  | limit => exact h.halt rfl
  | outside => exact h.halt rfl
  | fault ha => exact (h.count ha _).halt rfl
  | next ha hi he =>
    refine (h.count ha _).resume hrun (h.machine.effect he) (.inl ?_)
    rw [h.program] at hi
    exact (Array.getElem?_eq_some_iff.1 hi).1
  | goto ha hi he =>
    exact (h.count ha _).resume hrun h.machine (.inr (h.machine.next he))
  | answer ha hi he => exact (h.count ha _).halt (h.machine.next he)

theorem step (h : e.Valid p c w tapes) : e.step.Valid p c w tapes := by
  rcases Classical.em (e.status = .running) with hrun | hrun
  · exact h.of_transition hrun (h.transition hrun)
  · rw [step_of_not_running hrun]; exact h

theorem restart (h : e.Valid p c w tapes) (tape0 tape1 : List Nat) :
    (e.restart tape0 tape1).Valid p c w (tape0, tape1) where
  program := h.program
  config := h.config
  within := h.within
  fits := h.fits
  machine := by
    show (Machine.start e.machine.width e.config tape0 tape1).Valid c w (tape0, tape1)
    rw [h.machine.width, h.config]
    exact .start h.fits (tape0, tape1)
  pc := .inl (Nat.zero_le _)
  steps _ _ := Nat.zero_le _
  status := trivial

theorem after (h : e.Valid p c w tapes) (calls : List Call) :
    (e.after calls).Valid p c w (installed tapes calls) :=
  after_induction (P := fun tapes e => e.Valid p c w tapes) (fun _ _ h => h.step)
    (fun _ _ tape0 tape1 h => h.restart tape0 tape1) h calls

/-- What every transition keeps and every restart brings about holds after all calls. -/
theorem after_of_transition {P : Execution → Prop}
    (hkeep : ∀ {tapes : List Nat × List Nat} {e e' : Execution}, e.Valid p c w tapes →
      e.status = .running → P e → e.Transition e' → P e')
    (hrestart : ∀ {tapes : List Nat × List Nat} {e : Execution}, e.Valid p c w tapes →
      ∀ tape0 tape1, P (e.restart tape0 tape1))
    (hv : e.Valid p c w tapes) (h : P e) (calls : List Call) : P (e.after calls) := by
  have hafter := after_induction (P := fun tapes e => e.Valid p c w tapes ∧ P e)
    (fun _ e ⟨hv, h⟩ => ⟨hv.step, ?_⟩)
    (fun _ _ tape0 tape1 ⟨hv, _⟩ => ⟨hv.restart tape0 tape1, hrestart hv tape0 tape1⟩) ⟨hv, h⟩ calls
  · exact hafter.2
  · by_cases hrun : e.status = .running
    · exact hkeep hv hrun h (hv.transition hrun)
    · rw [step_of_not_running hrun]
      exact h

end Valid

end Execution

end WordRam
