import WordRam.Proofs.Execution.Consumed
import WordRam.Proofs.Memory.Bytes
import Mathlib.Data.List.Forall2
import Mathlib.Data.Nat.ModEq

/-!
# Inputs modulo the size of a word

A run cannot tell numbers on its tapes, or numbers that are loaded into its memory, from the words
that they leave. What is loaded is cut down at the start. A number on a tape stays as it is until it
is read, so the machines of two runs hold different tapes: they agree once these are `reduced`
(`Machine.Congruent`). Executing an instruction and reducing the tapes can be done in either order
(`effect_reduced`), so such machines stay in lockstep. Main statement: `outcomes_of_congruent`.
-/

namespace WordRam

variable {w : Width}

theorem Width.map_truncate_eq {us vs : List Nat}
    (h : List.Forall₂ (Nat.ModEq (2 ^ w.bits)) us vs) : us.map w.truncate = vs.map w.truncate := by
  rwa [← List.forall₂_eq_eq_eq, List.forall₂_map_left_iff, List.forall₂_map_right_iff]

namespace Tape

/-- The tape with each number on it cut down to a word. -/
def reduced (w : Width) (t : Tape) : Tape :=
  { t with words := t.words.map w.truncate }

theorem reduced_ofList {us vs : List Nat} (h : us.map w.truncate = vs.map w.truncate) :
    (ofList us).reduced w = (ofList vs).reduced w := by
  simp only [reduced, ofList, List.map_toArray, h]

theorem next?_reduced (w : Width) (t : Tape) :
    (t.reduced w).next? = t.next?.map fun x => (w.truncate x.1, x.2.reduced w) := by
  simp only [next?, reduced, Array.getElem?_map, Option.map_map]
  rfl

end Tape

namespace Machine

variable {m m' : Machine} {wide : Addressing} {i : Instruction}

/-- The machine with its tapes reduced. -/
def reduced (w : Width) (m : Machine) : Machine :=
  m.withTapes (m.primary.reduced w) (m.auxiliary.reduced w)

theorem nextWord?_reduced (w : Width) (m : Machine) (j : Nat) :
    (m.reduced w).nextWord? j =
      (m.nextWord? j).map fun x => (w.truncate x.1, x.2.reduced w) := by
  match j with
  | 0 | 1 =>
    simp only [nextWord?, reduced, withTapes, Tape.next?_reduced, Option.map_map]
    rfl
  | _ + 2 => rfl

theorem put_truncate (m : Machine) (d : Reg) (v : Nat) :
    m.put d (m.width.truncate v) = m.put d v := by
  simp only [put, Width.truncate, Nat.mod_mod]

theorem effect_reduced (hw : m.width = w) (wide : Addressing) (i : Instruction) :
    (m.reduced w).effect wide i = (m.effect wide i).map fun x => (x.1.reduced w, x.2) := by
  by_cases hread : ∃ d tape, i = .read d tape
  · rcases hread with ⟨d, tape, rfl⟩
    have hoperand : (m.reduced w).operand tape = m.operand tape := withTapes_operand ..
    simp only [effect, hoperand, nextWord?_reduced]
    rcases hn : m.nextWord? (m.operand tape) with _ | ⟨v, k⟩
    · rfl
    · have hk : (k.reduced w).width = w := (nextWord?_registers m hn).2.trans hw
      have hput := put_truncate (k.reduced w) d v
      rw [hk] at hput
      simp only [Option.map_some, hput]
      rfl
  · have hi : ∀ d tape, i ≠ .read d tape := fun d tape heq => hread ⟨d, tape, heq⟩
    rw [reduced, effect_withTapes hi]
    rcases he : m.effect wide i with cause | ⟨k, next⟩
    · rfl
    · rcases effect_tapes hi he with ⟨hprimary, hauxiliary⟩
      simp only [Except.map, reduced, hprimary, hauxiliary]

/-- The machines are the same but for what cannot be told of the numbers on their tapes. -/
def Congruent (w : Width) (m m' : Machine) : Prop :=
  m'.reduced w = m.reduced w

namespace Congruent

theorem registers (h : m.Congruent w m') : m'.registers = m.registers := by
  show (m'.reduced w).registers = (m.reduced w).registers
  rw [h]

theorem memory (h : m.Congruent w m') : m'.memory = m.memory := by
  show (m'.reduced w).memory = (m.reduced w).memory
  rw [h]

theorem flag (h : m.Congruent w m') : m'.flag = m.flag := by
  show (m'.reduced w).flag = (m.reduced w).flag
  rw [h]

theorem at_pc (h : m.Congruent w m') (pc : Nat) :
    Congruent w { m with pc } { m' with pc } := by
  show { m'.reduced w with pc } = { m.reduced w with pc }
  rw [h]

/-- Machines that are congruent do the same, and are congruent after it. -/
theorem effect (h : m.Congruent w m') (hw : m.width = w) (hw' : m'.width = w)
    (wide : Addressing) (i : Instruction) :
    Corresponds (fun _ => False) (Moves (Congruent w)) (m.effect wide i) (m'.effect wide i) := by
  have heq : (m'.effect wide i).map (fun x => (x.1.reduced w, x.2)) =
      (m.effect wide i).map fun x => (x.1.reduced w, x.2) := by
    rw [← effect_reduced hw', h, effect_reduced hw]
  generalize m.effect wide i = x at heq
  generalize m'.effect wide i = y at heq
  rcases x with cause | ⟨k, next⟩ <;> rcases y with cause' | ⟨k', next'⟩
  · cases heq
    exact .fault cause
  · cases heq
  · cases heq
  · rcases Prod.mk.inj (Except.ok.inj heq) with ⟨hk, hnext⟩
    exact .ok ⟨hk, hnext⟩

end Congruent

end Machine

/-- Memory starts the same whatever numbers are loaded for its words. -/
theorem Config.memory_of_congruent {c : Config} {preload : List Nat}
    (h : c.preload.map w.truncate = preload.map w.truncate) :
    { c with preload }.memory w = c.memory w := by
  have hlength : c.preload.length = preload.length := by
    simpa using congrArg List.length h
  have hmask : (· &&& w.mask) = w.truncate := funext w.and_mask
  simp only [memory, Memory.preload, Memory.ofWidth, hmask, List.map_take, h, List.length_take,
    hlength]

namespace Execution

variable {e e' : Execution} {p : Program} {c c' : Config} {tapes tapes' : List Nat × List Nat}

theorem Lockstep.outcome?_of_congruent (h : Lockstep (Machine.Congruent w) e e') :
    e'.outcome? = e.outcome? := by
  rw [outcome?, outcome?, h.status, h.steps, h.pc, h.machine.registers, h.machine.memory,
    h.machine.flag]

theorem Lockstep.iterate_of_congruent (he : e.Valid p c w tapes) (he' : e'.Valid p c' w tapes')
    (h : Lockstep (Machine.Congruent w) e e') (k : Nat) :
    Lockstep (Machine.Congruent w) (Execution.step^[k] e) (Execution.step^[k] e') := by
  induction k with
  | zero => exact h
  | succ k ih =>
    have hv := he.iterate k
    have hv' := he'.iterate k
    rw [Function.iterate_succ_apply', Function.iterate_succ_apply']
    rcases ih.step (fun _ _ pc h => h.at_pc pc) hv hv' fun _ _ i _ =>
        ih.machine.effect hv.machine.width hv'.machine.width _ i with hstep | ⟨_, _, hfalse, -⟩
    · exact hstep
    · exact hfalse.elim

variable {source : String} {given : Option Params} {tape0 tape1 tape0' tape1' preload : List Nat}

theorem start_of_congruent (hs : start p c tape0 tape1 = .ok e)
    (hw : c.params.width = .ok w)
    (h0 : tape0.map w.truncate = tape0'.map w.truncate)
    (h1 : tape1.map w.truncate = tape1'.map w.truncate)
    (hpreload : c.preload.map w.truncate = preload.map w.truncate) :
    ∃ e', start p { c with preload } tape0' tape1' = .ok e' ∧
      Lockstep (Machine.Congruent w) e e' := by
  rcases bind_ok hs with ⟨v, ha, hs⟩
  rcases Config.accept_ok ha with ⟨hv, hregisters, hallows, hfits⟩
  cases hw.symm.trans hv
  cases hs
  have hlength : c.preload.length = preload.length := by
    simpa using congrArg List.length hpreload
  have ha' : { c with preload }.accept p = .ok w :=
    Config.accept_of hw hregisters hallows (hlength ▸ hfits)
  rw [start, ha']
  refine ⟨_, rfl, rfl, rfl, rfl, rfl, rfl, rfl, ?_⟩
  simp only [Machine.Congruent, Machine.reduced, Machine.start, Machine.withTapes,
    Config.memory_of_congruent hpreload, Tape.reduced_ofList h0, Tape.reduced_ofList h1]

/-- Replacing the numbers on the tapes and those to be loaded by others, each congruent to the one
in its place, leaves all outcomes as they are: after any number of steps, the one execution has
halted if the other has, and with the same outcome. -/
theorem outcomes_of_congruent (hp : Program.assemble source given = .ok p)
    (hs : start p c tape0 tape1 = .ok e)
    (h0 : List.Forall₂ (Nat.ModEq (2 ^ c.params.wordBits)) tape0 tape0')
    (h1 : List.Forall₂ (Nat.ModEq (2 ^ c.params.wordBits)) tape1 tape1')
    (hpreload : List.Forall₂ (Nat.ModEq (2 ^ c.params.wordBits)) c.preload preload) :
    ∃ e', start p { c with preload } tape0' tape1' = .ok e' ∧
      (∀ k, (step^[k] e').outcome? = (step^[k] e).outcome?) ∧
      ((∃ k how, (step^[k] e').status = .halted how) ↔
        ∃ k how, (step^[k] e).status = .halted how) ∧
      e'.run.outcome? = e.run.outcome? := by
  rcases Valid.start (Program.within_of_assemble hp) hs with ⟨w, hw, hv⟩
  rw [← Params.bits_of_width hw] at h0 h1 hpreload
  have hstart : ∃ e', start p { c with preload } tape0' tape1' = .ok e' ∧
      Lockstep (Machine.Congruent w) e e' :=
    start_of_congruent hs hw (Width.map_truncate_eq h0) (Width.map_truncate_eq h1)
      (Width.map_truncate_eq hpreload)
  rcases hstart with ⟨e', hs', hlock⟩
  rcases Valid.start (Program.within_of_assemble hp) hs' with ⟨w', hw', hv'⟩
  cases hw.symm.trans hw'
  have hfuel := hlock.fuel
  have hlock := hlock.iterate_of_congruent hv hv'
  refine ⟨e', hs', fun k => (hlock k).outcome?_of_congruent, ?_, ?_⟩
  · simp only [(hlock _).status]
  · rw [run_eq_iterate, run_eq_iterate, hfuel]
    exact (hlock e.fuel).outcome?_of_congruent

/-- With words of eight bits, `Program.divideAll` divides by 258 as it does by 2. -/
theorem divideAll_congruent :
    ∃ e e', start .divideAll { Config.ofParams Program.divideAll.params with preload := [7] }
        [258, 9] [] = .ok e ∧
      start .divideAll { Config.ofParams Program.divideAll.params with preload := [263] }
        [2, 265] [] = .ok e' ∧
      e'.run.outcome? = e.run.outcome? ∧ e.run.status = .halted (.answer 14) := by
  have htapes : List.Forall₂ (Nat.ModEq (2 ^ 8)) [258, 9] [2, 265] :=
    .cons (by decide) (.cons (by decide) .nil)
  have hpreload : List.Forall₂ (Nat.ModEq (2 ^ 8)) [7] [263] := .cons (by decide) .nil
  rcases outcomes_of_congruent
      (c := { Config.ofParams Program.divideAll.params with preload := [7] })
      Program.assemble_divideAllText rfl htapes .nil hpreload with ⟨e', hs', -, -, hrun⟩
  exact ⟨_, e', rfl, hs', hrun, by rfl⟩

end Execution
end WordRam
