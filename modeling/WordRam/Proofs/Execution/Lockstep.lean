import WordRam.Proofs.Execution.Steps

/-!
# Executions in lockstep

Two executions of a program are in lockstep if they have come equally far, with machines that stand
in some relation. Whether they stay so is a question about the effects of the single instructions:
as long as these correspond, so do the steps (`Lockstep.step`) and the runs (`Lockstep.run`). Some
faults of the first execution may be excused; what the second does in their place is left open.
-/

namespace WordRam

/-- Two computations come to related values, or to the same fault. Nothing is said of the second if
the fault of the first is excused. -/
inductive Corresponds {α β : Type} (excused : Fault → Prop) (R : α → β → Prop) :
    Except Fault α → Except Fault β → Prop
  | ok {a : α} {b : β} (h : R a b) : Corresponds excused R (.ok a) (.ok b)
  | fault (cause : Fault) : Corresponds excused R (.error cause) (.error cause)
  | excused {cause : Fault} (h : excused cause) (y : Except Fault β) :
    Corresponds excused R (.error cause) y

namespace Corresponds

variable {α β α' β' : Type} {excused : Fault → Prop} {R : α → β → Prop} {S : α' → β' → Prop}
variable {x : Except Fault α} {y : Except Fault β}

theorem bind (h : Corresponds excused R x y) {f : α → Except Fault α'} {g : β → Except Fault β'}
    (hfg : ∀ a b, R a b → Corresponds excused S (f a) (g b)) :
    Corresponds excused S (x >>= f) (y >>= g) := by
  cases h with
  | ok h => exact hfg _ _ h
  | fault cause => exact .fault cause
  | excused h => exact .excused h _

theorem map (h : Corresponds excused R x y) {f : α → α'} {g : β → β'}
    (hfg : ∀ a b, R a b → S (f a) (g b)) : Corresponds excused S (x.map f) (y.map g) := by
  cases h with
  | ok h => exact .ok (hfg _ _ h)
  | fault cause => exact .fault cause
  | excused h => exact .excused h _

theorem of_eq {R : α → α → Prop} (hR : ∀ a, R a a) (x : Except Fault α) :
    Corresponds excused R x x := by
  cases x with
  | ok a => exact .ok (hR a)
  | error cause => exact .fault cause

end Corresponds

/-- Related machines, with the same to come next. -/
def Machine.Moves (R : Machine → Machine → Prop) (x y : Machine × Next) : Prop :=
  R x.1 y.1 ∧ y.2 = x.2

namespace Execution

/-- The executions have come equally far, and their machines are related. -/
structure Lockstep (R : Machine → Machine → Prop) (a b : Execution) : Prop where
  program : b.program = a.program
  limit : b.config.stepLimit = a.config.stepLimit
  wide : b.config.wide = a.config.wide
  steps : b.steps = a.steps
  status : b.status = a.status
  pc : b.machine.pc = a.machine.pc
  machine : R a.machine b.machine

/-- The execution has halted with a fault that is excused. -/
def Excused (excused : Fault → Prop) (e : Execution) : Prop :=
  ∃ pc cause, excused cause ∧ e.status = .halted (.fault pc cause)

/-- How an execution that stands at `pc` goes on after the effect of the instruction there. -/
def conclude (e : Execution) (pc : Nat) : Except Fault (Machine × Next) → Execution
  | .ok (m, .step) => e.resume m (pc + 1)
  | .ok (m, .goto target) => e.resume m target
  | .ok (m, .answer code) => { e with machine := m }.halt (.answer code)
  | .error cause => e.halt (.fault pc cause)

/-- A step that is allowed performs the instruction at the program counter. -/
theorem Valid.step_eq {p : Program} {c : Config} {w : Width} {tapes : List Nat × List Nat}
    {e : Execution} (h : e.Valid p c w tapes) (hrun : e.status = .running) (ha : e.Allowed)
    {i : Instruction} (hi : e.program.instructions[e.machine.pc]? = some i) :
    e.step = (e.count i).conclude e.machine.pc (e.machine.effect e.config.wide i) := by
  have hwithin : i.Within e.machine.registers.size := by
    rw [h.machine.size]
    exact h.within i (h.program ▸ Array.mem_of_getElem? hi)
  rw [step_of_running hrun, fetch_of_allowed ha, hi]
  refine (perform_count h.machine.memory.sized hwithin).trans ?_
  rcases e.machine.effect e.config.wide i with cause | ⟨m, _ | target | code⟩ <;> rfl

namespace Lockstep

variable {R : Machine → Machine → Prop} {excused : Fault → Prop} {a b : Execution}
variable {p q : Program} {c d : Config} {w v : Width} {tapes tapes' : List Nat × List Nat}

theorem fuel (h : Lockstep R a b) : b.fuel = a.fuel := by
  simp only [Execution.fuel, h.limit, h.steps]

theorem allowed (h : Lockstep R a b) (ha : a.Allowed) : b.Allowed := by
  intro limit hl
  rw [h.steps]
  exact ha limit (h.limit ▸ hl)

theorem halt (h : Lockstep R a b) (how : Halt) : Lockstep R (a.halt how) (b.halt how) :=
  ⟨h.program, h.limit, h.wide, h.steps, rfl, h.pc, h.machine⟩

theorem count (h : Lockstep R a b) (i : Instruction) : Lockstep R (a.count i) (b.count i) :=
  ⟨h.program, h.limit, h.wide, congrArg (· + 1) h.steps, h.status, h.pc, h.machine⟩

theorem resume (h : Lockstep R a b) {m m' : Machine} {pc : Nat}
    (hm : R { m with pc } { m' with pc }) : Lockstep R (a.resume m pc) (b.resume m' pc) :=
  ⟨h.program, h.limit, h.wide, h.steps, h.status, rfl, hm⟩

variable (hpc : ∀ m m' pc, R m m' → R { m with pc } { m' with pc })
include hpc

/-- Executions in lockstep go on so after effects that correspond. -/
theorem conclude (h : Lockstep R a b) {x y : Except Fault (Machine × Next)}
    (hxy : Corresponds excused (Machine.Moves R) x y)
    (hx : ∀ m code, x = .ok (m, .answer code) → m = a.machine)
    (hy : ∀ m code, y = .ok (m, .answer code) → m = b.machine) (pc : Nat) :
    Lockstep R (a.conclude pc x) (b.conclude pc y) ∨ (a.conclude pc x).Excused excused := by
  cases hxy with
  | fault cause => exact .inl (h.halt _)
  | excused hc => exact .inr ⟨_, _, hc, rfl⟩
  | @ok next next' hnext =>
    obtain ⟨m, n⟩ := next
    obtain ⟨m', n'⟩ := next'
    obtain ⟨hR, rfl⟩ : R m m' ∧ n' = n := hnext
    cases n' with
    | step => exact .inl (h.resume (hpc _ _ _ hR))
    | goto target => exact .inl (h.resume (hpc _ _ _ hR))
    | answer code =>
      obtain rfl := hx _ _ rfl
      obtain rfl := hy _ _ rfl
      exact .inl (h.halt _)

/-- In lockstep, executions stay so by a step if the effects of the instruction correspond. -/
theorem step (h : Lockstep R a b) (ha : a.Valid p c w tapes) (hb : b.Valid q d v tapes')
    (heffect : a.status = .running → a.Allowed →
      ∀ i, a.program.instructions[a.machine.pc]? = some i → Corresponds excused (Machine.Moves R)
        (a.machine.effect a.config.wide i) (b.machine.effect a.config.wide i)) :
    Lockstep R a.step b.step ∨ a.step.Excused excused := by
  by_cases hrun : a.status = .running
  · have hrun' : b.status = .running := h.status.trans hrun
    -- both have used up their steps, or neither has
    rcases allowed_or_spent a with hallowed | ⟨limit, hl, hle⟩
    · have hallowed' := h.allowed hallowed
      have hfetch : b.program.instructions[b.machine.pc]? =
          a.program.instructions[a.machine.pc]? := by
        rw [h.program, h.pc]
      cases hi : a.program.instructions[a.machine.pc]? with
      | none =>
        rw [step_of_running hrun, step_of_running hrun', fetch_of_allowed hallowed,
          fetch_of_allowed hallowed', hfetch, hi, h.pc]
        exact .inl (h.halt _)
      | some i =>
        rw [ha.step_eq hrun hallowed hi, hb.step_eq hrun' hallowed' (hfetch.trans hi), h.wide, h.pc]
        refine (h.count i).conclude hpc (heffect hrun hallowed i hi) ?_ ?_ _
        · intro m code hx
          exact ((Machine.effect_next hx).resolve_left nofun).1
        · intro m code hy
          exact ((Machine.effect_next hy).resolve_left nofun).1
    · have hl' : b.config.stepLimit = some limit := h.limit.trans hl
      rw [step_of_running hrun, step_of_running hrun', fetch_of_spent hl hle,
        fetch_of_spent hl' (h.steps ▸ hle), h.pc]
      exact .inl (h.halt _)
  · have hrun' : b.status ≠ .running := h.status ▸ hrun
    rw [step_of_not_running hrun, step_of_not_running hrun']
    exact .inl h

/-- The runs of executions in lockstep come out in lockstep. -/
theorem run (h : Lockstep R a b) (ha : a.Valid p c w tapes) (hb : b.Valid q d v tapes')
    (heffect : ∀ k < a.fuel, Lockstep R (Execution.step^[k] a) (Execution.step^[k] b) →
      (Execution.step^[k] a).status = .running → (Execution.step^[k] a).Allowed →
      ∀ i, (Execution.step^[k] a).program.instructions[(Execution.step^[k] a).machine.pc]? =
          some i →
        Corresponds excused (Machine.Moves R)
          ((Execution.step^[k] a).machine.effect (Execution.step^[k] a).config.wide i)
          ((Execution.step^[k] b).machine.effect (Execution.step^[k] a).config.wide i)) :
    Lockstep R a.run b.run ∨ a.run.Excused excused := by
  rw [run_eq_iterate, run_eq_iterate, h.fuel]
  -- the induction is on the steps that the fuel allows
  suffices ∀ k ≤ a.fuel, Lockstep R (Execution.step^[k] a) (Execution.step^[k] b) ∨
      (Execution.step^[k] a).Excused excused from this a.fuel (Nat.le_refl _)
  intro k hk
  induction k with
  | zero => exact .inl h
  | succ k ih =>
    rw [Function.iterate_succ_apply', Function.iterate_succ_apply']
    rcases ih (Nat.le_of_succ_le hk) with hlock | hexcused
    · exact hlock.step hpc (ha.iterate k) (hb.iterate k) (heffect k hk hlock)
    · -- an execution that is excused has halted and stays as it is
      obtain ⟨pc, cause, hc, hs⟩ := hexcused
      rw [step_of_not_running (not_running_of_halted hs)]
      exact .inr ⟨pc, cause, hc, hs⟩

end Lockstep

end Execution
end WordRam
