import WordRam.Proofs.Execution.Transition
import WordRam.Transcript
import Mathlib.Logic.Function.Iterate

/-!
# Calls on an execution

`Execution.after` is what an execution has become after any sequence of calls. Whatever its name,
a call is some number of steps or a restart (`drive_eq_iterate`), so what a step and a restart keep
holds after every sequence of calls (`after_induction`). A halted execution is only changed by a
restart (`after_of_not_running`).
-/

namespace WordRam

/-- What can be asked of an execution that changes it. -/
inductive Call : Type 1 where
  | step
  | run
  | runUntil {σ : Type} (stop : Execution → σ → Bool × σ) (s : σ)
  | record (t : Transcript)
  | restart (tape0 tape1 : List Nat)

/-- The tapes that are installed after a call, if `tapes` are before. -/
def Call.install (tapes : List Nat × List Nat) : Call → List Nat × List Nat
  | restart tape0 tape1 => (tape0, tape1)
  | _ => tapes

/-- The call starts the execution again. -/
def Call.Restarts : Call → Prop
  | restart .. => True
  | _ => False

/-- The tapes that are installed after some calls: the last ones given, or those at the start. -/
def installed (tapes : List Nat × List Nat) (calls : List Call) : List Nat × List Nat :=
  calls.foldl Call.install tapes

namespace Execution

def call (e : Execution) : Call → Execution
  | .step => e.step
  | .run => e.run
  | .runUntil stop s => (e.runUntil stop s).1
  | .record t => (t.record e).1
  | .restart tape0 tape1 => e.restart tape0 tape1

def after (e : Execution) (calls : List Call) : Execution :=
  calls.foldl call e

variable {σ : Type} {e : Execution}

theorem drive_succ (visit : Execution → σ → Bool × σ) (fuel : Nat) (e : Execution) (s : σ) :
    drive visit (fuel + 1) e s =
      if (visit e.step s).1 || e.step.status ≠ .running then (e.step, (visit e.step s).2)
      else drive visit fuel e.step (visit e.step s).2 := rfl

/-- Driving an execution takes it some number of steps on. -/
theorem drive_eq_iterate (visit : Execution → σ → Bool × σ) (fuel : Nat) (e : Execution) (s : σ) :
    ∃ k, (drive visit fuel e s).1 = step^[k] e := by
  induction fuel generalizing e s with
  | zero => exact ⟨0, rfl⟩
  | succ fuel ih =>
    rw [drive_succ]
    split
    · exact ⟨1, rfl⟩
    · obtain ⟨k, hk⟩ := ih e.step (visit e.step s).2
      exact ⟨k + 1, hk⟩

theorem steps_le_drive (visit : Execution → σ → Bool × σ) (fuel : Nat) (e : Execution) (s : σ) :
    e.steps ≤ (drive visit fuel e s).1.steps := by
  obtain ⟨k, hk⟩ := drive_eq_iterate visit fuel e s
  rw [hk]
  clear hk
  induction k generalizing e with
  | zero => exact Nat.le_refl _
  | succ k ih => exact Nat.le_trans (steps_le_step e) (ih e.step)

/-- A property of executions that a step keeps is kept by every call that does not restart. -/
theorem call_induction {P : Execution → Prop} (hstep : ∀ e, P e → P e.step) (h : P e) {c : Call}
    (hc : ¬ c.Restarts) : P (e.call c) := by
  have iterate (k : Nat) : P (step^[k] e) := by
    induction k with
    | zero => exact h
    | succ k ih => rw [Function.iterate_succ_apply']; exact hstep _ ih
  have drive {σ : Type} (visit : Execution → σ → Bool × σ) (fuel : Nat) (s : σ) :
      P (drive visit fuel e s).1 := by
    obtain ⟨k, hk⟩ := drive_eq_iterate visit fuel e s
    rw [hk]; exact iterate k
  cases c with
  | step => exact hstep e h
  | run => exact drive _ _ _
  | runUntil stop s => exact drive _ _ _
  | record t => exact drive _ _ _
  | restart tape0 tape1 => exact absurd trivial hc

/-- A property of the installed tapes and the execution that a step and a restart keep holds after
all calls. -/
theorem after_induction {P : List Nat × List Nat → Execution → Prop}
    (hstep : ∀ tapes e, P tapes e → P tapes e.step)
    (hrestart : ∀ tapes e tape0 tape1, P tapes e → P (tape0, tape1) (e.restart tape0 tape1))
    {tapes : List Nat × List Nat} (h : P tapes e) (calls : List Call) :
    P (installed tapes calls) (e.after calls) := by
  induction calls generalizing tapes e with
  | nil => exact h
  | cons c calls ih =>
    have hc : P (c.install tapes) (e.call c) := by
      cases c with
      | restart tape0 tape1 => exact hrestart tapes e tape0 tape1 h
      | _ => exact call_induction (P := P tapes) (hstep tapes) h id
    exact ih hc

/-- An execution that runs no longer is not shown to the function that is asked whether to stop. -/
theorem runUntil_of_not_running (h : e.status ≠ .running) (stop : Execution → σ → Bool × σ)
    (s : σ) : e.runUntil stop s = (e, s) := by
  unfold runUntil
  cases e.fuel with
  | zero => rfl
  | succ fuel => simp [drive, step_of_not_running h, h]

theorem call_of_not_running (h : e.status ≠ .running) {c : Call} (hc : ¬ c.Restarts) :
    e.call c = e :=
  call_induction (P := (· = e)) (by rintro _ rfl; exact step_of_not_running h) rfl hc

theorem after_of_not_running (h : e.status ≠ .running) {calls : List Call}
    (hc : ∀ c ∈ calls, ¬ c.Restarts) : e.after calls = e := by
  induction calls with
  | nil => rfl
  | cons c calls ih =>
    show (e.call c).after calls = e
    rw [call_of_not_running h (hc c List.mem_cons_self)]
    exact ih fun c hm => hc c (List.mem_cons_of_mem _ hm)

end Execution
end WordRam
