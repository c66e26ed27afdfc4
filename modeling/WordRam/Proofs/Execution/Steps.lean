import WordRam.Proofs.Execution.Atomic

/-!
# Many steps

What an execution has become after some number of steps. A run is as many steps as its fuel
(`run_eq_iterate`). As long as the execution is running, every step has counted an instruction
(`steps_iterate`); once it is not, no step changes it (`iterate_of_le`), and the step that halted it
can be found (`exists_last_step`).
-/

namespace WordRam
namespace Execution

variable {e : Execution} {j k : Nat}

theorem step_config (e : Execution) : e.step.config = e.config := by
  unfold step
  split
  · split
    · rfl
    · unfold perform
      split <;> rfl
  · rfl

theorem iterate_config (e : Execution) (k : Nat) : (step^[k] e).config = e.config := by
  induction k with
  | zero => rfl
  | succ k ih => rw [Function.iterate_succ_apply', step_config, ih]

theorem running_of_step (h : e.step.status = .running) : e.status = .running := by
  by_contra hnot
  rw [step_of_not_running hnot] at h
  exact hnot h

theorem steps_step (h : e.step.status = .running) : e.step.steps = e.steps + 1 := by
  have hrun := running_of_step h
  rw [step_of_running hrun] at h ⊢
  split at h
  · cases h
  · exact perform_steps _ _

theorem iterate_of_not_running (h : e.status ≠ .running) (k : Nat) : step^[k] e = e :=
  Function.iterate_fixed (step_of_not_running h) k

theorem iterate_of_le (hjk : j ≤ k) (h : (step^[j] e).status ≠ .running) :
    step^[k] e = step^[j] e := by
  obtain ⟨i, rfl⟩ := Nat.exists_eq_add_of_le' hjk
  rw [Function.iterate_add_apply, iterate_of_not_running h]

theorem running_of_le (hjk : j ≤ k) (h : (step^[k] e).status = .running) :
    (step^[j] e).status = .running := by
  by_contra hnot
  rw [iterate_of_le hjk hnot] at h
  exact hnot h

theorem steps_iterate (h : (step^[k] e).status = .running) : (step^[k] e).steps = e.steps + k := by
  induction k with
  | zero => rfl
  | succ k ih =>
    rw [Function.iterate_succ_apply'] at h ⊢
    rw [steps_step h, ih (running_of_step h), Nat.add_assoc]

theorem exists_last_step (hrun : e.status = .running) (h : (step^[k] e).status ≠ .running) :
    ∃ j < k, (step^[j] e).status = .running ∧ (step^[j] e).step = step^[k] e := by
  induction k with
  | zero => exact absurd hrun h
  | succ k ih =>
    by_cases hk : (step^[k] e).status = .running
    · exact ⟨k, Nat.lt_succ_self k, hk, (Function.iterate_succ_apply' step k e).symm⟩
    · obtain ⟨j, hj, hrunning, hstep⟩ := ih hk
      exact ⟨j, Nat.lt_succ_of_lt hj, hrunning, hstep.trans (iterate_of_le (Nat.le_succ k) hk).symm⟩

theorem run_eq_iterate (e : Execution) : e.run = step^[e.fuel] e := by
  unfold run
  generalize e.fuel = fuel
  induction fuel generalizing e with
  | zero => rfl
  | succ fuel ih =>
    rw [drive_succ, Function.iterate_succ_apply]
    by_cases h : e.step.status = .running
    · simpa [h] using ih e.step
    · simp [h, iterate_of_not_running h]

theorem outcome_ok {o : Outcome} (h : e.outcome? = some o) :
    e.status = .halted o.halt ∧ o.steps = e.steps := by
  unfold outcome? at h
  cases hs : e.status with
  | halted how => rw [hs] at h; cases h; exact ⟨rfl, rfl⟩
  | running => rw [hs] at h; cases h
  | stuck reason => rw [hs] at h; cases h

namespace Valid

variable {p : Program} {c : Config} {w : Width} {tapes : List Nat × List Nat} {how : Halt}

theorem iterate (h : e.Valid p c w tapes) (k : Nat) : (Execution.step^[k] e).Valid p c w tapes := by
  induction k with
  | zero => exact h
  | succ k ih => rw [Function.iterate_succ_apply']; exact ih.step

theorem running_or_halted (h : e.Valid p c w tapes) :
    e.status = .running ∨ ∃ how, e.status = .halted how := by
  have hstatus := h.status
  cases hs : e.status with
  | running => exact .inl rfl
  | halted how => exact .inr ⟨how, rfl⟩
  | stuck reason => rw [hs] at hstatus; exact hstatus.elim

/-- The last step that a halted execution took, with the instructions that were counted until then
and by it. -/
theorem last_step (h : e.Valid p c w tapes) (hrun : e.status = .running)
    (hhalt : (Execution.step^[k] e).status = .halted how) :
    ∃ j < k, (Execution.step^[j] e).status = .running ∧ (Execution.step^[j] e).step = Execution.step^[k] e ∧
      (Execution.step^[k] e).steps = e.steps + j + how.counted := by
  obtain ⟨j, hj, hrunning, hstep⟩ := exists_last_step hrun (not_running_of_halted hhalt)
  refine ⟨j, hj, hrunning, hstep, ?_⟩
  have hplace := ((h.iterate j).transition hrunning).halts hrunning (by rw [hstep]; exact hhalt)
  rw [← hstep, hplace.steps, steps_iterate hrunning]

end Valid

end Execution
end WordRam
