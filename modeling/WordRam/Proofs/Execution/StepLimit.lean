import WordRam.Proofs.Execution.Steps

/-!
# Step limits

A step limit cuts a run off and does nothing else. The limit is looked at before every step, so up
to the limit an execution goes the way that it goes under no limit (`iterate_withLimit`); there, it
has halted by itself, or it halts for the limit (`run_withLimit`). So a run either comes out the same
under every limit that is large enough, or its machine is the one that the execution without a limit
has come to after as many instructions.

How large is large enough depends on the halt: an instruction that answers or faults is counted
itself, while finding no instruction takes a step that counts nothing.
-/

namespace WordRam
namespace Execution

/-- The same execution under another step limit, or under none. -/
def withLimit (e : Execution) (limit : Option Nat) : Execution :=
  { e with config := { e.config with stepLimit := limit } }

/-- The execution has halted for its step limit. -/
def CutOff (e : Execution) : Prop :=
  ∃ pc limit, e.status = .halted (.fault pc (.stepLimit limit))

/-- The step limit `limit` truncates the run of `e`. -/
structure Truncates (e : Execution) (limit : Nat) : Prop where
  halts : ∃ how, (e.withLimit (some limit)).run.status = .halted how
  calls : (e.withLimit (some limit)).run = step^[limit + 1] (e.withLimit (some limit))
  steps : (e.withLimit (some limit)).run.steps ≤ limit
  /-- A run that is not cut off comes out the same under larger limits and under none. -/
  complete : ¬ (e.withLimit (some limit)).run.CutOff →
    ∀ other : Option Nat, (∀ limit', other = some limit' → limit ≤ limit') →
      (e.withLimit other).run.outcome? = (e.withLimit (some limit)).run.outcome?
  /-- A run that is cut off has come as far as the run without a limit comes in as many steps. -/
  cut : ∀ pc limit',
    (e.withLimit (some limit)).run.status = .halted (.fault pc (.stepLimit limit')) →
      limit' = limit ∧ (e.withLimit (some limit)).run.steps = limit ∧
      (e.withLimit (some limit)).run.machine = (step^[limit] (e.withLimit none)).machine ∧
      (step^[limit] (e.withLimit none)).status = .running ∧
      (step^[limit] (e.withLimit none)).steps = limit
  /-- A run without a limit comes out the same under the limit if the limit leaves room for it. -/
  room : ∀ o, (e.withLimit none).run.outcome? = some o →
    ((e.withLimit (some limit)).run.outcome? = some o ↔
      match o.halt with
      | .fault _ .pcOutOfBounds => o.steps < limit
      | _ => o.steps ≤ limit)

variable {e : Execution} {limit k : Nat}

theorem start_withLimit {p : Program} {c : Config} {tape0 tape1 : List Nat}
    (hs : start p c tape0 tape1 = .ok e) (l : Option Nat) :
    start p { c with stepLimit := l } tape0 tape1 = .ok (e.withLimit l) := by
  obtain ⟨w, ha, hs⟩ := bind_ok hs
  cases hs
  have ha' : ({ c with stepLimit := l } : Config).accept p = .ok w := ha
  rw [start, ha']
  rfl

theorem step_withLimit (ha : e.Allowed) {l : Option Nat} (hl : (e.withLimit l).Allowed) :
    (e.withLimit l).step = e.step.withLimit l := by
  by_cases hrun : e.status = .running
  · have hrun' : (e.withLimit l).status = .running := hrun
    rw [step_of_running hrun, step_of_running hrun', fetch_of_allowed ha, fetch_of_allowed hl]
    have hinstr : (e.withLimit l).program.instructions[(e.withLimit l).machine.pc]? =
        e.program.instructions[e.machine.pc]? := rfl
    rw [hinstr]
    cases e.program.instructions[e.machine.pc]? with
    | none => rfl
    | some i =>
      simp only [perform, count, withLimit]
      rcases MachineM.execute e.config.wide i e.machine with ⟨_ | _ | _, m⟩ | ⟨_ | _, m⟩ <;> rfl
  · have hrun' : (e.withLimit l).status ≠ .running := hrun
    rw [step_of_not_running hrun, step_of_not_running hrun']

theorem iterate_withLimit (h : e.steps + k ≤ limit) :
    step^[k] (e.withLimit (some limit)) = (step^[k] (e.withLimit none)).withLimit (some limit) := by
  induction k with
  | zero => rfl
  | succ k ih =>
    rw [Function.iterate_succ_apply', Function.iterate_succ_apply', ih (by omega)]
    set x := step^[k] (e.withLimit none) with hx
    by_cases hrun : x.status = .running
    · -- still running, so `k` instructions have been counted and the limit allows another
      have hsteps : x.steps = e.steps + k := steps_iterate hrun
      have hnone : x.config.stepLimit = none := by rw [hx, iterate_config]; rfl
      refine step_withLimit (fun l hl => nomatch hnone.symm.trans hl) fun l hl => ?_
      cases hl
      show x.steps < limit
      omega
    · have hrun' : (x.withLimit (some limit)).status ≠ .running := hrun
      rw [step_of_not_running hrun, step_of_not_running hrun']

theorem fuel_withLimit (h : e.steps = 0) (limit : Nat) :
    (e.withLimit (some limit)).fuel = limit + 1 := by
  show limit - e.steps + 1 = limit + 1
  rw [h, Nat.sub_zero]

/-- A run under a limit: one step more than the steps up to the limit. -/
theorem run_withLimit (h : e.steps = 0) (limit : Nat) : (e.withLimit (some limit)).run =
    ((step^[limit] (e.withLimit none)).withLimit (some limit)).step := by
  rw [run_eq_iterate, fuel_withLimit h, Function.iterate_succ_apply', iterate_withLimit (by omega)]

variable {p : Program} {c : Config} {w : Width} {tapes : List Nat × List Nat}

theorem not_cutOff (hv : e.Valid p c w tapes) (hl : c.stepLimit = none) (hrun : e.status = .running)
    (k : Nat) : ¬ (step^[k] e).CutOff := by
  rintro ⟨pc, limit, hcut⟩
  obtain ⟨j, -, hrunning, hstep, -⟩ := hv.last_step hrun hcut
  have hvj := hv.iterate j
  have ht := hvj.transition hrunning
  rw [hstep] at ht
  generalize step^[k] e = x at ht hcut
  cases ht with
  | limit hlimit => rw [hvj.config, hl] at hlimit; cases hlimit
  | outside => cases hcut
  | fault ha hi he => cases hcut; exact Machine.effect_error he
  | next => exact nomatch hrunning.symm.trans hcut
  | goto => exact nomatch hrunning.symm.trans hcut
  | answer => cases hcut

section
variable (h0 : e.steps = 0)
include h0

theorem steps_of_running (hx : (step^[limit] (e.withLimit none)).status = .running) :
    (step^[limit] (e.withLimit none)).steps = limit := by
  rw [steps_iterate hx]
  show e.steps + limit = limit
  rw [h0, Nat.zero_add]

theorem run_of_running (hx : (step^[limit] (e.withLimit none)).status = .running) :
    (e.withLimit (some limit)).run =
      ((step^[limit] (e.withLimit none)).withLimit (some limit)).halt
        (.fault (step^[limit] (e.withLimit none)).machine.pc (.stepLimit limit)) := by
  rw [run_withLimit h0]
  have hsteps := steps_of_running h0 hx
  set x := step^[limit] (e.withLimit none)
  have hrun : (x.withLimit (some limit)).status = .running := hx
  have hspent : (x.withLimit (some limit)).fetch = .error (.stepLimit limit) :=
    fetch_of_spent rfl (Nat.le_of_eq hsteps.symm)
  rw [step_of_running hrun, hspent]
  rfl

theorem run_of_not_running (hx : (step^[limit] (e.withLimit none)).status ≠ .running)
    {limit' : Nat} (hle : limit ≤ limit') : (e.withLimit (some limit')).run =
      (step^[limit] (e.withLimit none)).withLimit (some limit') := by
  rw [run_withLimit h0, iterate_of_le hle hx]
  set x := step^[limit] (e.withLimit none)
  have hnot : (x.withLimit (some limit')).status ≠ .running := hx
  rw [step_of_not_running hnot]

theorem outcome_of_not_running (hx : (step^[limit] (e.withLimit none)).status ≠ .running)
    (hlt : limit < 2 ^ 64) {other : Option Nat}
    (ho : ∀ limit', other = some limit' → limit ≤ limit') :
    (e.withLimit other).run.outcome? = (step^[limit] (e.withLimit none)).outcome? := by
  cases other with
  | none =>
    have hfuel : (e.withLimit none).fuel = 2 ^ 64 := rfl
    rw [run_eq_iterate, hfuel, iterate_of_le (Nat.le_of_lt hlt) hx]
  | some limit' =>
    rw [run_of_not_running h0 hx (ho limit' rfl)]
    rfl

end

/-- The step after `j` others is within the limit if the limit leaves room for what it counts. -/
theorem lt_limit_iff {j : Nat} {o : Outcome} (ho : o.steps = j + o.halt.counted)
    (hfree : ∀ pc limit', o.halt ≠ .fault pc (.stepLimit limit')) :
    j < limit ↔ match o.halt with
      | .fault _ .pcOutOfBounds => o.steps < limit
      | _ => o.steps ≤ limit := by
  unfold Halt.counted at ho
  split at ho
  · next pc heq => simp only [heq]; omega
  · next pc limit' heq => exact absurd heq (hfree pc limit')
  · next hpc _ =>
    split
    · next pc heq => exact absurd heq (hpc pc)
    · omega

theorem outcome_iff (hv : (e.withLimit none).Valid p c w tapes) (h0 : e.steps = 0)
    (hrun : e.status = .running) (hlt : limit < 2 ^ 64) {o : Outcome}
    (ho : (e.withLimit none).run.outcome? = some o) :
    (e.withLimit (some limit)).run.outcome? = some o ↔
      match o.halt with
      | .fault _ .pcOutOfBounds => o.steps < limit
      | _ => o.steps ≤ limit := by
  have hnone : c.stepLimit = none := by rw [← hv.config]; rfl
  have hfuel : (e.withLimit none).fuel = 2 ^ 64 := rfl
  rw [run_eq_iterate, hfuel] at ho
  obtain ⟨hhalt, hcount⟩ := outcome_ok ho
  obtain ⟨j, -, hrunning, hstep, hsteps⟩ := hv.last_step hrun hhalt
  -- it halts by itself in the step after the first `j`, not at a limit
  have hcounted : o.steps = j + o.halt.counted := by
    have hzero : (e.withLimit none).steps = 0 := h0
    rw [hcount, hsteps, hzero, Nat.zero_add]
  have hfree : ∀ pc limit', o.halt ≠ .fault pc (.stepLimit limit') := by
    intro pc limit' heq
    exact not_cutOff hv hnone hrun (2 ^ 64) ⟨pc, limit', heq ▸ hhalt⟩
  rw [← lt_limit_iff hcounted hfree]
  constructor
  · intro hout
    -- if it still runs at the limit, the limit halts it, and with another outcome
    by_contra hge
    have hx : (step^[limit] (e.withLimit none)).status = .running :=
      running_of_le (Nat.not_lt.1 hge) hrunning
    rw [run_of_running h0 hx] at hout
    obtain ⟨hcut, -⟩ := outcome_ok hout
    exact hfree _ _ (Status.halted.inj hcut).symm
  · intro hj
    -- the last step is among the steps up to the limit, and nothing happens after it
    have hlast : step^[limit] (e.withLimit none) = step^[2 ^ 64] (e.withLimit none) := by
      rw [← hstep, ← Function.iterate_succ_apply' step]
      refine iterate_of_le hj ?_
      rw [Function.iterate_succ_apply', hstep]
      exact not_running_of_halted hhalt
    have hx : (step^[limit] (e.withLimit none)).status ≠ .running :=
      not_running_of_halted (by rw [hlast, hhalt])
    rw [outcome_of_not_running h0 hx hlt, hlast, ho]
    intro limit' h
    cases h
    exact Nat.le_refl _

theorem truncates (hv : (e.withLimit none).Valid p c w tapes) (h0 : e.steps = 0)
    (hrun : e.status = .running) (hlt : limit < 2 ^ 64) : e.Truncates limit := by
  have hnone : c.stepLimit = none := by rw [← hv.config]; rfl
  have hcalls := run_eq_iterate (e.withLimit (some limit))
  rw [fuel_withLimit h0] at hcalls
  rcases (hv.iterate limit).running_or_halted with hx | ⟨how, hx⟩
  · -- the limit is what halts it
    have hlim := run_of_running h0 hx
    have hsteps := steps_of_running h0 hx
    refine ⟨⟨_, by rw [hlim]; rfl⟩, hcalls, ?_, ?_, ?_, fun o => outcome_iff hv h0 hrun hlt⟩
    · rw [hlim]
      exact Nat.le_of_eq hsteps
    · intro hcut
      exact absurd ⟨_, _, by rw [hlim]; rfl⟩ hcut
    · intro pc limit' hcut
      rw [hlim] at hcut ⊢
      cases hcut
      exact ⟨rfl, hsteps, rfl, hx, hsteps⟩
  · -- it has halted by itself
    have hnot := not_running_of_halted hx
    have hlim := run_of_not_running h0 hnot (Nat.le_refl limit)
    refine ⟨⟨how, by rw [hlim]; exact hx⟩, hcalls, ?_, ?_, ?_, fun o => outcome_iff hv h0 hrun hlt⟩
    · obtain ⟨j, hj, hrunning, hstep, hsteps⟩ := hv.last_step hrun hx
      rw [hlim]
      have hzero : (e.withLimit none).steps = 0 := h0
      have hone : how.counted ≤ 1 := by
        unfold Halt.counted
        split <;> omega
      have hlast : (step^[limit] (e.withLimit none)).steps ≤ limit := by omega
      exact hlast
    · intro hcut other ho
      rw [outcome_of_not_running h0 hnot hlt ho, hlim]
      rfl
    · intro pc limit' hcut
      rw [hlim] at hcut
      exact absurd ⟨pc, limit', hcut⟩ (not_cutOff hv hnone hrun limit)

variable {source : String} {given : Option Params} {tape0 tape1 : List Nat}

/-- A step limit that 64 bits can count truncates every run. -/
theorem step_limit_truncates (hp : Program.assemble source given = .ok p)
    (hs : start p c tape0 tape1 = .ok e) :
    (∀ l, start p { c with stepLimit := l } tape0 tape1 = .ok (e.withLimit l)) ∧
      ∀ limit < 2 ^ 64, e.Truncates limit := by
  refine ⟨start_withLimit hs, fun limit hlt => ?_⟩
  obtain ⟨w, -, hv⟩ := Valid.start (Program.within_of_assemble hp) (start_withLimit hs none)
  obtain ⟨w', ha, hs⟩ := bind_ok hs
  cases hs
  exact truncates hv rfl rfl hlt

/-- The eighth instruction of the usual execution of `Program.divideAll` faults. A limit of seven
keeps it from being executed. -/
theorem step_limit_divideAll :
    start .divideAll { Config.ofParams Program.divideAll.params with stepLimit := some 7 }
        [5, 0] [] = .ok ((divideAll [5, 0]).withLimit (some 7)) ∧
      ((divideAll [5, 0]).withLimit (some 7)).run.status = .halted (.fault 3 (.stepLimit 7)) ∧
      (divideAll [5, 0]).Truncates 7 := by
  obtain ⟨hstart, htruncates⟩ :=
    step_limit_truncates Program.assemble_divideAllText (start_divideAll [5, 0])
  exact ⟨hstart (some 7), rfl, htruncates 7 (by decide)⟩

end Execution
end WordRam
