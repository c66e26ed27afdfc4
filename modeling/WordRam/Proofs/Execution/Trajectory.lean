import WordRam.Proofs.Execution.Steps

/-!
# One trajectory for all calls

There is only one way on from the start of an execution, and every call follows it for some number
of steps: stepping, running, running until something and recording all leave an execution where so
many steps leave it (`call_eq_iterate`). A call that halts it halts it where a run from the start
does (`run_eq_of_halted`).

What a function that is asked whether to stop gets to see is told by one that keeps a list of it
(`spy`). It is shown the state after every step that does not halt the execution, and it is asked no
more once it has said that the run is to stop (`drive_spy`). A loop comes to its end if more fuel
would not take it further (`Ends`); one that does not goes on until 64 bits no longer count its
steps.
-/

namespace WordRam
namespace Execution

variable {σ : Type} {e : Execution} {k : Nat}

/-- A state that a function has been shown and whether it asked to stop there. -/
structure Question where
  shown : Execution
  stop : Bool

/-- Asks `stop`, and adds the question to a list of them. -/
def spy (stop : Execution → σ → Bool × σ) (e : Execution) (s : σ × List Question) :
    Bool × σ × List Question :=
  let (answer, s') := stop e s.1
  (answer, s', s.2 ++ [⟨e, answer⟩])

/-- What `stop` is asked in a run until it says so. -/
def questions (e : Execution) (stop : Execution → σ → Bool × σ) (s : σ) : List Question :=
  (e.runUntil (spy stop) (s, [])).2.2

/-- What a run until something looks at its states with: `stop` is not shown a state in which the
execution has halted. -/
def asking (stop : Execution → σ → Bool × σ) (e : Execution) (s : σ) : Bool × σ :=
  if e.status = .running then stop e s else (false, s)

/-- A loop comes to its end: more fuel would change nothing. -/
def Ends (visit : Execution → σ → Bool × σ) (e : Execution) (s : σ) : Prop :=
  ∀ fuel, e.fuel ≤ fuel → drive visit fuel e s = drive visit e.fuel e s

/-- The states after each of so many steps. -/
def states (e : Execution) (k : Nat) : List Execution :=
  (List.range k).map fun j => step^[j + 1] e

/-- The last question has been answered with stopping. -/
def Stopped (asked : List Question) : Prop :=
  ∃ q, asked.getLast? = some q ∧ q.stop = true

/-- On the way of `e` through `k` steps, none of which is taken in vain, the questions are asked
that there are to ask. -/
structure Asked (e : Execution) (k : Nat) (asked : List Question) : Prop where
  running : ∀ j < k, (step^[j] e).status = .running
  /-- The state after every step that does not halt the execution is shown, and no other. -/
  shown : asked.map (·.shown) = (e.states k).filter (·.status = .running)
  counts : asked.map (·.shown.steps) = List.range' (e.steps + 1) asked.length
  /-- All questions before the last have been answered with going on. -/
  onward : ∀ q ∈ asked.dropLast, q.stop = false
  /-- Stopping leaves the execution running. -/
  stopped : Stopped asked → (step^[k] e).status = .running

theorem states_succ (e : Execution) (k : Nat) : e.states (k + 1) = e.step :: e.step.states k := by
  simp only [states, List.range_succ_eq_map, List.map_cons, List.map_map]
  rfl

theorem not_stopped_nil : ¬ Stopped [] := by
  rintro ⟨q, hq, -⟩
  cases hq

theorem stopped_cons {q : Question} (hq : q.stop = false) {asked : List Question} :
    Stopped (q :: asked) ↔ Stopped asked := by
  cases asked with
  | nil => simp [Stopped, hq]
  | cons first rest => simp [Stopped]

namespace Asked

variable {asked : List Question}

theorem none (e : Execution) : Asked e 0 [] where
  running j hj := absurd hj (Nat.not_lt_zero j)
  shown := rfl
  counts := rfl
  onward := by simp
  stopped h := absurd h not_stopped_nil

theorem halts (hrun : e.status = .running) (hstep : e.step.status ≠ .running) : Asked e 1 [] where
  running j hj := by rw [Nat.lt_one_iff.1 hj]; exact hrun
  shown := by simp [states, hstep]
  counts := rfl
  onward := by simp
  stopped h := absurd h not_stopped_nil

theorem stops (hrun : e.status = .running) (hstep : e.step.status = .running) :
    Asked e 1 [⟨e.step, true⟩] where
  running j hj := by rw [Nat.lt_one_iff.1 hj]; exact hrun
  shown := by simp [states, hstep]
  counts := by simp [steps_step hstep]
  onward := by simp
  stopped _ := hstep

theorem goes_on (hrun : e.status = .running) (hstep : e.step.status = .running)
    (h : Asked e.step k asked) : Asked e (k + 1) (⟨e.step, false⟩ :: asked) where
  running j hj := by
    cases j with
    | zero => exact hrun
    | succ j => exact h.running j (Nat.lt_of_succ_lt_succ hj)
  shown := by
    rw [states_succ, List.map_cons, h.shown]
    simp [hstep]
  counts := by
    rw [List.map_cons, h.counts, List.length_cons, List.range'_succ, steps_step hstep]
  onward q hq := by
    cases asked with
    | nil => cases hq
    | cons first rest =>
      rcases List.mem_cons.1 hq with rfl | hq
      · rfl
      · exact h.onward q hq
  stopped hs := h.stopped ((stopped_cons rfl).1 hs)

end Asked

/-- A drive goes some steps on, and keeping a list of the questions changes nothing else. Unless it
has run out of fuel, it ends because the execution has halted or because it is asked to stop. -/
theorem drive_spy (stop : Execution → σ → Bool × σ) (fuel : Nat) (hrun : e.status = .running)
    (s : σ) (before : List Question) :
    ∃ k asked, k ≤ fuel ∧ Asked e k asked ∧ (drive (asking stop) fuel e s).1 = step^[k] e ∧
      drive (asking (spy stop)) fuel e (s, before) =
        ((drive (asking stop) fuel e s).1, (drive (asking stop) fuel e s).2, before ++ asked) ∧
      ((step^[k] e).status ≠ .running ∨ Stopped asked ∨
        k = fuel ∧ (drive (asking stop) (fuel + 1) e s).1 = step^[k + 1] e) := by
  -- without fuel nothing is asked, and one step more would be the next one
  induction fuel generalizing e s before with
  | zero =>
    refine ⟨0, [], Nat.le_refl 0, .none e, rfl, by simp [drive], .inr (.inr ⟨rfl, ?_⟩)⟩
    rw [drive_succ]
    split <;> rfl
  | succ fuel ih =>
    rw [drive_succ, drive_succ, drive_succ]
    by_cases hstep : e.step.status = .running
    · cases hstop : (stop e.step s).1 with
      | true =>
        refine ⟨1, [⟨e.step, true⟩], Nat.le_add_left 1 fuel, .stops hrun hstep, ?_, ?_,
          .inr (.inl ⟨_, rfl, rfl⟩)⟩
        · simp [asking, hstep, hstop]
        · simp [asking, spy, hstep, hstop]
      | false =>
        -- it goes on after the first question, and the rest is asked on the way from there
        obtain ⟨k, asked, hk, h, hreached, heq, hend⟩ :=
          ih hstep (stop e.step s).2 (before ++ [⟨e.step, false⟩])
        refine ⟨k + 1, ⟨e.step, false⟩ :: asked, Nat.succ_le_succ hk, h.goes_on hrun hstep, ?_, ?_,
          ?_⟩
        · simpa [asking, hstep, hstop] using hreached
        · simpa [asking, spy, hstep, hstop] using heq
        · rw [stopped_cons rfl]
          rcases hend with hnot | hstopped | ⟨hfuel, hmore⟩
          · exact .inl hnot
          · exact .inr (.inl hstopped)
          · refine .inr (.inr ⟨congrArg (· + 1) hfuel, ?_⟩)
            simpa [asking, hstep, hstop] using hmore
    · -- a step that halts is not asked about
      refine ⟨1, [], Nat.le_add_left 1 fuel, .halts hrun hstep, ?_, ?_, .inl hstep⟩
      · simp [asking, hstep]
      · simp [asking, hstep]

/-! ### Runs until something -/

theorem step_ne (hrun : e.status = .running) : e.step ≠ e := by
  intro heq
  have hsteps := steps_step (heq ▸ hrun)
  rw [heq] at hsteps
  omega

theorem questions_of_not_running (h : e.status ≠ .running) (stop : Execution → σ → Bool × σ)
    (s : σ) : e.questions stop s = [] := by
  rw [questions, runUntil_of_not_running h]

theorem runUntil_spy (e : Execution) (stop : Execution → σ → Bool × σ) (s : σ) :
    ∃ k ≤ e.fuel, Asked e k (e.questions stop s) ∧ (e.runUntil stop s).1 = step^[k] e ∧
      e.runUntil (spy stop) (s, []) =
        ((e.runUntil stop s).1, (e.runUntil stop s).2, e.questions stop s) ∧
      ((step^[k] e).status ≠ .running ∨ Stopped (e.questions stop s) ∨
        k = e.fuel ∧ (drive (asking stop) (e.fuel + 1) e s).1 = step^[k + 1] e) := by
  by_cases hrun : e.status = .running
  · obtain ⟨k, asked, hk, hasked, hreached, heq, hend⟩ :=
      drive_spy stop e.fuel hrun s []
    have hquestions : e.questions stop s = asked := congrArg (·.2.2) heq
    rw [hquestions]
    exact ⟨k, hk, hasked, hreached, heq, hend⟩
  · rw [questions_of_not_running hrun, runUntil_of_not_running hrun, runUntil_of_not_running hrun]
    exact ⟨0, Nat.zero_le _, .none e, rfl, rfl, .inl hrun⟩

/-- A run that comes to its end leaves the execution running exactly if the last question has been
answered with stopping. -/
theorem running_iff_stopped {stop : Execution → σ → Bool × σ} {s : σ} (h : Ends (asking stop) e s) :
    (e.runUntil stop s).1.status = .running ↔ Stopped (e.questions stop s) := by
  obtain ⟨k, -, hasked, hreached, -, hend⟩ := runUntil_spy e stop s
  rw [hreached]
  constructor
  · intro hrun
    rcases hend with hnot | hstopped | ⟨-, hmore⟩
    · exact absurd hrun hnot
    · exact hstopped
    · -- one step more would be a step further
      have hsame : (drive (asking stop) (e.fuel + 1) e s).1 = step^[k] e :=
        (congrArg Prod.fst (h _ (Nat.le_succ _))).trans hreached
      rw [hmore, Function.iterate_succ_apply'] at hsame
      exact absurd hsame (step_ne hrun)
  · exact hasked.stopped

/-- What is never asked to stop runs as far as any run. -/
theorem runUntil_eq_run {stop : Execution → σ → Bool × σ} {s : σ}
    (h : ∀ q ∈ e.questions stop s, q.stop = false) : (e.runUntil stop s).1 = e.run := by
  obtain ⟨k, hk, -, hreached, -, hend⟩ := runUntil_spy e stop s
  rw [hreached, run_eq_iterate]
  rcases hend with hnot | ⟨q, hq, hstop⟩ | ⟨rfl, -⟩
  · exact (iterate_of_le hk hnot).symm
  · exact absurd hstop (by simp [h q (List.mem_of_getLast? hq)])
  · rfl

theorem record_eq_run (e : Execution) (t : Transcript) : (t.record e).1 = e.run := by
  unfold Transcript.record run
  generalize e.fuel = fuel
  induction fuel generalizing e t with
  | zero => rfl
  | succ fuel ih =>
    rw [drive_succ, drive_succ]
    by_cases h : e.step.status = .running
    · simpa [h] using ih e.step _
    · simp [h]

/-! ### Runs that halt -/

/-- Whatever a running execution has executed, its step limit allowed. -/
theorem lt_limit_of_running {limit : Nat} (hl : e.config.stepLimit = some limit)
    (hrun : (step^[k + 1] e).status = .running) : e.steps + k < limit := by
  rw [Function.iterate_succ_apply'] at hrun
  have hk := running_of_step hrun
  rw [← steps_iterate hk]
  rcases allowed_or_spent (step^[k] e) with ha | ⟨limit', hl', hle⟩
  · exact ha limit (by rw [iterate_config, hl])
  · rw [step_of_running hk, fetch_of_spent hl' hle] at hrun
    cases hrun

/-- A running execution has fuel left for the step that it takes next. -/
theorem lt_fuel (hrun : (step^[k] e).status = .running) (hlt : e.steps + k < 2 ^ 64) :
    k < e.fuel := by
  unfold fuel
  cases hl : e.config.stepLimit with
  | none =>
    show k < 2 ^ 64
    omega
  | some limit =>
    show k < limit - e.steps + 1
    cases k with
    | zero => omega
    | succ j =>
      have hlimit := lt_limit_of_running hl hrun
      omega

/-- A loop does the same with more fuel, unless it has used up its fuel and is running. -/
theorem drive_add (visit : Execution → σ → Bool × σ) (fuel more : Nat) (hrun : e.status = .running)
    (s : σ) : drive visit (fuel + more) e s = drive visit fuel e s ∨
      (step^[fuel] e).status = .running := by
  induction fuel generalizing e s with
  | zero => exact .inr hrun
  | succ fuel ih =>
    rw [Nat.add_right_comm, drive_succ, drive_succ]
    split
    · exact .inl rfl
    · next hgo =>
      have hstep : e.step.status = .running := by
        by_contra hnot
        exact hgo (by simp [hnot])
      exact ih hstep _

/-- Under a step limit, every loop comes to its end. -/
theorem ends_of_limit {limit : Nat} (hl : e.config.stepLimit = some limit)
    (visit : Execution → σ → Bool × σ) (s : σ) : Ends visit e s := by
  intro fuel hle
  obtain ⟨more, rfl⟩ := Nat.exists_eq_add_of_le hle
  have hfuel : e.fuel = limit - e.steps + 1 := by simp only [Execution.fuel, hl]
  by_cases hrun : e.status = .running
  · refine (drive_add visit e.fuel more hrun s).resolve_right fun hlast => ?_
    rw [hfuel] at hlast
    have hlimit := lt_limit_of_running hl hlast
    omega
  · rw [hfuel, Nat.add_right_comm, drive_succ, drive_succ]
    simp [step_of_not_running hrun, hrun]

theorem run_eq_of_halted (hrun : e.status = .running) (h : (step^[k] e).status ≠ .running)
    (hlt : (step^[k] e).steps < 2 ^ 64) : e.run = step^[k] e := by
  obtain ⟨j, -, hj, hstep⟩ := exists_last_step hrun h
  have hsteps : (step^[j] e).steps ≤ (step^[k] e).steps := hstep ▸ steps_le_step _
  rw [steps_iterate hj] at hsteps
  have hfuel : j + 1 ≤ e.fuel := lt_fuel hj (Nat.lt_of_le_of_lt hsteps hlt)
  have hlast : step^[j + 1] e = step^[k] e := (Function.iterate_succ_apply' step j e).trans hstep
  rw [run_eq_iterate, iterate_of_le hfuel (by rwa [hlast]), hlast]

/-! ### All calls -/

/-- The outcome of a program that is run in a configuration on two tapes. -/
def result (p : Program) (c : Config) (tape0 tape1 : List Nat) :
    Except Refusal (Option Outcome) := do
  return (← start p c tape0 tape1).run.outcome?

/-- A call takes the execution some number of steps on. -/
theorem call_eq_iterate {call : Call} (hc : ¬ call.Restarts) (e : Execution) :
    ∃ k, e.call call = step^[k] e := by
  refine call_induction (P := fun e' => ∃ k, e' = step^[k] e) ?_ ⟨0, rfl⟩ hc
  rintro _ ⟨k, rfl⟩
  exact ⟨k + 1, (Function.iterate_succ_apply' step k e).symm⟩

theorem after_eq_iterate {calls : List Call} (hc : ∀ call ∈ calls, ¬ call.Restarts)
    (e : Execution) : ∃ k, e.after calls = step^[k] e := by
  induction calls generalizing e with
  | nil => exact ⟨0, rfl⟩
  | cons call calls ih =>
    obtain ⟨j, hj⟩ := call_eq_iterate (hc call List.mem_cons_self) e
    obtain ⟨k, hk⟩ := ih (fun call hm => hc call (List.mem_cons_of_mem _ hm)) (e.call call)
    refine ⟨k + j, ?_⟩
    show (e.call call).after calls = _
    rw [hk, hj, Function.iterate_add_apply]

/-- How a run until `stop` says so asks it. -/
structure AsksInTurn (e : Execution) (stop : Execution → σ → Bool × σ) (s : σ) : Prop where
  /-- The function that keeps a list of the questions does what `stop` does. -/
  unseen : e.runUntil (spy stop) (s, []) =
    ((e.runUntil stop s).1, (e.runUntil stop s).2, e.questions stop s)
  asked : ∃ k, (e.runUntil stop s).1 = step^[k] e ∧ Asked e k (e.questions stop s)
  ends : ∀ limit, e.config.stepLimit = some limit → Ends (asking stop) e s
  /-- A run that comes to its end has not halted exactly if the last question has been answered with
  stopping. -/
  stopped : Ends (asking stop) e s →
    ((e.runUntil stop s).1.status.halt? = none ↔ Stopped (e.questions stop s))
  /-- What is never asked to stop does what a run does. -/
  never : (∀ q ∈ e.questions stop s, q.stop = false) → (e.runUntil stop s).1 = e.run

variable {source : String} {given : Option Params} {p : Program} {c : Config}
variable {tape0 tape1 : List Nat}

theorem Valid.asksInTurn {w : Width} {tapes : List Nat × List Nat} (h : e.Valid p c w tapes)
    (stop : Execution → σ → Bool × σ) (s : σ) : e.AsksInTurn stop s := by
  obtain ⟨k, -, hasked, hreached, hunseen, -⟩ := runUntil_spy e stop s
  refine ⟨hunseen, ⟨k, hreached, hasked⟩, fun limit hl => ends_of_limit hl _ s, fun hends => ?_,
    runUntil_eq_run⟩
  rw [← running_iff_stopped hends, hreached]
  rcases (h.iterate k).running_or_halted with hs | ⟨how, hs⟩ <;> simp [hs, Status.halt?]

/-- What calls have halted halts the same way in whatever is called after them. -/
theorem halted_of_after {calls later : List Call} (hc : ∀ call ∈ later, ¬ call.Restarts)
    {how : Halt} (h : (e.after calls).status = .halted how) :
    (e.after (calls ++ later)).status = .halted how := by
  have hafter : e.after (calls ++ later) = (e.after calls).after later := List.foldl_append ..
  rw [hafter, after_of_not_running (not_running_of_halted h) hc, h]

/-- Calls that do not restart an execution take it some number of steps on. If they have halted it
after a number of steps that 64 bits can count, a run from the start comes out like that, and every
call that has not left it running has halted it that way. -/
theorem calls_share_trajectory (hp : Program.assemble source given = .ok p)
    (hs : start p c tape0 tape1 = .ok e) {calls : List Call}
    (hc : ∀ call ∈ calls, ¬ call.Restarts) :
    (∃ k, e.after calls = step^[k] e) ∧
    (∀ how, (e.after calls).status = .halted how →
      ((e.after calls).steps < 2 ^ 64 → ∃ o, (e.after calls).outcome? = some o ∧
        result p c tape0 tape1 = .ok (some o)) ∧
      ∀ before call later, calls = before ++ call :: later → ∀ how',
        ((e.after before).call call).status.halt? = some how' → how' = how) ∧
    (∀ (σ : Type) (stop : Execution → σ → Bool × σ) (s : σ),
      (e.after calls).AsksInTurn stop s) ∧
    ∀ t : Transcript, (t.record (e.after calls)).1 = (e.after calls).run := by
  obtain ⟨w, -, hv⟩ := valid_after hp hs
  obtain ⟨k, hk⟩ := after_eq_iterate hc e
  refine ⟨⟨k, hk⟩, fun how hhow => ⟨fun hlt => ?_, ?_⟩,
    fun σ stop s => (hv calls).asksInTurn stop s, record_eq_run _⟩
  · -- the calls have come to the state where a run halts
    have hrun : e.status = .running := by
      obtain ⟨_, -, hs⟩ := bind_ok hs
      cases hs; rfl
    have hnot : (step^[k] e).status ≠ .running := not_running_of_halted (by rw [← hk, hhow])
    have hresult : e.run = e.after calls := by rw [run_eq_of_halted hrun hnot (hk ▸ hlt), hk]
    rw [result, hs]
    show ∃ o, _ ∧ Except.ok e.run.outcome? = _
    rw [hresult, outcome?, hhow]
    exact ⟨_, rfl, rfl⟩
  · -- a halt that a call reports stays through the calls after it
    rintro before call later rfl how' hhow'
    have hhalted : (e.after (before ++ [call])).status = .halted how' := by
      rw [after, List.foldl_append]
      cases hstatus : ((e.after before).call call).status with
      | halted h => rw [hstatus] at hhow'; cases hhow'; exact hstatus
      | running => rw [hstatus] at hhow'; cases hhow'
      | stuck reason => rw [hstatus] at hhow'; cases hhow'
    have hlater : ∀ c ∈ later, ¬ c.Restarts := fun c hm => hc c (by simp [hm])
    have hend := halted_of_after hlater hhalted
    rw [List.append_assoc, List.singleton_append, hhow] at hend
    exact (Status.halted.inj hend).symm

/-- Stepping once, running until three instructions have been executed, and recording the rest. -/
def mixedCalls : List Call :=
  [.step, .runUntil (fun e (_ : Unit) => (e.steps = 3, ())) (), .record {}, .run]

/-- The usual execution of `Program.divideAll` halts on a zero divisor, however it is called. -/
theorem divideAll_mixedCalls :
    ((divideAll [5, 0]).after mixedCalls).status = .halted (.fault 3 .divideByZero) ∧
      ∃ o, result .divideAll (.ofParams Program.divideAll.params) [5, 0] [] = .ok (some o) ∧
        o.steps = 8 := by
  have hstatus : ((divideAll [5, 0]).after mixedCalls).status =
      .halted (.fault 3 .divideByZero) := rfl
  have hsteps : ((divideAll [5, 0]).after mixedCalls).steps = 8 := rfl
  have hcalls : ∀ call ∈ mixedCalls, ¬ call.Restarts := by simp [mixedCalls, Call.Restarts]
  obtain ⟨-, hhalts, -⟩ :=
    calls_share_trajectory Program.assemble_divideAllText (start_divideAll [5, 0]) hcalls
  obtain ⟨hresult, -⟩ := hhalts _ hstatus
  obtain ⟨o, ho, hresult⟩ := hresult (by rw [hsteps]; decide)
  exact ⟨hstatus, o, hresult, (outcome_ok ho).2.trans hsteps⟩

end Execution
end WordRam
