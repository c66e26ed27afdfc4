import WordRam.Proofs.Execution.InBounds

/-!
# Starting again

A restarted execution is as good as a new one. What the journal holds from before (`preceded`) is
carried along by every call and does not change what the call does or replies; a restarted execution
is the new one preceded by the old journal, however it has come to where it was restarted. Main
statement: `restart_as_new`.
-/

namespace WordRam

/-- The machine with its registers, its flag and its program counter cleared in place, and with
other memory and tapes. -/
def Machine.clear (m : Machine) (memory : Memory) (tape0 tape1 : List Nat) : Machine :=
  { m with
    registers := m.registers.map fun _ => 0
    flag := false
    pc := 0
    memory
    primary := .ofList tape0
    auxiliary := .ofList tape1 }

/-- In a valid machine, clearing in place comes to a new machine. -/
theorem Machine.Valid.clear {c : Config} {w : Width} {tapes : List Nat × List Nat} {m : Machine}
    (h : m.Valid c w tapes) (tape0 tape1 : List Nat) :
    m.clear (c.memory w) tape0 tape1 = .start w c tape0 tape1 := by
  simp only [Machine.clear, h.width, Array.map_const', h.size]
  rfl

namespace Call

/-- What a call replies: how the execution stands, and what has been handed through. -/
def Reply : Call → Type
  | step | run => Status
  | @runUntil σ _ _ => Status × σ
  | record _ => Status × Transcript
  | restart .. => Unit

/-- A function that is asked whether to stop does not look at the journal. -/
def IgnoresJournal : Call → Prop
  | runUntil stop _ => ∀ e journal s, stop { e with journal } s = stop e s
  | _ => True

end Call

namespace Execution

def reply (e : Execution) : (call : Call) → call.Reply
  | .step => e.step.status
  | .run => e.run.status
  | .runUntil stop s => ((e.runUntil stop s).1.status, (e.runUntil stop s).2)
  | .record t => ((t.record e).1.status, (t.record e).2)
  | .restart .. => ()

/-- The execution with `past` in its journal before everything else. -/
def preceded (past : Array Event) (e : Execution) : Execution :=
  { e with journal := past ++ e.journal }

section
variable {σ : Type} {e : Execution} {past : Array Event}

theorem halt_preceded (e : Execution) (how : Halt) :
    (e.preceded past).halt how = (e.halt how).preceded past := by
  simp only [halt, preceded, Array.append_push]

theorem perform_preceded (e : Execution) (i : Instruction) :
    (e.preceded past).perform i = (e.perform i).preceded past := by
  have hmachine : (e.preceded past).machine = e.machine := rfl
  have hconfig : (e.preceded past).config = e.config := rfl
  simp only [perform, hmachine, hconfig]
  rcases MachineM.execute e.config.wide i e.machine with ⟨_ | _ | _, m⟩ | ⟨_ | _, m⟩
  · rfl
  · rfl
  · exact halt_preceded { e with machine := m } _
  · exact halt_preceded { e with machine := m } _
  · rfl

theorem step_preceded (e : Execution) : (e.preceded past).step = e.step.preceded past := by
  by_cases hrun : e.status = .running
  · have hrun' : (e.preceded past).status = .running := hrun
    have hfetch : (e.preceded past).fetch = e.fetch := rfl
    rw [step_of_running hrun, step_of_running hrun', hfetch]
    cases e.fetch with
    | error cause => exact halt_preceded e _
    | ok i =>
      have hcount : (e.preceded past).count i = (e.count i).preceded past := by
        simp only [count, preceded, Array.append_push]
      exact (congrArg (perform · i) hcount).trans (perform_preceded _ i)
  · have hrun' : (e.preceded past).status ≠ .running := hrun
    rw [step_of_not_running hrun, step_of_not_running hrun']

theorem drive_preceded {visit : Execution → σ → Bool × σ}
    (hvisit : ∀ e s, visit (e.preceded past) s = visit e s) (fuel : Nat) (e : Execution) (s : σ) :
    drive visit fuel (e.preceded past) s =
      ((drive visit fuel e s).1.preceded past, (drive visit fuel e s).2) := by
  induction fuel generalizing e s with
  | zero => rfl
  | succ fuel ih =>
    have hstatus : (e.step.preceded past).status = e.step.status := rfl
    rw [drive_succ, drive_succ, step_preceded, hvisit, hstatus]
    split
    · rfl
    · exact ih e.step _

theorem runUntil_preceded {stop : Execution → σ → Bool × σ} {s : σ}
    (hstop : (Call.runUntil stop s).IgnoresJournal) (e : Execution) :
    (e.preceded past).runUntil stop s =
      ((e.runUntil stop s).1.preceded past, (e.runUntil stop s).2) := by
  refine drive_preceded (fun e s => ?_) e.fuel e s
  have hstatus : (e.preceded past).status = e.status := rfl
  rw [hstatus, preceded, hstop]

theorem run_preceded (e : Execution) : (e.preceded past).run = e.run.preceded past := by
  unfold run
  exact congrArg Prod.fst (drive_preceded (fun _ _ => rfl) e.fuel e ())

theorem record_preceded (t : Transcript) (e : Execution) :
    t.record (e.preceded past) = ((t.record e).1.preceded past, (t.record e).2) :=
  drive_preceded (fun _ _ => rfl) e.fuel e t

theorem call_preceded {call : Call} (h : call.IgnoresJournal) (e : Execution) :
    (e.preceded past).call call = (e.call call).preceded past := by
  cases call with
  | step => exact step_preceded e
  | run => exact run_preceded e
  | runUntil stop s => exact congrArg Prod.fst (runUntil_preceded h e)
  | record t => exact congrArg Prod.fst (record_preceded t e)
  | restart tape0 tape1 => rfl

theorem reply_preceded {call : Call} (h : call.IgnoresJournal) (e : Execution) :
    (e.preceded past).reply call = e.reply call := by
  cases call with
  | step => simp only [reply, step_preceded]; rfl
  | run => simp only [reply, run_preceded]; rfl
  | runUntil stop s => simp only [reply, runUntil_preceded h]; rfl
  | record t => simp only [reply, record_preceded]; rfl
  | restart tape0 tape1 => rfl

theorem after_preceded {calls : List Call} (h : ∀ call ∈ calls, call.IgnoresJournal)
    (e : Execution) : (e.preceded past).after calls = (e.after calls).preceded past := by
  induction calls generalizing e with
  | nil => rfl
  | cons call calls ih =>
    have hcall : (e.preceded past).call call = (e.call call).preceded past :=
      call_preceded (h call List.mem_cons_self) e
    show ((e.preceded past).call call).after calls = _
    rw [hcall]
    exact ih (fun call hm => h call (List.mem_cons_of_mem _ hm)) (e.call call)

end

/-- The executions are in the same state, with the same replies to every call. -/
structure Same (a b : Execution) : Prop where
  program : a.program = b.program
  config : a.config = b.config
  machine : a.machine = b.machine
  steps : a.steps = b.steps
  status : a.status = b.status
  outcome : a.outcome? = b.outcome?
  reply : ∀ call : Call, call.IgnoresJournal → a.reply call = b.reply call

theorem same_preceded (past past' : Array Event) (e : Execution) :
    Same (e.preceded past) (e.preceded past') where
  program := rfl
  config := rfl
  machine := rfl
  steps := rfl
  status := rfl
  outcome := rfl
  reply _ h := (reply_preceded h e).trans (reply_preceded h e).symm

variable {source : String} {given : Option Params} {p : Program} {c : Config}
variable {tape0 tape1 : List Nat} {e : Execution}

/-- A new execution on any tapes, and the execution that it is but for its journal. -/
theorem exists_start (hs : start p c tape0 tape1 = .ok e) (u0 u1 : List Nat) :
    ∃ w f, c.params.width = .ok w ∧ start p c u0 u1 = .ok f ∧
      f = preceded #[.started c.params u0.length u1.length]
        { program := p, config := c, machine := .start w c u0 u1 } := by
  obtain ⟨w, ha, -⟩ := bind_ok hs
  refine ⟨w, _, (Config.accept_ok ha).1, ?_, rfl⟩
  rw [start, ha]
  rfl

/-- Whatever has been asked of an execution, clearing its machine in place comes to the machine of a
new execution, and after it is restarted no calls tell it from a new one. -/
theorem restart_as_new (hp : Program.assemble source given = .ok p)
    (hs : start p c tape0 tape1 = .ok e) (calls : List Call) (u0 u1 : List Nat) :
    ∃ w f, c.params.width = .ok w ∧ start p c u0 u1 = .ok f ∧
      (e.after calls).machine.clear (c.memory w) u0 u1 = f.machine ∧
      ∀ later : List Call, (∀ call ∈ later, call.IgnoresJournal) →
        Same (((e.after calls).restart u0 u1).after later) (f.after later) := by
  obtain ⟨w, f, hw, hf, hnew⟩ := exists_start hs u0 u1
  obtain ⟨w', hw', hv⟩ := valid_after hp hs
  cases hw.symm.trans hw'
  have hv := hv calls
  have hold : (e.after calls).restart u0 u1 = preceded (e.after calls).journal
      { program := p, config := c, machine := .start w c u0 u1 } := by
    simp only [restart, preceded, hv.program, hv.config, hv.machine.width, Array.append_empty]
  refine ⟨w, f, hw, hf, ?_, fun later hlater => ?_⟩
  · rw [hv.machine.clear, hnew]
    rfl
  · rw [hold, hnew, after_preceded hlater, after_preceded hlater]
    exact same_preceded _ _ _

/-- The usual execution of `Program.divideAll`, restarted after a fault, is as good as a new one
when it is followed to the end of its tape. -/
theorem restart_divideAll :
    ((divideAll [5, 0]).after [.run]).status = .halted (.fault 3 .divideByZero) ∧
      Same ((((divideAll [5, 0]).after [.run]).restart [9] []).after
          [.step, .runUntil (fun e n => (e.machine.flag, n + 1)) 0])
        ((divideAll [9]).after [.step, .runUntil (fun e n => (e.machine.flag, n + 1)) 0]) := by
  have hignores : ∀ call ∈ [Call.step, .runUntil (fun e n => (e.machine.flag, n + 1)) 0],
      call.IgnoresJournal := by
    simp [Call.IgnoresJournal]
  obtain ⟨w, f, -, hf, -, hsame⟩ := restart_as_new Program.assemble_divideAllText
    (start_divideAll [5, 0]) [.run] [9] []
  cases hf.symm.trans (start_divideAll [9])
  exact ⟨rfl, hsame _ hignores⟩

end Execution
end WordRam
