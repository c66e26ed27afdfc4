import WordRam.Proofs.Execution.Reads

/-!
# The log as a trace

Whatever is asked of an execution, its log tells the steps that it has taken: a record for every
instruction, with what the instruction has found, and one record for the halt. A step that executes
an instruction adds a record of it, and a step that halts adds a record of the halt after that
(`Valid.step_log`), so what a run has logged is what its steps dispatch, in their order
(`Valid.iterate_log`). Main statement: `log_traces`.
-/

namespace WordRam

/-- An instruction that is about to be executed, with the program counter and the flag that it
finds. -/
structure Dispatch where
  pc : Nat
  instruction : Instruction
  flag : Bool
deriving DecidableEq, Repr

def Dispatch.record (d : Dispatch) : Record where
  level := .trace
  origin := .machine
  message :=
    let column := String.ofList ((toString d.pc).toList.leftpad 6 ' ')
    s!"{column}: {d.instruction} (flag = {d.flag.toNat})"

/-- The record of a halt with the number of instructions that were executed until then. -/
def Halt.record (how : Halt) (steps : Nat) : Record where
  level := match how with
    | answer _ => .debug
    | fault .. => .warn
  origin := .machine
  message := s!"{how} after {steps} steps"

theorem Event.record_halted (how : Halt) (steps : Nat) :
    (Event.halted how steps).record = how.record steps := by
  cases how <;> rfl

namespace Execution

/-- The instruction that the next step executes, if it executes one. -/
def dispatch? (e : Execution) : Option Dispatch :=
  match e.status, e.fetch with
  | .running, .ok i => some ⟨e.machine.pc, i, e.machine.flag⟩
  | _, _ => none

/-- The instructions that the first `k` steps execute. -/
def dispatched (e : Execution) (k : Nat) : List Dispatch :=
  (List.range k).filterMap fun j => (step^[j] e).dispatch?

/-- What has been sent to the log, from the first record on. -/
def log (e : Execution) : List Record :=
  e.journal.toList.map Event.record

/-- The record that the log of an execution ends with once the execution has halted. -/
def ending (e : Execution) : List Record :=
  (e.status.halt?.map fun how => how.record e.steps).toList

variable {e : Execution} {i : Instruction} {how : Halt} {j k : Nat}

theorem dispatched_succ (e : Execution) (k : Nat) :
    e.dispatched (k + 1) = e.dispatched k ++ (step^[k] e).dispatch?.toList := by
  rw [dispatched, List.range_succ, List.filterMap_append, dispatched]
  cases h : (step^[k] e).dispatch? <;> simp [h]

theorem dispatch?_of_not_running (h : e.status ≠ .running) : e.dispatch? = none := by
  unfold dispatch?
  split
  · exact absurd ‹_› h
  · rfl

theorem dispatch?_of_fetch (hrun : e.status = .running) (h : e.fetch = .ok i) :
    e.dispatch? = some ⟨e.machine.pc, i, e.machine.flag⟩ := by
  rw [dispatch?, hrun, h]

theorem dispatch?_of_fault {cause : Fault} (h : e.fetch = .error cause) : e.dispatch? = none := by
  rw [dispatch?, h]
  split
  · cases ‹Except.error cause = _›
  · rfl

theorem ending_of_running (h : e.status = .running) : e.ending = [] := by
  rw [ending, h]
  rfl

theorem log_halt (e : Execution) (how : Halt) : (e.halt how).log = e.log ++ (e.halt how).ending := by
  simp [log, halt, ending, Status.halt?, Event.record_halted]

theorem log_count (e : Execution) (i : Instruction) :
    (e.count i).log = e.log ++ [Dispatch.record ⟨e.machine.pc, i, e.machine.flag⟩] := by
  simp only [log, count, Array.toList_push, List.map_append]
  rfl

namespace Valid

variable {p : Program} {c : Config} {w : Width} {tapes : List Nat × List Nat}

/-- A step adds to the log what it executes, and then how it halts. -/
theorem step_log (h : e.Valid p c w tapes) (hrun : e.status = .running) :
    e.step.log = e.log ++ e.dispatch?.toList.map Dispatch.record ++ e.step.ending ∧
      e.step.steps = e.steps + e.dispatch?.toList.length := by
  have ht := h.transition hrun
  generalize e.step = e' at ht
  have executes (ha : e.Allowed) {i : Instruction}
      (hi : e.program.instructions[e.machine.pc]? = some i) :
      e.dispatch? = some ⟨e.machine.pc, i, e.machine.flag⟩ :=
    dispatch?_of_fetch hrun (by rw [fetch_of_allowed ha, hi])
  cases ht with
  | limit hl hle =>
    rw [dispatch?_of_fault (fetch_of_spent hl hle), log_halt]
    exact ⟨congrArg (· ++ _) (List.append_nil _).symm, rfl⟩
  | outside ha hi =>
    have hfetch : e.fetch = .error .pcOutOfBounds := by rw [fetch_of_allowed ha, hi]
    rw [dispatch?_of_fault hfetch, log_halt]
    exact ⟨congrArg (· ++ _) (List.append_nil _).symm, rfl⟩
  | fault ha hi he =>
    rw [executes ha hi, log_halt, log_count]
    exact ⟨rfl, rfl⟩
  | next ha hi he =>
    rw [executes ha hi, ending_of_running (e := (e.count _).resume _ _) hrun, List.append_nil]
    exact ⟨log_count e _, rfl⟩
  | goto ha hi he =>
    rw [executes ha hi, ending_of_running (e := (e.count _).resume _ _) hrun, List.append_nil]
    exact ⟨log_count e _, rfl⟩
  | answer ha hi he =>
    rw [executes ha hi, log_halt, log_count]
    exact ⟨rfl, rfl⟩

theorem iterate_log (h : e.Valid p c w tapes) (hrun : e.status = .running) (k : Nat) :
    (Execution.step^[k] e).log =
        e.log ++ (e.dispatched k).map Dispatch.record ++ (Execution.step^[k] e).ending ∧
      (Execution.step^[k] e).steps = e.steps + (e.dispatched k).length := by
  induction k with
  | zero => simp [dispatched, ending_of_running hrun]
  | succ k ih =>
    rw [Function.iterate_succ_apply', dispatched_succ]
    by_cases hk : (Execution.step^[k] e).status = .running
    · obtain ⟨hlog, hsteps⟩ := (h.iterate k).step_log hk
      rw [ending_of_running hk, List.append_nil] at ih
      rw [hlog, hsteps, ih.1, ih.2]
      simp [Nat.add_assoc]
    · rw [step_of_not_running hk, dispatch?_of_not_running hk]
      simpa using ih

/-- The only steps of a running execution that execute nothing are those that find no instruction
they may execute, and these halt it. -/
theorem dispatch?_eq_none_iff (h : e.Valid p c w tapes) (hrun : e.status = .running) :
    e.dispatch? = none ↔
      ∃ pc cause, e.step.status = .halted (.fault pc cause) ∧ ¬ cause.OfInstruction := by
  have ht := h.transition hrun
  generalize e.step = e' at ht
  have executes (ha : e.Allowed) {i : Instruction}
      (hi : e.program.instructions[e.machine.pc]? = some i) : e.dispatch? ≠ none := by
    rw [dispatch?_of_fetch hrun (by rw [fetch_of_allowed ha, hi])]
    exact Option.some_ne_none _
  have running (m : Machine) (pc : Nat) {i : Instruction} {how : Halt} :
      ((e.count i).resume m pc).status ≠ .halted how := by
    show e.status ≠ _
    rw [hrun]
    exact nofun
  cases ht with
  | limit hl hle =>
    exact iff_of_true (dispatch?_of_fault (fetch_of_spent hl hle)) ⟨_, _, rfl, id⟩
  | outside ha hi =>
    have hfetch : e.fetch = .error .pcOutOfBounds := by rw [fetch_of_allowed ha, hi]
    exact iff_of_true (dispatch?_of_fault hfetch) ⟨_, _, rfl, id⟩
  | fault ha hi he =>
    refine iff_of_false (executes ha hi) ?_
    rintro ⟨pc, cause, hhalt, hnot⟩
    cases hhalt
    exact hnot (Machine.effect_error he)
  | next ha hi he =>
    exact iff_of_false (executes ha hi) fun ⟨_, _, hhalt, _⟩ => running _ _ hhalt
  | goto ha hi he =>
    exact iff_of_false (executes ha hi) fun ⟨_, _, hhalt, _⟩ => running _ _ hhalt
  | answer ha hi he =>
    refine iff_of_false (executes ha hi) ?_
    rintro ⟨pc, cause, hhalt, -⟩
    cases hhalt

end Valid

variable {source : String} {given : Option Params} {p : Program} {c : Config}
variable {tape0 tape1 : List Nat}

theorem Begins.fresh (h : Begins p c tape0 tape1 e) : e.status = .running ∧ e.steps = 0 := by
  cases h with
  | new hs =>
    obtain ⟨_, -, heq⟩ := bind_ok hs
    cases heq
    exact ⟨rfl, rfl⟩
  | again hs calls => exact ⟨rfl, rfl⟩

/-- What the first `k` steps of `e` have added to its log is what they have executed, and then how
they have halted it, if they have. -/
structure Traces (e : Execution) (k : Nat) : Prop where
  log : (step^[k] e).log =
    e.log ++ (e.dispatched k).map Dispatch.record ++ (step^[k] e).ending
  steps : (e.dispatched k).length = (step^[k] e).steps

/-- Since an execution began, whatever has been called, its log is a trace of the steps that it has
taken. A step executes an instruction unless it halts the execution for its step limit or for its
program counter, and once the execution has halted nothing is added. -/
theorem log_traces (hp : Program.assemble source given = .ok p) (hb : Begins p c tape0 tape1 e) :
    (∀ j, (step^[j] e).status = .running →
      ((step^[j] e).dispatch? = none ↔ ∃ pc cause,
        (step^[j + 1] e).status = .halted (.fault pc cause) ∧ ¬ cause.OfInstruction)) ∧
    ∀ later : List Call, (∀ call ∈ later, ¬ call.Restarts) →
      ∃ k, e.after later = step^[k] e ∧ Traces e k ∧
        ((e.after later).status ≠ .running → ∀ more : List Call,
          (∀ call ∈ more, ¬ call.Restarts) → ((e.after later).after more).log = (e.after later).log) := by
  obtain ⟨w, -, hv, -, -⟩ := hb.valid hp
  obtain ⟨hrun, hzero⟩ := hb.fresh
  refine ⟨fun j hj => ?_, fun later hlater => ?_⟩
  · rw [Function.iterate_succ_apply']
    exact (hv.iterate j).dispatch?_eq_none_iff hj
  · obtain ⟨k, hk⟩ := after_eq_iterate hlater e
    obtain ⟨hlog, hsteps⟩ := hv.iterate_log hrun k
    refine ⟨k, hk, ⟨hlog, ?_⟩, fun hnot more hmore => ?_⟩
    · rw [hsteps, hzero, Nat.zero_add]
    · rw [after_of_not_running hnot hmore]

/-- The usual execution of `Program.divideAll` executes eight instructions, however it is called, and
ends its log with a warning of the zero divisor. -/
theorem divideAll_log :
    ∃ k, (divideAll [5, 0]).after mixedCalls = step^[k] (divideAll [5, 0]) ∧
      Traces (divideAll [5, 0]) k ∧ ((divideAll [5, 0]).dispatched k).length = 8 ∧
      ((divideAll [5, 0]).after mixedCalls).ending =
        [(Halt.fault 3 .divideByZero).record 8] := by
  have hbegins : Begins .divideAll (.ofParams Program.divideAll.params) [5, 0] []
      (divideAll [5, 0]) := .new (start_divideAll [5, 0])
  have hcalls : ∀ call ∈ mixedCalls, ¬ call.Restarts := by simp [mixedCalls, Call.Restarts]
  obtain ⟨-, htraces⟩ := log_traces Program.assemble_divideAllText hbegins
  obtain ⟨k, hk, hlog, -⟩ := htraces mixedCalls hcalls
  refine ⟨k, hk, hlog, ?_, rfl⟩
  rw [hlog.steps, ← hk]
  rfl

end Execution
end WordRam
