import WordRam.Proofs.Assembly.Faults
import WordRam.Proofs.Cli.Arguments
import WordRam.Proofs.Cli.Inputs
import WordRam.Proofs.Transcript.Absorbed

/-!
# What a session shows

A session answers as the run of its program does, and whatever else happens it fails in one way. It
takes one of two courses: it stops before there is an execution, or it runs the one that its inputs
start (`report_course`). What it shows then depends on the run alone (`finish_result`): recording the
run comes to the same end as running it, so asking for the digest adds a line of output and a note,
and changes nothing else (`finish_alike`). Main statement: `session_agrees`.
-/

namespace WordRam

namespace Execution

/-- An execution that halts halts at the end of its run, after a number of steps of which only the
last one halts it. -/
theorem Valid.exists_haltsAt {p : Program} {c : Config} {w : Width} {tapes : List Nat × List Nat}
    {e : Execution} {k : Nat} (h : e.Valid p c w tapes) (hrun : e.status = .running)
    (hnot : (Execution.step^[k] e).status ≠ .running)
    (hlt : (Execution.step^[k] e).steps < 2 ^ 64) :
    ∃ n how, HaltsAt e n how ∧ n ≤ e.fuel ∧ e.run.status = .halted how := by
  have hend : e.run = Execution.step^[k] e := run_eq_of_halted hrun hnot hlt
  obtain ⟨how, hhow⟩ := (h.iterate k).running_or_halted.resolve_left hnot
  rw [← hend, run_eq_iterate] at hhow
  obtain ⟨j, hj, hrunning, hstep, -⟩ := h.last_step hrun hhow
  refine ⟨j + 1, how, .succ hrunning (by rw [hstep, hhow]), hj, ?_⟩
  rw [run_eq_iterate, hhow]

end Execution

namespace Cli

namespace Report

/-- The part of standard error that is the log. -/
def logLines (r : Report) (lowest : Option Level) : List String :=
  (r.records.filter fun record => record.level.shown lowest).map Record.line

/-- Nothing but the log is on standard error, however far down the log goes. -/
def Quiet (r : Report) : Prop :=
  ∀ lowest, r.errorLines lowest = r.logLines lowest

/-- After the log, standard error holds one failure. -/
def Fails (r : Report) (f : Failure) : Prop :=
  ∀ lowest, r.errorLines lowest = r.logLines lowest ++ f.lines

variable {r : Report} {f : Failure} {code : Nat}

theorem quiet_of_ok (h : r.result = .ok code) : r.Quiet := by
  intro lowest
  rw [errorLines, h, List.append_nil, logLines]

theorem fails_of_error (h : r.result = .error f) : r.Fails f := by
  intro lowest
  rw [errorLines, h, logLines]

theorem exitCode_of_ok (h : r.result = .ok code) : r.exitCode = code % 256 := by
  rw [exitCode, h]

theorem exitCode_of_error (h : r.result = .error f) : r.exitCode = 1 := by
  rw [exitCode, h]

theorem not_quiet_of_error (h : r.result = .error f) : ¬ r.Quiet := by
  intro hquiet
  have hlines : f.lines = [] :=
    List.append_right_eq_self.1 ((fails_of_error h none).symm.trans (hquiet none))
  cases hlines

end Report

namespace Session

variable {files : Files} {o : Options} {x : Inputs} {e : Execution} {t : Transcript}
variable {source path : String} {p : Program} {code : Nat}

/-- The run of a program on the inputs that are found answers. -/
def Answers (files : Files) (o : Options) (code : Nat) : Prop :=
  ∃ x : Inputs, x.Found files o ∧ ∃ out, out.halt = .answer code ∧
    Execution.result x.program (x.config o) x.tape0 x.tape1 = .ok (some out)

/-- If there is a run, it halts before 64 bits no longer count its steps. -/
def Terminates (files : Files) (o : Options) : Prop :=
  ∀ x : Inputs, x.Found files o → ∀ e, x.start o = .ok e →
    ∃ k, (Execution.step^[k] e).status ≠ .running ∧ (Execution.step^[k] e).steps < 2 ^ 64

/-! ### Courses -/

/-- What a session can come to: no execution, or one that it runs. -/
inductive Course (files : Files) (o : Options) : Report → Prop
  | stopped {records : List Record} {f : Failure} (hf : ∀ path, f ≠ .unfinished path)
    (hnone : ∀ x : Inputs, x.Found files o → ∀ e, x.start o ≠ .ok e) :
    Course files o { records, result := .error f }
  | ran {records : List Record} {x : Inputs} {e : Execution} (hx : x.Found files o)
    (hs : x.start o = .ok e) :
    Course files o { finish o e (({} : Transcript).feed x.bytes) with
      records := records ++ (finish o e (({} : Transcript).feed x.bytes)).records }

theorem mapError_ne_unfinished {ε α : Type} {y : Except ε α} {f : ε → Failure}
    (hf : ∀ e, f e ≠ .unfinished path) : y.mapError f ≠ .error (.unfinished path) := by
  intro h
  obtain ⟨e, -, he⟩ := mapError_eq_error.1 h
  exact hf e he

theorem params_ne_unfinished (overrides : Overrides) :
    overrides.params source ≠ .error (.unfinished path) := by
  intro h
  unfold Overrides.params at h
  split at h
  · cases h
  · dsimp only at h
    split at h
    · rcases bind_error h with h | ⟨header, -, h⟩
      · exact mapError_ne_unfinished (by simp) h
      · cases header with
        | none => dsimp only at h; split at h <;> cases h
        | some header => cases h
    · dsimp only [pure, Except.pure, bind, Except.bind] at h
      split at h <;> cases h

theorem readWords?_ne_unfinished (path? : Option String) :
    readWords? files path? ≠ .error (.unfinished path) := by
  intro h
  cases path? with
  | none => cases h
  | some file =>
    rcases bind_error h with h | ⟨text, -, h⟩
    · exact mapError_ne_unfinished (by simp) h
    · obtain ⟨_, word, _, -, h, -⟩ := mapM_error_iff.1 h
      exact mapError_ne_unfinished (by simp) h

theorem load_ne_unfinished : load files o ≠ .error (.unfinished path) := by
  intro h
  rcases bind_error h with h | ⟨text, -, h⟩
  · exact mapError_ne_unfinished (by simp) h
  · rcases bind_error h with h | ⟨given, -, h⟩
    · exact params_ne_unfinished _ h
    · exact mapError_ne_unfinished (by simp) (bind_pure_error_iff.1 h)

theorem prepare_ne_unfinished : prepare files o source p ≠ .error (.unfinished path) := by
  intro h
  rcases bind_error h with h | ⟨tape0, -, h⟩
  · exact readWords?_ne_unfinished _ h
  · rcases bind_error h with h | ⟨tape1, -, h⟩
    · exact readWords?_ne_unfinished _ h
    · rcases bind_error h with h | ⟨preload, -, h⟩
      · exact readWords?_ne_unfinished _ h
      · exact mapError_ne_unfinished (by simp) (bind_pure_error_iff.1 h)

theorem report_course (files : Files) (o : Options) : Course files o (report files o) := by
  unfold report
  rcases hload : load files o with f | ⟨source, p⟩
  · refine .stopped (fun path hf => load_ne_unfinished (hf ▸ hload)) fun x hx => ?_
    rw [hx.load] at hload
    cases hload
  · dsimp only
    rcases hprepare : prepare files o source p with f | ⟨e, t⟩
    · refine .stopped (fun path hf => prepare_ne_unfinished (hf ▸ hprepare)) fun x hx e hs => ?_
      cases hx.load.symm.trans hload
      rw [prepare_ok_iff.2 ⟨_, _, _, hx.tape0, hx.tape1, hx.preload, hs, rfl⟩] at hprepare
      cases hprepare
    · obtain ⟨tape0, tape1, preload, h0, h1, hpreload, hs, rfl⟩ := prepare_ok_iff.1 hprepare
      obtain ⟨hsource, hprogram⟩ := load_ok_iff.1 hload
      have hfound : Inputs.Found ⟨source, p, tape0, tape1, preload⟩ files o :=
        ⟨hsource, hprogram, h0, h1, hpreload⟩
      exact .ran hfound hs

/-! ### Runs -/

theorem finish_result (o : Options) (e : Execution) (t : Transcript) :
    (finish o e t).result = result o.program e.run := by
  unfold finish
  split
  · exact congrArg (result o.program) (Execution.record_eq_run e t)
  · rfl

theorem finish_output (o : Options) (e : Execution) (t : Transcript) :
    (finish o e t).output = if o.traceDigest then [Digest.hex (t.record e).2.digest] else [] := by
  unfold finish
  split <;> rfl

theorem result_ok_iff : result path e = .ok code ↔ e.status = .halted (.answer code) := by
  unfold result
  split <;> simp_all

theorem result_ne_unfinished {how : Halt} (h : e.status = .halted how) (path path' : String) :
    result path e ≠ .error (.unfinished path') := by
  cases how <;> simp [result, h]

theorem start_valid (hx : x.Found files o) (hs : x.start o = .ok e) :
    e.status = .running ∧ ∃ w, e.Valid x.program (x.config o) w (x.tape0, x.tape1) := by
  obtain ⟨given, -, hp⟩ := hx.program
  obtain ⟨w, -, hv⟩ := Execution.Valid.start (Program.within_of_assemble hp) hs
  obtain ⟨_, -, hs⟩ := bind_ok hs
  cases hs
  exact ⟨rfl, w, hv⟩

/-- The inputs that are found make one run, and the answer is what it halts with. -/
theorem answers_iff (hx : x.Found files o) (hs : x.start o = .ok e) :
    Answers files o code ↔ e.run.status = .halted (.answer code) := by
  have hresult : Execution.result x.program (x.config o) x.tape0 x.tape1 =
      .ok e.run.outcome? := by
    simp only [Inputs.start] at hs
    rw [Execution.result, hs]
    rfl
  constructor
  · rintro ⟨y, hy, out, hout, hy'⟩
    cases hx.unique hy
    rw [← hout]
    exact (Execution.outcome_ok (Except.ok.inj (hresult.symm.trans hy'))).1
  · intro hstatus
    have hsome : e.run.outcome? = some ⟨.answer code, e.run.machine.registers,
        e.run.machine.memory.cells, e.run.machine.flag, e.run.machine.pc, e.run.steps⟩ := by
      rw [Execution.outcome?, hstatus]
      rfl
    exact ⟨x, hx, _, rfl, hresult.trans (congrArg _ hsome)⟩

theorem not_answers_of_stopped (hnone : ∀ x : Inputs, x.Found files o → ∀ e, x.start o ≠ .ok e) :
    ¬ Answers files o code := by
  rintro ⟨x, hx, out, -, hresult⟩
  obtain ⟨e, he, -⟩ := bind_ok hresult
  exact hnone x hx e he

theorem fed_record (x : Inputs) {k : Nat} {how : Halt} (h : Execution.HaltsAt e k how)
    (hk : k ≤ e.fuel) :
    ((({} : Transcript).feed x.bytes).record e).2.fed = (x.message e k).toArray := by
  have hrecorded : e.recorded = (e.states k).map fun after => after.machine.snapshot := by
    rw [Execution.recorded, Execution.passed_eq_states h hk, List.map_map]
    rfl
  have hfed := (Execution.fed_record e (({} : Transcript).feed x.bytes)).1
  rw [hrecorded, List.flatMap_map] at hfed
  rw [← Array.toList_inj, hfed, Inputs.message]
  simp [Transcript.feed, Machine.bytes_eq]

/-- A report shows what the run on the inputs of a session does. -/
structure Agrees (files : Files) (o : Options) (r : Report) : Prop where
  /-- The exit code is the low part of an answer, and no failure is shown, just if the run answers. -/
  answered : ∀ n, (r.exitCode = n ∧ r.Quiet) ↔ ∃ code, Answers files o code ∧ n = code % 256
  failed : (∀ code, ¬ Answers files o code) →
    r.exitCode = 1 ∧ ∃ f, (∀ path, f ≠ .unfinished path) ∧ r.Fails f
  /-- One line is printed, for the inputs and the states after all steps to the halt. -/
  digest : o.traceDigest → ∀ x : Inputs, x.Found files o → ∀ e, x.start o = .ok e →
    ∃ k how line, Execution.HaltsAt e k how ∧ r.output = [line] ∧
      Digest.Prints (x.message e k) line ∧ (x.Counted → x.Covers e k (x.message e k))
  silent : (o.traceDigest → ∀ x : Inputs, x.Found files o → ∀ e, x.start o ≠ .ok e) →
    r.output = []

section
variable {r : Report} (hanswers : ∀ code, Answers files o code ↔ r.result = .ok code)
include hanswers

theorem answered_of_result (n : Nat) :
    (r.exitCode = n ∧ r.Quiet) ↔ ∃ code, Answers files o code ∧ n = code % 256 := by
  constructor
  · rintro ⟨rfl, hquiet⟩
    rcases hresult : r.result with f | code
    · exact absurd hquiet (Report.not_quiet_of_error hresult)
    · exact ⟨code, (hanswers code).2 hresult, Report.exitCode_of_ok hresult⟩
  · rintro ⟨code, hcode, rfl⟩
    have hresult := (hanswers code).1 hcode
    exact ⟨Report.exitCode_of_ok hresult, Report.quiet_of_ok hresult⟩

theorem failed_of_result (hf : ∀ path, r.result ≠ .error (.unfinished path))
    (hnone : ∀ code, ¬ Answers files o code) :
    r.exitCode = 1 ∧ ∃ f, (∀ path, f ≠ .unfinished path) ∧ r.Fails f := by
  rcases hresult : r.result with f | code
  · exact ⟨Report.exitCode_of_error hresult, f, fun path hpath => hf path (hpath ▸ hresult),
      Report.fails_of_error hresult⟩
  · exact absurd ((hanswers code).2 hresult) (hnone code)

end

theorem Course.agrees {r : Report} (hr : Course files o r)
    (hmemory : ∀ n, o.memoryWords = some n → n < 2 ^ 64) (h : Terminates files o) :
    Agrees files o r := by
  cases hr with
  | @stopped records f hf hnone =>
    have hanswers (code : Nat) : Answers files o code ↔ (.error f : Except Failure Nat) = .ok code :=
      iff_of_false (not_answers_of_stopped hnone) nofun
    exact ⟨answered_of_result hanswers,
      failed_of_result hanswers fun path hpath => hf path (Except.error.inj hpath),
      fun _ x hx e hs => absurd hs (hnone x hx e), fun _ => rfl⟩
  | @ran records x e hx hs =>
    obtain ⟨hrun, w, hv⟩ := start_valid hx hs
    -- the run halts, so there is a last step and a result other than to be unfinished
    obtain ⟨k, hnot, hlt⟩ := h x hx e hs
    obtain ⟨n, how, hhalts, hn, hhow⟩ := hv.exists_haltsAt hrun hnot hlt
    have hresult := finish_result o e (({} : Transcript).feed x.bytes)
    have houtput := finish_output o e (({} : Transcript).feed x.bytes)
    generalize finish o e (({} : Transcript).feed x.bytes) = r at hresult houtput
    have hanswers (code : Nat) : Answers files o code ↔ r.result = .ok code := by
      rw [answers_iff hx hs, hresult, result_ok_iff]
    have hfinished (path : String) : r.result ≠ .error (.unfinished path) := by
      rw [hresult]
      exact result_ne_unfinished hhow o.program path
    refine ⟨answered_of_result hanswers, failed_of_result hanswers hfinished,
      fun hdigest y hy e' hs' => ?_, fun hsilent => ?_⟩
    · -- the inputs in question are those of the run
      cases hx.unique hy
      cases hs.symm.trans hs'
      refine ⟨n, how, _, hhalts, ?_, Digest.prints_digest _, fun hcounted =>
        hx.covers hmemory hcounted hv n⟩
      show r.output = _
      rw [houtput, if_pos hdigest, Transcript.digest, fed_record x hhalts hn]
    · show r.output = []
      rw [houtput, if_neg fun hdigest => hsilent hdigest x hx e hs]

/-! ### Asking for the digest -/

/-- Two reports differ only in their output and in notes of the log that are not shown down to the
level of infos. -/
structure Alike (r r' : Report) : Prop where
  exitCode : r'.exitCode = r.exitCode
  result : r'.result = r.result
  records : (r'.records.filter fun record => record.level.shown (some .info)) =
    r.records.filter fun record => record.level.shown (some .info)

theorem finish_alike (hoff : o.traceDigest = false) (e : Execution) (t : Transcript) :
    Alike (finish o e t) (finish { o with traceDigest := true } e t) := by
  have hresult : (finish { o with traceDigest := true } e t).result = (finish o e t).result := by
    rw [finish_result, finish_result]
  refine ⟨?_, hresult, ?_⟩
  · rw [Report.exitCode, Report.exitCode, hresult]
  · have hdebug : Level.shown (some .info) .debug = false := rfl
    simp [finish, hoff, Execution.record_eq_run, note, hdebug, List.filter_append]

theorem report_alike (hoff : o.traceDigest = false) :
    Alike (report files o) (report files { o with traceDigest := true }) := by
  -- the switch is not looked at before the run
  have hload : load files { o with traceDigest := true } = load files o := rfl
  have hprepare (source : String) (p : Program) :
      prepare files { o with traceDigest := true } source p = prepare files o source p := rfl
  unfold report
  rw [hload]
  rcases load files o with f | ⟨source, p⟩
  · exact ⟨rfl, rfl, rfl⟩
  · dsimp only
    rw [hprepare]
    rcases prepare files o source p with f | ⟨e, t⟩
    · exact ⟨rfl, rfl, rfl⟩
    · have h := finish_alike hoff e t
      refine ⟨h.exitCode, h.result, ?_⟩
      simp only [List.filter_append, h.records]

/-- A session whose run halts shows what the run does. One that is asked for the digest as well shows
the same otherwise, wherever on the command line it is asked. -/
theorem session_agrees {args : List String} (ho : Options.read? args = some o) (files : Files) :
    (Terminates files o → Agrees files o (report files o)) ∧
      (o.traceDigest = false →
        Options.read? ("--trace-digest" :: args) = some { o with traceDigest := true } ∧
        ∀ before after o', args = before ++ after →
          Options.read? (before ++ "--trace-digest" :: after) = some o' →
          o'.traceDigest ∧ Alike (report files o) (report files o')) := by
  have hmemory (n : Nat) (hn : o.memoryWords = some n) : n < 2 ^ 64 := Options.memoryWords_lt ho hn
  refine ⟨(report_course files o).agrees hmemory, fun hoff => ⟨Options.read?_cons ho hoff, ?_⟩⟩
  rintro before after o' rfl ho'
  cases Options.read?_added ho hoff ho'
  exact ⟨rfl, report_alike hoff⟩

/-- `Program.divideAllText` and a tape for it. -/
def divideAllFiles : Files
  | "divide.ram" => .ok Program.divideAllText
  | "tape" => .ok " 3"
  | _ => .error .missing

/-- Asks for a digest as well. -/
def divideAllOptions : Options where
  program := "divide.ram"
  tape0 := some "tape"
  traceDigest := true

def divideAllInputs : Inputs where
  source := Program.divideAllText
  program := .divideAll
  tape0 := [3]
  tape1 := []
  preload := []

theorem session_agrees_divideAll :
    Agrees divideAllFiles divideAllOptions (report divideAllFiles divideAllOptions) ∧
      Answers divideAllFiles divideAllOptions 85 ∧
      (∃ line, (report divideAllFiles divideAllOptions).output = [line] ∧ line.length = 64 ∧
        Digest.Prints (divideAllInputs.message (.divideAll [3]) 8) line ∧
        divideAllInputs.Covers (.divideAll [3]) 8 (divideAllInputs.message (.divideAll [3]) 8)) ∧
      Alike (report divideAllFiles { divideAllOptions with traceDigest := false })
        (report divideAllFiles divideAllOptions) := by
  have ho : Options.read? ["divide.ram", "-t", "tape", "--trace-digest"] = some divideAllOptions := by
    decide
  have hquiet : Options.read? ["divide.ram", "-t", "tape"] =
      some { divideAllOptions with traceDigest := false } := by
    decide
  have hfound : divideAllInputs.Found divideAllFiles divideAllOptions :=
    ⟨rfl, ⟨none, rfl, Program.assemble_divideAllText⟩, readWords?_ok_iff.1 (by rfl), .absent,
      .absent⟩
  have hstart : divideAllInputs.start divideAllOptions = .ok (.divideAll [3]) :=
    Execution.start_divideAll [3]
  -- it answers in its eighth step
  have hrunning : (Execution.step^[7] (.divideAll [3])).status = .running := rfl
  have hend : (Execution.step^[8] (.divideAll [3])).status = .halted (.answer 85) := rfl
  have hnot : (Execution.step^[8] (.divideAll [3])).status ≠ .running := by
    rw [hend]
    decide
  have hlt : (Execution.step^[8] (.divideAll [3])).steps < 2 ^ 64 := by decide
  have hterminates : Terminates divideAllFiles divideAllOptions := by
    intro x hx e hs
    cases hx.unique hfound
    cases hs.symm.trans hstart
    exact ⟨8, hnot, hlt⟩
  have hagrees := (session_agrees ho divideAllFiles).1 hterminates
  obtain ⟨-, hadded⟩ := (session_agrees hquiet divideAllFiles).2 rfl
  obtain ⟨-, halike⟩ := hadded ["divide.ram", "-t", "tape"] [] _ rfl ho
  obtain ⟨k, how, line, hhalts, hline, hprints, hcovers⟩ := hagrees.digest rfl _ hfound _ hstart
  cases hhalts.unique (.succ hrunning hend)
  refine ⟨hagrees, (answers_iff hfound hstart).2 ?_,
    ⟨line, hline, hprints.length, hprints, hcovers ⟨by decide, by decide, by decide⟩⟩, halike⟩
  rw [Execution.run_eq_of_halted rfl hnot hlt, hend]

end Session
end Cli
end WordRam
