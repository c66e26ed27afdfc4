import WordRam.Proofs.Execution.Consumed
import WordRam.Proofs.Execution.Trajectory

/-!
# The words that reads deliver

A read takes the first word that is left on its tape, or finds that none is left (`Machine.Took`).
`Execution.found` lists the steps of a run that have taken a word from a tape. A step moves a tape
exactly if it belongs to this list (`Valid.tape?_step`), so the list counts the words that are gone
(`Valid.tape?_iterate`), and what each of its steps has delivered is the word at its place
(`Valid.delivers`). Main statement: `reads_deliver_in_order`.
-/

namespace WordRam

namespace Tape

/-- The tape with its next word read. -/
def advance (t : Tape) : Tape :=
  { t with consumed := t.consumed + 1 }

theorem next?_of_remaining {t : Tape} {v : Nat} {rest : List Nat} (h : t.remaining = v :: rest) :
    t.next? = some (v, t.advance) := by
  rcases hn : t.next? with _ | ⟨u, t'⟩
  · rw [next?_eq_none_iff.1 hn] at h
    cases h
  · have hcons := remaining_eq_cons_of_next? hn
    rcases Option.map_eq_some_iff.1 hn with ⟨x, -, heq⟩
    cases heq
    rw [h] at hcons
    cases hcons
    rfl

end Tape

namespace Machine

variable {m m' : Machine} {wide : Addressing} {d : Reg} {tape : Operand}
variable {j v : Nat} {rest : List Nat} {next : Next}

/-- The words that are left on the tape with a number. A tape that does not exist has none. -/
def left (m : Machine) (j : Nat) : List Nat :=
  ((m.tape? j).map Tape.remaining).getD []

theorem left_of_two_le (m : Machine) (h : 2 ≤ j) : m.left j = [] := by
  match j with
  | 0 | 1 => omega
  | _ + 2 => rfl

theorem left_of_tape? {t : Tape} (h : m.tape? j = some t) : m.left j = t.remaining := by
  rw [left, h]
  rfl

theorem nextWord?_of_left_nil (h : m.left j = []) : m.nextWord? j = none := by
  match j with
  | 0 | 1 => exact Option.map_eq_none_iff.2 (Tape.next?_eq_none_iff.2 h)
  | _ + 2 => rfl

theorem nextWord?_of_left_cons (h : m.left j = v :: rest) :
    ∃ k, m.nextWord? j = some (v, k) ∧
      ∀ i, k.tape? i = if i = j then (m.tape? i).map Tape.advance else m.tape? i := by
  rcases j with _ | _ | j
  · refine ⟨{ m with primary := m.primary.advance }, ?_, fun i => ?_⟩
    · rw [nextWord?, Tape.next?_of_remaining h]; rfl
    · rcases i with _ | _ | i <;> rfl
  · refine ⟨{ m with auxiliary := m.auxiliary.advance }, ?_, fun i => ?_⟩
    · rw [nextWord?, Tape.next?_of_remaining h]; rfl
    · rcases i with _ | _ | i <;> rfl
  · cases h

/-- What has become of a machine that has read from tape number `j` into a register: the first word
that was left on the tape is in the register, or zero if there was none. -/
structure Took (m m' : Machine) (d : Reg) (j : Nat) : Prop where
  register : d < m.registers.size →
    m'.registers[d]? = some (m.width.truncate ((m.left j).headD 0))
  flag : m'.flag = (m.left j).isEmpty
  tape : ∀ i, m'.tape? i =
    if i = j ∧ m.left j ≠ [] then (m.tape? i).map Tape.advance else m.tape? i

theorem registers_put (h : d < m.registers.size) (v : Nat) :
    (m.put d v).registers[d]? = some (m.width.truncate v) := by
  simp [put, h]

theorem effect_took (he : m.effect wide (.read d tape) = .ok (m', next)) :
    m.Took m' d (m.operand tape) := by
  simp only [effect] at he
  rcases hleft : m.left (m.operand tape) with _ | ⟨v, rest⟩
  · -- nothing is left: the register is cleared and the flag is set
    rw [nextWord?_of_left_nil hleft] at he
    cases he
    refine ⟨fun hd => ?_, ?_, fun i => ?_⟩
    · rw [hleft]
      exact registers_put hd 0
    · rw [hleft]
      rfl
    · rw [if_neg fun h => h.2 hleft]
      rfl
  · -- the first word that is left goes to the register
    rcases nextWord?_of_left_cons hleft with ⟨k, hk, htape⟩
    rcases nextWord?_registers m hk with ⟨hregisters, hwidth⟩
    rw [hk] at he
    cases he
    refine ⟨fun hd => ?_, ?_, fun i => ?_⟩
    · rw [hleft, ← hwidth]
      exact registers_put (hregisters ▸ hd) v
    · rw [hleft]
      rfl
    · simp only [hleft, ne_eq, reduceCtorEq, not_false_eq_true, and_true]
      exact htape i

end Machine

namespace Execution

/-- A read: the register for the word, and the tape by the number that its operand has. -/
structure Reading where
  register : Reg
  tape : Nat
deriving DecidableEq, Repr

/-- The read that the next step executes, if that is what it does. -/
def reading? (e : Execution) : Option Reading :=
  match e.status, e.fetch with
  | .running, .ok (.read d tape) => some ⟨d, e.machine.operand tape⟩
  | _, _ => none

/-- The next step reads from the tape with a number, and finds a word there. -/
def finds (e : Execution) (j : Nat) : Bool :=
  e.reading?.any fun r => r.tape = j && e.machine.left j ≠ []

/-- Which of the first `k` steps have read a word from the tape with a number. -/
def found (e : Execution) (j k : Nat) : List Nat :=
  (List.range k).filter fun n => (step^[n] e).finds j

variable {e : Execution} {r : Reading} {i j k n : Nat} {t : Tape} {words : List Nat}

theorem found_succ (e : Execution) (j k : Nat) :
    e.found j (k + 1) = e.found j k ++ if (step^[k] e).finds j then [k] else [] := by
  simp only [found, List.range_succ, List.filter_append, List.filter_singleton]
  cases (step^[k] e).finds j <;> rfl

theorem reading?_eq_some (h : e.reading? = some r) :
    e.status = .running ∧ ∃ tape, e.fetch = .ok (.read r.register tape) ∧
      e.machine.operand tape = r.tape := by
  unfold reading? at h
  split at h
  · next tape hstatus hfetch =>
    cases h
    exact ⟨hstatus, tape, hfetch, rfl⟩
  · cases h

theorem finds_iff : e.finds j = true ↔
    ∃ r, e.reading? = some r ∧ r.tape = j ∧ e.machine.left j ≠ [] := by
  simp [finds, Option.any_eq_true]

/-- The instruction that a step executes is no read. -/
theorem not_read_of_reading? (h : e.reading? = none) (hrun : e.status = .running) (ha : e.Allowed)
    {i : Instruction} (hi : e.program.instructions[e.machine.pc]? = some i) (d : Reg)
    (tape : Operand) : i ≠ .read d tape := by
  rintro rfl
  rw [reading?, hrun, fetch_of_allowed ha, hi] at h
  cases h

theorem allowed_of_fetch {i : Instruction} (h : e.fetch = .ok i) : e.Allowed := by
  rcases allowed_or_spent e with ha | ⟨limit, hl, hle⟩
  · exact ha
  · rw [fetch_of_spent hl hle] at h
    cases h

namespace Valid

variable {p : Program} {c : Config} {w : Width} {tapes : List Nat × List Nat}

/-! ### One step -/

/-- A read never faults, and takes its word if there is one. -/
theorem step_reading (h : e.Valid p c w tapes) (hr : e.reading? = some r) :
    e.step.status = .running ∧ r.register < e.machine.registers.size ∧
      e.machine.Took e.step.machine r.register r.tape := by
  rcases reading?_eq_some hr with ⟨hrun, tape, hfetch, htape⟩
  have hi := fetch_ok hfetch
  have hwithin := h.within _ (h.program ▸ Array.mem_of_getElem? hi)
  rw [← h.machine.size] at hwithin
  rcases Machine.effect_read e.machine e.config.wide r.register tape with ⟨m, he, -⟩
  have hstep := h.step_eq hrun (allowed_of_fetch hfetch) hi
  rw [he] at hstep
  rw [hstep, ← htape]
  refine ⟨hrun, hwithin.1, ?_⟩
  have htook := Machine.effect_took he
  exact ⟨htook.register, htook.flag, htook.tape⟩

theorem tape?_of_not_reading (h : e.Valid p c w tapes) (hr : e.reading? = none) (j : Nat) :
    e.step.machine.tape? j = e.machine.tape? j := by
  by_cases hrun : e.status = .running
  · have ht := h.transition hrun
    generalize e.step = e' at ht
    cases ht with
    | @next i m ha hi he =>
      have hi := not_read_of_reading? hr hrun ha hi
      rcases Machine.effect_tapes hi he with ⟨hprimary, hauxiliary⟩
      match j with
      | 0 => exact congrArg some hprimary
      | 1 => exact congrArg some hauxiliary
      | _ + 2 => rfl
    | _ => rfl
  · rw [step_of_not_running hrun]

/-- A step moves a tape if it finds a word there, and no other tape. -/
theorem tape?_step (h : e.Valid p c w tapes) (j : Nat) :
    e.step.machine.tape? j =
      if e.finds j then (e.machine.tape? j).map Tape.advance else e.machine.tape? j := by
  rcases hr : e.reading? with _ | r
  · have hfinds : ¬ e.finds j := by
      simp [finds, hr]
    rw [if_neg hfinds, h.tape?_of_not_reading hr]
  · rw [(h.step_reading hr).2.2.tape]
    by_cases hj : j = r.tape
    · simp [finds, hr, hj]
    · simp [finds, hr, hj, Ne.symm hj]

/-! ### Many steps -/

/-- A tape has been read as often as steps have found a word there. -/
theorem tape?_iterate (h : e.Valid p c w tapes) (ht : e.machine.tape? j = some t) (k : Nat) :
    (Execution.step^[k] e).machine.tape? j =
      some { t with consumed := t.consumed + (e.found j k).length } := by
  induction k with
  | zero => exact ht
  | succ k ih =>
    rw [Function.iterate_succ_apply', (h.iterate k).tape?_step, ih, found_succ]
    cases (Execution.step^[k] e).finds j with
    | false => simp
    | true => simp [Tape.advance, Nat.add_assoc]

theorem left_iterate (h : e.Valid p c w tapes) (ht : e.machine.tape? j = some (.ofList words))
    (k : Nat) :
    (Execution.step^[k] e).machine.left j = words.drop (e.found j k).length := by
  rw [Machine.left_of_tape? (h.tape?_iterate ht k)]
  simp [Tape.remaining, Tape.ofList]

/-- Once no word is left on a tape, none is left there later. -/
theorem left_nil_of_le (h : e.Valid p c w tapes) (hn : e.machine.left j = []) (k : Nat) :
    (Execution.step^[k] e).machine.left j = [] := by
  induction k with
  | zero => exact hn
  | succ k ih =>
    have hfinds : ¬ (Execution.step^[k] e).finds j := fun hf => by
      rcases finds_iff.1 hf with ⟨r, -, -, hleft⟩
      exact hleft ih
    rw [Function.iterate_succ_apply', Machine.left, (h.iterate k).tape?_step, if_neg hfinds]
    exact ih

end Valid

/-- Tape number `j` held `words`, unread, when the execution was `e`, and from there on they are
delivered in their order, each to one read. -/
structure Delivers (e : Execution) (bits j : Nat) (words : List Nat) : Prop where
  /-- What has been found is gone, and the rest is left. -/
  tape : ∀ k, ∃ t, (step^[k] e).machine.tape? j = some t ∧ t.consumed = (e.found j k).length ∧
    t.remaining = words.drop t.consumed
  /-- The `i`-th read that finds a word, counted from zero, delivers the `i`-th word. -/
  word : ∀ k i n : Nat, (e.found j k)[i]? = some n → ∃ d v, words[i]? = some v ∧
    (step^[n] e).reading? = some ⟨d, j⟩ ∧
    (step^[n + 1] e).machine.registers[d]? = some (v % 2 ^ bits) ∧
    (step^[n + 1] e).machine.flag = false

/-- The read that finds a word for the `i`-th time is made when `i` words have been found. -/
theorem found_getElem? (h : (e.found j k)[i]? = some n) :
    (step^[n] e).finds j = true ∧ (e.found j n).length = i := by
  induction k with
  | zero => cases h
  | succ k ih =>
    rw [found_succ] at h
    rcases Nat.lt_or_ge i (e.found j k).length with hlt | hge
    · rw [List.getElem?_append_left hlt] at h
      exact ih h
    · rw [List.getElem?_append_right hge] at h
      split at h
      · next hfinds =>
        rcases List.mem_singleton.1 (List.mem_of_getElem? h) with rfl
        have hi := (List.getElem?_eq_some_iff.1 h).1
        exact ⟨hfinds, by simp at hi; omega⟩
      · cases h

namespace Valid

variable {p : Program} {c : Config} {w : Width} {tapes : List Nat × List Nat}

theorem iterate_reading (h : e.Valid p c w tapes)
    (hr : (Execution.step^[n] e).reading? = some r) :
    (Execution.step^[n + 1] e).status = .running ∧
      r.register < (Execution.step^[n] e).machine.registers.size ∧
      (Execution.step^[n] e).machine.Took (Execution.step^[n + 1] e).machine r.register r.tape := by
  rw [Function.iterate_succ_apply']
  exact (h.iterate n).step_reading hr

theorem delivers (h : e.Valid p c w tapes) (ht : e.machine.tape? j = some (.ofList words)) :
    e.Delivers w.bits j words := by
  refine ⟨fun k => ⟨_, h.tape?_iterate ht k, Nat.zero_add _, rfl⟩, fun k i n hn => ?_⟩
  rcases found_getElem? hn with ⟨hfinds, hlength⟩
  rcases finds_iff.1 hfinds with ⟨r, hr, rfl, hleft⟩
  rcases h.iterate_reading hr with ⟨-, hd, htook⟩
  rcases hcons : (Execution.step^[n] e).machine.left r.tape with _ | ⟨v, rest⟩
  · exact absurd hcons hleft
  · have hword : words[i]? = some v := by
      rw [h.left_iterate ht, hlength] at hcons
      rw [← List.head?_drop, hcons]
      rfl
    have hregister := htook.register hd
    have hflag := htook.flag
    rw [hcons] at hregister hflag
    rw [(h.iterate n).machine.width] at hregister
    exact ⟨r.register, v, hword, hr, hregister, hflag⟩

/-- A read that finds no word moves no tape. -/
theorem misses (h : e.Valid p c w tapes) (hr : (Execution.step^[n] e).reading? = some r)
    (hnil : (Execution.step^[n] e).machine.left r.tape = []) :
    (Execution.step^[n + 1] e).machine.registers[r.register]? = some 0 ∧
      (Execution.step^[n + 1] e).machine.flag = true ∧
      ∀ i, (Execution.step^[n + 1] e).machine.tape? i =
        (Execution.step^[n] e).machine.tape? i := by
  rcases h.iterate_reading hr with ⟨-, hd, htook⟩
  have hregister := htook.register hd
  have hflag := htook.flag
  rw [hnil] at hregister hflag
  refine ⟨hregister.trans ?_, hflag, fun i => ?_⟩
  · simp [Width.truncate]
  · rw [htook.tape, if_neg fun hi => hi.2 hnil]

end Valid

/-- The execution is at its start: it is new, or it has been restarted after some calls. -/
inductive Begins (p : Program) (c : Config) (tape0 tape1 : List Nat) : Execution → Prop
  | new {e : Execution} (hs : start p c tape0 tape1 = .ok e) : Begins p c tape0 tape1 e
  | again {e : Execution} {u0 u1 : List Nat} (hs : start p c u0 u1 = .ok e) (calls : List Call) :
    Begins p c tape0 tape1 ((e.after calls).restart tape0 tape1)

variable {source : String} {given : Option Params} {p : Program} {c : Config}
variable {tape0 tape1 : List Nat}

theorem Begins.valid (hp : Program.assemble source given = .ok p)
    (h : Begins p c tape0 tape1 e) :
    ∃ w, c.params.width = .ok w ∧ e.Valid p c w (tape0, tape1) ∧
      e.machine.tape? 0 = some (.ofList tape0) ∧ e.machine.tape? 1 = some (.ofList tape1) := by
  cases h with
  | new hs =>
    rcases valid_after hp hs with ⟨w, hw, hv⟩
    rcases bind_ok hs with ⟨_, -, heq⟩
    cases heq
    exact ⟨w, hw, hv [], rfl, rfl⟩
  | again hs calls =>
    rcases valid_after hp hs with ⟨w, hw, hv⟩
    exact ⟨w, hw, (hv calls).restart tape0 tape1, rfl, rfl⟩

/-- Since an execution began, whatever has been called, the words of both tapes have been delivered
in their order, and reads that found no word have delivered zero. No read has halted it. -/
theorem reads_deliver_in_order (hp : Program.assemble source given = .ok p)
    (hb : Begins p c tape0 tape1 e) :
    (∀ later : List Call, (∀ call ∈ later, ¬ call.Restarts) → ∃ k, e.after later = step^[k] e) ∧
    e.Delivers c.params.wordBits 0 tape0 ∧ e.Delivers c.params.wordBits 1 tape1 ∧
    ∀ n r, (step^[n] e).reading? = some r →
      (step^[n + 1] e).status = .running ∧
      ((step^[n] e).machine.left r.tape = [] ∨ 2 ≤ r.tape →
        (step^[n + 1] e).machine.registers[r.register]? = some 0 ∧
        (step^[n + 1] e).machine.flag = true ∧
        (∀ i, (step^[n + 1] e).machine.tape? i = (step^[n] e).machine.tape? i) ∧
        ∀ k, n ≤ k → (step^[k] e).machine.left r.tape = []) := by
  rcases hb.valid hp with ⟨w, hw, hv, h0, h1⟩
  rw [← Params.bits_of_width hw]
  refine ⟨fun later hc => after_eq_iterate hc e, hv.delivers h0, hv.delivers h1,
    fun n r hr => ⟨?_, fun hnone => ?_⟩⟩
  · exact (hv.iterate_reading hr).1
  · have hnil : (step^[n] e).machine.left r.tape = [] :=
      hnone.elim id (Machine.left_of_two_le _)
    rcases hv.misses hr hnil with ⟨hregister, hflag, htape⟩
    refine ⟨hregister, hflag, htape, fun k hk => ?_⟩
    rcases Nat.exists_eq_add_of_le' hk with ⟨i, rfl⟩
    rw [Function.iterate_add_apply]
    exact (hv.iterate n).left_nil_of_le hnil i

/-- The execution of `Program.divideAll` that is restarted after a fault reads its new tape from the
first word on, of which it takes what eight bits can hold. -/
theorem divideAll_reads :
    Begins .divideAll (.ofParams Program.divideAll.params) [258, 9] []
        (((divideAll [5, 0]).after [.run]).restart [258, 9] []) ∧
      (((divideAll [5, 0]).after [.run]).restart [258, 9] []).found 0 20 = [1, 5] ∧
      Delivers (((divideAll [5, 0]).after [.run]).restart [258, 9] []) 8 0 [258, 9] := by
  have hbegins : Begins .divideAll (.ofParams Program.divideAll.params) [258, 9] []
      (((divideAll [5, 0]).after [.run]).restart [258, 9] []) :=
    .again (start_divideAll [5, 0]) [.run]
  rcases reads_deliver_in_order Program.assemble_divideAllText hbegins with ⟨-, hdelivers, -⟩
  exact ⟨hbegins, by decide +kernel, hdelivers⟩

end Execution
end WordRam
