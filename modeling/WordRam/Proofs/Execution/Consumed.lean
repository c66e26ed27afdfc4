import WordRam.Proofs.Execution.Lockstep
import WordRam.Proofs.Machine.Frame

/-!
# What a run reads of its tapes

A run that halts has no use for the words that it leaves on its tapes. On other tapes with the same
words as far as the run has read, the machines go on in lockstep and differ in the rest of their
tapes alone (`Machine.Agrees.effect`); only where the run has found the end of a tape, the other
tape has to end there too. Main statement: `halts_alike_on_consumed`.
-/

namespace WordRam

/-- The tapes have been read equally far, and they hold the same first `n` words. -/
structure Tape.Agrees (n : Nat) (t u : Tape) : Prop where
  consumed : u.consumed = t.consumed
  words : ∀ i < n, u.words[i]? = t.words[i]?

theorem Tape.Agrees.next? {n v : Nat} {t t' u : Tape} (h : t.Agrees n u)
    (hn : t.next? = some (v, t')) (hle : t'.consumed ≤ n) :
    ∃ u', u.next? = some (v, u') ∧ t'.Agrees n u' := by
  obtain ⟨x, hx, heq⟩ := Option.map_eq_some_iff.1 hn
  cases heq
  have hword : u.words[u.consumed]? = some v := by
    rw [h.consumed, h.words _ hle, hx]
  refine ⟨{ u with consumed := u.consumed + 1 }, ?_, congrArg (· + 1) h.consumed, h.words⟩
  rw [Tape.next?, hword]
  rfl

namespace Machine

variable {m m' k : Machine} {n : Nat × Nat} {wide : Addressing} {i : Instruction} {next : Next}

/-- How many words have been read from the primary and from the auxiliary tape. -/
def consumed (m : Machine) : Nat × Nat :=
  (m.primary.consumed, m.auxiliary.consumed)

theorem nextWord?_consumed {j v : Nat} (h : m.nextWord? j = some (v, k)) :
    m.consumed ≤ k.consumed := by
  match j with
  | 0 | 1 =>
    obtain ⟨⟨u, t⟩, ht, heq⟩ := Option.map_eq_some_iff.1 h
    cases heq
    obtain ⟨x, -, heq⟩ := Option.map_eq_some_iff.1 ht
    cases heq
    constructor <;> simp [consumed]
  | _ + 2 => cases h

theorem effect_tapes (hi : ∀ d tape, i ≠ .read d tape) (he : m.effect wide i = .ok (k, next)) :
    k.primary = m.primary ∧ k.auxiliary = m.auxiliary := by
  have hsame : m.effect wide i =
      (m.effect wide i).map fun x => (x.1.withTapes m.primary m.auxiliary, x.2) :=
    effect_withTapes hi m.primary m.auxiliary
  rw [he] at hsame
  have hk : k = k.withTapes m.primary m.auxiliary := congrArg Prod.fst (Except.ok.inj hsame)
  constructor
  · rw [hk]; rfl
  · rw [hk]; rfl

theorem effect_consumed (he : m.effect wide i = .ok (k, next)) : m.consumed ≤ k.consumed := by
  by_cases hread : ∃ d tape, i = .read d tape
  · obtain ⟨d, tape, rfl⟩ := hread
    simp only [effect] at he
    split at he
    · next hn =>
      cases he
      have hle := nextWord?_consumed hn
      exact hle
    · cases he
      exact le_refl m.consumed
  · obtain ⟨hprimary, hauxiliary⟩ := effect_tapes (fun d tape hi => hread ⟨d, tape, hi⟩) he
    rw [consumed, consumed, hprimary, hauxiliary]

/-! ### Machines that differ in their tapes -/

/-- The machines differ in their tapes alone, which have been read equally far and hold the same
words up to `n`. -/
structure Agrees (n : Nat × Nat) (m m' : Machine) : Prop where
  same : m' = m.withTapes m'.primary m'.auxiliary
  primary : m.primary.Agrees n.1 m'.primary
  auxiliary : m.auxiliary.Agrees n.2 m'.auxiliary

namespace Agrees

theorem at_pc (h : m.Agrees n m') (pc : Nat) : Agrees n { m with pc } { m' with pc } := by
  refine ⟨?_, h.primary, h.auxiliary⟩
  rw [h.same]
  rfl

theorem put (h : m.Agrees n m') (d : Reg) (v : Nat) : (m.put d v).Agrees n (m'.put d v) := by
  refine ⟨?_, h.primary, h.auxiliary⟩
  rw [h.same]
  rfl

theorem setFlag (h : m.Agrees n m') (flag : Bool) :
    (m.setFlag flag).Agrees n (m'.setFlag flag) := by
  refine ⟨?_, h.primary, h.auxiliary⟩
  rw [h.same]
  rfl

theorem operand (h : m.Agrees n m') (o : Operand) : m'.operand o = m.operand o := by
  rw [h.same, withTapes_operand]

theorem nextWord? (h : m.Agrees n m') {j v : Nat} (hn : m.nextWord? j = some (v, k))
    (hle : k.consumed ≤ n) : ∃ k', m'.nextWord? j = some (v, k') ∧ k.Agrees n k' := by
  match j with
  | 0 =>
    obtain ⟨⟨u, t⟩, ht, heq⟩ := Option.map_eq_some_iff.1 hn
    cases heq
    obtain ⟨t', ht', hagrees⟩ := h.primary.next? ht hle.1
    refine ⟨{ m' with primary := t' }, ?_, ?_, hagrees, h.auxiliary⟩
    · rw [Machine.nextWord?, ht']; rfl
    · rw [h.same]; rfl
  | 1 =>
    obtain ⟨⟨u, t⟩, ht, heq⟩ := Option.map_eq_some_iff.1 hn
    cases heq
    obtain ⟨t', ht', hagrees⟩ := h.auxiliary.next? ht hle.2
    refine ⟨{ m' with auxiliary := t' }, ?_, ?_, h.primary, hagrees⟩
    · rw [Machine.nextWord?, ht']; rfl
    · rw [h.same]; rfl
  | _ + 2 => cases hn

/-- An instruction does the same to both machines if it reads no further than the words that are the
same, and finds the end of a tape in both if it does so in the first. -/
theorem effect (h : m.Agrees n m')
    (hle : ∀ k next, m.effect wide i = .ok (k, next) → k.consumed ≤ n)
    (hend : ∀ d tape, i = .read d tape → m.nextWord? (m.operand tape) = none →
      m'.nextWord? (m.operand tape) = none) :
    Corresponds (fun _ => False) (Moves (Agrees n)) (m.effect wide i) (m'.effect wide i) := by
  -- only a read looks at the tapes
  by_cases hread : ∃ d tape, i = .read d tape
  · obtain ⟨d, tape, rfl⟩ := hread
    have hend := hend d tape rfl
    simp only [Machine.effect, h.operand] at hle ⊢
    cases hn : m.nextWord? (m.operand tape) with
    | none =>
      rw [hend hn]
      exact .ok ⟨(h.put d 0).setFlag true, rfl⟩
    | some x =>
      obtain ⟨v, k⟩ := x
      rw [hn] at hle
      have hbound : ((k.put d v).setFlag false).consumed ≤ n := hle _ _ rfl
      obtain ⟨k', hn', hk⟩ := h.nextWord? hn hbound
      rw [hn']
      exact .ok ⟨(hk.put d v).setFlag false, rfl⟩
  · have hi : ∀ d tape, i ≠ .read d tape := fun d tape heq => hread ⟨d, tape, heq⟩
    rw [h.same, effect_withTapes hi]
    cases he : m.effect wide i with
    | error cause => exact .fault cause
    | ok x =>
      obtain ⟨k, next⟩ := x
      obtain ⟨hprimary, hauxiliary⟩ := effect_tapes hi he
      refine .ok ⟨⟨rfl, ?_, ?_⟩, rfl⟩
      · show k.primary.Agrees n.1 m'.primary
        rw [hprimary]; exact h.primary
      · show k.auxiliary.Agrees n.2 m'.auxiliary
        rw [hauxiliary]; exact h.auxiliary

end Agrees

end Machine

namespace Execution

variable {e : Execution} {j k : Nat}
variable {p : Program} {c : Config} {w : Width} {tapes tapes' : List Nat × List Nat}

theorem Valid.consumed_le_step (h : e.Valid p c w tapes) :
    e.machine.consumed ≤ e.step.machine.consumed := by
  by_cases hrun : e.status = .running
  · have ht := h.transition hrun
    generalize e.step = e' at ht
    cases ht with
    | next ha hi he =>
      have hle := Machine.effect_consumed he
      exact hle
    | _ => exact le_refl e.machine.consumed
  · rw [step_of_not_running hrun]

theorem Valid.consumed_le_iterate (h : e.Valid p c w tapes) (hjk : j ≤ k) :
    (Execution.step^[j] e).machine.consumed ≤ (Execution.step^[k] e).machine.consumed := by
  induction k, hjk using Nat.le_induction with
  | base => exact le_refl _
  | succ k hjk ih =>
    rw [Function.iterate_succ_apply']
    exact le_trans ih (h.iterate k).consumed_le_step

/-- The next step reads from the tape with a number, and there is no word left on it. -/
def FindsEnd (e : Execution) (j : Nat) : Prop :=
  e.status = .running ∧ ∃ d tape t, e.fetch = .ok (.read d tape) ∧ e.machine.operand tape = j ∧
    e.machine.tape? j = some t ∧ t.remaining = []

/-- For tape number `j`, `words'` can take the place of `words` in the run of `e`, which has read
`n` words from it: these are the same, and there are no more if the run has come to the end of the
tape. -/
def Replaces (e : Execution) (j n : Nat) (words words' : List Nat) : Prop :=
  words'.take n = words.take n ∧ ((∃ k, (step^[k] e).FindsEnd j) → words'.length = n)

theorem Replaces.agrees {n : Nat} {words words' : List Nat} (h : Replaces e j n words words') :
    (Tape.ofList words).Agrees n (.ofList words') := by
  refine ⟨rfl, fun i hi => ?_⟩
  simp only [Tape.ofList, List.getElem?_toArray]
  rw [← List.getElem?_take_of_lt hi, h.1, List.getElem?_take_of_lt hi]

/-- A tape that is replaced ends where the run has found the end of the one in its place. -/
theorem Replaces.next?_eq_none {n : Nat} {words words' : List Nat}
    (h : Replaces e j n words words') {t u : Tape} (ht : t.Valid words) (hu : u.Valid words')
    (hn : n ≤ words.length) (hagrees : t.Agrees n u) (hnone : t.next? = none)
    (hfinds : ∃ k, (step^[k] e).FindsEnd j) : u.next? = none := by
  rw [Tape.next?_eq_none_iff, Tape.remaining, List.drop_eq_nil_iff] at hnone ⊢
  have hlength := h.2 hfinds
  rw [ht.words] at hnone
  rw [hu.words, hagrees.consumed]
  show words'.length ≤ t.consumed
  have hwords : words.length ≤ t.consumed := hnone
  omega

theorem FindsEnd.of_next? (hrun : e.status = .running) (ha : e.Allowed) {d : Reg} {tape : Operand}
    (hi : e.program.instructions[e.machine.pc]? = some (.read d tape)) {t : Tape}
    (ht : e.machine.tape? (e.machine.operand tape) = some t) (hnone : t.next? = none) :
    e.FindsEnd (e.machine.operand tape) := by
  refine ⟨hrun, d, tape, t, ?_, rfl, ht, Tape.next?_eq_none_iff.1 hnone⟩
  rw [fetch_of_allowed ha, hi]

theorem conclude_consumed (e : Execution) (pc : Nat) (m : Machine) (next : Next) :
    (e.conclude pc (.ok (m, next))).machine.consumed = m.consumed := by
  cases next <;> rfl

/-- As long as a run goes on, its instructions do the same on tapes that can take the place of its
own. -/
theorem corresponds_of_replaces {e' : Execution} (hv : e.Valid p c w tapes)
    (hv' : e'.Valid p c w tapes')
    (h0 : e.Replaces 0 e.run.machine.primary.consumed tapes.1 tapes'.1)
    (h1 : e.Replaces 1 e.run.machine.auxiliary.consumed tapes.2 tapes'.2) (hk : k < e.fuel)
    (hlock : Lockstep (Machine.Agrees e.run.machine.consumed) (step^[k] e) (step^[k] e'))
    (hrun : (step^[k] e).status = .running) (ha : (step^[k] e).Allowed) {i : Instruction}
    (hi : (step^[k] e).program.instructions[(step^[k] e).machine.pc]? = some i) :
    Corresponds (fun _ => False) (Machine.Moves (Machine.Agrees e.run.machine.consumed))
      ((step^[k] e).machine.effect (step^[k] e).config.wide i)
      ((step^[k] e').machine.effect (step^[k] e).config.wide i) := by
  have hvk := hv.iterate k
  have hvk' := hv'.iterate k
  have hend := hv.iterate e.fuel
  rw [← run_eq_iterate] at hend
  refine hlock.machine.effect ?_ ?_
  · intro m next he
    -- what the instruction has read is read in the whole run
    have hstep : (step^[k + 1] e).machine.consumed = m.consumed := by
      rw [Function.iterate_succ_apply', hvk.step_eq hrun ha hi, he, conclude_consumed]
    rw [← hstep, run_eq_iterate]
    exact hv.consumed_le_iterate hk
  · -- where the tape has no word left, the other tape has none either
    rintro d tape rfl hnone
    generalize hj : (step^[k] e).machine.operand tape = j at hnone ⊢
    match j with
    | 0 =>
      have hnone : (step^[k] e).machine.primary.next? = none := Option.map_eq_none_iff.1 hnone
      have hfinds := FindsEnd.of_next? hrun ha hi (hj ▸ rfl) hnone
      refine Option.map_eq_none_iff.2 ?_
      exact h0.next?_eq_none hvk.machine.primary hvk'.machine.primary
        hend.machine.primary.consumed hlock.machine.primary hnone ⟨k, hj ▸ hfinds⟩
    | 1 =>
      have hnone : (step^[k] e).machine.auxiliary.next? = none := Option.map_eq_none_iff.1 hnone
      have hfinds := FindsEnd.of_next? hrun ha hi (hj ▸ rfl) hnone
      refine Option.map_eq_none_iff.2 ?_
      exact h1.next?_eq_none hvk.machine.auxiliary hvk'.machine.auxiliary
        hend.machine.auxiliary.consumed hlock.machine.auxiliary hnone ⟨k, hj ▸ hfinds⟩
    | _ + 2 => rfl

/-! ### Runs on other tapes -/

variable {source : String} {given : Option Params} {tape0 tape1 tape0' tape1' : List Nat}
variable {how : Halt}

/-- An execution of the program on other tapes starts with the same machine, but for its tapes. -/
theorem lockstep_of_start {n : Nat × Nat} (hs : start p c tape0 tape1 = .ok e)
    (h0 : (Tape.ofList tape0).Agrees n.1 (.ofList tape0'))
    (h1 : (Tape.ofList tape1).Agrees n.2 (.ofList tape1')) :
    ∃ e', start p c tape0' tape1' = .ok e' ∧ Lockstep (Machine.Agrees n) e e' := by
  obtain ⟨w, hw, hs⟩ := bind_ok hs
  cases hs
  rw [start, hw]
  exact ⟨_, rfl, rfl, rfl, rfl, rfl, rfl, rfl, rfl, h0, h1⟩

theorem Lockstep.outcome?_eq {n : Nat × Nat} {e' : Execution}
    (h : Lockstep (Machine.Agrees n) e e') : e'.outcome? = e.outcome? := by
  have hsame := h.machine.same
  rw [outcome?, outcome?, h.status, h.steps, hsame]
  rfl

/-- A run that halts does so in the same way, with the same outcome and having read as much, on any
tapes that can take the place of its own. -/
theorem halts_alike_on_consumed (hp : Program.assemble source given = .ok p)
    (hs : start p c tape0 tape1 = .ok e) (hhalt : e.run.status = .halted how)
    (h0 : e.Replaces 0 e.run.machine.primary.consumed tape0 tape0')
    (h1 : e.Replaces 1 e.run.machine.auxiliary.consumed tape1 tape1') :
    ∃ e' o, start p c tape0' tape1' = .ok e' ∧ e.run.outcome? = some o ∧ o.halt = how ∧
      e'.run.outcome? = some o ∧ e'.run.machine.consumed = e.run.machine.consumed := by
  obtain ⟨w, hw, hv⟩ := Valid.start (Program.within_of_assemble hp) hs
  have hstart : ∃ e', start p c tape0' tape1' = .ok e' ∧
      Lockstep (Machine.Agrees e.run.machine.consumed) e e' :=
    lockstep_of_start hs h0.agrees h1.agrees
  obtain ⟨e', hs', hlock⟩ := hstart
  obtain ⟨w', hw', hv'⟩ := Valid.start (Program.within_of_assemble hp) hs'
  cases hw.symm.trans hw'
  have hrun : Lockstep (Machine.Agrees e.run.machine.consumed) e.run e'.run ∨
      e.run.Excused fun _ => False :=
    hlock.run (fun _ _ pc h => h.at_pc pc) hv hv' fun k hk hlock hrun ha i hi =>
      corresponds_of_replaces hv hv' h0 h1 hk hlock hrun ha hi
  rcases hrun with hrun | ⟨_, _, hfalse, -⟩
  · obtain ⟨o, ho, hhow⟩ : ∃ o, e.run.outcome? = some o ∧ o.halt = how := by
      rw [outcome?, hhalt]
      exact ⟨_, rfl, rfl⟩
    refine ⟨e', o, hs', ho, hhow, hrun.outcome?_eq.trans ho, ?_⟩
    rw [Machine.consumed, hrun.machine.primary.consumed, hrun.machine.auxiliary.consumed]
    rfl
  · exact hfalse.elim

/-- The usual execution of `Program.divideAll` halts at the second word of its tape, whatever comes
after it. -/
theorem divideAll_on_consumed :
    (divideAll [5, 0, 1]).run.status = .halted (.fault 3 .divideByZero) ∧
      ∃ e o, start .divideAll (.ofParams Program.divideAll.params) [5, 0, 7, 9] [] = .ok e ∧
        (divideAll [5, 0, 1]).run.outcome? = some o ∧ e.run.outcome? = some o := by
  have hhalt : (divideAll [5, 0, 1]).run.status = .halted (.fault 3 .divideByZero) := rfl
  have hnever : ¬ ∃ k, (step^[k] (divideAll [5, 0, 1])).FindsEnd 0 := by
    rintro ⟨k, hrunning, _, _, t, -, -, ht, hend⟩
    have hleft : ∀ k < 8, (step^[k] (divideAll [5, 0, 1])).machine.primary.remaining ≠ [] := by
      decide +kernel
    have hk : k < 8 := by
      by_contra hge
      exact absurd (running_of_le (Nat.not_lt.1 hge) hrunning) (by decide +kernel)
    cases ht
    exact hleft k hk hend
  have hprimary : (divideAll [5, 0, 1]).Replaces 0
      (divideAll [5, 0, 1]).run.machine.primary.consumed [5, 0, 1] [5, 0, 7, 9] :=
    ⟨rfl, fun h => absurd h hnever⟩
  have hauxiliary : (divideAll [5, 0, 1]).Replaces 1
      (divideAll [5, 0, 1]).run.machine.auxiliary.consumed [] [] :=
    ⟨rfl, fun _ => rfl⟩
  obtain ⟨e, o, hs, ho, -, hsame, -⟩ :=
    halts_alike_on_consumed Program.assemble_divideAllText (start_divideAll [5, 0, 1]) hhalt
      hprimary hauxiliary
  exact ⟨hhalt, e, o, hs, ho, hsame⟩

end Execution
end WordRam
