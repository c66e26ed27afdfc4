import WordRam.Proofs.Checked.Machine
import WordRam.Proofs.Execution.Valid

/-!
# Executions in checked arithmetic

`Checked.start` and `Checked.after` start an execution and ask it for things with everything that
can crash in its place: the width of the words, the instructions, the program counter, the count of
instructions and the count of states in a transcript. Starting crashes for no configuration
(`Checked.start_eq`). A valid execution that is asked for anything does not crash as long as the
program counter and the counts fit into 64 bits (`Checked.after_eq`).
-/

namespace WordRam
namespace Checked

/-- Whether parameters are within bounds. -/
def check (p : Params) : Except HeaderError Unit :=
  if ¬ (1 ≤ p.wordBits ∧ p.wordBits ≤ 64) then .error (.wordBits p.wordBits)
  else if ¬ (1 ≤ p.registers ∧ p.registers ≤ maxRegisters) then .error (.registers p.registers)
  else .ok ()

/-- The width of so many bits, which has its arithmetic. -/
def width (bits : Nat) : Checked Width := do
  let _ ← Alu.new bits
  match Width.ofNat? bits with
  | some w => return w
  | none => throw (.width bits)

def configOf (p : Params) : Checked Config := do
  return { params := p, memoryWords := ← shl 64 1 (min p.wordBits 16) }

def start (p : Program) (c : Config) (tape0 tape1 : List Nat) :
    Checked (Except Refusal Execution) :=
  match check c.params with
  | .error e => return .error (.params e)
  | .ok () =>
    if c.params.registers < p.params.registers then
      return .error (.registers p.params.registers c.params.registers)
    else match p.instructions.find? fun i => !c.params.dialect.allows i.opcode with
      | some i => return .error (.dialect i.opcode c.params.dialect)
      | none =>
        if c.memoryWords < c.preload.length then
          return .error (.preload c.preload.length c.memoryWords)
        else do
          let w ← width c.params.wordBits
          return .ok {
            program := p
            config := c
            machine := .start w c tape0 tape1
            journal := #[.started c.params tape0.length tape1.length] }

theorem width_of_check {p : Params} : p.width = (check p).bind fun _ =>
    match Width.ofNat? p.wordBits with
    | some w => .ok w
    | none => .error (.wordBits p.wordBits) := by
  unfold Params.width check Width.ofNat?
  by_cases hb : 1 ≤ p.wordBits ∧ p.wordBits ≤ 64
  · by_cases hr : 1 ≤ p.registers ∧ p.registers ≤ maxRegisters <;> simp [hb, hr, Except.bind]
  · simp [hb, Except.bind]

theorem width_eq {bits : Nat} {w : Width} (h : Width.ofNat? bits = some w) :
    width bits = pure w := by
  simp only [width, Width.new_alu, h, pure_bind]

theorem ofNat?_of_check {p : Params} (h : check p = .ok ()) :
    ∃ w, Width.ofNat? p.wordBits = some w := by
  unfold check at h
  split at h
  · cases h
  · next hb => exact ⟨⟨p.wordBits, by omega, by omega⟩, by simpa [Width.ofNat?] using hb⟩

theorem configOf_eq (p : Params) : configOf p = pure (.ofParams p) := by
  have hn : min p.wordBits 16 < 64 := Nat.lt_of_le_of_lt (Nat.min_le_right _ _) (by decide)
  have hpow : 1 * 2 ^ min p.wordBits 16 < 2 ^ 64 := by
    rw [Nat.one_mul]; exact Nat.pow_lt_pow_right (by decide) hn
  rw [configOf, shl_eq hn, pure_bind, Nat.mod_eq_of_lt hpow, Nat.one_mul]
  rfl

/-- Whatever the configuration, starting an execution does not crash. -/
theorem start_eq (p : Program) (c : Config) (tape0 tape1 : List Nat) :
    start p c tape0 tape1 = pure (Execution.start p c tape0 tape1) := by
  unfold start Execution.start Config.accept
  rw [width_of_check]
  cases hc : check c.params with
  | error e => rfl
  | ok u =>
    obtain ⟨w, hw⟩ := ofNat?_of_check hc
    simp only [hw, Except.bind, width_eq hw, pure_bind]
    by_cases hr : c.params.registers < p.params.registers
    · simp only [if_pos hr]; rfl
    · simp only [if_neg hr]
      cases p.instructions.find? fun i => !c.params.dialect.allows i.opcode with
      | some i => rfl
      | none =>
        by_cases hp : c.memoryWords < c.preload.length
        · simp only [if_pos hp]; rfl
        · simp only [if_neg hp]; rfl

def step (e : Execution) : Checked Execution :=
  match e.status with
  | .running =>
    match e.fetch with
    | .error cause => return e.halt (.fault e.machine.pc cause)
    | .ok i => do
      let steps ← add 64 e.steps 1
      let e' := { e.count i with steps }
      match ← effect e.machine e.config.wide i with
      | .ok (m, .step) => return e'.resume m (← add 64 e.machine.pc 1)
      | .ok (m, .goto target) => return e'.resume m target
      | .ok (m, .answer code) => return { e' with machine := m }.halt (.answer code)
      | .error cause => return e'.halt (.fault e.machine.pc cause)
  | _ => return e

def drive {σ : Type} (visit : Execution → σ → Checked (Bool × σ)) :
    Nat → Execution → σ → Checked (Execution × σ)
  | 0, e, s => return (e, s)
  | fuel + 1, e, s => do
    let e ← step e
    let (stop, s) ← visit e s
    if stop || e.status ≠ .running then return (e, s) else drive visit fuel e s

/-- Feeds the state of a machine to a transcript. -/
def feedState (t : Transcript) (m : Machine) : Checked Transcript := do
  return { t.feedState m with states := ← add 64 t.states 1 }

def call (e : Execution) : Call → Checked Execution
  | .step => step e
  | .run => do return (← drive (fun _ _ => return (false, ())) e.fuel e ()).1
  | .runUntil stop s => do
    return (← drive (fun e s => return if e.status = .running then stop e s else (false, s))
      e.fuel e s).1
  | .record t => do
    return (← drive (fun e t => do return (false, ← feedState t e.machine)) e.fuel e t).1
  | .restart tape0 tape1 => do
    let _ ← width e.config.params.wordBits
    return e.restart tape0 tape1

def after (e : Execution) (calls : List Call) : Checked Execution :=
  calls.foldlM call e

/-- What has not been read of a tape: a part of its words. -/
def remaining (t : Tape) : Checked (List Nat) :=
  if t.consumed ≤ t.words.size then return t.remaining else throw (.index t.consumed t.words.size)

theorem remaining_eq {t : Tape} (h : t.consumed ≤ t.words.size) :
    remaining t = pure t.remaining := if_pos h

/-! ### No crash -/

variable {p : Program} {c : Config} {w : Width} {tapes : List Nat × List Nat} {e : Execution}

theorem step_eq (h : e.Valid p c w tapes) (hp : p.instructions.size < 2 ^ 64)
    (hs : e.step.steps < 2 ^ 64) : step e = pure e.step := by
  rcases Classical.em (e.status = .running) with hrun | hrun
  · rw [Execution.step_of_running hrun] at hs ⊢
    simp only [step, hrun]
    cases hf : e.fetch with
    | error cause => rfl
    | ok i =>
      rw [hf] at hs
      have hi := Execution.fetch_ok hf
      have hsteps : e.steps + 1 < 2 ^ 64 := by rwa [Execution.perform_steps] at hs
      -- the instruction is one of the program, so the next address can be counted
      have hwithin : i.Within e.machine.registers.size := by
        rw [h.machine.size]; exact h.within i (h.program ▸ Array.mem_of_getElem? hi)
      have hpc : e.machine.pc + 1 < 2 ^ 64 := by
        have hlt := (Array.getElem?_eq_some_iff.1 hi).1
        rw [h.program] at hlt
        omega
      simp only [add_eq hsteps, pure_bind, effect_eq h.machine hwithin, add_eq hpc,
        Execution.perform_count h.machine.memory.sized hwithin]
      rcases e.machine.effect e.config.wide i with cause | ⟨m, _ | target | code⟩ <;> rfl
  · rw [Execution.step_of_not_running hrun]
    unfold step
    split
    · exact absurd ‹_› hrun
    · rfl

theorem not_bad_of_drive {σ : Type} {visit : Execution → σ → Bool × σ} {bad : σ → Prop}
    (hbad : ∀ e s, bad s → bad (visit e s).2) {fuel : Nat} {s : σ}
    (h : ¬ bad (Execution.drive visit fuel e s).2) : ¬ bad s := by
  intro hs
  refine h ?_
  clear h
  induction fuel generalizing e s with
  | zero => exact hs
  | succ fuel ih =>
    rw [Execution.drive_succ]
    split
    · exact hbad e.step s hs
    · exact ih (hbad e.step s hs)

/-- Driving does not crash if looking at a state crashes only where what is kept turns bad, and what
is bad stays bad. -/
theorem drive_eq {σ : Type} (bad : σ → Prop) {visit : Execution → σ → Checked (Bool × σ)}
    {visit' : Execution → σ → Bool × σ}
    (hvisit : ∀ e s, ¬ bad (visit' e s).2 → visit e s = pure (visit' e s))
    (hbad : ∀ e s, bad s → bad (visit' e s).2) (hp : p.instructions.size < 2 ^ 64)
    (h : e.Valid p c w tapes) {fuel : Nat} {s : σ}
    (hs : (Execution.drive visit' fuel e s).1.steps < 2 ^ 64)
    (hg : ¬ bad (Execution.drive visit' fuel e s).2) :
    drive visit fuel e s = pure (Execution.drive visit' fuel e s) := by
  -- the state of the visitor turns bad for good, so it has not been bad before
  induction fuel generalizing e s with
  | zero => rfl
  | succ fuel ih =>
    rw [Execution.drive_succ] at hs hg ⊢
    rw [drive]
    split at hs
    · next hstop =>
      rw [if_pos hstop] at hg
      rw [step_eq h hp hs, pure_bind, hvisit _ _ hg, pure_bind]
      simp only [hstop, if_true]
    · next hstop =>
      rw [if_neg hstop] at hg
      have hstep := Nat.lt_of_le_of_lt (Execution.steps_le_drive _ _ _ _) hs
      rw [step_eq h hp hstep, pure_bind, hvisit _ _ (not_bad_of_drive hbad hg), pure_bind]
      simp only [hstop, Bool.false_eq_true, if_false]
      exact ih h.step hs hg

theorem feedState_eq {t : Transcript} {m : Machine} (h : (t.feedState m).states < 2 ^ 64) :
    feedState t m = pure (t.feedState m) := by
  rw [feedState, add_eq h]
  rfl

/-- No count that is kept for a call reaches `2 ^ 64`: neither the steps of the execution after it
nor the states in a transcript. -/
def Counted (e : Execution) (call : Call) : Prop :=
  (e.call call).steps < 2 ^ 64 ∧ ∀ t, call = .record t → (t.record e).2.states < 2 ^ 64

theorem call_eq (h : e.Valid p c w tapes) (hw : Width.ofNat? c.params.wordBits = some w)
    (hp : p.instructions.size < 2 ^ 64) {a : Call} (hc : Counted e a) :
    call e a = pure (e.call a) := by
  obtain ⟨hs, ht⟩ := hc
  cases a with
  | step => exact step_eq h hp hs
  | run =>
    have hd : drive (fun _ _ => pure (false, ())) e.fuel e () = _ :=
      drive_eq (fun _ => False) (fun _ _ _ => rfl) (fun _ _ => id) hp h hs id
    rw [call, hd]
    rfl
  | runUntil stop s =>
    have hd : drive (fun e s => pure (if e.status = .running then stop e s else (false, s)))
        e.fuel e s = pure (e.runUntil stop s) :=
      drive_eq (fun _ => False) (fun _ _ _ => rfl) (fun _ _ => id) hp h hs id
    rw [call, hd]
    rfl
  | record t =>
    -- the number of states is all that could overflow in a transcript
    have hd : drive (fun e t => do return (false, ← feedState t e.machine)) e.fuel e t =
        pure (t.record e) :=
      drive_eq (fun t => 2 ^ 64 ≤ t.states)
        (fun e t hlt => by rw [feedState_eq (Nat.not_le.1 hlt)]; rfl)
        (fun _ _ => Nat.le_succ_of_le) hp h hs (Nat.not_le.2 (ht t rfl))
    rw [call, hd]
    rfl
  | restart tape0 tape1 =>
    rw [call, h.config, width_eq hw, pure_bind]
    rfl

/-- The counts fit at each of the calls. -/
def AllCounted : Execution → List Call → Prop
  | _, [] => True
  | e, a :: calls => Counted e a ∧ AllCounted (e.call a) calls

theorem after_eq (h : e.Valid p c w tapes) (hw : Width.ofNat? c.params.wordBits = some w)
    (hp : p.instructions.size < 2 ^ 64) {calls : List Call} (hc : AllCounted e calls) :
    after e calls = pure (e.after calls) := by
  induction calls generalizing e tapes with
  | nil => rfl
  | cons a calls ih =>
    obtain ⟨ha, hrest⟩ := hc
    rw [after, List.foldlM_cons, call_eq h hw hp ha, pure_bind]
    exact ih (h.after [a]) hrest

end Checked
end WordRam
