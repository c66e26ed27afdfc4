import WordRam.Proofs.Execution.Trajectory
import WordRam.Proofs.Transcript.Binding

/-!
# What a transcript absorbs

Recording an execution takes it through the steps up to the one that halts it, which is a step in
vain if it has halted before. The transcript is fed the state after each of them, and no other
(`passed_eq_states`). How a state is written is said by `Machine.Encoded`, for each number by the
number that its bytes make up. Main statement: `record_absorbs`. It counts one state for each
instruction that was executed, and one more if the step that halted the execution executed none.
-/

namespace WordRam

/-- The bytes are the eight bytes of a number, the highest first. -/
def BigEndian (n : Nat) (bytes : List UInt8) : Prop :=
  bytes.length = 8 ∧ Nat.ofDigits (2 ^ 8) (bytes.reverse.map UInt8.toNat) = n

/-- How the state of a machine is written: its program counter, a byte for the flag, its registers,
and the words of memory that are not zero, by increasing index and each after its index. -/
inductive Machine.Encoded (m : Machine) : List UInt8 → Prop
  | intro {pc : List UInt8} {registers : List (List UInt8)} {entries : List (Nat × Nat)}
      {words : List (List UInt8 × List UInt8)} (hpc : BigEndian m.pc pc)
      (hregisters : List.Forall₂ BigEndian m.registers.toList registers)
      (hincreasing : entries.Pairwise (·.1 < ·.1))
      (hentries : ∀ i v, (i, v) ∈ entries ↔ v ≠ 0 ∧ m.memory.readWord i = .ok v)
      (hwords : List.Forall₂ (fun entry word => BigEndian entry.1 word.1 ∧ BigEndian entry.2 word.2)
        entries words) :
      m.Encoded (pc ++ (if m.flag then 1 else 0) :: registers.flatten ++
        words.flatMap fun word => word.1 ++ word.2)

/-- The number of steps in which so many instructions are executed, if the last step halts so: it may
have executed none. -/
def Halt.stepsFor (executed : Nat) : Halt → Nat
  | .fault _ .pcOutOfBounds | .fault _ (.stepLimit _) => executed + 1
  | _ => executed

theorem Halt.stepsFor_counted (how : Halt) (j : Nat) :
    how.stepsFor (j + how.counted) = j + 1 := by
  cases how with
  | answer code => rfl
  | fault pc cause => cases cause <;> rfl

theorem bigEndian_numberBytes {n : Nat} (h : n < 2 ^ 64) : BigEndian n (numberBytes n) := by
  refine ⟨length_numberBytes n, ?_⟩
  rw [List.map_reverse, toNat_numberBytes, List.reverse_reverse]
  exact ofDigits_bytesOf (n := 8) h

theorem forall₂_map_self {α β : Type} {R : α → β → Prop} {f : α → β} {as : List α}
    (h : ∀ a ∈ as, R a (f a)) : List.Forall₂ R as (as.map f) :=
  List.forall₂_map_right_iff.2 (List.forall₂_same.2 h)

theorem Memory.Valid.mem_words_iff {c : Config} {w : Width} {m : Memory} (h : m.Valid c w)
    {i v : Nat} : (i, v) ∈ m.words ↔ v ≠ 0 ∧ m.readWord i = .ok v := by
  rw [words, Cells.mem_entries_iff, readWord, h.limit]
  by_cases hi : i < c.memoryWords
  · simp [hi, and_comm]
  · have hzero := h.outside i (Nat.not_lt.1 hi)
    simp only [hzero, if_neg hi, reduceCtorEq, and_false, iff_false]
    rintro ⟨rfl, hne⟩
    exact hne rfl

namespace Execution

variable {p : Program} {c : Config} {w : Width} {tapes : List Nat × List Nat} {e : Execution}
variable {t : Transcript} {how : Halt} {k : Nat}

theorem Valid.encoded (h : e.Valid p c w tapes) (hp : p.instructions.size < 2 ^ 64)
    (hc : c.memoryWords < 2 ^ 64) : e.machine.Encoded e.machine.snapshot.bytes := by
  have hfits := h.fits_snapshot hp hc
  have hregisters : List.Forall₂ BigEndian e.machine.registers.toList
      (e.machine.registers.toList.map numberBytes) :=
    forall₂_map_self fun v hv => bigEndian_numberBytes (hfits.registers v hv)
  have hmemory : List.Forall₂ (fun entry word => BigEndian entry.1 word.1 ∧ BigEndian entry.2 word.2)
      e.machine.memory.words
      (e.machine.memory.words.map fun entry => (numberBytes entry.1, numberBytes entry.2)) := by
    refine forall₂_map_self fun entry he => ?_
    obtain ⟨hindex, hword⟩ := hfits.memory entry he
    exact ⟨bigEndian_numberBytes hindex, bigEndian_numberBytes hword⟩
  have hencoded := Machine.Encoded.intro (bigEndian_numberBytes hfits.pc) hregisters
    e.machine.memory.cells.sparse.1 (fun _ _ => h.machine.memory.mem_words_iff) hmemory
  have hflag : e.machine.flag.toUInt8 = if e.machine.flag then 1 else 0 := by
    cases e.machine.flag <;> rfl
  rw [← hflag, ← List.flatMap_def, List.flatMap_map] at hencoded
  exact hencoded

/-- The first of some steps to leave the execution halted is the last of them. It is the first step
of all if the execution has halted before. -/
structure HaltsAt (e : Execution) (k : Nat) (how : Halt) : Prop where
  pos : 0 < k
  halted : (step^[k] e).status = .halted how
  before : ∀ j, 0 < j → j < k → (step^[j] e).status = .running

theorem HaltsAt.succ {j : Nat} (hrun : (step^[j] e).status = .running)
    (hstep : (step^[j] e).step.status = .halted how) : HaltsAt e (j + 1) how where
  pos := Nat.succ_pos j
  halted := by rw [Function.iterate_succ_apply']; exact hstep
  before _ _ hlt := running_of_le (Nat.le_of_lt_succ hlt) hrun

theorem HaltsAt.one (h : e.status = .halted how) : HaltsAt e 1 how where
  pos := Nat.one_pos
  halted := by rw [Function.iterate_one, step_of_not_running (not_running_of_halted h), h]
  before j hpos hlt := by omega

theorem HaltsAt.unique {j : Nat} {how' : Halt} (h : HaltsAt e j how) (h' : HaltsAt e k how') :
    j = k := by
  rcases Nat.lt_trichotomy j k with hlt | heq | hlt
  · exact absurd (h'.before j h.pos hlt) (not_running_of_halted h.halted)
  · exact heq
  · exact absurd (h.before k h'.pos hlt) (not_running_of_halted h'.halted)

theorem passed_eq_states {fuel : Nat} (h : HaltsAt e k how) (hk : k ≤ fuel) :
    passed fuel e = (e.states k).map (·.machine) := by
  induction k generalizing e fuel with
  | zero => exact absurd h.pos (Nat.lt_irrefl 0)
  | succ k ih =>
    obtain ⟨fuel, rfl⟩ := Nat.exists_eq_succ_of_ne_zero (Nat.ne_zero_of_lt hk)
    rw [passed, states_succ, List.map_cons]
    congr 1
    rcases Nat.eq_zero_or_pos k with rfl | hpos
    · have hhalted : e.step.status = .halted how := h.halted
      rw [if_neg (not_running_of_halted hhalted)]
      rfl
    · have hrun : e.step.status = .running := h.before 1 Nat.one_pos (Nat.succ_lt_succ hpos)
      have hrest : HaltsAt e.step k how :=
        ⟨hpos, h.halted, fun j hj hlt => h.before (j + 1) (Nat.succ_pos j) (Nat.succ_lt_succ hlt)⟩
      rw [if_pos hrun, ih hrest (Nat.le_of_succ_le_succ hk)]

theorem Valid.encoded_states (h : e.Valid p c w tapes) (hp : p.instructions.size < 2 ^ 64)
    (hc : c.memoryWords < 2 ^ 64) (k : Nat) :
    List.Forall₂ (fun after bytes => after.machine.Encoded bytes) (e.states k)
      ((e.states k).map fun after => after.machine.snapshot.bytes) := by
  refine forall₂_map_self fun after hmem => ?_
  obtain ⟨j, -, rfl⟩ := List.mem_map.1 hmem
  exact (h.iterate (j + 1)).encoded hp hc

/-- Recording `e` into `t` takes `k` steps and absorbs the state after each of them. -/
structure Absorbs (t : Transcript) (e : Execution) (k : Nat) (how : Halt) : Prop where
  halts : HaltsAt e k how
  reached : (t.record e).1 = step^[k] e
  fed : ∃ chunks, List.Forall₂ (fun after bytes => after.machine.Encoded bytes) (e.states k) chunks ∧
    (t.record e).2.fed.toList = t.fed.toList ++ chunks.flatten
  states : (t.record e).2.states = t.states + k
  running : e.status = .running → ∃ executed, (t.record e).1.steps = e.steps + executed ∧
    k = how.stepsFor executed
  /-- An execution that has halted before executes nothing more. -/
  stopped : e.status ≠ .running → (t.record e).1.steps = e.steps ∧ k = 1

theorem Valid.absorbs (hv : e.Valid p c w tapes) (hp : p.instructions.size < 2 ^ 64)
    (hc : c.memoryWords < 2 ^ 64) (hhalts : HaltsAt e k how) (hk : k ≤ e.fuel)
    (hreached : (t.record e).1 = Execution.step^[k] e) : Absorbs t e k how := by
  obtain ⟨hfed, hstates⟩ := fed_record e t
  have hrecorded : e.recorded = (e.states k).map fun after => after.machine.snapshot := by
    rw [recorded, passed_eq_states hhalts hk, List.map_map]
    rfl
  refine ⟨hhalts, hreached, ⟨(e.states k).map fun after => after.machine.snapshot.bytes, ?_, ?_⟩,
    ?_, ?_, ?_⟩
  · exact hv.encoded_states hp hc k
  · rw [hfed, hrecorded, List.flatMap_map, List.flatMap_def]
  · rw [hstates, hrecorded]
    simp [Execution.states]
  · intro hrun
    obtain ⟨j, hj, hrunning, hstep, hsteps⟩ := hv.last_step hrun hhalts.halted
    have hlast : k = j + 1 := by
      -- after a later step the execution would not have been running before
      by_contra hne
      have hbefore := hhalts.before (j + 1) (Nat.succ_pos j) (by omega)
      rw [Function.iterate_succ_apply', hstep, hhalts.halted] at hbefore
      cases hbefore
    refine ⟨j + how.counted, ?_, ?_⟩
    · rw [hreached, hsteps, Nat.add_assoc]
    · rw [hlast, Halt.stepsFor_counted]
  · intro hnot
    refine ⟨by rw [hreached, iterate_of_not_running hnot], ?_⟩
    by_contra hne
    have hpos := hhalts.pos
    exact hnot (running_of_step (hhalts.before 1 Nat.one_pos (by omega)))

variable {source : String} {given : Option Params} {tape0 tape1 : List Nat}

/-- Whatever has been asked of an execution before, recording it halts it where stepping does, if
64 bits can count the instructions until then. The transcript absorbs the state after every step up
to that one. -/
theorem record_absorbs (hp : Program.assemble source given = .ok p)
    (hs : start p c tape0 tape1 = .ok e) (hsize : p.instructions.size < 2 ^ 64)
    (hwords : c.memoryWords < 2 ^ 64) (calls : List Call) (t : Transcript) :
    (∀ k, (step^[k] (e.after calls)).status ≠ .running →
      (step^[k] (e.after calls)).steps < 2 ^ 64 →
      (t.record (e.after calls)).1 = step^[k] (e.after calls)) ∧
    ∀ how, (t.record (e.after calls)).1.status = .halted how →
      ∃ k, Absorbs t (e.after calls) k how := by
  obtain ⟨w, -, hv⟩ := valid_after hp hs
  have hvalid := hv calls
  generalize e.after calls = e at hvalid
  rw [record_eq_run]
  by_cases hrun : e.status = .running
  · refine ⟨fun k hnot hlt => run_eq_of_halted hrun hnot hlt, fun how hhow => ?_⟩
    rw [run_eq_iterate] at hhow
    obtain ⟨j, hj, hrunning, hstep, -⟩ := hvalid.last_step hrun hhow
    refine ⟨j + 1, hvalid.absorbs hsize hwords (.succ hrunning (by rw [hstep, hhow])) hj ?_⟩
    rw [record_eq_run, run_eq_iterate, ← hstep, Function.iterate_succ_apply']
  · have hsame (k : Nat) : step^[k] e = e := iterate_of_not_running hrun k
    have hend : e.run = e := by rw [run_eq_iterate, hsame]
    refine ⟨fun k _ _ => by rw [hend, hsame], fun how hhow => ?_⟩
    rw [hend] at hhow
    have hfuel : 1 ≤ e.fuel := by
      unfold fuel
      split <;> omega
    exact ⟨1, hvalid.absorbs hsize hwords (.one hhow) hfuel (by rw [record_eq_run, hend, hsame])⟩

/-- The usual execution of `Program.divideAll` executes five more instructions after the first three,
and the last of them faults. -/
theorem record_absorbs_divideAll :
    Program.divideAll.instructions.size < 2 ^ 64 ∧
      (Config.ofParams Program.divideAll.params).memoryWords < 2 ^ 64 ∧
      ((divideAll [5, 0]).after [.step, .step, .step]).steps = 3 ∧
      (({ states := 2 } : Transcript).record
        ((divideAll [5, 0]).after [.step, .step, .step])).1.status =
          .halted (.fault 3 .divideByZero) ∧
      (({ states := 2 } : Transcript).record
        ((divideAll [5, 0]).after [.step, .step, .step])).2.states = 2 + 5 ∧
      ∃ k, Absorbs { states := 2 } ((divideAll [5, 0]).after [.step, .step, .step]) k
        (.fault 3 .divideByZero) := by
  have hhalted : (({ states := 2 } : Transcript).record
      ((divideAll [5, 0]).after [.step, .step, .step])).1.status =
        .halted (.fault 3 .divideByZero) := rfl
  obtain ⟨-, habsorbs⟩ := record_absorbs Program.assemble_divideAllText (start_divideAll [5, 0])
    (by decide) (by decide) [.step, .step, .step] { states := 2 }
  exact ⟨by decide, by decide, rfl, hhalted, rfl, habsorbs _ hhalted⟩

end Execution
end WordRam
