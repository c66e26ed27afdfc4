import WordRam.Proofs.Execution.InBounds
import WordRam.Proofs.Execution.Similar
import WordRam.Proofs.Transcript.Bytes

/-!
# What a transcript binds

A transcript is fed the states that an execution passes through (`fed_record`). Nothing in the bytes
says where a state ends, so equal bytes mean equal states only as far as the sizes of the states
agree: main statement `transcript_binds`. Two executions of a program in a configuration agree on
them, whatever their tapes, as long as they have passed through the same states, since only a read
looks at a tape and a read leaves memory as it is (`Similar.step`). But one machine with many
registers can feed what another with few feeds in several steps (`transcript_ambiguous`).
-/

namespace WordRam
namespace Execution

/-- The machines that an execution passes through, step by step. -/
def passed : Nat → Execution → List Machine
  | 0, _ => []
  | fuel + 1, e =>
    e.step.machine :: if e.step.status = .running then passed fuel e.step else []

/-- The states that a transcript of an execution records. -/
def recorded (e : Execution) : List Snapshot :=
  (passed e.fuel e).map Machine.snapshot

variable {e a b : Execution} {t : Transcript}

theorem fed_record (e : Execution) (t : Transcript) :
    (t.record e).2.fed.toList = t.fed.toList ++ e.recorded.flatMap Snapshot.bytes ∧
      (t.record e).2.states = t.states + e.recorded.length := by
  unfold Transcript.record recorded
  generalize e.fuel = fuel
  induction fuel generalizing e t with
  | zero => simp [drive, passed]
  | succ fuel ih =>
    have hfed : (t.feedState e.step.machine).fed.toList =
        t.fed.toList ++ e.step.machine.snapshot.bytes := by
      simp [Transcript.feedState, Machine.bytes_eq]
    have hstates : (t.feedState e.step.machine).states = t.states + 1 := rfl
    rw [drive_succ, passed]
    by_cases hrun : e.step.status = .running
    · obtain ⟨ihfed, ihstates⟩ := ih e.step (t.feedState e.step.machine)
      simp only [hrun, ne_eq, not_true_eq_false, decide_false, Bool.or_false, Bool.false_eq_true,
        if_false, if_true, List.map_cons, List.flatMap_cons, List.length_cons]
      refine ⟨?_, ?_⟩
      · rw [ihfed, hfed, List.append_assoc]
      · rw [ihstates, hstates]
        omega
    · simp [hrun, hfed, hstates]

theorem eq_of_bytes {as bs : List Snapshot} (ha : ∀ s ∈ as, s.Fits) (hb : ∀ s ∈ bs, s.Fits)
    (hshape : as.map Snapshot.shape = bs.map Snapshot.shape)
    (h : as.flatMap Snapshot.bytes = bs.flatMap Snapshot.bytes) : as = bs := by
  induction as generalizing bs with
  | nil => exact (List.map_eq_nil_iff.1 hshape.symm).symm
  | cons s as ih =>
    cases bs with
    | nil => cases hshape
    | cons s' bs =>
      simp only [List.map_cons, List.cons.injEq, List.forall_mem_cons, List.flatMap_cons]
        at ha hb hshape h
      obtain ⟨rfl, hrest⟩ := Snapshot.splits _ ⟨hshape.1, ha.1⟩ ⟨rfl, hb.1⟩ h
      rw [ih ha.2 hb.2 hshape.2 hrest]

variable {p q : Program} {c d : Config} {w : Width} {tapes tapes' : List Nat × List Nat}

theorem Valid.fits_snapshot (h : e.Valid p c w tapes) (hp : p.instructions.size < 2 ^ 64)
    (hc : c.memoryWords < 2 ^ 64) : e.machine.snapshot.Fits := by
  have hsize := w.size_le
  refine ⟨?_, ?_, ?_⟩
  · have hpc := h.pc
    show e.machine.pc < 2 ^ 64
    omega
  · intro v hv
    obtain ⟨r, hr, rfl⟩ := Array.mem_iff_getElem.1 (Array.mem_toList_iff.1 hv)
    have hreg := h.machine.reg r
    rw [Machine.reg, Array.getElem?_eq_getElem hr] at hreg
    exact Nat.lt_of_lt_of_le hreg hsize
  · rintro ⟨i, v⟩ hentry
    obtain ⟨hget, hne⟩ := Cells.mem_entries_iff.1 hentry
    have hword := h.machine.memory.word i
    have hindex : i < c.memoryWords := by
      by_contra hge
      exact hne (hget ▸ h.machine.memory.outside i (Nat.not_lt.1 hge))
    rw [show (e.machine.memory.cells.get i) = v from hget] at hword
    exact ⟨by omega, by omega⟩

theorem Valid.fits_passed (h : e.Valid p c w tapes) (hp : p.instructions.size < 2 ^ 64)
    (hc : c.memoryWords < 2 ^ 64) (fuel : Nat) :
    ∀ s ∈ (passed fuel e).map Machine.snapshot, s.Fits := by
  induction fuel generalizing e with
  | zero => simp [passed]
  | succ fuel ih =>
    have hstep := h.step
    rw [passed, List.map_cons, List.forall_mem_cons]
    refine ⟨hstep.fits_snapshot hp hc, ?_⟩
    split
    · exact ih hstep
    · simp

theorem Similar.shape (h : a.Similar b) :
    b.machine.snapshot.shape = a.machine.snapshot.shape := by
  have hregisters : b.machine.registers.toList.length = a.machine.registers.toList.length :=
    h.machine.size
  simp only [Snapshot.shape, Machine.snapshot, hregisters, h.machine.memory]

/-- The first state of the rest has the same shape in both executions, so its bytes tell it; from the
same state, the executions go on with states of the same shape. -/
theorem Similar.passed_eq (h : a.Similar b) (ha : a.Valid p c w tapes) (hb : b.Valid p c w tapes')
    (hregisters : b.machine.registers = a.machine.registers)
    (hflag : b.machine.flag = a.machine.flag) (hp : p.instructions.size < 2 ^ 64)
    (hc : c.memoryWords < 2 ^ 64) {fuel : Nat}
    (hfed : ((passed fuel a).map Machine.snapshot).flatMap Snapshot.bytes =
      ((passed fuel b).map Machine.snapshot).flatMap Snapshot.bytes) :
    (passed fuel a).map Machine.snapshot = (passed fuel b).map Machine.snapshot := by
  induction fuel generalizing a b with
  | zero => rfl
  | succ fuel ih =>
    have hstep := h.step ha hregisters hflag
    have hfits := ha.step.fits_snapshot hp hc
    have hfits' := hb.step.fits_snapshot hp hc
    simp only [passed, List.map_cons, List.flatMap_cons] at hfed ⊢
    -- the first states have the same shape, so their bytes can be cut off
    obtain ⟨hstate, hrest⟩ := Snapshot.splits _ ⟨rfl, hfits⟩ ⟨hstep.shape, hfits'⟩ hfed
    have hregisters' : b.step.machine.registers = a.step.machine.registers :=
      (Array.toList_inj.1 (congrArg Snapshot.registers hstate)).symm
    have hflag' : b.step.machine.flag = a.step.machine.flag :=
      (congrArg Snapshot.flag hstate).symm
    rw [hstate]
    rw [hstep.status] at hrest ⊢
    by_cases hrun : a.step.status = .running
    · simp only [hrun, if_true] at hrest ⊢
      rw [ih hstep ha.step hb.step hregisters' hflag' hrest]
    · simp only [hrun, if_false, List.map_nil]

variable {source source' : String} {given given' : Option Params}
variable {tape0 tape1 tape0' tape1' : List Nat}

/-- Executions that feed the same to a transcript have passed through the same states if these have
the same sizes, one by one, or if they are executions of one program in one configuration. -/
theorem transcript_binds (hp : Program.assemble source given = .ok p)
    (hq : Program.assemble source' given' = .ok q) (ha : start p c tape0 tape1 = .ok a)
    (hb : start q d tape0' tape1' = .ok b) (hpsize : p.instructions.size < 2 ^ 64)
    (hqsize : q.instructions.size < 2 ^ 64) (hcwords : c.memoryWords < 2 ^ 64)
    (hdwords : d.memoryWords < 2 ^ 64) (hfed : (t.record a).2.fed = (t.record b).2.fed) :
    (a.recorded.map Snapshot.shape = b.recorded.map Snapshot.shape → a.recorded = b.recorded) ∧
      (p = q → c = d → a.recorded = b.recorded) := by
  obtain ⟨w, hw, hva⟩ := Valid.start (Program.within_of_assemble hp) ha
  obtain ⟨w', hw', hvb⟩ := Valid.start (Program.within_of_assemble hq) hb
  have hbytes : a.recorded.flatMap Snapshot.bytes = b.recorded.flatMap Snapshot.bytes := by
    rw [← List.append_cancel_left_eq t.fed.toList, ← (fed_record a t).1, ← (fed_record b t).1, hfed]
  refine ⟨fun hshape => ?_, ?_⟩
  · exact eq_of_bytes (hva.fits_passed hpsize hcwords _) (hvb.fits_passed hqsize hdwords _)
      hshape hbytes
  · rintro rfl rfl
    obtain ⟨hsimilar, hregisters, hflag⟩ := Similar.of_start ha hb
    cases hw.symm.trans hw'
    unfold recorded at hbytes ⊢
    rw [hsimilar.fuel] at hbytes ⊢
    exact hsimilar.passed_eq hva hvb hregisters hflag hpsize hcwords hbytes

/-- The usual execution of `Program.divideAll` halts before it reads the third word of its tape. -/
theorem transcript_binds_divideAll :
    (({} : Transcript).record (divideAll [5, 0, 1])).2.fed =
        (({} : Transcript).record (divideAll [5, 0, 2])).2.fed ∧
      (divideAll [5, 0, 1]).recorded = (divideAll [5, 0, 2]).recorded := by
  have hfed : (({} : Transcript).record (divideAll [5, 0, 1])).2.fed =
      (({} : Transcript).record (divideAll [5, 0, 2])).2.fed := by
    rw [← Array.toList_inj, (fed_record _ _).1, (fed_record _ _).1]
    decide +kernel
  obtain ⟨-, hsame⟩ := transcript_binds Program.assemble_divideAllText
    Program.assemble_divideAllText (start_divideAll [5, 0, 1]) (start_divideAll [5, 0, 2])
    (by decide) (by decide) (by decide) (by decide) hfed
  exact ⟨hfed, hsame rfl rfl⟩

/-- A source text that jumps to where it is. -/
def loopText : String :=
  "; TinyRAM V=1.000 W=16 K=1
     jmp 0"

/-- The program that `loopText` is. -/
def loopProgram : Program where
  params := { dialect := .v1, memory := .flat, wordBits := 16, registers := 1 }
  instructions := #[.jump .always (.imm 0)]
  labels := #[]
  lines := #[2]

def loopConfig (registers limit : Nat) : Config :=
  { Config.ofParams { loopProgram.params with registers } with stepLimit := some limit }

def looping (registers limit : Nat) : Execution where
  program := loopProgram
  config := loopConfig registers limit
  machine := .start ⟨16, by decide, by decide⟩ (loopConfig registers limit) [] []
  journal := #[.started (loopConfig registers limit).params 0 0]

/-- Nine states of a machine with one register are as many zeros as one state of a machine with
eighteen. -/
theorem transcript_ambiguous :
    Program.assemble loopText none = .ok loopProgram ∧
      start loopProgram (loopConfig 1 8) [] [] = .ok (looping 1 8) ∧
      start loopProgram (loopConfig 18 0) [] [] = .ok (looping 18 0) ∧
      (({} : Transcript).record (looping 1 8)).2.fed =
        (({} : Transcript).record (looping 18 0)).2.fed ∧
      (looping 1 8).recorded ≠ (looping 18 0).recorded := by
  have hassemble : Program.assemble loopText none = .ok loopProgram := by cbv
  have hfed : (({} : Transcript).record (looping 1 8)).2.fed =
      (({} : Transcript).record (looping 18 0)).2.fed := by
    rw [← Array.toList_inj, (fed_record _ _).1, (fed_record _ _).1]
    rfl
  exact ⟨hassemble, rfl, rfl, hfed, by decide⟩

end Execution
end WordRam
