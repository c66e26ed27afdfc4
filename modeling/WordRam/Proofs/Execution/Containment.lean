import WordRam.Proofs.Execution.LabelJump
import WordRam.Proofs.Machine.Frame

/-!
# Containment

A program that jumps to nothing but labels stays within itself. A label stands for an instruction or
for the end of the program (`Program.Renders.address_le_size`), on a machine that is narrower than
the program a jump lands at a smaller index yet, and what is no jump goes on to the next
instruction. So all that control can come to is an instruction or the end of the program
(`Program.bounded_size`), and not even the end if the last instruction does not go on and no jump
leads past it (`Program.bounded_last`). A bound that every instruction keeps holds in every state:
`Execution.Contained.of_transition`, and from there on the main statement, `contained_after`.
-/

namespace WordRam

/-- The instruction never goes on to the one after it. -/
def Instruction.Leaves : Instruction → Prop
  | .jump .always _ | .answer _ => True
  | _ => False

theorem Machine.following_ne_step {m : Machine} {i : Instruction} (h : i.Leaves) :
    m.following i ≠ .step := by
  unfold Instruction.Leaves at h
  split at h
  · exact nofun
  · exact nofun
  · exact h.elim

namespace Program

variable {source : String} {given : Option Params} {p : Program} {l : Label} {bound : Nat}

/-- Every jump names a label in the source text. -/
def JumpsToLabels (source : String) (p : Program) : Prop :=
  ∀ pc condition target, p.instructions[pc]? = some (.jump condition target) →
    ∃ name, NamesTarget source pc name

/-- The label is the one that some jump names. -/
def Targets (source : String) (p : Program) (l : Label) : Prop :=
  ∃ pc condition target name, p.instructions[pc]? = some (.jump condition target) ∧
    NamesTarget source pc name ∧ p.labels.find? (String.ofList name) = some l

/-- There is a last instruction, it never goes on to a next one, and no label that a jump names is
defined on a line after it. -/
structure Closed (source : String) (p : Program) : Prop where
  last : ∃ i, p.instructions.back? = some i ∧ i.Leaves
  labels : ∀ l n, p.Targets source l → p.line? (p.instructions.size - 1) = some n → ¬ n < l.line

/-- From an instruction, control comes no further than to `bound`. -/
structure Bounded (p : Program) (bound : Nat) : Prop where
  next : ∀ (pc : Nat) i, p.instructions[pc]? = some i → ¬ i.Leaves → pc + 1 ≤ bound
  target : ∀ (pc : Nat) condition target, p.instructions[pc]? = some (.jump condition target) →
    ∃ address ≤ bound, target = .imm address

theorem Renders.address (h : p.Renders source given) (hl : l ∈ p.labels) :
    l.address = (codeLines (numberedLines source)).countP fun before => before.2 < l.line := by
  have hm : l ∈ definedLabels (numberedLines source) := h.labels ▸ Array.mem_toList_iff.2 hl
  obtain ⟨line, -, rfl⟩ := List.mem_map.1 hm
  rfl

theorem Renders.address_le_size (h : p.Renders source given) (hl : l ∈ p.labels) :
    l.address ≤ p.instructions.size := by
  rw [h.address hl, h.size]
  exact List.countP_le_length

/-- An instruction that is not before a label is not counted in the label's address. -/
theorem Renders.address_lt_size (h : p.Renders source given) (hl : l ∈ p.labels) {pc n : Nat}
    (hline : p.line? pc = some n) (hn : ¬ n < l.line) : l.address < p.instructions.size := by
  refine Nat.lt_of_le_of_ne (h.address_le_size hl) fun heq => ?_
  rw [h.address hl, h.size, List.countP_eq_length] at heq
  rw [h.line, Option.map_eq_some_iff] at hline
  obtain ⟨line, hline, rfl⟩ := hline
  exact hn (of_decide_eq_true (heq line (List.mem_of_getElem? hline)))

theorem targets_of_jump (h : assemble source given = .ok p) (hlabels : p.JumpsToLabels source)
    {pc : Nat} {condition : Condition} {target : Operand}
    (hi : p.instructions[pc]? = some (.jump condition target)) :
    ∃ l, l ∈ p.labels ∧ p.Targets source l ∧ target = .imm l.address := by
  obtain ⟨name, hname⟩ := hlabels pc condition target hi
  obtain ⟨l, hfind, htarget, -⟩ := target_of_assemble h hname hi
  have hl := (((renders_of_assemble h).find _ _).1 hfind).1
  exact ⟨l, hl, ⟨pc, condition, target, name, hi, hname, hfind⟩, htarget⟩

theorem bounded_size (h : assemble source given = .ok p) (hlabels : p.JumpsToLabels source) :
    p.Bounded p.instructions.size where
  next pc i hi _ := (Array.getElem?_eq_some_iff.1 hi).1
  target pc condition target hi := by
    obtain ⟨l, hl, -, htarget⟩ := targets_of_jump h hlabels hi
    exact ⟨l.address, (renders_of_assemble h).address_le_size hl, htarget⟩

theorem bounded_last (h : assemble source given = .ok p) (hlabels : p.JumpsToLabels source)
    (hclosed : p.Closed source) : p.Bounded (p.instructions.size - 1) := by
  obtain ⟨last, hlast, hleaves⟩ := hclosed.last
  rw [Array.back?_eq_getElem?] at hlast
  have hsize : p.instructions.size - 1 < p.instructions.size :=
    (Array.getElem?_eq_some_iff.1 hlast).1
  refine ⟨fun pc i hi hgoes => ?_, fun pc condition target hi => ?_⟩
  · have hpc : pc < p.instructions.size := (Array.getElem?_eq_some_iff.1 hi).1
    have hne : pc ≠ p.instructions.size - 1 := by
      rintro rfl
      rw [hlast] at hi
      exact hgoes (Option.some.inj hi ▸ hleaves)
    omega
  · obtain ⟨l, hl, htargets, htarget⟩ := targets_of_jump h hlabels hi
    have hrenders := renders_of_assemble h
    obtain ⟨line, hline⟩ : ∃ line, (codeLines (numberedLines source))[p.instructions.size - 1]? =
        some line := ⟨_, List.getElem?_eq_getElem (hrenders.size ▸ hsize)⟩
    have hn : p.line? (p.instructions.size - 1) = some line.2 := by rw [hrenders.line, hline]; rfl
    have hlt := hrenders.address_lt_size hl hn (hclosed.labels l line.2 htargets hn)
    exact ⟨l.address, by omega, htarget⟩

end Program

namespace Execution

variable {p : Program} {c : Config} {w : Width} {tapes : List Nat × List Nat} {e e' : Execution}
variable {bound : Nat}

/-- The program counter has come no further than to `bound`, and an instruction was found missing
only past the last one. -/
structure Contained (p : Program) (bound : Nat) (e : Execution) : Prop where
  pc : e.machine.pc ≤ bound
  outside : ∀ pc, e.status = .halted (.fault pc .pcOutOfBounds) →
    p.instructions.size ≤ pc ∧ pc ≤ bound

namespace Contained

theorem of_transition (hb : p.Bounded bound) (hv : e.Valid p c w tapes) (hrun : e.status = .running)
    (h : e.Contained p bound) (ht : e.Transition e') : e'.Contained p bound := by
  cases ht with
  | limit => exact ⟨h.pc, fun _ heq => nomatch heq⟩
  | outside ha hi =>
    refine ⟨h.pc, fun pc heq => ?_⟩
    cases heq
    rw [hv.program] at hi
    exact ⟨Array.getElem?_eq_none_iff.1 hi, h.pc⟩
  | fault ha hi he =>
    refine ⟨h.pc, fun pc heq => ?_⟩
    cases heq
    exact (Machine.effect_error he).elim
  | next ha hi he =>
    rw [hv.program] at hi
    have hgoes := fun hleaves =>
      Machine.following_ne_step hleaves (Machine.effect_following he).symm
    exact ⟨hb.next _ _ hi hgoes, fun _ heq => nomatch hrun.symm.trans heq⟩
  | goto ha hi he =>
    rw [hv.program] at hi
    obtain ⟨condition, o, rfl, rfl⟩ := Machine.following_eq_goto (Machine.effect_following he).symm
    obtain ⟨address, hle, rfl⟩ := hb.target _ _ _ hi
    -- cutting the address down to a word makes it no larger
    exact ⟨Nat.le_trans (Nat.mod_le _ _) hle, fun _ heq => nomatch hrun.symm.trans heq⟩
  | answer => exact ⟨h.pc, fun _ heq => nomatch heq⟩

theorem of_running (hpc : e.machine.pc = 0) (hrun : e.status = .running) : e.Contained p bound :=
  ⟨hpc ▸ Nat.zero_le _, fun _ heq => nomatch hrun.symm.trans heq⟩

theorem after (hb : p.Bounded bound) (hv : e.Valid p c w tapes) (h : e.Contained p bound)
    (calls : List Call) : (e.after calls).Contained p bound :=
  hv.after_of_transition (of_transition hb) (fun _ _ _ => of_running rfl rfl) h calls

end Contained

variable {source : String} {given : Option Params} {tape0 tape1 : List Nat}

theorem contained_of_bounded (hp : Program.assemble source given = .ok p)
    (hs : start p c tape0 tape1 = .ok e) (hb : p.Bounded bound) (calls : List Call) :
    (e.after calls).Contained p bound := by
  obtain ⟨w, -, hv⟩ := Valid.start (Program.within_of_assemble hp) hs
  obtain ⟨w', -, hs⟩ := bind_ok hs
  refine Contained.after hb hv ?_ calls
  cases hs
  exact .of_running rfl rfl

/-- Where every jump names a label, the program counter stays within the program or at its end, and
only at the end can an instruction be missing. None is ever missing if, moreover, the last
instruction answers or jumps and every label that a jump names is defined before it. -/
theorem contained_after (hp : Program.assemble source given = .ok p)
    (hlabels : p.JumpsToLabels source) (hs : start p c tape0 tape1 = .ok e) (calls : List Call) :
    (e.after calls).machine.pc ≤ p.instructions.size ∧
      (∀ pc, (e.after calls).status = .halted (.fault pc .pcOutOfBounds) →
        pc = p.instructions.size) ∧
      (p.Closed source → ∀ pc, (e.after calls).status ≠ .halted (.fault pc .pcOutOfBounds)) := by
  have hsize := contained_of_bounded hp hs (Program.bounded_size hp hlabels) calls
  refine ⟨hsize.pc, fun pc heq => ?_, fun hclosed pc heq => ?_⟩
  · obtain ⟨hge, hle⟩ := hsize.outside pc heq
    exact Nat.le_antisymm hle hge
  · have hlast := contained_of_bounded hp hs (Program.bounded_last hp hlabels hclosed) calls
    obtain ⟨hge, hle⟩ := hlast.outside pc heq
    obtain ⟨i, hi, -⟩ := hclosed.last
    have hpos : 0 < p.instructions.size := Array.size_pos_iff.2 (by rintro heq; simp [heq] at hi)
    omega

/-- The two jumps of `Program.divideAll` name its two labels. -/
theorem jumpsToLabels_divideAll : Program.divideAll.JumpsToLabels Program.divideAllText := by
  intro pc condition target hi
  have hlt : pc < 6 := (Array.getElem?_eq_some_iff.1 hi).1
  match pc with
  | 2 => exact ⟨"end".toList, ("     cjmp end".toList, 5), by decide +kernel, by decide +kernel,
      by decide +kernel⟩
  | 4 => exact ⟨"next".toList, ("     jmp next".toList, 7), by decide +kernel, by decide +kernel,
      by decide +kernel⟩
  | 0 | 1 | 3 | 5 => cases hi

/-- `Program.divideAll` ends with an answer, and its labels are defined before that. -/
theorem contained_divideAll :
    Program.divideAll.JumpsToLabels Program.divideAllText ∧
      Program.divideAll.Closed Program.divideAllText ∧
      ((divideAll [1000]).after [.step, .restart [7, 0] [], .run]).machine.pc ≤ 6 ∧
      ∀ pc, ((divideAll [1000]).after [.step, .restart [7, 0] [], .run]).status ≠
        .halted (.fault pc .pcOutOfBounds) := by
  have hclosed : Program.divideAll.Closed Program.divideAllText := by
    refine ⟨⟨.answer (.reg 0), rfl, trivial⟩, ?_⟩
    rintro l n ⟨-, -, -, name, -, -, hfind⟩ hn
    have hl : l ∈ Program.divideAll.labels := Array.mem_of_find?_eq_some hfind
    have hlines : ∀ l ∈ Program.divideAll.labels, l.line ≤ 9 := by decide
    cases hn
    exact Nat.not_lt.2 (hlines l hl)
  obtain ⟨hpc, -, hnever⟩ := contained_after Program.assemble_divideAllText jumpsToLabels_divideAll
    (start_divideAll [1000]) [.step, .restart [7, 0] [], .run]
  exact ⟨jumpsToLabels_divideAll, hclosed, hpc, hnever hclosed⟩

end Execution
end WordRam
