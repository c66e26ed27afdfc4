import WordRam.Proofs.Assembly.Operands
import WordRam.Proofs.Execution.InBounds
import WordRam.Proofs.Execution.Lockstep

/-!
# Jumps to labels

The assembler makes sure that the address of a label in a jump is a word of the width it assembles
for, and a machine cuts every immediate down to its own width. Where the machine has at least the
width of the program, a jump lands at its label; a narrower machine is not refused, and jumps to the
remainder of the address. Main statement: `label_jump_lands`.
-/

namespace WordRam

open Text

/-- The line of the instruction at `pc` has one operand, which is written as the label `name`. -/
def Program.NamesTarget (source : String) (pc : Nat) (name : List Char) : Prop :=
  ∃ line, (codeLines (numberedLines source))[pc]? = some line ∧
    Code.operandTokens (codeText line.1) = [name] ∧ Term.isLabel name

/-- A jump to a label has the address of the label as its target, a word of the program's width. -/
theorem Program.target_of_assemble {source : String} {given : Option Params} {p : Program}
    {pc : Nat} {name : List Char} {condition : Condition} {target : Operand}
    (h : assemble source given = .ok p) (hname : NamesTarget source pc name)
    (hi : p.instructions[pc]? = some (.jump condition target)) :
    ∃ l, p.labels.find? (String.ofList name) = some l ∧ target = .imm l.address ∧
      l.address ≤ 2 ^ p.params.wordBits - 1 := by
  obtain ⟨line, hline, htokens, hlabel⟩ := hname
  obtain ⟨w, hw, hoperands⟩ := operands_of_assemble h
  -- the only token of the jump is the name, and it resolves to the address of the label
  obtain ⟨i, hi', hoperands⟩ := forall₂_getElem? hoperands hline
  rw [Array.getElem?_toList, hi] at hi'
  cases hi'
  rw [htokens] at hoperands
  obtain _ | ⟨⟨t, hread, hresolve⟩, -⟩ := hoperands
  cases (Term.read_of_isLabel hlabel p.params w).symm.trans hread
  simp only [Draft.resolve] at hresolve
  split at hresolve
  · cases hresolve
  · next l hfind =>
    split at hresolve
    · next hword =>
      cases hresolve
      rw [Width.mask, Width.size, Params.bits_of_width hw] at hword
      exact ⟨l, hfind, rfl, hword⟩
    · cases hresolve

namespace Execution

variable {source : String} {given : Option Params} {p : Program} {c : Config} {w : Width}
variable {tapes : List Nat × List Nat} {tape0 tape1 : List Nat} {e : Execution}
variable {name : List Char} {condition : Condition} {target : Operand}

/-- A jump that is taken goes to the value of its target. -/
theorem Valid.step_jump (h : e.Valid p c w tapes) (hrun : e.status = .running) (ha : e.Allowed)
    (hi : p.instructions[e.machine.pc]? = some (.jump condition target))
    (htaken : condition.holds e.machine.flag) :
    e.step.machine.pc = e.machine.operand target := by
  rw [h.step_eq hrun ha (h.program.symm ▸ hi)]
  simp only [Machine.effect, if_pos htaken]
  rfl

/-- A jump to a label lands at the address of the label, cut down to the width of the machine. The
address is left as it is exactly if it is a word there, and so on every machine that is at least as
wide as the program was assembled for. -/
theorem label_jump_lands (hp : Program.assemble source given = .ok p)
    (hs : start p c tape0 tape1 = .ok e) (calls : List Call)
    (hrun : (e.after calls).status = .running) (ha : (e.after calls).Allowed)
    (hname : Program.NamesTarget source (e.after calls).machine.pc name)
    (hi : p.instructions[(e.after calls).machine.pc]? = some (.jump condition target))
    (htaken : condition.holds (e.after calls).machine.flag) :
    ∃ l, p.labels.find? (String.ofList name) = some l ∧
      (e.after calls).step.machine.pc = l.address % 2 ^ c.params.wordBits ∧
      ((e.after calls).step.machine.pc = l.address ↔ l.address ≤ 2 ^ c.params.wordBits - 1) ∧
      (p.params.wordBits ≤ c.params.wordBits →
        (e.after calls).step.machine.pc = l.address) := by
  obtain ⟨l, hfind, rfl, hword⟩ := Program.target_of_assemble hp hname hi
  obtain ⟨w, hw, hv⟩ := valid_after hp hs
  -- the machine cuts the address down to its own words
  have hpc : (e.after calls).step.machine.pc = l.address % 2 ^ c.params.wordBits := by
    rw [(hv calls).step_jump hrun ha hi htaken, Machine.operand, Width.truncate,
      (hv calls).machine.width, Width.size, Params.bits_of_width hw]
  have hpos : 0 < 2 ^ c.params.wordBits := Nat.two_pow_pos _
  have hsame : (e.after calls).step.machine.pc = l.address ↔
      l.address ≤ 2 ^ c.params.wordBits - 1 := by
    rw [hpc, Nat.mod_eq_iff_lt hpos.ne']
    omega
  refine ⟨l, hfind, hpc, hsame, fun hle => hsame.2 (Nat.le_trans hword ?_)⟩
  exact Nat.sub_le_sub_right (Nat.pow_le_pow_right (by decide) hle) 1

/-- After one division, `Program.divideAll` jumps back to its label `next`. -/
theorem label_jump_divideAll :
    Program.NamesTarget Program.divideAllText 4 "next".toList ∧
      ∃ l, Program.divideAll.labels.find? "next" = some l ∧
        ((divideAll [5]).after [.step, .step, .step, .step]).step.machine.pc = l.address := by
  have hname : Program.NamesTarget Program.divideAllText 4 "next".toList :=
    ⟨("     jmp next".toList, 7), by decide +kernel, by decide +kernel, by decide +kernel⟩
  obtain ⟨l, hfind, -, -, hpc⟩ := label_jump_lands Program.assemble_divideAllText
    (start_divideAll [5]) [.step, .step, .step, .step] rfl nofun hname rfl rfl
  exact ⟨hname, l, hfind, hpc (Nat.le_refl _)⟩

/-- A source text that jumps over two answers, for words of eight bits. -/
def skipText : String :=
  "; TinyRAM V=1.000 W=8 K=1
jmp end
answer 0
answer 0
end:
answer 1
"

/-- The program that `skipText` is. -/
def skipProgram : Program where
  params := { dialect := .v1, wordBits := 8, registers := 1 }
  instructions := #[.jump .always (.imm 3), .answer (.imm 0), .answer (.imm 0), .answer (.imm 1)]
  labels := #[⟨"end", 3, 5⟩]
  lines := #[2, 3, 4, 6]

/-- The usual conditions for words of one bit. -/
def bitConfig : Config :=
  .ofParams { dialect := .v1, wordBits := 1, registers := 1 }

/-- A machine with words of one bit is given a program for eight. Its jump to the label at 3 lands
at 1, and it answers otherwise than it would at the label. -/
theorem label_jump_misses :
    ∃ e, Program.assemble skipText none = .ok skipProgram ∧
      start skipProgram bitConfig [] [] = .ok e ∧ e.status = .running ∧ e.Allowed ∧
      Program.NamesTarget skipText e.machine.pc "end".toList ∧
      skipProgram.instructions[e.machine.pc]? = some (.jump .always (.imm 3)) ∧
      Condition.always.holds e.machine.flag ∧
      skipProgram.labels.find? "end" = some ⟨"end", 3, 5⟩ ∧
      e.step.machine.pc = 1 ∧ e.run.status = .halted (.answer 0) := by
  refine ⟨_, by cbv, rfl, rfl, nofun, ?_, rfl, rfl, rfl, rfl, rfl⟩
  exact ⟨("jmp end".toList, 2), by decide +kernel, by decide +kernel, by decide +kernel⟩

end Execution
end WordRam
