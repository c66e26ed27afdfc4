import WordRam.Proofs.Assembly.Listing
import WordRam.Proofs.Execution.Valid

/-!
# Bounds of every state

Whatever is asked of an execution of an assembled program, its registers, its memory, its tapes and
its counters stay within the bounds that the configuration sets: the execution stays valid
(`Execution.valid_after`), and a valid execution is within bounds (`Execution.Valid.inBounds`). The
words on the tapes, the words loaded into memory and the immediates of the program may be any
numbers: they are cut down where they enter a register or memory, or where they are used.
-/

namespace WordRam
namespace Execution

structure InBounds (p : Program) (c : Config) (tapes : List Nat × List Nat) (e : Execution) :
    Prop where
  registers_size : e.machine.registers.size = c.params.registers
  registers : ∀ v ∈ e.machine.registers, v ≤ 2 ^ c.params.wordBits - 1
  memory : ∀ entry ∈ e.machine.memory.words,
    entry.1 < c.memoryWords ∧ 1 ≤ entry.2 ∧ entry.2 ≤ 2 ^ c.params.wordBits - 1
  limit : e.machine.memory.limit = c.memoryWords
  readOnly : e.machine.memory.readOnly = c.protectedWords
  primary : e.machine.primary.words.toList = tapes.1 ∧
    e.machine.primary.consumed ≤ e.machine.primary.words.size
  auxiliary : e.machine.auxiliary.words.toList = tapes.2 ∧
    e.machine.auxiliary.consumed ≤ e.machine.auxiliary.words.size
  pc : e.machine.pc ≤ p.instructions.size ∨ e.machine.pc ≤ 2 ^ c.params.wordBits - 1
  steps : ∀ limit, c.stepLimit = some limit → e.steps ≤ limit
  answer : ∀ code, e.status = .halted (.answer code) → code ≤ 2 ^ c.params.wordBits - 1
  fault : ∀ pc cause, e.status = .halted (.fault pc cause) → pc = e.machine.pc

variable {p : Program} {c : Config} {w : Width} {tapes : List Nat × List Nat} {e : Execution}

theorem Valid.inBounds (h : e.Valid p c w tapes) (hw : c.params.width = .ok w) :
    e.InBounds p c tapes := by
  have hsize : w.size = 2 ^ c.params.wordBits := by rw [Width.size, Params.bits_of_width hw]
  have hword {v : Nat} (hv : v < w.size) : v ≤ 2 ^ c.params.wordBits - 1 := by omega
  refine ⟨h.machine.size, fun v hv => ?_, fun entry he => ?_, h.machine.memory.limit,
    h.machine.memory.readOnly, ?_, ?_, h.pc.imp_right hword, h.steps, fun code hs => ?_,
    fun pc cause hs => ?_⟩
  · obtain ⟨r, hr, rfl⟩ := Array.mem_iff_getElem.1 hv
    have hreg := h.machine.reg r
    rw [Machine.reg, Array.getElem?_eq_getElem hr] at hreg
    exact hword hreg
  · have hget : e.machine.memory.cells.get entry.1 = entry.2 := Cells.get_of_mem he
    have hne : entry.2 ≠ 0 := e.machine.memory.cells.sparse.2 entry he
    refine ⟨?_, Nat.one_le_iff_ne_zero.2 hne, hword (hget ▸ h.machine.memory.word entry.1)⟩
    by_contra hge
    exact hne (hget ▸ h.machine.memory.outside entry.1 (Nat.not_lt.1 hge))
  · rw [h.machine.primary.words]; exact ⟨rfl, h.machine.primary.consumed⟩
  · rw [h.machine.auxiliary.words]; exact ⟨rfl, h.machine.auxiliary.consumed⟩
  · have hv := h.status
    rw [hs] at hv
    exact hword hv
  · have hv := h.status
    rw [hs] at hv
    exact hv

variable {source : String} {given : Option Params} {tape0 tape1 : List Nat}

/-- An execution of an assembled program is valid after all calls. -/
theorem valid_after (hp : Program.assemble source given = .ok p)
    (hs : Execution.start p c tape0 tape1 = .ok e) :
    ∃ w, c.params.width = .ok w ∧
      ∀ calls, (e.after calls).Valid p c w (installed (tape0, tape1) calls) := by
  obtain ⟨w, hw, hv⟩ := Valid.start (Program.within_of_assemble hp) hs
  exact ⟨w, hw, hv.after⟩

theorem inBounds_after (hp : Program.assemble source given = .ok p)
    (hs : Execution.start p c tape0 tape1 = .ok e) (calls : List Call) :
    (e.after calls).InBounds p c (installed (tape0, tape1) calls) := by
  obtain ⟨w, hw, hv⟩ := valid_after hp hs
  exact (hv calls).inBounds hw

/-- The usual execution of `Program.divideAll` on a primary tape. -/
def divideAll (tape : List Nat) : Execution where
  program := .divideAll
  config := .ofParams Program.divideAll.params
  machine := .start ⟨8, by decide, by decide⟩ (.ofParams Program.divideAll.params) tape []
  journal := #[.started Program.divideAll.params tape.length 0]

theorem start_divideAll (tape : List Nat) :
    start .divideAll (.ofParams Program.divideAll.params) tape [] = .ok (divideAll tape) := rfl

theorem inBounds_divideAll :
    Program.assemble Program.divideAllText none = .ok .divideAll ∧
      start .divideAll (.ofParams Program.divideAll.params) [1000] [] = .ok (divideAll [1000]) ∧
      ((divideAll [1000]).after [.step, .restart [5, 0] [9], .run]).InBounds .divideAll
        (.ofParams Program.divideAll.params) ([5, 0], [9]) :=
  ⟨Program.assemble_divideAllText, start_divideAll [1000],
    inBounds_after Program.assemble_divideAllText (start_divideAll [1000])
      [.step, .restart [5, 0] [9], .run]⟩

end Execution
end WordRam
