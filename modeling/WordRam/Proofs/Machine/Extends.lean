import WordRam.Proofs.Execution.Lockstep

/-!
# Larger machines

A machine extends another if it has the same in its registers and its memory and some registers
more, with zero in them, a memory of at least as many words, and no more of them protected. Every
instruction does the same to both (`Machine.Extends.effect`), except where the smaller machine
faults because of a bound or a protection that the larger one may lack.
-/

namespace WordRam

/-- The fault comes from the size of the memory or from its protection. -/
def Fault.Restricts : Fault → Prop
  | .outOfBounds _ | .readOnly _ => True
  | _ => False

namespace Memory

/-- `m'` holds the same as `m`, has at least as many words, and protects no more of them. -/
structure Extends (m m' : Memory) : Prop where
  cells : m'.cells = m.cells
  wordBytes : m'.wordBytes = m.wordBytes
  mask : m'.mask = m.mask
  limit : m.limit ≤ m'.limit
  readOnly : m'.readOnly ≤ m.readOnly

namespace Extends

variable {m m' : Memory} (h : m.Extends m')
include h

theorem target (wide : Addressing) (access : Access) (address : Nat) :
    Corresponds Fault.Restricts Eq (m.target wide access address)
      (m'.target wide access address) := by
  unfold Memory.target
  rw [h.wordBytes]
  split
  · exact .ok rfl
  · exact .ok rfl
  · split
    · exact .ok rfl
    · exact .fault _
  · by_cases hlt : address / m.wordBytes < m.limit
    · rw [if_pos hlt, if_pos (Nat.lt_of_lt_of_le hlt h.limit)]
      exact .ok rfl
    · rw [if_neg hlt]
      exact .excused trivial _

theorem readWord (index : Nat) :
    Corresponds Fault.Restricts Eq (m.readWord index) (m'.readWord index) := by
  unfold Memory.readWord
  by_cases hlt : index < m.limit
  · rw [if_pos hlt, if_pos (Nat.lt_of_lt_of_le hlt h.limit), h.cells]
    exact .ok rfl
  · rw [if_neg hlt]
    exact .excused trivial _

theorem writeWord (index v : Nat) :
    Corresponds Fault.Restricts Extends (m.writeWord index v) (m'.writeWord index v) := by
  unfold Memory.writeWord
  by_cases hle : m.limit ≤ index
  · rw [if_pos hle]
    exact .excused trivial _
  · have hle' : ¬ m'.limit ≤ index := fun hle' => hle (Nat.le_trans h.limit hle')
    rw [if_neg hle, if_neg hle']
    by_cases hlt : index < m.readOnly
    · rw [if_pos hlt]
      exact .excused trivial _
    · have hlt' : ¬ index < m'.readOnly := fun hlt' => hlt (Nat.lt_of_lt_of_le hlt' h.readOnly)
      rw [if_neg hlt, if_neg hlt']
      refine .ok ⟨?_, h.wordBytes, h.mask, h.limit, h.readOnly⟩
      rw [h.cells, h.mask]

theorem load (wide : Addressing) (access : Access) (address : Nat) :
    Corresponds Fault.Restricts Eq (m.load wide access address) (m'.load wide access address) := by
  unfold Memory.load
  refine (h.target wide access address).bind ?_
  rintro index _ rfl
  refine (h.readWord index).bind ?_
  rintro word _ rfl
  rw [h.wordBytes]
  exact .of_eq (fun _ => rfl) _

theorem store (wide : Addressing) (access : Access) (address v : Nat) :
    Corresponds Fault.Restricts Extends (m.store wide access address v)
      (m'.store wide access address v) := by
  unfold Memory.store
  refine (h.target wide access address).bind ?_
  rintro index _ rfl
  cases access with
  | word => exact h.writeWord index v
  | wide => exact h.writeWord index v
  | byte =>
    dsimp only
    rw [h.wordBytes, h.mask, h.cells]
    split
    · exact .fault _
    · exact h.writeWord index _

end Extends

end Memory

namespace Machine

/-- `m'` is `m` with `more` registers added that hold zero, and with a memory that extends its
memory. -/
structure Extends (more : Nat) (m m' : Machine) : Prop where
  width : m'.width = m.width
  registers : m'.registers = m.registers ++ Array.replicate more 0
  flag : m'.flag = m.flag
  memory : m.memory.Extends m'.memory
  primary : m'.primary = m.primary
  auxiliary : m'.auxiliary = m.auxiliary

namespace Extends

variable {more : Nat} {m m' k : Machine} {wide : Addressing} {i : Instruction}

theorem at_pc (h : m.Extends more m') (pc : Nat) : Extends more { m with pc } { m' with pc } :=
  ⟨h.width, h.registers, h.flag, h.memory, h.primary, h.auxiliary⟩

/-- A register that is added holds what is read from one that does not exist. -/
theorem reg (h : m.Extends more m') (r : Reg) : m'.reg r = m.reg r := by
  unfold Machine.reg
  rw [h.registers, Array.getElem?_append]
  split
  · rfl
  · next hr =>
    rw [Array.getElem?_eq_none (Nat.not_lt.1 hr), Array.getElem?_replicate]
    split <;> rfl

theorem operand (h : m.Extends more m') (o : Operand) : m'.operand o = m.operand o := by
  cases o with
  | reg r => exact h.reg r
  | imm v => rw [Machine.operand, Machine.operand, h.width]

theorem put (h : m.Extends more m') {d : Reg} (hd : d < m.registers.size) (v : Nat) :
    (m.put d v).Extends more (m'.put d v) := by
  refine ⟨h.width, ?_, h.flag, h.memory, h.primary, h.auxiliary⟩
  simp only [Machine.put, h.registers, h.width]
  rw [Array.setIfInBounds_append_left hd]

theorem setFlag (h : m.Extends more m') (flag : Bool) :
    (m.setFlag flag).Extends more (m'.setFlag flag) :=
  ⟨h.width, h.registers, rfl, h.memory, h.primary, h.auxiliary⟩

theorem nextWord? (h : m.Extends more m') {j v : Nat} (hn : m.nextWord? j = some (v, k)) :
    ∃ k', m'.nextWord? j = some (v, k') ∧ k.Extends more k' := by
  match j with
  | 0 =>
    obtain ⟨⟨u, t⟩, ht, heq⟩ := Option.map_eq_some_iff.1 hn
    cases heq
    refine ⟨{ m' with primary := t }, ?_,
      ⟨h.width, h.registers, h.flag, h.memory, rfl, h.auxiliary⟩⟩
    rw [Machine.nextWord?, h.primary, ht]
    rfl
  | 1 =>
    obtain ⟨⟨u, t⟩, ht, heq⟩ := Option.map_eq_some_iff.1 hn
    cases heq
    refine ⟨{ m' with auxiliary := t }, ?_,
      ⟨h.width, h.registers, h.flag, h.memory, h.primary, rfl⟩⟩
    rw [Machine.nextWord?, h.auxiliary, ht]
    rfl
  | _ + 2 => cases hn

theorem nextWord?_none (h : m.Extends more m') {j : Nat} (hn : m.nextWord? j = none) :
    m'.nextWord? j = none := by
  match j with
  | 0 => rwa [Machine.nextWord?, Option.map_eq_none_iff, h.primary, ← Option.map_eq_none_iff]
  | 1 => rwa [Machine.nextWord?, Option.map_eq_none_iff, h.auxiliary, ← Option.map_eq_none_iff]
  | _ + 2 => rfl

/-- An instruction whose registers the smaller machine has does the same to both machines. -/
theorem effect (h : m.Extends more m') (hi : i.Within m.registers.size) (wide : Addressing) :
    Corresponds Fault.Restricts (Moves (Extends more)) (m.effect wide i) (m'.effect wide i) := by
  -- operands are the same in both machines, so only memory can tell them apart
  cases i with
  | operate op d a b =>
    simp only [Machine.effect, h.width, h.reg, h.operand]
    exact .ok ⟨(h.put hi.1 _).setFlag _, rfl⟩
  | not d a =>
    simp only [Machine.effect, h.width, h.operand]
    exact .ok ⟨(h.put hi.1 _).setFlag _, rfl⟩
  | divide op d a b =>
    simp only [Machine.effect, h.width, h.reg, h.operand]
    cases op.eval? m.width (m.reg a) (m.operand b) with
    | none => exact .fault _
    | some v => exact .ok ⟨(h.put hi.1 v).setFlag _, rfl⟩
  | compare op a b =>
    simp only [Machine.effect, h.width, h.reg, h.operand]
    exact .ok ⟨h.setFlag _, rfl⟩
  | mov d a =>
    simp only [Machine.effect, h.operand]
    exact .ok ⟨h.put hi.1 _, rfl⟩
  | cmov d a =>
    simp only [Machine.effect, h.flag, h.operand]
    refine .ok ⟨?_, rfl⟩
    dsimp only
    split
    · exact h.put hi.1 _
    · exact h
  | jump condition target =>
    simp only [Machine.effect, h.flag, h.operand]
    exact .ok ⟨h, rfl⟩
  | store access address source =>
    simp only [Machine.effect, h.reg, h.operand]
    -- a store that one memory refuses for lack of room is excused in the other
    refine (h.memory.store wide access _ _).map fun memory memory' hmemory => ⟨?_, rfl⟩
    exact ⟨h.width, h.registers, h.flag, hmemory, h.primary, h.auxiliary⟩
  | load access d address =>
    simp only [Machine.effect, h.operand]
    refine (h.memory.load wide access _).map ?_
    rintro v _ rfl
    exact ⟨h.put hi.1 v, rfl⟩
  | read d tape =>
    simp only [Machine.effect, h.operand]
    cases hn : m.nextWord? (m.operand tape) with
    | none =>
      rw [h.nextWord?_none hn]
      exact .ok ⟨(h.put hi.1 0).setFlag true, rfl⟩
    | some x =>
      obtain ⟨v, k⟩ := x
      obtain ⟨k', hn', hk⟩ := h.nextWord? hn
      have hd : d < k.registers.size := by
        rw [(nextWord?_registers m hn).1]
        exact hi.1
      rw [hn']
      exact .ok ⟨(hk.put hd v).setFlag false, rfl⟩
  | answer code =>
    simp only [Machine.effect, h.operand]
    exact .ok ⟨h, rfl⟩

end Extends

end Machine

end WordRam
