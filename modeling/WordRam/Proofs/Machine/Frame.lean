import WordRam.Proofs.Machine.Effect

/-!
# What an instruction leaves alone

What comes after an instruction can be told before it is executed (`effect_following`). Only a store
changes the memory of a machine (`effect_memory`), and only a read looks at its tapes
(`effect_withTapes`). What a read finds goes into a register and the flag, so machines that are
`Alike` in all else are so after it (`Alike.effect_read`).
-/

namespace WordRam
namespace Machine

variable {m m' : Machine} {wide : Addressing} {i : Instruction} {n : Next}

/-- What comes after an instruction that does not fault. -/
def following (m : Machine) : Instruction → Next
  | .jump condition target => if condition.holds m.flag then .goto (m.operand target) else .step
  | .answer code => .answer (m.operand code)
  | _ => .step

theorem effect_following (he : m.effect wide i = .ok (m', n)) : n = m.following i := by
  cases i with
  | divide op d a b =>
    simp only [effect] at he
    split at he
    · cases he
    · cases he; rfl
  | store access address source =>
    obtain ⟨memory, -, heq⟩ := map_ok he
    cases heq; rfl
  | load access d address =>
    obtain ⟨v, -, heq⟩ := map_ok he
    cases heq; rfl
  | read d tape =>
    simp only [effect] at he
    split at he <;> (cases he; rfl)
  | _ => cases he; rfl

theorem following_eq_goto {target : Nat} (h : m.following i = .goto target) :
    ∃ condition o, i = .jump condition o ∧ target = m.operand o := by
  cases i with
  | jump condition o =>
    simp only [following] at h
    split at h
    · cases h; exact ⟨condition, o, rfl, rfl⟩
    · cases h
  | _ => cases h

theorem nextWord?_memory {j v : Nat} (h : m.nextWord? j = some (v, m')) :
    m'.memory = m.memory := by
  match j with
  | 0 | 1 =>
    obtain ⟨⟨u, t⟩, -, heq⟩ := Option.map_eq_some_iff.1 h
    cases heq; rfl
  | _ + 2 => cases h

theorem effect_memory (he : m.effect wide i = .ok (m', n)) : m'.memory = m.memory ∨
    ∃ access address v, m.memory.store wide access address v = .ok m'.memory := by
  cases i with
  | divide op d a b =>
    simp only [effect] at he
    split at he
    · cases he
    · cases he; exact .inl rfl
  | cmov d a =>
    cases he
    left
    split <;> rfl
  | store access address source =>
    obtain ⟨memory, hs, heq⟩ := map_ok he
    cases heq
    exact .inr ⟨access, _, _, hs⟩
  | load access d address =>
    obtain ⟨v, -, heq⟩ := map_ok he
    cases heq; exact .inl rfl
  | read d tape =>
    simp only [effect] at he
    split at he
    · next hn =>
      cases he
      have hm := nextWord?_memory hn
      exact .inl hm
    · cases he; exact .inl rfl
  | _ => cases he; exact .inl rfl

/-- The machine with other tapes. -/
def withTapes (m : Machine) (primary auxiliary : Tape) : Machine :=
  { m with primary, auxiliary }

@[simp] theorem withTapes_width (m : Machine) (primary auxiliary : Tape) :
    (m.withTapes primary auxiliary).width = m.width := rfl

@[simp] theorem withTapes_reg (m : Machine) (primary auxiliary : Tape) (r : Reg) :
    (m.withTapes primary auxiliary).reg r = m.reg r := rfl

@[simp] theorem withTapes_operand (m : Machine) (primary auxiliary : Tape) (o : Operand) :
    (m.withTapes primary auxiliary).operand o = m.operand o := by
  cases o <;> rfl

theorem effect_withTapes (hi : ∀ d tape, i ≠ .read d tape) (primary auxiliary : Tape) :
    (m.withTapes primary auxiliary).effect wide i =
      (m.effect wide i).map fun next => (next.1.withTapes primary auxiliary, next.2) := by
  cases i with
  | divide op d a b =>
    simp only [effect, withTapes_operand, withTapes_width, withTapes_reg]
    cases op.eval? m.width (m.reg a) (m.operand b) <;> rfl
  | cmov d a =>
    simp only [effect, withTapes_operand]
    cases hf : m.flag <;> simp [withTapes, put, hf, Except.map]
  | store access address source =>
    simp only [effect, withTapes_operand]
    show (m.memory.store wide access (m.operand address) (m.reg source)).map _ = _
    cases m.memory.store wide access (m.operand address) (m.reg source) <;> rfl
  | load access d address =>
    simp only [effect, withTapes_operand]
    show (m.memory.load wide access (m.operand address)).map _ = _
    cases m.memory.load wide access (m.operand address) <;> rfl
  | read d tape => exact absurd rfl (hi d tape)
  | _ =>
    simp only [effect, withTapes_operand]
    rfl

/-- A read changes a register, the flag and a tape. -/
theorem effect_read (m : Machine) (wide : Addressing) (d : Reg) (tape : Operand) :
    ∃ m', m.effect wide (.read d tape) = .ok (m', .step) ∧ m'.memory = m.memory ∧
      m'.width = m.width ∧ m'.registers.size = m.registers.size := by
  simp only [effect]
  split
  · next v m' hn =>
    obtain ⟨hregisters, hwidth⟩ := nextWord?_registers m hn
    have hmemory := nextWord?_memory hn
    refine ⟨_, rfl, hmemory, hwidth, ?_⟩
    show (m'.put d v).registers.size = m.registers.size
    rw [put_size, hregisters]
  · exact ⟨_, rfl, rfl, rfl, put_size m d 0⟩

/-- The machines are the same, except for what is in their registers and flags and on their tapes. -/
structure Alike (m m' : Machine) : Prop where
  pc : m'.pc = m.pc
  width : m'.width = m.width
  memory : m'.memory = m.memory
  size : m'.registers.size = m.registers.size

namespace Alike

theorem withTapes (m : Machine) (primary auxiliary : Tape) :
    m.Alike (m.withTapes primary auxiliary) :=
  ⟨rfl, rfl, rfl, rfl⟩

theorem at_pc (h : m.Alike m') (pc : Nat) : Alike { m with pc } { m' with pc } :=
  ⟨rfl, h.width, h.memory, h.size⟩

theorem eq_withTapes (h : m.Alike m') (hregisters : m'.registers = m.registers)
    (hflag : m'.flag = m.flag) : m' = m.withTapes m'.primary m'.auxiliary := by
  obtain ⟨hpc, hwidth, hmemory, -⟩ := h
  cases m'
  cases hpc; cases hwidth; cases hmemory; cases hregisters; cases hflag
  rfl

theorem effect_read (h : m.Alike m') (wide : Addressing) (d : Reg) (tape : Operand) :
    ∃ n n', m.effect wide (.read d tape) = .ok (n, .step) ∧
      m'.effect wide (.read d tape) = .ok (n', .step) ∧ ∀ pc, Alike { n with pc } { n' with pc } := by
  obtain ⟨n, he, hmemory, hwidth, hsize⟩ := m.effect_read wide d tape
  obtain ⟨n', he', hmemory', hwidth', hsize'⟩ := m'.effect_read wide d tape
  refine ⟨n, n', he, he', fun pc => ⟨rfl, ?_, ?_, ?_⟩⟩
  · show n'.width = n.width
    rw [hwidth', h.width, hwidth]
  · show n'.memory = n.memory
    rw [hmemory', h.memory, hmemory]
  · show n'.registers.size = n.registers.size
    rw [hsize', h.size, hsize]

end Alike

end Machine
end WordRam
