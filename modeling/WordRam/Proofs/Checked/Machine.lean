import WordRam.Proofs.Checked.Alu
import WordRam.Proofs.Machine.Valid
import WordRam.Proofs.Memory.Bytes

/-!
# Instructions in checked arithmetic

`Checked.effect` carries an instruction out with registers by index, the arithmetic of `Alu` and
memory whose bytes are shifted into place. On a valid machine, with an instruction whose registers
exist, it does not crash and comes to the effect of the instruction (`Checked.effect_eq`).
-/

namespace WordRam
namespace Checked

section
variable (m : Memory)

/-- The index of the word that an address of a wide access means. -/
def wordIndex (address : Nat) : Addressing → Checked (Except Fault Nat)
  | .word => return .ok address
  | .byte => do
    if (← rem address m.wordBytes) ≠ 0 then return .error (.misaligned address)
    return .ok (← div address m.wordBytes)

/-- The word that has a byte, and the number of bits below the byte in it. -/
def split (address : Nat) : Checked (Except Fault (Nat × Nat)) := do
  let index ← div address m.wordBytes
  if m.limit ≤ index then return .error (.outOfBounds address)
  return .ok (index, ← mul 64 (← rem address m.wordBytes) 8)

def load (wide : Addressing) (access : Access) (address : Nat) : Checked (Except Fault Nat) :=
  match access with
  | .word => return m.readWord address
  | .wide => do return (← wordIndex m address wide) >>= m.readWord
  | .byte => do
    match ← split m address with
    | .error f => return .error f
    | .ok (index, shift) =>
      match m.readWord index with
      | .error f => return .error f
      | .ok word => return .ok ((← shr 64 word shift) % 2 ^ 8)

/-- A word with eight of its bits cleared and others put there. -/
def replaceByte (word shift byte : Nat) : Checked Nat := do
  return word &&& complement (← shl 64 (2 ^ 8 - 1) shift) ||| byte

def store (wide : Addressing) (access : Access) (address v : Nat) :
    Checked (Except Fault Memory) :=
  match access with
  | .word => return m.writeWord address v
  | .wide => do return (← wordIndex m address wide) >>= (m.writeWord · v)
  | .byte => do
    match ← split m address with
    | .error f => return .error f
    | .ok (index, shift) =>
      let byte ← shl 64 (v % 2 ^ 8) shift
      if byte &&& complement m.mask ≠ 0 then return .error (.byteOverflow address)
      match m.readWord index with
      | .error f => return .error f
      | .ok word => return m.writeWord index (← replaceByte word shift byte)

end

section
variable (m : Machine)

def value (alu : Alu) : Operand → Checked Nat
  | .reg r => index m.registers r
  | .imm v => return alu.truncate v

def put (alu : Alu) (r : Reg) (v : Nat) : Checked Machine := do
  let _ ← index m.registers r
  return { m with registers := m.registers.setIfInBounds r (alu.truncate v) }

/-- What an instruction makes of a machine, and what comes next. -/
def effect (wide : Addressing) (i : Instruction) : Checked (Except Fault (Machine × Next)) := do
  let alu ← Alu.new m.width.bits
  match i with
  | .operate op d a b =>
    let r ← alu.eval op (← index m.registers a) (← value m alu b)
    return .ok ((← put m alu d r.value).setFlag r.flag, .step)
  | .not d a =>
    let r := alu.not (← value m alu a)
    return .ok ((← put m alu d r.value).setFlag r.flag, .step)
  | .divide op d a b =>
    match ← alu.divide op (← index m.registers a) (← value m alu b) with
    | none => return .error .divideByZero
    | some v => return .ok ((← put m alu d v).setFlag false, .step)
  | .compare op a b =>
    return .ok (m.setFlag (← alu.compare op (← index m.registers a) (← value m alu b)), .step)
  | .mov d a => return .ok (← put m alu d (← value m alu a), .step)
  | .cmov d a =>
    if m.flag then return .ok (← put m alu d (← value m alu a), .step) else return .ok (m, .step)
  | .jump condition target =>
    if condition.holds m.flag then return .ok (m, .goto (← value m alu target))
    else return .ok (m, .step)
  | .store access address source =>
    match ← store m.memory wide access (← value m alu address) (← index m.registers source) with
    | .error f => return .error f
    | .ok memory => return .ok ({ m with memory }, .step)
  | .load access d address =>
    match ← load m.memory wide access (← value m alu address) with
    | .error f => return .error f
    | .ok v => return .ok (← put m alu d v, .step)
  | .read d tape =>
    match m.nextWord? (← value m alu tape) with
    | some (v, m) => return .ok ((← put m alu d v).setFlag false, .step)
    | none => return .ok ((← put m alu d 0).setFlag true, .step)
  | .answer code => return .ok (m, .answer (← value m alu code))

end

/-! ### No crash -/

section
variable {m : Memory}

theorem wordIndex_eq (h : m.Sized) (wide : Addressing) (address : Nat) :
    wordIndex m address wide = pure (m.target wide .wide address) := by
  have hne : m.wordBytes ≠ 0 := Nat.ne_of_gt h.1
  cases wide with
  | word => rfl
  | byte =>
    rw [wordIndex, rem_eq hne, pure_bind, div_eq hne, pure_bind, Memory.target]
    by_cases ha : address % m.wordBytes = 0 <;> simp [ha]

theorem split_eq (h : m.Sized) (wide : Addressing) (address : Nat) :
    split m address = pure ((m.target wide .byte address).map
      fun index => (index, 8 * (address % m.wordBytes))) := by
  have hne : m.wordBytes ≠ 0 := Nat.ne_of_gt h.1
  have hoff : address % m.wordBytes < 8 := Nat.lt_of_lt_of_le (Nat.mod_lt _ h.1) h.2
  rw [split, div_eq hne, pure_bind, rem_eq hne, pure_bind, mul_eq (by omega), pure_bind,
    Memory.target]
  by_cases ha : address / m.wordBytes < m.limit
  · simp [ha, Nat.not_le.2 ha, Except.map, Nat.mul_comm]
  · simp [ha, Nat.not_lt.1 ha, Except.map]

theorem load_eq (h : m.Sized) (wide : Addressing) (access : Access) (address : Nat) :
    load m wide access address = pure (m.load wide access address) := by
  cases access with
  | word =>
    rw [load, Memory.load]
    simp only [Memory.target, bind, Except.bind]
    cases m.readWord address <;> rfl
  | wide =>
    rw [load, wordIndex_eq h, pure_bind, Memory.load]
    cases m.target wide .wide address with
    | error f => rfl
    | ok index => simp only [bind, Except.bind]; cases m.readWord index <;> rfl
  | byte =>
    have hoff : address % m.wordBytes < 8 := Nat.lt_of_lt_of_le (Nat.mod_lt _ h.1) h.2
    rw [load, split_eq h wide, pure_bind, Memory.load]
    cases m.target wide .byte address with
    | error f => rfl
    | ok index =>
      simp only [Except.map, bind, Except.bind]
      cases m.readWord index with
      | error f => rfl
      | ok word => simp only [shr_eq (show 8 * (address % m.wordBytes) < 64 by omega)]; rfl

theorem byte_lt {offset v : Nat} (ho : offset < 8) (hv : v < 2 ^ 8) :
    v * 2 ^ (8 * offset) < 2 ^ 64 := by
  calc v * 2 ^ (8 * offset) < 2 ^ 8 * 2 ^ (8 * offset) :=
        Nat.mul_lt_mul_of_pos_right hv (Nat.two_pow_pos _)
    _ = 2 ^ (8 + 8 * offset) := (Nat.pow_add ..).symm
    _ ≤ 2 ^ 64 := Nat.pow_le_pow_right (by decide) (by omega)

/-- The bits of a word whose byte is cleared and filled again are those of the word with the byte
replaced. -/
theorem replaceByte_eq {word offset v : Nat} (hw : word < 2 ^ 64) (ho : offset < 8)
    (hv : v < 2 ^ 8) : replaceByte word (8 * offset) (v * 2 ^ (8 * offset)) =
      pure (Memory.replaceByte word offset v) := by
  rw [Memory.replaceByte_eq_add]
  generalize hs : 8 * offset = s
  have hlow : word % 2 ^ s < 2 ^ s := Nat.mod_lt _ (Nat.two_pow_pos s)
  have hhole : (2 ^ 8 - 1) * 2 ^ s % 2 ^ 64 < 2 ^ 64 := Nat.mod_lt _ (by decide)
  rw [replaceByte, shl_eq (by omega), pure_bind]
  refine congrArg pure (Nat.eq_of_testBit_eq fun j => ?_)
  rw [Nat.testBit_or, Nat.testBit_and, testBit_complement hhole, Nat.testBit_mod_two_pow,
    Nat.testBit_mul_two_pow, Nat.testBit_mul_two_pow, Nat.testBit_two_pow_sub_one,
    Nat.testBit_two_pow_mul_add _ hlow, Nat.testBit_two_pow_mul_add _ hv, Nat.testBit_mod_two_pow,
    Nat.testBit_div_two_pow]
  have hhigh (hj : 64 ≤ j) : word.testBit j = false :=
    Nat.testBit_lt_two_pow (Nat.lt_of_lt_of_le hw (Nat.pow_le_pow_right (by decide) hj))
  -- a bit below the byte, in it, above it in the word, or above the word
  by_cases hbelow : j < s
  · simp [hbelow, Nat.not_le.2 hbelow, show j < 64 by omega]
  · by_cases hin : j - s < 8
    · simp [hbelow, Nat.not_lt.1 hbelow, hin, show j < 64 by omega]
    · have habove : v.testBit (j - s) = false :=
        Nat.testBit_lt_two_pow (Nat.lt_of_lt_of_le hv (Nat.pow_le_pow_right (by decide) (by omega)))
      rw [show j - s - 8 + (s + 8) = j by omega]
      by_cases hj : j < 64
      · simp [hbelow, hin, hj, habove]
      · simp [hbelow, hin, habove, hhigh (Nat.not_lt.1 hj)]

theorem store_eq {c : Config} {w : Width} (h : m.Valid c w) (wide : Addressing) (access : Access)
    (address v : Nat) :
    store m wide access address v = pure (m.store wide access address v) := by
  cases access with
  | word =>
    rw [store, Memory.store]
    simp only [Memory.target, bind, Except.bind]
  | wide =>
    rw [store, wordIndex_eq h.sized, pure_bind, Memory.store]
  | byte =>
    have hoff : address % m.wordBytes < 8 :=
      Nat.lt_of_lt_of_le (Nat.mod_lt _ h.sized.1) h.sized.2
    have hsize := w.size_le
    have hmask : m.mask < 2 ^ 64 := by rw [h.mask, Width.mask]; have := w.size_pos; omega
    have hbyte := byte_lt hoff (Nat.mod_lt v (by decide : 0 < 2 ^ 8))
    rw [store, split_eq h.sized wide, pure_bind, Memory.store]
    cases ht : m.target wide .byte address with
    | error f => rfl
    | ok index =>
      have hread : m.readWord index = .ok (m.cells.get index) :=
        if_pos (Memory.lt_limit_of_target ht)
      have hword : m.cells.get index < 2 ^ 64 := Nat.lt_of_lt_of_le (h.word index) hsize
      simp only [Except.map, shl_eq (show 8 * (address % m.wordBytes) < 64 by omega), pure_bind,
        Nat.mod_eq_of_lt hbyte, ne_eq, and_complement_eq_zero_iff hbyte hmask, hread,
        replaceByte_eq hword hoff (Nat.mod_lt v (by decide : 0 < 2 ^ 8))]
      split <;> rfl

end

section
variable {m : Machine} {c : Config} {w : Width} {tapes : List Nat × List Nat} {r : Reg} {v : Nat}
variable {o : Operand} {i : Instruction}

theorem index_registers (h : r < m.registers.size) : index m.registers r = pure (m.reg r) := by
  rw [index, Array.getElem?_eq_getElem h, Machine.reg, Array.getElem?_eq_getElem h]
  rfl

theorem value_eq (h : o.Within m.registers.size) : value m m.width.alu o = pure (m.operand o) := by
  cases o with
  | reg r => exact index_registers h
  | imm v => rw [value, Width.alu_truncate]; rfl

theorem put_eq (h : r < m.registers.size) : put m m.width.alu r v = pure (m.put r v) := by
  rw [put, index_registers h, pure_bind, Width.alu_truncate]
  rfl

/-- On a valid machine, an instruction whose registers exist comes to its effect. -/
theorem effect_eq (h : m.Valid c w tapes) (hi : i.Within m.registers.size) (wide : Addressing) :
    effect m wide i = pure (m.effect wide i) := by
  have hw := m.width.size_le
  -- what an instruction computes with fits 64 bits
  have hreg (r : Reg) : m.reg r < 2 ^ 64 := by
    have := h.reg r; rw [← h.width] at this; omega
  have hop (o : Operand) : m.operand o < 2 ^ 64 := by
    have := h.operand_lt o; rw [← h.width] at this; omega
  rw [effect, Width.new_alu_bits, pure_bind]
  -- its registers exist, so none of the indices is out of range
  cases i with
  | operate op d a b =>
    obtain ⟨hd, ha, hb⟩ := hi
    simp only [index_registers ha, value_eq hb, pure_bind, Width.alu_eval _ op (hreg a) (hop b),
      put_eq hd]
    rfl
  | not d a =>
    obtain ⟨hd, ha⟩ := hi
    simp only [value_eq ha, pure_bind, Width.alu_not _ (hop a), put_eq hd]
    rfl
  | divide op d a b =>
    obtain ⟨hd, ha, hb⟩ := hi
    simp only [index_registers ha, value_eq hb, pure_bind, Width.alu_divide, Machine.effect]
    cases op.eval? m.width (m.reg a) (m.operand b) with
    | none => rfl
    | some v => simp only [put_eq hd, pure_bind]
  | compare op a b =>
    obtain ⟨ha, hb⟩ := hi
    simp only [index_registers ha, value_eq hb, pure_bind, Width.alu_compare]
    rfl
  | mov d a =>
    obtain ⟨hd, ha⟩ := hi
    simp only [value_eq ha, pure_bind, put_eq hd]
    rfl
  | cmov d a =>
    obtain ⟨hd, ha⟩ := hi
    simp only [value_eq ha, pure_bind, put_eq hd, Machine.effect]
    cases m.flag <;> rfl
  | jump condition target =>
    simp only [value_eq (o := target) hi, pure_bind, Machine.effect]
    cases condition.holds m.flag <;> rfl
  | store access address source =>
    obtain ⟨ha, hs⟩ := hi
    simp only [value_eq ha, index_registers hs, pure_bind, store_eq h.memory, Machine.effect]
    cases m.memory.store wide access (m.operand address) (m.reg source) <;> rfl
  | load access d address =>
    obtain ⟨hd, ha⟩ := hi
    simp only [value_eq ha, pure_bind, load_eq h.memory.sized, Machine.effect]
    cases m.memory.load wide access (m.operand address) with
    | error f => rfl
    | ok v => simp only [put_eq hd, pure_bind]; rfl
  | read d tape =>
    obtain ⟨hd, ha⟩ := hi
    simp only [value_eq ha, pure_bind, Machine.effect]
    cases hn : m.nextWord? (m.operand tape) with
    | none => simp only [put_eq hd, pure_bind]
    | some next =>
      -- the register is set in the machine whose tape has moved, which has the same registers
      obtain ⟨hregs, hwidth⟩ := Machine.nextWord?_registers m hn
      have hput := put_eq (m := next.2) (v := next.1) (hregs ▸ hd)
      rw [hwidth] at hput
      simp only [hput, pure_bind]
  | answer code =>
    simp only [value_eq (o := code) hi, pure_bind]
    rfl

end

end Checked
end WordRam
