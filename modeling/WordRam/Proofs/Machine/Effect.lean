import WordRam.Machine.Execute
import WordRam.Proofs.Except

/-!
# The effect of an instruction

`Machine.effect` says what an instruction makes of a machine as a whole, without the order in which
the parts of the machine change. Main statement: `execute_eq_effect`. Where the registers that an
instruction names exist and a word has one to eight bytes, executing it in place comes to its
effect, and an instruction that faults leaves the machine that it found.
-/

namespace WordRam

/-- An operand that is a register has an index below `k`. -/
def Operand.Within (k : Nat) : Operand → Prop
  | .reg r => r < k
  | .imm _ => True

/-- Every register among the operands has an index below `k`. -/
def Arguments.Within (k : Nat) {s : Shape} : Arguments Operand s → Prop
  | .ternary d a b => d < k ∧ a < k ∧ b.Within k
  | .binary r a => r < k ∧ a.Within k
  | .unary a => a.Within k
  | .store a r => a.Within k ∧ r < k

/-- Every register that an instruction names has an index below `k`. -/
def Instruction.Within (k : Nat) (i : Instruction) : Prop :=
  i.arguments.Within k

section
variable {k k' : Nat} (hk : k ≤ k')
include hk

theorem Operand.Within.mono {o : Operand} (h : o.Within k) : o.Within k' := by
  cases o with
  | reg r => exact Nat.lt_of_lt_of_le h hk
  | imm v => trivial

theorem Arguments.Within.mono {s : Shape} {args : Arguments Operand s} (h : args.Within k) :
    args.Within k' := by
  cases args with
  | ternary d a b =>
    exact ⟨Nat.lt_of_lt_of_le h.1 hk, Nat.lt_of_lt_of_le h.2.1 hk, h.2.2.mono hk⟩
  | binary r a => exact ⟨Nat.lt_of_lt_of_le h.1 hk, h.2.mono hk⟩
  | unary a => exact Operand.Within.mono hk h
  | store a r => exact ⟨h.1.mono hk, Nat.lt_of_lt_of_le h.2 hk⟩

theorem Instruction.Within.mono {i : Instruction} (h : i.Within k) : i.Within k' :=
  Arguments.Within.mono hk h

end

namespace Memory

/-- A word has at least one byte and at most eight. -/
def Sized (m : Memory) : Prop :=
  0 < m.wordBytes ∧ m.wordBytes ≤ 8

variable (m : Memory)

/-- The index of the word that an access means. -/
def target (wide : Addressing) (access : Access) (address : Nat) : Except Fault Nat :=
  match access, wide with
  | .word, _ | .wide, .word => .ok address
  | .wide, .byte =>
    if address % m.wordBytes = 0 then .ok (address / m.wordBytes)
    else .error (.misaligned address)
  | .byte, _ =>
    if address / m.wordBytes < m.limit then .ok (address / m.wordBytes)
    else .error (.outOfBounds address)

def load (wide : Addressing) (access : Access) (address : Nat) : Except Fault Nat := do
  let index ← m.target wide access address
  let word ← m.readWord index
  match access with
  | .byte => return word / 2 ^ (8 * (address % m.wordBytes)) % 2 ^ 8
  | _ => return word

/-- The memory after a write by an access. -/
def store (wide : Addressing) (access : Access) (address v : Nat) : Except Fault Memory := do
  let index ← m.target wide access address
  match access with
  | .byte =>
    let offset := address % m.wordBytes
    let moved := v % 2 ^ 8 * 2 ^ (8 * offset)
    if moved &&& m.mask ≠ moved then throw (.byteOverflow address)
    m.writeWord index (replaceByte (m.cells.get index) offset (v % 2 ^ 8))
  | _ => m.writeWord index v

variable {m}

theorem divideAddress_eq (h : m.Sized) (address : Nat) :
    m.divideAddress address = .ok (address / m.wordBytes, address % m.wordBytes) := by
  rw [divideAddress, if_neg (Nat.ne_of_gt h.1)]

theorem wordIndex_eq (h : m.Sized) (wide : Addressing) (address : Nat) :
    m.wordIndex address wide = (m.target wide .wide address).mapError .fault := by
  cases wide with
  | word => rfl
  | byte =>
    simp only [wordIndex, target, divideAddress_eq h]
    by_cases ha : address % m.wordBytes = 0
    · simp [ha, bind, Except.bind]; rfl
    · simp [ha, bind, Except.bind]; rfl

theorem byteAt_eq (h : m.Sized) (wide : Addressing) (address : Nat) :
    m.byteAt address = match m.target wide .byte address with
      | .ok index => .ok (index, address % m.wordBytes)
      | .error f => .error (.fault f) := by
  have hoff : address % m.wordBytes < 8 := Nat.lt_of_lt_of_le (Nat.mod_lt _ h.1) h.2
  simp only [byteAt, target, divideAddress_eq h]
  by_cases ha : address / m.wordBytes < m.limit
  · simp [ha, Nat.not_le.2 ha, Nat.not_le.2 hoff, bind, Except.bind]; rfl
  · simp [ha, Nat.not_lt.1 ha, bind, Except.bind]; rfl

theorem lt_limit_of_target {wide : Addressing} {address index : Nat}
    (h : m.target wide .byte address = .ok index) : index < m.limit := by
  simp only [target] at h
  split at h
  · cases h; assumption
  · cases h

end Memory

namespace Machine

variable (m : Machine)

/-- What a register holds, if it exists. -/
def reg (r : Reg) : Nat :=
  (m.registers[r]?).getD 0

def operand : Operand → Nat
  | .reg r => m.reg r
  | .imm v => m.width.truncate v

/-- The machine with a register set to the word that a number leaves. -/
def put (r : Reg) (v : Nat) : Machine :=
  { m with registers := m.registers.setIfInBounds r (m.width.truncate v) }

def setFlag (flag : Bool) : Machine :=
  { m with flag }

/-- What an instruction makes of a machine, and what comes next. -/
def effect (wide : Addressing) : Instruction → Except Fault (Machine × Next)
  | .operate op d a b =>
    let r := op.eval m.width (m.reg a) (m.operand b)
    .ok ((m.put d r.value).setFlag r.flag, .step)
  | .not d a =>
    let r := m.width.not (m.operand a)
    .ok ((m.put d r.value).setFlag r.flag, .step)
  | .divide op d a b =>
    match op.eval? m.width (m.reg a) (m.operand b) with
    | none => .error .divideByZero
    | some v => .ok ((m.put d v).setFlag false, .step)
  | .compare op a b => .ok (m.setFlag (op.eval m.width (m.reg a) (m.operand b)), .step)
  | .mov d a => .ok (m.put d (m.operand a), .step)
  | .cmov d a => .ok (if m.flag then m.put d (m.operand a) else m, .step)
  | .jump condition target =>
    .ok (m, if condition.holds m.flag then .goto (m.operand target) else .step)
  | .store access address source =>
    (m.memory.store wide access (m.operand address) (m.reg source)).map
      fun memory => ({ m with memory }, .step)
  | .load access d address =>
    (m.memory.load wide access (m.operand address)).map fun v => (m.put d v, .step)
  | .read d tape =>
    match m.nextWord? (m.operand tape) with
    | some (v, m) => .ok ((m.put d v).setFlag false, .step)
    | none => .ok ((m.put d 0).setFlag true, .step)
  | .answer code => .ok (m, .answer (m.operand code))

/-- What comes of an effect on a machine in place: a fault leaves the machine. -/
def settle {α : Type} (m : Machine) : Except Fault (Machine × α) → EStateM.Result Stop Machine α
  | .ok (m', a) => .ok a m'
  | .error f => .error (.fault f) m

@[simp] theorem put_size (r : Reg) (v : Nat) : (m.put r v).registers.size = m.registers.size := by
  simp [put]

theorem nextWord?_registers {i v : Nat} {m' : Machine} (h : m.nextWord? i = some (v, m')) :
    m'.registers = m.registers ∧ m'.width = m.width := by
  match i with
  | 0 | 1 =>
    obtain ⟨⟨u, t⟩, -, heq⟩ := Option.map_eq_some_iff.1 h
    cases heq; exact ⟨rfl, rfl⟩
  | _ + 2 => cases h

end Machine

namespace MachineM

variable {m : Machine} {r : Reg} {v : Nat} {o : Operand} {i : Instruction}

/-! ### The parts of an instruction -/

theorem run_bind {α β : Type} (x : MachineM α) (f : α → MachineM β) :
    (x >>= f) m = match x m with
      | .ok a m' => f a m'
      | .error s m' => .error s m' := by
  show EStateM.bind x f m = _
  unfold EStateM.bind
  cases x m <;> rfl

theorem run_width : width m = .ok m.width m := rfl

theorem run_flag : flag m = .ok m.flag m := rfl

theorem run_get (h : r < m.registers.size) : get r m = .ok (m.reg r) m := by
  simp [get, look, Machine.get, Machine.reg, h]

theorem run_value (h : o.Within m.registers.size) : value o m = .ok (m.operand o) m := by
  cases o with
  | reg r => exact run_get h
  | imm v => rfl

theorem run_set (h : r < m.registers.size) : set r v m = .ok () (m.put r v) := by
  simp [set, change, Machine.put, h, Array.setIfInBounds]

theorem run_readMemory (h : m.memory.Sized) (wide : Addressing) (access : Access) (address : Nat) :
    readMemory wide access address m = match m.memory.load wide access address with
      | .ok v => .ok v m
      | .error f => .error (.fault f) m := by
  unfold readMemory look Memory.load
  cases access with
  | word =>
    simp only [Memory.target, bind, Except.bind]
    cases m.memory.readWord address <;> rfl
  | wide =>
    simp only [Memory.wordIndex_eq h, bind, Except.bind]
    cases m.memory.target wide .wide address with
    | error f => rfl
    | ok index => simp only [ok_mapError]; cases m.memory.readWord index <;> rfl
  | byte =>
    simp only [Memory.readByte, Memory.byteAt_eq h wide, bind, Except.bind]
    cases ht : m.memory.target wide .byte address with
    | error f => rfl
    | ok index => simp only [Memory.readWord, if_pos (Memory.lt_limit_of_target ht)]; rfl

theorem run_writeMemory (h : m.memory.Sized) (wide : Addressing) (access : Access)
    (address v : Nat) :
    writeMemory wide access address v m = match m.memory.store wide access address v with
      | .ok memory => .ok () { m with memory }
      | .error f => .error (.fault f) m := by
  unfold writeMemory change Memory.store
  cases access with
  | word =>
    simp only [Memory.target, bind, Except.bind]
    cases m.memory.writeWord address v <;> rfl
  | wide =>
    simp only [Memory.wordIndex_eq h, bind, Except.bind]
    cases m.memory.target wide .wide address with
    | error f => rfl
    | ok index => simp only [ok_mapError]; cases m.memory.writeWord index v <;> rfl
  | byte =>
    simp only [Memory.writeByte, Memory.byteAt_eq h wide, bind, Except.bind]
    cases m.memory.target wide .byte address with
    | error f => rfl
    | ok index =>
      by_cases hfit : v % 2 ^ 8 * 2 ^ (8 * (address % m.memory.wordBytes)) &&& m.memory.mask =
          v % 2 ^ 8 * 2 ^ (8 * (address % m.memory.wordBytes))
      · simp only [hfit, ne_eq, not_true_eq_false, if_false]
        cases m.memory.writeWord index _ <;> rfl
      · simp only [hfit, ne_eq, not_false_eq_true, if_true]; rfl

/-! ### Whole instructions -/

/-- In place, an instruction comes to its effect. -/
theorem execute_eq_effect (h : m.memory.Sized) (hi : i.Within m.registers.size)
    (wide : Addressing) : execute wide i m = m.settle (m.effect wide i) := by
  -- the registers that are named exist, so each action has the outcome of its own lemma
  cases i with
  | operate op d a b =>
    obtain ⟨hd, ha, hb⟩ := hi
    simp only [execute, run_bind, run_get ha, run_value hb, run_width, run_set hd]
    rfl
  | not d a =>
    obtain ⟨hd, ha⟩ := hi
    simp only [execute, run_bind, run_value ha, run_width, run_set hd]
    rfl
  | divide op d a b =>
    obtain ⟨hd, ha, hb⟩ := hi
    simp only [execute, run_bind, run_get ha, run_value hb, run_width, Machine.effect]
    -- a zero divisor stops the instruction before it sets a register
    cases op.eval? m.width (m.reg a) (m.operand b) with
    | none => rfl
    | some v => simp only [run_bind, run_set hd]; rfl
  | compare op a b =>
    obtain ⟨ha, hb⟩ := hi
    simp only [execute, run_bind, run_get ha, run_value hb, run_width]
    rfl
  | mov d a =>
    obtain ⟨hd, ha⟩ := hi
    simp only [execute, run_bind, run_value ha, run_set hd]
    rfl
  | cmov d a =>
    obtain ⟨hd, ha⟩ := hi
    simp only [execute, run_bind, run_flag, Machine.effect]
    cases m.flag with
    | false => rfl
    | true => simp only [if_true, run_bind, run_value ha, run_set hd]; rfl
  | jump condition target =>
    simp only [execute, run_bind, run_flag, Machine.effect]
    cases condition.holds m.flag with
    | false => rfl
    | true => simp only [if_true, run_bind, run_value (o := target) hi]; rfl
  | store access address source =>
    obtain ⟨ha, hs⟩ := hi
    simp only [execute, run_bind, run_value ha, run_get hs, run_writeMemory h, Machine.effect]
    cases m.memory.store wide access (m.operand address) (m.reg source) <;> rfl
  | load access d address =>
    obtain ⟨hd, ha⟩ := hi
    simp only [execute, run_bind, run_value ha, run_readMemory h, Machine.effect]
    cases m.memory.load wide access (m.operand address) with
    | error f => rfl
    | ok v => simp only [run_set hd]; rfl
  | read d tape =>
    obtain ⟨hd, ha⟩ := hi
    simp only [execute, run_bind, run_value ha, readTape, Machine.effect]
    cases hn : m.nextWord? (m.operand tape) with
    | none => simp only [run_bind, run_set hd]; rfl
    | some next =>
      -- the register is set in the machine whose tape has moved
      have hd' : d < next.2.registers.size := by
        rw [(Machine.nextWord?_registers m hn).1]; exact hd
      simp only [run_bind, run_set hd']
      rfl
  | answer code =>
    simp only [execute, run_bind, run_value (o := code) hi]
    rfl

end MachineM

end WordRam
