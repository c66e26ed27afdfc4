import WordRam.Proofs.Machine.Effect

/-!
# Valid machines

A machine is valid for a configuration, a width and two tapes if it has the registers and the memory
of the configuration, every register and every cell of memory holds a word, no cell past the limit
holds anything, and the tapes are those given, read no further than to their ends. It is so at the
start (`Machine.Valid.start`), and every effect of an instruction keeps it so
(`Machine.Valid.effect`): operands are words wherever they come from.
-/

namespace WordRam

/-- The number of words at the bottom of memory that cannot be written. -/
def Config.protectedWords (c : Config) : Nat :=
  match c.params.memory with
  | .flat => 0
  | .harvard => c.preload.length

namespace Memory

theorem and_mask_lt (w : Width) (v : Nat) : v &&& w.mask < w.size :=
  Nat.lt_of_le_of_lt Nat.and_le_right (Nat.sub_lt Width.size_pos Nat.one_pos)

/-- The memory of a configuration, with any words in it. -/
structure Valid (c : Config) (w : Width) (m : Memory) : Prop where
  limit : m.limit = c.memoryWords
  readOnly : m.readOnly = c.protectedWords
  wordBytes : m.wordBytes = w.bytes
  mask : m.mask = w.mask
  word : ∀ i, m.cells.get i < w.size
  outside : ∀ i, c.memoryWords ≤ i → m.cells.get i = 0

variable {c : Config} {w : Width} {m m' : Memory} {wide : Addressing} {access : Access}
variable {address index v : Nat}

theorem writeWord_ok (h : m.writeWord index v = .ok m') :
    index < m.limit ∧ m.readOnly ≤ index ∧
      m' = { m with cells := m.cells.set index (v &&& m.mask) } := by
  unfold writeWord at h
  split at h
  · cases h
  · split at h
    · cases h
    · cases h; exact ⟨Nat.not_le.1 ‹_›, Nat.not_lt.1 ‹_›, rfl⟩

/-- Whatever access writes, one word is written at the index that the access means. -/
theorem store_ok (h : m.store wide access address v = .ok m') :
    ∃ index u, m.target wide access address = .ok index ∧ m.writeWord index u = .ok m' := by
  obtain ⟨index, ht, h⟩ := bind_ok h
  refine ⟨index, ?_⟩
  cases access with
  | word => exact ⟨_, ht, h⟩
  | wide => exact ⟨_, ht, h⟩
  | byte =>
    dsimp only at h
    split at h
    · cases h
    · exact ⟨_, ht, h⟩

namespace Valid

theorem sized (h : m.Valid c w) : m.Sized :=
  ⟨h.wordBytes ▸ Width.bytes_pos, h.wordBytes ▸ Width.bytes_le⟩

theorem writeWord (h : m.Valid c w) (hw : m.writeWord index v = .ok m') : m'.Valid c w := by
  obtain ⟨hlt, -, rfl⟩ := writeWord_ok hw
  refine ⟨h.limit, h.readOnly, h.wordBytes, h.mask, fun i => ?_, fun i hi => ?_⟩
  · rw [Cells.get_set]
    split
    · rw [h.mask]; exact and_mask_lt w v
    · exact h.word i
  · rw [Cells.get_set, if_neg (Nat.ne_of_gt (Nat.lt_of_lt_of_le (h.limit ▸ hlt) hi))]
    exact h.outside i hi

theorem store (h : m.Valid c w) (hs : m.store wide access address v = .ok m') : m'.Valid c w := by
  obtain ⟨_, _, -, hw⟩ := store_ok hs
  exact h.writeWord hw

/-- What the memory of a configuration holds when the run starts. -/
theorem get_config_memory (c : Config) (w : Width) (i : Nat) :
    (c.memory w).cells.get i =
      (((c.preload.take c.memoryWords)[i]?).map (· &&& w.mask)).getD 0 := by
  simp only [Config.memory, preload, Memory.ofWidth, Cells.get_ofList, List.getElem?_map]

theorem config_memory (hc : c.preload.length ≤ c.memoryWords) : (c.memory w).Valid c w := by
  refine ⟨rfl, ?_, rfl, rfl, fun i => ?_, fun i hi => ?_⟩
  · cases hm : c.params.memory <;>
      simp [Config.memory, preload, Memory.ofWidth, Config.protectedWords, hm, hc]
  · rw [get_config_memory]
    cases (c.preload.take c.memoryWords)[i]? with
    | none => exact Width.size_pos
    | some u => exact and_mask_lt w u
  · rw [get_config_memory, List.getElem?_eq_none (by simp; omega)]
    rfl

end Valid

end Memory

/-- A tape of given words, read no further than to its end. -/
structure Tape.Valid (given : List Nat) (t : Tape) : Prop where
  words : t.words = given.toArray
  consumed : t.consumed ≤ given.length

namespace Tape.Valid

theorem ofList (words : List Nat) : (Tape.ofList words).Valid words :=
  ⟨rfl, Nat.zero_le _⟩

theorem le_size {words : List Nat} {t : Tape} (h : t.Valid words) :
    t.consumed ≤ t.words.size := by
  rw [h.words]; exact h.consumed

theorem next? {words : List Nat} {t u : Tape} {v : Nat} (h : t.Valid words)
    (hn : t.next? = some (v, u)) : u.Valid words := by
  obtain ⟨x, hx, heq⟩ := Option.map_eq_some_iff.1 hn
  cases heq
  obtain ⟨hlt, -⟩ := Array.getElem?_eq_some_iff.1 hx
  exact ⟨h.words, by rw [h.words] at hlt; exact hlt⟩

end Tape.Valid

/-- The numbers in what comes next are words. -/
def Next.Valid (w : Width) : Next → Prop
  | .step => True
  | .goto target => target < w.size
  | .answer code => code < w.size

namespace Machine

/-- A machine of a configuration, with words in its registers and its memory. -/
structure Valid (c : Config) (w : Width) (tapes : List Nat × List Nat) (m : Machine) : Prop where
  width : m.width = w
  size : m.registers.size = c.params.registers
  reg : ∀ r, m.reg r < w.size
  memory : m.memory.Valid c w
  primary : m.primary.Valid tapes.1
  auxiliary : m.auxiliary.Valid tapes.2

theorem reg_put (m : Machine) (d r : Reg) (v : Nat) :
    (m.put d v).reg r = if r = d ∧ d < m.registers.size then m.width.truncate v else m.reg r := by
  simp only [put, reg, Array.getElem?_setIfInBounds]
  by_cases h : r = d
  · subst h
    by_cases hr : r < m.registers.size <;> simp [hr]
  · simp [h, Ne.symm h]

variable {c : Config} {w : Width} {tapes : List Nat × List Nat} {m m' : Machine}
variable {wide : Addressing} {i : Instruction} {n : Next}

/-- What comes next is another instruction, or the machine is as it was and the number that comes
next is the value of an operand. -/
theorem effect_next (he : m.effect wide i = .ok (m', n)) :
    n = .step ∨ m' = m ∧ ∃ o : Operand, n = .goto (m.operand o) ∨ n = .answer (m.operand o) := by
  cases i with
  | divide op d a b =>
    simp only [Machine.effect] at he
    split at he
    · cases he
    · cases he; exact .inl rfl
  | jump condition target =>
    simp only [Machine.effect] at he
    cases he
    split
    · exact .inr ⟨rfl, target, .inl rfl⟩
    · exact .inl rfl
  | store access address source =>
    obtain ⟨memory, -, heq⟩ := map_ok he
    cases heq; exact .inl rfl
  | load access d address =>
    obtain ⟨v, -, heq⟩ := map_ok he
    cases heq; exact .inl rfl
  | read d tape =>
    simp only [Machine.effect] at he
    split at he <;> (cases he; exact .inl rfl)
  | answer code => cases he; exact .inr ⟨rfl, code, .inr rfl⟩
  | _ => cases he; exact .inl rfl

namespace Valid

theorem start (hc : c.preload.length ≤ c.memoryWords) (tapes : List Nat × List Nat) :
    (Machine.start w c tapes.1 tapes.2).Valid c w tapes where
  width := rfl
  size := by simp [Machine.start]
  reg r := by
    simp only [Machine.reg, Machine.start, Array.getElem?_replicate]
    split <;> exact Width.size_pos
  memory := Memory.Valid.config_memory hc
  primary := .ofList _
  auxiliary := .ofList _

theorem operand_lt (h : m.Valid c w tapes) (o : Operand) : m.operand o < w.size := by
  cases o with
  | reg r => exact h.reg r
  | imm v => rw [← h.width]; exact Width.truncate_lt v

theorem put (h : m.Valid c w tapes) (d : Reg) (v : Nat) : (m.put d v).Valid c w tapes where
  width := h.width
  size := by rw [put_size]; exact h.size
  reg r := by
    rw [reg_put]
    split
    · rw [← h.width]; exact Width.truncate_lt v
    · exact h.reg r
  memory := h.memory
  primary := h.primary
  auxiliary := h.auxiliary

theorem setFlag (h : m.Valid c w tapes) (flag : Bool) : (m.setFlag flag).Valid c w tapes :=
  ⟨h.width, h.size, h.reg, h.memory, h.primary, h.auxiliary⟩

theorem pc (h : m.Valid c w tapes) (pc : Nat) : { m with pc }.Valid c w tapes :=
  ⟨h.width, h.size, h.reg, h.memory, h.primary, h.auxiliary⟩

theorem nextWord? {j v : Nat} (h : m.Valid c w tapes) (hn : m.nextWord? j = some (v, m')) :
    m'.Valid c w tapes := by
  match j with
  | 0 =>
    obtain ⟨⟨u, t⟩, ht, heq⟩ := Option.map_eq_some_iff.1 hn
    cases heq
    exact ⟨h.width, h.size, h.reg, h.memory, h.primary.next? ht, h.auxiliary⟩
  | 1 =>
    obtain ⟨⟨u, t⟩, ht, heq⟩ := Option.map_eq_some_iff.1 hn
    cases heq
    exact ⟨h.width, h.size, h.reg, h.memory, h.primary, h.auxiliary.next? ht⟩
  | _ + 2 => cases hn

/-- Every instruction keeps a machine valid. -/
theorem effect (h : m.Valid c w tapes) (he : m.effect wide i = .ok (m', n)) :
    m'.Valid c w tapes := by
  -- whatever is put into a register or in memory is cut down to a word
  cases i with
  | operate op d a b => cases he; exact (h.put d _).setFlag _
  | not d a => cases he; exact (h.put d _).setFlag _
  | divide op d a b =>
    simp only [Machine.effect] at he
    split at he
    · cases he
    · cases he; exact (h.put d _).setFlag _
  | compare op a b => cases he; exact h.setFlag _
  | mov d a => cases he; exact h.put d _
  | cmov d a =>
    cases he
    split
    · exact h.put d _
    · exact h
  | jump condition target => cases he; exact h
  | store access address source =>
    obtain ⟨memory, hs, heq⟩ := map_ok he
    cases heq
    exact ⟨h.width, h.size, h.reg, h.memory.store hs, h.primary, h.auxiliary⟩
  | load access d address =>
    obtain ⟨v, -, heq⟩ := map_ok he
    cases heq; exact h.put d v
  | read d tape =>
    simp only [Machine.effect] at he
    split at he
    · next hn => cases he; exact ((h.nextWord? hn).put d _).setFlag _
    · cases he; exact (h.put d _).setFlag _
  | answer code => cases he; exact h

/-- Targets and codes are words. -/
theorem next (h : m.Valid c w tapes) (he : m.effect wide i = .ok (m', n)) : n.Valid w := by
  obtain rfl | ⟨-, o, rfl | rfl⟩ := effect_next he
  · trivial
  · exact h.operand_lt o
  · exact h.operand_lt o

end Valid

end Machine

end WordRam
