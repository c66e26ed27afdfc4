import WordRam.Proofs.Machine.Frame
import WordRam.Proofs.Machine.Valid
import WordRam.Proofs.Memory.ByteView

/-!
# What an instruction may change

An instruction that does not fault leaves most of a machine as it is. `Machine.Footprint` says where
it may leave something else: in the register and the flag that it is meant to set, in the word or
the byte of memory that it addresses, and on the tape that it reads. The parts of an instruction
keep to the footprint of the whole, whatever order they come in (`Machine.Footprint.put`,
`Machine.Footprint.setFlag`), and so does the whole: `Machine.Valid.effect_footprint`. That a store
of a byte changes no other byte of its word needs words without bits above the word, since the word
is cut down once more when it is written (`Memory.Valid.store_rewritten`).
-/

namespace WordRam

namespace Instruction

/-- The register that an instruction sets, if it does. -/
def destination? (flag : Bool) : Instruction → Option Reg
  | operate _ d _ _ | not d _ | divide _ d _ _ | mov d _ | load _ d _ | read d _ => some d
  | cmov d _ => if flag then some d else none
  | compare .. | jump .. | store .. | answer _ => none

def SetsFlag : Instruction → Prop
  | operate .. | not .. | divide .. | compare .. | read .. => True
  | mov .. | cmov .. | jump .. | store .. | load .. | answer _ => False

def IsStore : Instruction → Prop
  | store .. => True
  | _ => False

end Instruction

namespace Memory

/-- The memory is another one only in the word that an access means, and for an access to a byte
only in that byte. -/
structure Rewritten (wide : Addressing) (access : Access) (address : Nat) (m m' : Memory) :
    Prop where
  same : m' = { m with cells := m'.cells }
  word : ∃ index, m.target wide access address = .ok index ∧
    (∀ j, j ≠ index → m'.cells.get j = m.cells.get j) ∧
    (access = .byte → ∀ k, k ≠ address % m.wordBytes →
      byteOf (m'.cells.get index) k = byteOf (m.cells.get index) k)

variable {c : Config} {w : Width} {m m' : Memory} {wide : Addressing} {access : Access}
variable {address index v : Nat}

theorem rewritten_of_writeWord (ht : m.target wide access address = .ok index)
    (hw : m.writeWord index v = .ok m')
    (hbyte : access = .byte → ∀ k, k ≠ address % m.wordBytes →
      byteOf (v &&& m.mask) k = byteOf (m.cells.get index) k) :
    m.Rewritten wide access address m' := by
  obtain ⟨-, -, rfl⟩ := writeWord_ok hw
  refine ⟨rfl, index, ht, fun j hj => ?_, fun ha k hk => ?_⟩
  · rw [Cells.get_set, if_neg hj]
  · rw [Cells.get_set, if_pos rfl]
    exact hbyte ha k hk

theorem Valid.store_rewritten (h : m.Valid c w)
    (hs : m.store wide access address v = .ok m') : m.Rewritten wide access address m' := by
  obtain ⟨index, ht, hs⟩ := bind_ok hs
  cases access with
  | word => exact rewritten_of_writeWord ht hs nofun
  | wide => exact rewritten_of_writeWord ht hs nofun
  | byte =>
    have hplace : address % w.bytes < w.bytes := Nat.mod_lt _ w.bytes_pos
    have hv : v % 2 ^ 8 < 2 ^ 8 := Nat.mod_lt _ (by decide)
    dsimp only at hs
    split at hs
    · cases hs
    · next hfits =>
      refine rewritten_of_writeWord ht hs fun _ k hk => ?_
      rw [h.mask, h.wordBytes, not_not, Width.and_mask_eq_iff] at hfits
      have hword := (replaceByte_lt_size_iff (h.word index) hplace hv).2 hfits
      rw [h.wordBytes] at hk ⊢
      rw [h.mask, Width.and_mask_eq_iff.2 hword, byteOf_replaceByte hv, if_neg hk]

end Memory

theorem Tape.next?_eq_some {t u : Tape} {v : Nat} (h : t.next? = some (v, u)) :
    t.consumed < t.words.size ∧ u = { t with consumed := t.consumed + 1 } := by
  obtain ⟨x, hx, heq⟩ := Option.map_eq_some_iff.1 h
  cases heq
  exact ⟨(Array.getElem?_eq_some_iff.1 hx).1, rfl⟩

theorem Tape.size_le_of_next? {t : Tape} (h : t.next? = none) : t.words.size ≤ t.consumed :=
  Array.getElem?_eq_none_iff.1 (Option.map_eq_none_iff.1 h)

namespace Machine

variable {m m' : Machine} {wide : Addressing} {i : Instruction} {n : Next}

/-- A word is taken from one tape. -/
theorem nextWord?_eq_some {j v : Nat} (h : m.nextWord? j = some (v, m')) :
    ∃ t u, m.tape? j = some t ∧ t.next? = some (v, u) ∧
      ∀ k, m'.tape? k = if k = j then some u else m.tape? k := by
  match j with
  | 0 =>
    obtain ⟨⟨x, u⟩, hn, heq⟩ := Option.map_eq_some_iff.1 h
    cases heq
    refine ⟨m.primary, u, rfl, hn, fun k => ?_⟩
    match k with
    | 0 | 1 | _ + 2 => rfl
  | 1 =>
    obtain ⟨⟨x, u⟩, hn, heq⟩ := Option.map_eq_some_iff.1 h
    cases heq
    refine ⟨m.auxiliary, u, rfl, hn, fun k => ?_⟩
    match k with
    | 0 | 1 => rfl
    | k + 2 => simp [tape?]
  | _ + 2 => cases h

theorem next?_of_nextWord? {j : Nat} {t : Tape} (h : m.nextWord? j = none)
    (ht : m.tape? j = some t) : t.next? = none := by
  match j with
  | 0 | 1 =>
    cases ht
    exact Option.map_eq_none_iff.1 h
  | _ + 2 => cases ht

/-! ### Footprints -/

/-- The number of the tape that an instruction reads. -/
def source? (m : Machine) : Instruction → Option Nat
  | .read _ tape => some (m.operand tape)
  | _ => none

/-- The machine is another one only in what an instruction may change. -/
structure Footprint (wide : Addressing) (i : Instruction) (m m' : Machine) : Prop where
  width : m'.width = m.width
  size : m'.registers.size = m.registers.size
  reg : ∀ r, i.destination? m.flag ≠ some r → m'.reg r = m.reg r
  flag : ¬ i.SetsFlag → m'.flag = m.flag
  memory : ¬ i.IsStore → m'.memory = m.memory
  store : ∀ access address source, i = .store access address source →
    m.memory.Rewritten wide access (m.operand address) m'.memory
  tape : ∀ j t, m.tape? j = some t → m'.tape? j = some { t with
    consumed := t.consumed + if m.source? i = some j ∧ t.consumed < t.words.size then 1 else 0 }

namespace Footprint

theorem refl (hi : ¬ i.IsStore) (ht : m.source? i = none) : m.Footprint wide i m where
  width := rfl
  size := rfl
  reg _ _ := rfl
  flag _ := rfl
  memory _ := rfl
  store _ _ _ heq := absurd (heq ▸ trivial) hi
  tape j t hj := by simp [ht, hj]

theorem put (h : m.Footprint wide i m') {d : Reg} (hd : i.destination? m.flag = some d) (v : Nat) :
    m.Footprint wide i (m'.put d v) where
  width := h.width
  size := by rw [put_size, h.size]
  reg r hr := by
    have hne : r ≠ d := fun heq => hr (heq ▸ hd)
    rw [reg_put, if_neg (fun hr => hne hr.1), h.reg r hr]
  flag := h.flag
  memory := h.memory
  store := h.store
  tape := h.tape

theorem setFlag (h : m.Footprint wide i m') (hi : i.SetsFlag) (flag : Bool) :
    m.Footprint wide i (m'.setFlag flag) where
  width := h.width
  size := h.size
  reg := h.reg
  flag hn := absurd hi hn
  memory := h.memory
  store := h.store
  tape := h.tape

theorem at_pc (h : m.Footprint wide i m') (pc : Nat) : m.Footprint wide i { m' with pc } :=
  ⟨h.width, h.size, h.reg, h.flag, h.memory, h.store, h.tape⟩

theorem of_store {access : Access} {address : Operand} {source : Reg} {memory : Memory}
    (h : m.memory.Rewritten wide access (m.operand address) memory) :
    m.Footprint wide (.store access address source) { m with memory } where
  width := rfl
  size := rfl
  reg _ _ := rfl
  flag _ := rfl
  memory hi := absurd trivial hi
  store _ _ _ heq := by
    cases heq
    exact h
  tape j t hj := by
    show m.tape? j = _
    simp [source?, hj]

theorem of_word {d : Reg} {tape : Operand} {v : Nat}
    (h : m.nextWord? (m.operand tape) = some (v, m')) : m.Footprint wide (.read d tape) m' := by
  obtain ⟨hregisters, hwidth⟩ := nextWord?_registers m h
  obtain ⟨t, u, ht, hn, htapes⟩ := nextWord?_eq_some h
  obtain ⟨hlt, rfl⟩ := Tape.next?_eq_some hn
  have hreg (r : Reg) : m'.reg r = m.reg r := by rw [Machine.reg, Machine.reg, hregisters]
  refine ⟨hwidth, by rw [hregisters], fun r _ => hreg r, fun hi => absurd trivial hi,
    fun _ => nextWord?_memory h, fun _ _ _ heq => ?_, fun j s hj => ?_⟩
  · cases heq
  · rw [htapes]
    by_cases heq : j = m.operand tape
    · subst heq
      cases ht.symm.trans hj
      simp [source?, hlt]
    · simp [source?, heq, Ne.symm heq, hj]

theorem of_end {d : Reg} {tape : Operand} (h : m.nextWord? (m.operand tape) = none) :
    m.Footprint wide (.read d tape) m where
  width := rfl
  size := rfl
  reg _ _ := rfl
  flag _ := rfl
  memory _ := rfl
  store _ _ _ heq := by cases heq
  tape j t hj := by
    have hstays : ¬ (m.source? (.read d tape) = some j ∧ t.consumed < t.words.size) := by
      rintro ⟨heq, hlt⟩
      cases heq
      have hle := Tape.size_le_of_next? (next?_of_nextWord? h hj)
      omega
    rw [if_neg hstays, hj]
    rfl

end Footprint

theorem Valid.effect_footprint {c : Config} {w : Width} {tapes : List Nat × List Nat}
    (h : m.Valid c w tapes) (he : m.effect wide i = .ok (m', n)) : m.Footprint wide i m' := by
  -- a footprint is built up from what the instruction does, one write after the other
  cases i with
  | operate op d a b =>
    cases he
    refine .setFlag (.put (.refl id rfl) rfl _) ?_ _
    trivial
  | not d a =>
    cases he
    refine .setFlag (.put (.refl id rfl) rfl _) ?_ _
    trivial
  | divide op d a b =>
    simp only [Machine.effect] at he
    split at he
    · cases he
    · cases he
      refine .setFlag (.put (.refl id rfl) rfl _) ?_ _
      trivial
  | compare op a b =>
    cases he
    refine .setFlag (.refl id rfl) ?_ _
    trivial
  | mov d a =>
    cases he
    exact .put (.refl id rfl) rfl _
  | cmov d a =>
    cases he
    split
    · next hf =>
      refine .put (.refl id rfl) ?_ _
      exact if_pos hf
    · exact .refl id rfl
  | jump condition target =>
    cases he
    exact .refl id rfl
  | store access address source =>
    obtain ⟨memory, hs, heq⟩ := map_ok he
    cases heq
    exact .of_store (h.memory.store_rewritten hs)
  | load access d address =>
    obtain ⟨v, -, heq⟩ := map_ok he
    cases heq
    exact .put (.refl id rfl) rfl v
  | read d tape =>
    simp only [Machine.effect] at he
    split at he
    · next hn =>
      cases he
      -- a word is left, so the tape moves on before the register is set
      refine .setFlag (.put (.of_word hn) rfl _) ?_ _
      trivial
    · next hn =>
      cases he
      refine .setFlag (.put (.of_end hn) rfl _) ?_ _
      trivial
  | answer code =>
    cases he
    exact .refl id rfl

end Machine
end WordRam
