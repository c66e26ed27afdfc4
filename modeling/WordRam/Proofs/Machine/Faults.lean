import WordRam.Proofs.Machine.Valid
import WordRam.Proofs.Memory.Bytes

/-!
# The faults of instructions

Whether an instruction faults, and how, depends on its operands and on the numbers in the
configuration alone, not on what memory holds. `Config.fault?` is the table of the conditions, where
the ones above come before the ones below. Main statement: `Machine.Valid.effect_error_iff`. Some
faults are found in certain configurations only (`Config.Admits`): a word is refused only where
words are protected, a byte overflows only where words have a partial top byte, and an address is
misaligned only where it counts bytes and words have several of them.
-/

namespace WordRam

namespace Config

variable (c : Config)

/-- The number of bytes in a word. -/
def wordBytes : Nat :=
  (c.params.wordBits + 7) / 8

/-- Why the word at an index cannot be read, or cannot be written. -/
def wordFault? (write : Bool) (index : Nat) : Option Fault :=
  if c.memoryWords ≤ index then some (.outOfBounds index)
  else if write ∧ index < c.protectedWords then some (.readOnly index)
  else none

/-- Why a wide access fails. -/
def wideFault? (write : Bool) (address : Nat) : Option Fault :=
  match c.wide with
  | .word => c.wordFault? write address
  | .byte =>
    if c.wordBytes ∣ address then c.wordFault? write (address / c.wordBytes)
    else some (.misaligned address)

/-- Why an access cannot read at an address. -/
def loadFault? (access : Access) (address : Nat) : Option Fault :=
  match access with
  | .word => c.wordFault? false address
  | .wide => c.wideFault? false address
  | .byte => if c.memoryWords ≤ address / c.wordBytes then some (.outOfBounds address) else none

/-- Why an access cannot write `v` at an address. A byte takes the low eight bits of `v`. -/
def storeFault? (access : Access) (address v : Nat) : Option Fault :=
  match access with
  | .word => c.wordFault? true address
  | .wide => c.wideFault? true address
  | .byte =>
    if c.memoryWords ≤ address / c.wordBytes then some (.outOfBounds address)
    else if 2 ^ c.params.wordBits ≤ v % 256 * 256 ^ (address % c.wordBytes) then
      some (.byteOverflow address)
    else if address / c.wordBytes < c.protectedWords then
      some (.readOnly (address / c.wordBytes))
    else none

/-- Why an instruction faults on a machine, if it does. -/
def fault? (m : Machine) : Instruction → Option Fault
  | .divide _ _ _ divisor => if m.operand divisor = 0 then some .divideByZero else none
  | .load access _ address => c.loadFault? access (m.operand address)
  | .store access address source => c.storeFault? access (m.operand address) (m.reg source)
  | _ => none

/-- Nothing in the configuration rules a fault out. -/
def Admits : Fault → Prop
  | .readOnly index => index < c.protectedWords
  | .byteOverflow _ => ¬ 8 ∣ c.params.wordBits
  | .misaligned _ => 8 < c.params.wordBits ∧ c.wide = .byte
  | _ => True

variable {c} {w : Width} {write : Bool} {access : Access} {index address v : Nat} {cause : Fault}
variable {m : Machine} {i : Instruction}

theorem admits_of_wordFault? (h : c.wordFault? write index = some cause) : c.Admits cause := by
  unfold wordFault? at h
  split at h
  · cases h
    trivial
  · split at h
    · next hro =>
      cases h
      exact hro.2
    · cases h

variable (hbits : w.bits = c.params.wordBits)
include hbits

theorem wordBytes_eq : c.wordBytes = w.bytes := by
  rw [wordBytes, ← hbits]
  rfl

theorem admits_of_wideFault? (h : c.wideFault? write address = some cause) : c.Admits cause := by
  unfold wideFault? at h
  split at h
  · exact admits_of_wordFault? h
  · next hwide =>
    split at h
    · exact admits_of_wordFault? h
    · next hodd =>
      cases h
      refine ⟨?_, hwide⟩
      -- every address is a multiple of one
      by_contra hnarrow
      have hone : c.wordBytes = 1 := by
        have hpos := w.one_le_bits
        unfold wordBytes
        omega
      exact hodd (hone ▸ Nat.one_dvd address)

theorem admits_of_loadFault? (h : c.loadFault? access address = some cause) : c.Admits cause := by
  unfold loadFault? at h
  split at h
  · exact admits_of_wordFault? h
  · exact admits_of_wideFault? hbits h
  · split at h <;> cases h
    trivial

theorem admits_of_storeFault? (h : c.storeFault? access address v = some cause) :
    c.Admits cause := by
  unfold storeFault? at h
  split at h
  · exact admits_of_wordFault? h
  · exact admits_of_wideFault? hbits h
  · split at h
    · cases h
      trivial
    · split at h
      · next hlarge =>
        cases h
        rw [wordBytes_eq hbits, ← Nat.pow_mul 2 8, ← hbits] at hlarge
        have htop := Width.top_of_size_le (Nat.mod_lt _ w.bytes_pos) (Nat.mod_lt v (by decide))
          hlarge
        show ¬ 8 ∣ c.params.wordBits
        exact hbits ▸ htop.2
      · split at h
        · next hro =>
          cases h
          exact hro
        · cases h

theorem admits_of_fault? (h : c.fault? m i = some cause) : c.Admits cause := by
  unfold fault? at h
  split at h
  · split at h <;> cases h
    trivial
  · exact admits_of_loadFault? hbits h
  · exact admits_of_storeFault? hbits h
  · cases h

end Config

namespace Memory.Valid

variable {c : Config} {w : Width} {m : Memory} {index address v : Nat} {cause : Fault}
variable (h : m.Valid c w)
include h

theorem readWord_error_iff :
    m.readWord index = .error cause ↔ c.wordFault? false index = some cause := by
  rw [readWord, Config.wordFault?, h.limit]
  by_cases hi : c.memoryWords ≤ index
  · simp [hi, Nat.not_lt.2 hi]
  · simp [hi, Nat.not_le.1 hi]

theorem writeWord_error_iff :
    m.writeWord index v = .error cause ↔ c.wordFault? true index = some cause := by
  rw [Memory.writeWord, Config.wordFault?, h.limit, h.readOnly]
  by_cases hi : c.memoryWords ≤ index
  · simp [hi]
  · by_cases hro : index < c.protectedWords
    · simp [hi, hro]
    · simp [hi, hro]

variable (hbits : w.bits = c.params.wordBits)
include hbits

/-- A wide access fails by its address, or as an access to the word that it means. -/
theorem wide_error_iff {α : Type} {write : Bool} {access : Nat → Except Fault α}
    (haccess : ∀ index, access index = .error cause ↔ c.wordFault? write index = some cause) :
    (m.target c.wide .wide address >>= access) = .error cause ↔
      c.wideFault? write address = some cause := by
  unfold target Config.wideFault?
  cases c.wide with
  | word => exact haccess address
  | byte =>
    simp only [Config.wordBytes_eq hbits, h.wordBytes, Nat.dvd_iff_mod_eq_zero]
    by_cases hmod : address % w.bytes = 0
    · simp only [if_pos hmod]
      exact haccess _
    · simp [hmod, bind, Except.bind]

theorem load_error_iff {access : Access} :
    m.load c.wide access address = .error cause ↔ c.loadFault? access address = some cause := by
  cases access with
  | word => exact bind_pure_error_iff.trans h.readWord_error_iff
  | wide => exact h.wide_error_iff hbits fun index => bind_pure_error_iff.trans h.readWord_error_iff
  | byte =>
    unfold load target Config.loadFault?
    simp only [Config.wordBytes_eq hbits, h.wordBytes, h.limit]
    by_cases hi : c.memoryWords ≤ address / w.bytes
    · simp [hi, Nat.not_lt.2 hi, bind, Except.bind]
    · simp [hi, Nat.not_le.1 hi, h.limit, readWord, bind, Except.bind, pure, Except.pure]

theorem store_error_iff {access : Access} : m.store c.wide access address v = .error cause ↔
    c.storeFault? access address v = some cause := by
  cases access with
  | word => exact h.writeWord_error_iff
  | wide => exact h.wide_error_iff hbits fun index => h.writeWord_error_iff
  | byte =>
    have hpow : (2 : Nat) ^ (8 * (address % w.bytes)) = 256 ^ (address % w.bytes) :=
      Nat.pow_mul 2 8 _
    have hsize : w.size = 2 ^ c.params.wordBits := by rw [Width.size, hbits]
    unfold Memory.store target Config.storeFault?
    simp only [Config.wordBytes_eq hbits, h.wordBytes, h.limit, h.mask, ← hpow, ← hsize, ne_eq,
      Width.and_mask_eq_iff, Nat.not_lt]
    by_cases hi : c.memoryWords ≤ address / w.bytes
    · simp [hi, Nat.not_lt.2 hi, bind, Except.bind]
    · rw [if_neg hi, if_pos (Nat.not_le.1 hi)]
      by_cases hlarge : w.size ≤ v % 2 ^ 8 * 2 ^ (8 * (address % w.bytes))
      · simp only [bind, Except.bind, if_pos hlarge]
        simp [throw, throwThe, MonadExceptOf.throw]
      · simp only [bind, Except.bind, if_neg hlarge]
        refine h.writeWord_error_iff.trans ?_
        simp only [Config.wordFault?, if_neg hi, true_and]

end Memory.Valid

theorem Machine.Valid.effect_error_iff {c : Config} {w : Width} {tapes : List Nat × List Nat}
    {m : Machine} (h : m.Valid c w tapes) (hbits : w.bits = c.params.wordBits) {i : Instruction}
    {cause : Fault} : m.effect c.wide i = .error cause ↔ c.fault? m i = some cause := by
  cases i with
  | divide op d a b =>
    by_cases hb : m.operand b = 0
    · cases op <;> simp [Machine.effect, Config.fault?, Division.eval?, Width.div?, Width.mod?, hb]
    · cases op <;> simp [Machine.effect, Config.fault?, Division.eval?, Width.div?, Width.mod?, hb]
  | store access address source =>
    exact map_error_iff.trans (h.memory.store_error_iff hbits)
  | load access d address =>
    exact map_error_iff.trans (h.memory.load_error_iff hbits)
  | read d tape =>
    simp only [Machine.effect, Config.fault?]
    split <;> simp
  | _ => simp [Machine.effect, Config.fault?]

end WordRam
