import WordRam.Proofs.Execution.FaultConditions

/-!
# The address of a fault

An access past the end of memory is reported with a number. Mostly it is the value of the address
operand, but for a wide access by the byte it is the index of the word, as the bounds are only
looked at once the address has been divided (`Execution.wide_reports_index`). The address can be
told from it all the same, since it is a multiple of the word size: it is the number reported times
`Config.scale` (`Config.access_of_fault?`). Main statement: `Execution.outOfBounds_after`.
-/

namespace WordRam

/-- How an instruction accesses memory, with the value of its address operand. -/
def Machine.access? (m : Machine) : Instruction → Option (Access × Nat)
  | .store access address _ | .load access _ address => some (access, m.operand address)
  | _ => none

namespace Config

/-- The factor between the number that is reported for an access and the address. -/
def scale (c : Config) (access : Access) : Nat :=
  match access, c.wide with
  | .wide, .byte => c.wordBytes
  | _, _ => 1

variable {c : Config} {w : Width} {write : Bool} {access : Access} {address v n : Nat}
variable {m : Machine} {i : Instruction}

theorem eq_of_wordFault? (h : c.wordFault? write address = some (.outOfBounds n)) :
    n = address := by
  unfold wordFault? at h
  split at h
  · cases h
    rfl
  · split at h <;> cases h

theorem mul_scale_of_wideFault? (h : c.wideFault? write address = some (.outOfBounds n)) :
    n * c.scale .wide = address := by
  unfold wideFault? at h
  unfold scale
  cases hwide : c.wide with
  | word =>
    simp only [hwide] at h ⊢
    rw [eq_of_wordFault? h, Nat.mul_one]
  | byte =>
    simp only [hwide] at h ⊢
    split at h
    · next hdvd => rw [eq_of_wordFault? h, Nat.div_mul_cancel hdvd]
    · cases h

theorem mul_scale_of_loadFault? (h : c.loadFault? access address = some (.outOfBounds n)) :
    n * c.scale access = address := by
  cases access with
  | word => exact (Nat.mul_one n).trans (eq_of_wordFault? h)
  | wide => exact mul_scale_of_wideFault? h
  | byte =>
    simp only [loadFault?] at h
    split at h <;> cases h
    exact Nat.mul_one address

theorem mul_scale_of_storeFault? (h : c.storeFault? access address v = some (.outOfBounds n)) :
    n * c.scale access = address := by
  cases access with
  | word => exact (Nat.mul_one n).trans (eq_of_wordFault? h)
  | wide => exact mul_scale_of_wideFault? h
  | byte =>
    simp only [storeFault?] at h
    split at h
    · cases h
      exact Nat.mul_one address
    · split at h
      · cases h
      · split at h <;> cases h

theorem access_of_fault? (h : c.fault? m i = some (.outOfBounds n)) :
    ∃ access address, m.access? i = some (access, address) ∧ n * c.scale access = address := by
  cases i with
  | divide op d a b =>
    simp only [fault?] at h
    split at h <;> cases h
  | store access address source => exact ⟨access, _, rfl, mul_scale_of_storeFault? h⟩
  | load access d address => exact ⟨access, _, rfl, mul_scale_of_loadFault? h⟩
  | _ => cases h

variable (hbits : w.bits = c.params.wordBits)
include hbits

theorem scale_pos : 0 < c.scale access := by
  have hpos : 0 < c.wordBytes := wordBytes_eq hbits ▸ w.bytes_pos
  unfold scale
  split
  · exact hpos
  · exact Nat.one_pos

theorem scale_eq_one_iff :
    c.scale access = 1 ↔ access ≠ .wide ∨ c.wide = .word ∨ c.params.wordBits ≤ 8 := by
  have hpos := w.one_le_bits
  have hbytes : c.wordBytes = 1 ↔ c.params.wordBits ≤ 8 := by
    unfold wordBytes
    omega
  unfold scale
  cases access <;> cases hwide : c.wide <;> simp [hbytes]

theorem eq_iff_of_mul_scale (h : n * c.scale access = address) : n = address ↔
    (access ≠ .wide ∨ c.wide = .word ∨ c.params.wordBits ≤ 8) ∨ address = 0 := by
  have hpos : 0 < c.scale access := scale_pos hbits
  rw [← scale_eq_one_iff hbits]
  constructor
  · rintro rfl
    rcases Nat.eq_zero_or_pos n with hzero | hn
    · exact .inr hzero
    · exact .inl (Nat.eq_of_mul_eq_mul_left hn (by rw [h, Nat.mul_one]))
  · rintro (hone | rfl)
    · rw [← h, hone, Nat.mul_one]
    · exact (Nat.mul_eq_zero.1 h).resolve_right hpos.ne'

end Config

namespace Execution

variable {p : Program} {c : Config} {w : Width} {tapes : List Nat × List Nat} {e e' : Execution}

theorem Transition.fault_of_outOfBounds (ht : e.Transition e') (hv : e.Valid p c w tapes)
    (hbits : w.bits = c.params.wordBits) (hrun : e.status = .running) {pc n : Nat}
    (hs : e'.status = .halted (.fault pc (.outOfBounds n))) :
    ∃ i, p.instructions[e.machine.pc]? = some i ∧
      c.fault? e.machine i = some (.outOfBounds n) := by
  cases ht with
  | fault ha hi he =>
    cases hs
    rw [hv.program] at hi
    rw [hv.config] at he
    exact ⟨_, hi, (hv.machine.effect_error_iff hbits).1 he⟩
  | limit | outside | answer => cases hs
  | next | goto => exact nomatch hrun.symm.trans hs

/-- A source text that loads a word of four bytes. -/
def loadText : String :=
  "; TinyRAM V=2.00 W=32 K=1
     load.w r0, 8"

/-- The program that `loadText` is. -/
def loadProgram : Program where
  params := { dialect := .v2, wordBits := 32, registers := 1 }
  instructions := #[.load .wide 0 (.imm 8)]
  labels := #[]
  lines := #[2]

theorem assemble_loadText : Program.assemble loadText none = .ok loadProgram := by cbv

/-- The configuration with two words of memory, where neither the word 8 nor the byte 8 is one of
them. -/
def loadConfig (wide : Addressing) : Config :=
  { Config.ofParams loadProgram.params with wide, memoryWords := 2 }

def loading (wide : Addressing) : Execution where
  program := loadProgram
  config := loadConfig wide
  machine := .start ⟨32, by decide, by decide⟩ (loadConfig wide) [] []
  journal := #[.started loadProgram.params 0 0]

theorem start_loading (wide : Addressing) :
    start loadProgram (loadConfig wide) [] [] = .ok (loading wide) := rfl

variable {source : String} {given : Option Params} {tape0 tape1 : List Nat}

/-- After all calls, a step that finds an address past the end of memory reports the value of the
address operand, unless it is a wide access by the byte to a word of several bytes. Then it reports
the index of the word. -/
theorem outOfBounds_after (hp : Program.assemble source given = .ok p)
    (hs : start p c tape0 tape1 = .ok e) (calls : List Call)
    (hrun : (e.after calls).status = .running) {pc n : Nat}
    (hfault : (e.after calls).step.status = .halted (.fault pc (.outOfBounds n))) :
    ∃ i access address, p.instructions[(e.after calls).machine.pc]? = some i ∧
      (e.after calls).machine.access? i = some (access, address) ∧
      n * c.scale access = address ∧
      (n = address ↔
        (access ≠ .wide ∨ c.wide = .word ∨ c.params.wordBits ≤ 8) ∨ address = 0) := by
  obtain ⟨w, hw, hv⟩ := valid_after hp hs
  have hbits := Params.bits_of_width hw
  obtain ⟨i, hi, hcause⟩ :=
    ((hv calls).transition hrun).fault_of_outOfBounds (hv calls) hbits hrun hfault
  obtain ⟨access, address, haccess, hscale⟩ := Config.access_of_fault? hcause
  exact ⟨i, access, address, hi, haccess, hscale, Config.eq_iff_of_mul_scale hbits hscale⟩

/-- Where wide accesses are by the word, the number is the address. -/
theorem outOfBounds_loading :
    (loading .word).status = .running ∧
      (loading .word).step.status = .halted (.fault 0 (.outOfBounds 8)) ∧
      ∃ address, (loading .word).machine.access? (.load .wide 0 (.imm 8)) = some (.wide, address) ∧
        8 = address := by
  have hfault : (loading .word).step.status = .halted (.fault 0 (.outOfBounds 8)) := rfl
  obtain ⟨i, access, address, hi, haccess, -, hsame⟩ :=
    outOfBounds_after assemble_loadText (start_loading .word) [] rfl hfault
  cases hi
  cases haccess
  exact ⟨rfl, hfault, _, rfl, hsame.2 (.inl (.inr (.inl rfl)))⟩

/-- Where they are by the byte, an access at address 8 is reported as one at 2. -/
theorem wide_reports_index :
    ∃ e i, Program.assemble loadText none = .ok loadProgram ∧
      start loadProgram (loadConfig .byte) [] [] = .ok e ∧ e.status = .running ∧
      loadProgram.instructions[e.machine.pc]? = some i ∧
      e.machine.access? i = some (.wide, 8) ∧
      e.step.status = .halted (.fault 0 (.outOfBounds 2)) :=
  ⟨loading .byte, .load .wide 0 (.imm 8), assemble_loadText, rfl, rfl, rfl, rfl, rfl⟩

end Execution
end WordRam
