import WordRam.Proofs.Execution.InBounds
import WordRam.Proofs.Machine.Faults
import WordRam.Proofs.Machine.Frame

/-!
# Protected memory

In the Harvard model, the words that are loaded into memory stay what they are
(`Memory.Keeps`): a store below the protected words is refused whatever it writes, since no access
looks at what the memory holds before it looks at where it is (`Memory.Valid.store_protected`), and a
restart loads the same words again. In the flat model nothing is protected, and so nothing is refused
for protection (`Execution.Keeps`).
-/

namespace WordRam

namespace Memory

variable {c : Config} {w : Width} {m m' : Memory} {wide : Addressing} {access : Access}
variable {address index v : Nat}

/-- The protected words are the ones loaded. -/
def Keeps (c : Config) (w : Width) (m : Memory) : Prop :=
  ∀ i < c.protectedWords, ∀ v, c.preload[i]? = some v → m.cells.get i = v % w.size

/-- The word at a byte address has all the bits of a byte there. -/
def Fits (m : Memory) (address v : Nat) : Prop :=
  v % 2 ^ 8 * 2 ^ (8 * (address % m.wordBytes)) ≤ m.mask

instance : Decidable (m.Fits address v) :=
  inferInstanceAs (Decidable (_ ≤ _))

/-- Why a store to a protected word is refused. A byte that does not fit is noticed first. -/
def refusal (m : Memory) (access : Access) (address v index : Nat) : Fault :=
  if access = .byte ∧ ¬ m.Fits address v then .byteOverflow address else .readOnly index

theorem keeps_config_memory (hc : c.preload.length ≤ c.memoryWords) : (c.memory w).Keeps c w := by
  intro i _ v hv
  rw [Valid.get_config_memory, List.take_of_length_le hc, hv]
  exact w.and_mask v

theorem Valid.keeps_store (h : m.Valid c w) (hk : m.Keeps c w)
    (hs : m.store wide access address v = .ok m') : m'.Keeps c w := by
  obtain ⟨index, u, -, hw⟩ := store_ok hs
  obtain ⟨-, hro, rfl⟩ := writeWord_ok hw
  intro i hi x hx
  have hne : i ≠ index := by
    rw [h.readOnly] at hro
    omega
  rw [Cells.get_set, if_neg hne]
  exact hk i hi x hx

theorem Valid.writeWord_protected (h : m.Valid c w) (hc : c.preload.length ≤ c.memoryWords)
    (hi : index < c.protectedWords) (v : Nat) : m.writeWord index v = .error (.readOnly index) := by
  have hle : c.protectedWords ≤ c.preload.length := by
    unfold Config.protectedWords
    split <;> omega
  have hlimit : ¬ m.limit ≤ index := by
    rw [h.limit]
    omega
  have hro : index < m.readOnly := by
    rw [h.readOnly]
    exact hi
  rw [Memory.writeWord, if_neg hlimit, if_pos hro]

/-- The test for a byte that does not fit its word looks at the bits that the word lacks. -/
theorem Valid.and_mask_eq_iff (h : m.Valid c w) (address v : Nat) :
    v % 2 ^ 8 * 2 ^ (8 * (address % m.wordBytes)) &&& m.mask =
      v % 2 ^ 8 * 2 ^ (8 * (address % m.wordBytes)) ↔ m.Fits address v := by
  have hpos := w.size_pos
  unfold Fits
  rw [h.mask, Width.and_mask_eq_iff, Width.mask]
  omega

theorem Valid.store_protected (h : m.Valid c w) (hc : c.preload.length ≤ c.memoryWords)
    (ht : m.target wide access address = .ok index) (hi : index < c.protectedWords) (v : Nat) :
    m.store wide access address v = .error (m.refusal access address v index) := by
  have hro := h.writeWord_protected hc hi
  rw [Memory.store, ht]
  cases access with
  | word => exact hro v
  | wide => exact hro v
  | byte =>
    simp only [bind, Except.bind, ne_eq, h.and_mask_eq_iff, refusal, true_and]
    split
    · rfl
    · exact hro _

end Memory

namespace Execution

variable {p : Program} {c : Config} {w : Width} {tapes : List Nat × List Nat} {e e' : Execution}

/-- The protected words are the ones loaded, and no other word was refused for protection. -/
structure Keeps (c : Config) (w : Width) (e : Execution) : Prop where
  memory : e.machine.memory.Keeps c w
  refused : ∀ pc i, e.status = .halted (.fault pc (.readOnly i)) → i < c.protectedWords

namespace Keeps

theorem of_transition (hv : e.Valid p c w tapes) (hbits : w.bits = c.params.wordBits)
    (hrun : e.status = .running) (h : e.Keeps c w) (ht : e.Transition e') : e'.Keeps c w := by
  cases ht with
  | limit => exact ⟨h.memory, fun _ _ heq => nomatch heq⟩
  | outside => exact ⟨h.memory, fun _ _ heq => nomatch heq⟩
  | fault ha hi he =>
    refine ⟨h.memory, fun pc i heq => ?_⟩
    cases heq
    rw [hv.config] at he
    exact Config.admits_of_fault? hbits ((hv.machine.effect_error_iff hbits).1 he)
  | @next _ m ha hi he =>
    refine ⟨?_, fun pc i heq => nomatch hrun.symm.trans heq⟩
    rcases Machine.effect_memory he with hm | ⟨access, address, v, hs⟩
    · show m.memory.Keeps c w
      rw [hm]
      exact h.memory
    · -- a store that is not refused is to a word above the protected ones
      exact hv.machine.memory.keeps_store h.memory hs
  | goto => exact ⟨h.memory, fun pc i heq => nomatch hrun.symm.trans heq⟩
  | answer => exact ⟨h.memory, fun _ _ heq => nomatch heq⟩

theorem of_start (hv : e.Valid p c w tapes) (hm : e.machine.memory = c.memory w)
    (hrun : e.status = .running) : e.Keeps c w := by
  refine ⟨?_, fun pc i heq => nomatch hrun.symm.trans heq⟩
  rw [hm]
  exact Memory.keeps_config_memory hv.fits

theorem after (hv : e.Valid p c w tapes) (hbits : w.bits = c.params.wordBits) (h : e.Keeps c w)
    (calls : List Call) : (e.after calls).Keeps c w := by
  refine hv.after_of_transition (fun hv hrun h => h.of_transition hv hbits hrun)
    (fun hv tape0 tape1 => of_start (hv.restart tape0 tape1) ?_ rfl) h calls
  show _ = c.memory w
  rw [← hv.config, ← hv.machine.width]
  rfl

end Keeps

/-- The words that are loaded stay in memory, and a store to one of them halts the machine. -/
structure Protected (c : Config) (e : Execution) : Prop where
  readOnly : e.machine.memory.readOnly = c.preload.length
  word : ∀ i v, c.preload[i]? = some v →
    e.machine.memory.readWord i = .ok (v % 2 ^ c.params.wordBits)
  store : ∀ access address source index, e.status = .running →
    e.fetch = .ok (.store access address source) →
    e.machine.memory.target c.wide access (e.machine.operand address) = .ok index →
    index < c.preload.length →
    e.step.status = .halted (.fault e.machine.pc (e.machine.memory.refusal access
      (e.machine.operand address) (e.machine.reg source) index))

theorem Keeps.protected (hv : e.Valid p c w tapes) (h : e.Keeps c w)
    (hw : c.params.width = .ok w) (hm : c.params.memory = .harvard) : e.Protected c := by
  have hprotected : c.protectedWords = c.preload.length := by
    simp only [Config.protectedWords, hm]
  have hsize : w.size = 2 ^ c.params.wordBits := by rw [Width.size, Params.bits_of_width hw]
  refine ⟨?_, ?_, ?_⟩
  · rw [hv.machine.memory.readOnly, hprotected]
  · intro i v hi
    obtain ⟨hlt, -⟩ := List.getElem?_eq_some_iff.1 hi
    have hlimit : i < e.machine.memory.limit := by
      rw [hv.machine.memory.limit]
      exact Nat.lt_of_lt_of_le hlt hv.fits
    rw [Memory.readWord, if_pos hlimit, h.memory i (hprotected ▸ hlt) v hi, hsize]
  · intro access address source index hrun hf ht hi
    -- the store is refused, and a refused instruction changes nothing but the count
    have hrefused := hv.machine.memory.store_protected hv.fits ht (hprotected ▸ hi)
      (e.machine.reg source)
    have heffect : e.machine.effect e.config.wide (.store access address source) =
        .error (e.machine.memory.refusal access (e.machine.operand address)
          (e.machine.reg source) index) := by
      rw [Machine.effect, hv.config, hrefused]
      rfl
    have hwithin := hv.within _ (hv.program ▸ Array.mem_of_getElem? (fetch_ok hf))
    rw [← hv.machine.size] at hwithin
    rw [step_of_running hrun, hf]
    simp only [perform_count hv.machine.memory.sized hwithin, heffect]
    rfl

/-- A source text that stores a word where it already is. -/
def rewriteText : String :=
  "; TinyRAM V=2.00 M=hv W=12 K=1
     mov r0, 7
     store.w 2, r0"

/-- The program that `rewriteText` is. -/
def rewriteProgram : Program where
  params := { dialect := .v2, memory := .harvard, wordBits := 12, registers := 1 }
  instructions := #[.mov 0 (.imm 7), .store .wide (.imm 2) 0]
  labels := #[]
  lines := #[2, 3]

theorem assemble_rewriteText : Program.assemble rewriteText none = .ok rewriteProgram := by cbv

/-- The configuration in which the word is the second of two that are loaded. -/
def rewriteConfig : Config :=
  { Config.ofParams rewriteProgram.params with preload := [4096 + 5, 7] }

def rewriting : Execution where
  program := rewriteProgram
  config := rewriteConfig
  machine := .start ⟨12, by decide, by decide⟩ rewriteConfig [] []
  journal := #[.started rewriteProgram.params 0 0]

theorem start_rewriting : start rewriteProgram rewriteConfig [] [] = .ok rewriting := rfl

variable {source : String} {given : Option Params} {tape0 tape1 : List Nat}

/-- After all calls, in the Harvard model the loaded words are protected, and in the flat model no
store has been refused for protection. -/
theorem protected_after (hp : Program.assemble source given = .ok p)
    (hs : start p c tape0 tape1 = .ok e) (calls : List Call) :
    (c.params.memory = .harvard → (e.after calls).Protected c) ∧
      (c.params.memory = .flat →
        ∀ pc i, (e.after calls).status ≠ .halted (.fault pc (.readOnly i))) := by
  obtain ⟨w, hw, hv⟩ := Valid.start (Program.within_of_assemble hp) hs
  obtain ⟨w', ha, hs⟩ := bind_ok hs
  have hk : e.Keeps c w := by
    have hwidth := hv.machine.width
    cases hs
    cases hwidth
    exact .of_start hv rfl rfl
  have hkeeps := hk.after hv (Params.bits_of_width hw) calls
  refine ⟨fun hm => hkeeps.protected (hv.after calls) hw hm, fun hm pc i heq => ?_⟩
  have hlt := hkeeps.refused pc i heq
  simp only [Config.protectedWords, hm] at hlt
  exact Nat.not_lt_zero i hlt

/-- Storing a word where it already is halts the machine too. -/
theorem protected_rewriting :
    rewriteConfig.params.memory = .harvard ∧ (rewriting.after [.step]).Protected rewriteConfig ∧
      (rewriting.after [.step]).step.status = .halted (.fault 1 (.readOnly 1)) := by
  obtain ⟨hharvard, -⟩ := protected_after assemble_rewriteText start_rewriting [.step]
  have hprotected := hharvard rfl
  exact ⟨rfl, hprotected, hprotected.store .wide (.imm 2) 0 1 rfl rfl rfl (by decide)⟩

end Execution
end WordRam
