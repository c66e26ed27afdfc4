import WordRam.Proofs.Machine.Extends
import WordRam.Proofs.Execution.Protection

/-!
# Restrictions only add faults

A configuration can be relaxed in its memory, which may have more words and lose its protection, and
in the number of its registers. What could be run before can still be run, and from the start on the
machines stay such that the larger one extends the smaller (`Machine.Extends.effect`), so a run that
does not fault at a bound or a protection comes out the same. Main statement: `relaxed_run`.
-/

namespace WordRam

/-- `c'` is `c` with more words of memory, more registers, or the flat memory model, or with all of
these. -/
structure Config.Relaxes (c c' : Config) : Prop where
  dialect : c'.params.dialect = c.params.dialect
  wordBits : c'.params.wordBits = c.params.wordBits
  stepLimit : c'.stepLimit = c.stepLimit
  wide : c'.wide = c.wide
  preload : c'.preload = c.preload
  memoryWords : c.memoryWords ≤ c'.memoryWords
  registers : c.params.registers ≤ c'.params.registers
  bounded : c'.params.registers ≤ maxRegisters
  memory : c'.params.memory = c.params.memory ∨ c'.params.memory = .flat

namespace Config.Relaxes

variable {c c' : Config} {p : Program} {w : Width}

theorem width (h : c.Relaxes c') (hw : c.params.width = .ok w) : c'.params.width = .ok w := by
  obtain ⟨hbits, hpos, -⟩ := Params.width_eq_ok.1 hw
  rw [Params.width_eq_ok, h.wordBits]
  exact ⟨hbits, Nat.le_trans hpos h.registers, h.bounded⟩

theorem accept (h : c.Relaxes c') (ha : c.accept p = .ok w) : c'.accept p = .ok w := by
  obtain ⟨hw, hregisters, hallows, hfits⟩ := Config.accept_ok ha
  refine Config.accept_of (h.width hw) (Nat.le_trans hregisters h.registers) ?_ ?_
  · rw [h.dialect]
    exact hallows
  · rw [h.preload]
    exact Nat.le_trans hfits h.memoryWords

theorem memory_extends (h : c.Relaxes c') (hfits : c.preload.length ≤ c.memoryWords) (w : Width) :
    (c.memory w).Extends (c'.memory w) := by
  have htake : c.preload.take c.memoryWords = c.preload := List.take_of_length_le hfits
  have htake' : c.preload.take c'.memoryWords = c.preload :=
    List.take_of_length_le (Nat.le_trans hfits h.memoryWords)
  constructor
  case cells => simp only [Config.memory, Memory.preload, Memory.ofWidth, h.preload, htake, htake']
  case wordBytes => rfl
  case mask => rfl
  case limit => exact h.memoryWords
  case readOnly =>
    simp only [Config.memory, Memory.preload, Memory.ofWidth, h.preload, htake, htake']
    rcases h.memory with hm | hm
    · rw [hm]
    · simp [hm]

theorem start (h : c.Relaxes c') (hfits : c.preload.length ≤ c.memoryWords) (w : Width)
    (tape0 tape1 : List Nat) :
    (Machine.start w c tape0 tape1).Extends (c'.params.registers - c.params.registers)
      (Machine.start w c' tape0 tape1) := by
  refine ⟨rfl, ?_, rfl, h.memory_extends hfits w, rfl, rfl⟩
  show Array.replicate _ 0 = Array.replicate _ 0 ++ Array.replicate _ 0
  rw [Array.replicate_append_replicate, Nat.add_sub_cancel' h.registers]

end Config.Relaxes

namespace Execution

variable {source : String} {given : Option Params} {p : Program} {c c' : Config}
variable {tape0 tape1 : List Nat} {e e' : Execution} {o : Outcome} {more : Nat}

theorem lockstep_of_relaxes (hc : c.Relaxes c') (hs : start p c tape0 tape1 = .ok e) :
    ∃ e', start p c' tape0 tape1 = .ok e' ∧
      Lockstep (Machine.Extends (c'.params.registers - c.params.registers)) e e' := by
  obtain ⟨w, ha, hs⟩ := bind_ok hs
  cases hs
  obtain ⟨-, -, -, hfits⟩ := Config.accept_ok ha
  rw [start, hc.accept ha]
  exact ⟨_, rfl, rfl, hc.stepLimit, hc.wide, rfl, rfl, rfl, hc.start hfits w tape0 tape1⟩

theorem Lockstep.outcome?_extends (h : Lockstep (Machine.Extends more) e e')
    (ho : e.outcome? = some o) :
    e'.outcome? = some { o with registers := o.registers ++ Array.replicate more 0 } := by
  obtain ⟨halt, hhalt, rfl⟩ := Option.map_eq_some_iff.1 ho
  rw [outcome?, h.status, hhalt, h.machine.registers, h.machine.memory.cells, h.machine.flag, h.pc,
    h.steps]
  rfl

/-- In a relaxed configuration a run that halts, but neither at a bound of memory nor at its
protection, halts with the same outcome, and with zero in the registers that are added. -/
theorem relaxed_run (hp : Program.assemble source given = .ok p)
    (hs : start p c tape0 tape1 = .ok e) (hc : c.Relaxes c') :
    ∃ e', start p c' tape0 tape1 = .ok e' ∧
      ∀ o, e.run.outcome? = some o →
        (∀ pc cause, o.halt = .fault pc cause → ¬ cause.Restricts) →
        e'.run.outcome? = some { o with
          registers := o.registers ++
            Array.replicate (c'.params.registers - c.params.registers) 0 } := by
  obtain ⟨e', hs', hlock⟩ := lockstep_of_relaxes hc hs
  refine ⟨e', hs', fun o ho hunrestricted => ?_⟩
  have hwithin := Program.within_of_assemble hp
  obtain ⟨w, -, hv⟩ := Valid.start hwithin hs
  obtain ⟨w', -, hv'⟩ := Valid.start hwithin hs'
  -- the registers of the program exist in both machines, so each effect corresponds
  have hrun := hlock.run (fun _ _ pc h => h.at_pc pc) hv hv' fun k _ hlock _ _ i hi => by
    have hvk := hv.iterate k
    refine hlock.machine.effect ?_ _
    rw [hvk.machine.size]
    exact hvk.within i (hvk.program ▸ Array.mem_of_getElem? hi)
  rcases hrun with hrun | ⟨pc, cause, hcause, hstatus⟩
  · exact hrun.outcome?_extends ho
  · have hhalt : o.halt = .fault pc cause := by
      have hsome := (outcome_ok ho).1
      rw [hstatus] at hsome
      exact (Status.halted.inj hsome).symm
    exact absurd hcause (hunrestricted pc cause hhalt)

/-- A configuration for `rewriteProgram` in which only the word that it stores to is writable. -/
def tightConfig : Config :=
  { rewriteConfig with preload := [4096 + 5], memoryWords := 2 }

/-- A configuration in which all of memory is writable, with more words and three registers more. -/
def looseConfig : Config :=
  { tightConfig with
    params := { tightConfig.params with memory := .flat, registers := 4 }
    memoryWords := 4096 }

/-- What `rewriteProgram` does in the first configuration it does in the second. -/
theorem relaxed_rewriting :
    tightConfig.Relaxes looseConfig ∧
      ∃ e e' o, start rewriteProgram tightConfig [] [] = .ok e ∧
        start rewriteProgram looseConfig [] [] = .ok e' ∧
        e.run.outcome? = some o ∧ o.halt = .fault 2 .pcOutOfBounds ∧
        e'.run.outcome? = some { o with registers := o.registers ++ Array.replicate 3 0 } := by
  have hc : tightConfig.Relaxes looseConfig := by constructor <;> decide
  obtain ⟨e', hs', hrelaxed⟩ := relaxed_run assemble_rewriteText rfl hc
  refine ⟨hc, _, e', _, rfl, hs', rfl, rfl, ?_⟩
  refine hrelaxed _ rfl fun pc cause hhalt hrestricts => ?_
  cases hhalt
  exact hrestricts

end Execution
end WordRam
