import WordRam.Proofs.Assembly.Dialect
import WordRam.Proofs.Execution.InBounds
import WordRam.Proofs.Execution.Trajectory
import WordRam.Proofs.Execution.Lockstep

/-!
# The dialect is a filter

A dialect decides what can be assembled and which programs a configuration accepts, and it has no
part in what a program does: the executions of a program in both dialects stay in lockstep, with the
same machine (`Execution.outcome_v2`). Main statement: `Program.dialect_filters`.
-/

namespace WordRam

def Config.withDialect (c : Config) (d : Dialect) : Config :=
  { c with params := c.params.withDialect d }

/-- What is accepted in the first dialect is accepted in the second. -/
theorem Config.accept_v2 {c : Config} {p : Program} {w : Width}
    (h : (c.withDialect .v1).accept p = .ok w) : (c.withDialect .v2).accept p = .ok w := by
  obtain ⟨hw, hregisters, -, hfits⟩ := accept_ok h
  exact accept_of hw hregisters (fun i _ => Dialect.v2_allows i.opcode) hfits

namespace Execution

variable {source : String} {given : Option Params} {p : Program} {c : Config}
variable {tape0 tape1 : List Nat} {a b e : Execution}

theorem Lockstep.outcome?_same (h : Lockstep (· = ·) a b) : b.outcome? = a.outcome? := by
  have hmachine : a.machine = b.machine := h.machine
  rw [outcome?, outcome?, h.status, h.steps, hmachine]

theorem start_v2 (hs : start p (c.withDialect .v1) tape0 tape1 = .ok a) :
    ∃ b, start p (c.withDialect .v2) tape0 tape1 = .ok b ∧ Lockstep (· = ·) a b := by
  obtain ⟨w, ha, hs⟩ := bind_ok hs
  cases hs
  rw [start, Config.accept_v2 ha]
  exact ⟨_, rfl, rfl, rfl, rfl, rfl, rfl, rfl, rfl⟩

/-- An execution that the first dialect accepts has the same outcome in the second. -/
theorem outcome_v2 (hp : Program.assemble source given = .ok p)
    (hs : start p (c.withDialect .v1) tape0 tape1 = .ok a) :
    ∃ b, start p (c.withDialect .v2) tape0 tape1 = .ok b ∧ b.run.outcome? = a.run.outcome? := by
  obtain ⟨b, hs', hlock⟩ := start_v2 hs
  have hwithin := Program.within_of_assemble hp
  obtain ⟨w, -, ha⟩ := Valid.start hwithin hs
  obtain ⟨w', -, hb⟩ := Valid.start hwithin hs'
  have hrun : Lockstep (· = ·) a.run b.run ∨ a.run.Excused fun _ => False := by
    refine hlock.run (fun m m' pc h => by rw [h]) ha hb fun k _ hlock _ _ i _ => ?_
    have hmachine : (step^[k] a).machine = (step^[k] b).machine := hlock.machine
    rw [hmachine]
    exact .of_eq (fun _ => ⟨rfl, rfl⟩) _
  refine ⟨b, hs', ?_⟩
  rcases hrun with hrun | ⟨_, _, hfalse, -⟩
  · exact hrun.outcome?_same
  · exact hfalse.elim

end Execution

namespace Program

/-- The first dialect is the second without some opcodes, for the assembler and for every run. -/
structure DialectFilters (source : String) (p : Params) : Prop where
  widen : ∀ q, assemble source (some (p.withDialect .v1)) = .ok q →
    assemble source (some (p.withDialect .v2)) = .ok (q.withDialect .v2)
  narrow : ∀ q, assemble source (some (p.withDialect .v2)) = .ok q →
    (∀ i ∈ q.instructions, Dialect.v1.allows i.opcode) ∧
        assemble source (some (p.withDialect .v1)) = .ok (q.withDialect .v1) ∨
      ∃ pc i line, q.FirstLacking pc i ∧ q.line? pc = some line ∧
        assemble source (some (p.withDialect .v1)) = .error ⟨line, .notInDialect i.opcode .v1⟩
  run : ∀ q (c : Config) tape0 tape1 a, assemble source (some (p.withDialect .v1)) = .ok q →
    Execution.start q (c.withDialect .v1) tape0 tape1 = .ok a →
    ∃ b, Execution.start q (c.withDialect .v2) tape0 tape1 = .ok b ∧
      b.run.outcome? = a.run.outcome?

theorem dialect_filters (source : String) (p : Params) : DialectFilters source p where
  widen _ := assemble_v2
  narrow _ := assemble_v1
  run _ _ _ _ _ := Execution.outcome_v2

/-- The first dialect refuses an opcode before the operands of that line are looked at, and before a
label that is not defined. -/
example : assemble "jmp nowhere\ncnjmp r9"
    (some { dialect := .v1, wordBits := 8, registers := 1 }) =
    .error ⟨2, .notInDialect (.jump .flagClear) .v1⟩ := by cbv

end Program
end WordRam
