import WordRam.Proofs.Checked.Assembly
import WordRam.Proofs.Execution.InBounds

/-!
# No crash from text to halt

Nothing crashes on the way from a source text to a halted execution, whatever the text and whatever
the configuration. What an instruction needs has been looked at by the assembler, which knows how
many registers the program has, and by the configuration, which has no fewer; every other bound is
one that a valid execution keeps (`Checked.safe_of_counted`).
-/

namespace WordRam

variable {source : String} {given : Option Params} {p : Program}

/-- The usual conditions for the machine that a program was assembled for are enough to run it. -/
theorem Program.accept_of_assemble (h : assemble source given = .ok p) (limit : Option Nat) :
    ∃ w, { Config.ofParams p.params with stepLimit := limit }.accept p = .ok w := by
  obtain ⟨-, w, -, hw, -⟩ := assemble_ok h
  have hallows : ∀ i ∈ p.instructions, ¬ (!p.params.dialect.allows i.opcode) := by
    intro i hi
    obtain ⟨line, _, _, -, -, hallowed, -⟩ :=
      forall₂_mem_right (spelled_of_assemble h) (Array.mem_toList_iff.2 hi)
    simp [hallowed]
  have hfind : p.instructions.find? (fun i => !p.params.dialect.allows i.opcode) = none :=
    Array.find?_eq_none.2 hallows
  refine ⟨w, ?_⟩
  simp [Config.accept, Config.ofParams, hw, hfind]

namespace Checked
open Trial

/-- Nothing crashes in what is asked of an execution, it does not get stuck, and what is left of its
tapes can be read. -/
structure Safe (e : Execution) (calls : List Call) : Prop where
  after : after e calls = pure (e.after calls)
  stuck : ∀ reason, (e.after calls).status ≠ .stuck reason
  primary : remaining (e.after calls).machine.primary =
    pure (e.after calls).machine.primary.remaining
  auxiliary : remaining (e.after calls).machine.auxiliary =
    pure (e.after calls).machine.auxiliary.remaining

theorem safe_of_counted {c : Config} {tape0 tape1 : List Nat} {e : Execution}
    (hp : Program.assemble source given = .ok p)
    (hs : Execution.start p c tape0 tape1 = .ok e) (hsize : p.instructions.size < 2 ^ 64)
    {calls : List Call} (hc : AllCounted e calls) : Safe e calls := by
  obtain ⟨w, hw, hv⟩ := Execution.valid_after hp hs
  have hafter := hv calls
  refine ⟨after_eq (hv []) (Params.ofNat?_of_width hw) hsize hc, fun reason hstuck => ?_,
    remaining_eq hafter.machine.primary.le_size, remaining_eq hafter.machine.auxiliary.le_size⟩
  have hstatus := hafter.status
  rw [hstuck] at hstatus
  exact hstatus

/-- Assembling a source text does not crash. A program that it comes to runs under the usual
conditions, and whatever the configuration, starting it does not crash. If the program counter and
the counts of what is asked of an execution of it fit into 64 bits, that does not crash either. -/
theorem closed_world (source : String) (given : Option Params) :
    assemble source given = found (Program.assemble source given) ∧
    ∀ p, Program.assemble source given = .ok p →
      configOf p.params = pure (.ofParams p.params) ∧
      ∀ tape0 tape1 : List Nat,
        (∀ limit, ∃ e, Execution.start p { Config.ofParams p.params with stepLimit := limit }
          tape0 tape1 = .ok e) ∧
        ∀ c, start p c tape0 tape1 = pure (Execution.start p c tape0 tape1) ∧
          ∀ e, Execution.start p c tape0 tape1 = .ok e → p.instructions.size < 2 ^ 64 →
            ∀ calls, AllCounted e calls → Safe e calls := by
  refine ⟨assemble_eq source given, fun p hp => ⟨configOf_eq p.params, fun tape0 tape1 => ?_⟩⟩
  refine ⟨fun limit => ?_, fun c => ⟨start_eq p c tape0 tape1, fun e hs hsize calls hc => ?_⟩⟩
  · obtain ⟨w, hw⟩ := Program.accept_of_assemble hp limit
    rw [Execution.start, hw]
    exact ⟨_, rfl⟩
  · exact safe_of_counted hp hs hsize hc

/-- The usual execution of `Program.divideAll` halts on a zero divisor, is started again and recorded
until it answers. -/
theorem closed_world_divideAll :
    assemble Program.divideAllText none = found (.ok .divideAll) ∧
      Execution.start .divideAll (.ofParams Program.divideAll.params) [5, 0] [] =
        .ok (.divideAll [5, 0]) ∧
      Safe (.divideAll [5, 0]) [.run, .restart [1000] [], .record {}] := by
  obtain ⟨hassemble, hprograms⟩ := closed_world Program.divideAllText none
  obtain ⟨-, hruns⟩ := hprograms .divideAll Program.assemble_divideAllText
  obtain ⟨-, hconfigs⟩ := hruns [5, 0] []
  obtain ⟨-, hsafe⟩ := hconfigs (.ofParams Program.divideAll.params)
  have hrun : ((Execution.divideAll [5, 0]).after [.run]).steps = 8 := rfl
  have hsteps : ((Execution.divideAll [5, 0]).after
      [.run, .restart [1000] [], .record {}]).steps = 8 := rfl
  have hstates : (({} : Transcript).record ((Execution.divideAll [5, 0]).after
      [.run, .restart [1000] []])).2.states = 8 := rfl
  have hcounted : AllCounted (.divideAll [5, 0]) [.run, .restart [1000] [], .record {}] := by
    refine ⟨⟨?_, nofun⟩, ⟨Nat.two_pow_pos 64, nofun⟩, ⟨?_, ?_⟩, trivial⟩
    · exact Nat.lt_of_le_of_lt (Nat.le_of_eq hrun) (by decide)
    · exact Nat.lt_of_le_of_lt (Nat.le_of_eq hsteps) (by decide)
    · rintro _ ⟨⟩
      exact Nat.lt_of_le_of_lt (Nat.le_of_eq hstates) (by decide)
  refine ⟨?_, Execution.start_divideAll [5, 0],
    hsafe _ (Execution.start_divideAll [5, 0]) (by decide) _ hcounted⟩
  rw [hassemble, Program.assemble_divideAllText]

end Checked
end WordRam
