import WordRam.Cli.Session
import WordRam.Proofs.Assembly.Noise

/-!
# Overrides

The parameters that are assembled for when a command line overrides some of them are those that the
header states once it is edited in the same way. A header is a comment, and so is any other header
in its place, so nothing but the parameters depends on what it says (`Program.assemble_replaced`). A
header before a source that has none moves the lines of the source down by one, and does nothing
else (`Program.assemble_prefixed`). Main statement: `Cli.Session.overridden`.
-/

namespace WordRam

open Text

/-- A header is a comment, with nothing but white space before it. -/
theorem Header.idle_of_read {line : List Char} {h : Params} (hr : read line = .ok (some h)) :
    Idle line := by
  rcases eq_append_trim line with ⟨lead, trail, heq, hlead, -⟩
  unfold read fields? at hr
  split at hr
  · cases hr
  · next hfields =>
    split at hfields
    · next rest htrim =>
      rw [heq, htrim, List.append_assoc, List.cons_append]
      exact .comment hlead _
    · cases hfields

theorem Params.idle_header (p : Params) : Idle p.header.toList := by
  have hnil : ∀ c ∈ ([] : List Char), isBlank c := nofun
  rw [header_toList]
  exact .comment hnil _

theorem Params.header_lineEnd (p : Params) : '\n' ∉ p.header.toList ∧ '\r' ∉ p.header.toList :=
  ⟨p.not_mem_header (by decide) (by decide) (by decide),
    p.not_mem_header (by decide) (by decide) (by decide)⟩

namespace Program

variable {source source' : String} {lines before : List (List Char)} {line : List Char}
  {n : Nat} {h m p : Params} {w : Width}

theorem firstLine?_append_cons (hbefore : ∀ line ∈ before, trim line = []) (hne : trim line ≠ [])
    (after : List (List Char)) :
    firstLine? (before ++ line :: after) = some (line, before.length + 1) := by
  have hnone : (before.zipIdx 1).find? (fun line => trim line.1 ≠ []) = none := by
    rw [List.find?_eq_none]
    intro x hx
    simp [hbefore x.1 (List.fst_mem_of_mem_zipIdx hx)]
  rw [firstLine?, zipIdx_insert, List.find?_append, hnone, Option.none_or, List.find?_cons_of_pos]
  exact decide_eq_true hne

theorem eq_append_of_firstLine? (hf : firstLine? lines = some (line, n)) :
    ∃ before after, lines = before ++ line :: after ∧ n = before.length + 1 ∧
      ∀ line ∈ before, trim line = [] := by
  rcases List.find?_eq_some_iff_append.1 hf with ⟨-, init, rest, heq, hinit⟩
  rcases List.zipIdx_eq_append_iff.1 heq with ⟨before, more, rfl, rfl, hmore⟩
  rcases List.zipIdx_eq_cons_iff.1 hmore.symm with ⟨_, after, rfl, hline, -⟩
  cases hline
  refine ⟨before, after, rfl, Nat.add_comm 1 _, fun line hl => ?_⟩
  rcases List.mem_map.1 ((List.zipIdx_map_fst 1 before).symm ▸ hl) with ⟨x, hx, rfl⟩
  simpa using hinit x hx

/-- The first line of a source text that is not blank is line `n`, and a header. -/
def Headed (source : String) (n : Nat) (h : Params) : Prop :=
  ∃ line, firstLine? (Text.lines source.toList) = some (line, n) ∧
    Header.read line = .ok (some h)

/-- The first line of a source text that is not blank is no header, if there is such a line. -/
def Headless (source : String) : Prop :=
  ∀ line ∈ firstLine? (Text.lines source.toList), Header.read line.1 = .ok none

/-- The second text has the lines of the first, but for the header for some parameters in the place
of line `n`. -/
def Replaced (n : Nat) (m : Params) (source source' : String) : Prop :=
  Text.lines source'.toList = (Text.lines source.toList).set (n - 1) m.header.toList

theorem Headed.headerParams (hh : Headed source n h) :
    headerParams (Text.lines source.toList) = .ok h := by
  rcases hh with ⟨line, hfirst, hread⟩
  simp only [Program.headerParams, hfirst, hread]

/-- It does not matter whether the parameters of the header are given once more. -/
theorem assemble_of_headerParams (hh : headerParams (Text.lines source.toList) = .ok h) :
    assemble source none = assemble source (some h) := by
  have hheader : headerParams (Text.lines source.toList) = pure h := hh
  simp only [assemble, hheader]

/-! ### Headers in the place of headers -/

theorem Headed.exists_replaced (hh : Headed source n h) (m : Params) :
    ∃ source', Replaced n m source source' := by
  rcases hh with ⟨line, hfirst, -⟩
  rcases eq_append_of_firstLine? hfirst with ⟨before, after, heq, rfl, -⟩
  have hlt : before.length < (Text.lines source.toList).length := by
    rw [heq]
    simp
  have hset := lines_set ⟨m.header_tight.ne_nil, m.header_lineEnd⟩ hlt
  refine ⟨.ofList (List.intercalate ['\n']
    ((pieces (· = '\n') source.toList).set before.length m.header.toList)), ?_⟩
  rw [Replaced, String.toList_ofList]
  exact hset

namespace Replaced

/-- The two headers stand between the same lines. -/
theorem split (hr : Replaced n m source source') (hh : Headed source n h) :
    ∃ before line after, Text.lines source.toList = before ++ line :: after ∧
      Text.lines source'.toList = before ++ m.header.toList :: after ∧ Idle line ∧
      ∀ line ∈ before, trim line = [] := by
  rcases hh with ⟨line, hfirst, hread⟩
  rcases eq_append_of_firstLine? hfirst with ⟨before, after, heq, rfl, hbefore⟩
  refine ⟨before, line, after, heq, ?_, Header.idle_of_read hread, hbefore⟩
  rw [hr, heq]
  simp

theorem headerParams (hr : Replaced n m source source') (hh : Headed source n h)
    (hw : m.width = .ok w) : headerParams (Text.lines source'.toList) = .ok m := by
  rcases hr.split hh with ⟨before, line, after, -, heq, -, hbefore⟩
  have hne : trim m.header.toList ≠ [] := m.header_tight.trim.symm ▸ m.header_tight.ne_nil
  rw [heq]
  simp only [Program.headerParams, firstLine?_append_cons hbefore hne, Header.read_header hw]

/-- What the header says plays no part once there are parameters. -/
theorem ofLines (hr : Replaced n m source source') (hh : Headed source n h)
    (hw : w.bits = p.wordBits) :
    ofLines p w (Text.lines source'.toList) = ofLines p w (Text.lines source.toList) := by
  rcases hr.split hh with ⟨before, line, after, heq, heq', hidle, -⟩
  rw [heq, heq', ofLines_insert hw (m.idle_header.read p w), ofLines_insert hw (hidle.read p w)]

end Replaced

/-- To be assembled for other parameters than those of its header, a source text is given another
header. -/
theorem assemble_replaced (hh : Headed source n h) (hr : Replaced n m source source')
    (hw : m.width = .ok w) : assemble source' none = assemble source (some m) := by
  rw [assemble_of_headerParams (hr.headerParams hh hw), assemble_given hw, assemble_given hw]
  exact hr.ofLines hh (Params.bits_of_width hw)

/-- A header before a source text takes the place of given parameters, and moves the lines. -/
theorem assemble_prefixed (hw : m.width = .ok w) (source : String) :
    assemble (m.header ++ "\n" ++ source) none =
      renumbered (shift 0) (renumber (shift 0)) (assemble source (some m)) := by
  have hlines : Text.lines (m.header ++ "\n" ++ source).toList =
      m.header.toList :: Text.lines source.toList := by
    rw [String.toList_append, String.toList_append, List.append_assoc]
    exact lines_append_cons m.header_lineEnd.1 m.header_lineEnd.2 _
  have hheader : headerParams (Text.lines (m.header ++ "\n" ++ source).toList) = .ok m :=
    hlines ▸ headerParams_of_header hw _
  rw [assemble_of_headerParams hheader, assemble_given hw, assemble_given hw, hlines]
  exact ofLines_insert (Params.bits_of_width hw) (m.idle_header.read m w) [] _

end Program

/-! ### Overriding parameters -/

namespace Cli

open Program

variable {source : String} {n : Nat} {h : Params}

namespace Overrides

variable {o : Overrides}

/-- Parameters with those replaced that are given. -/
def merge (o : Overrides) (h : Params) : Params where
  dialect := o.dialect.getD h.dialect
  wordBits := o.wordBits.getD h.wordBits
  registers := o.registers.getD h.registers
  memory := if o.harvard then .harvard else h.memory

/-- The parameters that are given, if no header is needed beside them. -/
def alone? (o : Overrides) : Option Params := do
  return {
    dialect := ← o.dialect
    wordBits := ← o.wordBits
    registers := ← o.registers
    memory := if o.harvard then .harvard else .flat }

/-- Whatever is given is what the header states already. -/
structure Restates (o : Overrides) (h : Params) : Prop where
  dialect : ∀ d ∈ o.dialect, d = h.dialect
  wordBits : ∀ n ∈ o.wordBits, n = h.wordBits
  registers : ∀ n ∈ o.registers, n = h.registers
  memory : o.harvard → h.memory = .harvard

theorem getD_of_forall_mem {α : Type} {x : Option α} {a : α} (h : ∀ b ∈ x, b = a) :
    x.getD a = a := by
  cases x with
  | none => rfl
  | some b => exact h b rfl

theorem Restates.merge (hr : o.Restates h) : o.merge h = h := by
  have hmemory : (if o.harvard then .harvard else h.memory) = h.memory := by
    split
    · next hgiven => exact (hr.memory hgiven).symm
    · rfl
  simp only [Overrides.merge, getD_of_forall_mem hr.dialect, getD_of_forall_mem hr.wordBits,
    getD_of_forall_mem hr.registers, hmemory]

theorem params_of_headed (ho : o ≠ {}) (hh : Headed source n h) :
    o.params source = .ok (some (o.merge h)) := by
  rcases hh with ⟨line, hfirst, hread⟩
  simp only [params, if_neg ho, hfirst, hread]
  rfl

theorem params_of_headless (ho : o ≠ {}) (hh : Headless source) :
    o.params source = o.alone?.elim (.error .noHeader) fun m => .ok (some m) := by
  unfold params
  rw [if_neg ho]
  rcases hfirst : firstLine? (Text.lines source.toList) with _ | ⟨line, n⟩
  · rcases o with ⟨_ | d, _ | bits, _ | count, harvard⟩ <;> rfl
  · simp only [hh _ hfirst]
    rcases o with ⟨_ | d, _ | bits, _ | count, harvard⟩ <;> rfl

end Overrides

namespace Session

variable {files : Files} {o : Options}

/-- What is loaded when a source text has been assembled to a program, or refused. -/
def loaded (path source : String) (x : Except Diagnostic Program) :
    Except Failure (String × Program) :=
  (x.mapError (.notAssembled path)).map (source, ·)

theorem load_of_params {given : Option Params} (hfile : files o.program = .ok source)
    (hparams : o.overrides.params source = .ok given) :
    load files o = loaded o.program source (assemble source given) := by
  simp only [load, readText, hfile, ok_mapError, hparams, bind, Except.bind, loaded]
  rcases (assemble source given).mapError (Failure.notAssembled o.program) with e | q <;> rfl

/-- A source text with a header is assembled for what the header states where nothing else is
given. -/
theorem load_of_headed (hfile : files o.program = .ok source) (hh : Headed source n h) :
    load files o =
      loaded o.program source (assemble source (some (o.overrides.merge h))) := by
  by_cases ho : o.overrides = {}
  · have hparams : o.overrides.params source = .ok none := if_pos ho
    rw [load_of_params hfile hparams, assemble_of_headerParams hh.headerParams, ho]
    rfl
  · exact load_of_params hfile (Overrides.params_of_headed ho hh)

/-- Overriding parameters is editing the header of a source text. -/
structure Overridden (files : Files) (o : Options) (source : String) : Prop where
  /-- The header is replaced, as far as other parameters are given. -/
  replaced {n : Nat} {h : Params} {w : Width} (hh : Headed source n h)
    (hw : (o.overrides.merge h).width = .ok w) :
    (∃ source', Replaced n (o.overrides.merge h) source source') ∧
      ∀ source', Replaced n (o.overrides.merge h) source source' →
        load files o = loaded o.program source (assemble source' none)
  restated {n : Nat} {h : Params} (hh : Headed source n h) (hr : o.overrides.Restates h) :
    load files o = load files { o with overrides := {} }
  /-- A header is put on a line of its own before a source text that has none. -/
  prefixed {m : Params} {w : Width} (hh : Headless source) (hm : o.overrides.alone? = some m)
    (hw : m.width = .ok w) :
    load files o = loaded o.program source
      (renumbered (· - 1) (Program.renumber (· - 1)) (assemble (m.header ++ "\n" ++ source) none))
  refused (hh : Headless source) (ho : o.overrides ≠ {}) (hm : o.overrides.alone? = none) :
    load files o = .error .noHeader

theorem overridden (hfile : files o.program = .ok source) : Overridden files o source := by
  refine ⟨fun {n h w} hh hw => ?_, fun {n h} hh hr => ?_, fun {m w} hh hm hw => ?_,
    fun hh ho hm => ?_⟩
  · refine ⟨hh.exists_replaced _, fun source' hr => ?_⟩
    rw [load_of_headed hfile hh, assemble_replaced hh hr hw]
  · have hplain : load files { o with overrides := {} } =
        loaded o.program source (assemble source (some h)) := load_of_headed hfile hh
    rw [load_of_headed hfile hh, hplain, hr.merge]
  · have ho : o.overrides ≠ {} := by
      intro ho
      rw [ho] at hm
      cases hm
    have hparams := Overrides.params_of_headless ho hh
    rw [hm] at hparams
    have hcancel : (· - 1) ∘ shift 0 = id := by
      funext k
      rcases k with _ | k <;> rfl
    rw [load_of_params hfile hparams, assemble_prefixed hw, renumbered_cancel hcancel]
  · have hparams := Overrides.params_of_headless ho hh
    rw [hm] at hparams
    simp only [load, readText, hfile, ok_mapError, hparams, bind, Except.bind]
    rfl

/-- A number that is too large for a word becomes an answer once words are wider. -/
theorem overridden_wordBits :
    load (fun _ => .ok "\n; TinyRAM V=2.00 K=1 W=8\nanswer 300")
        { program := "wide.ram", overrides := { wordBits := some 16 } } =
      loaded "wide.ram" "\n; TinyRAM V=2.00 K=1 W=8\nanswer 300"
        (assemble "\n; TinyRAM V=2.00 W=16 K=1\nanswer 300" none) ∧
    load (fun _ => .ok "answer 300")
        { program := "wide.ram"
          overrides := { dialect := some .v2, wordBits := some 16, registers := some 1 } } =
      loaded "wide.ram" "answer 300" (renumbered (· - 1) (Program.renumber (· - 1))
        (assemble "; TinyRAM V=2.00 W=16 K=1\nanswer 300" none)) ∧
    load (fun _ => .ok "answer 300")
        { program := "wide.ram", overrides := { wordBits := some 16 } } = .error .noHeader := by
  have hheaded : Headed "\n; TinyRAM V=2.00 K=1 W=8\nanswer 300" 2
      { dialect := .v2, wordBits := 8, registers := 1 } :=
    ⟨"; TinyRAM V=2.00 K=1 W=8".toList, by cbv, by cbv⟩
  have hheadless : Headless "answer 300" := by
    have hfirst : firstLine? (Text.lines "answer 300".toList) = some ("answer 300".toList, 1) := by
      cbv
    intro line hl
    rw [hfirst] at hl
    cases hl
    cbv
  have hreplaced : Replaced 2 { dialect := .v2, wordBits := 16, registers := 1 }
      "\n; TinyRAM V=2.00 K=1 W=8\nanswer 300" "\n; TinyRAM V=2.00 W=16 K=1\nanswer 300" := by
    show _ = _
    cbv
  have hprefixed : Params.header { dialect := .v2, wordBits := 16, registers := 1 } ++ "\n" ++
      "answer 300" = "; TinyRAM V=2.00 W=16 K=1\nanswer 300" := by
    decide
  have hedited : Overridden (fun _ => .ok "\n; TinyRAM V=2.00 K=1 W=8\nanswer 300")
      { program := "wide.ram", overrides := { wordBits := some 16 } } _ := overridden rfl
  have hgiven : Overridden (fun _ => .ok "answer 300")
      { program := "wide.ram"
        overrides := { dialect := some .v2, wordBits := some 16, registers := some 1 } } _ :=
    overridden rfl
  have hlacking : Overridden (fun _ => .ok "answer 300")
      { program := "wide.ram", overrides := { wordBits := some 16 } } _ := overridden rfl
  refine ⟨?_, ?_, ?_⟩
  · exact (hedited.replaced hheaded rfl).2 _ hreplaced
  · rw [← hprefixed]
    exact hgiven.prefixed hheadless rfl rfl
  · exact hlacking.refused hheadless (by decide) rfl

end Session
end Cli
end WordRam
