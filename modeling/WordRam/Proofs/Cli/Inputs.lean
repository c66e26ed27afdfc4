import WordRam.Proofs.Assembly.Pass
import WordRam.Proofs.Cli.Overrides
import WordRam.Proofs.Transcript.Printed

/-!
# Inputs of a session

A session comes to a run if its files can be read and hold what they should: a program that
assembles for the merged parameters, and words that 64 bits can hold. `Inputs.Found` says so without
an order in which the files are read; it does not matter, since nothing else is looked at before the
run (`load_ok_iff`, `prepare_ok_iff`).
-/

namespace WordRam.Cli

open Text

/-- The words in a file that may not be asked for: unsigned numerals between white space. -/
inductive HoldsWords (files : Files) : Option String → List Nat → Prop
  | absent : HoldsWords files none []
  | file {path text : String} {vs : List Nat} (hfile : files path = .ok text)
    (hwords : List.Forall₂ (fun word v => Numeral.Unsigned word v ∧ v < 2 ^ 64)
      (words text.toList) vs) : HoldsWords files (some path) vs

theorem HoldsWords.fit {files : Files} {path? : Option String} {vs : List Nat}
    (h : HoldsWords files path? vs) (hlength : vs.length < 2 ^ 64) : WordsFit vs := by
  refine ⟨hlength, fun v hv => ?_⟩
  cases h with
  | absent => cases hv
  | file _ hwords =>
    obtain ⟨_, -, hlt⟩ := forall₂_mem_right hwords hv
    exact hlt

/-- What a run is made of. -/
structure Inputs where
  source : String
  program : Program
  tape0 : List Nat
  tape1 : List Nat
  preload : List Nat

namespace Inputs

/-- The files hold the inputs, and the program is what the source text assembles to for the merged
parameters. -/
structure Found (x : Inputs) (files : Files) (o : Options) : Prop where
  source : files o.program = .ok x.source
  program : ∃ given, o.overrides.params x.source = .ok given ∧
    Program.assemble x.source given = .ok x.program
  tape0 : HoldsWords files o.tape0 x.tape0
  tape1 : HoldsWords files o.tape1 x.tape1
  preload : HoldsWords files o.preload x.preload

/-- The usual conditions for the program, with what is asked for in their place. -/
def config (x : Inputs) (o : Options) : Config where
  params := x.program.params
  stepLimit := o.stepLimit
  wide := o.wide
  memoryWords := o.memoryWords.getD (Config.ofParams x.program.params).memoryWords
  preload := x.preload

def start (x : Inputs) (o : Options) : Except Refusal Execution :=
  Execution.start x.program (x.config o) x.tape0 x.tape1

/-- What a transcript is fed before the run. -/
def bytes (x : Inputs) : List UInt8 :=
  x.source.toUTF8.toList ++ wordsBytes x.tape0 ++ wordsBytes x.tape1

/-- What it has been fed once an execution has taken `k` steps. -/
def message (x : Inputs) (e : Execution) (k : Nat) : List UInt8 :=
  x.bytes ++ (e.states k).flatMap fun after => after.machine.bytes

/-- The instructions and the words on the tapes are no more than 64 bits can count. -/
structure Counted (x : Inputs) : Prop where
  program : x.program.instructions.size < 2 ^ 64
  tape0 : x.tape0.length < 2 ^ 64
  tape1 : x.tape1.length < 2 ^ 64

/-- What a digest stands for: the source text, both tapes, and the state after each of `k` steps. -/
inductive Covers (x : Inputs) (e : Execution) (k : Nat) : List UInt8 → Prop
  | intro {tape0 tape1 : List UInt8} {states : List (List UInt8)} (h0 : WordsEncoded x.tape0 tape0)
      (h1 : WordsEncoded x.tape1 tape1)
      (hstates : List.Forall₂ (fun after bytes => after.machine.Encoded bytes) (e.states k) states) :
      Covers x e k (x.source.toUTF8.toList ++ tape0 ++ tape1 ++ states.flatten)

end Inputs

namespace Session

variable {files : Files} {o : Options} {path : String} {path? : Option String} {vs : List Nat}
variable {source : String} {p : Program} {e : Execution} {t : Transcript}

theorem readText_ok_iff {text : String} :
    readText files path = .ok text ↔ files path = .ok text :=
  ⟨mapError_ok, fun h => by rw [readText, h, ok_mapError]⟩

theorem read_ok_iff {word : List Char} {v : Nat} :
    Numeral.read (2 ^ 64) word = .ok v ↔ Numeral.Unsigned word v ∧ v < 2 ^ 64 := by
  rw [← Numeral.read?_eq_some_iff (Nat.two_pow_pos 64), Numeral.read?]
  cases Numeral.read (2 ^ 64) word <;> simp [Except.toOption]

theorem forall₂_zipIdx {α β : Type} {R : α → β → Prop} (as : List α) (bs : List β) (n : Nat) :
    List.Forall₂ (fun a b => R a.1 b) (as.zipIdx n) bs ↔ List.Forall₂ R as bs := by
  rw [← List.forall₂_map_left_iff (f := Prod.fst), List.zipIdx_map_fst]

theorem readWords_ok_iff :
    readWords files path = .ok vs ↔ HoldsWords files (some path) vs := by
  have hread (text : String) : ((words text.toList).zipIdx.mapM fun placed =>
      (Numeral.read (2 ^ 64) placed.1).mapError
        (Failure.badWord (String.ofList placed.1) placed.2 path)) = .ok vs ↔
      List.Forall₂ (fun word v => Numeral.Unsigned word v ∧ v < 2 ^ 64) (words text.toList) vs := by
    rw [mapM_ok_iff, ← forall₂_zipIdx (words text.toList) vs 0]
    simp only [← read_ok_iff]
    exact ⟨fun h => h.imp fun _ _ => mapError_ok,
      fun h => h.imp fun _ _ hword => by rw [hword, ok_mapError]⟩
  constructor
  · intro h
    obtain ⟨text, htext, h⟩ := bind_ok h
    exact .file (readText_ok_iff.1 htext) ((hread text).1 h)
  · rintro (_ | ⟨hfile, hwords⟩)
    rw [readWords, readText_ok_iff.2 hfile]
    exact (hread _).2 hwords

theorem readWords?_ok_iff : readWords? files path? = .ok vs ↔ HoldsWords files path? vs := by
  cases path? with
  | none =>
    constructor
    · intro h
      cases h
      exact .absent
    · intro h
      cases h
      rfl
  | some path => exact readWords_ok_iff

theorem load_ok_iff : load files o = .ok (source, p) ↔ files o.program = .ok source ∧
    ∃ given, o.overrides.params source = .ok given ∧ Program.assemble source given = .ok p := by
  constructor
  · intro h
    obtain ⟨text, htext, h⟩ := bind_ok h
    obtain ⟨given, hgiven, h⟩ := bind_ok h
    obtain ⟨q, hq, h⟩ := bind_ok h
    cases h
    exact ⟨readText_ok_iff.1 htext, given, hgiven, mapError_ok hq⟩
  · rintro ⟨hfile, given, hgiven, hp⟩
    rw [load_of_params hfile hgiven, hp]
    rfl

theorem prepare_ok_iff : prepare files o source p = .ok (e, t) ↔
    ∃ tape0 tape1 preload, HoldsWords files o.tape0 tape0 ∧ HoldsWords files o.tape1 tape1 ∧
      HoldsWords files o.preload preload ∧
      Inputs.start ⟨source, p, tape0, tape1, preload⟩ o = .ok e ∧
      t = ({} : Transcript).feed (Inputs.bytes ⟨source, p, tape0, tape1, preload⟩) := by
  have hfed (tape0 tape1 preload : List Nat) :
      ((({} : Transcript).feed source.toUTF8.toList).feedWords tape0).feedWords tape1 =
        ({} : Transcript).feed (Inputs.bytes ⟨source, p, tape0, tape1, preload⟩) := by
    simp [Transcript.feedWords, Transcript.feed, Inputs.bytes]
  simp only [← readWords?_ok_iff]
  constructor
  · intro h
    obtain ⟨tape0, h0, h⟩ := bind_ok h
    obtain ⟨tape1, h1, h⟩ := bind_ok h
    obtain ⟨preload, hpreload, h⟩ := bind_ok h
    obtain ⟨f, hf, h⟩ := bind_ok h
    cases h
    exact ⟨tape0, tape1, preload, h0, h1, hpreload, mapError_ok hf, hfed ..⟩
  · rintro ⟨tape0, tape1, preload, h0, h1, hpreload, hs, rfl⟩
    simp only [Inputs.start, Inputs.config] at hs
    have husual : (Config.ofParams p.params).params = p.params := rfl
    simp only [prepare, h0, h1, hpreload, husual, hs, ← hfed, bind, Except.bind, ok_mapError]
    rfl

end Session

namespace Inputs

variable {files : Files} {o : Options} {x y : Inputs} {e : Execution}

theorem Found.load (h : x.Found files o) : Session.load files o = .ok (x.source, x.program) :=
  Session.load_ok_iff.2 ⟨h.source, h.program⟩

/-- Files hold no more than one thing. -/
theorem Found.unique (hx : x.Found files o) (hy : y.Found files o) : x = y := by
  have words {path? : Option String} {us vs : List Nat} (hu : HoldsWords files path? us)
      (hv : HoldsWords files path? vs) : us = vs :=
    Except.ok.inj ((Session.readWords?_ok_iff.2 hu).symm.trans (Session.readWords?_ok_iff.2 hv))
  have hload := Except.ok.inj (hx.load.symm.trans hy.load)
  obtain ⟨source, program, tape0, tape1, preload⟩ := x
  obtain ⟨source', program', tape0', tape1', preload'⟩ := y
  cases hload
  cases words hx.tape0 hy.tape0
  cases words hx.tape1 hy.tape1
  cases words hx.preload hy.preload
  rfl

/-- The machine of a command line has no more words of memory than 64 bits can count. -/
theorem config_memoryWords_lt (x : Inputs) (h : ∀ n, o.memoryWords = some n → n < 2 ^ 64) :
    (x.config o).memoryWords < 2 ^ 64 := by
  show o.memoryWords.getD (2 ^ min x.program.params.wordBits 16) < 2 ^ 64
  cases hn : o.memoryWords with
  | none =>
    have hle : 2 ^ min x.program.params.wordBits 16 ≤ 2 ^ 16 :=
      Nat.pow_le_pow_right (by decide) (Nat.min_le_right _ 16)
    exact Nat.lt_of_le_of_lt hle (by decide)
  | some n => exact h n hn

theorem Found.covers (hx : x.Found files o) (hmemory : ∀ n, o.memoryWords = some n → n < 2 ^ 64)
    (hcounted : x.Counted) {w : Width}
    (hv : e.Valid x.program (x.config o) w (x.tape0, x.tape1)) (k : Nat) :
    x.Covers e k (x.message e k) := by
  have hstates := hv.encoded_states hcounted.program (x.config_memoryWords_lt hmemory) k
  have hcovers := Covers.intro (hx.tape0.fit hcounted.tape0).encoded
    (hx.tape1.fit hcounted.tape1).encoded hstates
  have hbytes : (e.states k).flatMap (fun after => after.machine.bytes) =
      ((e.states k).map fun after => after.machine.snapshot.bytes).flatten := by
    simp only [Machine.bytes_eq, List.flatMap_def]
  rwa [message, bytes, hbytes]

end Inputs
end WordRam.Cli
