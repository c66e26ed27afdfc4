import Mathlib.Data.List.Basic
import WordRam.Cli.Options
import WordRam.Proofs.Text.Numeral

/-!
# Arguments

A word that says something on its own may be added to the words of a command line. Where it is not
taken for a value, it adds one argument to those that are scanned, in the order of the words
(`Argument.scan_added`). What the arguments ask for is read from each kind of them apart
(`Options.Asked`), so an added switch changes nothing else (`Options.Asked.added`), and an added path
is refused (`Options.Asked.not_added`). Main result: `Options.read?_added`.
-/

namespace WordRam.Cli

open Text

namespace Argument

variable {word text : List Char} {words after : List (List Char)} {a : Argument} {key : Key}

theorem scan_rest (words : List (List Char)) :
    scan (['-', '-'] :: words) = some (words.map program) := by
  rw [scan.eq_def]
  exact if_pos rfl

theorem scan_complete (hne : word ≠ ['-', '-']) (hread : Head.read? word = some (.complete a)) :
    scan (word :: words) = (scan words).map (a :: ·) := by
  rw [scan.eq_def]
  dsimp only
  rw [if_neg hne, hread]

theorem scan_wanting (hne : word ≠ ['-', '-']) (hread : Head.read? word = some (.wanting key)) :
    scan (word :: text :: words) =
      if isValue text then (scan words).map (value key text :: ·) else none := by
  rw [scan.eq_def]
  dsimp only
  rw [if_neg hne, hread]

theorem scan_of_none (hne : word ≠ ['-', '-']) (hread : Head.read? word = none) :
    scan (word :: words) = none := by
  rw [scan.eq_def]
  dsimp only
  rw [if_neg hne, hread]

/-- A word that says something on its own says it, or names a path, wherever it is added. -/
theorem scan_added (hne : word ≠ ['-', '-']) (hread : Head.read? word = some (.complete a))
    (hvalue : isValue word = false) : ∀ (before : List (List Char)) {as bs : List Argument},
    scan (before ++ after) = some as → scan (before ++ word :: after) = some bs →
    ∃ xs ys, as = xs ++ ys ∧ (bs = xs ++ a :: ys ∨ bs = xs ++ program word :: ys)
  | [], as, bs, has, hbs => by
    rw [List.nil_append] at has hbs
    rw [scan_complete hne hread, has] at hbs
    cases hbs
    exact ⟨[], as, rfl, .inl rfl⟩
  | first :: before, as, bs, has, hbs => by
    rw [List.cons_append] at has hbs
    by_cases hfirst : first = ['-', '-']
    · -- after two hyphens alone the added word is a path
      rw [hfirst, scan_rest] at has hbs
      cases has
      cases hbs
      exact ⟨before.map program, after.map program, List.map_append, .inr (by simp)⟩
    · rcases hhead : Head.read? first with _ | (b | key)
      · rw [scan_of_none hfirst hhead] at has
        cases has
      · rw [scan_complete hfirst hhead] at has hbs
        obtain ⟨as', has', rfl⟩ := Option.map_eq_some_iff.1 has
        obtain ⟨bs', hbs', rfl⟩ := Option.map_eq_some_iff.1 hbs
        obtain ⟨xs, ys, rfl, h⟩ := scan_added hne hread hvalue before has' hbs'
        exact ⟨b :: xs, ys, rfl, h.imp (congrArg _) (congrArg _)⟩
      · match before with
        | [] =>
          -- an option that wants a value does not take the added word for one
          rw [List.nil_append, scan_wanting hfirst hhead, hvalue] at hbs
          cases hbs
        | text :: before =>
          rw [List.cons_append, scan_wanting hfirst hhead] at has hbs
          by_cases htext : isValue text
          · rw [if_pos htext] at has hbs
            obtain ⟨as', has', rfl⟩ := Option.map_eq_some_iff.1 has
            obtain ⟨bs', hbs', rfl⟩ := Option.map_eq_some_iff.1 hbs
            obtain ⟨xs, ys, rfl, h⟩ := scan_added hne hread hvalue before has' hbs'
            exact ⟨value key text :: xs, ys, rfl, h.imp (congrArg _) (congrArg _)⟩
          · rw [if_neg htext] at has
            cases has

end Argument

namespace Options

variable {args before after : List String} {o o' : Options} {xs ys : List Argument}
variable {s : Switch}

theorem eq_singleton_of_only? {α : Type} {l : List α} {a : α} (h : only? l = some (some a)) :
    l = [a] := by
  unfold only? at h
  split at h <;> cases h
  rfl

theorem eq_nil_of_only? {α : Type} {l : List α} (h : only? l = some none) : l = [] := by
  unfold only? at h
  split at h <;> cases h
  rfl

theorem given?_added (h : given? (xs ++ ys) s = some false) :
    given? (xs ++ .switch s :: ys) s = some true := by
  obtain ⟨found, hfound, hnone⟩ := Option.map_eq_some_iff.1 h
  rw [Option.isSome_eq_false_iff, Option.isNone_iff_eq_none] at hnone
  have hnil := eq_nil_of_only? (hnone ▸ hfound)
  rw [List.filter_append, List.append_eq_nil_iff] at hnil
  rw [given?, List.filter_append, List.filter_cons_of_pos (by simp), hnil.1, hnil.2]
  rfl

theorem exists_text_of_value? {α : Type} {as : List Argument} {key : Key}
    {read : List Char → Option α} {a : α} (h : value? as key read = some (some a)) :
    ∃ text, read text = some a := by
  unfold value? at h
  split at h
  · cases h
  · cases h
  · next text _ =>
    obtain ⟨b, hb, hsome⟩ := Option.map_eq_some_iff.1 h
    cases hsome
    exact ⟨text, hb⟩

theorem value?_added {α : Type} (key : Key) (read : List Char → Option α) :
    value? (xs ++ .switch s :: ys) key read = value? (xs ++ ys) key read := by
  rw [value?, List.filterMap_append, List.filterMap_cons_none rfl, ← List.filterMap_append, value?]

/-- The options that arguments ask for, each read from them apart from the others. -/
structure Asked (as : List Argument) (o : Options) : Prop where
  program : ∃ path, as.filterMap Argument.path? = [path] ∧ path? path = some o.program
  tape0 : value? as .tape0 path? = some o.tape0
  tape1 : value? as .tape1 path? = some o.tape1
  preload : value? as .preload path? = some o.preload
  stepLimit : value? as .stepLimit (Numeral.read? (2 ^ 64)) = some o.stepLimit
  memoryWords : value? as .memoryWords (Numeral.read? (2 ^ 64)) = some o.memoryWords
  wide : ∃ wide, value? as .wideAddressing addressing? = some wide ∧ o.wide = wide.getD .byte
  dialect : value? as .dialect dialect? = some o.overrides.dialect
  wordBits : value? as .wordBits (Numeral.readSigned? (2 ^ 32)) = some o.overrides.wordBits
  registers : value? as .registers (Numeral.readSigned? (2 ^ 16)) = some o.overrides.registers
  harvard : given? as .harvard = some o.overrides.harvard
  traceDigest : given? as .traceDigest = some o.traceDigest

theorem asked_of_read? (h : read? args = some o) :
    ∃ as, Argument.scan (args.map String.toList) = some as ∧ Asked as o := by
  obtain ⟨as, has, h⟩ := Option.bind_eq_some_iff.1 h
  obtain ⟨found?, hfound?, h⟩ := Option.bind_eq_some_iff.1 h
  obtain ⟨path, hpath, h⟩ := Option.bind_eq_some_iff.1 h
  obtain ⟨program, hprogram, h⟩ := Option.bind_eq_some_iff.1 h
  obtain ⟨tape0, h0, h⟩ := Option.bind_eq_some_iff.1 h
  obtain ⟨tape1, h1, h⟩ := Option.bind_eq_some_iff.1 h
  obtain ⟨preload, hpreload, h⟩ := Option.bind_eq_some_iff.1 h
  obtain ⟨stepLimit, hlimit, h⟩ := Option.bind_eq_some_iff.1 h
  obtain ⟨memoryWords, hmemory, h⟩ := Option.bind_eq_some_iff.1 h
  obtain ⟨wide, hwide, h⟩ := Option.bind_eq_some_iff.1 h
  obtain ⟨dialect, hdialect, h⟩ := Option.bind_eq_some_iff.1 h
  obtain ⟨wordBits, hbits, h⟩ := Option.bind_eq_some_iff.1 h
  obtain ⟨registers, hregisters, h⟩ := Option.bind_eq_some_iff.1 h
  obtain ⟨harvard, hharvard, h⟩ := Option.bind_eq_some_iff.1 h
  obtain ⟨traceDigest, hdigest, h⟩ := Option.bind_eq_some_iff.1 h
  cases h
  have honly := eq_singleton_of_only? (hpath ▸ hfound?)
  exact ⟨as, has, ⟨path, honly, hprogram⟩, h0, h1, hpreload, hlimit, hmemory, ⟨wide, hwide, rfl⟩,
    hdialect, hbits, hregisters, hharvard, hdigest⟩

namespace Asked

variable {as : List Argument}

theorem read? (h : Asked as o) (has : Argument.scan (args.map String.toList) = some as) :
    read? args = some o := by
  obtain ⟨path, hpath, hprogram⟩ := h.program
  obtain ⟨wide, hwide, hdefault⟩ := h.wide
  have honly : only? (as.filterMap Argument.path?) = some (some path) := by rw [hpath]; rfl
  have next {α β : Type} {a? : Option α} {f : α → Option β} {a : α} {b : β} (ha : a? = some a)
      (hb : f a = some b) : a? >>= f = some b := Option.bind_eq_some_iff.2 ⟨a, ha, hb⟩
  refine next has <| next honly <| next rfl <| next hprogram <| next h.tape0 <| next h.tape1 <|
    next h.preload <| next h.stepLimit <| next h.memoryWords <| next hwide <| next h.dialect <|
    next h.wordBits <| next h.registers <| next h.harvard <| next h.traceDigest ?_
  rw [← hdefault]
  rfl

/-- A switch that is not given yet may be given anywhere among the arguments. -/
theorem added (xs ys : List Argument) (h : Asked (xs ++ ys) o) (hoff : o.traceDigest = false) :
    Asked (xs ++ .switch .traceDigest :: ys) { o with traceDigest := true } := by
  have hpaths : (xs ++ .switch .traceDigest :: ys).filterMap Argument.path? =
      (xs ++ ys).filterMap Argument.path? := by
    rw [List.filterMap_append, List.filterMap_cons_none rfl, ← List.filterMap_append]
  have hharvard : given? (xs ++ .switch .traceDigest :: ys) .harvard =
      given? (xs ++ ys) .harvard := by
    simp [given?]
  constructor <;> simp only [value?_added, hpaths, hharvard]
  case traceDigest => exact given?_added (hoff ▸ h.traceDigest)
  exacts [h.program, h.tape0, h.tape1, h.preload, h.stepLimit, h.memoryWords, h.wide, h.dialect,
    h.wordBits, h.registers, h.harvard]

/-- A second path is not read. -/
theorem not_added (h : Asked (xs ++ ys) o) (path : List Char) :
    ¬ Asked (xs ++ .program path :: ys) o' := by
  intro h'
  obtain ⟨first, hfirst, -⟩ := h.program
  obtain ⟨second, hsecond, -⟩ := h'.program
  have hpath : (Argument.program path :: ys).filterMap Argument.path? =
      path :: ys.filterMap Argument.path? := rfl
  rw [List.filterMap_append] at hfirst
  rw [List.filterMap_append, hpath] at hsecond
  have hlength := congrArg List.length hfirst
  have hlength' := congrArg List.length hsecond
  simp only [List.length_append, List.length_cons, List.length_nil] at hlength hlength'
  omega

end Asked

theorem memoryWords_lt (h : read? args = some o) {n : Nat} (hn : o.memoryWords = some n) :
    n < 2 ^ 64 := by
  obtain ⟨as, -, hasked⟩ := asked_of_read? h
  obtain ⟨text, htext⟩ := exists_text_of_value? (hn ▸ hasked.memoryWords)
  exact ((Numeral.read?_eq_some_iff (Nat.two_pow_pos 64)).1 htext).2

theorem read?_added (h : read? (before ++ after) = some o) (hoff : o.traceDigest = false)
    (h' : read? (before ++ "--trace-digest" :: after) = some o') :
    o' = { o with traceDigest := true } := by
  obtain ⟨as, has, hasked⟩ := asked_of_read? h
  obtain ⟨bs, hbs, hasked'⟩ := asked_of_read? h'
  have hscan := hbs
  rw [List.map_append] at has hscan
  obtain ⟨xs, ys, rfl, rfl | rfl⟩ :=
    Argument.scan_added (by decide) rfl (by decide) (before.map String.toList) has hscan
  · exact Option.some.inj (h'.symm.trans ((hasked.added xs ys hoff).read? hbs))
  · exact absurd hasked' (hasked.not_added _)

/-- The switch may stand in front of all other words. -/
theorem read?_cons (h : read? args = some o) (hoff : o.traceDigest = false) :
    read? ("--trace-digest" :: args) = some { o with traceDigest := true } := by
  obtain ⟨as, has, hasked⟩ := asked_of_read? h
  refine (hasked.added [] as hoff).read? ?_
  rw [List.map_cons, Argument.scan_complete (by decide) rfl, has]
  rfl

end Options
end WordRam.Cli
