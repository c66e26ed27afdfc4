import WordRam.Proofs.Assembly.Faults
import WordRam.Proofs.Assembly.HeaderFields
import WordRam.Proofs.Text.Words
import Mathlib.Data.List.Nodup
import Mathlib.Data.List.Perm.Basic

/-!
# What a line of source text states

A line is a header if it is a semicolon and words, the first of them the name of the machine
(`Header.Words`). What is read from a header depends on its other words alone: it is what is wrong
with the leftmost of them that states no field, or what the fields state together
(`Header.Reading`). The order of the fields makes no difference as long as no letter occurs twice,
since then each field is the last one with its letter (`Header.last_of_mem`).
-/

namespace WordRam

open Text

namespace Header

variable {line : List Char} {ws : List (List Char)} {fields fields' : List Field} {f : Field}
  {p : Params} {r : Except HeaderError (Option Params)}

/-- A line that is a header, of a semicolon, the name of the machine and the given words. -/
def Words (line : List Char) (ws : List (List Char)) : Prop :=
  ∃ lead rest, line = lead ++ ';' :: rest ∧ (∀ c ∈ lead, isBlank c) ∧
    Spaced rest ("TinyRAM".toList :: ws)

theorem fields?_of_words (h : Words line ws) : fields? line = some ws := by
  obtain ⟨lead, rest, rfl, hlead, hrest⟩ := h
  have htrim : trim (lead ++ ';' :: rest) = ';' :: trimEnd rest := by
    rw [trim_append_left hlead]
    exact trimEnd_cons_of_not (by decide) rest
  simp only [fields?, htrim, words_trimEnd, hrest.words, if_true]

theorem words_of_fields? (h : fields? line = some ws) : Words line ws := by
  unfold fields? at h
  split at h
  · next rest htrim =>
    obtain ⟨lead, trail, hline, hlead, htrail⟩ := eq_append_trim line
    rw [htrim, List.append_assoc, List.cons_append] at hline
    -- what was trimmed off the end comes after the last word
    refine ⟨lead, rest ++ trail, hline, hlead, words_eq_iff.1 ?_⟩
    rw [words_append_right htrail]
    split at h
    · next hwords =>
      split at h
      · next hname => rw [hwords, hname, Option.some.inj h]
      · cases h
    · cases h
  · cases h

/-- The last field with its letter. -/
def Last (fields : List Field) (f : Field) : Prop :=
  ∃ before after, fields = before ++ f :: after ∧ ∀ g ∈ after, g.key ≠ f.key

def Absent (fields : List Field) (key : HeaderKey) : Prop :=
  ∀ f ∈ fields, f.key ≠ key

/-- `get` takes out of the fields with one letter what `make` puts into them. -/
structure Field.Takes {α : Type} (get : Field → Option α) (make : α → Field) (key : HeaderKey) :
    Prop where
  some_iff : ∀ {f a}, get f = some a ↔ f = make a
  none_iff : ∀ {f}, get f = none ↔ f.key ≠ key
  key_make : ∀ a, (make a).key = key

namespace Field

theorem takes_dialect : Takes dialect? dialect .version where
  some_iff {f _} := by cases f <;> simp [dialect?]
  none_iff {f} := by cases f <;> simp [dialect?, key]
  key_make _ := rfl

theorem takes_memory : Takes memory? memory .memory where
  some_iff {f _} := by cases f <;> simp [memory?]
  none_iff {f} := by cases f <;> simp [memory?, key]
  key_make _ := rfl

theorem takes_wordBits : Takes wordBits? wordBits .wordBits where
  some_iff {f _} := by cases f <;> simp [wordBits?]
  none_iff {f} := by cases f <;> simp [wordBits?, key]
  key_make _ := rfl

theorem takes_registers : Takes registers? registers .registers where
  some_iff {f _} := by cases f <;> simp [registers?]
  none_iff {f} := by cases f <;> simp [registers?, key]
  key_make _ := rfl

end Field

section
variable {α : Type} {get : Field → Option α} {make : α → Field} {key : HeaderKey} {a : α}

theorem last?_eq_some_iff (h : Field.Takes get make key) :
    last? get fields = some a ↔ Last fields (make a) := by
  rw [last?, List.findSome?_eq_some_iff]
  constructor
  · rintro ⟨after, f, before, heq, hf, hafter⟩
    cases h.some_iff.1 hf
    refine ⟨before.reverse, after.reverse, by simpa using congrArg List.reverse heq, fun g hg => ?_⟩
    rw [h.key_make]
    exact h.none_iff.1 (hafter g (List.mem_reverse.1 hg))
  · rintro ⟨before, after, rfl, hafter⟩
    refine ⟨after.reverse, make a, before.reverse, by simp, h.some_iff.2 rfl, fun g hg => ?_⟩
    rw [h.key_make] at hafter
    exact h.none_iff.2 (hafter g (List.mem_reverse.1 hg))

theorem last?_eq_none_iff (h : Field.Takes get make key) :
    last? get fields = none ↔ Absent fields key := by
  simp only [last?, List.findSome?_eq_none_iff, List.mem_reverse, h.none_iff]
  rfl

theorem require_of_last (h : Field.Takes get make key) (ha : Last fields (make a)) :
    require key (last? get fields) = .ok a := by
  rw [(last?_eq_some_iff h).2 ha]
  rfl

theorem require_of_absent (h : Field.Takes get make key) (hkey : Absent fields key) :
    require key (last? get fields) = .error (.missing key) := by
  rw [(last?_eq_none_iff h).2 hkey]
  rfl

theorem exists_last (h : Field.Takes get make key) (hkey : ¬ Absent fields key) :
    ∃ a, Last fields (make a) := by
  simp only [← last?_eq_some_iff h, ← last?_eq_none_iff h] at hkey ⊢
  exact Option.ne_none_iff_exists'.1 hkey

end

theorem Last.mem (h : Last fields f) : f ∈ fields := by
  obtain ⟨before, after, rfl, -⟩ := h
  exact List.mem_append_right before List.mem_cons_self

/-- If no letter occurs twice, every field is the last one with its letter. -/
theorem last_of_mem (hkeys : (fields.map Field.key).Nodup) (hf : f ∈ fields) : Last fields f := by
  obtain ⟨before, after, rfl⟩ := List.append_of_mem hf
  rw [List.map_append, List.map_cons] at hkeys
  have hafter := (List.nodup_cons.1 (List.nodup_append.1 hkeys).2.1).1
  exact ⟨before, after, rfl, fun g hg heq => hafter (heq ▸ List.mem_map_of_mem hg)⟩

/-- The parameters that the fields state, within bounds or not. -/
structure Stated (fields : List Field) (p : Params) : Prop where
  dialect : Last fields (.dialect p.dialect)
  wordBits : Last fields (.wordBits p.wordBits)
  registers : Last fields (.registers p.registers)
  memory : Last fields (.memory p.memory) ∨ Absent fields .memory ∧ p.memory = .flat

/-- What comes of parameters when they are checked. -/
inductive Verdict (p : Params) : Except HeaderError (Option Params) → Prop
  | wordBits (h : ¬ (1 ≤ p.wordBits ∧ p.wordBits ≤ 64)) :
    Verdict p (.error (.wordBits p.wordBits))
  | registers (hbits : 1 ≤ p.wordBits ∧ p.wordBits ≤ 64)
    (h : ¬ (1 ≤ p.registers ∧ p.registers ≤ 1024)) : Verdict p (.error (.registers p.registers))
  | ok (hbits : 1 ≤ p.wordBits ∧ p.wordBits ≤ 64) (h : 1 ≤ p.registers ∧ p.registers ≤ 1024) :
    Verdict p (.ok (some p))

/-- What comes of the fields of a header. -/
inductive Result (fields : List Field) : Except HeaderError (Option Params) → Prop
  | noVersion (h : Absent fields .version) : Result fields (.error (.missing .version))
  | noWordBits (hversion : ¬ Absent fields .version) (h : Absent fields .wordBits) :
    Result fields (.error (.missing .wordBits))
  | noRegisters (hversion : ¬ Absent fields .version) (hbits : ¬ Absent fields .wordBits)
    (h : Absent fields .registers) : Result fields (.error (.missing .registers))
  | stated {p : Params} {r : Except HeaderError (Option Params)} (hp : Stated fields p)
    (hr : Verdict p r) : Result fields r

/-- What is read from a header with the given words after the name of the machine. -/
inductive Reading (ws : List (List Char)) : Except HeaderError (Option Params) → Prop
  | badWord {e : HeaderError} (h : FirstFault (fun _ => BadWord) ws e) : Reading ws (.error e)
  | fields {fields : List Field} {r : Except HeaderError (Option Params)}
    (hfields : List.Forall₂ States ws fields) (hr : Result fields r) : Reading ws r

/-! ### Fields in any order -/

theorem Stated.perm (h : Stated fields p) (hperm : fields.Perm fields')
    (hkeys : (fields.map Field.key).Nodup) : Stated fields' p := by
  have hkeys' : (fields'.map Field.key).Nodup := (hperm.map Field.key).nodup_iff.1 hkeys
  have hlast {f : Field} (hf : Last fields f) : Last fields' f :=
    last_of_mem hkeys' (hperm.subset hf.mem)
  exact {
    dialect := hlast h.dialect
    wordBits := hlast h.wordBits
    registers := hlast h.registers
    memory := h.memory.imp hlast fun ⟨habsent, hflat⟩ =>
      ⟨fun f hf => habsent f (hperm.symm.subset hf), hflat⟩ }

/-- What stands before the first equals sign of a word. -/
def keyOf (word : List Char) : List Char :=
  word.takeWhile (· ≠ '=')

theorem States.keyOf {word : List Char} (h : States word f) : keyOf word = [f.key.letter] := by
  cases h <;> rfl

theorem Reading.perm {ws' : List (List Char)} (h : Reading ws (.ok (some p))) (hperm : ws.Perm ws')
    (hkeys : (ws.map Header.keyOf).Nodup) : Reading ws' (.ok (some p)) := by
  cases h with
  | @fields fields _ hfields hr =>
    -- the other words state the same fields, in their own order
    obtain ⟨fields', hfields', hperm'⟩ := List.perm_comp_forall₂ hperm.symm hfields
    have hletters : ws.map Header.keyOf = (fields.map Field.key).map fun key => [key.letter] := by
      rw [List.map_map]
      exact forall₂_map_eq hfields fun _ _ => States.keyOf
    rw [hletters] at hkeys
    have hkey : (fields.map Field.key).Nodup := List.Nodup.of_map _ hkeys
    cases hr with
    | stated hp hr => exact .fields hfields' (.stated (hp.perm hperm'.symm hkey) hr)

/-! ### Reading -/

theorem Verdict.width (h : Verdict p r) : (do let _ ← p.width; return some p) = r := by
  cases h with
  | wordBits h =>
    have hnone : Width.ofNat? p.wordBits = none := dif_neg h
    rw [Params.width, hnone]
    rfl
  | registers hbits h =>
    have hsome : Width.ofNat? p.wordBits = some ⟨p.wordBits, hbits.1, hbits.2⟩ := dif_pos hbits
    have hout : ¬ (1 ≤ p.registers ∧ p.registers ≤ maxRegisters) := h
    rw [Params.width, hsome]
    simp only [if_neg hout]
    rfl
  | ok hbits h =>
    obtain ⟨w, hw⟩ := Params.exists_width hbits h
    rw [hw]
    rfl

theorem exists_verdict (p : Params) : ∃ r, Verdict p r := by
  by_cases hbits : 1 ≤ p.wordBits ∧ p.wordBits ≤ 64
  · by_cases h : 1 ≤ p.registers ∧ p.registers ≤ 1024
    · exact ⟨_, .ok hbits h⟩
    · exact ⟨_, .registers hbits h⟩
  · exact ⟨_, .wordBits hbits⟩

theorem params_of_stated (h : Stated fields p) : params fields = do let _ ← p.width; return p := by
  have hmemory : (last? Field.memory? fields).getD .flat = p.memory := by
    obtain hm | ⟨hm, hflat⟩ := h.memory
    · rw [(last?_eq_some_iff Field.takes_memory).2 hm, Option.getD_some]
    · rw [(last?_eq_none_iff Field.takes_memory).2 hm, Option.getD_none, hflat]
  rw [params, require_of_last Field.takes_dialect h.dialect,
    require_of_last Field.takes_wordBits h.wordBits,
    require_of_last Field.takes_registers h.registers, hmemory]
  rfl

theorem Result.params (h : Result fields r) : (do return some (← params fields)) = r := by
  cases h with
  | noVersion h =>
    rw [Header.params, require_of_absent Field.takes_dialect h]
    rfl
  | noWordBits hversion h =>
    obtain ⟨d, hd⟩ := exists_last Field.takes_dialect hversion
    rw [Header.params, require_of_last Field.takes_dialect hd,
      require_of_absent Field.takes_wordBits h]
    rfl
  | noRegisters hversion hbits h =>
    obtain ⟨d, hd⟩ := exists_last Field.takes_dialect hversion
    obtain ⟨n, hn⟩ := exists_last Field.takes_wordBits hbits
    rw [Header.params, require_of_last Field.takes_dialect hd,
      require_of_last Field.takes_wordBits hn, require_of_absent Field.takes_registers h]
    rfl
  | @stated p _ hp hr =>
    rw [params_of_stated hp, ← hr.width]
    cases p.width <;> rfl

theorem exists_result (fields : List Field) : ∃ r, Result fields r := by
  by_cases hversion : Absent fields .version
  · exact ⟨_, .noVersion hversion⟩
  by_cases hbits : Absent fields .wordBits
  · exact ⟨_, .noWordBits hversion hbits⟩
  by_cases hregisters : Absent fields .registers
  · exact ⟨_, .noRegisters hversion hbits hregisters⟩
  obtain ⟨d, hd⟩ := exists_last Field.takes_dialect hversion
  obtain ⟨n, hn⟩ := exists_last Field.takes_wordBits hbits
  obtain ⟨k, hk⟩ := exists_last Field.takes_registers hregisters
  have hmemory : ∃ m, Last fields (.memory m) ∨ Absent fields .memory ∧ m = .flat := by
    by_cases hm : Absent fields .memory
    · exact ⟨.flat, .inr ⟨hm, rfl⟩⟩
    · obtain ⟨m, hm⟩ := exists_last Field.takes_memory hm
      exact ⟨m, .inl hm⟩
  obtain ⟨m, hm⟩ := hmemory
  obtain ⟨r, hr⟩ := exists_verdict ⟨d, m, n, k⟩
  exact ⟨r, .stated ⟨hd, hn, hk, hm⟩ hr⟩

theorem mapM_error_iff_badWord {e : HeaderError} :
    ws.mapM Field.read = .error e ↔ FirstFault (fun _ => BadWord) ws e := by
  rw [mapM_error_iff]
  exact FirstFault.congr fun _ _ _ _ _ => Field.read_eq_error_iff

theorem mapM_ok_iff_states : ws.mapM Field.read = .ok fields ↔ List.Forall₂ States ws fields := by
  rw [mapM_ok_iff]
  simp only [Field.read_eq_ok_iff]

theorem Reading.read (h : Reading ws r) (hws : Words line ws) : read line = r := by
  rw [Header.read, fields?_of_words hws]
  cases h with
  | badWord h => simp only [mapM_error_iff_badWord.2 h, bind, Except.bind]
  | fields hfields hr =>
    rw [← hr.params]
    simp only [mapM_ok_iff_states.2 hfields, bind, Except.bind]

theorem exists_reading (ws : List (List Char)) : ∃ r, Reading ws r := by
  cases h : ws.mapM Field.read with
  | error e => exact ⟨_, .badWord (mapM_error_iff_badWord.1 h)⟩
  | ok fields =>
    obtain ⟨r, hr⟩ := exists_result fields
    exact ⟨r, .fields (mapM_ok_iff_states.1 h) hr⟩

theorem read_eq_iff (hws : Words line ws) : read line = r ↔ Reading ws r := by
  refine ⟨?_, fun h => h.read hws⟩
  rintro rfl
  obtain ⟨r, hr⟩ := exists_reading ws
  exact (hr.read hws).symm ▸ hr

theorem read_eq_none_iff : read line = .ok none ↔ ∀ ws, ¬ Words line ws := by
  constructor
  · intro h ws hws
    cases (read_eq_iff hws).1 h with
    | fields _ hr =>
      cases hr with
      | stated _ hr => cases hr
  · intro h
    have hnone : fields? line = none :=
      Option.eq_none_iff_forall_ne_some.2 fun ws heq => h ws (words_of_fields? heq)
    rw [read, hnone]

/-- What is read from a line, and what makes no difference to it. -/
structure HeaderReading : Prop where
  noHeader : ∀ line, read line = .ok none ↔ ∀ ws, ¬ Words line ws
  header : ∀ line ws, Words line ws → ∀ r, read line = r ↔ Reading ws r
  /-- White space before, between and after the words makes no difference. -/
  spaces : ∀ line other ws, Words line ws → Words other ws → read line = read other
  /-- Nor does the order of the fields of a header that is accepted, if their keys are distinct. -/
  order : ∀ line other ws ws' p, Words line ws → Words other ws' → ws.Perm ws' →
    (ws.map keyOf).Nodup → read line = .ok (some p) → read other = .ok (some p)
  /-- The header line of parameters within bounds states them. -/
  written : ∀ p : Params, 1 ≤ p.wordBits ∧ p.wordBits ≤ 64 → 1 ≤ p.registers ∧ p.registers ≤ 1024 →
    read p.header.toList = .ok (some p)

theorem header_reading : HeaderReading where
  noHeader _ := read_eq_none_iff
  header _ _ hws _ := read_eq_iff hws
  spaces _ _ _ hline hother := (read_eq_iff hline).2 ((read_eq_iff hother).1 rfl)
  order _ _ _ _ _ hline hother hperm hkeys h :=
    (((read_eq_iff hline).1 h).perm hperm hkeys).read hother
  written _ hbits hregisters := by
    obtain ⟨w, hw⟩ := Params.exists_width hbits hregisters
    exact read_header hw

/-- Fields in another order, with other white space around them. -/
theorem header_reading_reordered :
    let ws := ["V=2.00".toList, "W=16".toList, "K=8".toList]
    let ws' := ["K=8".toList, "V=2.00".toList, "W=16".toList]
    let line := ";TinyRAM V=2.00 W=16 K=8".toList
    let other := " ; \tTinyRAM  K=8 V=2.00\tW=16 ".toList
    let p : Params := ⟨.v2, .flat, 16, 8⟩
    Words line ws ∧ Words other ws' ∧ ws.Perm ws' ∧ (ws.map keyOf).Nodup ∧
      read line = .ok (some p) ∧ read other = .ok (some p) := by
  intro ws ws' line other p
  have hline : Words line ws := words_of_fields? (by decide +kernel)
  have hother : Words other ws' := words_of_fields? (by decide +kernel)
  have hperm : ws.Perm ws' := by decide +kernel
  have hkeys : (ws.map keyOf).Nodup := by decide +kernel
  have hread : read line = .ok (some p) := by decide +kernel
  exact ⟨hline, hother, hperm, hkeys, hread,
    header_reading.order line other ws ws' p hline hother hperm hkeys hread⟩

example : read "\t; TinyRAM K=+8  V=20e-1 W=9 M=hv W=0016".toList =
    .ok (some ⟨.v2, .harvard, 16, 8⟩) := by
  decide +kernel

end Header
end WordRam
