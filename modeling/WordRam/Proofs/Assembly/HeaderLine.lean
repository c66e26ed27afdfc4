import WordRam.Header
import WordRam.Proofs.Assembly.Pass
import WordRam.Proofs.Assembly.Spelling
import WordRam.Proofs.Text.Joined
import WordRam.Proofs.Text.Numeral

/-!
# The header line of parameters

The line that `Params.header` writes is made of a semicolon and words with spaces between them, and
each word but the name of the machine is a field. So it is read back: the words from the line, the
fields from the words, and the parameters from the fields (`Header.read_header`).
-/

namespace WordRam

open Text

/-- The characters that names, numbers and fields are written with. -/
def isPlain (c : Char) : Bool :=
  Term.isLetter c || isDigit c || c = '.' || c = '='

section
variable {c : Char}

theorem range_of_isPlain (h : isPlain c) : 46 ≤ c.toNat ∧ c.toNat ≤ 122 := by
  simp only [isPlain, Term.isLetter, isDigit, Bool.or_eq_true, Bool.and_eq_true,
    decide_eq_true_eq, Char.le_def, UInt32.le_iff_toNat_le] at h
  rcases h with (((h | h) | h) | rfl) | rfl
  · change 97 ≤ c.toNat ∧ c.toNat ≤ 122 at h
    omega
  · change 65 ≤ c.toNat ∧ c.toNat ≤ 90 at h
    omega
  · change 48 ≤ c.toNat ∧ c.toNat ≤ 57 at h
    omega
  · decide
  · decide

theorem not_isBlank_of_isPlain (h : isPlain c) : isBlank c = false := by
  have hrange := range_of_isPlain h
  simp [isBlank, blank, Ranges.holds]
  omega

theorem isPlain_of_mem_toDigits {n : Nat} (h : c ∈ Nat.toDigits 10 n) : isPlain c := by
  simp [isPlain, isDigit_of_mem_toDigits h]

end

theorem Dialect.ofVersion?_version (d : Dialect) : ofVersion? d.version.toList = some d := by
  cases d <;> rfl

theorem MemoryModel.ofTag?_tag (m : MemoryModel) : ofTag? m.tag.toList = some m := by
  cases m <;> rfl

namespace Header

namespace Field

def key : Field → HeaderKey
  | dialect _ => .version
  | memory _ => .memory
  | wordBits _ => .wordBits
  | registers _ => .registers

def value : Field → List Char
  | dialect d => d.version.toList
  | memory m => m.tag.toList
  | wordBits n | registers n => Nat.toDigits 10 n

/-- The word that a field is written as. -/
def word (f : Field) : List Char :=
  f.key.letter :: '=' :: f.value

/-- The number in a field, if there is one, is not too large for its place. -/
def Fits : Field → Prop
  | wordBits n => n < 2 ^ 32
  | registers n => n < 2 ^ 16
  | _ => True

theorem isPlain_of_mem_value {f : Field} {c : Char} (h : c ∈ f.value) : isPlain c := by
  cases f with
  | dialect d =>
    have hversion : d.version.toList.all isPlain := by cases d <;> rfl
    exact List.all_eq_true.1 hversion c h
  | memory m =>
    have htag : m.tag.toList.all isPlain := by cases m <;> rfl
    exact List.all_eq_true.1 htag c h
  | wordBits n => exact isPlain_of_mem_toDigits h
  | registers n => exact isPlain_of_mem_toDigits h

theorem isPlain_of_mem_word {f : Field} {c : Char} (h : c ∈ f.word) : isPlain c := by
  rcases List.mem_cons.1 h with rfl | h
  · cases f <;> rfl
  · rcases List.mem_cons.1 h with rfl | h
    · rfl
    · exact isPlain_of_mem_value h

theorem read_word {f : Field} (h : f.Fits) : read f.word = .ok f := by
  have hcut : cut (· = '=') f.word = ([f.key.letter], some f.value) := by
    cases f <;> rfl
  rw [read, hcut]
  cases f with
  | dialect d =>
    simp only [key, HeaderKey.letter, value, Dialect.ofVersion?_version]
  | memory m =>
    simp only [key, HeaderKey.letter, value, MemoryModel.ofTag?_tag]
  | wordBits n =>
    simp only [key, HeaderKey.letter, value, Numeral.read?_toDigits h]
  | registers n =>
    have hlt : n < 2 ^ 32 := Nat.lt_trans h (by decide)
    simp only [key, HeaderKey.letter, value, Numeral.read?_toDigits hlt]
    exact if_pos h

end Field

end Header

namespace Params

def fields (p : Params) : List Header.Field :=
  .dialect p.dialect ::
    (match p.memory with
      | .flat => []
      | .harvard => [.memory p.memory]) ++
    [.wordBits p.wordBits, .registers p.registers]

/-- The words of the header for parameters. -/
def words (p : Params) : List (List Char) :=
  "TinyRAM".toList :: p.fields.map Header.Field.word

variable {p : Params} {w : Width}

theorem isPlain_of_mem_words {part : List Char} (hp : part ∈ p.words) {c : Char} (hc : c ∈ part) :
    isPlain c := by
  rcases List.mem_cons.1 hp with rfl | hp
  · have hname : "TinyRAM".toList.all isPlain := rfl
    exact List.all_eq_true.1 hname c hc
  · obtain ⟨f, -, rfl⟩ := List.mem_map.1 hp
    exact Header.Field.isPlain_of_mem_word hc

theorem ne_nil_of_mem_words {part : List Char} (hp : part ∈ p.words) : part ≠ [] := by
  rcases List.mem_cons.1 hp with rfl | hp
  · decide
  · obtain ⟨f, -, rfl⟩ := List.mem_map.1 hp
    exact List.cons_ne_nil _ _

theorem header_toList (p : Params) :
    p.header.toList = ';' :: ' ' :: List.intercalate [' '] p.words := by
  obtain ⟨d, m, bits, count⟩ := p
  cases m <;>
    simp [header, words, fields, toString, Header.Field.word, Header.Field.key, HeaderKey.letter,
      Header.Field.value]

theorem header_tight (p : Params) : Tight p.header.toList := by
  have hsemicolon : Tight [';'] :=
    .of_not_blank (List.cons_ne_nil _ _) (List.forall_mem_singleton.2 rfl)
  have hwords : Tight (List.intercalate [' '] p.words) :=
    .intercalate (List.cons_ne_nil _ _) (fun part hp => .of_not_blank (ne_nil_of_mem_words hp)
      fun c hc => not_isBlank_of_isPlain (isPlain_of_mem_words hp hc)) _
  rw [header_toList]
  exact hsemicolon.append [' '] hwords

theorem not_mem_header (p : Params) {c : Char} (hc : isPlain c = false) (hspace : c ≠ ' ')
    (hsemicolon : c ≠ ';') : c ∉ p.header.toList := by
  rw [header_toList, List.mem_cons, List.mem_cons]
  rintro (h | h | h)
  · exact hsemicolon h
  · exact hspace h
  · rcases mem_intercalate h with h | ⟨part, hp, h⟩
    · exact hspace (List.mem_singleton.1 h)
    · exact absurd (isPlain_of_mem_words hp h) (by simp [hc])

end Params

namespace Header

variable {p : Params} {w : Width}

theorem fields?_header (p : Params) :
    fields? p.header.toList = some (p.fields.map Field.word) := by
  have hwords : words (' ' :: List.intercalate [' '] p.words) = p.words := by
    rw [words_cons_blank (by decide), words_intercalate]
    exact fun part hp => ⟨Params.ne_nil_of_mem_words hp, fun c hc =>
      not_isBlank_of_isPlain (Params.isPlain_of_mem_words hp hc)⟩
  rw [fields?, p.header_tight.trim, p.header_toList]
  simp only [hwords]
  rfl

theorem fits_fields (hw : p.width = .ok w) : ∀ f ∈ p.fields, f.Fits := by
  obtain ⟨-, -, hmax⟩ := Params.width_eq_ok.1 hw
  have hbits : p.wordBits < 2 ^ 32 := by
    rw [← Params.bits_of_width hw]
    exact Nat.lt_of_le_of_lt w.bits_le (by decide)
  have hregisters : p.registers < 2 ^ 16 := Nat.lt_of_le_of_lt hmax (by decide)
  cases hm : p.memory with
  | flat => simpa [Params.fields, hm, Field.Fits] using ⟨hbits, hregisters⟩
  | harvard => simpa [Params.fields, hm, Field.Fits] using ⟨hbits, hregisters⟩

theorem params_fields (hw : p.width = .ok w) : params p.fields = .ok p := by
  have hfields : last? Field.dialect? p.fields = some p.dialect ∧
      (last? Field.memory? p.fields).getD .flat = p.memory ∧
      last? Field.wordBits? p.fields = some p.wordBits ∧
      last? Field.registers? p.fields = some p.registers := by
    obtain ⟨d, m, bits, count⟩ := p
    cases m <;> exact ⟨rfl, rfl, rfl, rfl⟩
  obtain ⟨hdialect, hmemory, hbits, hregisters⟩ := hfields
  rw [params, hdialect, hmemory, hbits, hregisters]
  simp only [require, bind, Except.bind, hw]
  rfl

/-- The header of parameters within bounds states these parameters. -/
theorem read_header (hw : p.width = .ok w) : read p.header.toList = .ok (some p) := by
  have hfields : (p.fields.map Field.word).mapM Field.read = .ok p.fields := by
    have hread : p.fields.mapM (Field.read ∘ Field.word) = .ok (p.fields.map id) :=
      mapM_eq_ok fun f hf => Field.read_word (fits_fields hw f hf)
    rwa [List.map_id, ← List.mapM_map] at hread
  rw [read, fields?_header]
  simp only [hfields, bind, Except.bind, params_fields hw]
  rfl

end Header

end WordRam
