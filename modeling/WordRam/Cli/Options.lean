import WordRam.Params
import WordRam.Text.Blank
import WordRam.Text.Numeral

/-!
# Options

What the words of a command line ask for. Words that start with a hyphen name options; the value of
an option is attached to its name or is the next word. No option may be given twice, and there is
exactly one word that is neither an option nor a value: the path of the program. Anything else is
refused without further distinction.
-/

namespace WordRam.Cli

open Text

/-- The options that take a value. -/
inductive Key where
  | tape0 | tape1 | preload | stepLimit | memoryWords | wordBits | registers | dialect
  | wideAddressing
deriving DecidableEq, Repr

namespace Key

def all : List Key :=
  [tape0, tape1, preload, stepLimit, memoryWords, wordBits, registers, dialect, wideAddressing]

def name : Key → String
  | tape0 => "tape0"
  | tape1 => "tape1"
  | preload => "preload"
  | stepLimit => "step-limit"
  | memoryWords => "memory-words"
  | wordBits => "word-bits"
  | registers => "registers"
  | dialect => "dialect"
  | wideAddressing => "wide-addressing"

/-- The letter of an option that has one, which one hyphen goes before. -/
def letter? : Key → Option Char
  | tape0 => some 't'
  | tape1 => some 'a'
  | _ => none

end Key

/-- The options that take no value. -/
inductive Switch where
  | harvard | traceDigest
deriving DecidableEq, Repr

namespace Switch

def all : List Switch :=
  [harvard, traceDigest]

def name : Switch → String
  | harvard => "harvard"
  | traceDigest => "trace-digest"

end Switch

/-- What one or two words of a command line say. -/
inductive Argument where
  | program (path : List Char)
  | value (key : Key) (text : List Char)
  | switch (s : Switch)
deriving DecidableEq, Repr

namespace Argument

/-- What a word says on its own: an argument, or the name of an option whose value is the next
word. -/
inductive Head where
  | complete (a : Argument)
  | wanting (key : Key)

/-- Reads a word that is not known to be a value. -/
def Head.read? : List Char → Option Head
  | '-' :: '-' :: rest =>
    let (name, attached) := cut (· = '=') rest
    match Key.all.find? (·.name.toList = name), attached with
    | some key, some text => some (.complete (.value key text))
    | some key, none => some (.wanting key)
    | none, none =>
      (Switch.all.find? (·.name.toList = name)).map fun s => .complete (.switch s)
    | none, some _ => none
  | '-' :: letter :: attached =>
    (Key.all.find? (·.letter? = some letter)).map fun key =>
      match attached with
      | [] => .wanting key
      | '=' :: text => .complete (.value key text)
      | text => .complete (.value key text)
  | path => some (.complete (.program path))

/-- Whether a word of its own can be the value of an option. -/
def isValue (word : List Char) : Bool :=
  word = ['-'] || word.head? ≠ some '-'

/-- Reads the words of a command line. After two hyphens alone, no word names an option. -/
def scan : List (List Char) → Option (List Argument)
  | [] => some []
  | word :: rest =>
    if word = ['-', '-'] then some (rest.map program)
    else match Head.read? word, rest with
      | some (.complete a), rest => (scan rest).map (a :: ·)
      | some (.wanting key), text :: rest =>
        if isValue text then (scan rest).map (value key text :: ·) else none
      | some (.wanting _), [] => none
      | none, _ => none

def path? : Argument → Option (List Char)
  | program path => some path
  | _ => none

def value? (key : Key) : Argument → Option (List Char)
  | value k text => if k = key then some text else none
  | _ => none

end Argument

/-- Parameters that take precedence over those of the header. -/
structure Overrides where
  dialect : Option Dialect := none
  wordBits : Option Nat := none
  registers : Option Nat := none
  harvard : Bool := false
deriving DecidableEq, Repr

structure Options where
  program : String
  tape0 : Option String := none
  tape1 : Option String := none
  preload : Option String := none
  stepLimit : Option Nat := none
  memoryWords : Option Nat := none
  wide : Addressing := .byte
  overrides : Overrides := {}
  traceDigest : Bool := false
deriving DecidableEq, Repr

namespace Options

/-- The only member of a list that has no more than one. -/
def only? {α : Type} : List α → Option (Option α)
  | [] => some none
  | [a] => some (some a)
  | _ => none

/-- The value of an option that may be absent, as `read` understands it. -/
def value? {α : Type} (args : List Argument) (key : Key) (read : List Char → Option α) :
    Option (Option α) :=
  match only? (args.filterMap (Argument.value? key)) with
  | none => none
  | some none => some none
  | some (some text) => (read text).map some

def given? (args : List Argument) (s : Switch) : Option Bool :=
  (only? (args.filter (· = .switch s))).map Option.isSome

def path? (cs : List Char) : Option String :=
  if cs = [] then none else some (String.ofList cs)

def dialect? (cs : List Char) : Option Dialect :=
  if cs = "v1".toList then some .v1
  else if cs = "v2".toList then some .v2
  else none

def addressing? (cs : List Char) : Option Addressing :=
  if cs = "word".toList then some .word
  else if cs = "byte".toList then some .byte
  else none

/-- Reads a command line. Counts have 64 bits, the word width 32 and the number of registers 16. -/
def read? (words : List String) : Option Options := do
  let args ← Argument.scan (words.map String.toList)
  let program ← path? (← (← only? (args.filterMap Argument.path?)))
  let tape0 ← value? args .tape0 path?
  let tape1 ← value? args .tape1 path?
  let preload ← value? args .preload path?
  let stepLimit ← value? args .stepLimit (Numeral.read? (2 ^ 64))
  let memoryWords ← value? args .memoryWords (Numeral.read? (2 ^ 64))
  let wide ← value? args .wideAddressing addressing?
  let dialect ← value? args .dialect dialect?
  let wordBits ← value? args .wordBits (Numeral.readSigned? (2 ^ 32))
  let registers ← value? args .registers (Numeral.readSigned? (2 ^ 16))
  let harvard ← given? args .harvard
  let traceDigest ← given? args .traceDigest
  return {
    program, tape0, tape1, preload, stepLimit, memoryWords, traceDigest
    wide := wide.getD .byte
    overrides := { dialect, wordBits, registers, harvard } }

def files (o : Options) : List String :=
  o.program :: (o.tape0.toList ++ o.tape1.toList ++ o.preload.toList)

end Options

end WordRam.Cli
