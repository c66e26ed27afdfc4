/-!
# Opcodes

The instruction set in families. Opcodes of one family share their operands and the way they run;
the member of the family says which operation, comparison, condition or unit of memory is meant.
`Opcode.all` lists the whole set in encoding order.
-/

namespace WordRam

/-- How the operands of an opcode are laid out, `A` standing for a register or an immediate. -/
inductive Shape where
  /-- A destination register, a source register and `A`. -/
  | ternary
  /-- A register and `A`. -/
  | binary
  /-- Only `A`. -/
  | unary
  /-- The operand `A` and then a register: a memory write names its address first. -/
  | store
deriving DecidableEq, Repr

def Shape.arity : Shape → Nat
  | .ternary => 3
  | .binary | .store => 2
  | .unary => 1

/-- Operations on two words that give a word and the flag. -/
inductive Operation where
  | and | or | xor | add | sub | mull | umulh | smulh | shl | shr
deriving DecidableEq, Repr

/-- Operations on two words that fail on a zero divisor. -/
inductive Division where
  | udiv | umod
deriving DecidableEq, Repr

/-- Comparisons of two words: equal, above (unsigned) and greater (signed). -/
inductive Comparison where
  | cmpe | cmpa | cmpae | cmpg | cmpge
deriving DecidableEq, Repr

/-- When a jump is taken. -/
inductive Condition where
  | always | flagSet | flagClear
deriving DecidableEq, Repr

/-- What a memory instruction addresses. -/
inductive Access where
  /-- A word, by its index. -/
  | word
  /-- A word, by its index or by a byte address, as the configuration says. -/
  | wide
  /-- A byte, by its address. -/
  | byte
deriving DecidableEq, Repr

/-- An instruction without its operands. -/
inductive Opcode where
  | operate (op : Operation)
  | not
  | divide (op : Division)
  | compare (op : Comparison)
  | mov
  | cmov
  | jump (when : Condition)
  | store (access : Access)
  | load (access : Access)
  | read
  | answer
deriving DecidableEq, Repr

namespace Opcode

def all : List Opcode :=
  [.operate .and, .operate .or, .operate .xor, .not, .operate .add, .operate .sub,
   .operate .mull, .operate .umulh, .operate .smulh, .divide .udiv, .divide .umod,
   .operate .shl, .operate .shr, .compare .cmpe, .compare .cmpa, .compare .cmpae,
   .compare .cmpg, .compare .cmpge, .mov, .cmov, .jump .always, .jump .flagSet,
   .jump .flagClear, .store .word, .load .word, .store .wide, .load .wide, .store .byte,
   .load .byte, .read, .answer]

/-- The name of an opcode in source text, in lower case. -/
def mnemonic : Opcode → String
  | operate .and => "and"
  | operate .or => "or"
  | operate .xor => "xor"
  | operate .add => "add"
  | operate .sub => "sub"
  | operate .mull => "mull"
  | operate .umulh => "umulh"
  | operate .smulh => "smulh"
  | operate .shl => "shl"
  | operate .shr => "shr"
  | not => "not"
  | divide .udiv => "udiv"
  | divide .umod => "umod"
  | compare .cmpe => "cmpe"
  | compare .cmpa => "cmpa"
  | compare .cmpae => "cmpae"
  | compare .cmpg => "cmpg"
  | compare .cmpge => "cmpge"
  | mov => "mov"
  | cmov => "cmov"
  | jump .always => "jmp"
  | jump .flagSet => "cjmp"
  | jump .flagClear => "cnjmp"
  | store .word => "store"
  | store .wide => "store.w"
  | store .byte => "store.b"
  | load .word => "load"
  | load .wide => "load.w"
  | load .byte => "load.b"
  | read => "read"
  | answer => "answer"

instance : ToString Opcode where
  toString := mnemonic

/-- The layout of an opcode's operands. -/
def shape : Opcode → Shape
  | operate _ | divide _ => .ternary
  | not | compare _ | mov | cmov | load _ | read => .binary
  | jump _ | answer => .unary
  | store _ => .store

/-- The opcode that a mnemonic names, in whatever case of ASCII letters. -/
def ofMnemonic? (cs : List Char) : Option Opcode :=
  all.find? fun op => op.mnemonic.toList = cs.map Char.toLower

theorem mem_all : ∀ op : Opcode, op ∈ all
  | operate op => by cases op <;> decide
  | divide op => by cases op <;> decide
  | compare op => by cases op <;> decide
  | jump condition => by cases condition <;> decide
  | store access => by cases access <;> decide
  | load access => by cases access <;> decide
  | not | mov | cmov | read | answer => by decide

theorem ofMnemonic?_mnemonic : ∀ op : Opcode, ofMnemonic? op.mnemonic.toList = some op
  | operate op => by cases op <;> decide
  | divide op => by cases op <;> decide
  | compare op => by cases op <;> decide
  | jump condition => by cases condition <;> decide
  | store access => by cases access <;> decide
  | load access => by cases access <;> decide
  | not | mov | cmov | read | answer => by decide

end Opcode

end WordRam
