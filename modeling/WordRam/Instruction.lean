import WordRam.Opcode

/-!
# Instructions

An instruction is an opcode with operands of the opcode's shape. `Instruction` has a constructor for
each family, so only instructions with the right operands exist. `Instruction.build` makes one from
an opcode and `Arguments` of its shape, and `Instruction.opcode` and `Instruction.arguments` take it
apart again.
-/

namespace WordRam

/-- A register, by its index. -/
abbrev Reg := Nat

/-- What an instruction works on, with labels already resolved. -/
inductive Operand where
  | reg (r : Reg)
  | imm (v : Nat)
deriving DecidableEq, Repr

/-- A register is written `r` and its index, an immediate in decimal. -/
def Operand.text : Operand → String
  | .reg r => s!"r{r}"
  | .imm v => s!"{v}"

instance : ToString Operand where
  toString := Operand.text

/-- The operands of an instruction of a shape, where `α` is what may stand where registers and
immediates both can. -/
inductive Arguments (α : Type) : Shape → Type where
  | ternary (d a : Reg) (b : α) : Arguments α .ternary
  | binary (r : Reg) (a : α) : Arguments α .binary
  | unary (a : α) : Arguments α .unary
  | store (a : α) (r : Reg) : Arguments α .store

namespace Arguments

/-- The operands in the order in which they are written. -/
def toList {s : Shape} : Arguments Operand s → List Operand
  | ternary d a b => [.reg d, .reg a, b]
  | binary r a => [.reg r, a]
  | unary a => [a]
  | store a r => [a, .reg r]

/-- The operands with the one that is no register slot replaced. -/
def mapM {m : Type → Type} [Monad m] {α β : Type} (f : α → m β) {s : Shape} :
    Arguments α s → m (Arguments β s)
  | ternary d a b => do return ternary d a (← f b)
  | binary r a => do return binary r (← f a)
  | unary a => do return unary (← f a)
  | store a r => do return store (← f a) r

end Arguments

/-- An instruction of the machine. In each, `d` is the register that receives the result. -/
inductive Instruction where
  /-- Puts the result of an operation on a register and an operand into `d`, and sets the flag. -/
  | operate (op : Operation) (d a : Reg) (b : Operand)
  /-- Puts the complement of an operand into `d`, and clears the flag. -/
  | not (d : Reg) (a : Operand)
  /-- Puts a quotient or remainder into `d`, and clears the flag. -/
  | divide (op : Division) (d a : Reg) (b : Operand)
  /-- Sets the flag to the result of a comparison. -/
  | compare (op : Comparison) (a : Reg) (b : Operand)
  | mov (d : Reg) (a : Operand)
  | cmov (d : Reg) (a : Operand)
  | jump (when : Condition) (target : Operand)
  | store (access : Access) (address : Operand) (source : Reg)
  | load (access : Access) (d : Reg) (address : Operand)
  /-- Puts the next word of a tape into `d`, or zero if there is none; the flag says which. -/
  | read (d : Reg) (tape : Operand)
  | answer (code : Operand)
deriving DecidableEq, Repr

namespace Instruction

def opcode : Instruction → Opcode
  | operate op .. => .operate op
  | not .. => .not
  | divide op .. => .divide op
  | compare op .. => .compare op
  | mov .. => .mov
  | cmov .. => .cmov
  | jump condition _ => .jump condition
  | store access .. => .store access
  | load access .. => .load access
  | read .. => .read
  | answer _ => .answer

def arguments : (i : Instruction) → Arguments Operand i.opcode.shape
  | operate _ d a b => .ternary d a b
  | divide _ d a b => .ternary d a b
  | not d a => .binary d a
  | compare _ a b => .binary a b
  | mov d a => .binary d a
  | cmov d a => .binary d a
  | jump _ target => .unary target
  | store _ address source => .store address source
  | load _ d address => .binary d address
  | read d tape => .binary d tape
  | answer code => .unary code

/-- The instruction with an opcode and operands. -/
def build : (op : Opcode) → Arguments Operand op.shape → Instruction
  | .operate op, .ternary d a b => operate op d a b
  | .divide op, .ternary d a b => divide op d a b
  | .not, .binary d a => not d a
  | .compare op, .binary a b => compare op a b
  | .mov, .binary d a => mov d a
  | .cmov, .binary d a => cmov d a
  | .jump condition, .unary target => jump condition target
  | .store access, .store address source => store access address source
  | .load access, .binary d address => load access d address
  | .read, .binary d tape => read d tape
  | .answer, .unary code => answer code

/-- The instruction with an opcode and operands, if the operands have the opcode's shape. -/
def build? (op : Opcode) {s : Shape} (args : Arguments Operand s) : Option Instruction :=
  if h : s = op.shape then some (build op (h ▸ args)) else none

/-- An instruction is written as its mnemonic and its operands, with commas between them. -/
def text (i : Instruction) : String :=
  i.opcode.mnemonic ++ " " ++ ", ".intercalate (i.arguments.toList.map Operand.text)

instance : ToString Instruction where
  toString := text

theorem build_opcode_arguments (i : Instruction) : build i.opcode i.arguments = i := by
  cases i <;> rfl

end Instruction

end WordRam
