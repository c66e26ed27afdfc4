import WordRam.Config
import WordRam.Program

/-!
# Refusals

A configuration may be unable to run a program: `Config.accept` decides, and a `Refusal` says why.
-/

namespace WordRam

inductive Refusal where
  | params (error : HeaderError)
  /-- The program was assembled for more registers than there are. -/
  | registers (program config : Nat)
  /-- The program has an instruction that the dialect lacks. -/
  | dialect (opcode : Opcode) (dialect : Dialect)
  /-- The words to be loaded are more than memory has. -/
  | preload (length limit : Nat)
deriving DecidableEq, Repr

def Refusal.message : Refusal → String
  | params error => error.message
  | registers program config =>
    s!"program uses {program} registers, but only {config} are configured"
  | dialect op d => s!"`{op}` is not available in TinyRAM {d}"
  | preload length limit => s!"preload of {length} words does not fit in {limit} words of memory"

/-- The word width of a configuration that can run a program. Of several reasons to refuse, the one
that `Refusal` lists first is given, and of several instructions the first in the program. -/
def Config.accept (c : Config) (p : Program) : Except Refusal Width := do
  let w ← c.params.width.mapError .params
  if c.params.registers < p.params.registers then
    throw (.registers p.params.registers c.params.registers)
  match p.instructions.find? fun i => !c.params.dialect.allows i.opcode with
  | some i => throw (.dialect i.opcode c.params.dialect)
  | none =>
    if c.memoryWords < c.preload.length then
      throw (.preload c.preload.length c.memoryWords)
    return w

end WordRam
