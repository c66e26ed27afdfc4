import WordRam.Params

/-!
# Configurations

What a run is given besides its program and its tapes.
-/

namespace WordRam

structure Config where
  params : Params
  /-- The number of instructions after which the machine faults. -/
  stepLimit : Option Nat := none
  /-- What the address of a wide memory instruction counts. -/
  wide : Addressing := .byte
  memoryWords : Nat
  /-- The words at the bottom of memory when the run starts. -/
  preload : List Nat := []
deriving DecidableEq, Repr

namespace Config

/-- The usual conditions for a machine: no step limit, nothing loaded into memory, and as many words
of memory as sixteen bits can count, or a word if that is less. -/
def ofParams (p : Params) : Config where
  params := p
  memoryWords := 2 ^ min p.wordBits 16

end Config

end WordRam
