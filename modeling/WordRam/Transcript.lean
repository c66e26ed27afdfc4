import WordRam.Digest
import WordRam.Execution

/-!
# Transcripts

A transcript collects what identifies a run, as one string of bytes: whatever is fed to it, such as
the source text and the tapes, and the state of the machine after every step. Its digest stands for
all of that.

Numbers take eight bytes, the highest first. A sequence of words is preceded by its length. A state
is written as the program counter, the flag, the registers and the words of memory that are not
zero, each after its index.
-/

namespace WordRam

/-- The eight bytes of a number below `2 ^ 64`, the highest first. -/
def numberBytes (n : Nat) : List UInt8 :=
  (List.range 8).map fun i => (n / 256 ^ (7 - i)).toUInt8

def wordsBytes (words : List Nat) : List UInt8 :=
  numberBytes words.length ++ words.flatMap numberBytes

def Machine.bytes (m : Machine) : List UInt8 :=
  numberBytes m.pc ++ m.flag.toUInt8 :: m.registers.toList.flatMap numberBytes ++
    m.memory.words.flatMap fun (index, word) => numberBytes index ++ numberBytes word

structure Transcript where
  fed : Array UInt8 := #[]
  /-- The number of machine states among it. -/
  states : Nat := 0
deriving DecidableEq

namespace Transcript

variable (t : Transcript)

def feed (bytes : List UInt8) : Transcript :=
  { t with fed := t.fed ++ bytes }

/-- Feeds a sequence of words, such as a tape. -/
def feedWords (words : List Nat) : Transcript :=
  t.feed (wordsBytes words)

def feedState (m : Machine) : Transcript :=
  { t with fed := t.fed ++ m.bytes, states := t.states + 1 }

/-- Runs until the machine halts and feeds the state after every step, also that after the last. An
execution that has halted before still has that one state. -/
def record (e : Execution) : Execution × Transcript :=
  e.drive (fun e t => (false, feedState t e.machine)) e.fuel t

def digest : List UInt8 :=
  Digest.digest t.fed

end Transcript

end WordRam
