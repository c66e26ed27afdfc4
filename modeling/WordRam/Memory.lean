import WordRam.Fault
import WordRam.Memory.Cells
import WordRam.Params

/-!
# Memory

A memory of `limit` words, all zero at first, whose first `readOnly` words are protected. Bytes are
a second view of it: the bytes of a word lie in it from the lowest up, and byte addresses count
through the words. Where the word width is no multiple of eight bits, the top byte of each word is
only partly there.
-/

namespace WordRam

/-- A bounded memory of words with a protected segment at its bottom. -/
structure Memory where
  cells : Cells := ∅
  /-- The number of words. -/
  limit : Nat
  /-- The number of words, from the bottom up, that cannot be written. -/
  readOnly : Nat := 0
  /-- The number of bytes in a word. -/
  wordBytes : Nat
  /-- The bits of a word. -/
  mask : Nat
deriving DecidableEq

namespace Memory

/-- A memory of zeros for words of a width. -/
def ofWidth (w : Width) (limit : Nat) : Memory where
  limit
  wordBytes := w.bytes
  mask := w.mask

/-- Replaces the contents by a segment at the bottom, of which nothing past the limit is kept, and
protects that segment or leaves all of memory writable. -/
def preload (m : Memory) (data : List Nat) (protect : Bool) : Memory :=
  let segment := data.take m.limit
  { m with
    cells := .ofList (segment.map (· &&& m.mask))
    readOnly := if protect then segment.length else 0 }

/-- The words that are not zero, by increasing index. -/
def words (m : Memory) : List (Nat × Nat) :=
  m.cells.entries

def readWord (m : Memory) (index : Nat) : Except Fault Nat :=
  if index < m.limit then .ok (m.cells.get index) else .error (.outOfBounds index)

/-- Sets the word at an index to the bits of a word in `v`. -/
def writeWord (m : Memory) (index v : Nat) : Except Fault Memory :=
  if m.limit ≤ index then .error (.outOfBounds index)
  else if index < m.readOnly then .error (.readOnly index)
  else .ok { m with cells := m.cells.set index (v &&& m.mask) }

/-- Divides an address by the word size. -/
def divideAddress (m : Memory) (address : Nat) : Except Stop (Nat × Nat) :=
  if m.wordBytes = 0 then .error (.stuck (.noByte address))
  else .ok (address / m.wordBytes, address % m.wordBytes)

/-- The index of the word that an address names. -/
def wordIndex (m : Memory) (address : Nat) : Addressing → Except Stop Nat
  | .word => .ok address
  | .byte => do
    let (index, offset) ← m.divideAddress address
    if offset = 0 then return index else throw (.fault (.misaligned address))

/-- The word and the place in it of the byte at an address. A word has eight bytes at most. -/
def byteAt (m : Memory) (address : Nat) : Except Stop (Nat × Nat) := do
  let (index, offset) ← m.divideAddress address
  if m.limit ≤ index then throw (.fault (.outOfBounds address))
  if 8 ≤ offset then throw (.stuck (.noByte address))
  return (index, offset)

def readByte (m : Memory) (address : Nat) : Except Stop Nat := do
  let (index, offset) ← m.byteAt address
  return m.cells.get index / 2 ^ (8 * offset) % 2 ^ 8

/-- A word with one of its bytes replaced. -/
def replaceByte (word offset v : Nat) : Nat :=
  let unit := 2 ^ (8 * offset)
  word - word / unit % 2 ^ 8 * unit + v * unit

/-- Sets the byte at an address to `v`, if the word has all the bits of `v` there. -/
def writeByte (m : Memory) (address v : Nat) : Except Stop Memory := do
  let (index, offset) ← m.byteAt address
  let moved := v * 2 ^ (8 * offset)
  if moved &&& m.mask ≠ moved then throw (.fault (.byteOverflow address))
  (m.writeWord index (replaceByte (m.cells.get index) offset v)).mapError .fault

end Memory

end WordRam
