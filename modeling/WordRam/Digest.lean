import WordRam.Digest.Keccak

/-!
# Digests

`digest` is SHA3-256: the message is padded to whole blocks, each block is added to the state and
the state permuted, and the digest is the first 32 bytes of the state.
-/

namespace WordRam.Digest

def blockSize : Nat := 136

/-- The bytes that fill up a message to whole blocks: two bits that tell this digest from others of
its family, a one, zeros, and a one at the very end. -/
def padding (length : Nat) : List UInt8 :=
  let count := blockSize - length % blockSize
  if count = 1 then [0x86] else 0x06 :: List.replicate (count - 2) 0 ++ [0x80]

/-- The lane that eight bytes from `i` on make up, the lowest first. -/
def laneAt (bytes : Array UInt8) (i : Nat) : UInt64 :=
  (List.range 8).foldr (fun k lane => lane <<< 8 ||| (bytes.getD (i + k) 0).toUInt64) 0

/-- Adds the block that starts at `i` to a state. -/
def State.absorb (bytes : Array UInt8) (i : Nat) (s : State) : State :=
  Vector.ofFn fun k =>
    if 8 * k.val < blockSize then s.get k ^^^ laneAt bytes (i + 8 * k.val) else s.get k

/-- The eight bytes of a lane, the lowest first. -/
def laneBytes (lane : UInt64) : List UInt8 :=
  (List.range 8).map fun k => (lane >>> (8 * k).toUInt64).toUInt8

/-- The SHA3-256 digest of a message, 32 bytes. -/
def digest (message : Array UInt8) : List UInt8 :=
  let bytes := message ++ padding message.size
  let blocks := List.range (bytes.size / blockSize)
  let state := blocks.foldl (fun s k => (s.absorb bytes (blockSize * k)).permute) State.zero
  (state.toList.take 4).flatMap laneBytes

/-- Bytes in hexadecimal, two digits for each. -/
def hex (bytes : List UInt8) : String :=
  String.ofList (bytes.flatMap fun b => [(b.toNat / 16).digitChar, (b.toNat % 16).digitChar])

end WordRam.Digest
