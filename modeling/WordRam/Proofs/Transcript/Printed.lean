import WordRam.Proofs.Transcript.Units

/-!
# Printed digests

A digest has 32 bytes, and two digits are printed for each of them, so a printed digest is a line of
64 digits. `Hexadecimal` says which they are, without the function that prints them. What the digest
is taken of begins with the tapes, and `WordsEncoded` says how these are written.
-/

namespace WordRam

namespace Digest

/-- The digits of the numbers below sixteen, in lower case. -/
def digits : List Char :=
  ['0', '1', '2', '3', '4', '5', '6', '7', '8', '9', 'a', 'b', 'c', 'd', 'e', 'f']

/-- The characters are two digits for each byte, the one that counts sixteens first. -/
inductive Hexadecimal : List UInt8 → List Char → Prop
  | nil : Hexadecimal [] []
  | cons {b : UInt8} {bs : List UInt8} {high low : Char} {cs : List Char}
    (hhigh : digits[b.toNat / 16]? = some high) (hlow : digits[b.toNat % 16]? = some low)
    (h : Hexadecimal bs cs) : Hexadecimal (b :: bs) (high :: low :: cs)

/-- A line is what is printed for a message. -/
structure Prints (message : List UInt8) (line : String) : Prop where
  digits : Hexadecimal (digest message.toArray) line.toList
  length : line.length = 64

theorem digits_getElem? : ∀ n < 16, digits[n]? = some n.digitChar := by
  decide

theorem hexadecimal_hex (bytes : List UInt8) : Hexadecimal bytes (hex bytes).toList := by
  rw [hex, String.toList_ofList]
  induction bytes with
  | nil => exact .nil
  | cons b bs ih =>
    have hb : b.toNat < 256 := b.toNat_lt
    exact .cons (digits_getElem? _ (by omega)) (digits_getElem? _ (by omega)) ih

theorem Hexadecimal.length {bytes : List UInt8} {cs : List Char} (h : Hexadecimal bytes cs) :
    cs.length = 2 * bytes.length := by
  induction h with
  | nil => rfl
  | cons _ _ _ ih => rw [List.length_cons, List.length_cons, List.length_cons, ih, Nat.mul_succ]

theorem length_laneBytes (lane : UInt64) : (laneBytes lane).length = 8 := by
  simp [laneBytes]

theorem length_digest (message : Array UInt8) : (digest message).length = 32 := by
  simp [digest, length_laneBytes, List.map_const']

theorem prints_digest (message : List UInt8) : Prints message (hex (digest message.toArray)) := by
  have hdigits := hexadecimal_hex (digest message.toArray)
  refine ⟨hdigits, ?_⟩
  rw [← String.length_toList, hdigits.length, length_digest]

/-- The digest of no bytes at all, which is known. -/
example : hex (digest #[]) =
    "a7ffc6f8bf1ed76651c14756a061d662f580ff4de43b49fa82d80a4b80f8434a" := by
  decide +kernel

end Digest

/-- How words are written: their number, then each of them. -/
inductive WordsEncoded (words : List Nat) : List UInt8 → Prop
  | intro {number : List UInt8} {items : List (List UInt8)}
    (hnumber : BigEndian words.length number) (hitems : List.Forall₂ BigEndian words items) :
    WordsEncoded words (number ++ items.flatten)

theorem WordsFit.encoded {words : List Nat} (h : WordsFit words) :
    WordsEncoded words (wordsBytes words) := by
  have hitems : List.Forall₂ BigEndian words (words.map numberBytes) :=
    forall₂_map_self fun v hv => bigEndian_numberBytes (h.word v hv)
  have hencoded := WordsEncoded.intro (bigEndian_numberBytes h.length) hitems
  rwa [← List.flatMap_def] at hencoded

end WordRam
