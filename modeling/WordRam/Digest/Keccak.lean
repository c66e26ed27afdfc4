/-!
# The permutation under the digest

The Keccak permutation of 1600 bits, in 24 rounds. A state is a square of lanes of 64 bits, five by
five. Each step of a round says what every lane becomes.
-/

namespace WordRam.Digest

/-- The 25 lanes of a state, row by row. -/
abbrev State := Vector UInt64 25

namespace State

def lane (s : State) (x y : Fin 5) : UInt64 :=
  s.get ⟨x.val + 5 * y.val, by omega⟩

/-- The state with the lanes that `f` gives, by column and row. -/
def ofLanes (f : Fin 5 → Fin 5 → UInt64) : State :=
  Vector.ofFn fun i => f ⟨i.val % 5, by omega⟩ ⟨i.val / 5, by omega⟩

def zero : State :=
  Vector.replicate 25 0

end State

/-- Rotation to the left by fewer than 64 bits. -/
def rotate (v : UInt64) (n : UInt64) : UInt64 :=
  (v <<< n) ||| (v >>> (64 - n))

def rotations : State :=
  #v[0, 1, 62, 28, 27,
     36, 44, 6, 55, 20,
     3, 10, 43, 25, 39,
     41, 45, 15, 21, 8,
     18, 2, 61, 56, 14]

def roundConstants : List UInt64 :=
  [0x0000000000000001, 0x0000000000008082, 0x800000000000808A, 0x8000000080008000,
   0x000000000000808B, 0x0000000080000001, 0x8000000080008081, 0x8000000000008009,
   0x000000000000008A, 0x0000000000000088, 0x0000000080008009, 0x000000008000000A,
   0x000000008000808B, 0x800000000000008B, 0x8000000000008089, 0x8000000000008003,
   0x8000000000008002, 0x8000000000000080, 0x000000000000800A, 0x800000008000000A,
   0x8000000080008081, 0x8000000000008080, 0x0000000080000001, 0x8000000080008008]

namespace State

/-- Adds to each lane the parities of the two columns beside it, the right one rotated by a bit. -/
def theta (s : State) : State :=
  let parity : Vector UInt64 5 := Vector.ofFn fun x =>
    s.lane x 0 ^^^ s.lane x 1 ^^^ s.lane x 2 ^^^ s.lane x 3 ^^^ s.lane x 4
  let change : Vector UInt64 5 := Vector.ofFn fun x =>
    parity.get (x + 4) ^^^ rotate (parity.get (x + 1)) 1
  ofLanes fun x y => s.lane x y ^^^ change.get x

def rho (s : State) : State :=
  ofLanes fun x y => rotate (s.lane x y) (rotations.lane x y)

def pi (s : State) : State :=
  ofLanes fun x y => s.lane (x + 3 * y) x

/-- Combines each lane with the two to the right of it. -/
def chi (s : State) : State :=
  ofLanes fun x y => s.lane x y ^^^ (~~~ s.lane (x + 1) y &&& s.lane (x + 2) y)

def iota (s : State) (c : UInt64) : State :=
  s.set 0 (s.lane 0 0 ^^^ c)

def round (s : State) (c : UInt64) : State :=
  s.theta.rho.pi.chi.iota c

def permute (s : State) : State :=
  roundConstants.foldl round s

end State

end WordRam.Digest
