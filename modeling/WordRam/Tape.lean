/-!
# Tapes

A tape of words, read once from left to right.
-/

namespace WordRam

/-- A tape with the number of words that have been read from it. -/
structure Tape where
  words : Array Nat
  consumed : Nat := 0
deriving DecidableEq, Repr

namespace Tape

def ofList (words : List Nat) : Tape :=
  ⟨words.toArray, 0⟩

/-- The next word with the tape after it, or `none` at the end of the tape. -/
def next? (t : Tape) : Option (Nat × Tape) :=
  t.words[t.consumed]?.map fun v => (v, { t with consumed := t.consumed + 1 })

def remaining (t : Tape) : List Nat :=
  t.words.toList.drop t.consumed

def rewind (t : Tape) : Tape :=
  { t with consumed := 0 }

theorem remaining_eq_cons_of_next? {t u : Tape} {v : Nat} (h : t.next? = some (v, u)) :
    t.remaining = v :: u.remaining := by
  simp only [next?, Option.map_eq_some_iff, Prod.mk.injEq] at h
  obtain ⟨_, hv, rfl, rfl⟩ := h
  obtain ⟨hlt, hv⟩ := Array.getElem?_eq_some_iff.1 hv
  have hlt' : t.consumed < t.words.toList.length := hlt
  rw [remaining, List.drop_eq_getElem_cons hlt']
  simpa [remaining] using hv

theorem next?_eq_none_iff {t : Tape} : t.next? = none ↔ t.remaining = [] := by
  simp [next?, remaining, List.drop_eq_nil_iff]

end Tape

end WordRam
