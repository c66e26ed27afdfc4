import WordRam.Proofs.Transcript.Absorbed

/-!
# Units of a transcript

A transcript is fed one unit after another, and each can be told from what comes after it. The words
of a tape come after their number, so where they end is known (`splits_wordsBytes`): what has been
fed binds both tapes, however they are read. How many words a state has is not written, but the
length of its bytes says so once the number of registers is known (`Snapshot.eq_of_bytes`), and the
words that are not zero are all that a memory holds. Main statement: `Transcript.units_bind`.
-/

namespace WordRam

/-- The number of words and each of them take eight bytes. -/
structure WordsFit (words : List Nat) : Prop where
  length : words.length < 2 ^ 64
  word : ∀ v ∈ words, v < 2 ^ 64

theorem splits_wordsBytes : Splits WordsFit wordsBytes := by
  intro as bs s t ha hb h
  simp only [wordsBytes, List.append_assoc] at h
  obtain ⟨hlength, hwords⟩ := splits_numberBytes ha.length hb.length h
  exact splits_flatMap splits_numberBytes _ ⟨rfl, ha.word⟩ ⟨hlength.symm, hb.word⟩ hwords

namespace Snapshot

variable {a b : Snapshot}

theorem length_bytes (s : Snapshot) :
    s.bytes.length = 8 + (1 + 8 * s.registers.length) + 16 * s.memory.entries.length := by
  simp only [bytes, List.length_append, List.length_cons, List.length_flatMap, length_numberBytes,
    List.map_const', List.sum_replicate, smul_eq_mul]
  omega

theorem eq_of_bytes (ha : a.Fits) (hb : b.Fits) (hsize : a.registers.length = b.registers.length)
    (h : a.bytes = b.bytes) : a = b := by
  have hlength := congrArg List.length h
  rw [length_bytes, length_bytes] at hlength
  have hentries : a.memory.entries.length = b.memory.entries.length := by omega
  have hshape : a.shape = b.shape := Prod.ext hsize hentries
  exact (splits b.shape ⟨hshape, ha⟩ ⟨rfl, hb⟩ (congrArg (· ++ []) h)).1

end Snapshot

namespace Machine

/-- A machine that calls have brought an execution of an assembled program to. Indices of
instructions and of words in memory take no more than 64 bits. -/
inductive Reachable : Machine → Prop
  | intro {source : String} {given : Option Params} {p : Program} {c : Config}
    {tape0 tape1 : List Nat} {e : Execution} (hp : Program.assemble source given = .ok p)
    (hs : Execution.start p c tape0 tape1 = .ok e) (hsize : p.instructions.size < 2 ^ 64)
    (hwords : c.memoryWords < 2 ^ 64) (calls : List Call) : Reachable (e.after calls).machine

/-- The machines do not differ but for their tapes, and for how much memory they have beyond the
words that are not zero. -/
structure SameState (m m' : Machine) : Prop where
  pc : m.pc = m'.pc
  flag : m.flag = m'.flag
  registers : m.registers = m'.registers
  word : ∀ i, i < m.memory.limit → i < m'.memory.limit → m.memory.readWord i = m'.memory.readWord i
  nonzero : ∀ i v, v ≠ 0 → (m.memory.readWord i = .ok v ↔ m'.memory.readWord i = .ok v)

variable {m m' : Machine}

theorem Reachable.valid (h : m.Reachable) :
    m.snapshot.Fits ∧ ∃ c w, m.memory.Valid c w := by
  cases h with
  | intro hp hs hsize hwords calls =>
    obtain ⟨w, -, hv⟩ := Execution.valid_after hp hs
    exact ⟨(hv calls).fits_snapshot hsize hwords, _, w, (hv calls).machine.memory⟩

theorem Reachable.sameState (h : m.Reachable) (h' : m'.Reachable)
    (hsize : m.registers.size = m'.registers.size) (hbytes : m.bytes = m'.bytes) :
    m.SameState m' := by
  obtain ⟨hfits, c, w, hmemory⟩ := h.valid
  obtain ⟨hfits', c', w', hmemory'⟩ := h'.valid
  have hsame : m.snapshot = m'.snapshot := Snapshot.eq_of_bytes hfits hfits' hsize hbytes
  have hcells : m.memory.cells = m'.memory.cells := congrArg Snapshot.memory hsame
  refine ⟨congrArg Snapshot.pc hsame, congrArg Snapshot.flag hsame,
    Array.toList_inj.1 (congrArg Snapshot.registers hsame), fun i hi hi' => ?_, fun i v hne => ?_⟩
  · simp only [Memory.readWord, if_pos hi, if_pos hi', hcells]
  · have hwords := hmemory.mem_words_iff (i := i) (v := v)
    have hwords' := hmemory'.mem_words_iff (i := i) (v := v)
    rw [Memory.words, hcells] at hwords
    simpa [hne] using hwords.symm.trans hwords'

end Machine

namespace Transcript

variable {t : Transcript} {a0 a1 b0 b1 : List Nat}

/-- Two tapes and what is fed after them. -/
theorem tapes_of_fed (ha0 : WordsFit a0) (ha1 : WordsFit a1) (hb0 : WordsFit b0) (hb1 : WordsFit b1)
    {rest rest' : List UInt8}
    (h : t.fed.toList ++ wordsBytes a0 ++ wordsBytes a1 ++ rest =
      t.fed.toList ++ wordsBytes b0 ++ wordsBytes b1 ++ rest') :
    a0 = b0 ∧ a1 = b1 ∧ rest = rest' := by
  simp only [List.append_assoc, List.append_cancel_left_eq] at h
  obtain ⟨h0, h⟩ := splits_wordsBytes ha0 hb0 h
  obtain ⟨h1, h⟩ := splits_wordsBytes ha1 hb1 h
  exact ⟨h0, h1, h⟩

/-- What has been fed binds every unit of it: both tapes, whatever is fed after them and whatever
run is recorded, and the state of a machine with so many registers. -/
theorem units_bind (t : Transcript) :
    (∀ a0 a1 b0 b1 : List Nat, WordsFit a0 → WordsFit a1 → WordsFit b0 → WordsFit b1 →
      (∀ rest rest' : List UInt8,
        (((t.feedWords a0).feedWords a1).feed rest).fed =
          (((t.feedWords b0).feedWords b1).feed rest').fed →
        a0 = b0 ∧ a1 = b1 ∧ rest = rest') ∧
      ∀ e e' : Execution,
        (((t.feedWords a0).feedWords a1).record e).2.fed =
          (((t.feedWords b0).feedWords b1).record e').2.fed →
        a0 = b0 ∧ a1 = b1) ∧
    ∀ m m' : Machine, m.Reachable → m'.Reachable → m.registers.size = m'.registers.size →
      (t.feedState m).fed = (t.feedState m').fed → m.SameState m' := by
  refine ⟨fun a0 a1 b0 b1 ha0 ha1 hb0 hb1 => ⟨fun rest rest' h => ?_, fun e e' h => ?_⟩,
    fun m m' hm hm' hsize h => ?_⟩
  · rw [← Array.toList_inj] at h
    refine tapes_of_fed (t := t) ha0 ha1 hb0 hb1 ?_
    simpa [feed, feedWords] using h
  · rw [← Array.toList_inj, (Execution.fed_record _ _).1, (Execution.fed_record _ _).1] at h
    have hfed : t.fed.toList ++ wordsBytes a0 ++ wordsBytes a1 ++ e.recorded.flatMap Snapshot.bytes =
        t.fed.toList ++ wordsBytes b0 ++ wordsBytes b1 ++ e'.recorded.flatMap Snapshot.bytes := by
      simpa [feed, feedWords] using h
    obtain ⟨h0, h1, -⟩ := tapes_of_fed ha0 ha1 hb0 hb1 hfed
    exact ⟨h0, h1⟩
  · rw [← Array.toList_inj] at h
    refine hm.sameState hm' hsize ?_
    simpa [feedState] using h

/-- The usual execution of `Program.divideAll` faults before it reads the third word of its tape. The
word is bound all the same, and so is the state that the execution halts in. -/
theorem units_bind_divideAll :
    [5, 0, 1] = [5, 0] ++ (Execution.divideAll [5, 0, 1]).run.machine.primary.remaining ∧
      ((Execution.divideAll [5, 0, 1]).after [.run]).machine.SameState
        ((Execution.divideAll [5, 0, 2]).after [.step, .run]).machine := by
  have hreachable (tape : List Nat) (calls : List Call) :
      ((Execution.divideAll tape).after calls).machine.Reachable :=
    .intro Program.assemble_divideAllText (Execution.start_divideAll tape) (by decide) (by decide)
      calls
  obtain ⟨htapes, hmachines⟩ := units_bind {}
  obtain ⟨hfed, -⟩ := htapes [5, 0, 1] [9]
    ([5, 0] ++ (Execution.divideAll [5, 0, 1]).run.machine.primary.remaining) [9]
    ⟨by decide, by decide⟩ ⟨by decide, by decide⟩ ⟨by decide, by decide⟩ ⟨by decide, by decide⟩
  exact ⟨(hfed [255] [255] rfl).1, hmachines _ _ (hreachable _ _) (hreachable _ _) rfl rfl⟩

end Transcript
end WordRam
