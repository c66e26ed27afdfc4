import WordRam.Proofs.Memory.Bytes
import WordRam.Transcript

/-!
# Reading bytes back

What a transcript is fed can be read back as far as it is known how long it is. An encoding `Splits`
on some values if what follows the bytes of such a value does not matter: they are only those of this
value. Numbers below `2 ^ 64` have that property, and from there it carries over to lists of a length
(`splits_flatMap`) and to machine states of a shape (`Snapshot.splits`).
-/

namespace WordRam

/-- Values with `P` can be cut off the front of a string of bytes in one way only. -/
def Splits {α : Type} (P : α → Prop) (encode : α → List UInt8) : Prop :=
  ∀ ⦃a b : α⦄ ⦃s t : List UInt8⦄, P a → P b → encode a ++ s = encode b ++ t → a = b ∧ s = t

section
variable {α β : Type} {P : α → Prop} {Q : β → Prop} {f : α → List UInt8} {g : β → List UInt8}

theorem Splits.pair (hf : Splits P f) (hg : Splits Q g) :
    Splits (fun x : α × β => P x.1 ∧ Q x.2) fun x => f x.1 ++ g x.2 := by
  intro a b s t ha hb h
  rw [List.append_assoc, List.append_assoc] at h
  obtain ⟨hfst, h⟩ := hf ha.1 hb.1 h
  obtain ⟨hsnd, hrest⟩ := hg ha.2 hb.2 h
  exact ⟨Prod.ext hfst hsnd, hrest⟩

theorem splits_flatMap (hf : Splits P f) (n : Nat) :
    Splits (fun as : List α => as.length = n ∧ ∀ a ∈ as, P a) fun as => as.flatMap f := by
  induction n with
  | zero =>
    intro as bs s t ha hb h
    rw [List.length_eq_zero_iff.1 ha.1, List.length_eq_zero_iff.1 hb.1] at h ⊢
    exact ⟨rfl, h⟩
  | succ n ih =>
    intro as bs s t ha hb h
    obtain ⟨a, as, rfl⟩ := List.exists_cons_of_length_eq_add_one ha.1
    obtain ⟨b, bs, rfl⟩ := List.exists_cons_of_length_eq_add_one hb.1
    simp only [List.length_cons, Nat.add_right_cancel_iff, List.forall_mem_cons] at ha hb
    simp only [List.flatMap_cons, List.append_assoc] at h
    obtain ⟨rfl, htail⟩ := hf ha.2.1 hb.2.1 h
    obtain ⟨rfl, hrest⟩ := ih ⟨ha.1, ha.2.2⟩ ⟨hb.1, hb.2.2⟩ htail
    exact ⟨rfl, hrest⟩

end

@[simp] theorem length_numberBytes (n : Nat) : (numberBytes n).length = 8 := by
  simp [numberBytes]

theorem toNat_numberBytes (n : Nat) :
    (numberBytes n).map UInt8.toNat = (bytesOf 8 n).reverse := by
  simp [numberBytes, bytesOf, List.range_succ, Nat.div_div_eq_div_mul]

theorem numberBytes_inj {m n : Nat} (hm : m < 2 ^ 64) (hn : n < 2 ^ 64)
    (h : numberBytes m = numberBytes n) : m = n := by
  have hbytes : bytesOf 8 m = bytesOf 8 n := by
    rw [← List.reverse_inj, ← toNat_numberBytes, ← toNat_numberBytes, h]
  rw [← ofDigits_bytesOf (n := 8) hm, hbytes, ofDigits_bytesOf (n := 8) hn]

theorem splits_numberBytes : Splits (· < 2 ^ 64) numberBytes := by
  intro m n s t hm hn h
  obtain ⟨hbytes, hrest⟩ := List.append_inj h (by simp)
  exact ⟨numberBytes_inj hm hn hbytes, hrest⟩

/-- What a transcript is fed of a machine. -/
structure Snapshot where
  pc : Nat
  flag : Bool
  registers : List Nat
  memory : Cells
deriving DecidableEq

def Machine.snapshot (m : Machine) : Snapshot where
  pc := m.pc
  flag := m.flag
  registers := m.registers.toList
  memory := m.memory.cells

namespace Snapshot

def bytes (s : Snapshot) : List UInt8 :=
  numberBytes s.pc ++ s.flag.toUInt8 :: s.registers.flatMap numberBytes ++
    s.memory.entries.flatMap fun (index, word) => numberBytes index ++ numberBytes word

/-- The numbers of registers and of memory words that are not zero. -/
def shape (s : Snapshot) : Nat × Nat :=
  (s.registers.length, s.memory.entries.length)

/-- Every number takes eight bytes. -/
structure Fits (s : Snapshot) : Prop where
  pc : s.pc < 2 ^ 64
  registers : ∀ v ∈ s.registers, v < 2 ^ 64
  memory : ∀ entry ∈ s.memory.entries, entry.1 < 2 ^ 64 ∧ entry.2 < 2 ^ 64

theorem splits (size : Nat × Nat) :
    Splits (fun s : Snapshot => s.shape = size ∧ s.Fits) Snapshot.bytes := by
  intro a b s t ⟨ha, hfits⟩ ⟨hb, hfits'⟩ h
  simp only [← ha, shape, Prod.mk.injEq] at hb
  simp only [bytes, List.append_assoc, List.cons_append] at h
  obtain ⟨hpc, hafter⟩ := splits_numberBytes hfits.pc hfits'.pc h
  obtain ⟨hbyte, hafter⟩ := List.cons.inj hafter
  have hflag : a.flag = b.flag := by
    revert hbyte
    cases a.flag <;> cases b.flag <;> decide
  obtain ⟨hregisters, hafter⟩ := splits_flatMap splits_numberBytes _ ⟨rfl, hfits.registers⟩
    ⟨hb.1, hfits'.registers⟩ hafter
  obtain ⟨hentries, hrest⟩ := splits_flatMap (splits_numberBytes.pair splits_numberBytes) _
    ⟨rfl, hfits.memory⟩ ⟨hb.2, hfits'.memory⟩ hafter
  have hmemory : a.memory = b.memory := by
    cases ha : a.memory
    cases hb : b.memory
    simpa [ha, hb] using hentries
  cases a
  cases b
  simp only at hpc hflag hregisters hmemory
  exact ⟨by rw [hpc, hflag, hregisters, hmemory], hrest⟩

end Snapshot

theorem Machine.bytes_eq (m : Machine) : m.bytes = m.snapshot.bytes := rfl

end WordRam
