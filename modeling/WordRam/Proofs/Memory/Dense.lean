import WordRam.Proofs.Machine.Valid
import WordRam.Proofs.Memory.Bytes

/-!
# Memory as an array

`Dense` is memory the plain way: one word for each index, none of them left out, and the bytes of a
word as its digits. Main statement: `dense_refinement`. Whatever is asked of a memory, it replies as
the array does, and what it lists are the words of the array that are not zero. It keeps no zeros, so
memories that read the same are the same.
-/

namespace WordRam

/-- The word that a number leaves, as an element of the array. -/
def Width.word (w : Width) (v : Nat) : Fin w.size :=
  ⟨v % w.size, Nat.mod_lt _ w.size_pos⟩

/-- What can be asked of a memory. -/
inductive Request where
  | preload (data : List Nat) (protect : Bool)
  | writeWord (index v : Nat)
  | writeByte (address : Nat) (v : UInt8)
  | readWord (index : Nat)
  | readByte (address : Nat)

/-- What is left of a write: the new state, or the one before with the reason why there is none. -/
def written {ε μ : Type} (m : μ) : Except ε μ → Except ε (Option Nat) × μ
  | .ok m' => (.ok none, m')
  | .error e => (.error e, m)

theorem written_eq_error {ε μ : Type} {m : μ} {x : Except ε μ} {e : ε} :
    (written m x).1 = .error e ↔ x = .error e := by
  cases x <;> simp [written]

/-- The replies to requests, one after another, and what is left in the end. -/
def serve {α μ : Type} (reply : Request → μ → α × μ) : List Request → μ → List α × μ
  | [], m => ([], m)
  | r :: requests, m =>
    let (a, m) := reply r m
    let (as, m) := serve reply requests m
    (a :: as, m)

def Memory.reply : Request → Memory → Except Stop (Option Nat) × Memory
  | .preload data protect, m => (.ok none, m.preload data protect)
  | .writeWord index v, m => written m ((m.writeWord index v).mapError .fault)
  | .writeByte address v, m => written m (m.writeByte address v.toNat)
  | .readWord index, m => (((m.readWord index).map some).mapError .fault, m)
  | .readByte address, m => ((m.readByte address).map some, m)

/-- An array of words, the first of them protected. -/
structure Dense (w : Width) (limit : Nat) where
  words : Vector (Fin w.size) limit
  readOnly : Nat

namespace Dense

variable {w : Width} {limit : Nat}

def zero (w : Width) (limit : Nat) : Dense w limit where
  words := .replicate limit (w.word 0)
  readOnly := 0

/-- The first words of a list that fit, and zeros after them. -/
def preload (data : List Nat) (protect : Bool) : Dense w limit where
  words := .ofFn fun i => w.word ((data[i]?).getD 0)
  readOnly := if protect then min data.length limit else 0

variable (d : Dense w limit)

def readWord (index : Nat) : Except Fault Nat :=
  if h : index < limit then .ok d.words[index] else .error (.outOfBounds index)

def writeWord (index v : Nat) : Except Fault (Dense w limit) :=
  if h : index < limit then
    if index < d.readOnly then .error (.readOnly index)
    else .ok { d with words := d.words.set index (w.word v) }
  else .error (.outOfBounds index)

def readByte (address : Nat) : Except Fault Nat :=
  if h : address / w.bytes < limit then
    .ok (((bytesOf w.bytes d.words[address / w.bytes])[address % w.bytes]?).getD 0)
  else .error (.outOfBounds address)

/-- Replaces a byte of a word, if the bytes make a word then. -/
def writeByte (address v : Nat) : Except Fault (Dense w limit) :=
  if h : address / w.bytes < limit then
    let bytes := (bytesOf w.bytes d.words[address / w.bytes]).set (address % w.bytes) v
    if hword : Nat.ofDigits (2 ^ 8) bytes < w.size then
      if address / w.bytes < d.readOnly then .error (.readOnly (address / w.bytes))
      else .ok { d with words := d.words.set (address / w.bytes) ⟨_, hword⟩ }
    else .error (.byteOverflow address)
  else .error (.outOfBounds address)

def reply : Request → Dense w limit → Except Fault (Option Nat) × Dense w limit
  | .preload data protect, _ => (.ok none, preload data protect)
  | .writeWord index v, d => written d (d.writeWord index v)
  | .writeByte address v, d => written d (d.writeByte address v.toNat)
  | .readWord index, d => ((d.readWord index).map some, d)
  | .readByte address, d => ((d.readByte address).map some, d)

/-! ### What the array holds -/

/-- The word at an index, zero past the end. -/
def get (i : Nat) : Nat :=
  if h : i < limit then d.words[i] else 0

variable {d} {i j : Nat} {data : List Nat} {protect : Bool}

theorem get_of_lt (h : i < limit) : d.get i = d.words[i] :=
  dif_pos h

theorem get_of_le (h : limit ≤ i) : d.get i = 0 :=
  dif_neg (Nat.not_lt.2 h)

theorem get_lt_size (d : Dense w limit) (i : Nat) : d.get i < w.size := by
  unfold get
  split
  · exact Fin.isLt _
  · exact w.size_pos

theorem get_zero (i : Nat) : (zero w limit).get i = 0 := by
  unfold get
  split
  · simp [zero, Width.word]
  · rfl

theorem get_preload (h : i < limit) :
    (preload data protect : Dense w limit).get i = (data[i]?).getD 0 % w.size := by
  rw [get_of_lt h]
  simp [preload, Width.word]

theorem get_set (h : i < limit) (v : Fin w.size) (j : Nat) :
    ({ d with words := d.words.set i v } : Dense w limit).get j = if j = i then (v : Nat) else d.get j := by
  unfold get
  by_cases hj : j < limit
  · simp only [dif_pos hj, Vector.getElem_set]
    by_cases hij : j = i
    · simp [hij]
    · simp [hij, Ne.symm hij]
  · have hne : j ≠ i := fun heq => hj (heq ▸ h)
    simp [hj, hne]

/-- Replacing a byte writes the word that the bytes make, if the byte fits. -/
theorem writeByte_eq {address v : Nat} (h : address / w.bytes < limit) (hv : v < 2 ^ 8) :
    d.writeByte address v =
      if v * 2 ^ (8 * (address % w.bytes)) < w.size then
        d.writeWord (address / w.bytes)
          (Memory.replaceByte (d.get (address / w.bytes)) (address % w.bytes) v)
      else .error (.byteOverflow address) := by
  have hoff : address % w.bytes < w.bytes := Nat.mod_lt _ Width.bytes_pos
  have hword := d.get_lt_size (address / w.bytes)
  have hbytes := Memory.ofDigits_set (Nat.lt_of_lt_of_le hword w.size_le_bytes) hoff v
  have hfits := Memory.replaceByte_lt_size_iff hword hoff hv
  rw [← hbytes, get_of_lt h] at hfits ⊢
  unfold writeByte writeWord
  rw [dif_pos h, dif_pos h]
  by_cases hlt : Nat.ofDigits (2 ^ 8) ((bytesOf w.bytes d.words[address / w.bytes]).set
      (address % w.bytes) v) < w.size
  · have heq : w.word _ = ⟨_, hlt⟩ := Fin.ext (Nat.mod_eq_of_lt hlt)
    rw [if_pos (hfits.1 hlt), dif_pos hlt, heq]
  · rw [if_neg (mt hfits.2 hlt), dif_neg hlt]

end Dense

namespace Memory

variable {w : Width} {limit : Nat} {m : Memory} {d : Dense w limit}

/-- The memory holds words of a width. -/
structure HasWidth (w : Width) (m : Memory) : Prop where
  wordBytes : m.wordBytes = w.bytes
  mask : m.mask = w.mask
  word : ∀ i, m.cells.get i < w.size

namespace HasWidth

theorem sized (h : m.HasWidth w) : m.Sized :=
  ⟨h.wordBytes ▸ w.bytes_pos, h.wordBytes ▸ w.bytes_le⟩

theorem byteAt_eq (h : m.HasWidth w) (address : Nat) : m.byteAt address =
    if address / w.bytes < m.limit then .ok (address / w.bytes, address % w.bytes)
    else .error (.fault (.outOfBounds address)) := by
  rw [Memory.byteAt_eq h.sized .byte, target, h.wordBytes]
  by_cases hi : address / w.bytes < m.limit
  · simp only [if_pos hi]
  · simp only [if_neg hi]

end HasWidth

/-- A memory holds what an array does. -/
structure Shows (m : Memory) (d : Dense w limit) : Prop where
  limit : m.limit = limit
  readOnly : m.readOnly = d.readOnly
  wordBytes : m.wordBytes = w.bytes
  mask : m.mask = w.mask
  get : ∀ i, m.cells.get i = d.get i

/-- What a request comes to is the same for a memory and an array. -/
def Alike (x : Except Stop (Option Nat) × Memory) (y : Except Fault (Option Nat) × Dense w limit) :
    Prop :=
  x.1 = y.1.mapError .fault ∧ x.2.Shows y.2

namespace Shows

theorem zero (w : Width) (limit : Nat) : (ofWidth w limit).Shows (Dense.zero w limit) :=
  ⟨rfl, rfl, rfl, rfl, fun i => (Dense.get_zero i).symm⟩

theorem preload (h : m.Shows d) (data : List Nat) (protect : Bool) :
    (m.preload data protect).Shows (Dense.preload data protect : Dense w limit) := by
  refine ⟨h.limit, ?_, h.wordBytes, h.mask, fun i => ?_⟩
  · simp [Memory.preload, Dense.preload, h.limit, Nat.min_comm]
  · simp only [Memory.preload, Cells.get_ofList, List.getElem?_map, h.limit, h.mask]
    by_cases hi : i < limit
    · rw [Dense.get_preload hi, List.getElem?_take_of_lt hi]
      cases data[i]? with
      | none => simp
      | some v => exact w.and_mask v
    · have hle := Nat.not_lt.1 hi
      rw [Dense.get_of_le hle, List.getElem?_eq_none (by simp; omega)]
      rfl

theorem set (h : m.Shows d) {index : Nat} (hi : index < limit) (v : Fin w.size) :
    { m with cells := m.cells.set index v }.Shows { d with words := d.words.set index v } := by
  refine ⟨h.limit, h.readOnly, h.wordBytes, h.mask, fun i => ?_⟩
  rw [Dense.get_set hi, Cells.get_set, h.get]

theorem hasWidth (h : m.Shows d) : m.HasWidth w where
  wordBytes := h.wordBytes
  mask := h.mask
  word i := by rw [h.get]; exact d.get_lt_size i

theorem readWord (h : m.Shows d) (index : Nat) : m.readWord index = d.readWord index := by
  unfold Memory.readWord Dense.readWord
  rw [h.limit, h.get]
  split
  · next hi => rw [Dense.get_of_lt hi]
  · rfl

theorem writeWord (h : m.Shows d) (index v : Nat) :
    Alike (written m ((m.writeWord index v).mapError .fault)) (written d (d.writeWord index v)) := by
  have hlimit := h.limit
  have hreadOnly := h.readOnly
  unfold Memory.writeWord Dense.writeWord
  by_cases hi : index < limit
  · rw [if_neg (by omega), dif_pos hi]
    by_cases hro : index < d.readOnly
    · rw [if_pos (by omega), if_pos hro]
      exact ⟨rfl, h⟩
    · rw [if_neg (by omega), if_neg hro]
      have hword : v &&& m.mask = (w.word v : Nat) := by
        rw [h.mask]
        exact w.and_mask v
      rw [hword]
      exact ⟨rfl, h.set hi (w.word v)⟩
  · rw [if_pos (by omega), dif_neg hi]
    exact ⟨rfl, h⟩

theorem readByte (h : m.Shows d) (address : Nat) :
    m.readByte address = (d.readByte address).mapError .fault := by
  unfold Memory.readByte Dense.readByte
  rw [h.hasWidth.byteAt_eq, h.limit]
  by_cases hi : address / w.bytes < limit
  · have hoff : address % w.bytes < w.bytes := Nat.mod_lt _ Width.bytes_pos
    rw [if_pos hi, dif_pos hi, getElem?_bytesOf hoff, ← Dense.get_of_lt hi, ← h.get]
    rfl
  · rw [if_neg hi, dif_neg hi]
    rfl

theorem writeByte (h : m.Shows d) (address : Nat) {v : Nat} (hv : v < 2 ^ 8) :
    Alike (written m (m.writeByte address v)) (written d (d.writeByte address v)) := by
  unfold Memory.writeByte
  rw [h.hasWidth.byteAt_eq, h.limit]
  by_cases hi : address / w.bytes < limit
  · rw [if_pos hi, Dense.writeByte_eq hi hv, ← h.get]
    simp only [bind, Except.bind, h.mask, ne_eq, Width.and_mask_eq_iff]
    by_cases hfits : v * 2 ^ (8 * (address % w.bytes)) < w.size
    · rw [if_pos hfits, if_neg (not_not_intro hfits)]
      exact h.writeWord _ _
    · rw [if_neg hfits, if_pos hfits]
      exact ⟨rfl, h⟩
  · unfold Dense.writeByte
    rw [if_neg hi, dif_neg hi]
    exact ⟨rfl, h⟩

theorem reply (h : m.Shows d) (r : Request) : Alike (Memory.reply r m) (Dense.reply r d) := by
  cases r with
  | preload data protect => exact ⟨rfl, h.preload data protect⟩
  | writeWord index v => exact h.writeWord index v
  | writeByte address v => exact h.writeByte address v.toNat_lt
  | readWord index =>
    refine ⟨?_, h⟩
    simp only [Memory.reply, Dense.reply, h.readWord]
  | readByte address =>
    refine ⟨?_, h⟩
    simp only [Memory.reply, Dense.reply, h.readByte]
    cases d.readByte address <;> rfl

theorem serve (h : m.Shows d) (requests : List Request) :
    (WordRam.serve Memory.reply requests m).1 =
        (WordRam.serve Dense.reply requests d).1.map (·.mapError .fault) ∧
      (WordRam.serve Memory.reply requests m).2.Shows
        (WordRam.serve Dense.reply requests d).2 := by
  induction requests generalizing m d with
  | nil => exact ⟨rfl, h⟩
  | cons r requests ih =>
    obtain ⟨hreply, hnext⟩ := h.reply r
    obtain ⟨hreplies, hlast⟩ := ih hnext
    refine ⟨?_, hlast⟩
    simp only [WordRam.serve, List.map_cons, hreply, hreplies]

theorem mem_words_iff (h : m.Shows d) {i v : Nat} :
    (i, v) ∈ m.words ↔ v ≠ 0 ∧ ∃ hi : i < limit, (d.words[i] : Nat) = v := by
  rw [words, Cells.mem_entries_iff, h.get]
  constructor
  · rintro ⟨rfl, hne⟩
    refine ⟨hne, ?_⟩
    by_cases hi : i < limit
    · exact ⟨hi, (Dense.get_of_lt hi).symm⟩
    · exact absurd (Dense.get_of_le (Nat.not_lt.1 hi)) hne
  · rintro ⟨hne, hi, rfl⟩
    exact ⟨Dense.get_of_lt hi, hne⟩

theorem eq_of_readWord {w' : Width} {limit' : Nat} {m' : Memory} {d' : Dense w' limit'}
    (h : m.Shows d) (h' : m'.Shows d') (hlimit : m'.limit = m.limit)
    (hreadOnly : m'.readOnly = m.readOnly) (hbytes : m'.wordBytes = m.wordBytes)
    (hmask : m'.mask = m.mask) (hread : ∀ i, m'.readWord i = m.readWord i) : m' = m := by
  have hcells : m'.cells = m.cells := by
    refine Cells.ext_get fun i => ?_
    by_cases hi : i < m.limit
    · have hword := hread i
      unfold Memory.readWord at hword
      rw [if_pos hi, if_pos (hlimit ▸ hi)] at hword
      exact Except.ok.inj hword
    · have hm := h.limit
      have hm' := h'.limit
      have hzero : d.get i = 0 := Dense.get_of_le (by omega)
      have hzero' : d'.get i = 0 := Dense.get_of_le (by omega)
      rw [h.get, h'.get, hzero, hzero']
  cases m
  cases m'
  simp only at hcells hlimit hreadOnly hbytes hmask
  rw [hcells, hlimit, hreadOnly, hbytes, hmask]

end Shows

end Memory

/-- A memory replies as an array does and lists the words of the array that are not zero, by
increasing index. It is determined by what it reads. -/
theorem dense_refinement (w : Width) (limit : Nat) (requests : List Request) :
    let m := serve Memory.reply requests (.ofWidth w limit)
    let d := serve Dense.reply requests (.zero w limit)
    m.1 = d.1.map (·.mapError .fault) ∧
      m.2.limit = limit ∧ m.2.readOnly = d.2.readOnly ∧
      m.2.words.Pairwise (·.1 < ·.1) ∧
      (∀ i v, (i, v) ∈ m.2.words ↔ v ≠ 0 ∧ ∃ hi : i < limit, (d.2.words[i] : Nat) = v) ∧
      ∀ (w' : Width) (limit' : Nat) (requests' : List Request),
        let m' := serve Memory.reply requests' (.ofWidth w' limit')
        m'.2.limit = m.2.limit → m'.2.readOnly = m.2.readOnly →
          m'.2.wordBytes = m.2.wordBytes → m'.2.mask = m.2.mask →
          (∀ i, m'.2.readWord i = m.2.readWord i) → m'.2 = m.2 := by
  obtain ⟨hreplies, hshows⟩ := (Memory.Shows.zero w limit).serve requests
  refine ⟨hreplies, hshows.limit, hshows.readOnly, (Cells.sparse _).1, ?_, ?_⟩
  · intro i v
    exact hshows.mem_words_iff
  · intro w' limit' requests'
    obtain ⟨-, hshows'⟩ := (Memory.Shows.zero w' limit').serve requests'
    exact hshows.eq_of_readWord hshows'

/-- A byte that is written and cleared again leaves nothing behind. -/
theorem dense_refinement_cleared :
    let w : Width := ⟨12, by decide, by decide⟩
    (serve Memory.reply [.writeByte 2 5, .writeWord 1 4096] (.ofWidth w 4)).2 = .ofWidth w 4 := by
  intro w
  obtain ⟨-, -, -, -, -, hdetermined⟩ := dense_refinement w 4 []
  have hlimit : (serve Memory.reply [.writeByte 2 5, .writeWord 1 4096] (.ofWidth w 4)).2.limit =
      4 := by decide
  refine hdetermined w 4 [.writeByte 2 5, .writeWord 1 4096] hlimit (by decide) (by decide)
    (by decide) fun i => ?_
  by_cases hi : i < 4
  · revert i
    decide
  · have hout (m : Memory) (hm : m.limit = 4) : m.readWord i = .error (.outOfBounds i) :=
      if_neg (hm ▸ hi)
    rw [hout _ hlimit, hout _ rfl]

end WordRam
