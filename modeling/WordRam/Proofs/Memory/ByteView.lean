import Mathlib.Algebra.BigOperators.Group.Finset.Basic
import WordRam.Proofs.Memory.Dense

/-!
# Two views of a memory

The bytes of a memory and its words are two views of the same contents (`Memory.TwoViews`). It is so
for every memory of a width, that is, one whose words are words of the width: reading and writing a
byte then come to reading and replacing a byte of a word (`Memory.HasWidth.readByte_eq`,
`Memory.HasWidth.writeByte_eq`), and a word is determined by its bytes (`eq_of_byteOf_eq`). Written
one after another, the bytes of a word end up there whatever their order is
(`Memory.HasWidth.serve_writes`). Main statement: `two_views`.
-/

namespace WordRam

/-- A byte of a number, the lowest being byte 0. -/
def byteOf (word k : Nat) : Nat :=
  word / 2 ^ (8 * k) % 2 ^ 8

variable {word k j v n : Nat}

theorem byteOf_lt (word k : Nat) : byteOf word k < 2 ^ 8 :=
  Nat.mod_lt _ (by decide)

theorem byteOf_zero (word : Nat) : byteOf word 0 = word % 2 ^ 8 := by
  rw [byteOf, Nat.mul_zero, Nat.pow_zero, Nat.div_one]

theorem byteOf_succ (word k : Nat) : byteOf word (k + 1) = byteOf (word / 2 ^ 8) k := by
  have hpow : (2 : Nat) ^ (8 * (k + 1)) = 2 ^ 8 * 2 ^ (8 * k) := by
    rw [← Nat.pow_add, Nat.mul_succ, Nat.add_comm]
  rw [byteOf, byteOf, hpow, Nat.div_div_eq_div_mul]

theorem byteOf_replaceByte (hv : v < 2 ^ 8) (word k j : Nat) :
    byteOf (Memory.replaceByte word k v) j = if j = k then v else byteOf word j := by
  -- the lowest byte is cut off the word and the place moves down by one
  induction k generalizing word j with
  | zero =>
    rw [Memory.replaceByte_zero]
    cases j with
    | zero =>
      rw [byteOf_zero, if_pos rfl]
      omega
    | succ j =>
      have hhigh : (v + 2 ^ 8 * (word / 2 ^ 8)) / 2 ^ 8 = word / 2 ^ 8 := by omega
      rw [byteOf_succ, byteOf_succ, hhigh, if_neg (Nat.succ_ne_zero j)]
  | succ k ih =>
    rw [Memory.replaceByte_succ]
    have hlow : word % 2 ^ 8 < 2 ^ 8 := Nat.mod_lt _ (by decide)
    generalize hrest : Memory.replaceByte (word / 2 ^ 8) k v = rest
    cases j with
    | zero =>
      rw [byteOf_zero, byteOf_zero, if_neg (Nat.succ_ne_zero k).symm]
      omega
    | succ j =>
      have hhigh : (word % 2 ^ 8 + 2 ^ 8 * rest) / 2 ^ 8 = rest := by omega
      rw [byteOf_succ, byteOf_succ, hhigh, ← hrest, ih]
      simp only [Nat.add_right_cancel_iff]

theorem sum_byteOf (word n : Nat) :
    ∑ k ∈ Finset.range n, byteOf word k * 256 ^ k = word % 256 ^ n := by
  induction n with
  | zero => rw [Finset.sum_range_zero, Nat.pow_zero, Nat.mod_one]
  | succ n ih =>
    rw [Finset.sum_range_succ, ih, Nat.mod_pow_succ, byteOf, Nat.pow_mul, Nat.mul_comm]

theorem eq_of_byteOf_eq {a b : Nat} (ha : a < 256 ^ n) (hb : b < 256 ^ n)
    (h : ∀ k < n, byteOf a k = byteOf b k) : a = b := by
  rw [← Nat.mod_eq_of_lt ha, ← Nat.mod_eq_of_lt hb, ← sum_byteOf, ← sum_byteOf]
  exact Finset.sum_congr rfl fun k hk => by rw [h k (Finset.mem_range.1 hk)]

namespace Width

variable {w : Width}

theorem size_le_pow_bytes (w : Width) : w.size ≤ 256 ^ w.bytes := by
  have hsize := w.size_le_bytes
  rwa [Nat.pow_mul] at hsize

/-- A byte of a word has its place in the word. -/
theorem byteOf_mul_lt_size (hv : v < w.size) (k : Nat) : byteOf v k * 2 ^ (8 * k) < w.size :=
  calc byteOf v k * 2 ^ (8 * k) ≤ v / 2 ^ (8 * k) * 2 ^ (8 * k) :=
        Nat.mul_le_mul_right _ (Nat.mod_le _ _)
    _ ≤ v := Nat.div_mul_le_self _ _
    _ < w.size := hv

end Width

namespace Memory

variable {w : Width} {m m' : Memory} {address i : Nat}

/-! ### A byte of a word -/

/-- The memory with a byte replaced. -/
def withByte (m : Memory) (w : Width) (address v : Nat) : Memory :=
  let word := m.cells.get (address / w.bytes)
  { m with
    cells := m.cells.set (address / w.bytes) (replaceByte word (address % w.bytes) v) }

theorem byteOf_get_withByte (m : Memory) (w : Width) (hv : v < 2 ^ 8) (i j : Nat) :
    byteOf ((m.withByte w address v).cells.get i) j =
      if i = address / w.bytes ∧ j = address % w.bytes then v else byteOf (m.cells.get i) j := by
  rw [withByte, Cells.get_set]
  by_cases hi : i = address / w.bytes
  · subst hi
    simp only [if_true, true_and, byteOf_replaceByte hv]
  · simp only [hi, if_false, false_and]

/-- The address of a byte, by the index of its word and its place there. -/
theorem address_eq (hk : k < w.bytes) :
    (i * w.bytes + k) / w.bytes = i ∧ (i * w.bytes + k) % w.bytes = k :=
  (Nat.div_mod_unique w.bytes_pos).2 ⟨by rw [Nat.mul_comm, Nat.add_comm], hk⟩

theorem readWord_fails : (∃ cause, m.readWord i = .error cause) ↔ m.limit ≤ i := by
  unfold readWord
  by_cases hi : i < m.limit
  · simp [hi]
  · simp [hi, Nat.not_lt.1 hi]

namespace HasWidth

theorem wordIndex_eq_ok (h : m.HasWidth w) :
    m.wordIndex address .byte = .ok i ↔ address = i * w.bytes := by
  have hpos := w.bytes_pos
  rw [wordIndex_eq h.sized, target, h.wordBytes]
  by_cases hmod : address % w.bytes = 0
  · rw [if_pos hmod, ok_mapError, Except.ok.injEq]
    constructor
    · rintro rfl
      exact (Nat.div_mul_cancel (Nat.dvd_of_mod_eq_zero hmod)).symm
    · rintro rfl
      exact Nat.mul_div_cancel i hpos
  · rw [if_neg hmod, error_mapError]
    simp only [reduceCtorEq, false_iff]
    rintro rfl
    exact hmod (Nat.mul_mod_left i w.bytes)

theorem readByte_eq (h : m.HasWidth w) (address : Nat) : m.readByte address =
    if address / w.bytes < m.limit then
      .ok (byteOf (m.cells.get (address / w.bytes)) (address % w.bytes))
    else .error (.fault (.outOfBounds address)) := by
  rw [readByte, h.byteAt_eq]
  split <;> rfl

theorem writeByte_eq (h : m.HasWidth w) (address : Nat) (hv : v < 2 ^ 8) : m.writeByte address v =
    if address / w.bytes < m.limit then
      if v * 2 ^ (8 * (address % w.bytes)) < w.size then
        if address / w.bytes < m.readOnly then .error (.fault (.readOnly (address / w.bytes)))
        else .ok (m.withByte w address v)
      else .error (.fault (.byteOverflow address))
    else .error (.fault (.outOfBounds address)) := by
  have hplace : address % w.bytes < w.bytes := Nat.mod_lt _ w.bytes_pos
  have hword := replaceByte_lt_size_iff (h.word (address / w.bytes)) hplace hv
  rw [writeByte, h.byteAt_eq]
  by_cases hi : address / w.bytes < m.limit
  · simp only [if_pos hi, bind, Except.bind, h.mask, ne_eq, Width.and_mask_eq_iff]
    by_cases hfits : v * 2 ^ (8 * (address % w.bytes)) < w.size
    · have hkept : replaceByte (m.cells.get (address / w.bytes)) (address % w.bytes) v &&& m.mask =
          replaceByte (m.cells.get (address / w.bytes)) (address % w.bytes) v := by
        rw [h.mask]
        exact Width.and_mask_eq_iff.2 (hword.2 hfits)
      rw [if_neg (not_not_intro hfits), if_pos hfits, writeWord, if_neg (Nat.not_le.2 hi), hkept]
      split <;> rfl
    · rw [if_pos hfits, if_neg hfits]
      rfl
  · rw [if_neg hi, if_neg hi]
    rfl

theorem writeByte_ok (h : m.HasWidth w) (hv : v < 2 ^ 8) (hw : m.writeByte address v = .ok m') :
    m' = m.withByte w address v ∧ address / w.bytes < m.limit ∧
      v * 2 ^ (8 * (address % w.bytes)) < w.size := by
  rw [h.writeByte_eq address hv] at hw
  split at hw
  · split at hw
    · split at hw
      · cases hw
      · cases hw
        exact ⟨rfl, ‹_›, ‹_›⟩
    · cases hw
  · cases hw

theorem withByte (h : m.HasWidth w) (hv : v < 2 ^ 8)
    (hfits : v * 2 ^ (8 * (address % w.bytes)) < w.size) : (m.withByte w address v).HasWidth w where
  wordBytes := h.wordBytes
  mask := h.mask
  word i := by
    rw [Memory.withByte, Cells.get_set]
    split
    · exact (replaceByte_lt_size_iff (h.word _) (Nat.mod_lt _ w.bytes_pos) hv).2 hfits
    · exact h.word i

/-! ### Reading and writing -/

theorem readByte_of_lt (h : m.HasWidth w) (hi : i < m.limit) (hk : k < w.bytes) :
    m.readByte (i * w.bytes + k) = .ok (byteOf (m.cells.get i) k) := by
  obtain ⟨hindex, hplace⟩ := address_eq (i := i) hk
  rw [h.readByte_eq, hindex, hplace, if_pos hi]

theorem readByte_fails (h : m.HasWidth w) (hk : k < w.bytes) :
    (∃ stop, m.readByte (i * w.bytes + k) = .error stop) ↔ m.limit ≤ i := by
  obtain ⟨hindex, -⟩ := address_eq (i := i) hk
  rw [h.readByte_eq, hindex]
  by_cases hi : i < m.limit
  · simp [hi]
  · simp [hi, Nat.not_lt.1 hi]

theorem readWord_eq_sum (h : m.HasWidth w) (hi : i < m.limit) :
    m.readWord i = .ok (∑ k ∈ Finset.range w.bytes, byteOf (m.cells.get i) k * 256 ^ k) := by
  rw [sum_byteOf, Nat.mod_eq_of_lt (Nat.lt_of_lt_of_le (h.word i) w.size_le_pow_bytes), readWord,
    if_pos hi]

theorem readByte_withByte (h : m.HasWidth w) (hv : v < 2 ^ 8)
    (hin : address / w.bytes < m.limit) (hfits : v * 2 ^ (8 * (address % w.bytes)) < w.size)
    (other : Nat) : (m.withByte w address v).readByte other =
      if other = address then .ok v else m.readByte other := by
  rw [(h.withByte hv hfits).readByte_eq, byteOf_get_withByte m w hv]
  by_cases ho : other = address
  · subst ho
    simp only [and_self, if_true]
    exact if_pos hin
  · have hne : ¬ (other / w.bytes = address / w.bytes ∧ other % w.bytes = address % w.bytes) := by
      rintro ⟨hindex, hplace⟩
      rw [← Nat.div_add_mod other w.bytes, ← Nat.div_add_mod address w.bytes, hindex, hplace] at ho
      exact ho rfl
    rw [if_neg hne, if_neg ho, h.readByte_eq]
    rfl

theorem readWord_withByte (hi : i ≠ address / w.bytes) :
    (m.withByte w address v).readWord i = m.readWord i := by
  simp only [readWord, Memory.withByte, Cells.get_set, if_neg hi]

/-- What has been written is the byte of `v` at each of the places, and the word is otherwise as it
was. -/
theorem serve_writes (h : m.HasWidth w) (hro : m.readOnly ≤ i) (hi : i < m.limit) {v : Nat}
    (hv : v < w.size) {places : List Nat} (hplaces : ∀ k ∈ places, k < w.bytes) :
    let (replies, m') := serve Memory.reply
      (places.map fun k => .writeByte (i * w.bytes + k) (v / 256 ^ k).toUInt8) m
    (∀ reply ∈ replies, reply = .ok none) ∧ m'.HasWidth w ∧ m'.limit = m.limit ∧
      ∀ j, byteOf (m'.cells.get i) j =
        if j ∈ places then byteOf v j else byteOf (m.cells.get i) j := by
  induction places generalizing m with
  | nil => exact ⟨by simp, h, rfl, by simp⟩
  | cons k places ih =>
    obtain ⟨hk, hplaces⟩ := List.forall_mem_cons.1 hplaces
    obtain ⟨hindex, hplace⟩ := address_eq (i := i) hk
    have hbyte : (v / 256 ^ k).toUInt8.toNat = byteOf v k := by
      rw [byteOf, Nat.pow_mul]
      rfl
    -- a byte of a word fits at its own place, so the write is not refused
    have hfits : byteOf v k * 2 ^ (8 * ((i * w.bytes + k) % w.bytes)) < w.size := by
      rw [hplace]
      exact Width.byteOf_mul_lt_size hv k
    have hwritten : m.writeByte (i * w.bytes + k) (byteOf v k) =
        .ok (m.withByte w (i * w.bytes + k) (byteOf v k)) := by
      rw [h.writeByte_eq _ (byteOf_lt v k), if_pos hfits, hindex, if_pos hi,
        if_neg (Nat.not_lt.2 hro)]
    have hnext := h.withByte (byteOf_lt v k) hfits
    obtain ⟨hreplies, hwidth, hlimit, hbytes⟩ := ih hnext hro hi hplaces
    simp only [List.map_cons, serve, Memory.reply, hbyte, hwritten, written, List.forall_mem_cons,
      true_and]
    refine ⟨hreplies, hwidth, hlimit, fun j => ?_⟩
    -- the other writes leave this byte alone, or write the same byte again
    rw [hbytes, byteOf_get_withByte m w (byteOf_lt v k), hindex, hplace]
    by_cases hj : j = k
    · subst hj
      simp
    · simp [hj]

/-- The top byte of a word is the only one that cannot take every value. -/
theorem reply_byteOverflow (h : m.HasWidth w) {r : Request}
    (hr : (reply r m).1 = .error (.fault (.byteOverflow address))) :
    (∃ v, r = .writeByte address v) ∧ address % w.bytes = w.bytes - 1 ∧ ¬ 8 ∣ w.bits := by
  cases r with
  | preload data protect => cases hr
  | writeWord index v =>
    rw [reply, written_eq_error, writeWord] at hr
    split at hr
    · cases hr
    · split at hr <;> cases hr
  | writeByte other v =>
    rw [reply, written_eq_error, h.writeByte_eq other v.toNat_lt] at hr
    split at hr
    · split at hr
      · split at hr <;> cases hr
      · next hlarge =>
        cases hr
        exact ⟨⟨v, rfl⟩,
          Width.top_of_size_le (Nat.mod_lt _ w.bytes_pos) v.toNat_lt (Nat.not_lt.1 hlarge)⟩
    · cases hr
  | readWord index =>
    simp only [reply, readWord] at hr
    split at hr <;> cases hr
  | readByte other =>
    simp only [reply, h.readByte_eq] at hr
    split at hr <;> cases hr

end HasWidth

/-- The words of a memory and its bytes are the same contents. -/
structure TwoViews (w : Width) (m : Memory) : Prop where
  /-- A word goes by the address of its lowest byte. -/
  index : ∀ address i, m.wordIndex address .byte = .ok i ↔ address = i * w.bytes
  misaligned : ∀ address, ¬ w.bytes ∣ address →
    m.wordIndex address .byte = .error (.fault (.misaligned address))
  outside : ∀ i, (∃ cause, m.readWord i = .error cause) ↔ m.limit ≤ i
  outside_byte : ∀ i, ∀ k < w.bytes,
    (∃ stop, m.readByte (i * w.bytes + k) = .error stop) ↔ ∃ cause, m.readWord i = .error cause
  /-- The bytes of a word lie in it from the lowest up. -/
  sum : ∀ i < m.limit, ∃ byte : Nat → Nat,
    (∀ k < w.bytes, byte k < 256 ∧ m.readByte (i * w.bytes + k) = .ok (byte k)) ∧
      m.readWord i = .ok (∑ k ∈ Finset.range w.bytes, byte k * 256 ^ k)
  write : ∀ address (v : UInt8) m', m.writeByte address v.toNat = .ok m' →
    m'.readByte address = .ok v.toNat ∧
      (∀ other, other ≠ address → m'.readByte other = m.readByte other) ∧
      ∀ i, i ≠ address / w.bytes → m'.readWord i = m.readWord i
  /-- A byte overflows only at the top of a word, and only if the word lacks bits there. -/
  overflow : ∀ r address, (reply r m).1 = .error (.fault (.byteOverflow address)) →
    (∃ v, r = .writeByte address v) ∧ address % w.bytes = w.bytes - 1 ∧ ¬ 8 ∣ w.bits
  /-- The bytes of a word make the word, whatever the order in which they are written. -/
  fill : ∀ i < m.limit, m.readOnly ≤ i → ∀ v < w.size,
    ∀ places : List Nat, (∀ k, k ∈ places ↔ k < w.bytes) →
      let (replies, m') := serve reply
        (places.map fun k => .writeByte (i * w.bytes + k) (v / 256 ^ k).toUInt8) m
      (∀ reply ∈ replies, reply = .ok none) ∧ m'.readWord i = .ok v

theorem HasWidth.twoViews (h : m.HasWidth w) : m.TwoViews w where
  index address i := h.wordIndex_eq_ok
  misaligned address hodd := by
    rw [wordIndex_eq h.sized, target, h.wordBytes, if_neg (mt Nat.dvd_of_mod_eq_zero hodd)]
    rfl
  outside i := readWord_fails
  outside_byte i k hk := (h.readByte_fails hk).trans readWord_fails.symm
  sum i hi := ⟨byteOf (m.cells.get i), fun k hk => ⟨byteOf_lt _ k, h.readByte_of_lt hi hk⟩,
    h.readWord_eq_sum hi⟩
  write address v m' hw := by
    obtain ⟨rfl, hin, hfits⟩ := h.writeByte_ok v.toNat_lt hw
    have hread := h.readByte_withByte v.toNat_lt hin hfits
    refine ⟨?_, fun other ho => ?_, fun i hi => readWord_withByte hi⟩
    · rw [hread, if_pos rfl]
    · rw [hread, if_neg ho]
  overflow r address hr := h.reply_byteOverflow hr
  fill i hi hro v hv places hplaces := by
    have hin : ∀ k ∈ places, k < w.bytes := fun k => (hplaces k).1
    obtain ⟨hreplies, hwidth, hlimit, hbytes⟩ := h.serve_writes hro hi hv hin
    refine ⟨hreplies, ?_⟩
    rw [readWord, hlimit, if_pos hi]
    have hle := w.size_le_pow_bytes
    refine congrArg Except.ok (eq_of_byteOf_eq (Nat.lt_of_lt_of_le (hwidth.word i) hle)
      (Nat.lt_of_lt_of_le hv hle) fun k hk => ?_)
    rw [hbytes, if_pos ((hplaces k).2 hk)]

end Memory

/-- Whatever has been asked of a memory, its bytes and its words are two views of the same contents:
they end at the same index, the bytes of a word make the word, and replacing a byte changes nothing
else. -/
theorem two_views (w : Width) (limit : Nat) (requests : List Request) :
    let m := (serve Memory.reply requests (.ofWidth w limit)).2
    m.limit = limit ∧ m.TwoViews w := by
  obtain ⟨-, hshows⟩ := (Memory.Shows.zero w limit).serve requests
  exact ⟨hshows.limit, hshows.hasWidth.twoViews⟩

end WordRam
