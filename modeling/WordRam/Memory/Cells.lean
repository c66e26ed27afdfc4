/-!
# Cells

`Cells` are numbered cells of which all but finitely many hold zero. Only the others are kept, in
increasing order of their index, so equal contents are equal values (`Cells.ext_get`). Each
operation is characterised by what it does to `Cells.get`.
-/

namespace WordRam

/-- Entries in strictly increasing order of their index, none of them zero. -/
def Sparse (entries : List (Nat × Nat)) : Prop :=
  entries.Pairwise (·.1 < ·.1) ∧ ∀ e ∈ entries, e.2 ≠ 0

namespace Sparse

/-- The entry for a cell, which a zero does not need. -/
def entry (i v : Nat) : List (Nat × Nat) :=
  if v = 0 then [] else [(i, v)]

/-- What the entries say of a cell. -/
def lookup (entries : List (Nat × Nat)) (i : Nat) : Nat :=
  (entries.lookup i).getD 0

/-- The entries after a cell has been set. -/
def put (i v : Nat) : List (Nat × Nat) → List (Nat × Nat)
  | [] => entry i v
  | (j, u) :: rest =>
    if i < j then entry i v ++ (j, u) :: rest
    else if i = j then entry i v ++ rest
    else (j, u) :: put i v rest

/-- The entries for consecutive cells from `i` on. -/
def number (i : Nat) : List Nat → List (Nat × Nat)
  | [] => []
  | v :: vs => entry i v ++ number (i + 1) vs

variable {i j u v : Nat} {e : Nat × Nat} {entries rest : List (Nat × Nat)}

theorem mem_entry : e ∈ entry i v ↔ e = (i, v) ∧ v ≠ 0 := by
  unfold entry; split <;> simp_all

theorem nil : Sparse [] :=
  ⟨.nil, by simp⟩

theorem cons_iff : Sparse (e :: rest) ↔ (∀ d ∈ rest, e.1 < d.1) ∧ e.2 ≠ 0 ∧ Sparse rest := by
  simp only [Sparse, List.pairwise_cons, List.mem_cons, forall_eq_or_imp]
  constructor
  · rintro ⟨⟨h, hs⟩, he, hn⟩; exact ⟨h, he, hs, hn⟩
  · rintro ⟨h, he, hs, hn⟩; exact ⟨⟨h, hs⟩, he, hn⟩

theorem entry_append (h : Sparse rest) (hi : ∀ d ∈ rest, i < d.1) :
    Sparse (entry i v ++ rest) := by
  unfold entry
  split
  · simpa using h
  · next hv => exact cons_iff.2 ⟨hi, hv, h⟩

theorem mem_put (h : e ∈ put i v entries) : e = (i, v) ∨ e ∈ entries := by
  induction entries with
  | nil => exact .inl (mem_entry.1 h).1
  | cons d rest ih =>
    unfold put at h
    split at h
    · rcases List.mem_append.1 h with h | h
      · exact .inl (mem_entry.1 h).1
      · exact .inr h
    · split at h
      · rcases List.mem_append.1 h with h | h
        · exact .inl (mem_entry.1 h).1
        · exact .inr (List.mem_cons_of_mem _ h)
      · rcases List.mem_cons.1 h with h | h
        · exact .inr (h ▸ List.mem_cons_self)
        · exact (ih h).imp_right (List.mem_cons_of_mem _)

theorem put_sparse (h : Sparse entries) : Sparse (put i v entries) := by
  induction entries with
  | nil =>
    have h : Sparse (entry i v ++ []) := entry_append nil (by simp)
    simpa [put] using h
  | cons d rest ih =>
    obtain ⟨j, u⟩ := d
    obtain ⟨hlt, hu, hrest⟩ := cons_iff.1 h
    unfold put
    split
    · next hij =>
      refine entry_append h fun d hd => ?_
      rcases List.mem_cons.1 hd with rfl | hd
      · exact hij
      · exact Nat.lt_trans hij (hlt d hd)
    · split
      · next hij => exact entry_append hrest fun d hd => hij ▸ hlt d hd
      · next hij hne =>
        refine cons_iff.2 ⟨fun d hd => ?_, hu, ih hrest⟩
        rcases mem_put hd with rfl | hd
        · exact Nat.lt_of_le_of_ne (Nat.not_lt.1 hij) (Ne.symm hne)
        · exact hlt d hd

theorem le_of_mem_number {vs : List Nat} (h : e ∈ number i vs) : i ≤ e.1 := by
  induction vs generalizing i with
  | nil => simp [number] at h
  | cons v vs ih =>
    rcases List.mem_append.1 h with h | h
    · obtain ⟨rfl, -⟩ := mem_entry.1 h; exact Nat.le_refl _
    · exact Nat.le_of_succ_le (ih h)

theorem number_sparse (i : Nat) (vs : List Nat) : Sparse (number i vs) := by
  induction vs generalizing i with
  | nil => exact nil
  | cons v vs ih => exact entry_append (ih (i + 1)) fun _ hd => le_of_mem_number hd

@[simp] theorem lookup_nil : lookup [] i = 0 := rfl

theorem lookup_cons : lookup (e :: rest) i = if i = e.1 then e.2 else lookup rest i := by
  obtain ⟨j, u⟩ := e
  by_cases h : i = j
  · simp [lookup, h]
  · simp [lookup, List.lookup_cons, h, beq_eq_false_iff_ne.2 h]

theorem lookup_of_lt (h : ∀ d ∈ rest, i < d.1) : lookup rest i = 0 := by
  induction rest with
  | nil => rfl
  | cons d rest ih =>
    rw [lookup_cons, if_neg (Nat.ne_of_lt (h d List.mem_cons_self))]
    exact ih fun d hd => h d (List.mem_cons_of_mem _ hd)

theorem lookup_of_mem (h : Sparse entries) (he : e ∈ entries) : lookup entries e.1 = e.2 := by
  induction entries with
  | nil => cases he
  | cons d rest ih =>
    obtain ⟨hlt, -, hrest⟩ := cons_iff.1 h
    rw [lookup_cons]
    rcases List.mem_cons.1 he with rfl | he
    · rw [if_pos rfl]
    · rw [if_neg (Nat.ne_of_gt (hlt e he))]; exact ih hrest he

theorem mem_of_lookup_ne_zero (h : lookup entries i ≠ 0) : (i, lookup entries i) ∈ entries := by
  induction entries with
  | nil => exact absurd rfl h
  | cons d rest ih =>
    rw [lookup_cons] at h ⊢
    split at h
    · next hi => rw [if_pos hi, hi]; exact List.mem_cons_self
    · next hi => rw [if_neg hi]; exact List.mem_cons_of_mem _ (ih h)

theorem lookup_entry_append (h : lookup rest j = 0) :
    lookup (entry j v ++ rest) i = if i = j then v else lookup rest i := by
  unfold entry
  split
  · next hv =>
    subst hv
    split
    · next hij => subst hij; simpa using h
    · rfl
  · exact lookup_cons

theorem lookup_put (h : Sparse entries) :
    lookup (put j v entries) i = if i = j then v else lookup entries i := by
  induction entries with
  | nil =>
    have h : lookup (entry j v ++ []) i = if i = j then v else lookup [] i :=
      lookup_entry_append rfl
    simpa [put] using h
  | cons d rest ih =>
    obtain ⟨k, u⟩ := d
    obtain ⟨hlt, -, hrest⟩ := cons_iff.1 h
    -- the new index comes first, is there already, or belongs further back
    unfold put
    split
    · next hjk =>
      refine lookup_entry_append (lookup_of_lt fun d hd => ?_)
      rcases List.mem_cons.1 hd with rfl | hd
      · exact hjk
      · exact Nat.lt_trans hjk (hlt d hd)
    · split
      · next hjk =>
        subst hjk
        rw [lookup_entry_append (lookup_of_lt hlt), lookup_cons]
        split <;> rfl
      · next hne =>
        rw [lookup_cons, lookup_cons, ih hrest]
        by_cases hik : i = k
        · subst hik; simp [Ne.symm hne]
        · simp [hik]

theorem lookup_number {vs : List Nat} (h : i ≤ j) :
    lookup (number i vs) j = (vs[j - i]?).getD 0 := by
  induction vs generalizing i with
  | nil => simp [number]
  | cons v vs ih =>
    rw [number, lookup_entry_append (lookup_of_lt fun d hd => le_of_mem_number hd)]
    rcases Nat.eq_or_lt_of_le h with rfl | hlt
    · simp
    · rw [if_neg (Nat.ne_of_gt hlt), ih hlt, show j - i = (j - (i + 1)) + 1 by omega]
      simp

theorem eq_of_lookup_eq {as bs : List (Nat × Nat)} (ha : Sparse as) (hb : Sparse bs)
    (h : ∀ i, lookup as i = lookup bs i) : as = bs := by
  induction as generalizing bs with
  | nil =>
    cases bs with
    | nil => rfl
    | cons b bs =>
      obtain ⟨-, hne, -⟩ := cons_iff.1 hb
      exact absurd (by simpa [lookup_cons] using (h b.1).symm) hne
  | cons a as ih =>
    obtain ⟨halt, hane, has⟩ := cons_iff.1 ha
    cases bs with
    | nil => exact absurd (by simpa [lookup_cons] using h a.1) hane
    | cons b bs =>
      obtain ⟨hblt, hbne, hbs⟩ := cons_iff.1 hb
      -- the least index with a value is the same on both sides
      have hidx : a.1 = b.1 := by
        rcases Nat.lt_trichotomy a.1 b.1 with hlt | heq | hgt
        · have hz : lookup (b :: bs) a.1 = 0 := lookup_of_lt fun d hd => by
            rcases List.mem_cons.1 hd with rfl | hd
            · exact hlt
            · exact Nat.lt_trans hlt (hblt d hd)
          exact absurd (by simpa [lookup_cons, hz] using h a.1) hane
        · exact heq
        · have hz : lookup (a :: as) b.1 = 0 := lookup_of_lt fun d hd => by
            rcases List.mem_cons.1 hd with rfl | hd
            · exact hgt
            · exact Nat.lt_trans hgt (halt d hd)
          exact absurd (by simpa [lookup_cons, hz] using (h b.1).symm) hbne
      have hval : a.2 = b.2 := by simpa [lookup_cons, hidx] using h a.1
      have hab : a = b := Prod.ext hidx hval
      subst hab
      refine congrArg (a :: ·) (ih has hbs fun i => ?_)
      by_cases hi : i = a.1
      · rw [hi, lookup_of_lt halt, lookup_of_lt hblt]
      · simpa [lookup_cons, hi] using h i

end Sparse

/-- Numbered cells, all but finitely many of them zero. -/
structure Cells where
  entries : List (Nat × Nat)
  sparse : Sparse entries
deriving DecidableEq

namespace Cells

def empty : Cells := ⟨[], Sparse.nil⟩

instance : EmptyCollection Cells := ⟨empty⟩

instance : Inhabited Cells := ⟨empty⟩

/-- What a cell holds. -/
def get (c : Cells) (i : Nat) : Nat :=
  Sparse.lookup c.entries i

def set (c : Cells) (i v : Nat) : Cells :=
  ⟨Sparse.put i v c.entries, Sparse.put_sparse c.sparse⟩

/-- The values of a list in the first cells, zero in the others. -/
def ofList (vs : List Nat) : Cells :=
  ⟨Sparse.number 0 vs, Sparse.number_sparse 0 vs⟩

@[simp] theorem get_empty (i : Nat) : (∅ : Cells).get i = 0 := rfl

@[simp] theorem get_set (c : Cells) (i j v : Nat) :
    (c.set j v).get i = if i = j then v else c.get i :=
  Sparse.lookup_put c.sparse

@[simp] theorem get_ofList (vs : List Nat) (i : Nat) : (ofList vs).get i = (vs[i]?).getD 0 :=
  Sparse.lookup_number (Nat.zero_le i)

theorem get_of_mem {c : Cells} {e : Nat × Nat} (h : e ∈ c.entries) : c.get e.1 = e.2 :=
  Sparse.lookup_of_mem c.sparse h

theorem mem_entries_iff {c : Cells} {i v : Nat} : (i, v) ∈ c.entries ↔ c.get i = v ∧ v ≠ 0 := by
  constructor
  · intro h
    exact ⟨get_of_mem h, c.sparse.2 _ h⟩
  · rintro ⟨rfl, h⟩
    exact Sparse.mem_of_lookup_ne_zero h

theorem ext_get {a b : Cells} (h : ∀ i, a.get i = b.get i) : a = b := by
  cases a; cases b
  simp only [Cells.mk.injEq]
  exact Sparse.eq_of_lookup_eq ‹_› ‹_› h

end Cells

end WordRam
