import WordRam.Proofs.Text.Pieces
import WordRam.Text.Line

/-!
# Texts put together

A text that is put together from parts falls into these parts again, as long as none of them has a
character in it that the parts are joined with: words with spaces between them
(`words_intercalate`), operands with commas and spaces (`trim_pieces_intercalate`), and lines
(`lines_intercalate`). So one part can be replaced by another (`lines_set`).
-/

namespace WordRam.Text

variable {p : Char → Bool} {d : Char} {cs : List Char} {parts : List (List Char)}

theorem cut_of_not (h : ∀ c ∈ cs, p c = false) : cut p cs = (cs, none) := by
  induction cs with
  | nil => rfl
  | cons c cs ih =>
    rw [cut, h c List.mem_cons_self, ih fun c hc => h c (List.mem_cons_of_mem _ hc)]
    rfl

theorem cut_append_cons (h : ∀ c ∈ cs, p c = false) (hd : p d) (rest : List Char) :
    cut p (cs ++ d :: rest) = (cs, some rest) := by
  induction cs with
  | nil => rw [List.nil_append, cut, if_pos hd]
  | cons c cs ih =>
    rw [List.cons_append, cut, h c List.mem_cons_self,
      ih fun c hc => h c (List.mem_cons_of_mem _ hc)]
    rfl

theorem pieces_eq_splitOnP (p : Char → Bool) (cs : List Char) : pieces p cs = cs.splitOnP p := by
  induction cs with
  | nil => rfl
  | cons c cs ih =>
    obtain ⟨piece, rest, h⟩ := pieces_eq_cons p cs
    rw [List.splitOnP_cons_eq_if_modifyHead, ← ih, pieces, h]
    rfl

theorem pieces_of_not (h : ∀ c ∈ cs, p c = false) : pieces p cs = [cs] := by
  rw [pieces_eq_splitOnP, List.splitOnP_eq_singleton h]

theorem pieces_append_cons (h : ∀ c ∈ cs, p c = false) (hd : p d) (rest : List Char) :
    pieces p (cs ++ d :: rest) = cs :: pieces p rest := by
  rw [pieces_eq_splitOnP, pieces_eq_splitOnP, List.splitOnP_append_cons_of_forall_mem h d hd]

theorem pieces_intercalate (hne : parts ≠ []) (h : ∀ part ∈ parts, ∀ c ∈ part, p c = false)
    (hd : p d) : pieces p (List.intercalate [d] parts) = parts := by
  induction parts with
  | nil => exact absurd rfl hne
  | cons part parts ih =>
    have hpart := h part List.mem_cons_self
    cases parts with
    | nil => rw [List.intercalate_singleton, pieces_of_not hpart]
    | cons next parts =>
      rw [List.intercalate_cons_cons, List.append_assoc, List.singleton_append,
        pieces_append_cons hpart hd,
        ih (List.cons_ne_nil _ _) fun part hp => h part (List.mem_cons_of_mem _ hp)]

theorem trim_eq_self (hfirst : ∀ c ∈ cs.head?, isBlank c = false)
    (hlast : ∀ c ∈ cs.getLast?, isBlank c = false) : trim cs = cs := by
  have hstart {cs : List Char} (h : ∀ c ∈ cs.head?, isBlank c = false) :
      cs.dropWhile isBlank = cs := by
    cases cs with
    | nil => rfl
    | cons c cs => rw [List.dropWhile_cons, h c rfl]; rfl
  rw [trim, trimStart, trimEnd, hstart hfirst, hstart (by rwa [List.head?_reverse]),
    List.reverse_reverse]

theorem trim_of_not_blank (h : ∀ c ∈ cs, isBlank c = false) : trim cs = cs :=
  trim_eq_self (fun c hc => h c (List.mem_of_mem_head? hc))
    fun c hc => h c (List.mem_of_mem_getLast? hc)

theorem trim_cons_blank (hd : isBlank d) (cs : List Char) : trim (d :: cs) = trim cs := by
  rw [trim, trimStart, List.dropWhile_cons, if_pos hd]
  rfl

theorem words_cons_blank (hd : isBlank d) (cs : List Char) : words (d :: cs) = words cs := by
  rw [words, pieces, if_pos hd]
  rfl

theorem words_intercalate (h : ∀ part ∈ parts, part ≠ [] ∧ ∀ c ∈ part, isBlank c = false) :
    words (List.intercalate [' '] parts) = parts := by
  cases parts with
  | nil => rfl
  | cons part parts =>
    rw [words, pieces_intercalate (List.cons_ne_nil _ _) (fun part hp => (h part hp).2) (by decide),
      List.filter_eq_self]
    exact fun part hp => decide_eq_true (h part hp).1

theorem trim_pieces_intercalate (hne : parts ≠ [])
    (h : ∀ part ∈ parts, ∀ c ∈ part, c ≠ ',' ∧ isBlank c = false) :
    (pieces (· = ',') (List.intercalate [',', ' '] parts)).map trim = parts := by
  induction parts with
  | nil => exact absurd rfl hne
  | cons part parts ih =>
    have hcomma : ∀ c ∈ part, decide (c = ',') = false := fun c hc =>
      decide_eq_false (h part List.mem_cons_self c hc).1
    have htrim : trim part = part :=
      trim_of_not_blank fun c hc => (h part List.mem_cons_self c hc).2
    cases parts with
    | nil => rw [List.intercalate_singleton, pieces_of_not hcomma, List.map_singleton, htrim]
    | cons next parts =>
      have ih := ih (List.cons_ne_nil _ _) fun part hp => h part (List.mem_cons_of_mem _ hp)
      -- the space after the comma begins the next piece, and is trimmed off it
      obtain ⟨first, rest, heq, hcons⟩ := pieces_cons_of_not (p := (· = ',')) (c := ' ') (by decide)
        (List.intercalate [',', ' '] (next :: parts))
      rw [List.intercalate_cons_cons, List.append_assoc, List.cons_append,
        pieces_append_cons hcomma (by decide), List.singleton_append, hcons, List.map_cons, htrim,
        List.map_cons, trim_cons_blank (by decide), ← List.map_cons, ← heq, ih]

theorem mem_intercalate {sep : List Char} {c : Char} (h : c ∈ List.intercalate sep parts) :
    c ∈ sep ∨ ∃ part ∈ parts, c ∈ part := by
  induction parts with
  | nil => cases h
  | cons part parts ih =>
    cases parts with
    | nil =>
      rw [List.intercalate_singleton] at h
      exact .inr ⟨part, List.mem_cons_self, h⟩
    | cons next parts =>
      rw [List.intercalate_cons_cons, List.append_assoc, List.mem_append, List.mem_append] at h
      rcases h with h | h | h
      · exact .inr ⟨part, List.mem_cons_self, h⟩
      · exact .inl h
      · refine (ih h).imp_right ?_
        rintro ⟨part, hp, hc⟩
        exact ⟨part, List.mem_cons_of_mem _ hp, hc⟩

/-- A text with something in it, and without white space at its ends. -/
structure Tight (cs : List Char) : Prop where
  ne_nil : cs ≠ []
  first : ∀ c ∈ cs.head?, isBlank c = false
  last : ∀ c ∈ cs.getLast?, isBlank c = false

namespace Tight

theorem of_not_blank (hne : cs ≠ []) (h : ∀ c ∈ cs, isBlank c = false) : Tight cs :=
  ⟨hne, fun c hc => h c (List.mem_of_mem_head? hc), fun c hc => h c (List.mem_of_mem_getLast? hc)⟩

theorem append {ds : List Char} (hc : Tight cs) (sep : List Char) (hd : Tight ds) :
    Tight (cs ++ sep ++ ds) := by
  have hfirst : (cs ++ sep ++ ds).head? = cs.head? := by
    obtain ⟨c, cs, rfl⟩ := List.exists_cons_of_ne_nil hc.ne_nil
    rfl
  have hlast : (cs ++ sep ++ ds).getLast? = ds.getLast? := by
    rw [List.getLast?_append, Option.or_of_isSome (List.getLast?_isSome.2 hd.ne_nil)]
  refine ⟨by simp [hc.ne_nil], ?_, ?_⟩
  · rw [hfirst]
    exact hc.first
  · rw [hlast]
    exact hd.last

theorem intercalate (hne : parts ≠ []) (h : ∀ part ∈ parts, Tight part) (sep : List Char) :
    Tight (List.intercalate sep parts) := by
  induction parts with
  | nil => exact absurd rfl hne
  | cons part parts ih =>
    have hpart := h part List.mem_cons_self
    cases parts with
    | nil =>
      rw [List.intercalate_singleton]
      exact hpart
    | cons next parts =>
      rw [List.intercalate_cons_cons]
      exact hpart.append sep
        (ih (List.cons_ne_nil _ _) fun part hp => h part (List.mem_cons_of_mem _ hp))

theorem trim (h : Tight cs) : trim cs = cs :=
  trim_eq_self h.first h.last

end Tight

theorem chomp_eq_self (h : '\r' ∉ cs) : chomp cs = cs :=
  if_neg fun hlast => h (List.mem_of_mem_getLast? hlast)

theorem closeLines_eq_self (h : ∀ part ∈ parts, part ≠ [] ∧ '\r' ∉ part) :
    closeLines parts = parts := by
  induction parts with
  | nil => rfl
  | cons part parts ih =>
    obtain ⟨hne, hr⟩ := h part List.mem_cons_self
    cases parts with
    | nil => rw [closeLines, if_neg hne]
    | cons next parts =>
      rw [closeLines, chomp_eq_self hr, ih fun part hp => h part (List.mem_cons_of_mem _ hp)]
      exact List.cons_ne_nil _ _

theorem closeLines_append_nil (h : ∀ part ∈ parts, '\r' ∉ part) :
    closeLines (parts ++ [[]]) = parts := by
  induction parts with
  | nil => rfl
  | cons part parts ih =>
    rw [List.cons_append, closeLines, chomp_eq_self (h part List.mem_cons_self),
      ih fun part hp => h part (List.mem_cons_of_mem _ hp)]
    simp

theorem closeLines_cons (hne : parts ≠ []) (part : List Char) :
    closeLines (part :: parts) = chomp part :: closeLines parts := by
  rcases List.exists_cons_of_ne_nil hne with ⟨next, more, rfl⟩
  rfl

theorem closeLines_set {line : List Char} (hne : line ≠ []) (hr : '\r' ∉ line) {i : Nat}
    (hi : i < (closeLines parts).length) :
    closeLines (parts.set i line) = (closeLines parts).set i line := by
  induction parts generalizing i with
  | nil => rfl
  | cons part parts ih =>
    by_cases hparts : parts = []
    · subst hparts
      unfold closeLines at hi ⊢
      split at hi
      · cases hi
      · next hpart =>
        cases Nat.lt_one_iff.1 hi
        simp [hne, hpart]
    · rw [closeLines_cons hparts] at hi ⊢
      cases i with
      | zero => rw [List.set_cons_zero, closeLines_cons hparts, chomp_eq_self hr, List.set_cons_zero]
      | succ i =>
        have hset : parts.set i line ≠ [] := by simpa using hparts
        rw [List.set_cons_succ, closeLines_cons hset, ih (Nat.lt_of_succ_lt_succ hi),
          List.set_cons_succ]

theorem intercalate_append_nil (hne : parts ≠ []) (d : Char) :
    List.intercalate [d] (parts ++ [[]]) = List.intercalate [d] parts ++ [d] := by
  induction parts with
  | nil => exact absurd rfl hne
  | cons part parts ih =>
    cases parts with
    | nil => simp
    | cons next parts =>
      have ih := ih (List.cons_ne_nil _ _)
      simpa using ih

/-- Lines with a line feed between them are read as these lines, also with a line feed at the
end. -/
theorem lines_intercalate (hne : parts ≠ [])
    (h : ∀ part ∈ parts, part ≠ [] ∧ '\n' ∉ part ∧ '\r' ∉ part) :
    lines (List.intercalate ['\n'] parts) = parts ∧
      lines (List.intercalate ['\n'] parts ++ ['\n']) = parts := by
  have hfeed : ∀ part ∈ parts, ∀ c ∈ part, decide (c = '\n') = false := fun part hp c hc =>
    decide_eq_false fun heq => (h part hp).2.1 (heq ▸ hc)
  constructor
  · rw [lines, pieces_intercalate hne hfeed (by decide),
      closeLines_eq_self fun part hp => ⟨(h part hp).1, (h part hp).2.2⟩]
  · -- the last piece is empty now, so it is no line
    rw [← intercalate_append_nil hne, lines, pieces_intercalate (by simp) _ (by decide),
      closeLines_append_nil fun part hp => (h part hp).2.2]
    intro part hp
    rcases List.mem_append.1 hp with hp | hp
    · exact hfeed part hp
    · rw [List.mem_singleton.1 hp]
      exact fun c hc => nomatch hc

/-- A text with another line in the place of one of its lines. -/
theorem lines_set {line : List Char} (h : line ≠ [] ∧ '\n' ∉ line ∧ '\r' ∉ line) {i : Nat}
    (hi : i < (lines cs).length) :
    lines (List.intercalate ['\n'] ((pieces (· = '\n') cs).set i line)) =
      (lines cs).set i line := by
  obtain ⟨piece, rest, hpieces⟩ := pieces_eq_cons (· = '\n') cs
  have hfeed : ∀ part ∈ (pieces (· = '\n') cs).set i line, ∀ c ∈ part,
      decide (c = '\n') = false := by
    intro part hp
    rcases List.mem_or_eq_of_mem_set hp with hp | rfl
    · exact not_of_mem_pieces hp
    · exact fun c hc => decide_eq_false fun heq => h.2.1 (heq ▸ hc)
  rw [lines, pieces_intercalate (by simp [hpieces]) hfeed (by decide),
    closeLines_set h.1 h.2.2 hi, lines]

end WordRam.Text
