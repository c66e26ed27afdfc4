import WordRam.Proofs.Text.Joined
import Mathlib.Data.List.TakeWhile

/-!
# Texts that start alike

White space at the ends of a text plays no part in what is left when it is trimmed (`trim_trim`) or
cut and trimmed (`trim_cut_trim`), and what comes after a line feed plays no part in the lines
before it (`take_lines_append`).
-/

namespace WordRam.Text

variable {p : Char → Bool} {d : Char} {cs lead trail : List Char}

theorem trim_append_left (h : ∀ c ∈ lead, isBlank c) (cs : List Char) :
    trim (lead ++ cs) = trim cs := by
  rw [trim, trimStart, List.dropWhile_append_of_pos h]
  rfl

theorem trim_append_right (h : ∀ c ∈ trail, isBlank c) (cs : List Char) :
    trim (cs ++ trail) = trim cs := by
  induction cs with
  | nil => simpa using trim_append_left h []
  | cons c cs ih =>
    by_cases hc : isBlank c
    · rw [List.cons_append, trim_cons_blank hc, trim_cons_blank hc, ih]
    · have hstart (cs : List Char) : trimStart (c :: cs) = c :: cs :=
        List.dropWhile_cons_of_neg hc
      have htrail : ∀ c ∈ trail.reverse, isBlank c := by simpa using h
      rw [trim, trim, List.cons_append, hstart, hstart, trimEnd, trimEnd, ← List.cons_append,
        List.reverse_append, List.dropWhile_append_of_pos htrail]

theorem trimEnd_cons_of_not (hd : isBlank d = false) (cs : List Char) :
    trimEnd (d :: cs) = d :: trimEnd cs := by
  have hstop : [d].dropWhile isBlank = [d] := List.dropWhile_cons_of_neg (by simp [hd])
  rw [trimEnd, trimEnd, List.reverse_cons, List.dropWhile_append, hstop]
  split
  · next hnil => simp [List.isEmpty_iff.1 hnil]
  · simp

theorem trim_trim (cs : List Char) : trim (trim cs) = trim cs := by
  obtain ⟨lead, trail, heq, hlead, htrail⟩ := eq_append_trim cs
  calc trim (trim cs)
    _ = trim (lead ++ trim cs ++ trail) := by
      rw [trim_append_right htrail, trim_append_left hlead]
    _ = trim cs := congrArg trim heq.symm

theorem cut_fst (p : Char → Bool) (cs : List Char) : (cut p cs).1 = cs.takeWhile (!p ·) := by
  induction cs with
  | nil => rfl
  | cons c cs ih =>
    rw [cut, List.takeWhile_cons]
    cases hc : p c with
    | true => simp
    | false => simp [ih]

/-- Cutting at a character that is no white space leaves the same text, up to white space at its
ends. -/
theorem trim_cut_trim (hp : ∀ c, isBlank c → p c = false) (cs : List Char) :
    trim (cut p (trim cs)).1 = trim (cut p cs).1 := by
  obtain ⟨lead, trail, heq, hlead, htrail⟩ := eq_append_trim cs
  have hskip : ∀ c ∈ lead, (!p c) = true := fun c hc => by rw [hp c (hlead c hc)]; rfl
  have hskip' : trail.takeWhile (!p ·) = trail :=
    List.takeWhile_eq_self_iff.2 fun c hc => by rw [hp c (htrail c hc)]; rfl
  calc trim (cut p (trim cs)).1
    _ = trim ((trim cs).takeWhile (!p ·)) := by rw [cut_fst]
    _ = trim ((trim cs ++ trail).takeWhile (!p ·)) := by
      rw [List.takeWhile_append]
      split
      · next hall =>
        have hself : (trim cs).takeWhile (!p ·) = trim cs :=
          (List.takeWhile_prefix _).eq_of_length hall
        rw [hself, hskip', trim_append_right htrail]
      · rfl
    _ = trim ((lead ++ trim cs ++ trail).takeWhile (!p ·)) := by
      rw [List.append_assoc, List.takeWhile_append_of_pos hskip, trim_append_left hlead]
    _ = trim (cut p cs).1 := by rw [← heq, cut_fst]

theorem pieces_append (hd : p d) (cs rest : List Char) :
    pieces p (cs ++ d :: rest) = pieces p cs ++ pieces p rest := by
  induction cs with
  | nil => simp [pieces, hd]
  | cons c cs ih =>
    obtain ⟨piece, more, heq⟩ := pieces_eq_cons p cs
    rw [List.cons_append, pieces, pieces, ih, heq]
    split
    · rfl
    · rfl

theorem closeLines_append {parts rest : List (List Char)} (h : rest ≠ []) :
    closeLines (parts ++ rest) = parts.map chomp ++ closeLines rest := by
  induction parts with
  | nil => rfl
  | cons part parts ih =>
    have hne : parts ++ rest ≠ [] := List.append_ne_nil_of_right_ne_nil parts h
    obtain ⟨next, more, heq⟩ := List.exists_cons_of_ne_nil hne
    rw [List.cons_append, heq, closeLines, ← heq, ih]
    · rfl
    · exact List.cons_ne_nil _ _

/-- The lines of a text are those that end before a line feed in it, and those of the rest. -/
theorem lines_append (cs rest : List Char) :
    lines (cs ++ '\n' :: rest) = (pieces (· = '\n') cs).map chomp ++ lines rest := by
  have hrest : pieces (· = '\n') rest ≠ [] := by
    obtain ⟨piece, more, heq⟩ := pieces_eq_cons (· = '\n') rest
    rw [heq]
    exact List.cons_ne_nil piece more
  rw [lines, pieces_append (decide_eq_true rfl), closeLines_append hrest]
  rfl

theorem lines_append_cons (hn : '\n' ∉ cs) (hr : '\r' ∉ cs) (rest : List Char) :
    lines (cs ++ '\n' :: rest) = cs :: lines rest := by
  have hpieces : pieces (· = '\n') cs = [cs] :=
    pieces_of_not fun c hc => decide_eq_false fun heq => hn (heq ▸ hc)
  rw [lines_append, hpieces, List.map_singleton, chomp_eq_self hr]
  rfl

theorem trim_chomp (cs : List Char) : trim (chomp cs) = trim cs := by
  unfold chomp
  split
  · next hlast =>
    obtain ⟨init, rfl⟩ := List.getLast?_eq_some_iff.1 hlast
    rw [List.dropLast_concat, trim_append_right]
    rintro c hc
    cases List.mem_singleton.1 hc
    decide
  · rfl

theorem length_closeLines_le (parts : List (List Char)) :
    (closeLines parts).length ≤ parts.length := by
  induction parts with
  | nil => exact Nat.le_refl _
  | cons part parts ih =>
    cases parts with
    | nil => unfold closeLines; split <;> simp
    | cons next parts => exact Nat.succ_le_succ ih

/-- Up to white space at their ends, the lines are the pieces between line feeds. -/
theorem take_closeLines {parts : List (List Char)} {n : Nat} (hn : n ≤ (closeLines parts).length) :
    ((closeLines parts).take n).map trim = (parts.take n).map trim := by
  induction parts generalizing n with
  | nil => rfl
  | cons part parts ih =>
    cases parts with
    | nil =>
      unfold closeLines at hn ⊢
      split
      · next hnil => rw [if_pos hnil] at hn; cases Nat.le_zero.1 hn; rfl
      · rfl
    | cons next parts =>
      cases n with
      | zero => rfl
      | succ n =>
        have hrest := ih (Nat.le_of_succ_le_succ hn)
        simp only [closeLines, List.take_succ_cons, List.map_cons, trim_chomp, hrest]

/-- A text goes on after the end of a line, if it goes on at all. -/
def StartsAfresh (tail : List Char) : Prop :=
  tail = [] ∨ ∃ rest, tail = '\n' :: rest

/-- What comes after some lines plays no part in them, up to white space at their ends. -/
theorem take_lines_append {kept tail : List Char} (ht : StartsAfresh tail) {n : Nat}
    (hn : n ≤ (lines kept).length) :
    ((lines (kept ++ tail)).take n).map trim = ((lines kept).take n).map trim := by
  obtain rfl | ⟨rest, rfl⟩ := ht
  · rw [List.append_nil]
  · have hle : n ≤ ((pieces (· = '\n') kept).map chomp).length := by
      rw [List.length_map]
      exact Nat.le_trans hn (length_closeLines_le _)
    rw [lines_append, List.take_append_of_le_length hle, lines, take_closeLines hn, List.map_take,
      List.map_take, List.map_map]
    simp only [Function.comp_def, trim_chomp]

end WordRam.Text
