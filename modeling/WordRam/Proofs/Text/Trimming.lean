import WordRam.Proofs.Text.Start

/-!
# Trimming texts that are put together

White space is trimmed from the one end of a text up to the first other character, whatever stands
beyond it (`trimStart_append_cons`, `trimEnd_append_cons`). So white space before or after a text
changes none of the pieces that it falls into, once these are trimmed (`trimmed_append_left`,
`trimmed_append_right`).
-/

namespace WordRam.Text

variable {p : Char → Bool} {d : Char} {cs ds gap word : List Char}

theorem trimStart_append_left (h : ∀ c ∈ gap, isBlank c) (cs : List Char) :
    trimStart (gap ++ cs) = trimStart cs := by
  rw [trimStart, List.dropWhile_append_of_pos h]
  rfl

theorem trimStart_append (h : trimStart cs ≠ []) (ds : List Char) :
    trimStart (cs ++ ds) = trimStart cs ++ ds := by
  have hsome : ¬ (cs.dropWhile isBlank).isEmpty := fun hnil => h (List.isEmpty_iff.1 hnil)
  rw [trimStart, List.dropWhile_append, if_neg hsome]
  rfl

theorem trimStart_append_cons (hd : isBlank d = false) (cs ds : List Char) :
    trimStart (cs ++ d :: ds) = trimStart cs ++ d :: ds := by
  have hstop : (d :: ds).dropWhile isBlank = d :: ds := List.dropWhile_cons_of_neg (by simp [hd])
  rw [trimStart, List.dropWhile_append, hstop]
  split
  · next hnil => rw [trimStart, List.isEmpty_iff.1 hnil, List.nil_append]
  · rfl

theorem trimStart_eq_nil (h : ∀ c ∈ gap, isBlank c) : trimStart gap = [] := by
  simpa [trimStart] using h

theorem trimEnd_append_right (h : ∀ c ∈ gap, isBlank c) (cs : List Char) :
    trimEnd (cs ++ gap) = trimEnd cs := by
  have hgap : ∀ c ∈ gap.reverse, isBlank c := by simpa using h
  rw [trimEnd, List.reverse_append, List.dropWhile_append_of_pos hgap]
  rfl

theorem trimEnd_append (h : trimEnd ds ≠ []) (cs : List Char) :
    trimEnd (cs ++ ds) = cs ++ trimEnd ds := by
  have hne : trimStart ds.reverse ≠ [] := fun hnil => h (congrArg List.reverse hnil)
  show (trimStart (cs ++ ds).reverse).reverse = cs ++ (trimStart ds.reverse).reverse
  rw [List.reverse_append, trimStart_append hne, List.reverse_append, List.reverse_reverse]

theorem blank_of_trimEnd (h : trimEnd cs = []) : ∀ c ∈ cs, isBlank c := by
  rcases eq_trimEnd_append cs with ⟨trail, heq, htrail⟩
  rw [h, List.nil_append] at heq
  exact heq ▸ htrail

theorem trimEnd_append_of_nil (h : trimEnd ds = []) (cs : List Char) :
    trimEnd (cs ++ ds) = trimEnd cs :=
  trimEnd_append_right (blank_of_trimEnd h) cs

theorem trimEnd_append_cons (hd : isBlank d = false) (cs ds : List Char) :
    trimEnd (cs ++ d :: ds) = cs ++ d :: trimEnd ds := by
  rw [← trimEnd_cons_of_not hd]
  refine trimEnd_append ?_ cs
  rw [trimEnd_cons_of_not hd]
  exact List.cons_ne_nil _ _

theorem trim_append_cons (hd : isBlank d = false) (cs ds : List Char) :
    trim (cs ++ d :: ds) = trimStart cs ++ d :: trimEnd ds := by
  rw [trim, trimStart_append_cons hd, trimEnd_append_cons hd]

theorem trimEnd_eq_nil (h : ∀ c ∈ gap, isBlank c) : trimEnd gap = [] :=
  (trimEnd_append_right h []).trans rfl

/-- White space before the rest of a text does not change its last character. -/
theorem getLast?_trimEnd_append (h : ∀ c ∈ gap, isBlank c) (cs : List Char) :
    (trimEnd (gap ++ cs)).getLast? = (trimEnd cs).getLast? := by
  by_cases hcs : trimEnd cs = []
  · rw [trimEnd_append_of_nil hcs, trimEnd_eq_nil h, hcs]
  · rw [trimEnd_append hcs, List.getLast?_append, Option.or_of_isSome (List.getLast?_isSome.2 hcs)]

theorem trim_eq_nil (h : ∀ c ∈ gap, isBlank c) : trim gap = [] := by
  rw [trim, trimStart_eq_nil h]
  rfl

theorem trimEnd_of_not_blank (h : ∀ c ∈ word, isBlank c = false) : trimEnd word = word := by
  rcases word with _ | ⟨c, word⟩
  · rfl
  · have hself := trim_of_not_blank h
    have hstart : trimStart (c :: word) = c :: word :=
      trimStart_append_cons (h c List.mem_cons_self) [] word
    rwa [trim, hstart] at hself

/-- A word that begins a text is not trimmed. -/
theorem trim_word_append (hne : word ≠ []) (hword : ∀ c ∈ word, isBlank c = false)
    (cs : List Char) : trim (word ++ cs) = word ++ trimEnd cs := by
  rcases List.exists_cons_of_ne_nil hne with ⟨first, rest, heq⟩
  have hfirst : isBlank first = false := hword first (heq ▸ List.mem_cons_self)
  have hstart : trimStart (word ++ cs) = word ++ cs := by
    rw [heq]
    exact trimStart_append_cons hfirst [] (rest ++ cs)
  rcases List.eq_nil_or_concat word with rfl | ⟨init, d, rfl⟩
  · exact absurd rfl hne
  · have hlast : isBlank d = false := hword d (by simp)
    rw [trim, hstart, List.concat_eq_append, List.append_assoc, List.singleton_append,
      trimEnd_append_cons hlast, List.append_assoc]
    rfl

/-- A text can be cut, or there is no character to cut it at. -/
theorem cut_cases (p : Char → Bool) (cs : List Char) : (∀ c ∈ cs, p c = false) ∨
    ∃ init c rest, cs = init ++ c :: rest ∧ (∀ d ∈ init, p d = false) ∧ p c := by
  induction cs with
  | nil => exact .inl nofun
  | cons c cs ih =>
    by_cases hc : p c
    · exact .inr ⟨[], c, cs, rfl, nofun, hc⟩
    · have hc' : p c = false := Bool.eq_false_iff.2 hc
      rcases ih with hall | ⟨init, d, rest, rfl, hinit, hd⟩
      · exact .inl (List.forall_mem_cons.2 ⟨hc', hall⟩)
      · exact .inr ⟨c :: init, d, rest, rfl, List.forall_mem_cons.2 ⟨hc', hinit⟩, hd⟩

/-- The pieces of a text, without white space at their ends. -/
def trimmed (p : Char → Bool) (cs : List Char) : List (List Char) :=
  (pieces p cs).map trim

theorem trimmed_append_cons (hd : p d) (cs ds : List Char) :
    trimmed p (cs ++ d :: ds) = trimmed p cs ++ trimmed p ds := by
  rw [trimmed, pieces_append hd, List.map_append]
  rfl

/-- Characters that do not divide a text belong to its last piece. -/
theorem pieces_append_right (h : ∀ c ∈ gap, p c = false) (cs : List Char) :
    ∃ init last, pieces p cs = init ++ [last] ∧ pieces p (cs ++ gap) = init ++ [last ++ gap] := by
  induction cs with
  | nil => exact ⟨[], [], rfl, pieces_of_not h⟩
  | cons c cs ih =>
    rcases ih with ⟨init, last, heq, happend⟩
    by_cases hc : p c
    · refine ⟨[] :: init, last, ?_, ?_⟩
      · rw [pieces, if_pos hc, heq, List.cons_append]
      · rw [List.cons_append, pieces, if_pos hc, happend, List.cons_append]
    · rcases init with _ | ⟨first, init⟩
      · exact ⟨[], c :: last, by simp [pieces, hc, heq], by simp [pieces, hc, happend]⟩
      · exact ⟨(c :: first) :: init, last, by simp [pieces, hc, heq],
          by simp [pieces, hc, happend]⟩

section
variable (hp : ∀ c, isBlank c → p c = false)
include hp

theorem trimmed_append_left (h : ∀ c ∈ gap, isBlank c) (cs : List Char) :
    trimmed p (gap ++ cs) = trimmed p cs := by
  induction gap with
  | nil => rfl
  | cons c gap ih =>
    have hc := h c List.mem_cons_self
    have hnot : ¬ p c := by simp [hp c hc]
    rcases pieces_cons_of_not hnot (gap ++ cs) with ⟨first, rest, heq, hcons⟩
    rw [← ih fun c hc => h c (List.mem_cons_of_mem _ hc), List.cons_append, trimmed, trimmed,
      hcons, heq, List.map_cons, List.map_cons, trim_cons_blank hc]

theorem trimmed_append_right (h : ∀ c ∈ gap, isBlank c) (cs : List Char) :
    trimmed p (cs ++ gap) = trimmed p cs := by
  rcases pieces_append_right (fun c hc => hp c (h c hc)) cs with ⟨init, last, heq, happend⟩
  rw [trimmed, trimmed, heq, happend, List.map_append, List.map_append, List.map_singleton,
    List.map_singleton, trim_append_right h]

theorem trimmed_trimEnd (cs : List Char) : trimmed p (trimEnd cs) = trimmed p cs := by
  rcases eq_trimEnd_append cs with ⟨trail, heq, htrail⟩
  exact (trimmed_append_right hp htrail _).symm.trans (congrArg _ heq.symm)

theorem trimmed_trimStart (cs : List Char) : trimmed p (trimStart cs) = trimmed p cs := by
  rcases eq_append_trimStart cs with ⟨lead, heq, hlead⟩
  exact (trimmed_append_left hp hlead _).symm.trans (congrArg _ heq.symm)

end

end WordRam.Text
