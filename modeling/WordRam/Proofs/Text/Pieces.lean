import WordRam.Text.Blank

/-!
# Cutting texts

What trimming, cutting and falling into pieces leave of a text. Nothing is lost but the characters
that each of them drops, so the text can be put together again from what is left.
-/

namespace WordRam.Text

variable {p : Char → Bool} {cs : List Char}

theorem eq_append_trimStart (cs : List Char) :
    ∃ lead, cs = lead ++ trimStart cs ∧ ∀ c ∈ lead, isBlank c := by
  refine ⟨cs.takeWhile isBlank, List.takeWhile_append_dropWhile.symm, fun c hc => ?_⟩
  exact List.all_eq_true.1 List.all_takeWhile c hc

theorem eq_trimEnd_append (cs : List Char) :
    ∃ trail, cs = trimEnd cs ++ trail ∧ ∀ c ∈ trail, isBlank c := by
  obtain ⟨lead, heq, hlead⟩ := eq_append_trimStart cs.reverse
  refine ⟨lead.reverse, ?_, fun c hc => hlead c (List.mem_reverse.1 hc)⟩
  have h := congrArg List.reverse heq
  rwa [List.reverse_reverse, List.reverse_append] at h

/-- Only white space is trimmed. -/
theorem eq_append_trim (cs : List Char) :
    ∃ lead trail, cs = lead ++ trim cs ++ trail ∧ (∀ c ∈ lead, isBlank c) ∧
      ∀ c ∈ trail, isBlank c := by
  obtain ⟨lead, hs, hlead⟩ := eq_append_trimStart cs
  obtain ⟨trail, he, htrail⟩ := eq_trimEnd_append (trimStart cs)
  refine ⟨lead, trail, ?_, hlead, htrail⟩
  rw [trim, List.append_assoc, ← he]
  exact hs

theorem not_of_mem_cut {c : Char} (h : c ∈ (cut p cs).1) : p c = false := by
  induction cs with
  | nil => cases h
  | cons d cs ih =>
    unfold cut at h
    split at h
    · cases h
    · rcases List.mem_cons.1 h with rfl | h
      · exact Bool.eq_false_iff.2 ‹_›
      · exact ih h

theorem cut_of_some {rest : List Char} (h : (cut p cs).2 = some rest) :
    ∃ c, p c ∧ cs = (cut p cs).1 ++ c :: rest := by
  induction cs with
  | nil => cases h
  | cons d cs ih =>
    unfold cut at h ⊢
    split at h
    · next hd => cases h; exact ⟨d, hd, by simp [hd]⟩
    · next hd =>
      obtain ⟨c, hc, heq⟩ := ih h
      exact ⟨c, hc, by rw [if_neg hd]; exact congrArg (d :: ·) heq⟩

theorem pieces_eq_cons (p : Char → Bool) (cs : List Char) :
    ∃ piece rest, pieces p cs = piece :: rest := by
  cases cs with
  | nil => exact ⟨[], [], rfl⟩
  | cons c cs =>
    unfold pieces
    split
    · exact ⟨_, _, rfl⟩
    · cases pieces p cs <;> exact ⟨_, _, rfl⟩

theorem pieces_cons_of_not {c : Char} (hc : ¬ p c) (cs : List Char) :
    ∃ piece rest, pieces p cs = piece :: rest ∧ pieces p (c :: cs) = (c :: piece) :: rest := by
  obtain ⟨piece, rest, h⟩ := pieces_eq_cons p cs
  exact ⟨piece, rest, h, by rw [pieces, if_neg hc, h]⟩

theorem not_of_mem_pieces {piece : List Char} (h : piece ∈ pieces p cs) :
    ∀ c ∈ piece, p c = false := by
  induction cs generalizing piece with
  | nil => cases List.mem_singleton.1 h; simp
  | cons d cs ih =>
    rcases Classical.em (p d) with hd | hd
    · rw [pieces, if_pos hd] at h
      rcases List.mem_cons.1 h with rfl | h
      · simp
      · exact ih h
    · obtain ⟨first, rest, heq, hcons⟩ := pieces_cons_of_not hd cs
      rw [hcons] at h
      rw [heq] at ih
      rcases List.mem_cons.1 h with rfl | h
      · intro c hc
        rcases List.mem_cons.1 hc with rfl | hc
        · exact Bool.eq_false_iff.2 hd
        · exact ih List.mem_cons_self c hc
      · exact ih (List.mem_cons_of_mem _ h)

/-- The pieces between the occurrences of a character are the text with the character between
them. -/
theorem intercalate_pieces (d : Char) (cs : List Char) :
    List.intercalate [d] (pieces (· = d) cs) = cs := by
  induction cs with
  | nil => rfl
  | cons c cs ih =>
    rcases Classical.em (c = d) with rfl | hc
    · obtain ⟨piece, rest, h⟩ := pieces_eq_cons (· = c) cs
      rw [pieces, if_pos (decide_eq_true rfl)]
      rw [h] at ih ⊢
      simpa [List.intercalate] using ih
    · obtain ⟨first, rest, heq, hcons⟩ :=
        pieces_cons_of_not (p := (· = d)) (by simpa using hc) cs
      rw [hcons]
      rw [heq] at ih
      cases rest with
      | nil => simpa [List.intercalate] using ih
      | cons second rest => simpa [List.intercalate] using ih

end WordRam.Text
