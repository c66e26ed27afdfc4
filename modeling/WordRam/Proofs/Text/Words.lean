import WordRam.Proofs.Text.Start

/-!
# Words with white space between them

`Spaced` says of a text which words it is made of, without cutting it: white space, a word, white
space again, and so on. Every text is so made (`exists_spaced`), and of no other words than those
that it is cut into (`words_eq_iff`). So it does not matter which white space stands between words,
or how much.
-/

namespace WordRam.Text

variable {d : Char} {cs gap word rest : List Char} {ws : List (List Char)}

/-- A text is made of words: none of them is empty or has white space in it, and there is white
space between two of them. -/
inductive Spaced : List Char → List (List Char) → Prop
  | blank {gap : List Char} (hgap : ∀ c ∈ gap, isBlank c) : Spaced gap []
  | word {gap word rest : List Char} {ws : List (List Char)} (hgap : ∀ c ∈ gap, isBlank c)
    (hne : word ≠ []) (hword : ∀ c ∈ word, isBlank c = false)
    (hnext : ∀ c ∈ rest.head?, isBlank c) (hrest : Spaced rest ws) :
    Spaced (gap ++ (word ++ rest)) (word :: ws)

theorem words_append_cons (hd : isBlank d) (cs rest : List Char) :
    words (cs ++ d :: rest) = words cs ++ words rest := by
  rw [words, pieces_append hd, List.filter_append]
  rfl

theorem words_append_left (h : ∀ c ∈ gap, isBlank c) (cs : List Char) :
    words (gap ++ cs) = words cs := by
  induction gap with
  | nil => rfl
  | cons c gap ih =>
    rw [List.cons_append, words_cons_blank (h c List.mem_cons_self),
      ih fun c hc => h c (List.mem_cons_of_mem _ hc)]

theorem words_of_not_blank (hne : word ≠ []) (h : ∀ c ∈ word, isBlank c = false) :
    words word = [word] := by
  simp [words, pieces_of_not h, hne]

theorem Spaced.words (h : Spaced cs ws) : words cs = ws := by
  induction h with
  | @blank gap hgap =>
    rw [← List.append_nil gap]
    exact words_append_left hgap []
  | @word gap word rest ws hgap hne hword hnext hrest ih =>
    rw [words_append_left hgap]
    cases rest with
    | nil =>
      rw [← ih, List.append_nil, words_of_not_blank hne hword]
      rfl
    | cons d rest =>
      have hd : isBlank d := hnext d rfl
      rw [words_append_cons hd, words_of_not_blank hne hword, ← ih, words_cons_blank hd]
      rfl

theorem words_append_right (h : ∀ c ∈ gap, isBlank c) (cs : List Char) :
    words (cs ++ gap) = words cs := by
  cases gap with
  | nil => rw [List.append_nil]
  | cons d gap =>
    have hgap : words gap = [] := (Spaced.blank fun c hc => h c (List.mem_cons_of_mem d hc)).words
    rw [words_append_cons (h d List.mem_cons_self), hgap, List.append_nil]

theorem words_trimEnd (cs : List Char) : words (trimEnd cs) = words cs := by
  obtain ⟨trail, heq, htrail⟩ := eq_trimEnd_append cs
  exact (words_append_right htrail _).symm.trans (congrArg words heq.symm)

theorem Spaced.cons_blank (h : Spaced cs ws) (hd : isBlank d) : Spaced (d :: cs) ws := by
  cases h with
  | blank hgap => exact .blank (List.forall_mem_cons.2 ⟨hd, hgap⟩)
  | word hgap hne hword hnext hrest =>
    exact .word (List.forall_mem_cons.2 ⟨hd, hgap⟩) hne hword hnext hrest

/-- A character in front of a text begins a word of its own or belongs to the first one. -/
theorem Spaced.cons_not_blank (h : Spaced cs ws) (hd : isBlank d = false) :
    ∃ ws', Spaced (d :: cs) ws' := by
  have hword : ∀ c ∈ [d], isBlank c = false := List.forall_mem_singleton.2 hd
  by_cases hfirst : ∀ c ∈ cs.head?, isBlank c
  · exact ⟨_, @Spaced.word [] [d] cs ws nofun (List.cons_ne_nil d []) hword hfirst h⟩
  · cases h with
    | blank hgap => exact absurd (fun c hc => hgap c (List.mem_of_mem_head? hc)) hfirst
    | @word gap word rest ws hgap hne hword' hnext hrest =>
      cases gap with
      | nil =>
        have hlonger : ∀ c ∈ d :: word, isBlank c = false := List.forall_mem_cons.2 ⟨hd, hword'⟩
        exact ⟨_, @Spaced.word [] (d :: word) rest ws nofun (List.cons_ne_nil d word) hlonger hnext
          hrest⟩
      | cons c gap =>
        have hc : isBlank c := hgap c List.mem_cons_self
        exact absurd (fun c' hc' => by cases hc'; exact hc) hfirst

theorem exists_spaced (cs : List Char) : ∃ ws, Spaced cs ws := by
  induction cs with
  | nil => exact ⟨[], .blank nofun⟩
  | cons d cs ih =>
    obtain ⟨ws, h⟩ := ih
    cases hd : isBlank d with
    | true => exact ⟨ws, h.cons_blank hd⟩
    | false => exact h.cons_not_blank hd

theorem words_eq_iff : words cs = ws ↔ Spaced cs ws := by
  refine ⟨?_, Spaced.words⟩
  rintro rfl
  obtain ⟨ws, h⟩ := exists_spaced cs
  exact h.words.symm ▸ h

end WordRam.Text
