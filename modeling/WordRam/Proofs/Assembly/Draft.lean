import WordRam.Proofs.Assembly.Spelling
import Mathlib.Data.List.Nodup

/-!
# The first pass

What a draft holds after some lines of a source text: an entry for each line of code among them, and
a label for each definition, which stands for the number of lines of code before it. It is so for
the empty draft, and adding the next line keeps it so (`Draft.Reads.addLine`).
-/

namespace WordRam

open Text

/-- A line says something, and it does not define a label. -/
def isCode (line : List Char) : Bool :=
  codeText line ≠ [] && (codeText line).getLast? ≠ some ':'

/-- A line defines a label, if the name is one. -/
def definesLabel (line : List Char) : Bool :=
  (codeText line).getLast? = some ':'

/-- The name before the colon of a definition. -/
def labelText (line : List Char) : List Char :=
  trimEnd (codeText line).dropLast

/-- The lines of code among numbered lines. -/
def codeLines (lines : List (List Char × Nat)) : List (List Char × Nat) :=
  lines.filter fun line => isCode line.1

/-- The labels that numbered lines define. -/
def definedLabels (lines : List (List Char × Nat)) : List Label :=
  (lines.filter fun line => definesLabel line.1).map fun line =>
    { name := String.ofList (labelText line.1)
      address := (codeLines lines).countP fun before => before.2 < line.2
      line := line.2 }

theorem not_definesLabel_of_isCode {line : List Char} (h : isCode line) : ¬ definesLabel line := by
  unfold isCode at h
  unfold definesLabel
  simp_all

section
variable {seen : List (List Char × Nat)} {line : List Char × Nat}

theorem codeLines_append_code (h : isCode line.1) :
    codeLines (seen ++ [line]) = codeLines seen ++ [line] := by
  simp [codeLines, h]

theorem codeLines_append_other (h : ¬ isCode line.1) :
    codeLines (seen ++ [line]) = codeLines seen := by
  simp [codeLines, h]

/-- A line after the others changes none of their labels, and a definition adds one, which stands
for the number of all lines of code so far. -/
theorem definedLabels_append (hlt : ∀ before ∈ seen, before.2 < line.2) :
    definedLabels (seen ++ [line]) = definedLabels seen ++
      if definesLabel line.1 then
        [⟨String.ofList (labelText line.1), (codeLines seen).length, line.2⟩]
      else [] := by
  -- the new line comes last, so it counts for no label before it
  have hcount (n : Nat) (hn : n ≤ line.2) :
      (codeLines (seen ++ [line])).countP (fun before => before.2 < n) =
        (codeLines seen).countP fun before => before.2 < n := by
    rcases Classical.em (isCode line.1) with hc | hc
    · rw [codeLines_append_code hc, List.countP_append]
      simp [Nat.not_lt.2 hn]
    · rw [codeLines_append_other hc]
  have hall : (codeLines seen).countP (fun before => before.2 < line.2) = (codeLines seen).length :=
    List.countP_eq_length.2 fun before hb =>
      decide_eq_true (hlt before (List.mem_filter.1 hb).1)
  unfold definedLabels
  rw [List.filter_append, List.map_append]
  congr 1
  · refine List.map_congr_left fun before hb => ?_
    rw [hcount before.2 (Nat.le_of_lt (hlt before (List.mem_filter.1 hb).1))]
  · split
    · next hd => simp [hd, hcount line.2 (Nat.le_refl _), hall]
    · next hd => simp [hd]

end

section
variable {p : Params} {w : Width} {line : List Char}

theorem labelName?_codeText (line : List Char) :
    labelName? (codeText line) = if definesLabel line then some (labelText line) else none := by
  unfold labelName? definesLabel
  split <;> simp_all [labelText]

theorem Statement.read_eq (p : Params) (w : Width) (line : List Char) :
    Statement.read p w line =
      if isCode line then do return .code (← Code.read p w (codeText line))
      else if definesLabel line then
        if Term.isLabel (labelText line) then .ok (.label (String.ofList (labelText line)))
        else .error (.malformedLabel (String.ofList (labelText line)))
      else .ok .blank := by
  simp only [Statement.read, labelName?_codeText]
  by_cases hn : codeText line = []
  · simp [hn, isCode, definesLabel]
  · by_cases hd : (codeText line).getLast? = some ':'
    · simp [hn, hd, isCode, definesLabel]
    · simp [hn, hd, isCode, definesLabel]

/-- What a line that has been read says, by what kind of line it is. -/
theorem Statement.read_ok {s : Statement} (h : Statement.read p w line = .ok s) :
    (∃ c, s = .code c ∧ isCode line ∧ ¬ definesLabel line ∧
      Code.read p w (codeText line) = .ok c) ∨
    (s = .label (String.ofList (labelText line)) ∧ ¬ isCode line ∧ definesLabel line ∧
      Term.isLabel (labelText line)) ∨
    (s = .blank ∧ ¬ isCode line ∧ ¬ definesLabel line) := by
  rw [Statement.read_eq] at h
  split at h
  · next hc =>
    obtain ⟨c, hr, h⟩ := bind_ok h
    cases h
    exact .inl ⟨c, rfl, hc, not_definesLabel_of_isCode hc, hr⟩
  · next hc =>
    split at h
    · next hd =>
      split at h
      · next hl => cases h; exact .inr (.inl ⟨rfl, hc, hd, hl⟩)
      · cases h
    · next hd => cases h; exact .inr (.inr ⟨rfl, hc, hd⟩)

end

namespace Draft

/-- A draft holds what numbered lines say. -/
structure Reads (p : Params) (w : Width) (lines : List (List Char × Nat)) (d : Draft) : Prop where
  entries : List.Forall₂ (fun line e => e.line = line.2 ∧
    Code.read p w (codeText line.1) = .ok e.code) (codeLines lines) d.entries.toList
  labels : d.labels.toList = definedLabels lines
  names : (d.labels.toList.map (·.name)).Nodup
  valid : ∀ l ∈ d.labels, Term.isLabel l.name.toList

namespace Reads

variable {p : Params} {w : Width} {seen : List (List Char × Nat)} {line : List Char × Nat}
variable {d d' : Draft}

theorem empty : ({} : Draft).Reads p w [] :=
  ⟨.nil, rfl, .nil, by simp⟩

theorem size_entries (h : d.Reads p w seen) : d.entries.size = (codeLines seen).length :=
  h.entries.length_eq.symm

theorem add_blank (h : d.Reads p w seen) (hlt : ∀ before ∈ seen, before.2 < line.2)
    (hc : ¬ isCode line.1) (hd : ¬ definesLabel line.1) : d.Reads p w (seen ++ [line]) := by
  refine ⟨?_, ?_, h.names, h.valid⟩
  · rw [codeLines_append_other hc]; exact h.entries
  · rw [definedLabels_append hlt, if_neg hd, List.append_nil]; exact h.labels

theorem add_label (h : d.Reads p w seen) (hlt : ∀ before ∈ seen, before.2 < line.2)
    (hc : ¬ isCode line.1) (hd : definesLabel line.1) (hl : Term.isLabel (labelText line.1))
    (ha : d.add line.2 (.label (String.ofList (labelText line.1))) = .ok d') :
    d'.Reads p w (seen ++ [line]) := by
  simp only [add] at ha
  split at ha
  · cases ha
  · next hnone =>
    cases ha
    have hfresh (l : Label) (hm : l ∈ d.labels) : l.name ≠ String.ofList (labelText line.1) := by
      simpa using Array.find?_eq_none.1 hnone l hm
    refine ⟨?_, ?_, ?_, fun l hm => ?_⟩
    · rw [codeLines_append_other hc]; exact h.entries
    · rw [definedLabels_append hlt, if_pos hd, Array.toList_push, h.labels, h.size_entries]
    · rw [Array.toList_push, List.map_append]
      refine h.names.append (List.nodup_singleton _) fun name hm hm' => ?_
      obtain ⟨l, hl, rfl⟩ := List.mem_map.1 hm
      exact hfresh l (Array.mem_toList_iff.1 hl) (List.mem_singleton.1 hm')
    · rcases Array.mem_push.1 hm with hm | rfl
      · exact h.valid l hm
      · simpa using hl

theorem add_code (h : d.Reads p w seen) (hlt : ∀ before ∈ seen, before.2 < line.2) {c : Code}
    (hc : isCode line.1) (hd : ¬ definesLabel line.1)
    (hr : Code.read p w (codeText line.1) = .ok c) :
    Reads p w (seen ++ [line]) { d with entries := d.entries.push ⟨line.2, c⟩ } := by
  refine ⟨?_, ?_, h.names, h.valid⟩
  · rw [codeLines_append_code hc, Array.toList_push]
    exact List.rel_append h.entries (.cons ⟨rfl, hr⟩ .nil)
  · rw [definedLabels_append hlt, if_neg hd, List.append_nil]; exact h.labels

theorem addLine (h : d.Reads p w seen) (hlt : ∀ before ∈ seen, before.2 < line.2)
    (ha : d.addLine p w line = .ok d') : d'.Reads p w (seen ++ [line]) := by
  obtain ⟨s, hs, ha⟩ := bind_ok (mapError_ok ha)
  obtain ⟨c, rfl, hc, hd, hr⟩ | ⟨rfl, hc, hd, hl⟩ | ⟨rfl, hc, hd⟩ := Statement.read_ok hs
  · cases ha; exact h.add_code hlt hc hd hr
  · exact h.add_label hlt hc hd hl ha
  · cases ha; exact h.add_blank hlt hc hd

end Reads

theorem pairwise_zipIdx {α : Type} (xs : List α) (k : Nat) :
    (xs.zipIdx k).Pairwise (·.2 < ·.2) := by
  have h : ((xs.zipIdx k).map Prod.snd).Pairwise (· < ·) := by
    rw [List.zipIdx_map_snd]; exact List.pairwise_lt_range'
  exact List.pairwise_map.1 h

/-- What stands before an element of a numbered list has smaller numbers. -/
theorem lt_of_zipIdx_eq {α : Type} {xs : List α} {k : Nat} {seen rest : List (α × Nat)}
    {x : α × Nat} (h : xs.zipIdx k = seen ++ x :: rest) : ∀ before ∈ seen, before.2 < x.2 := by
  intro before hb
  have hpw := pairwise_zipIdx xs k
  rw [h] at hpw
  exact (List.pairwise_append.1 hpw).2.2 before hb x List.mem_cons_self

theorem reads_of_ofLines {p : Params} {w : Width} {lines : List (List Char)} {d : Draft}
    (h : ofLines p w lines = .ok d) : d.Reads p w (lines.zipIdx 1) := by
  refine foldlM_ok (P := fun seen d => Reads p w seen d) ?_ .empty h
  intro seen line rest d d' heq hd ha
  exact hd.addLine (lt_of_zipIdx_eq heq) ha

end Draft

end WordRam
