import WordRam.Proofs.Assembly.Defects

/-!
# Line numbers

The number of a line goes into what is recorded and what is reported, and nothing else depends on
it. So lines that are numbered otherwise come to the same draft (`Draft.addLine_renumber`), and a
draft that is numbered otherwise to the same program (`Draft.link_renumber`), but for the numbers.
Main statement: `Program.ofLines_insert`. A line that says nothing moves the lines after it, and
does nothing else.
-/

namespace WordRam

open Text

variable (f : Nat → Nat)

/-- The number of a line may be part of a defect, too. -/
def Defect.renumber : Defect → Defect
  | .duplicateLabel name first => .duplicateLabel name (f first)
  | d => d

def Diagnostic.renumber (e : Diagnostic) : Diagnostic :=
  ⟨f e.line, e.defect.renumber f⟩

def Label.renumber (l : Label) : Label :=
  { l with line := f l.line }

def Draft.Entry.renumber (e : Draft.Entry) : Draft.Entry :=
  { e with line := f e.line }

def Draft.renumber (d : Draft) : Draft where
  labels := d.labels.map (Label.renumber f)
  entries := d.entries.map (Draft.Entry.renumber f)

/-- The program with other lines for its instructions and labels. -/
def Program.renumber (p : Program) : Program :=
  { p with labels := p.labels.map (Label.renumber f), lines := p.lines.map f }

/-- A result, and an error, with other numbers of lines. -/
def renumbered {α : Type} (g : α → α) (x : Except Diagnostic α) : Except Diagnostic α :=
  (x.map g).mapError (Diagnostic.renumber f)

variable {f}

theorem renumbered_bind {α β : Type} {g : α → α} {h : β → β} {k k' : α → Except Diagnostic β}
    (hk : ∀ a, k' (g a) = renumbered f h (k a)) (x : Except Diagnostic α) :
    renumbered f g x >>= k' = renumbered f h (x >>= k) := by
  rcases x with e | a
  · rfl
  · exact hk a

theorem Defect.renumber_renumber (f f' : Nat → Nat) (d : Defect) :
    (d.renumber f).renumber f' = d.renumber (f' ∘ f) := by
  cases d <;> rfl

theorem Defect.renumber_id (d : Defect) : d.renumber id = d := by
  cases d <;> rfl

theorem Program.renumber_renumber (f f' : Nat → Nat) (p : Program) :
    (p.renumber f).renumber f' = p.renumber (f' ∘ f) := by
  have hlabel : Label.renumber f' ∘ Label.renumber f = Label.renumber (f' ∘ f) := rfl
  simp [renumber, hlabel]

theorem Program.renumber_id (p : Program) : p.renumber id = p := by
  have hlabel : Label.renumber id = id := rfl
  simp [renumber, hlabel]

/-- Numbers that are taken back leave the result as it was. -/
theorem renumbered_cancel {f f' : Nat → Nat} (hf : f' ∘ f = id) :
    ∀ x : Except Diagnostic Program,
      renumbered f' (Program.renumber f') (renumbered f (Program.renumber f) x) = x
  | .ok p => by
    show Except.ok ((p.renumber f).renumber f') = .ok p
    rw [Program.renumber_renumber, hf, Program.renumber_id]
  | .error ⟨n, d⟩ => by
    have hn : f' (f n) = n := congrFun hf n
    show Except.error (Diagnostic.mk (f' (f n)) ((d.renumber f).renumber f')) = .error ⟨n, d⟩
    rw [Defect.renumber_renumber, hf, Defect.renumber_id, hn]

section
variable {p : Params} {w : Width} {d : Defect}

theorem TokenDefect.renumber {token : List Char} (h : TokenDefect p token d) (f : Nat → Nat) :
    d.renumber f = d := by
  cases h <;> rfl

theorem OperandDefect.renumber {op : Opcode} {tokens : List (List Char)}
    (h : OperandDefect p op tokens d) (f : Nat → Nat) : d.renumber f = d := by
  cases h with
  | count => rfl
  | token _ h =>
    rcases h with ⟨_, token, _, -, htoken, -⟩
    exact htoken.renumber f
  | register _ _ h =>
    rcases h with ⟨_, _, _, -, ⟨token, -, -, rfl⟩, -⟩
    rfl

theorem CodeDefect.renumber {text : List Char} (h : CodeDefect p text d) (f : Nat → Nat) :
    d.renumber f = d := by
  cases h with
  | mnemonic => rfl
  | dialect => rfl
  | operands _ _ h => exact h.renumber f

theorem Statement.renumber_of_read (hw : w.bits = p.wordBits) {line : List Char}
    (h : Statement.read p w line = .error d) (f : Nat → Nat) : d.renumber f = d := by
  rw [Statement.read_eq] at h
  split at h
  · exact ((Code.read_error_iff hw).1 (bind_pure_error_iff.1 h)).renumber f
  · split at h
    · split at h
      · cases h
      · cases h
        rfl
    · cases h

theorem Draft.renumber_of_resolve {labels : Labels} {t : Term}
    (h : Draft.resolve w labels t = .error d) (f : Nat → Nat) : d.renumber f = d := by
  cases t with
  | label name =>
    simp only [resolve] at h
    split at h
    · cases h
      rfl
    · split at h
      · cases h
      · cases h
        rfl
  | _ => cases h

end

/-! ### Passes -/

namespace Draft

variable {p : Params} {w : Width} {d : Draft} {labels : Labels}

theorem find?_renumber (f : Nat → Nat) (labels : Labels) (name : String) :
    Labels.find? (labels.map (Label.renumber f)) name =
      (labels.find? name).map (Label.renumber f) := by
  simp only [Labels.find?, Array.find?_map]
  rfl

theorem add_renumber (f : Nat → Nat) (d : Draft) (n : Nat) (s : Statement) :
    (d.renumber f).add (f n) s =
      ((d.add n s).map (Draft.renumber f)).mapError (Defect.renumber f) := by
  cases s with
  | blank => rfl
  | label name =>
    simp only [add, renumber, find?_renumber]
    rcases d.labels.find? name with _ | first
    · simp [Except.map, renumber, Label.renumber]
    · rfl
  | code c => simp [add, renumber, Except.map, Entry.renumber]

theorem addLine_eq {line : List Char} {s : Statement} (hr : Statement.read p w line = .ok s)
    (d : Draft) (n : Nat) : d.addLine p w (line, n) = (d.add n s).mapError (⟨n, ·⟩) := by
  rw [addLine, hr]
  rfl

theorem addLine_renumber (hw : w.bits = p.wordBits) (f : Nat → Nat) (d : Draft)
    (line : List Char) (n : Nat) : (d.renumber f).addLine p w (line, f n) =
      renumbered f (Draft.renumber f) (d.addLine p w (line, n)) := by
  rcases hr : Statement.read p w line with defect | s
  · have hsame := Statement.renumber_of_read hw hr f
    simp only [addLine, hr]
    show Except.error (Diagnostic.mk (f n) defect) =
      .error (Diagnostic.mk (f n) (defect.renumber f))
    rw [hsame]
  · rw [addLine_eq hr, addLine_eq hr, add_renumber, renumbered]
    rcases d.add n s with defect | d' <;> rfl

/-- Lines that are numbered otherwise come to the same draft, but for these numbers. -/
theorem foldlM_renumber (hw : w.bits = p.wordBits) (f : Nat → Nat) (d : Draft)
    (lines : List (List Char × Nat)) :
    (lines.map (Prod.map id f)).foldlM (addLine p w) (d.renumber f) =
      renumbered f (Draft.renumber f) (lines.foldlM (addLine p w) d) := by
  induction lines generalizing d with
  | nil => rfl
  | cons line lines ih =>
    rw [List.map_cons, List.foldlM_cons, List.foldlM_cons]
    show (d.renumber f).addLine p w (line.1, f line.2) >>= _ = _
    rw [addLine_renumber hw]
    exact renumbered_bind (fun d => ih d) _

theorem resolve_renumber (f : Nat → Nat) (w : Width) (labels : Labels) :
    resolve w (labels.map (Label.renumber f)) = resolve w labels := by
  funext t
  cases t with
  | label name =>
    simp only [resolve, find?_renumber]
    rcases labels.find? name with _ | l <;> rfl
  | _ => rfl

theorem Entry.link_renumber (f : Nat → Nat) (w : Width) (labels : Labels) (e : Entry) :
    (e.renumber f).link w (labels.map (Label.renumber f)) =
      (e.link w labels).mapError (Diagnostic.renumber f) := by
  rcases e with ⟨n, c⟩
  simp only [Entry.link, Entry.renumber, resolve_renumber]
  rcases ha : c.arguments.mapM (resolve w labels) with defect | args
  · rcases Arguments.mapM_resolve_error_iff.1 ha with ⟨_, t, _, -, ht, -⟩
    have hsame := renumber_of_resolve ht f
    show Except.error (Diagnostic.mk (f n) defect) =
      .error (Diagnostic.mk (f n) (defect.renumber f))
    rw [hsame]
  · rfl

theorem mapM_mapError {ε δ α β : Type} (g : ε → δ) (k : α → Except ε β) (xs : List α) :
    xs.mapM (fun x => (k x).mapError g) = (xs.mapM k).mapError g := by
  induction xs with
  | nil => rfl
  | cons x xs ih =>
    rw [List.mapM_cons, List.mapM_cons, ih]
    rcases k x with e | y
    · rfl
    · rcases xs.mapM k with e | ys <;> rfl

/-- A draft that is numbered otherwise comes to the same program, but for these numbers. -/
theorem link_renumber (f : Nat → Nat) (p : Params) (w : Width) (d : Draft) :
    (d.renumber f).link p w = renumbered f (Program.renumber f) (d.link p w) := by
  have hentries : (d.renumber f).entries.mapM (Entry.link w (d.renumber f).labels) =
      (d.entries.mapM (Entry.link w d.labels)).mapError (Diagnostic.renumber f) := by
    simp only [renumber, Array.mapM_eq_mapM_toList, Array.toList_map, List.mapM_map,
      Function.comp_def, Entry.link_renumber, mapM_mapError]
    rcases d.entries.toList.mapM (Entry.link w d.labels) with e | is <;> rfl
  simp only [link, hentries]
  rcases d.entries.mapM (Entry.link w d.labels) with e | is
  · rfl
  · simp [renumbered, Program.renumber, renumber, Except.map, Function.comp_def, Entry.renumber]

end Draft

/-! ### A line more -/

/-- The number that a line has once another one has been inserted after the first `n` lines. -/
def shift (n k : Nat) : Nat :=
  if k ≤ n then k else k + 1

section
variable {p : Params} {w : Width} {line : List Char}

theorem zipIdx_insert {α : Type} (before : List α) (x : α) (after : List α) :
    (before ++ x :: after).zipIdx 1 =
      before.zipIdx 1 ++ (x, before.length + 1) :: after.zipIdx (before.length + 2) := by
  rw [List.zipIdx_append, List.zipIdx_cons, Nat.add_comm 1]

theorem map_shift_zipIdx {α : Type} (before after : List α) :
    ((before ++ after).zipIdx 1).map (Prod.map id (shift before.length)) =
      before.zipIdx 1 ++ after.zipIdx (before.length + 2) := by
  have hsucc : after.zipIdx (before.length + 2) =
      (after.zipIdx (before.length + 1)).map (Prod.map id (· + 1)) := List.zipIdx_succ
  rw [List.zipIdx_append, List.map_append, Nat.add_comm 1, hsucc]
  congr 1
  · refine (List.map_congr_left fun x hx => ?_).trans (List.map_id _)
    have hlt := List.snd_lt_add_of_mem_zipIdx hx
    have hle : x.2 ≤ before.length := by omega
    exact Prod.ext rfl (if_pos hle)
  · refine List.map_congr_left fun x hx => ?_
    have hlt : before.length < x.2 := List.le_snd_of_mem_zipIdx hx
    exact Prod.ext rfl (if_neg (Nat.not_le.2 hlt))

theorem Draft.ofLines_insert (hw : w.bits = p.wordBits)
    (hr : Statement.read p w line = .ok .blank) (before after : List (List Char)) :
    ofLines p w (before ++ line :: after) =
      renumbered (shift before.length) (Draft.renumber (shift before.length))
        (ofLines p w (before ++ after)) := by
  have hline (d : Draft) : d.addLine p w (line, before.length + 1) = .ok d :=
    addLine_eq hr d _
  have hempty : (renumber (shift before.length) {}) = {} := by simp [renumber]
  rw [ofLines, ofLines, ← foldlM_renumber hw, map_shift_zipIdx, zipIdx_insert, hempty,
    List.foldlM_append, List.foldlM_append]
  refine congrArg _ (funext fun d => ?_)
  rw [List.foldlM_cons, hline]
  rfl

/-- A line that says nothing moves the lines after it, and does nothing else. -/
theorem Program.ofLines_insert (hw : w.bits = p.wordBits)
    (hr : Statement.read p w line = .ok .blank) (before after : List (List Char)) :
    ofLines p w (before ++ line :: after) =
      renumbered (shift before.length) (Program.renumber (shift before.length))
        (ofLines p w (before ++ after)) := by
  rw [ofLines, Draft.ofLines_insert hw hr]
  exact renumbered_bind (fun d => d.link_renumber _ p w) _

end
end WordRam
