import WordRam.Proofs.Assembly.Pass

/-!
# The first fault in a list

Whether there is a fault in an element of a list may depend on the elements before it. `FirstFault`
is the fault that is reported if the list is gone through from the left and the first fault ends
everything; no pass is mentioned in it. A pass that stops at its first error reports the first fault
(`mapM_error_iff`, `forM_error_iff`, `foldlM_error_iff`), and what comes after the fault has no part
in it (`FirstFault.append`).
-/

namespace WordRam

variable {α β γ δ ε : Type}

/-- No element has a fault. -/
def Clean (fault : List α → α → δ → Prop) (xs : List α) : Prop :=
  ∀ seen x rest, xs = seen ++ x :: rest → ∀ d, ¬ fault seen x d

/-- The element with the fault `d`, and no element before it has any. -/
def FirstFault (fault : List α → α → δ → Prop) (xs : List α) (d : δ) : Prop :=
  ∃ before x after, xs = before ++ x :: after ∧ fault before x d ∧ Clean fault before

section
variable {fault fault' : List α → α → δ → Prop} {x : α} {xs ys : List α} {d : δ}

theorem clean_nil (fault : List α → α → δ → Prop) : Clean fault [] := by
  intro seen x rest h
  simp at h

theorem clean_cons : Clean fault (x :: xs) ↔
    (∀ d, ¬ fault [] x d) ∧ Clean (fun seen => fault (x :: seen)) xs := by
  constructor
  · intro h
    exact ⟨h [] x xs rfl, fun seen y rest heq => h (x :: seen) y rest (congrArg (x :: ·) heq)⟩
  · rintro ⟨hx, hxs⟩ seen y rest heq
    match seen with
    | [] => cases heq; exact hx
    | z :: seen => cases heq; exact hxs seen y rest rfl

@[simp] theorem not_firstFault_nil : ¬ FirstFault fault [] d := by
  rintro ⟨before, x, after, h, -⟩
  simp at h

theorem firstFault_cons : FirstFault fault (x :: xs) d ↔
    fault [] x d ∨ (∀ d', ¬ fault [] x d') ∧ FirstFault (fun seen => fault (x :: seen)) xs d := by
  constructor
  · rintro ⟨before, y, after, heq, hd, hclean⟩
    match before with
    | [] => cases heq; exact .inl hd
    | z :: before =>
      cases heq
      obtain ⟨hx, hclean⟩ := clean_cons.1 hclean
      exact .inr ⟨hx, before, y, after, rfl, hd, hclean⟩
  · rintro (hd | ⟨hx, before, y, after, rfl, hd, hclean⟩)
    · exact ⟨[], x, xs, rfl, hd, clean_nil fault⟩
    · exact ⟨x :: before, y, after, rfl, hd, clean_cons.2 ⟨hx, hclean⟩⟩

theorem clean_iff : Clean fault xs ↔ ∀ d, ¬ FirstFault fault xs d := by
  induction xs generalizing fault with
  | nil => exact ⟨fun _ _ => not_firstFault_nil, fun _ => clean_nil fault⟩
  | cons x xs ih =>
    simp only [clean_cons, firstFault_cons, ih, not_or, not_and]
    constructor
    · rintro ⟨hx, hxs⟩ d
      exact ⟨hx d, fun _ => hxs d⟩
    · intro h
      exact ⟨fun d => (h d).1, fun d => (h d).2 fun d' => (h d').1⟩

theorem FirstFault.append (h : FirstFault fault xs d) (ys : List α) :
    FirstFault fault (xs ++ ys) d := by
  obtain ⟨before, x, after, rfl, hd, hclean⟩ := h
  exact ⟨before, x, after ++ ys, by simp, hd, hclean⟩

theorem FirstFault.congr (h : ∀ seen x rest, xs = seen ++ x :: rest →
    ∀ d, fault seen x d ↔ fault' seen x d) : FirstFault fault xs d ↔ FirstFault fault' xs d := by
  induction xs generalizing fault fault' with
  | nil => simp
  | cons x xs ih =>
    have hx := h [] x xs rfl
    have hxs := ih fun seen y rest heq => h (x :: seen) y rest (congrArg (x :: ·) heq)
    simp only [firstFault_cons, hx, hxs]

theorem firstFault_map {f : γ → α} {xs : List γ} :
    FirstFault fault (xs.map f) d ↔ FirstFault (fun seen x => fault (seen.map f) (f x)) xs d := by
  induction xs generalizing fault with
  | nil => simp
  | cons x xs ih => simp only [List.map_cons, firstFault_cons, ih]; rfl

end

/-- Lists whose elements correspond have the same first fault if elements that correspond have the
same faults. -/
theorem firstFault_of_forall₂ {R : α → β → Prop} {r : α → δ → Prop} {s : β → δ → Prop}
    {xs : List α} {ys : List β} {d : δ} (h : List.Forall₂ R xs ys)
    (hrs : ∀ x y, R x y → ∀ d, r x d ↔ s y d) :
    FirstFault (fun _ => r) xs d ↔ FirstFault (fun _ => s) ys d := by
  induction h with
  | nil => simp
  | cons hxy _ ih => simp only [firstFault_cons, hrs _ _ hxy, ih]

/-- Nothing changes if every fault is put another way. -/
theorem firstFault_image {r : α → δ → Prop} {s : α → ε → Prop} {g : δ → ε}
    (hg : Function.Injective g) {xs : List α} (h : ∀ x ∈ xs, ∀ e, s x e ↔ ∃ d, r x d ∧ g d = e)
    {d : δ} : FirstFault (fun _ => s) xs (g d) ↔ FirstFault (fun _ => r) xs d := by
  induction xs with
  | nil => simp
  | cons x xs ih =>
    have hx (d : δ) : s x (g d) ↔ r x d := by simp [h x List.mem_cons_self, hg.eq_iff]
    have hnone : (∀ e, ¬ s x e) ↔ ∀ d, ¬ r x d := by simp [h x List.mem_cons_self]
    simp only [firstFault_cons, hx, hnone, ih fun y hy => h y (List.mem_cons_of_mem _ hy)]

theorem mapM_error_iff {f : α → Except ε β} {xs : List α} {e : ε} :
    xs.mapM f = .error e ↔ FirstFault (fun _ x e => f x = .error e) xs e := by
  induction xs with
  | nil => simp [pure, Except.pure]
  | cons x xs ih =>
    rw [List.mapM_cons, firstFault_cons, bind_error_iff, ← ih, forall_ne_error]
    constructor
    · rintro (hx | ⟨y, hy, h⟩)
      · exact .inl hx
      · obtain h | ⟨_, -, h⟩ := bind_error h
        · exact .inr ⟨⟨y, hy⟩, h⟩
        · cases h
    · rintro (hx | ⟨⟨y, hy⟩, h⟩)
      · exact .inl hx
      · exact .inr ⟨y, hy, by rw [h]; rfl⟩

theorem forM_error_iff {f : α → Except ε Unit} {xs : List α} {e : ε} :
    xs.forM f = .error e ↔ FirstFault (fun _ x e => f x = .error e) xs e := by
  induction xs with
  | nil => simp [List.forM, pure, Except.pure]
  | cons x xs ih =>
    have hcons : (x :: xs).forM f = f x >>= fun _ => xs.forM f := rfl
    rw [hcons, firstFault_cons, bind_error_iff, ← ih, forall_ne_error]
    constructor
    · rintro (hx | ⟨_, hy, h⟩)
      · exact .inl hx
      · exact .inr ⟨⟨_, hy⟩, h⟩
    · rintro (hx | ⟨⟨_, hy⟩, h⟩)
      · exact .inl hx
      · exact .inr ⟨_, hy, h⟩

/-- A relation between the elements taken so far and the result is kept by each element where it
stands, and says where an element has a fault. -/
theorem foldlM_error_iff {f : β → α → Except ε β} {P : List α → β → Prop}
    {fault : List α → α → ε → Prop} {xs : List α} {b : β} {e : ε}
    (hfault : ∀ seen x rest b, xs = seen ++ x :: rest → P seen b →
      ∀ e, f b x = .error e ↔ fault seen x e)
    (hstep : ∀ seen x rest b b', xs = seen ++ x :: rest → P seen b → f b x = .ok b' →
      P (seen ++ [x]) b')
    (h0 : P [] b) : xs.foldlM f b = .error e ↔ FirstFault fault xs e := by
  -- the induction is on what is left, so what has been seen is a variable
  suffices ∀ rest seen b, xs = seen ++ rest → P seen b →
      (rest.foldlM f b = .error e ↔ FirstFault (fun s => fault (seen ++ s)) rest e) from
    this xs [] b rfl h0
  intro rest
  induction rest with
  | nil => intro seen b _ _; simp [pure, Except.pure]
  | cons x rest ih =>
    intro seen b heq hP
    have hx := hfault seen x rest b heq hP
    -- after a step that succeeds, the first fault is one of the rest
    have hnext (b' : β) (hb' : f b x = .ok b') : (rest.foldlM f b' = .error e ↔
        FirstFault (fun s => fault (seen ++ x :: s)) rest e) := by
      have h := ih (seen ++ [x]) b' (by rw [heq, List.append_assoc]; rfl)
        (hstep seen x rest b b' heq hP hb')
      simpa only [List.append_assoc, List.singleton_append] using h
    rw [List.foldlM_cons, firstFault_cons, List.append_nil, bind_error_iff, ← hx]
    simp only [← hx, forall_ne_error]
    constructor
    · rintro (h | ⟨b', hb', h⟩)
      · exact .inl h
      · exact .inr ⟨⟨b', hb'⟩, (hnext b' hb').1 h⟩
    · rintro (h | ⟨⟨b', hb'⟩, h⟩)
      · exact .inl h
      · exact .inr ⟨b', hb', (hnext b' hb').2 h⟩

end WordRam
