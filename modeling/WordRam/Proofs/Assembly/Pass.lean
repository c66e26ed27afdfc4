import WordRam.Proofs.Except
import Mathlib.Data.List.Forall2

/-!
# Passes

What a pass over a list has done when no element of it has failed.
-/

namespace WordRam

variable {ε α β γ : Type}

theorem mapM_eq_ok {f : α → Except ε β} {g : α → β} {xs : List α} (h : ∀ x ∈ xs, f x = .ok (g x)) :
    xs.mapM f = .ok (xs.map g) := by
  induction xs with
  | nil => rfl
  | cons x xs ih =>
    rw [List.mapM_cons, h x List.mem_cons_self, ih fun x hx => h x (List.mem_cons_of_mem _ hx)]
    rfl

theorem mapM_ok {f : α → Except ε β} {xs : List α} {ys : List β} (h : xs.mapM f = .ok ys) :
    List.Forall₂ (fun x y => f x = .ok y) xs ys := by
  induction xs generalizing ys with
  | nil => cases h; exact .nil
  | cons x xs ih =>
    rw [List.mapM_cons] at h
    obtain ⟨y, hy, h⟩ := bind_ok h
    obtain ⟨zs, hzs, h⟩ := bind_ok h
    cases h
    exact .cons hy (ih hzs)

theorem mapM_ok_iff {f : α → Except ε β} {xs : List α} {ys : List β} :
    xs.mapM f = .ok ys ↔ List.Forall₂ (fun x y => f x = .ok y) xs ys := by
  refine ⟨mapM_ok, fun h => ?_⟩
  induction h with
  | nil => rfl
  | cons hxy _ ih =>
    rw [List.mapM_cons, hxy, ih]
    rfl

theorem array_mapM_ok {f : α → Except ε β} {xs : Array α} {ys : Array β}
    (h : xs.mapM f = .ok ys) : List.Forall₂ (fun x y => f x = .ok y) xs.toList ys.toList := by
  rw [Array.mapM_eq_mapM_toList] at h
  cases hm : xs.toList.mapM f with
  | error e => rw [hm] at h; cases h
  | ok zs => rw [hm] at h; cases h; exact mapM_ok hm

/-- A relation between the elements taken so far and the result, kept by each element where it
stands, holds at the end. -/
theorem foldlM_ok {f : β → α → Except ε β} {P : List α → β → Prop} {xs : List α} {b b' : β}
    (hstep : ∀ seen x rest b b', xs = seen ++ x :: rest → P seen b → f b x = .ok b' →
      P (seen ++ [x]) b')
    (h0 : P [] b) (h : xs.foldlM f b = .ok b') : P xs b' := by
  suffices ∀ rest seen b, xs = seen ++ rest → P seen b → rest.foldlM f b = .ok b' → P xs b' from
    this xs [] b rfl h0 h
  intro rest
  induction rest with
  | nil =>
    intro seen b heq hP h
    cases h
    rw [heq, List.append_nil]
    exact hP
  | cons x rest ih =>
    intro seen b heq hP h
    rw [List.foldlM_cons] at h
    obtain ⟨c, hc, h⟩ := bind_ok h
    have hP' : P (seen ++ [x]) c := hstep seen x rest b c heq hP hc
    exact ih (seen ++ [x]) c (by rw [heq, List.append_assoc]; rfl) hP' h

theorem forall₂_comp {R : α → β → Prop} {S : β → γ → Prop} {T : α → γ → Prop} {as : List α}
    {bs : List β} {cs : List γ} (hR : List.Forall₂ R as bs) (hS : List.Forall₂ S bs cs)
    (hT : ∀ a b c, R a b → S b c → T a c) : List.Forall₂ T as cs := by
  induction hR generalizing cs with
  | nil => cases hS; exact .nil
  | cons hab _ ih =>
    cases hS with
    | cons hbc hS => exact .cons (hT _ _ _ hab hbc) (ih hS)

theorem forall₂_map_eq {R : α → β → Prop} {f : α → γ} {g : β → γ} {as : List α} {bs : List β}
    (h : List.Forall₂ R as bs) (hR : ∀ a b, R a b → f a = g b) : as.map f = bs.map g := by
  rw [← List.forall₂_eq_eq_eq, List.forall₂_map_left_iff, List.forall₂_map_right_iff]
  exact h.imp hR

theorem forall₂_getElem? {R : α → β → Prop} {as : List α} {bs : List β} (h : List.Forall₂ R as bs)
    {k : Nat} {a : α} (hk : as[k]? = some a) : ∃ b, bs[k]? = some b ∧ R a b := by
  induction h generalizing k with
  | nil => cases hk
  | cons hab _ ih =>
    cases k with
    | zero => cases hk; exact ⟨_, rfl, hab⟩
    | succ k => exact ih hk

theorem forall₂_mem_right {R : α → β → Prop} {as : List α} {bs : List β} (h : List.Forall₂ R as bs)
    {b : β} (hb : b ∈ bs) : ∃ a, R a b := by
  induction h with
  | nil => cases hb
  | cons hab _ ih =>
    rcases List.mem_cons.1 hb with rfl | hb
    · exact ⟨_, hab⟩
    · exact ih hb

end WordRam
