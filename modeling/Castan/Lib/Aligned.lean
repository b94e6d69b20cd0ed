/-
# Aligned lists

Two lists whose elements are related one by one: what one of them has, the other has too.
-/
import Mathlib

namespace Aligned

variable {α β γ : Type} {R : α → β → Prop} {l : List α} {l' : List β}

lemma exists_right (h : List.Forall₂ R l l') {a : α} (ha : a ∈ l) : ∃ b ∈ l', R a b := by
  induction h with
  | nil => simp at ha
  | @cons a' b l l' hR _ ih =>
    rcases List.mem_cons.1 ha with rfl | ha
    · exact ⟨b, by simp, hR⟩
    · obtain ⟨c, hc, hac⟩ := ih ha
      exact ⟨c, List.mem_cons_of_mem _ hc, hac⟩

lemma exists_left (h : List.Forall₂ R l l') {b : β} (hb : b ∈ l') : ∃ a ∈ l, R a b :=
  exists_right h.flip hb

/-- What holds between any two elements of one list holds between those of the other. -/
lemma pairwise {P : α → α → Prop} {P' : β → β → Prop} (h : List.Forall₂ R l l')
    (hl' : l'.Pairwise P') (hP : ∀ {a b a' b'}, R a b → R a' b' → P' b b' → P a a') :
    l.Pairwise P := by
  induction h with
  | nil => exact .nil
  | @cons a b l l' hR hRs ih =>
    rw [List.pairwise_cons] at hl'
    refine .cons (fun a' ha' => ?_) (ih hl'.2)
    obtain ⟨b', hb', hR'⟩ := exists_right hRs ha'
    exact hP hR hR' (hl'.1 b' hb')

/-- A partial function that is defined on every element. -/
lemma mapM_eq_some {f : γ → Option α} {g : γ → β} (xs : List γ)
    (h : ∀ x ∈ xs, ∃ a, f x = some a ∧ R a (g x)) :
    ∃ as, xs.mapM f = some as ∧ List.Forall₂ R as (xs.map g) := by
  induction xs with
  | nil => exact ⟨[], rfl, .nil⟩
  | cons x xs ih =>
    obtain ⟨a, ha, hR⟩ := h x (by simp)
    obtain ⟨as, has, hRs⟩ := ih fun y hy => h y (List.mem_cons_of_mem _ hy)
    exact ⟨a :: as, by simp [ha, has], .cons hR hRs⟩

end Aligned
