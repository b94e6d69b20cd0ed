/-
# Runs of a worklist that do not end

A worklist loop takes an item off its list in each round, and adds items only in a round that
changes the value of an item.  A run without end thus changes the value of some item again and
again, so that a loop ends as soon as each value is eventually constant.
-/
import Mathlib

namespace WorklistRun

open Filter

/-! ### Sequences that are eventually constant -/

lemma eventually_succ_eq {β : Type*} {f : ℕ → β} (h : EventuallyConst f atTop) :
    ∀ᶠ n in atTop, f (n + 1) = f n := by
  obtain ⟨N, hN⟩ := eventuallyConst_atTop.1 h
  filter_upwards [eventually_ge_atTop N] with n hn
  rw [hN n hn, hN (n + 1) (hn.trans (Nat.le_succ n))]

/-- A sequence that cannot grow beyond a bound. -/
lemma eventuallyConst_of_monotone {f : ℕ → ℕ} {B : ℕ} (hf : Monotone f) (hB : ∀ n, f n ≤ B) :
    EventuallyConst f atTop := by
  let g : ℕ →o Fin (B + 1) :=
    ⟨fun n => ⟨f n, Nat.lt_succ_of_le (hB n)⟩, fun a b hab => hf hab⟩
  obtain ⟨N, hN⟩ := WellFoundedGT.monotone_chain_condition g
  refine eventuallyConst_atTop.2 ⟨N, fun n hn => ?_⟩
  exact congrArg Fin.val (hN n hn).symm

/-- A property that is eventually kept. -/
lemma eventuallyConst_of_kept {p : ℕ → Prop} (h : ∀ᶠ n in atTop, p n → p (n + 1)) :
    EventuallyConst p atTop := by
  obtain ⟨N, hN⟩ := eventually_atTop.1 h
  by_cases hp : ∃ n ≥ N, p n
  · obtain ⟨k, hk, hpk⟩ := hp
    have hall : ∀ n ≥ k, p n := by
      intro n hn
      induction n, hn using Nat.le_induction with
      | base => exact hpk
      | succ n hn ih => exact hN n (hk.trans hn) ih
    exact eventuallyConst_atTop.2 ⟨k, fun n hn => propext (iff_of_true (hall n hn) hpk)⟩
  · push Not at hp
    exact eventuallyConst_atTop.2 ⟨N, fun n hn => propext (iff_of_false (hp n hn) (hp N le_rfl))⟩

/-- A sequence that eventually changes only to one value. -/
lemma eventuallyConst_of_eq {β : Type*} {f : ℕ → β} {v : β}
    (h : ∀ᶠ n in atTop, f (n + 1) = f n ∨ f (n + 1) = v) : EventuallyConst f atTop := by
  obtain ⟨N, hN⟩ := eventually_atTop.1 h
  by_cases hv : ∃ n ≥ N, f n = v
  · obtain ⟨k, hk, hfk⟩ := hv
    have hall : ∀ n ≥ k, f n = v := by
      intro n hn
      induction n, hn using Nat.le_induction with
      | base => exact hfk
      | succ n hn ih =>
        obtain heq | heq := hN n (hk.trans hn)
        · rw [heq, ih]
        · exact heq
    exact eventuallyConst_atTop.2 ⟨k, fun n hn => (hall n hn).trans hfk.symm⟩
  · push Not at hv
    refine eventuallyConst_atTop.2 ⟨N, fun n hn => ?_⟩
    induction n, hn using Nat.le_induction with
    | base => rfl
    | succ n hn ih =>
      obtain heq | heq := hN n hn
      · rw [heq, ih]
      · exact absurd heq (hv (n + 1) (hn.trans (Nat.le_succ n)))

/-! ### Worklists -/

/-- There is no run in which every round changes a value or makes the worklist smaller, and every
value is eventually constant. -/
theorem not_eventuallyConst {α β : Type*} (worklist : ℕ → Finset α) (value : ℕ → α → β)
    {items : Finset α}
    (hround : ∀ n, (∃ i ∈ items, value (n + 1) i ≠ value n i) ∨
      (worklist (n + 1)).card < (worklist n).card) :
    ¬ ∀ i ∈ items, EventuallyConst (fun n => value n i) atTop := by
  intro hconst
  have hsame : ∀ᶠ n in atTop, ∀ i ∈ items, value (n + 1) i = value n i :=
    (eventually_all_finset items).2 fun i hi => eventually_succ_eq (hconst i hi)
  obtain ⟨N, hN⟩ := eventually_atTop.1 hsame
  have hshrinks : ∀ k, (worklist (N + k)).card + k ≤ (worklist N).card := by
    intro k
    induction k with
    | zero => exact le_rfl
    | succ k ih =>
      obtain ⟨i, hi, hne⟩ | hlt := hround (N + k)
      · exact absurd (hN (N + k) (Nat.le_add_right N k) i hi) hne
      · show (worklist (N + k + 1)).card + (k + 1) ≤ (worklist N).card
        omega
  have := hshrinks ((worklist N).card + 1)
  omega

end WorklistRun
