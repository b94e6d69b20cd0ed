/-
# Finite maps to counters

A program that counts in a map creates the entry of a key with the counter zero as soon as it
reads it.  Such a map has a finite set of keys and a counter for each key, and a key may well
have the counter zero.
-/
import Mathlib

/-- The counter of an absent key is zero. -/
structure CountMap (K : Type) where
  keys : Finset K
  count : K → ℕ
  count_eq_zero : ∀ k, k ∉ keys → count k = 0

namespace CountMap

open Finset

variable {K : Type}

def empty : CountMap K := ⟨∅, fun _ => 0, fun _ _ => rfl⟩

@[simp] lemma keys_empty : (empty : CountMap K).keys = ∅ := rfl

@[simp] lemma count_empty (k : K) : (empty : CountMap K).count k = 0 := rfl

lemma mem_keys_of_count_pos {m : CountMap K} {k : K} (h : 0 < m.count k) : k ∈ m.keys := by
  by_contra hk
  rw [m.count_eq_zero k hk] at h
  exact Nat.lt_irrefl 0 h

section Operations

variable [DecidableEq K] (m m' : CountMap K) (k j : K) (n : ℕ)

/-- `m[k] += n`, which creates the key also when `n` is zero. -/
def add : CountMap K where
  keys := insert k m.keys
  count j := m.count j + if j = k then n else 0
  count_eq_zero j hj := by
    rw [Finset.mem_insert, not_or] at hj
    rw [m.count_eq_zero j hj.2, if_neg hj.1]

/-- `m[k] = n` -/
def set : CountMap K where
  keys := insert k m.keys
  count j := if j = k then n else m.count j
  count_eq_zero j hj := by
    rw [Finset.mem_insert, not_or] at hj
    rw [if_neg hj.1, m.count_eq_zero j hj.2]

/-- `m[k] += n` for each entry `(k, n)` of `m'`. -/
def addAll : CountMap K where
  keys := m.keys ∪ m'.keys
  count j := m.count j + m'.count j
  count_eq_zero j hj := by
    rw [Finset.mem_union, not_or] at hj
    rw [m.count_eq_zero j hj.1, m'.count_eq_zero j hj.2]

@[simp] lemma keys_add : (m.add k n).keys = insert k m.keys := rfl

lemma count_add : (m.add k n).count j = m.count j + if j = k then n else 0 := rfl

@[simp] lemma count_add_self : (m.add k n).count k = m.count k + n := by
  rw [count_add, if_pos rfl]

lemma count_add_of_ne (h : j ≠ k) : (m.add k n).count j = m.count j := by
  rw [count_add, if_neg h, Nat.add_zero]

@[simp] lemma count_add_zero : (m.add k 0).count j = m.count j := by
  rw [count_add, ite_self, Nat.add_zero]

@[simp] lemma keys_set : (m.set k n).keys = insert k m.keys := rfl

lemma count_set : (m.set k n).count j = if j = k then n else m.count j := rfl

@[simp] lemma keys_addAll : (m.addAll m').keys = m.keys ∪ m'.keys := rfl

@[simp] lemma count_addAll : (m.addAll m').count j = m.count j + m'.count j := rfl

end Operations

/-! ### The weight of a map -/

section Weight

variable {R : Type} [CommSemiring R] (w : K → R)

/-- The sum of the weights of the keys, each as often as it is counted. -/
def weight (m : CountMap K) : R := ∑ k ∈ m.keys, m.count k * w k

/-- Keys that are not counted do not weigh anything. -/
lemma weight_eq_sum (m : CountMap K) {s : Finset K} (h : m.keys ⊆ s) :
    m.weight w = ∑ k ∈ s, m.count k * w k := by
  refine sum_subset h fun k _ hk => ?_
  rw [m.count_eq_zero k hk, Nat.cast_zero, zero_mul]

@[simp] lemma weight_empty : (empty : CountMap K).weight w = 0 := rfl

/-- A map with a positive weight counts some key. -/
lemma exists_count_pos_of_weight {w : K → ℕ} {m : CountMap K} (h : 0 < m.weight w) :
    ∃ k, 0 < m.count k := by
  by_contra hn
  push Not at hn
  refine absurd h (Nat.not_lt.2 (Nat.le_of_eq ?_))
  refine sum_eq_zero fun k _ => ?_
  rw [Nat.le_zero.1 (hn k), Nat.cast_zero, zero_mul]

variable [DecidableEq K]

/-- The weight depends on the counters only. -/
lemma weight_congr {m m' : CountMap K} (h : ∀ k, m.count k = m'.count k) :
    m.weight w = m'.weight w := by
  rw [m.weight_eq_sum w subset_union_left, m'.weight_eq_sum w subset_union_right]
  refine sum_congr rfl fun k _ => ?_
  rw [h k]

lemma weight_addAll (m m' : CountMap K) : (m.addAll m').weight w = m.weight w + m'.weight w := by
  rw [m.weight_eq_sum w subset_union_left, m'.weight_eq_sum w subset_union_right,
    ← sum_add_distrib]
  refine sum_congr rfl fun k _ => ?_
  rw [count_addAll, Nat.cast_add, add_mul]

lemma weight_add (m : CountMap K) (k : K) (n : ℕ) :
    (m.add k n).weight w = m.weight w + n * w k := by
  have hk : k ∈ insert k m.keys := mem_insert_self k m.keys
  rw [m.weight_eq_sum w (subset_insert k m.keys),
    ← sum_ite_eq_of_mem' (insert k m.keys) k (fun j => n * w j) hk,
    ← sum_add_distrib]
  refine sum_congr rfl fun j _ => ?_
  rw [count_add, Nat.cast_add, add_mul]
  split <;> simp

lemma weight_set_empty (k : K) (n : ℕ) : ((empty : CountMap K).set k n).weight w = n * w k := by
  have h : ((empty : CountMap K).set k n).keys = {k} := rfl
  rw [weight, h, sum_singleton, count_set, if_pos rfl]

end Weight

end CountMap
