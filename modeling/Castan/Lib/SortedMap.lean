/-
# Finite maps as sorted lists

A finite map whose entries carry their keys is the list of its entries in the order of the keys.
We define the operations of an ordered map on such lists, and say what they do to a list that is
split at one of its entries.
-/
import Mathlib

namespace SortedMap

open List

variable {V K : Type} [LinearOrder K] (key : V → K)

/-- The keys are strictly increasing. -/
def Sorted (l : List V) : Prop := l.Pairwise fun a b => key a < key b

instance (l : List V) : Decidable (Sorted key l) :=
  inferInstanceAs (Decidable (l.Pairwise fun a b => key a < key b))

def lookup (k : K) (l : List V) : Option V := l.find? fun v => key v = k

/-- The entry with the greatest key that is at most `k`. -/
def lookupPrevious (k : K) (l : List V) : Option V := (l.filter fun v => key v ≤ k).getLast?

/-- Overwrites an entry with the same key. -/
def replace (v : V) (l : List V) : List V :=
  (l.filter fun a => key a < key v) ++ v :: l.filter fun a => key v < key a

/-- Keeps an entry with the same key. -/
def insert (v : V) (l : List V) : List V :=
  if (lookup key (key v) l).isSome then l else replace key v l

def remove (k : K) (l : List V) : List V := l.filter fun v => key v ≠ k

/-- The position of the first entry with a key of at least `k`. -/
def lowerBound (k : K) (l : List V) : ℕ := (l.filter fun v => key v < k).length

/-- The position of the first entry with a key above `k`. -/
def upperBound (k : K) (l : List V) : ℕ := (l.filter fun v => key v ≤ k).length

variable {key} {l r : List V} {v : V} {k : K}

/-! ### A list split at an entry -/

lemma sorted_split : Sorted key (l ++ v :: r) ↔
    Sorted key l ∧ Sorted key r ∧ (∀ a ∈ l, key a < key v) ∧ ∀ b ∈ r, key v < key b := by
  simp only [Sorted, pairwise_append, pairwise_cons, mem_cons]
  constructor
  · rintro ⟨hl, ⟨hv, hr⟩, hlr⟩
    exact ⟨hl, hr, fun a ha => hlr a ha v (Or.inl rfl), hv⟩
  · rintro ⟨hl, hr, hlv, hvr⟩
    refine ⟨hl, ⟨hvr, hr⟩, ?_⟩
    rintro a ha b (rfl | hb)
    · exact hlv a ha
    · exact (hlv a ha).trans (hvr b hb)

section Split

variable (h : Sorted key (l ++ v :: r))

include h

/-- Below an entry to the left only the left part matters. -/
lemma filter_left {p : K → Bool} (hp : ∀ k', key v ≤ k' → p k' = false) :
    (l ++ v :: r).filter (fun a => p (key a)) = l.filter fun a => p (key a) := by
  obtain ⟨-, -, -, hvr⟩ := sorted_split.1 h
  have hr : r.filter (fun a => p (key a)) = [] := filter_eq_nil_iff.2 fun b hb => by
    simp [hp _ (hvr b hb).le]
  simp [hp _ le_rfl, hr]

lemma filter_left_all {p : K → Bool} (hp : ∀ k', key v ≤ k' → p k' = true) :
    (l ++ v :: r).filter (fun a => p (key a)) = l.filter (fun a => p (key a)) ++ v :: r := by
  obtain ⟨-, -, -, hvr⟩ := sorted_split.1 h
  have hr : r.filter (fun a => p (key a)) = r := filter_eq_self.2 fun b hb =>
    hp _ (hvr b hb).le
  simp [hp _ le_rfl, hr]

lemma filter_right {p : K → Bool} (hp : ∀ k', k' ≤ key v → p k' = false) :
    (l ++ v :: r).filter (fun a => p (key a)) = r.filter fun a => p (key a) := by
  obtain ⟨-, -, hlv, -⟩ := sorted_split.1 h
  have hl : l.filter (fun a => p (key a)) = [] := filter_eq_nil_iff.2 fun a ha => by
    simp [hp _ (hlv a ha).le]
  simp [hp _ le_rfl, hl]

lemma filter_right_all {p : K → Bool} (hp : ∀ k', k' ≤ key v → p k' = true) :
    (l ++ v :: r).filter (fun a => p (key a)) = l ++ v :: r.filter fun a => p (key a) := by
  obtain ⟨-, -, hlv, -⟩ := sorted_split.1 h
  have hl : l.filter (fun a => p (key a)) = l := filter_eq_self.2 fun a ha =>
    hp _ (hlv a ha).le
  simp [hp _ le_rfl, hl]

/-! ### The operations on a split list -/

lemma lookup_left (hk : k < key v) : lookup key k (l ++ v :: r) = lookup key k l := by
  obtain ⟨-, -, -, hvr⟩ := sorted_split.1 h
  have hr : r.find? (fun b => key b = k) = none := List.find?_eq_none.2 fun b hb => by
    simpa using (hk.trans (hvr b hb)).ne'
  simp [lookup, hk.ne', hr]

lemma lookup_right (hk : key v < k) : lookup key k (l ++ v :: r) = lookup key k r := by
  obtain ⟨-, -, hlv, -⟩ := sorted_split.1 h
  have hl : l.find? (fun a => key a = k) = none := List.find?_eq_none.2 fun a ha => by
    simpa using ((hlv a ha).trans hk).ne
  simp [lookup, hk.ne, hl]

lemma lookup_self : lookup key (key v) (l ++ v :: r) = some v := by
  obtain ⟨-, -, hlv, -⟩ := sorted_split.1 h
  have hl : l.find? (fun a => key a = key v) = none := List.find?_eq_none.2 fun a ha => by
    simpa using (hlv a ha).ne
  simp [lookup, hl]

lemma lookupPrevious_left (hk : k < key v) :
    lookupPrevious key k (l ++ v :: r) = lookupPrevious key k l := by
  rw [lookupPrevious, filter_left (p := fun k' => k' ≤ k) h]
  · rfl
  · exact fun k' hk' => by simpa using hk.trans_le hk'

lemma lookupPrevious_right (hk : key v ≤ k) :
    lookupPrevious key k (l ++ v :: r) = (lookupPrevious key k r).or (some v) := by
  rw [lookupPrevious, filter_right_all (p := fun k' => k' ≤ k) h, List.getLast?_append_of_ne_nil _
    (cons_ne_nil _ _), List.getLast?_cons]
  · rw [lookupPrevious]
    cases (r.filter fun a => decide (key a ≤ k)).getLast? <;> rfl
  · exact fun k' hk' => by simpa using hk'.trans hk

lemma lookupPrevious_self : lookupPrevious key (key v) (l ++ v :: r) = some v := by
  obtain ⟨-, -, -, hvr⟩ := sorted_split.1 h
  have hr : r.filter (fun b => decide (key b ≤ key v)) = [] := filter_eq_nil_iff.2 fun b hb => by
    simpa using hvr b hb
  rw [lookupPrevious_right h le_rfl, lookupPrevious, hr]
  rfl

variable {u : V}

lemma replace_left (hu : key u < key v) :
    replace key u (l ++ v :: r) = replace key u l ++ v :: r := by
  rw [replace, filter_left (p := fun k' => k' < key u) h,
    filter_left_all (p := fun k' => key u < k') h]
  · simp [replace]
  · exact fun k' hk' => by simpa using hu.trans_le hk'
  · exact fun k' hk' => by simpa using hu.le.trans hk'

lemma replace_right (hu : key v < key u) :
    replace key u (l ++ v :: r) = l ++ v :: replace key u r := by
  rw [replace, filter_right_all (p := fun k' => k' < key u) h,
    filter_right (p := fun k' => key u < k') h]
  · simp [replace]
  · exact fun k' hk' => by simpa using hk'.trans hu.le
  · exact fun k' hk' => by simpa using hk'.trans_lt hu

lemma replace_self (hu : key u = key v) : replace key u (l ++ v :: r) = l ++ u :: r := by
  obtain ⟨-, -, hlv, hvr⟩ := sorted_split.1 h
  have hl : l.filter (fun a => decide (key a < key u)) = l := filter_eq_self.2 fun a ha => by
    simpa [hu] using hlv a ha
  have hr : r.filter (fun b => decide (key u < key b)) = r := filter_eq_self.2 fun b hb => by
    simpa [hu] using hvr b hb
  rw [replace, filter_left (p := fun k' => k' < key u) h (fun k' hk' => by simpa [hu] using hk'),
    filter_right (p := fun k' => key u < k') h (fun k' hk' => by simpa [hu] using hk'), hl, hr]

lemma insert_left (hu : key u < key v) :
    insert key u (l ++ v :: r) = insert key u l ++ v :: r := by
  rw [insert, insert, lookup_left h hu, replace_left h hu]
  split <;> rfl

lemma insert_right (hu : key v < key u) :
    insert key u (l ++ v :: r) = l ++ v :: insert key u r := by
  rw [insert, insert, lookup_right h hu, replace_right h hu]
  split <;> rfl

lemma insert_self (hu : key u = key v) : insert key u (l ++ v :: r) = l ++ v :: r := by
  rw [insert, hu, lookup_self h]
  rfl

lemma remove_left (hk : k < key v) : remove key k (l ++ v :: r) = remove key k l ++ v :: r := by
  rw [remove, filter_left_all (p := fun k' => k' ≠ k) h]
  · rfl
  · exact fun k' hk' => by simpa using (hk.trans_le hk').ne'

lemma remove_right (hk : key v < k) : remove key k (l ++ v :: r) = l ++ v :: remove key k r := by
  rw [remove, filter_right_all (p := fun k' => k' ≠ k) h]
  · rfl
  · exact fun k' hk' => by simpa using (hk'.trans_lt hk).ne

lemma remove_self : remove key (key v) (l ++ v :: r) = l ++ r := by
  obtain ⟨-, -, hlv, hvr⟩ := sorted_split.1 h
  have hl : l.filter (fun a => decide (key a ≠ key v)) = l := filter_eq_self.2 fun a ha => by
    simpa using (hlv a ha).ne
  have hr : r.filter (fun b => decide (key b ≠ key v)) = r := filter_eq_self.2 fun b hb => by
    simpa using (hvr b hb).ne'
  simp only [remove, filter_append, filter_cons, hl, hr]
  simp

lemma lowerBound_left (hk : k ≤ key v) : lowerBound key k (l ++ v :: r) = lowerBound key k l := by
  rw [lowerBound, filter_left (p := fun k' => k' < k) h]
  · rfl
  · exact fun k' hk' => by simpa using hk.trans hk'

lemma lowerBound_right (hk : key v < k) :
    lowerBound key k (l ++ v :: r) = l.length + 1 + lowerBound key k r := by
  rw [lowerBound, filter_right_all (p := fun k' => k' < k) h]
  · simp [lowerBound]
    omega
  · exact fun k' hk' => by simpa using hk'.trans_lt hk

end Split

lemma lowerBound_eq_length (h : ∀ a ∈ l, key a < k) : lowerBound key k l = l.length := by
  rw [lowerBound, filter_eq_self.2 fun a ha => decide_eq_true (h a ha)]

/-! ### Sorted lists -/

lemma Sorted.filter (h : Sorted key l) (p : V → Bool) : Sorted key (l.filter p) :=
  List.Pairwise.filter p h

lemma Sorted.replace (h : Sorted key l) (u : V) : Sorted key (replace key u l) :=
  sorted_split.2 ⟨h.filter _, h.filter _, by simp, by simp⟩

lemma Sorted.insert (h : Sorted key l) (u : V) : Sorted key (insert key u l) := by
  unfold SortedMap.insert
  split
  · exact h
  · exact h.replace u

lemma Sorted.remove (h : Sorted key l) (k : K) : Sorted key (remove key k l) := h.filter _

lemma Sorted.sublist (h : Sorted key l) (hr : r.Sublist l) : Sorted key r :=
  List.Pairwise.sublist hr h

lemma Sorted.lookup_eq_some (h : Sorted key l) : lookup key k l = some v ↔ v ∈ l ∧ key v = k := by
  constructor
  · intro hv
    exact ⟨mem_of_find?_eq_some hv, by simpa using List.find?_some hv⟩
  · rintro ⟨hv, rfl⟩
    obtain ⟨a, b, rfl⟩ := append_of_mem hv
    exact lookup_self h

lemma Sorted.lookup_replace (h : Sorted key l) (u : V) :
    lookup key k (SortedMap.replace key u l) = if key u = k then some u else lookup key k l := by
  have hr := h.replace u
  split
  · next hk =>
    subst hk
    exact lookup_self hr
  · next hk =>
    refine Option.ext fun w => ?_
    rw [hr.lookup_eq_some, h.lookup_eq_some, SortedMap.replace]
    simp only [mem_append, mem_cons, mem_filter, decide_eq_true_eq]
    constructor
    · rintro ⟨⟨hw, -⟩ | rfl | ⟨hw, -⟩, hwk⟩
      · exact ⟨hw, hwk⟩
      · exact absurd hwk hk
      · exact ⟨hw, hwk⟩
    · rintro ⟨hw, rfl⟩
      rcases lt_or_gt_of_ne hk with hlt | hlt
      · exact ⟨.inr (.inr ⟨hw, hlt⟩), rfl⟩
      · exact ⟨.inl ⟨hw, hlt⟩, rfl⟩

lemma Sorted.lookup_remove (h : Sorted key l) (k' : K) :
    lookup key k (SortedMap.remove key k' l) = if k' = k then none else lookup key k l := by
  refine Option.ext fun w => ?_
  rw [(h.remove k').lookup_eq_some, SortedMap.remove, mem_filter]
  split
  · next hk =>
    subst hk
    simp
  · next hk =>
    rw [h.lookup_eq_some]
    constructor
    · rintro ⟨⟨hw, -⟩, hwk⟩
      exact ⟨hw, hwk⟩
    · rintro ⟨hw, rfl⟩
      exact ⟨⟨hw, by simpa using Ne.symm hk⟩, rfl⟩

lemma Sorted.lookupPrevious_eq_some (h : Sorted key l) (hv : lookupPrevious key k l = some v) :
    v ∈ l ∧ key v ≤ k ∧ ∀ u ∈ l, key u ≤ k → key u ≤ key v := by
  obtain ⟨a, ha⟩ := List.getLast?_eq_some_iff.mp hv
  have hmem : v ∈ l.filter fun u => key u ≤ k := by simp [ha]
  obtain ⟨hvl, hvk⟩ := mem_filter.mp hmem
  refine ⟨hvl, of_decide_eq_true hvk, fun u hu huk => ?_⟩
  have hu' : u ∈ l.filter fun u => key u ≤ k := mem_filter.mpr ⟨hu, decide_eq_true huk⟩
  have hsorted := h.filter fun u => key u ≤ k
  rw [ha] at hu' hsorted
  rcases mem_append.mp hu' with hua | huv
  · exact (pairwise_append.mp hsorted).2.2 u hua v (mem_singleton_self v) |>.le
  · rw [mem_singleton.mp huv]

lemma lookupPrevious_eq_none (hv : lookupPrevious key k l = none) : ∀ u ∈ l, k < key u := by
  intro u hu
  have hnil := List.getLast?_eq_none_iff.mp hv
  simpa using filter_eq_nil_iff.mp hnil u hu

/-- A sorted list is split at its lower bound. -/
lemma Sorted.split_lowerBound (h : Sorted key l) (k : K) :
    (∃ a v b, l = a ++ v :: b ∧ a.length = lowerBound key k l ∧ (∀ x ∈ a, key x < k) ∧
      k ≤ key v) ∨ lowerBound key k l = l.length ∧ ∀ x ∈ l, key x < k := by
  induction l with
  | nil => exact Or.inr ⟨rfl, by simp⟩
  | cons x l ih =>
    obtain ⟨hx, hl⟩ := pairwise_cons.1 h
    by_cases hk : k ≤ key x
    · refine Or.inl ⟨[], x, l, rfl, ?_, by simp, hk⟩
      rw [lowerBound, filter_eq_nil_iff.2]
      intro y hy
      rcases mem_cons.1 hy with rfl | hy
      · simpa using hk
      · simpa using hk.trans (hx y hy).le
    · have hlow : lowerBound key k (x :: l) = lowerBound key k l + 1 := by
        simp [lowerBound, not_le.1 hk]
      rcases ih hl with ⟨a, v, b, rfl, hlen, ha, hv⟩ | ⟨hlen, hall⟩
      · refine Or.inl ⟨x :: a, v, b, rfl, by rw [hlow, length_cons, hlen], ?_, hv⟩
        exact forall_mem_cons.2 ⟨not_le.1 hk, ha⟩
      · refine Or.inr ⟨by rw [hlow, hlen, length_cons], ?_⟩
        exact forall_mem_cons.2 ⟨not_le.1 hk, hall⟩

lemma lookup_eq_none (h : ∀ x ∈ l, key x < k) : lookup key k l = none :=
  List.find?_eq_none.2 fun x hx => by simpa using (h x hx).ne

/-- The entry at the lower bound has the key, or no entry has it. -/
lemma Sorted.getElem?_lowerBound (h : Sorted key l) (k : K) :
    (∃ v, l[lowerBound key k l]? = some v ∧ key v = k ∧ lookup key k l = some v ∧
      upperBound key k l = lowerBound key k l + 1) ∨
    (∃ v, l[lowerBound key k l]? = some v ∧ k < key v ∧ lookup key k l = none ∧
      upperBound key k l = lowerBound key k l) ∨
    lowerBound key k l = l.length ∧ lookup key k l = none ∧ upperBound key k l = l.length := by
  rcases h.split_lowerBound k with ⟨a, v, b, rfl, hlen, ha, hv⟩ | ⟨hlen, hall⟩
  · have hget : (a ++ v :: b)[lowerBound key k (a ++ v :: b)]? = some v := by
      rw [← hlen, List.getElem?_append_right le_rfl]
      simp
    have hupper : a.filter (fun x => decide (key x ≤ k)) = a := filter_eq_self.2 fun x hx =>
      decide_eq_true (ha x hx).le
    rcases hv.eq_or_lt with rfl | hlt
    · refine Or.inl ⟨v, hget, rfl, lookup_self h, ?_⟩
      obtain ⟨-, -, -, hvr⟩ := sorted_split.1 h
      have hb : b.filter (fun x => decide (key x ≤ key v)) = [] := filter_eq_nil_iff.2
        fun x hx => by simpa using hvr x hx
      rw [← hlen, upperBound, filter_append, hupper, filter_cons, hb]
      simp
    · refine Or.inr (Or.inl ⟨v, hget, hlt, ?_, ?_⟩)
      · rw [lookup_left h hlt, lookup_eq_none ha]
      · rw [← hlen, upperBound, filter_left (p := fun k' => k' ≤ k) h, hupper]
        exact fun k' hk' => by simpa using hlt.trans_le hk'
  · refine Or.inr (Or.inr ⟨hlen, lookup_eq_none hall, ?_⟩)
    rw [upperBound, filter_eq_self.2 fun x hx => decide_eq_true (hall x hx).le]

end SortedMap
