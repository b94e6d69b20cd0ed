/-
# Least recently used

The distinct members of a sequence of uses in the order of their last use, and the caches that
keep the first `k` of them.  A cache that stamps its entries with the time of their last use
finds the least recently used one as the entry with the smallest stamp.
-/
import Mathlib

namespace Recency

open Function List

variable {α : Type*} [DecidableEq α]

/-! ### The order of last uses -/

/-- The distinct members of `xs`, the most recently used first. -/
def order (xs : List α) : List α := xs.dedup.reverse

/-- Use `x` in a list of at most `k` members that is ordered by recency: move it to the front or
insert it there, in the place of the last member if the list is full. -/
def touch (k : ℕ) (L : List α) (x : α) : List α :=
  x :: if x ∈ L then L.erase x else if L.length < k then L else L.dropLast

lemma nodup_order (xs : List α) : (order xs).Nodup :=
  nodup_reverse.mpr (nodup_dedup xs)

lemma mem_order {xs : List α} {a : α} : a ∈ order xs ↔ a ∈ xs := by
  rw [order, mem_reverse, mem_dedup]

lemma dedup_concat (xs : List α) (x : α) : (xs ++ [x]).dedup = xs.dedup.erase x ++ [x] := by
  induction xs with
  | nil => simp
  | cons a xs ih =>
    rw [cons_append]
    by_cases ha : a ∈ xs
    · rw [dedup_cons_of_mem (mem_append_left _ ha), dedup_cons_of_mem ha, ih]
    · rcases eq_or_ne a x with rfl | hax
      · rw [dedup_cons_of_mem (by simp), dedup_cons_of_notMem ha, ih,
          erase_cons_head, erase_of_not_mem (by simpa using ha)]
      · rw [dedup_cons_of_notMem (by simp [ha, hax]), dedup_cons_of_notMem ha, ih,
          erase_cons_tail (by simpa using hax), cons_append]

/-- The order after one more use. -/
lemma order_concat (xs : List α) (x : α) : order (xs ++ [x]) = x :: (order xs).erase x := by
  rw [order, dedup_concat, reverse_append, reverse_singleton, singleton_append,
    order, List.Nodup.erase_eq_filter (nodup_dedup xs),
    List.Nodup.erase_eq_filter (nodup_reverse.mpr (nodup_dedup xs)),
    filter_reverse]

lemma take_erase_of_mem {L : List α} {x : α} {k : ℕ} (h : x ∈ L.take k) :
    (L.erase x).take (k - 1) = (L.take k).erase x := by
  induction L generalizing k with
  | nil => simp
  | cons y L ih =>
    obtain ⟨k, rfl⟩ : ∃ k', k = k' + 1 := ⟨k - 1, by
      cases k with
      | zero => simp at h
      | succ k => rfl⟩
    rw [take_succ_cons] at h ⊢
    rcases eq_or_ne y x with rfl | hyx
    · rw [erase_cons_head, erase_cons_head, Nat.add_sub_cancel]
    · have hx : x ∈ L.take k := (mem_cons.mp h).resolve_left hyx.symm
      obtain ⟨k, rfl⟩ : ∃ k', k = k' + 1 := ⟨k - 1, by
        cases k with
        | zero => simp at hx
        | succ k => rfl⟩
      rw [erase_cons_tail (by simpa using hyx), erase_cons_tail (by simpa using hyx),
        Nat.add_sub_cancel, take_succ_cons, ← ih hx, Nat.add_sub_cancel]

lemma take_erase_of_notMem {L : List α} {x : α} {k : ℕ} (h : x ∉ L.take k) :
    (L.erase x).take (k - 1) = L.take (k - 1) := by
  have hsplit : L.erase x = L.take k ++ (L.drop k).erase x := by
    conv_lhs => rw [← take_append_drop k L]
    exact erase_append_right _ h
  have htake : L.take (k - 1) = (L.take k).take (k - 1) := by
    rw [take_take, Nat.min_eq_left (Nat.sub_le k 1)]
  rw [hsplit, htake]
  by_cases hlen : L.length ≤ k
  · rw [take_of_length_le hlen, drop_eq_nil_of_le hlen, erase_nil, append_nil]
  · rw [take_append_of_le_length]
    rw [length_take]
    omega

/-- The first `k` members by recency are a cache with the least-recently-used policy. -/
theorem take_order_concat (xs : List α) (x : α) {k : ℕ} (hk : 0 < k) :
    (order (xs ++ [x])).take k = touch k ((order xs).take k) x := by
  obtain ⟨k, rfl⟩ : ∃ k', k = k' + 1 := ⟨k - 1, by omega⟩
  rw [order_concat, take_succ_cons, touch]
  congr 1
  by_cases hx : x ∈ (order xs).take (k + 1)
  · rw [if_pos hx, ← take_erase_of_mem hx, Nat.add_sub_cancel]
  · have htake := take_erase_of_notMem hx
    rw [Nat.add_sub_cancel] at htake
    rw [if_neg hx, htake]
    by_cases hlen : ((order xs).take (k + 1)).length < k + 1
    · rw [length_take] at hlen
      rw [if_pos (by rwa [length_take]), take_of_length_le (by omega),
        take_of_length_le (by omega)]
    · rw [length_take] at hlen
      rw [if_neg (by rwa [length_take]), dropLast_eq_take, length_take,
        take_take, show min (min (k + 1) (order xs).length - 1) (k + 1) = k by omega]

/-! ### Time stamps -/

/-- The stamps of the members of `L` tell their order: they are at most `now` and the first
member has the largest one. -/
structure Tracks (time : α → Option ℕ) (now : ℕ) (L : List α) : Prop where
  mem_iff : ∀ a, a ∈ L ↔ ∃ t, time a = some t
  nodup : L.Nodup
  le_now : ∀ a t, time a = some t → t ≤ now
  decreasing : L.Pairwise fun a b => ∀ s t, time a = some s → time b = some t → t < s

namespace Tracks

variable {time : α → Option ℕ} {now now' : ℕ} {L : List α} {x : α}

omit [DecidableEq α] in
lemma empty (now : ℕ) : Tracks (fun _ : α => none) now [] :=
  ⟨by simp, by simp, by simp, by simp⟩

/-- A stamped member in front of members with the old stamps. -/
lemma cons_aux (h : Tracks time now L) (hnow : now < now') {M : List α} (hM : M.Sublist L)
    (hx : x ∉ M) (hmem : ∀ a, a ≠ x → (a ∈ M ↔ a ∈ L)) :
    Tracks (update time x (some now')) now' (x :: M) where
  mem_iff a := by
    rcases eq_or_ne a x with rfl | hax
    · simp
    · rw [mem_cons, update_of_ne hax, or_iff_right hax, hmem a hax, h.mem_iff]
  nodup := nodup_cons.mpr ⟨hx, h.nodup.sublist hM⟩
  le_now a t ht := by
    rcases eq_or_ne a x with rfl | hax
    · rw [update_self] at ht
      exact (Option.some.inj ht).ge
    · rw [update_of_ne hax] at ht
      exact (h.le_now a t ht).trans hnow.le
  decreasing := by
    have hne : ∀ a ∈ M, a ≠ x := fun a ha hax => hx (hax ▸ ha)
    refine pairwise_cons.mpr ⟨fun b hb s t hs ht => ?_, ?_⟩
    · rw [update_self] at hs
      rw [update_of_ne (hne b hb)] at ht
      have := h.le_now b t ht
      have := Option.some.inj hs
      omega
    · refine (h.decreasing.sublist hM).imp_of_mem fun {a b} ha hb hab s t hs ht => ?_
      rw [update_of_ne (hne a ha)] at hs
      rw [update_of_ne (hne b hb)] at ht
      exact hab s t hs ht

/-- A member is used again. -/
lemma hit (h : Tracks time now L) (hnow : now < now') :
    Tracks (update time x (some now')) now' (x :: L.erase x) :=
  h.cons_aux hnow erase_sublist (fun hx => (List.Nodup.mem_erase_iff h.nodup).mp hx |>.1 rfl)
    fun a hax => by rw [mem_erase_of_ne hax]

/-- A new member is used. -/
lemma insert (h : Tracks time now L) (hnow : now < now') (hx : x ∉ L) :
    Tracks (update time x (some now')) now' (x :: L) :=
  h.cons_aux hnow (List.Sublist.refl L) hx fun _ _ => Iff.rfl

omit [DecidableEq α] in
/-- The member with the smallest stamp is the last one. -/
lemma eq_getLast (h : Tracks time now L) {b : α} (hb : b ∈ L)
    (hmin : ∀ a ∈ L, ∀ s t, time a = some s → time b = some t → t ≤ s) :
    ∃ M, L = M ++ [b] := by
  have hne : L ≠ [] := ne_nil_of_mem hb
  refine ⟨L.dropLast, ?_⟩
  have hlast := dropLast_append_getLast hne
  rcases eq_or_ne b (L.getLast hne) with rfl | hbl
  · exact hlast.symm
  · exfalso
    have hbm : b ∈ L.dropLast := by
      have hb' : b ∈ L.dropLast ++ [L.getLast hne] := by rwa [hlast]
      rcases mem_append.mp hb' with hb' | hb'
      · exact hb'
      · exact absurd (mem_singleton.mp hb') hbl
    have hdec := h.decreasing
    rw [← hlast, pairwise_append] at hdec
    obtain ⟨s, hs⟩ := (h.mem_iff _).mp (getLast_mem hne)
    obtain ⟨t, ht⟩ := (h.mem_iff _).mp hb
    have hlt := hdec.2.2 b hbm (L.getLast hne) (by simp) t s ht hs
    have hle := hmin _ (getLast_mem hne) s t hs ht
    omega

/-- The last member is evicted. -/
lemma evict {M : List α} {b : α} (h : Tracks time now (M ++ [b])) :
    Tracks (update time b none) now M := by
  have hb : b ∉ M := by
    have := h.nodup
    rw [nodup_append] at this
    exact fun hbM => this.2.2 b hbM b (by simp) rfl
  have hne : ∀ a ∈ M, a ≠ b := fun a ha hab => hb (hab ▸ ha)
  refine ⟨fun a => ?_, h.nodup.sublist (sublist_append_left _ _), fun a t ht => ?_, ?_⟩
  · rcases eq_or_ne a b with rfl | hab
    · simp [hb]
    · rw [update_of_ne hab, ← h.mem_iff, mem_append, mem_singleton, or_iff_left hab]
  · rcases eq_or_ne a b with rfl | hab
    · simp at ht
    · rw [update_of_ne hab] at ht
      exact h.le_now a t ht
  · refine (h.decreasing.sublist (sublist_append_left _ _)).imp_of_mem
      fun {a c} ha hc hac s t hs ht => ?_
    rw [update_of_ne (hne a ha)] at hs
    rw [update_of_ne (hne c hc)] at ht
    exact hac s t hs ht

end Tracks

end Recency
