/-
# Items indexed by their priorities

An ordered set of pairs of a priority and an item stands for a partial map from the items to
their priorities.  It is kept as the sorted list of its pairs, the priority first and the item
as a tie break, so that its last pair is an item of the highest priority.
-/
import Castan.Lib.SortedMap

namespace PriorityIndex

variable {P S : Type} [LinearOrder P] [LinearOrder S]

/-- Pairs are compared by the priority first. -/
def key (e : P × S) : P ×ₗ S := toLex e

def insert (e : P × S) (l : List (P × S)) : List (P × S) := SortedMap.insert key e l

def erase (e : P × S) (l : List (P × S)) : List (P × S) := SortedMap.remove key (key e) l

/-- The first pair of an item, in the order of the priorities. -/
def find (st : S) (l : List (P × S)) : Option (P × S) := l.find? fun e => e.2 = st

/-- The list is sorted, and holds the pairs of the partial map `f`. -/
structure Represents (l : List (P × S)) (f : S → Option P) : Prop where
  sorted : SortedMap.Sorted key l
  mem_iff : ∀ p st, (p, st) ∈ l ↔ f st = some p

variable {l : List (P × S)} {f : S → Option P} {p : P} {st : S}

omit [LinearOrder P] [LinearOrder S] in
lemma key_injective : Function.Injective (key : P × S → P ×ₗ S) := toLex.injective

lemma represents_nil : Represents ([] : List (P × S)) fun _ => none :=
  ⟨List.Pairwise.nil, by simp⟩

lemma mem_insert (e e' : P × S) : e' ∈ insert e l ↔ e' = e ∨ e' ∈ l := by
  simp only [insert, SortedMap.insert, SortedMap.lookup, SortedMap.replace, List.find?_isSome,
    decide_eq_true_eq]
  split
  · next h =>
    obtain ⟨a, ha, hkey⟩ := h
    obtain rfl := key_injective hkey
    constructor
    · exact Or.inr
    · rintro (rfl | h)
      · exact ha
      · exact h
  · simp only [List.mem_append, List.mem_cons, List.mem_filter, decide_eq_true_eq]
    constructor
    · rintro (⟨h, -⟩ | rfl | ⟨h, -⟩)
      · exact Or.inr h
      · exact Or.inl rfl
      · exact Or.inr h
    · rintro (rfl | h)
      · exact Or.inr (Or.inl rfl)
      · rcases lt_trichotomy (key e') (key e) with hlt | heq | hgt
        · exact Or.inl ⟨h, hlt⟩
        · exact Or.inr (Or.inl (key_injective heq))
        · exact Or.inr (Or.inr ⟨h, hgt⟩)

lemma mem_erase (e e' : P × S) : e' ∈ erase e l ↔ e' ∈ l ∧ e' ≠ e := by
  simp [erase, SortedMap.remove, key_injective.eq_iff]

namespace Represents

/-- An item without a pair gets one. -/
lemma insert (h : Represents l f) (hst : f st = none) (p : P) :
    Represents (PriorityIndex.insert (p, st) l) (Function.update f st (some p)) := by
  refine ⟨h.sorted.insert _, fun p' st' => ?_⟩
  rw [mem_insert, h.mem_iff]
  by_cases hne : st' = st
  · subst hne
    simp [hst, eq_comm]
  · simp [hne]

/-- The pair of an item is removed by its value. -/
lemma erase (h : Represents l f) (hst : f st = some p) :
    Represents (PriorityIndex.erase (p, st) l) (Function.update f st none) := by
  refine ⟨h.sorted.remove _, fun p' st' => ?_⟩
  rw [mem_erase, h.mem_iff]
  by_cases hne : st' = st
  · subst hne
    simp [hst, eq_comm]
  · simp [hne]

lemma find_eq (h : Represents l f) (hst : f st = some p) : find st l = some (p, st) := by
  have hsome : (find st l).isSome := by
    rw [find, List.find?_isSome]
    exact ⟨(p, st), (h.mem_iff p st).mpr hst, by simp⟩
  obtain ⟨⟨p', st'⟩, he⟩ := Option.isSome_iff_exists.mp hsome
  obtain rfl : st' = st := by simpa using List.find?_some he
  have hp' := (h.mem_iff p' st').mp (List.mem_of_find?_eq_some he)
  rw [he, Option.some.inj (hst.symm.trans hp')]

/-- Every item stands in one pair at most. -/
lemma nodup_items (h : Represents l f) : (l.map Prod.snd).Nodup := by
  refine List.pairwise_map.mpr (h.sorted.imp_of_mem ?_)
  rintro ⟨p, st⟩ ⟨p', st'⟩ hmem hmem' hlt heq
  obtain rfl : st = st' := heq
  have hp := ((h.mem_iff p st).mp hmem).symm.trans ((h.mem_iff p' st).mp hmem')
  rw [Option.some.inj hp] at hlt
  exact lt_irrefl _ hlt

/-- The last pair has the highest priority. -/
lemma getLast (h : Represents l f) (hlast : l.getLast? = some (p, st)) :
    f st = some p ∧ ∀ e ∈ l, e.1 ≤ p := by
  obtain ⟨a, rfl⟩ := List.getLast?_eq_some_iff.mp hlast
  refine ⟨(h.mem_iff p st).mp (by simp), fun e he => ?_⟩
  rcases List.mem_append.mp he with hea | hel
  · have hlt : key e < key (p, st) :=
      (List.pairwise_append.mp h.sorted).2.2 e hea _ (List.mem_singleton_self _)
    rcases Prod.Lex.toLex_lt_toLex.mp hlt with hlt | ⟨heq, -⟩
    · exact hlt.le
    · exact heq.le
  · rw [List.mem_singleton.mp hel]

end Represents

end PriorityIndex
