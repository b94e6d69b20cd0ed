/-
# The versions of an immutable tree

A history applies the operations of `ImmutableTree` to any version obtained before.  Every version
is the finite map that the same history gives on sorted lists, and all searches and iterators
answer as that map does.
-/
import Castan.Support.ImmutableTreeIterator

namespace Castan

variable {V K : Type}

/-- The operations that make a new version. -/
inductive TreeOp (V K : Type)
  | insert (value : V)
  | replace (value : V)
  | remove (key : K)
  | popMin
  | popMax

namespace TreeOp

variable [LinearOrder K] (key : V → K)

/-- The new version, and the value that a pop puts out. -/
def apply : TreeOp V K → Tree V → Option V × Tree V
  | insert value, t => (none, t.insert key value)
  | replace value, t => (none, t.replace key value)
  | remove k, t => (none, t.remove key k)
  | popMin, t => t.popMin
  | popMax, t => t.popMax

/-- The operation on a finite map. -/
def applyMap : TreeOp V K → List V → Option V × List V
  | insert value, m => (none, SortedMap.insert key value m)
  | replace value, m => (none, SortedMap.replace key value m)
  | remove k, m => (none, SortedMap.remove key k m)
  | popMin, m => (m.head?, m.tail)
  | popMax, m => (m.getLast?, m.dropLast)

/-- Applies an operation to the version with the given number and appends the result. -/
def extend {α : Type} (f : TreeOp V K → α → Option V × α) (versions : List (Option V × α))
    (c : ℕ × TreeOp V K) : List (Option V × α) :=
  match versions[c.1]? with
  | some version => versions ++ [f c.2 version.2]
  | none => versions

/-- The versions of a history that starts with the empty tree. -/
def history (cs : List (ℕ × TreeOp V K)) : List (Option V × Tree V) :=
  cs.foldl (extend (apply key)) [(none, .terminator)]

/-- The versions of the finite map. -/
def historyMap (cs : List (ℕ × TreeOp V K)) : List (Option V × List V) :=
  cs.foldl (extend (applyMap key)) [(none, [])]

end TreeOp

/-! ### One operation, and whole histories -/

namespace TreeOp

variable [LinearOrder K] {key : V → K}

/-- A version and the finite map with the same number. -/
def Matches (key : V → K) (version : Option V × Tree V) (m : Option V × List V) : Prop :=
  version.1 = m.1 ∧ version.2.toList = m.2 ∧ version.2.Balanced ∧
    SortedMap.Sorted key version.2.toList

/-- One operation. -/
lemma apply_matches {t : Tree V} (h : t.Balanced) (hsorted : SortedMap.Sorted key t.toList)
    (op : TreeOp V K) : Matches key (op.apply key t) (op.applyMap key t.toList) := by
  cases op with
  | insert value =>
    have heq := Tree.toList_insert hsorted value
    exact ⟨rfl, heq, (Tree.insert_grown h value).balanced, heq ▸ hsorted.insert value⟩
  | replace value =>
    have heq := Tree.toList_replace hsorted value
    exact ⟨rfl, heq, (Tree.replace_grown h value).balanced, heq ▸ hsorted.replace value⟩
  | remove k =>
    have heq := Tree.toList_remove hsorted k
    exact ⟨rfl, heq, (Tree.remove_shrunk h k).balanced, heq ▸ hsorted.remove k⟩
  | popMin =>
    obtain ⟨hmin, heq⟩ := t.popMin_eq
    exact ⟨hmin, heq, (Tree.popMin_shrunk h).balanced, heq ▸ hsorted.sublist (List.tail_sublist _)⟩
  | popMax =>
    obtain ⟨hmax, heq⟩ := t.popMax_eq
    exact ⟨hmax, heq, (Tree.popMax_shrunk h).balanced,
      heq ▸ hsorted.sublist (List.dropLast_sublist _)⟩

lemma extend_matches {versions : List (Option V × Tree V)} {maps : List (Option V × List V)}
    (h : List.Forall₂ (Matches key) versions maps) (c : ℕ × TreeOp V K) :
    List.Forall₂ (Matches key) (extend (apply key) versions c) (extend (applyMap key) maps c) := by
  unfold extend
  have hlen := h.length_eq
  by_cases hc : c.1 < versions.length
  · have hc' : c.1 < maps.length := hlen ▸ hc
    obtain ⟨-, heq, hb, hs⟩ := h.get hc hc'
    obtain ⟨hout, hlist, hb', hs'⟩ := apply_matches hb hs c.2
    rw [List.getElem?_eq_getElem hc, List.getElem?_eq_getElem hc']
    simp only [List.get_eq_getElem] at heq hout hlist hb' hs'
    refine List.rel_append h (.cons ⟨?_, ?_, hb', hs'⟩ .nil)
    · rw [hout, heq]
    · rw [hlist, heq]
  · rw [List.getElem?_eq_none (by omega), List.getElem?_eq_none (by omega)]
    exact h

lemma history_matches (cs : List (ℕ × TreeOp V K)) :
    List.Forall₂ (Matches key) (history key cs) (historyMap key cs) := by
  have hstart : List.Forall₂ (Matches key) [(none, Tree.terminator)] [(none, [])] :=
    .cons ⟨rfl, rfl, trivial, .nil⟩ .nil
  unfold history historyMap
  generalize [(none, Tree.terminator)] = versions at hstart ⊢
  generalize [(none, [])] = maps at hstart ⊢
  induction cs generalizing versions maps with
  | nil => exact hstart
  | cons c cs ih => exact ih _ _ (extend_matches hstart c)

/-- Later operations leave a version alone. -/
lemma history_append (cs cs' : List (ℕ × TreeOp V K)) {i : ℕ} (hi : i < (history key cs).length) :
    (history key (cs ++ cs'))[i]? = (history key cs)[i]? := by
  unfold history at hi ⊢
  rw [List.foldl_append]
  generalize cs.foldl (extend (apply key)) [(none, .terminator)] = versions at hi ⊢
  induction cs' generalizing versions with
  | nil => rfl
  | cons c cs' ih =>
    have hget : (extend (apply key) versions c)[i]? = versions[i]? ∧
        i < (extend (apply key) versions c).length := by
      unfold extend
      split
      · exact ⟨List.getElem?_append_left hi, by rw [List.length_append]; omega⟩
      · exact ⟨rfl, hi⟩
    rw [List.foldl_cons, ih _ hget.2, hget.1]

end TreeOp

/-! ### The answers of a version -/

namespace TreeIterator

variable [DecidableEq V]

/-- The iterator after `n` steps from the beginning. -/
def nth (t : Tree V) (n : ℕ) : Option (TreeIterator V) :=
  (fun it => it.bind next)^[n] (atBeginning t)

/-- The iterator after `n` steps back from the end. -/
def nthLast (t : Tree V) (n : ℕ) : Option (TreeIterator V) :=
  (fun it => it.bind prev)^[n] (some (atEnd t))

end TreeIterator

variable [LinearOrder K] {key : V → K} [DecidableEq V]

/-- The tree is the finite map `m`. -/
structure Tree.Implements (key : V → K) (t : Tree V) (m : List V) : Prop where
  entries : t.toList = m
  sorted : SortedMap.Sorted key m
  balanced : t.Balanced
  lookup : ∀ k, t.lookup key k = SortedMap.lookup key k m
  lookupPrevious : ∀ k, t.lookupPrevious key k = SortedMap.lookupPrevious key k m
  min : t.min = m.head?
  max : t.max = m.getLast?
  forward : ∀ n ≤ m.length, ∃ it, TreeIterator.nth t n = some it ∧ it.value = m[n]?
  atEnd : TreeIterator.nth t m.length = some (.atEnd t)
  backward : ∀ n ≤ m.length, TreeIterator.nthLast t n = TreeIterator.nth t (m.length - n)
  find : ∀ k, t.find key k = TreeIterator.nth t
    (if (SortedMap.lookup key k m).isSome then SortedMap.lowerBound key k m else m.length)
  lowerBound : ∀ k, t.lowerBound key k = TreeIterator.nth t (SortedMap.lowerBound key k m)
  upperBound : ∀ k, t.upperBound key k = TreeIterator.nth t (SortedMap.upperBound key k m)

namespace TreeIterator

variable {t : Tree V}

lemma nth_eq (h : t.Balanced) (hnodup : t.toList.Nodup) {n : ℕ} (hn : n ≤ t.size) :
    nth t n = some (at' t n) := by
  induction n with
  | zero => exact atBeginning_eq h
  | succ n ih =>
    rw [nth, Function.iterate_succ_apply', ← nth, ih (by omega), Option.bind_some,
      next_at h hnodup (by omega)]

lemma nthLast_eq (h : t.Balanced) (hnodup : t.toList.Nodup) {n : ℕ} (hn : n ≤ t.size) :
    nthLast t n = some (at' t (t.size - n)) := by
  induction n with
  | zero => exact congrArg some (at_size t).symm
  | succ n ih =>
    have hsub : t.size - n = t.size - (n + 1) + 1 := by omega
    rw [nthLast, Function.iterate_succ_apply', ← nthLast, ih (by omega), Option.bind_some, hsub,
      prev_at h hnodup (by omega)]

end TreeIterator

namespace Tree

variable {t : Tree V}

theorem implements_toList (h : t.Balanced) (hsorted : SortedMap.Sorted key t.toList) :
    t.Implements key t.toList := by
  have hnodup := nodup_of_sorted hsorted
  have hnth : ∀ n ≤ t.size, TreeIterator.nth t n = some (.at' t n) := fun n hn =>
    TreeIterator.nth_eq h hnodup hn
  have hlow : ∀ k, SortedMap.lowerBound key k t.toList ≤ t.size := fun k => by
    rw [← length_toList]
    exact List.length_filter_le _ _
  refine ⟨rfl, hsorted, h, lookup_eq hsorted, lookupPrevious_eq hsorted, min_eq t, max_eq t,
    fun n hn => ?_, ?_, fun n hn => ?_, fun k => ?_, fun k => ?_, fun k => ?_⟩
  · rw [length_toList] at hn
    exact ⟨_, hnth n hn, TreeIterator.value_at t n⟩
  · rw [length_toList, hnth _ le_rfl, TreeIterator.at_size]
  · rw [length_toList] at hn ⊢
    rw [TreeIterator.nthLast_eq h hnodup hn, hnth _ (Nat.sub_le _ _)]
  · rw [find_eq h hsorted, length_toList, hnth]
    split_ifs
    · exact hlow k
    · exact le_rfl
  · rw [lowerBound_eq h hsorted, hnth _ (hlow k)]
  · rw [upperBound_eq h hsorted, hnth]
    rw [← length_toList]
    exact List.length_filter_le _ _

end Tree

namespace TreeOp

/-- Every version of every history is the finite map of the same history, in its entries and in
its searches and iterators, and it stays so whatever comes after. -/
theorem history_implements (cs : List (ℕ × TreeOp V K)) :
    List.Forall₂ (fun version m => version.1 = m.1 ∧ version.2.Implements key m.2)
      (history key cs) (historyMap key cs) ∧
    ∀ cs' i, i < (history key cs).length →
      (history key (cs ++ cs'))[i]? = (history key cs)[i]? := by
  refine ⟨(history_matches cs).imp ?_, fun cs' i hi => history_append cs cs' hi⟩
  rintro ⟨out, t⟩ ⟨out', m⟩ ⟨rfl, rfl, hb, hs⟩
  exact ⟨rfl, Tree.implements_toList hb hs⟩

end TreeOp

end Castan
