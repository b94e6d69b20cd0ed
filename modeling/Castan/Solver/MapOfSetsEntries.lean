/-
# The entries of a map of sets

The list of the entries of a tree, in the order of the tree.  `subsets` and `supersets` collect
those below and above a given set, and `findSuperset` misses none of them.
-/
import Castan.Solver.MapOfSets

namespace Castan

open Option SetNode

variable {K V : Type}

namespace SetNode

def value : SetNode K V → Option V
  | mk value _ => value

def children : SetNode K V → SetChildren K V
  | mk _ children => children

end SetNode

/-! ### The entries of a tree -/

mutual

/-- The paths of a tree that hold a value, in the order of the tree. -/
def SetNode.entries : SetNode K V → List (List K × V)
  | .mk value children => (value.map ([], ·)).toList ++ children.entries

def SetChildren.entries : SetChildren K V → List (List K × V)
  | .nil => []
  | .cons key child rest => child.entries.map (fun e => (key :: e.1, e.2)) ++ rest.entries

end

lemma SetNode.entries_eq (n : SetNode K V) :
    n.entries = (n.value.map ([], ·)).toList ++ n.children.entries := by
  obtain ⟨value, children⟩ := n
  rw [entries, SetNode.value, SetNode.children]

variable [LinearOrder K]

/-! ### Collecting subsets and supersets -/

/-- The loop of `findSubsets` over the elements of the set. -/
def SetChildren.findSubsets (children : SetChildren K V) (accum : Finset K) :
    List K → List (Finset K × V)
  | [] => []
  | elt :: set =>
      (match children.find elt with
        | some (.mk value children') =>
            (value.map (insert elt accum, ·)).toList ++
              children'.findSubsets (insert elt accum) set
        | none => []) ++ children.findSubsets accum set

/-- `MapOfSets::findSubsets`. -/
def SetNode.findSubsets (n : SetNode K V) (accum : Finset K) (set : List K) :
    List (Finset K × V) :=
  (n.value.map (accum, ·)).toList ++ n.children.findSubsets accum set

mutual

/-- `MapOfSets::findSupersets`. -/
def SetNode.findSupersets : SetNode K V → (accum : Finset K) → (set : List K) → List (Finset K × V)
  | .mk value children, accum, [] =>
      (value.map (accum, ·)).toList ++ children.findSupersets accum []
  | .mk _ children, accum, elt :: set => children.findSupersets accum (elt :: set)

/-- The loops of `findSupersets` over the children. -/
def SetChildren.findSupersets : SetChildren K V → (accum : Finset K) → (set : List K) →
    List (Finset K × V)
  | .nil, _, _ => []
  | .cons key child rest, accum, [] =>
      child.findSupersets (insert key accum) [] ++ rest.findSupersets accum []
  | .cons key child rest, accum, elt :: set =>
      if elt = key then
        child.findSupersets (insert key accum) set ++ rest.findSupersets accum (elt :: set)
      else if key < elt then
        child.findSupersets (insert key accum) (elt :: set) ++
          rest.findSupersets accum (elt :: set)
      else []

end

namespace MapOfSets

def subsets (m : MapOfSets K V) (set : Finset K) (resultOut : List (Finset K × V)) :
    List (Finset K × V) :=
  resultOut ++ m.root.findSubsets ∅ (set.sort (· ≤ ·))

def supersets (m : MapOfSets K V) (set : Finset K) (resultOut : List (Finset K × V)) :
    List (Finset K × V) :=
  resultOut ++ m.root.findSupersets ∅ (set.sort (· ≤ ·))

end MapOfSets

/-! ### What the entries are -/

mutual

theorem SetNode.mem_entries : ∀ (n : SetNode K V), n.Sorted → ∀ ks v,
    (ks, v) ∈ n.entries ↔ n.lookup ks = some v
  | .mk value children, h, [], v => by
    have hnone : ([], v) ∉ children.entries := fun hmem => by
      obtain ⟨k, ks, -, heq, -⟩ := (SetChildren.mem_entries children h _ _).mp hmem
      exact absurd heq (by simp)
    rw [SetNode.entries, lookup, List.mem_append, mem_toList]
    simp [hnone]
  | .mk value children, h, k :: ks, v => by
    rw [SetNode.entries, List.mem_append, SetChildren.mem_entries children h, lookup_cons]
    constructor
    · rintro (hmem | ⟨k', ks', child, heq, hfind, hlook⟩)
      · simp at hmem
      · obtain ⟨rfl, rfl⟩ := List.cons.inj heq
        rw [hfind]
        exact hlook
    · intro hlook
      cases hfind : children.find k with
      | none => simp [hfind, lookup_empty] at hlook
      | some child =>
        rw [hfind] at hlook
        exact .inr ⟨k, ks, child, rfl, hfind, hlook⟩

theorem SetChildren.mem_entries : ∀ (children : SetChildren K V), children.Sorted → ∀ ks v,
    (ks, v) ∈ children.entries ↔
      ∃ k ks' child, ks = k :: ks' ∧ children.find k = some child ∧ child.lookup ks' = some v
  | .nil, _, ks, v => by simp [SetChildren.entries, SetChildren.find]
  | .cons key child rest, ⟨hchild, habove, hrest⟩, ks, v => by
    rw [SetChildren.entries, List.mem_append, SetChildren.mem_entries rest hrest]
    constructor
    · rintro (hmem | ⟨k, ks', child', rfl, hfind, hlook⟩)
      · obtain ⟨⟨ks', w⟩, hmem', heq⟩ := List.mem_map.mp hmem
        obtain ⟨rfl, rfl⟩ := Prod.mk.inj heq
        exact ⟨key, ks', child, rfl, by rw [SetChildren.find, if_pos rfl],
          (SetNode.mem_entries child hchild _ _).mp hmem'⟩
      · exact ⟨k, ks', child', rfl, by rw [SetChildren.find, if_neg (habove.lt hfind).ne, hfind],
          hlook⟩
    · rintro ⟨k, ks', child', rfl, hfind, hlook⟩
      rw [SetChildren.find] at hfind
      split at hfind
      · next hkey =>
        obtain rfl := Option.some.inj hfind
        refine .inl (List.mem_map.mpr ⟨(ks', v), ?_, by rw [hkey]⟩)
        exact (SetNode.mem_entries child hchild _ _).mpr hlook
      · exact .inr ⟨k, ks', child', rfl, hfind, hlook⟩

end

mutual

theorem SetNode.nodup_entries : ∀ n : SetNode K V, n.Sorted → (n.entries.map (·.1)).Nodup
  | .mk value children, h => by
    have hne : [] ∉ children.entries.map (·.1) := fun hmem => by
      obtain ⟨⟨ks, v⟩, hmem, rfl⟩ := List.mem_map.mp hmem
      obtain ⟨k, ks', -, heq, -⟩ := (SetChildren.mem_entries children h _ _).mp hmem
      exact absurd heq (by simp)
    have hnodup := SetChildren.nodup_entries children h
    rw [SetNode.entries]
    cases value with
    | none => exact hnodup
    | some v => exact List.nodup_cons.mpr ⟨hne, hnodup⟩

theorem SetChildren.nodup_entries : ∀ children : SetChildren K V, children.Sorted →
    (children.entries.map (·.1)).Nodup
  | .nil, _ => List.nodup_nil
  | .cons key child rest, ⟨hchild, habove, hrest⟩ => by
    rw [SetChildren.entries, List.map_append, List.map_map]
    refine List.nodup_append'.mpr ⟨?_, SetChildren.nodup_entries rest hrest, ?_⟩
    · have hnodup := SetNode.nodup_entries child hchild
      have hmap := hnodup.map (List.cons_injective (a := key))
      rwa [List.map_map] at hmap
    · -- the paths on the left start with `key`, those on the right with a larger key
      intro ks hleft hright
      obtain ⟨⟨ks', v⟩, -, rfl⟩ := List.mem_map.mp hleft
      obtain ⟨⟨ks, v'⟩, hmem, heq⟩ := List.mem_map.mp hright
      obtain ⟨k, ks'', child', rfl, hfind, -⟩ :=
        (SetChildren.mem_entries rest hrest _ _).mp hmem
      obtain ⟨rfl, -⟩ := List.cons.inj heq
      exact (habove.lt hfind).false

end

/-! ### Supersets -/

lemma SetNode.lookup_bind {value : Option V} {children : SetChildren K V} {k : K} {ks : List K} :
    (mk value children).lookup (k :: ks) = (children.find k).bind (·.lookup ks) := by
  rw [lookup]
  cases children.find k <;> rfl

mutual

/-- A value that is stored under a superset is found, or another one before it. -/
theorem SetNode.findSuperset_complete {p : V → Bool} {v : V} : ∀ (n : SetNode K V)
    (set ks : List K), n.lookup ks = some v → set.Sublist ks → p v = true →
      n.findSuperset p set ≠ none
  | .mk value children, [], [], hlook, _, hp => by
    have hvalue : value = some v := hlook
    simp [findSuperset, hvalue, hp]
  | .mk value children, [], k :: ks, hlook, _, hp => by
    rw [lookup_bind] at hlook
    rw [findSuperset]
    intro hnone
    exact SetChildren.firstSuperset_complete children [] k ks hlook (List.nil_sublist _) hp
      (or_eq_none_iff.mp hnone).2
  | .mk value children, x :: xs, [], _, hsub, _ => by simp at hsub
  | .mk value children, x :: xs, k :: ks, hlook, hsub, hp => by
    rw [lookup_bind] at hlook
    rw [findSuperset]
    intro hnone
    obtain ⟨hfirst, hat⟩ := or_eq_none_iff.mp hnone
    cases hsub with
    | cons _ hsub =>
      exact SetChildren.firstSuperset_complete children (x :: xs) k ks hlook hsub hp hfirst
    | cons_cons _ hsub => exact SetChildren.supersetAt_complete children xs x ks hlook hsub hp hat

theorem SetChildren.firstSuperset_complete {p : V → Bool} {v : V} :
    ∀ (children : SetChildren K V) (set : List K) (k : K) (ks : List K),
      (children.find k).bind (·.lookup ks) = some v → set.Sublist ks → p v = true →
      children.firstSuperset p set ≠ none
  | .nil, set, k, ks, hlook, _, _ => by simp [SetChildren.find] at hlook
  | .cons key child rest, set, k, ks, hlook, hsub, hp => by
    rw [SetChildren.firstSuperset]
    intro hnone
    obtain ⟨hchild, hrest⟩ := or_eq_none_iff.mp hnone
    rw [SetChildren.find] at hlook
    split at hlook
    · exact SetNode.findSuperset_complete child set ks hlook hsub hp hchild
    · exact SetChildren.firstSuperset_complete rest set k ks hlook hsub hp hrest

theorem SetChildren.supersetAt_complete {p : V → Bool} {v : V} :
    ∀ (children : SetChildren K V) (set : List K) (x : K) (ks : List K),
      (children.find x).bind (·.lookup ks) = some v → set.Sublist ks → p v = true →
      children.supersetAt p x set ≠ none
  | .nil, set, x, ks, hlook, _, _ => by simp [SetChildren.find] at hlook
  | .cons key child rest, set, x, ks, hlook, hsub, hp => by
    rw [SetChildren.supersetAt]
    rw [SetChildren.find] at hlook
    split at hlook
    · next hkey =>
      rw [if_pos hkey]
      exact SetNode.findSuperset_complete child set ks hlook hsub hp
    · next hkey =>
      rw [if_neg hkey]
      exact SetChildren.supersetAt_complete rest set x ks hlook hsub hp

end

lemma union_cons_toFinset (accum : Finset K) (elt : K) (ks : List K) :
    accum ∪ (elt :: ks).toFinset = insert elt accum ∪ ks.toFinset := by
  rw [List.toFinset_cons, Finset.union_insert, Finset.insert_union]

/-- An entry as `findSubsets` and `findSupersets` report it below the path `accum`. -/
def report (accum : Finset K) (e : List K × V) : Finset K × V := (accum ∪ e.1.toFinset, e.2)

lemma report_cons (accum : Finset K) (key : K) (e : List K × V) :
    report accum (key :: e.1, e.2) = report (insert key accum) e := by
  rw [report, report, union_cons_toFinset]

lemma SetChildren.increasing_cons {key : K} {child : SetNode K V} {rest : SetChildren K V}
    (h : ∀ e ∈ (SetChildren.cons key child rest).entries, e.1.Pairwise (· < ·)) :
    (∀ e ∈ child.entries, e.1.Pairwise (· < ·)) ∧ ∀ e ∈ rest.entries, e.1.Pairwise (· < ·) := by
  rw [SetChildren.entries] at h
  refine ⟨fun e he => ?_, fun e he => h e (List.mem_append_right _ he)⟩
  have hcons := h (key :: e.1, e.2) (List.mem_append_left _ (List.mem_map_of_mem he))
  exact (List.pairwise_cons.mp hcons).2

/-- The paths of children above `x` do not go through `x`. -/
lemma SetChildren.Above.notMem {children : SetChildren K V} {x : K} (h : children.Above x)
    (hsorted : children.Sorted) (hinc : ∀ e ∈ children.entries, e.1.Pairwise (· < ·))
    {e : List K × V} (he : e ∈ children.entries) : x ∉ e.1 := by
  have hpair := hinc e he
  obtain ⟨ks, v⟩ := e
  obtain ⟨k, ks', child, rfl, hfind, -⟩ := (SetChildren.mem_entries children hsorted _ _).mp he
  have hlt := h.lt hfind
  intro hx
  rcases List.mem_cons.mp hx with rfl | hx
  · exact hlt.false
  · exact (hlt.trans ((List.pairwise_cons.mp hpair).1 x hx)).false

lemma cons_sublist_cons_of_ne {α : Type*} {x k : α} {xs ks : List α} (h : x ≠ k) :
    (x :: xs).Sublist (k :: ks) ↔ (x :: xs).Sublist ks := by
  refine ⟨fun hsub => ?_, fun hsub => hsub.cons k⟩
  cases hsub with
  | cons _ hsub => exact hsub
  | cons_cons _ _ => exact absurd rfl h

mutual

/-- `findSupersets` reports the entries whose path goes through the set. -/
theorem SetNode.findSupersets_eq : ∀ (n : SetNode K V) (accum : Finset K) (set : List K),
    n.Sorted → (∀ e ∈ n.entries, e.1.Pairwise (· < ·)) →
    n.findSupersets accum set = (n.entries.filter fun e => set.Sublist e.1).map (report accum)
  | .mk value children, accum, [], h, hinc => by
    rw [SetNode.entries] at hinc
    rw [findSupersets, SetNode.entries, SetChildren.findSupersets_eq children accum [] h
      fun e he => hinc e (List.mem_append_right _ he)]
    cases value <;> simp [report]
  | .mk value children, accum, x :: xs, h, hinc => by
    rw [SetNode.entries] at hinc
    rw [findSupersets, SetNode.entries, SetChildren.findSupersets_eq children accum _ h
      fun e he => hinc e (List.mem_append_right _ he)]
    cases value <;> simp

theorem SetChildren.findSupersets_eq : ∀ (children : SetChildren K V) (accum : Finset K)
    (set : List K), children.Sorted → (∀ e ∈ children.entries, e.1.Pairwise (· < ·)) →
    children.findSupersets accum set =
      (children.entries.filter fun e => set.Sublist e.1).map (report accum)
  | .nil, accum, set, _, _ => by
    rw [SetChildren.findSupersets, SetChildren.entries, List.filter_nil, List.map_nil]
  | .cons key child rest, accum, [], ⟨hchild, _, hrest⟩, hinc => by
    obtain ⟨hinc₁, hinc₂⟩ := SetChildren.increasing_cons hinc
    rw [SetChildren.findSupersets, SetNode.findSupersets_eq child _ _ hchild hinc₁,
      SetChildren.findSupersets_eq rest _ _ hrest hinc₂, SetChildren.entries, List.filter_append,
      List.map_append, List.filter_map, List.map_map]
    simp [Function.comp_def, report_cons]
  | .cons key child rest, accum, x :: xs, h, hinc => by
    obtain ⟨hchild, habove, hrest⟩ := id h
    obtain ⟨hinc₁, hinc₂⟩ := SetChildren.increasing_cons hinc
    rw [SetChildren.findSupersets]
    split
    · next hx =>
      subst hx
      rw [SetNode.findSupersets_eq child _ _ hchild hinc₁,
        SetChildren.findSupersets_eq rest _ _ hrest hinc₂, SetChildren.entries, List.filter_append,
        List.map_append, List.filter_map, List.map_map]
      simp [Function.comp_def, report_cons]
    · next hx =>
      split
      · rw [SetNode.findSupersets_eq child _ _ hchild hinc₁,
          SetChildren.findSupersets_eq rest _ _ hrest hinc₂, SetChildren.entries,
          List.filter_append, List.map_append, List.filter_map, List.map_map]
        simp [Function.comp_def, report_cons, cons_sublist_cons_of_ne hx]
      · next hlt =>
        -- the loop is left: all keys from here on are above `x`
        have hkey : x < key := lt_of_le_of_ne (not_lt.mp hlt) hx
        have habove' : (SetChildren.cons key child rest).Above x := ⟨hkey, habove.trans hkey⟩
        have hnil : ((SetChildren.cons key child rest).entries.filter
            fun e => (x :: xs).Sublist e.1) = [] := by
          refine List.filter_eq_nil_iff.mpr fun e he hsub => ?_
          exact habove'.notMem h hinc he ((of_decide_eq_true hsub).subset List.mem_cons_self)
        rw [hnil, List.map_nil]

end

/-! ### Subsets -/

lemma SetChildren.findSubsets_cons (children : SetChildren K V) (accum : Finset K) (elt : K)
    (set : List K) :
    children.findSubsets accum (elt :: set) =
      (children.find elt).elim [] (·.findSubsets (insert elt accum) set) ++
        children.findSubsets accum set := by
  rw [SetChildren.findSubsets]
  rcases children.find elt with _ | ⟨value, children'⟩ <;> rfl

/-- The entries that `findSubsets` reports, once they are known for the children. -/
lemma SetNode.mem_findSubsets {n : SetNode K V} {accum : Finset K} {set : List K}
    {T : Finset K} {v : V}
    (h : (T, v) ∈ n.children.findSubsets accum set ↔ ∃ k ks, (k :: ks).Sublist set ∧
      (n.children.find k).bind (·.lookup ks) = some v ∧ T = accum ∪ (k :: ks).toFinset) :
    (T, v) ∈ n.findSubsets accum set ↔
      ∃ ks, ks.Sublist set ∧ n.lookup ks = some v ∧ T = accum ∪ ks.toFinset := by
  obtain ⟨value, children⟩ := n
  rw [findSubsets, List.mem_append, h]
  constructor
  · rintro (hmem | ⟨k, ks, hsub, hlook, rfl⟩)
    · obtain ⟨w, hw, heq⟩ := map_eq_some_iff.mp (mem_toList.mp hmem)
      obtain ⟨rfl, rfl⟩ := Prod.mk.inj heq
      exact ⟨[], List.nil_sublist set, hw, by simp⟩
    · exact ⟨k :: ks, hsub, lookup_bind.trans hlook, rfl⟩
  · rintro ⟨ks, hsub, hlook, rfl⟩
    cases ks with
    | nil =>
      refine .inl (mem_toList.mpr (map_eq_some_iff.mpr ⟨v, hlook, ?_⟩))
      rw [List.toFinset_nil, Finset.union_empty]
    | cons k ks => exact .inr ⟨k, ks, hsub, lookup_bind.symm.trans hlook, rfl⟩

lemma SetChildren.mem_findSubsets (children : SetChildren K V) (accum : Finset K) (set : List K)
    (T : Finset K) (v : V) :
    (T, v) ∈ children.findSubsets accum set ↔ ∃ k ks, (k :: ks).Sublist set ∧
      (children.find k).bind (·.lookup ks) = some v ∧ T = accum ∪ (k :: ks).toFinset := by
  induction set generalizing children accum with
  | nil => simp [SetChildren.findSubsets]
  | cons elt set ih =>
    rw [SetChildren.findSubsets_cons, List.mem_append, ih children accum]
    constructor
    · rintro (hmem | ⟨k, ks, hsub, hlook, rfl⟩)
      · cases hfind : children.find elt with
        | none => simp [hfind] at hmem
        | some child =>
          rw [hfind] at hmem
          obtain ⟨ks, hsub, hlook, rfl⟩ := (SetNode.mem_findSubsets (ih _ _)).mp hmem
          refine ⟨elt, ks, hsub.cons_cons elt, ?_, (union_cons_toFinset _ _ _).symm⟩
          rw [hfind, bind_some, hlook]
      · exact ⟨k, ks, hsub.cons elt, hlook, rfl⟩
    · rintro ⟨k, ks, hsub, hlook, rfl⟩
      cases hsub with
      | cons _ hsub => exact .inr ⟨k, ks, hsub, hlook, rfl⟩
      | cons_cons _ hsub =>
        obtain ⟨child, hfind, hlook⟩ := bind_eq_some_iff.mp hlook
        rw [hfind]
        refine .inl ((SetNode.mem_findSubsets (ih _ _)).mpr ⟨ks, hsub, hlook, ?_⟩)
        exact union_cons_toFinset _ _ _

/-- No set is reported twice for a node, once this holds for its children. -/
lemma SetNode.nodup_findSubsets {n : SetNode K V} {accum : Finset K} {set : List K}
    (hdisj : ∀ k ∈ set, k ∉ accum)
    (h : ((n.children.findSubsets accum set).map (·.1)).Nodup) :
    ((n.findSubsets accum set).map (·.1)).Nodup := by
  obtain ⟨value, children⟩ := n
  cases value with
  | none => exact h
  | some v =>
    refine List.nodup_cons.mpr ⟨fun hmem => ?_, h⟩
    obtain ⟨⟨T, w⟩, hmem, heq⟩ := List.mem_map.mp hmem
    obtain ⟨k, ks, hsub, -, rfl⟩ := (SetChildren.mem_findSubsets _ _ _ _ _).mp hmem
    have hk : k ∈ accum := by
      rw [← show accum ∪ (k :: ks).toFinset = accum from heq]
      simp
    exact hdisj k (hsub.subset List.mem_cons_self) hk

lemma SetChildren.nodup_findSubsets (children : SetChildren K V) (accum : Finset K)
    {set : List K} (hset : set.Nodup) (hdisj : ∀ k ∈ set, k ∉ accum) :
    ((children.findSubsets accum set).map (·.1)).Nodup := by
  induction set generalizing children accum with
  | nil => exact List.nodup_nil
  | cons elt set ih =>
    obtain ⟨hnot, hnodup⟩ := List.nodup_cons.mp hset
    have hdisj' : ∀ k ∈ set, k ∉ accum := fun k hk => hdisj k (List.mem_cons_of_mem _ hk)
    have hinsert : ∀ k ∈ set, k ∉ insert elt accum := fun k hk => by
      rw [Finset.mem_insert, not_or]
      exact ⟨fun heq => hnot (heq ▸ hk), hdisj' k hk⟩
    rw [SetChildren.findSubsets_cons, List.map_append]
    refine List.nodup_append'.mpr ⟨?_, ih children accum hnodup hdisj', ?_⟩
    · cases children.find elt with
      | none => exact List.nodup_nil
      | some child => exact SetNode.nodup_findSubsets hinsert (ih _ _ hnodup hinsert)
    · -- the sets on the left contain `elt`, those on the right do not
      intro T hleft hright
      obtain ⟨⟨T', w⟩, hmem, rfl⟩ := List.mem_map.mp hright
      obtain ⟨k, ks, hsub, -, rfl⟩ := (mem_findSubsets _ _ _ _ _).mp hmem
      have hin : elt ∈ accum ∪ (k :: ks).toFinset := by
        obtain ⟨⟨T', w'⟩, hmem, heq⟩ := List.mem_map.mp hleft
        rw [← show T' = accum ∪ (k :: ks).toFinset from heq]
        cases hfind : children.find elt with
        | none => simp [hfind] at hmem
        | some child =>
          rw [hfind] at hmem
          obtain ⟨ks, -, -, rfl⟩ :=
            (SetNode.mem_findSubsets (SetChildren.mem_findSubsets _ _ _ _ _)).mp hmem
          exact Finset.mem_union_left _ (Finset.mem_insert_self _ _)
      rcases Finset.mem_union.mp hin with hin | hin
      · exact hdisj elt List.mem_cons_self hin
      · exact hnot (hsub.subset (List.mem_toFinset.mp hin))

end Castan
