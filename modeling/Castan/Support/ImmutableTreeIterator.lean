/-
# Iterators of immutable trees

An iterator keeps the path from the root to its node on a stack whose size is the height of the
root.  The stack of the iterator at the `i`-th entry is `path .left t i`, and the one at the end
is empty; every operation on iterators goes from one of them to another, and no push overflows.
-/
import Castan.Support.ImmutableTree

namespace Castan

open List

/-- `FixedStack`, the last element first. -/
structure FixedStack (α : Type) where
  max : ℕ
  elts : List α

/-- `push_back`, with `none` for an overflow. -/
def FixedStack.pushBack {α : Type} (stack : FixedStack α) (elt : α) : Option (FixedStack α) :=
  if stack.elts.length < stack.max then some { stack with elts := elt :: stack.elts } else none

/-- The two directions of an iterator: away from the left or from the right end. -/
inductive Side
  | left
  | right

def Side.other : Side → Side
  | left => right
  | right => left

namespace Tree

variable {V K : Type}

def child : Side → Tree V → Tree V
  | .left => Tree.left
  | .right => Tree.right

/-- The loops that push a node, its child on the given side, and so on. -/
def pushSpine (side : Side) : Tree V → FixedStack (Tree V) → Option (FixedStack (Tree V))
  | terminator, stack => some stack
  | node left right value height, stack =>
    (stack.pushBack (node left right value height)).bind fun stack =>
      match side with
      | .left => left.pushSpine side stack
      | .right => right.pushSpine side stack

end Tree

/-- `ImmutableTree::iterator` -/
structure TreeIterator (V : Type) where
  root : Tree V
  stack : FixedStack (Tree V)

namespace TreeIterator

variable {V K : Type}

/-- `ImmutableTree::end` -/
def atEnd (root : Tree V) : TreeIterator V := ⟨root, root.height, []⟩

/-- `ImmutableTree::begin` -/
def atBeginning (root : Tree V) : Option (TreeIterator V) :=
  (root.pushSpine .left ⟨root.height, []⟩).map fun stack => ⟨root, stack⟩

/-- `operator*`, with `none` at the end. -/
def value (it : TreeIterator V) : Option V :=
  match it.stack.elts with
  | .node _ _ value _ :: _ => some value
  | _ => none

variable [DecidableEq V]

/-- The loop that leaves the nodes whose child on the given side is not `prev`. -/
def ascend (side : Side) (prev : Tree V) : List (Tree V) → List (Tree V)
  | [] => []
  | n :: rest => if prev = n.child side then n :: rest else ascend side n rest

/-- The step away from the given side, of an iterator that is not at the end. -/
def step (side : Side) (stack : FixedStack (Tree V)) : Option (FixedStack (Tree V)) :=
  match stack.elts with
  | [] => none
  | n :: rest =>
    if n.child side.other = .terminator then some { stack with elts := ascend side n rest }
    else
      (stack.pushBack (n.child side.other)).bind ((n.child side.other).child side |>.pushSpine side)

/-- `operator++`, with `none` for the failed assertion and an overflow. -/
def next (it : TreeIterator V) : Option (TreeIterator V) :=
  (step .left it.stack).map fun stack => { it with stack }

/-- `operator--` -/
def prev (it : TreeIterator V) : Option (TreeIterator V) :=
  (match it.stack.elts with
    | [] => it.root.pushSpine .right it.stack
    | _ => step .right it.stack).map fun stack => { it with stack }

end TreeIterator

namespace Tree

variable {V K : Type}

section Search

variable [LinearOrder K] (key : V → K)

/-- The loop of `lower_bound`, and whether it has returned from its middle. -/
def descend (k : K) : Tree V → FixedStack (Tree V) → Option (FixedStack (Tree V) × Bool)
  | terminator, stack => some (stack, false)
  | node left right value height, stack =>
    (stack.pushBack (node left right value height)).bind fun stack =>
      if k < key value then left.descend k stack
      else if key value < k then right.descend k stack
      else some (stack, true)

variable [DecidableEq V]

def lowerBound (k : K) (t : Tree V) : Option (TreeIterator V) :=
  (t.descend key k ⟨t.height, []⟩).bind fun (stack, found) =>
    let it : TreeIterator V := ⟨t, stack⟩
    if found then some it
    else
      match it.value with
      | some last => if key last < k then it.next else some it
      | none => some it

def find (k : K) (t : Tree V) : Option (TreeIterator V) :=
  (t.lowerBound key k).map fun it =>
    match it.value with
    | some v => if k < key v then .atEnd t else it
    | none => .atEnd t

def upperBound (k : K) (t : Tree V) : Option (TreeIterator V) :=
  (t.lowerBound key k).bind fun it =>
    match it.value with
    | some v => if k < key v then some it else it.next
    | none => some it

end Search

/-! ### Paths -/

/-- The nodes from the `i`-th entry, counted from the given side, up to the root. -/
def path (side : Side) : Tree V → ℕ → List (Tree V)
  | terminator, _ => []
  | node left right value height, i =>
    match side with
    | .left =>
      if i < left.size then left.path side i ++ [node left right value height]
      else if i = left.size then [node left right value height]
      else right.path side (i - left.size - 1) ++ [node left right value height]
    | .right =>
      if i < right.size then right.path side i ++ [node left right value height]
      else if i = right.size then [node left right value height]
      else left.path side (i - right.size - 1) ++ [node left right value height]

lemma path_node (side : Side) (left right : Tree V) (value : V) (height i : ℕ) :
    (node left right value height).path side i =
      let t := node left right value height
      if i < (t.child side).size then (t.child side).path side i ++ [t]
      else if i = (t.child side).size then [t]
      else (t.child side.other).path side (i - (t.child side).size - 1) ++ [t] := by
  cases side <;> rfl

lemma size_node (side : Side) (left right : Tree V) (value : V) (height : ℕ) :
    (node left right value height).size = ((node left right value height).child side).size + 1 +
        ((node left right value height).child side.other).size := by
  cases side
  · rfl
  · simp only [size, child, Tree.right, Tree.left, Side.other]
    omega

lemma pushSpine_node (side : Side) (left right : Tree V) (value : V) (height : ℕ)
    (stack : FixedStack (Tree V)) :
    (node left right value height).pushSpine side stack =
      (stack.pushBack (node left right value height)).bind
        (((node left right value height).child side).pushSpine side) := by
  cases side <;> rfl

/-- Induction for both children at once. -/
lemma child_induction {motive : Tree V → Prop} (terminator : motive .terminator)
    (node : ∀ left right value height,
      (∀ side, motive ((node left right value height).child side)) →
        motive (.node left right value height)) (t : Tree V) : motive t := by
  induction t with
  | terminator => exact terminator
  | node left right value height ihl ihr =>
    refine node left right value height fun side => ?_
    cases side
    · exact ihl
    · exact ihr

lemma Balanced.child {t : Tree V} (h : t.Balanced) (side : Side) : (t.child side).Balanced := by
  cases t with
  | terminator => cases side <;> exact trivial
  | node left right value height =>
    cases side
    · exact h.2.2.2.1
    · exact h.2.2.2.2

lemma Balanced.child_height_lt {left right : Tree V} {value : V} {height : ℕ}
    (h : (node left right value height).Balanced) (side : Side) :
    ((node left right value height).child side).height < height := by
  obtain ⟨rfl, -⟩ := h
  cases side
  · exact Nat.lt_succ_of_le (le_max_left _ _)
  · exact Nat.lt_succ_of_le (le_max_right _ _)

lemma size_eq_zero {t : Tree V} : t.size = 0 ↔ t = terminator := by
  rw [← length_toList, length_eq_zero_iff, toList_eq_nil]

lemma pushBack_eq {stack : FixedStack (Tree V)} (h : stack.elts.length < stack.max) (n : Tree V) :
    stack.pushBack n = some { stack with elts := n :: stack.elts } := if_pos h

lemma pushSpine_child {side : Side} {t : Tree V} (h : t ≠ terminator)
    {stack : FixedStack (Tree V)} :
    t.pushSpine side stack = (stack.pushBack t).bind ((t.child side).pushSpine side) := by
  cases t with
  | terminator => exact absurd rfl h
  | node left right value height => exact pushSpine_node side left right value height stack

/-- The pushes end at the first entry. -/
lemma pushSpine_eq (side : Side) (t : Tree V) (h : t.Balanced) (stack : FixedStack (Tree V))
    (hmax : stack.elts.length + t.height ≤ stack.max) :
    t.pushSpine side stack = some { stack with elts := t.path side 0 ++ stack.elts } := by
  induction t using child_induction generalizing stack with
  | terminator => rfl
  | node left right value height ih =>
    have hlt := h.child_height_lt side
    rw [height_node] at hmax
    rw [pushSpine_node, pushBack_eq (by omega), Option.bind_some,
      ih side (h.child side) _ (by simp only [length_cons]; omega), path_node]
    dsimp only
    split_ifs with hpos hzero
    · simp
    · simp [size_eq_zero.1 hzero.symm, path]
    · omega

lemma toList_child_nodup {t : Tree V} (h : t.toList.Nodup) (side : Side) :
    (t.child side).toList.Nodup := by
  cases t with
  | terminator => cases side <;> exact nodup_nil
  | node left right value height =>
    rw [toList, nodup_append, nodup_cons] at h
    cases side
    · exact h.1
    · exact h.2.1.2

/-- The children of a node differ, unless there are none. -/
lemma child_ne {left right : Tree V} {value : V} {height : ℕ}
    (h : (node left right value height).toList.Nodup) (side : Side)
    (hne : (node left right value height).child side.other ≠ terminator) :
    (node left right value height).child side.other ≠
      (node left right value height).child side := by
  have hsame : left = right → left = terminator := by
    rintro rfl
    by_contra hleft
    obtain ⟨v, hv⟩ := exists_mem_of_ne_nil _ (mt toList_eq_nil.1 hleft)
    rw [toList, nodup_append] at h
    exact h.2.2 v hv v (mem_cons_of_mem _ hv) rfl
  cases side
  · exact fun heq : right = left => hne (heq.trans (hsame heq.symm))
  · exact fun heq : left = right => hne (hsame heq)

open TreeIterator (ascend step)

variable [DecidableEq V]

/-- A step goes to the next entry of a subtree, or leaves it after its last one. -/
theorem step_path (side : Side) (t : Tree V) (h : t.Balanced) (hnodup : t.toList.Nodup) (m : ℕ)
    (above : List (Tree V)) (hmax : above.length + t.height ≤ m) {i : ℕ} (hi : i < t.size) :
    step side ⟨m, t.path side i ++ above⟩ =
      some ⟨m, if i + 1 < t.size then t.path side (i + 1) ++ above else ascend side t above⟩ := by
  induction t using child_induction generalizing i above with
  | terminator => exact absurd hi (Nat.not_lt_zero _)
  | node left right value height ih =>
    have hnear := h.child_height_lt side
    have hfar := h.child_height_lt side.other
    have hsize := size_node side left right value height
    rw [height_node] at hmax
    have hne := child_ne hnodup side
    have ih1 := @ih side (h.child side) (toList_child_nodup hnodup side)
    have ih2 := @ih side.other (h.child side.other) (toList_child_nodup hnodup side.other)
    simp only [path_node]
    generalize hnear : (node left right value height).child side = near at *
    generalize hfar : (node left right value height).child side.other = far at *
    generalize ht : node left right value height = t at *
    rcases Nat.lt_trichotomy i near.size with hlt | rfl | hgt
    · -- in the nearer child, whose last entry is followed by the node
      have hin : i + 1 < t.size := by omega
      rw [if_pos hlt, append_assoc, singleton_append,
        ih1 (t :: above) (by simp only [length_cons]; omega) hlt]
      by_cases hnext : i + 1 < near.size
      · simp [hin, hnext]
      · have heq : i + 1 = near.size := by omega
        rw [if_neg hnext, if_pos hin, if_neg hnext, if_pos heq, ascend, hnear, if_pos rfl]
        rfl
    · -- at the node, which is followed by the first entry of the farther child
      rw [if_neg (lt_irrefl _), if_pos rfl, singleton_append, step]
      dsimp only
      rw [hfar]
      by_cases hnil : far = terminator
      · rw [if_pos hnil, if_neg (by simp [hsize, hnil, size])]
      · have hpos : 0 < far.size := Nat.pos_of_ne_zero (mt size_eq_zero.1 hnil)
        have hin : near.size + 1 < t.size := by omega
        rw [if_neg hnil, if_pos hin, if_neg (by omega), if_neg (by omega),
          ← pushSpine_child hnil, pushSpine_eq side far (hfar ▸ h.child side.other)]
        · simp
        · simp only [length_cons]
          omega
    · -- in the farther child, whose last entry is the last of the subtree
      rw [if_neg (by omega), if_neg (by omega), append_assoc, singleton_append,
        ih2 (t :: above) (by simp only [length_cons]; omega) (by omega)]
      have hdiff : i + 1 - near.size - 1 = i - near.size - 1 + 1 := by omega
      by_cases hnext : i + 1 < t.size
      · rw [if_pos hnext, if_pos (by omega), if_neg (by omega), if_neg (by omega), hdiff]
        simp
      · have hfarne : far ≠ terminator := by
          rintro rfl
          simp [size] at hsize
          omega
        rw [if_neg hnext, if_neg (by omega), ascend, hnear, if_neg (hne hfarne)]

omit [DecidableEq V] in
/-- The same entry counted from the two sides. -/
lemma path_right (t : Tree V) {i : ℕ} (hi : i < t.size) :
    t.path .right i = t.path .left (t.size - 1 - i) := by
  induction t generalizing i with
  | terminator => exact absurd hi (Nat.not_lt_zero _)
  | node left right value height ihl ihr =>
    rw [size] at hi ⊢
    simp only [path]
    rcases Nat.lt_trichotomy i right.size with hlt | rfl | hgt
    · rw [if_pos hlt, ihr hlt, if_neg (by omega), if_neg (by omega)]
      congr 2
      omega
    · rw [if_neg (lt_irrefl _), if_pos rfl, if_neg (by omega), if_pos (by omega)]
    · rw [if_neg (by omega), if_neg (by omega), if_pos (by omega), ihl (by omega)]
      congr 2
      omega

omit [DecidableEq V] in
/-- The last node of the path has the entry. -/
lemma head_path (t : Tree V) {i : ℕ} (hi : i < t.size) :
    ∃ left right value height rest, t.path .left i = node left right value height :: rest ∧
      t.toList[i]? = some value := by
  induction t generalizing i with
  | terminator => exact absurd hi (Nat.not_lt_zero _)
  | node left right value height ihl ihr =>
    rw [size] at hi
    simp only [path, toList]
    rcases Nat.lt_trichotomy i left.size with hlt | rfl | hgt
    · obtain ⟨l, r, v, h, rest, hpath, hv⟩ := ihl hlt
      rw [if_pos hlt, hpath, List.getElem?_append_left (by rwa [length_toList])]
      exact ⟨l, r, v, h, _, rfl, hv⟩
    · refine ⟨left, right, value, height, [], by simp, ?_⟩
      rw [← length_toList, List.getElem?_append_right le_rfl]
      simp
    · obtain ⟨l, r, v, h, rest, hpath, hv⟩ := ihr (i := i - left.size - 1) (by omega)
      rw [if_neg (by omega), if_neg (by omega), hpath,
        List.getElem?_append_right (by rw [length_toList]; omega), length_toList]
      refine ⟨l, r, v, h, _, rfl, ?_⟩
      rw [← hv, show i - left.size = i - left.size - 1 + 1 by omega]
      rfl

end Tree

/-! ### Positions -/

namespace TreeIterator

variable {V K : Type} {t : Tree V} {i : ℕ}

/-- The iterator at the `i`-th entry, or at the end if there is none. -/
def at' (t : Tree V) (i : ℕ) : TreeIterator V :=
  ⟨t, t.height, if i < t.size then t.path .left i else []⟩

lemma at_size (t : Tree V) : at' t t.size = atEnd t := by
  simp [at', atEnd]

lemma value_at (t : Tree V) (i : ℕ) : (at' t i).value = t.toList[i]? := by
  unfold at' value
  by_cases hi : i < t.size
  · obtain ⟨l, r, v, h, rest, hpath, hv⟩ := t.head_path hi
    simp only [if_pos hi, hpath, hv]
  · rw [List.getElem?_eq_none (by rw [Tree.length_toList]; omega)]
    simp [hi]

lemma atBeginning_eq (h : t.Balanced) : atBeginning t = some (at' t 0) := by
  rw [atBeginning, Tree.pushSpine_eq .left t h _ (by simp), at']
  by_cases hpos : 0 < t.size
  · simp [hpos]
  · have hnil : t = .terminator := Tree.size_eq_zero.1 (by omega)
    simp [hnil, Tree.path, Tree.size]

variable [DecidableEq V]

theorem next_at (h : t.Balanced) (hnodup : t.toList.Nodup) (hi : i < t.size) :
    (at' t i).next = some (at' t (i + 1)) := by
  have hstep := Tree.step_path .left t h hnodup t.height [] (by simp) hi
  rw [append_nil] at hstep
  rw [next, at', if_pos hi, hstep]
  simp [at', ascend]

lemma prev_atEnd (h : t.Balanced) : (atEnd t).prev = some (at' t (t.size - 1)) := by
  rw [prev, atEnd]
  dsimp only
  rw [Tree.pushSpine_eq .right t h _ (by simp), at']
  by_cases hpos : 0 < t.size
  · rw [Tree.path_right t hpos, if_pos (by omega)]
    simp
  · have hnil : t = .terminator := Tree.size_eq_zero.1 (by omega)
    simp [hnil, Tree.path, Tree.size]

/-- A step back leads to the entry before, and from the first entry to the end. -/
lemma prev_at_of_lt (h : t.Balanced) (hnodup : t.toList.Nodup) (hi : i < t.size) :
    (at' t i).prev = some (if i = 0 then atEnd t else at' t (i - 1)) := by
  have hcount : t.size - 1 - i < t.size := by omega
  have hstep := Tree.step_path .right t h hnodup t.height [] (by simp) hcount
  have hpath : t.path .right (t.size - 1 - i) = t.path .left i := by
    rw [Tree.path_right t hcount]
    congr 1
    omega
  obtain ⟨l, r, v, hv, rest, hhead, -⟩ := t.head_path hi
  rw [append_nil, hpath] at hstep
  rw [prev, at', if_pos hi]
  simp only [hhead] at hstep ⊢
  rw [hstep]
  by_cases hzero : i = 0
  · rw [if_neg (by omega), if_pos hzero]
    rfl
  · rw [if_pos (by omega), if_neg hzero, append_nil, Tree.path_right t (by omega), at',
      if_pos (by omega)]
    simp only [Option.map_some, Option.some.injEq, mk.injEq, FixedStack.mk.injEq, true_and]
    congr 1
    omega

theorem prev_at (h : t.Balanced) (hnodup : t.toList.Nodup) (hi : i < t.size) :
    (at' t (i + 1)).prev = some (at' t i) := by
  by_cases hlast : i + 1 < t.size
  · rw [prev_at_of_lt h hnodup hlast, if_neg (Nat.succ_ne_zero i), Nat.add_sub_cancel]
  · obtain heq : i + 1 = t.size := by omega
    rw [heq, at_size, prev_atEnd h, ← heq, Nat.add_sub_cancel]

end TreeIterator

/-! ### Searches -/

namespace Tree

variable {V K : Type} [LinearOrder K] {key : V → K} {t : Tree V}

open SortedMap (Sorted sorted_split)

/-- The loop of `lower_bound` ends at the key, or at an entry next to where it would be. -/
lemma descend_spec (h : t.Balanced) (hsorted : Sorted key t.toList) (k : K) (m : ℕ)
    (above : List (Tree V)) (hmax : above.length + t.height ≤ m) (hne : t ≠ terminator) :
    ∃ j v found, t.descend key k ⟨m, above⟩ = some (⟨m, t.path .left j ++ above⟩, found) ∧
      t.toList[j]? = some v ∧
      ((found = true ∨ k < key v) ∧ k ≤ key v ∧ j = SortedMap.lowerBound key k t.toList ∨
        found = false ∧ key v < k ∧ j + 1 = SortedMap.lowerBound key k t.toList) := by
  induction t generalizing above with
  | terminator => exact absurd rfl hne
  | node left right value height ihl ihr =>
    have hheight := h
    obtain ⟨rfl, -, -, hl, hr⟩ := hheight
    rw [height_node] at hmax
    rw [toList] at hsorted ⊢
    obtain ⟨hsl, hsr, hlv, hvr⟩ := sorted_split.1 hsorted
    rw [descend, pushBack_eq (by simp only; omega), Option.bind_some]
    dsimp only
    have hself : ∀ {above : List (Tree V)},
        (node left right value (Max.max left.height right.height + 1)).path .left left.size ++
          above = node left right value (Max.max left.height right.height + 1) :: above := by
      simp [path]
    have hvalue : (left.toList ++ value :: right.toList)[left.size]? = some value := by
      rw [← length_toList, List.getElem?_append_right le_rfl]
      simp
    split_ifs with hlt hgt
    · rw [SortedMap.lowerBound_left hsorted hlt.le]
      by_cases hnil : left = terminator
      · subst hnil
        exact ⟨_, value, false, by rw [hself]; rfl, hvalue, Or.inl ⟨Or.inr hlt, hlt.le, rfl⟩⟩
      · obtain ⟨j, v, found, hrun, hv, hcases⟩ := ihl hl hsl (_ :: above)
          (by simp only [length_cons]; omega) hnil
        have hj : j < left.size := by
          rw [← length_toList]
          exact (List.getElem?_eq_some_iff.1 hv).1
        refine ⟨j, v, found, ?_, ?_, hcases⟩
        · rw [hrun, path]
          simp [hj]
        · rwa [List.getElem?_append_left (by rwa [length_toList])]
    · rw [SortedMap.lowerBound_right hsorted hgt, length_toList]
      by_cases hnil : right = terminator
      · subst hnil
        exact ⟨_, value, false, by rw [hself]; rfl, hvalue, Or.inr ⟨rfl, hgt, rfl⟩⟩
      · obtain ⟨j, v, found, hrun, hv, hcases⟩ := ihr hr hsr (_ :: above)
          (by simp only [length_cons]; omega) hnil
        refine ⟨left.size + 1 + j, v, found, ?_, ?_, hcases.imp
          (And.imp_right <| And.imp_right <| congrArg (left.size + 1 + ·))
          (And.imp_right <| And.imp_right <| congrArg (left.size + 1 + ·))⟩
        · rw [hrun, path]
          simp only [show ¬ left.size + 1 + j < left.size by omega,
            show ¬ left.size + 1 + j = left.size by omega, if_false,
            show left.size + 1 + j - left.size - 1 = j by omega, append_assoc,
            singleton_append]
        · rw [List.getElem?_append_right (by rw [length_toList]; omega), length_toList,
            show left.size + 1 + j - left.size = j + 1 by omega, List.getElem?_cons_succ, hv]
    · obtain rfl : k = key value := le_antisymm (not_lt.1 hgt) (not_lt.1 hlt)
      refine ⟨left.size, value, true, by rw [hself], hvalue, Or.inl ⟨Or.inl rfl, le_rfl, ?_⟩⟩
      rw [SortedMap.lowerBound_left hsorted le_rfl, SortedMap.lowerBound_eq_length hlv,
        length_toList]

lemma nodup_of_sorted (h : Sorted key t.toList) : t.toList.Nodup :=
  h.imp fun hlt heq => hlt.ne (congrArg key heq)

variable [DecidableEq V]

theorem lowerBound_eq (h : t.Balanced) (hsorted : Sorted key t.toList) (k : K) :
    t.lowerBound key k = some (.at' t (SortedMap.lowerBound key k t.toList)) := by
  by_cases hne : t = terminator
  · subst hne
    rfl
  · obtain ⟨j, v, found, hrun, hv, hcases⟩ := descend_spec h hsorted k t.height [] (by simp) hne
    have hj : j < t.size := by
      rw [← length_toList]
      exact (List.getElem?_eq_some_iff.1 hv).1
    have hat : (⟨t, t.height, t.path .left j ++ []⟩ : TreeIterator V) = .at' t j := by
      simp [TreeIterator.at', hj]
    rw [lowerBound, hrun, Option.bind_some]
    dsimp only
    rw [hat, TreeIterator.value_at, hv]
    rcases hcases with ⟨hfound, hle, rfl⟩ | ⟨rfl, hlt, hlow⟩
    · simp [not_lt.2 hle]
    · rw [if_neg Bool.false_ne_true]
      dsimp only
      rw [if_pos hlt, TreeIterator.next_at h (nodup_of_sorted hsorted) hj, hlow]

/-- `find` gives the entry of the key or the end. -/
theorem find_eq (h : t.Balanced) (hsorted : Sorted key t.toList) (k : K) :
    t.find key k = some (.at' t (if (SortedMap.lookup key k t.toList).isSome then
      SortedMap.lowerBound key k t.toList else t.size)) := by
  rw [find, lowerBound_eq h hsorted, Option.map_some, TreeIterator.value_at]
  rcases hsorted.getElem?_lowerBound k with
    ⟨v, hv, rfl, hlookup, -⟩ | ⟨v, hv, hlt, hlookup, -⟩ | ⟨hlen, hlookup, -⟩
  · simp [hv, hlookup]
  · simp [hv, hlookup, hlt, TreeIterator.at_size]
  · simp [hlen, hlookup, TreeIterator.at_size]

theorem upperBound_eq (h : t.Balanced) (hsorted : Sorted key t.toList) (k : K) :
    t.upperBound key k = some (.at' t (SortedMap.upperBound key k t.toList)) := by
  rw [upperBound, lowerBound_eq h hsorted, Option.bind_some, TreeIterator.value_at]
  rcases hsorted.getElem?_lowerBound k with
    ⟨v, hv, rfl, -, hupper⟩ | ⟨v, hv, hlt, -, hupper⟩ | ⟨hlen, -, hupper⟩
  · have hlt : SortedMap.lowerBound key (key v) t.toList < t.size := by
      rw [← length_toList]
      exact (List.getElem?_eq_some_iff.1 hv).1
    rw [hv, hupper, ← TreeIterator.next_at h (nodup_of_sorted hsorted) hlt]
    simp
  · simp [hv, hupper, hlt]
  · simp [hlen, hupper]

end Tree

end Castan
