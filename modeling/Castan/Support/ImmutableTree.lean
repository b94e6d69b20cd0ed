/-
# Immutable balanced trees

The nodes of `ImmutableTree` and the operations that make a new version from an old one.  A node
stores its height.  We prove that the entries of a new version are those of the operation on the
sorted list of the entries, that stored heights are exact and that the heights of siblings differ
by at most 2.
-/
import Castan.Lib.SortedMap

namespace Castan

open List SortedMap

/-- A node.  The children of the terminator are the terminator. -/
inductive Tree (V : Type)
  | terminator
  | node (left right : Tree V) (value : V) (height : ℕ)
deriving DecidableEq

namespace Tree

variable {V K : Type}

def height : Tree V → ℕ
  | terminator => 0
  | node _ _ _ height => height

def left : Tree V → Tree V
  | terminator => terminator
  | node left _ _ _ => left

def right : Tree V → Tree V
  | terminator => terminator
  | node _ right _ _ => right

/-- The constructor of a node. -/
def mk (left right : Tree V) (value : V) : Tree V :=
  node left right value (max left.height right.height + 1)

/-- `Node::balance`.  A terminator is not higher than another node. -/
def balance (left : Tree V) (value : V) (right : Tree V) : Tree V :=
  if right.height + 2 < left.height then
    match left with
    | terminator => mk left right value
    | node ll lr leftValue _ =>
      if lr.height ≤ ll.height then mk ll (mk lr right value) leftValue
      else
        match lr with
        | terminator => mk left right value
        | node lrl lrr lrValue _ => mk (mk ll lrl leftValue) (mk lrr right value) lrValue
  else if left.height + 2 < right.height then
    match right with
    | terminator => mk left right value
    | node rl rr rightValue _ =>
      if rl.height ≤ rr.height then mk (mk left rl value) rr rightValue
      else
        match rl with
        | terminator => mk left right value
        | node rll rlr rlValue _ => mk (mk left rll value) (mk rlr rr rightValue) rlValue
  else mk left right value

def size : Tree V → ℕ
  | terminator => 0
  | node left right _ _ => left.size + 1 + right.size

/-- `Node::popMin`.  Of the terminator there is nothing to take. -/
def popMin : Tree V → Option V × Tree V
  | terminator => (none, terminator)
  | node terminator right value _ => (some value, right)
  | node left@(node ..) right value _ => (left.popMin.1, balance left.popMin.2 value right)

/-- `Node::popMax` -/
def popMax : Tree V → Option V × Tree V
  | terminator => (none, terminator)
  | node left terminator value _ => (some value, left)
  | node left right@(node ..) value _ => (right.popMax.1, balance left value right.popMax.2)

/-- The children of a node that is removed. -/
def join : Tree V → Tree V → Tree V
  | terminator, right => right
  | left, terminator => left
  | left, right =>
    match right.popMin with
    | (some min, nr) => balance left min nr
    | (none, _) => left

section Keys

variable [LinearOrder K] (key : V → K)

/-- `Node::insert` -/
def insert (v : V) : Tree V → Tree V
  | terminator => mk terminator terminator v
  | node left right value height =>
    if key v < key value then balance (left.insert v) value right
    else if key value < key v then balance left value (right.insert v)
    else node left right value height

/-- `Node::replace` -/
def replace (v : V) : Tree V → Tree V
  | terminator => mk terminator terminator v
  | node left right value _ =>
    if key v < key value then balance (left.replace v) value right
    else if key value < key v then balance left value (right.replace v)
    else mk left right v

/-- `Node::remove` -/
def remove (k : K) : Tree V → Tree V
  | terminator => terminator
  | node left right value _ =>
    if k < key value then balance (left.remove k) value right
    else if key value < k then balance left value (right.remove k)
    else join left right

def lookup (k : K) : Tree V → Option V
  | terminator => none
  | node left right value _ =>
    if k < key value then left.lookup k
    else if key value < k then right.lookup k
    else some value

/-- The loop of `lookup_previous`, with its variable `result`. -/
def lookupPreviousFrom (k : K) : Tree V → Option V → Option V
  | terminator, result => result
  | node left right value _, result =>
    if k < key value then left.lookupPreviousFrom k result
    else if key value < k then right.lookupPreviousFrom k (some value)
    else some value

def lookupPrevious (k : K) (t : Tree V) : Option V := t.lookupPreviousFrom key k none

end Keys

/-- `ImmutableTree::min`, with `none` for the failed assertion. -/
protected def min : Tree V → Option V
  | terminator => none
  | node terminator _ value _ => some value
  | node left@(node ..) _ _ _ => left.min

protected def max : Tree V → Option V
  | terminator => none
  | node _ terminator value _ => some value
  | node _ right@(node ..) _ _ => right.max

/-! ### Entries -/

/-- The entries from left to right. -/
def toList : Tree V → List V
  | terminator => []
  | node left right value _ => left.toList ++ value :: right.toList

lemma length_toList (t : Tree V) : t.toList.length = t.size := by
  induction t with
  | terminator => rfl
  | node left right value height ihl ihr =>
    simp only [toList, size, length_append, length_cons, ihl, ihr]
    omega

@[simp] lemma toList_mk (left right : Tree V) (value : V) :
    (mk left right value).toList = left.toList ++ value :: right.toList := rfl

@[simp] lemma toList_balance (left : Tree V) (value : V) (right : Tree V) :
    (balance left value right).toList = left.toList ++ value :: right.toList := by
  fun_cases balance left value right <;> simp [toList]

lemma toList_eq_nil {t : Tree V} : t.toList = [] ↔ t = terminator := by
  cases t <;> simp [toList]

lemma popMin_eq (t : Tree V) :
    t.popMin.1 = t.toList.head? ∧ t.popMin.2.toList = t.toList.tail := by
  fun_induction popMin t with
  | case1 => exact ⟨rfl, rfl⟩
  | case2 right value height => exact ⟨rfl, rfl⟩
  | case3 l r v h right value height ih =>
    have hne : (node l r v h).toList ≠ [] := by simp [toList]
    rw [toList_balance, toList, head?_append_of_ne_nil _ hne, tail_append_of_ne_nil hne]
    exact ⟨ih.1, by rw [ih.2]⟩

lemma popMax_eq (t : Tree V) :
    t.popMax.1 = t.toList.getLast? ∧ t.popMax.2.toList = t.toList.dropLast := by
  fun_induction popMax t with
  | case1 => exact ⟨rfl, rfl⟩
  | case2 left value height => simp [toList]
  | case3 left l r v h value height ih =>
    have hne : (node l r v h).toList ≠ [] := by simp [toList]
    rw [toList_balance, toList, getLast?_append_of_ne_nil _ (cons_ne_nil _ _),
      getLast?_cons_of_ne_nil hne, dropLast_append_of_ne_nil (cons_ne_nil _ _),
      dropLast_cons_of_ne_nil hne]
    exact ⟨ih.1, by rw [ih.2]⟩

lemma toList_join (left right : Tree V) :
    (join left right).toList = left.toList ++ right.toList := by
  fun_cases join left right with
  | case1 right => rfl
  | case2 left _ => simp [toList]
  | case3 left right _ _ min nr hpop =>
    obtain ⟨hmin, hrest⟩ := popMin_eq right
    rw [hpop] at hmin hrest
    rw [toList_balance, hrest, cons_head?_tail hmin.symm]
  | case4 left right _ hright nr hpop =>
    obtain ⟨hmin, -⟩ := popMin_eq right
    rw [hpop, eq_comm, head?_eq_none_iff, toList_eq_nil] at hmin
    exact absurd hmin hright

lemma min_eq (t : Tree V) : t.min = t.toList.head? := by
  fun_induction Tree.min t with
  | case1 => rfl
  | case2 right value height => rfl
  | case3 l r v h right value height ih =>
    rw [ih, toList.eq_2 (node l r v h), head?_append_of_ne_nil _ (by simp [toList])]

lemma max_eq (t : Tree V) : t.max = t.toList.getLast? := by
  fun_induction Tree.max t with
  | case1 => rfl
  | case2 left value height => simp [toList]
  | case3 left l r v h value height ih =>
    rw [ih, toList.eq_2 left, getLast?_append_of_ne_nil _ (cons_ne_nil _ _),
      getLast?_cons_of_ne_nil (by simp [toList])]

/-! ### The operations on the entries -/

section Keys

variable [LinearOrder K] {key : V → K} {t : Tree V}

open SortedMap (Sorted sorted_split)

lemma toList_replace (h : Sorted key t.toList) (v : V) :
    (t.replace key v).toList = SortedMap.replace key v t.toList := by
  induction t with
  | terminator => rfl
  | node left right value height ihl ihr =>
    rw [toList] at h ⊢
    obtain ⟨hl, hr, -, -⟩ := sorted_split.1 h
    rw [replace]
    split_ifs with hlt hgt
    · rw [toList_balance, ihl hl, replace_left h hlt]
    · rw [toList_balance, ihr hr, replace_right h hgt]
    · rw [toList_mk, replace_self h (le_antisymm (not_lt.1 hgt) (not_lt.1 hlt))]

lemma toList_insert (h : Sorted key t.toList) (v : V) :
    (t.insert key v).toList = SortedMap.insert key v t.toList := by
  induction t with
  | terminator => rfl
  | node left right value height ihl ihr =>
    rw [toList] at h ⊢
    obtain ⟨hl, hr, -, -⟩ := sorted_split.1 h
    rw [insert]
    split_ifs with hlt hgt
    · rw [toList_balance, ihl hl, insert_left h hlt]
    · rw [toList_balance, ihr hr, insert_right h hgt]
    · rw [toList, insert_self h (le_antisymm (not_lt.1 hgt) (not_lt.1 hlt))]

lemma toList_remove (h : Sorted key t.toList) (k : K) :
    (t.remove key k).toList = SortedMap.remove key k t.toList := by
  induction t with
  | terminator => rfl
  | node left right value height ihl ihr =>
    rw [toList] at h ⊢
    obtain ⟨hl, hr, -, -⟩ := sorted_split.1 h
    rw [remove]
    split_ifs with hlt hgt
    · rw [toList_balance, ihl hl, remove_left h hlt]
    · rw [toList_balance, ihr hr, remove_right h hgt]
    · obtain rfl : k = key value := le_antisymm (not_lt.1 hgt) (not_lt.1 hlt)
      rw [remove_self h, toList_join]

lemma lookup_eq (h : Sorted key t.toList) (k : K) :
    t.lookup key k = SortedMap.lookup key k t.toList := by
  induction t with
  | terminator => rfl
  | node left right value height ihl ihr =>
    rw [toList] at h ⊢
    obtain ⟨hl, hr, -, -⟩ := sorted_split.1 h
    rw [lookup]
    split_ifs with hlt hgt
    · rw [ihl hl, lookup_left h hlt]
    · rw [ihr hr, lookup_right h hgt]
    · obtain rfl : k = key value := le_antisymm (not_lt.1 hgt) (not_lt.1 hlt)
      rw [lookup_self h]

lemma lookupPreviousFrom_eq (h : Sorted key t.toList) (k : K) (result : Option V) :
    t.lookupPreviousFrom key k result = (SortedMap.lookupPrevious key k t.toList).or result := by
  induction t generalizing result with
  | terminator => rfl
  | node left right value height ihl ihr =>
    rw [toList] at h ⊢
    obtain ⟨hl, hr, -, -⟩ := sorted_split.1 h
    rw [lookupPreviousFrom]
    split_ifs with hlt hgt
    · rw [ihl hl, SortedMap.lookupPrevious_left h hlt]
    · rw [ihr hr, SortedMap.lookupPrevious_right h hgt.le]
      cases SortedMap.lookupPrevious key k right.toList <;> rfl
    · obtain rfl : k = key value := le_antisymm (not_lt.1 hgt) (not_lt.1 hlt)
      rw [lookupPrevious_self h]
      rfl

lemma lookupPrevious_eq (h : Sorted key t.toList) (k : K) :
    t.lookupPrevious key k = SortedMap.lookupPrevious key k t.toList := by
  rw [lookupPrevious, lookupPreviousFrom_eq h, Option.or_none]

end Keys

/-! ### Heights -/

/-- Stored heights are exact, and the heights of siblings differ by at most 2. -/
def Balanced : Tree V → Prop
  | terminator => True
  | node left right _ height =>
    height = Max.max left.height right.height + 1 ∧ left.height ≤ right.height + 2 ∧
      right.height ≤ left.height + 2 ∧ left.Balanced ∧ right.Balanced

@[simp] lemma height_node (left right : Tree V) (value : V) (h : ℕ) :
    (node left right value h).height = h := rfl

@[simp] lemma height_mk (left right : Tree V) (value : V) :
    (mk left right value).height = Max.max left.height right.height + 1 := rfl

lemma balanced_mk {left right : Tree V} (hl : left.Balanced) (hr : right.Balanced)
    (h : left.height ≤ right.height + 2) (h' : right.height ≤ left.height + 2) (value : V) :
    (mk left right value).Balanced :=
  ⟨rfl, h, h', hl, hr⟩

/-- A rotation repairs a difference of 3, and the height grows by at most 1. -/
theorem balance_spec {left right : Tree V} (hl : left.Balanced) (hr : right.Balanced)
    (h : left.height ≤ right.height + 3) (h' : right.height ≤ left.height + 3) (value : V) :
    (balance left value right).Balanced ∧
      Max.max left.height right.height ≤ (balance left value right).height ∧
      (balance left value right).height ≤ Max.max left.height right.height + 1 ∧
      (left.height ≤ right.height + 2 → right.height ≤ left.height + 2 →
        (balance left value right).height = Max.max left.height right.height + 1) := by
  fun_cases balance left value right with
  | case1 right hlt => exact absurd hlt (Nat.not_lt_zero _)
  | case2 right ll lr leftValue leftHeight hle hlt =>
    obtain ⟨hheight, hb, hb', hll, hlr⟩ := hl
    simp only [height_node] at h h' hlt
    refine ⟨balanced_mk hll (balanced_mk hlr hr ?_ ?_ value) ?_ ?_ leftValue, ?_, ?_, ?_⟩ <;>
      try simp only [height_mk, height_node]
    all_goals omega
  | case3 right ll leftValue leftHeight hle hlt => exact absurd (Nat.zero_le _) hle
  | case4 right ll leftValue leftHeight lrl lrr lrValue lrHeight hle hlt =>
    obtain ⟨hheight, hb, hb', hll, hlrheight, hc, hc', hlrl, hlrr⟩ := hl
    simp only [height_node] at h h' hlt hheight hb hb' hle
    refine ⟨balanced_mk (balanced_mk hll hlrl ?_ ?_ leftValue) (balanced_mk hlrr hr ?_ ?_ value)
      ?_ ?_ lrValue, ?_, ?_, ?_⟩ <;> try simp only [height_mk, height_node]
    all_goals omega
  | case5 left hnot hlt => exact absurd hlt (Nat.not_lt_zero _)
  | case6 left rl rr rightValue rightHeight hle hnot hlt =>
    obtain ⟨hheight, hb, hb', hrl, hrr⟩ := hr
    simp only [height_node] at h h' hlt
    refine ⟨balanced_mk (balanced_mk hl hrl ?_ ?_ value) hrr ?_ ?_ rightValue, ?_, ?_, ?_⟩ <;>
      try simp only [height_mk, height_node]
    all_goals omega
  | case7 left rr rightValue rightHeight hle hnot hlt => exact absurd (Nat.zero_le _) hle
  | case8 left rr rightValue rightHeight rll rlr rlValue rlHeight hle hnot hlt =>
    obtain ⟨hheight, hb, hb', ⟨hrlheight, hc, hc', hrll, hrlr⟩, hrr⟩ := hr
    simp only [height_node] at h h' hlt hheight hb hb' hle
    refine ⟨balanced_mk (balanced_mk hl hrll ?_ ?_ value) (balanced_mk hrlr hrr ?_ ?_ rightValue)
      ?_ ?_ rlValue, ?_, ?_, ?_⟩ <;> try simp only [height_mk, height_node]
    all_goals omega
  | case9 left right hnot hnot' =>
    exact ⟨balanced_mk hl hr (by omega) (by omega) value, Nat.le_succ _, le_rfl, fun _ _ => rfl⟩

/-- A balanced tree that takes the place of one of height `n` and has grown by at most 1. -/
structure Grown (t : Tree V) (n : ℕ) : Prop where
  balanced : t.Balanced
  height_ge : n ≤ t.height
  height_le : t.height ≤ n + 1

/-- A balanced tree that takes the place of one of height `n` and has shrunk by at most 1. -/
structure Shrunk (t : Tree V) (n : ℕ) : Prop where
  balanced : t.Balanced
  height_le : t.height ≤ n
  height_ge : n ≤ t.height + 1

lemma Balanced.grown {t : Tree V} (h : t.Balanced) : t.Grown t.height :=
  ⟨h, le_rfl, Nat.le_succ _⟩

lemma Balanced.shrunk {t : Tree V} (h : t.Balanced) : t.Shrunk t.height :=
  ⟨h, le_rfl, Nat.le_succ _⟩

section Changed

variable {left right : Tree V} {n m : ℕ}

lemma balance_grown (hl : left.Grown n) (hr : right.Grown m) (h : n ≤ m + 2) (h' : m ≤ n + 2)
    (value : V) : (balance left value right).Grown (Max.max n m + 1) := by
  obtain ⟨hl, hln, hln'⟩ := hl
  obtain ⟨hr, hrm, hrm'⟩ := hr
  obtain ⟨hb, hlow, hup, hexact⟩ := balance_spec hl hr (by omega) (by omega) value
  refine ⟨hb, ?_, by omega⟩
  by_cases hd : left.height ≤ right.height + 2 ∧ right.height ≤ left.height + 2
  · rw [hexact hd.1 hd.2]
    omega
  · omega

lemma balance_shrunk (hl : left.Shrunk n) (hr : right.Shrunk m) (h : n ≤ m + 2) (h' : m ≤ n + 2)
    (value : V) : (balance left value right).Shrunk (Max.max n m + 1) := by
  obtain ⟨hl, hln, hln'⟩ := hl
  obtain ⟨hr, hrm, hrm'⟩ := hr
  obtain ⟨hb, hlow, hup, hexact⟩ := balance_spec hl hr (by omega) (by omega) value
  refine ⟨hb, by omega, ?_⟩
  by_cases hd : left.height ≤ right.height + 2 ∧ right.height ≤ left.height + 2
  · rw [hexact hd.1 hd.2]
    omega
  · omega

end Changed

section Keys

variable [LinearOrder K] {key : V → K}

theorem insert_grown {t : Tree V} (h : t.Balanced) (v : V) : (t.insert key v).Grown t.height := by
  induction t with
  | terminator => exact ⟨⟨rfl, by simp, by simp, trivial, trivial⟩, Nat.zero_le _, le_rfl⟩
  | node left right value height ihl ihr =>
    have hnode := h
    obtain ⟨rfl, hb, hb', hl, hr⟩ := h
    rw [insert]
    split_ifs
    · exact balance_grown (ihl hl) hr.grown hb hb' value
    · exact balance_grown hl.grown (ihr hr) hb hb' value
    · exact hnode.grown

theorem replace_grown {t : Tree V} (h : t.Balanced) (v : V) :
    (t.replace key v).Grown t.height := by
  induction t with
  | terminator => exact ⟨⟨rfl, by simp, by simp, trivial, trivial⟩, Nat.zero_le _, le_rfl⟩
  | node left right value height ihl ihr =>
    obtain ⟨rfl, hb, hb', hl, hr⟩ := h
    rw [replace]
    split_ifs
    · exact balance_grown (ihl hl) hr.grown hb hb' value
    · exact balance_grown hl.grown (ihr hr) hb hb' value
    · exact ⟨⟨rfl, hb, hb', hl, hr⟩, le_rfl, Nat.le_succ _⟩

end Keys

theorem popMin_shrunk {t : Tree V} (h : t.Balanced) : t.popMin.2.Shrunk t.height := by
  fun_induction popMin t with
  | case1 => exact h.shrunk
  | case2 right value height =>
    obtain ⟨rfl, hb, hb', -, hr⟩ := h
    exact ⟨hr, (le_max_right _ _).trans (Nat.le_succ _), by simp [height]⟩
  | case3 l r v lh right value height ih =>
    obtain ⟨rfl, hb, hb', hl, hr⟩ := h
    exact balance_shrunk (ih hl) hr.shrunk hb hb' value

theorem popMax_shrunk {t : Tree V} (h : t.Balanced) : t.popMax.2.Shrunk t.height := by
  fun_induction popMax t with
  | case1 => exact h.shrunk
  | case2 left value height =>
    obtain ⟨rfl, hb, hb', hl, -⟩ := h
    exact ⟨hl, (le_max_left _ _).trans (Nat.le_succ _), by simp [height]⟩
  | case3 left l r v rh value height ih =>
    obtain ⟨rfl, hb, hb', hl, hr⟩ := h
    exact balance_shrunk hl.shrunk (ih hr) hb hb' value

lemma join_shrunk {left right : Tree V} (hl : left.Balanced) (hr : right.Balanced)
    (h : left.height ≤ right.height + 2) (h' : right.height ≤ left.height + 2) :
    (join left right).Shrunk (Max.max left.height right.height + 1) := by
  fun_cases join left right with
  | case1 right => exact ⟨hr, by omega, by simp [height]⟩
  | case2 left _ => exact ⟨hl, by omega, by simp [height]⟩
  | case3 left right _ _ min nr hpop =>
    have hnr := popMin_shrunk hr
    rw [hpop] at hnr
    exact balance_shrunk hl.shrunk hnr h h' min
  | case4 left right _ hright nr hpop =>
    obtain ⟨hmin, -⟩ := popMin_eq right
    rw [hpop, eq_comm, head?_eq_none_iff, toList_eq_nil] at hmin
    exact absurd hmin hright

theorem remove_shrunk [LinearOrder K] {key : V → K} {t : Tree V} (h : t.Balanced) (k : K) :
    (t.remove key k).Shrunk t.height := by
  induction t with
  | terminator => exact h.shrunk
  | node left right value height ihl ihr =>
    obtain ⟨rfl, hb, hb', hl, hr⟩ := h
    rw [remove]
    split_ifs
    · exact balance_shrunk (ihl hl) hr.shrunk hb hb' value
    · exact balance_shrunk hl.shrunk (ihr hr) hb hb' value
    · exact join_shrunk hl hr hb hb'

end Tree

end Castan
