/-
# Maps of sets

`MapOfSets` stores values under finite sets as a tree whose paths are the sets in increasing
order.  Besides the exact lookup it finds a value stored under a subset or under a superset of a
given set.
-/
import Castan.Lib.Instances

namespace Castan

open Option

mutual

/-- `MapOfSets::Node`; there is a value if `isEndOfSet`. -/
inductive SetNode (K V : Type)
  | mk (value : Option V) (children : SetChildren K V)

/-- The map `children`, in the order of its keys. -/
inductive SetChildren (K V : Type)
  | nil
  | cons (key : K) (child : SetNode K V) (rest : SetChildren K V)

end

/-- Induction along the children of one node. -/
@[elab_as_elim, induction_eliminator]
lemma SetChildren.children_induction {K V : Type} {motive : SetChildren K V → Prop}
    (nil : motive .nil)
    (cons : ∀ key child rest, motive rest → motive (.cons key child rest)) :
    ∀ children, motive children
  | .nil => nil
  | .cons key child rest => cons key child rest (children_induction nil cons rest)

variable {K V : Type} [LinearOrder K]

/-! ### The tree -/

def SetNode.empty : SetNode K V := .mk none .nil

namespace SetChildren

/-- `children.find(k)`. -/
def find (k : K) : SetChildren K V → Option (SetNode K V)
  | nil => none
  | cons key child rest => if key = k then some child else rest.find k

/-- Change the child of `k`, which is inserted first if there is none. -/
def upsert (k : K) (f : SetNode K V → SetNode K V) : SetChildren K V → SetChildren K V
  | nil => cons k (f .empty) nil
  | cons key child rest =>
      if k < key then cons k (f .empty) (cons key child rest)
      else if k = key then cons key (f child) rest
      else cons key child (rest.upsert k f)

end SetChildren

namespace SetNode

/-- `MapOfSets::insert` along a path. -/
def insert : List K → V → SetNode K V → SetNode K V
  | [], v, mk _ children => mk (some v) children
  | k :: ks, v, mk value children => mk value (children.upsert k (insert ks v))

/-- `MapOfSets::lookup` along a path. -/
def lookup : List K → SetNode K V → Option V
  | [], mk value _ => value
  | k :: ks, mk _ children =>
      match children.find k with
      | some child => lookup ks child
      | none => none

end SetNode

mutual

/-- `MapOfSets::findSubset`: the first value that satisfies `p` under a subset of `set`. -/
def SetNode.findSubset (p : V → Bool) : SetNode K V → (set : List K) → Option V
  | .mk value children, set =>
      match value.filter p with
      | some v => some v
      | none => children.scan p set

/-- The loop of `findSubset`, which advances in the children and in the set side by side. -/
def SetChildren.scan (p : V → Bool) : SetChildren K V → (set : List K) → Option V
  | .nil, _ => none
  | .cons key child rest, set =>
      match set.dropWhile (· < key) with
      | [] => none
      | x :: xs =>
          if x = key then (child.findSubset p xs).or (rest.scan p xs)
          else rest.scan p (x :: xs)

end

mutual

/-- `MapOfSets::findSuperset`: the first value that satisfies `p` under a superset of `set`. -/
def SetNode.findSuperset (p : V → Bool) : SetNode K V → (set : List K) → Option V
  | .mk value children, [] => (value.filter p).or (children.firstSuperset p [])
  | .mk _ children, x :: xs =>
      (children.firstSuperset p (x :: xs)).or (children.supersetAt p x xs)

/-- The loop of `findSuperset` over all children. -/
def SetChildren.firstSuperset (p : V → Bool) : SetChildren K V → (set : List K) → Option V
  | .nil, _ => none
  | .cons _ child rest, set => (child.findSuperset p set).or (rest.firstSuperset p set)

/-- The child of the first element of the set. -/
def SetChildren.supersetAt (p : V → Bool) (x : K) : SetChildren K V → (set : List K) → Option V
  | .nil, _ => none
  | .cons key child rest, set =>
      if key = x then child.findSuperset p set else rest.supersetAt p x set

end

/-! ### Sorted trees -/

/-- All keys are above `k`. -/
def SetChildren.Above (k : K) : SetChildren K V → Prop
  | .nil => True
  | .cons key _ rest => k < key ∧ rest.Above k

mutual

/-- The children of every node are in increasing order. -/
def SetNode.Sorted : SetNode K V → Prop
  | .mk _ children => children.Sorted

def SetChildren.Sorted : SetChildren K V → Prop
  | .nil => True
  | .cons key child rest => child.Sorted ∧ rest.Above key ∧ rest.Sorted

end

namespace SetChildren

variable {children : SetChildren K V} {k k' : K} {f : SetNode K V → SetNode K V}

lemma Above.trans (h : children.Above k) (hk : k' < k) : children.Above k' := by
  induction children with
  | nil => trivial
  | cons key child rest ih => exact ⟨hk.trans h.1, ih h.2⟩

lemma Above.find_eq_none (h : children.Above k) : children.find k = none := by
  induction children with
  | nil => rfl
  | cons key child rest ih => rw [find, if_neg h.1.ne', ih h.2]

lemma Above.lt (h : children.Above k) {n : SetNode K V} (hn : children.find k' = some n) :
    k < k' := by
  induction children with
  | nil => simp [find] at hn
  | cons key child rest ih =>
    rw [find] at hn
    split at hn
    · next hkey => exact hkey ▸ h.1
    · exact ih h.2 hn

lemma Sorted.child (h : children.Sorted) {n : SetNode K V} (hn : children.find k = some n) :
    n.Sorted := by
  induction children with
  | nil => simp [find] at hn
  | cons key child rest ih =>
    rw [find] at hn
    split at hn
    · obtain rfl := Option.some.inj hn
      exact h.1
    · exact ih h.2.2 hn

lemma above_upsert (h : children.Above k) (hk : k < k') : (children.upsert k' f).Above k := by
  induction children with
  | nil => exact ⟨hk, trivial⟩
  | cons key child rest ih =>
    rw [upsert]
    split
    · exact ⟨hk, h⟩
    · split
      · exact h
      · exact ⟨h.1, ih h.2⟩

lemma sorted_upsert (h : children.Sorted) (hf : ∀ n : SetNode K V, n.Sorted → (f n).Sorted) :
    (children.upsert k f).Sorted := by
  have hempty : (f SetNode.empty).Sorted := hf _ trivial
  induction children with
  | nil => exact ⟨hempty, trivial, trivial⟩
  | cons key child rest ih =>
    obtain ⟨hchild, habove, hrest⟩ := id h
    rw [upsert]
    split
    · next hlt => exact ⟨hempty, ⟨hlt, habove.trans hlt⟩, h⟩
    · split
      · exact ⟨hf _ hchild, habove, hrest⟩
      · next hlt hne =>
        exact ⟨hchild, above_upsert habove (lt_of_le_of_ne (not_lt.mp hlt) (Ne.symm hne)), ih hrest⟩

lemma find_upsert (h : children.Sorted) : (children.upsert k f).find k' =
      if k = k' then some (f ((children.find k).getD .empty)) else children.find k' := by
  induction children with
  | nil => rfl
  | cons key child rest ih =>
    obtain ⟨-, habove, hrest⟩ := id h
    rw [upsert]
    split
    · next hlt =>
      have habove' : (cons key child rest).Above k := ⟨hlt, habove.trans hlt⟩
      have hnone : (cons key child rest).find k = none := habove'.find_eq_none
      rw [find, hnone]
      rfl
    · split
      · next hlt heq =>
        subst heq
        rw [find, find, find, if_pos rfl]
        split <;> rfl
      · next hlt hne =>
        rw [find, ih hrest, find, find, if_neg (Ne.symm hne)]
        by_cases hk : key = k'
        · subst hk
          rw [if_pos rfl, if_neg hne, if_pos rfl]
        · rw [if_neg hk, if_neg hk]

end SetChildren

/-! ### Paths -/

namespace SetNode

lemma sorted_insert (ks : List K) (v : V) (n : SetNode K V) (h : n.Sorted) :
    (n.insert ks v).Sorted := by
  induction ks generalizing n with
  | nil =>
    obtain ⟨value, children⟩ := n
    exact h
  | cons k ks ih =>
    obtain ⟨value, children⟩ := n
    exact SetChildren.sorted_upsert h ih

lemma lookup_empty (ks : List K) : (empty : SetNode K V).lookup ks = none := by
  cases ks <;> rfl

lemma lookup_cons {value : Option V} {children : SetChildren K V} {k : K} {ks : List K} :
    (mk value children).lookup (k :: ks) = ((children.find k).getD empty).lookup ks := by
  rw [lookup]
  cases children.find k with
  | none => exact (lookup_empty ks).symm
  | some child => rfl

/-- The last value that was inserted along a path is found there, and other paths are not
affected. -/
lemma lookup_insert (ks ks' : List K) (v : V) (n : SetNode K V) (h : n.Sorted) :
    (n.insert ks v).lookup ks' = if ks = ks' then some v else n.lookup ks' := by
  induction ks generalizing ks' n with
  | nil =>
    obtain ⟨value, children⟩ := n
    cases ks' with
    | nil => rfl
    | cons k' ks' => rfl
  | cons k ks ih =>
    obtain ⟨value, children⟩ := n
    cases ks' with
    | nil => rfl
    | cons k' ks' =>
      rw [insert, lookup_cons, SetChildren.find_upsert h, lookup_cons]
      by_cases hk : k = k'
      · subst hk
        have hchild : ((children.find k).getD empty).Sorted := by
          cases hf : children.find k with
          | none => trivial
          | some child => exact SetChildren.Sorted.child h hf
        rw [if_pos rfl, getD_some, ih ks' _ hchild]
        simp only [List.cons.injEq, true_and]
      · rw [if_neg hk, if_neg fun heq => hk (List.cons.inj heq).1]

end SetNode

/-! ### Subsets -/

mutual

/-- What `findSubset` finds is stored under a part of the set. -/
theorem SetNode.findSubset_sound {p : V → Bool} {v : V} : ∀ (n : SetNode K V) (set : List K),
    n.Sorted → n.findSubset p set = some v →
      ∃ ks, n.lookup ks = some v ∧ ks.Sublist set ∧ p v = true
  | .mk value children, set, h, hfind => by
    rw [SetNode.findSubset] at hfind
    split at hfind
    · next w hw =>
      obtain rfl := Option.some.inj hfind
      obtain ⟨hvalue, hp⟩ := filter_eq_some_iff.mp hw
      exact ⟨[], hvalue, List.nil_sublist _, hp⟩
    · obtain ⟨k, ks, child, hk, hlook, hsub, hp⟩ := SetChildren.scan_sound children set h hfind
      exact ⟨k :: ks, by rw [SetNode.lookup_cons, hk]; exact hlook, hsub, hp⟩

theorem SetChildren.scan_sound {p : V → Bool} {v : V} :
    ∀ (children : SetChildren K V) (set : List K),
    children.Sorted → children.scan p set = some v →
      ∃ k ks child, children.find k = some child ∧ child.lookup ks = some v ∧
        (k :: ks).Sublist set ∧ p v = true
  | .nil, set, _, hfind => by simp [SetChildren.scan] at hfind
  | .cons key child rest, set, h, hfind => by
    obtain ⟨hchild, habove, hrest⟩ := id h
    -- what is found behind the first child has a larger key
    have hlater : ∀ set', set'.Sublist set → rest.scan p set' = some v →
        ∃ k ks child', (SetChildren.cons key child rest).find k = some child' ∧
          child'.lookup ks = some v ∧ (k :: ks).Sublist set ∧ p v = true := by
      intro set' hset' hscan
      obtain ⟨k, ks, child', hk, hlook, hsub, hp⟩ :=
        SetChildren.scan_sound rest set' hrest hscan
      exact ⟨k, ks, child', by rw [SetChildren.find, if_neg (habove.lt hk).ne, hk], hlook,
        hsub.trans hset', hp⟩
    have hdrop := List.dropWhile_sublist (· < key) (l := set)
    rw [SetChildren.scan] at hfind
    split at hfind
    · simp at hfind
    · next x xs hxs =>
      rw [hxs] at hdrop
      split at hfind
      · next hx =>
        subst hx
        rcases or_eq_some_iff.mp hfind with hfind | ⟨-, hfind⟩
        · obtain ⟨ks, hlook, hsub, hp⟩ := SetNode.findSubset_sound child xs hchild hfind
          exact ⟨x, ks, child, by rw [SetChildren.find, if_pos rfl], hlook,
            (hsub.cons_cons x).trans hdrop, hp⟩
        · exact hlater xs ((List.sublist_cons_self x xs).trans hdrop) hfind
      · exact hlater (x :: xs) hdrop hfind

end

lemma mem_dropWhile_of_not {α : Type*} {q : α → Bool} {l : List α} {x : α} (hx : x ∈ l)
    (hq : q x = false) : x ∈ l.dropWhile q := by
  induction l with
  | nil => exact hx
  | cons y l ih =>
    rw [List.dropWhile_cons]
    split
    · next hy =>
      rcases List.mem_cons.mp hx with rfl | hx
      · exact absurd hy (by simp [hq])
      · exact ih hx
    · exact hx

mutual

/-- A value that is stored under a subset is found, or another one before it. -/
theorem SetNode.findSubset_complete {p : V → Bool} {v : V} : ∀ (n : SetNode K V) (set ks : List K),
    n.Sorted → set.Pairwise (· < ·) → ks.Pairwise (· < ·) → n.lookup ks = some v →
      (∀ k ∈ ks, k ∈ set) → p v = true → n.findSubset p set ≠ none
  | .mk value children, set, ks, h, hset, hks, hlook, hsub, hp => by
    rw [SetNode.findSubset]
    split
    · simp
    · next hnone =>
      cases ks with
      | nil =>
        have hvalue : value = some v := hlook
        simp [hvalue, hp] at hnone
      | cons k ks =>
        rw [SetNode.lookup_cons] at hlook
        cases hk : children.find k with
        | none => simp [hk, SetNode.lookup_empty] at hlook
        | some child =>
          rw [hk] at hlook
          exact SetChildren.scan_complete children set k ks child h hset hks hk hlook hsub hp

theorem SetChildren.scan_complete {p : V → Bool} {v : V} :
    ∀ (children : SetChildren K V) (set : List K) (k : K) (ks : List K) (child : SetNode K V),
    children.Sorted → set.Pairwise (· < ·) → (k :: ks).Pairwise (· < ·) →
      children.find k = some child → child.lookup ks = some v → (∀ x ∈ k :: ks, x ∈ set) →
      p v = true → children.scan p set ≠ none
  | .nil, set, k, ks, child, _, _, _, hk, _, _, _ => by simp [SetChildren.find] at hk
  | .cons key child' rest, set, k, ks, child, h, hset, hks, hk, hlook, hsub, hp => by
    obtain ⟨hchild, habove, hrest⟩ := id h
    obtain ⟨hlt, hks'⟩ := List.pairwise_cons.mp hks
    have hle : key ≤ k := by
      rw [SetChildren.find] at hk
      split at hk
      · next hkey => exact hkey.le
      · exact (habove.lt hk).le
    -- the path survives in what is left of the set
    have hmem : ∀ x ∈ k :: ks, x ∈ set.dropWhile (· < key) := by
      intro x hx
      refine mem_dropWhile_of_not (hsub x hx) ?_
      have hkx : k ≤ x := by
        rcases List.mem_cons.mp hx with rfl | hx
        · exact le_rfl
        · exact (hlt x hx).le
      simpa using hle.trans hkx
    have hdrop : (set.dropWhile (· < key)).Pairwise (· < ·) :=
      hset.sublist (List.dropWhile_sublist _)
    have hhead := List.head?_dropWhile_not (· < key) set
    rw [SetChildren.scan]
    split
    · next hnil =>
      rw [hnil] at hmem
      exact absurd (hmem k List.mem_cons_self) (by simp)
    · next x xs hxs =>
      rw [hxs] at hmem hdrop hhead
      obtain ⟨hxlt, hxs'⟩ := List.pairwise_cons.mp hdrop
      have hxkey : key ≤ x := by simpa using hhead
      have htail : ∀ y ∈ k :: ks, y ≠ x → y ∈ xs := fun y hy hyx =>
        (List.mem_cons.mp (hmem y hy)).resolve_left hyx
      by_cases hkey : key = k
      · obtain rfl : child' = child := by simpa [SetChildren.find, hkey] using hk
        obtain rfl : x = k := by
          rcases List.mem_cons.mp (hmem k List.mem_cons_self) with rfl | hkxs
          · rfl
          · exact absurd (hkey ▸ hxkey) (not_le.mpr (hxlt k hkxs))
        rw [if_pos hkey.symm]
        intro hnone
        refine SetNode.findSubset_complete child' xs ks hchild hxs' hks' hlook (fun y hy => ?_) hp
          (or_eq_none_iff.mp hnone).1
        exact htail y (List.mem_cons_of_mem _ hy) (hlt y hy).ne'
      · have hk' : rest.find k = some child := by
          rwa [SetChildren.find, if_neg hkey] at hk
        split
        · next hx =>
          subst hx
          intro hnone
          refine SetChildren.scan_complete rest xs k ks child hrest hxs' hks hk' hlook
            (fun y hy => htail y hy ?_) hp (or_eq_none_iff.mp hnone).2
          have hxy : x < y := by
            rcases List.mem_cons.mp hy with rfl | hy
            · exact lt_of_le_of_ne hle hkey
            · exact lt_of_le_of_lt hle (hlt y hy)
          exact hxy.ne'
        · exact SetChildren.scan_complete rest (x :: xs) k ks child hrest hdrop hks hk' hlook hmem
            hp

end

/-! ### Supersets -/

mutual

/-- What `findSuperset` finds is stored under a superset. -/
theorem SetNode.findSuperset_sound {p : V → Bool} {v : V} : ∀ (n : SetNode K V) (set : List K),
    n.Sorted → n.findSuperset p set = some v →
      ∃ ks, n.lookup ks = some v ∧ set.Sublist ks ∧ p v = true
  | .mk value children, [], h, hfind => by
    rw [SetNode.findSuperset] at hfind
    rcases or_eq_some_iff.mp hfind with hfind | ⟨-, hfind⟩
    · obtain ⟨hvalue, hp⟩ := filter_eq_some_iff.mp hfind
      exact ⟨[], hvalue, List.nil_sublist _, hp⟩
    · obtain ⟨k, ks, child, hk, hlook, -, hp⟩ :=
        SetChildren.firstSuperset_sound children [] h hfind
      exact ⟨k :: ks, by rw [SetNode.lookup_cons, hk]; exact hlook, List.nil_sublist _, hp⟩
  | .mk value children, x :: xs, h, hfind => by
    rw [SetNode.findSuperset] at hfind
    rcases or_eq_some_iff.mp hfind with hfind | ⟨-, hfind⟩
    · obtain ⟨k, ks, child, hk, hlook, hsub, hp⟩ :=
        SetChildren.firstSuperset_sound children (x :: xs) h hfind
      exact ⟨k :: ks, by rw [SetNode.lookup_cons, hk]; exact hlook, hsub.cons k, hp⟩
    · obtain ⟨ks, child, hk, hlook, hsub, hp⟩ :=
        SetChildren.supersetAt_sound x children xs h hfind
      exact ⟨x :: ks, by rw [SetNode.lookup_cons, hk]; exact hlook, hsub.cons_cons x, hp⟩

theorem SetChildren.firstSuperset_sound {p : V → Bool} {v : V} :
    ∀ (children : SetChildren K V) (set : List K),
    children.Sorted → children.firstSuperset p set = some v →
      ∃ k ks child, children.find k = some child ∧ child.lookup ks = some v ∧
        set.Sublist ks ∧ p v = true
  | .nil, set, _, hfind => by simp [SetChildren.firstSuperset] at hfind
  | .cons key child rest, set, h, hfind => by
    obtain ⟨hchild, habove, hrest⟩ := id h
    rw [SetChildren.firstSuperset] at hfind
    rcases or_eq_some_iff.mp hfind with hfind | ⟨-, hfind⟩
    · obtain ⟨ks, hlook, hsub, hp⟩ := SetNode.findSuperset_sound child set hchild hfind
      exact ⟨key, ks, child, by rw [SetChildren.find, if_pos rfl], hlook, hsub, hp⟩
    · obtain ⟨k, ks, child', hk, hlook, hsub, hp⟩ :=
        SetChildren.firstSuperset_sound rest set hrest hfind
      exact ⟨k, ks, child', by rw [SetChildren.find, if_neg (habove.lt hk).ne, hk], hlook, hsub,
        hp⟩

theorem SetChildren.supersetAt_sound {p : V → Bool} {v : V} (x : K) :
    ∀ (children : SetChildren K V) (set : List K),
    children.Sorted → children.supersetAt p x set = some v →
      ∃ ks child, children.find x = some child ∧ child.lookup ks = some v ∧
        set.Sublist ks ∧ p v = true
  | .nil, set, _, hfind => by simp [SetChildren.supersetAt] at hfind
  | .cons key child rest, set, h, hfind => by
    obtain ⟨hchild, -, hrest⟩ := id h
    rw [SetChildren.supersetAt] at hfind
    rw [SetChildren.find]
    split at hfind
    · next hx =>
      obtain ⟨ks, hlook, hsub, hp⟩ := SetNode.findSuperset_sound child set hchild hfind
      exact ⟨ks, child, if_pos hx, hlook, hsub, hp⟩
    · next hx =>
      rw [if_neg hx]
      exact SetChildren.supersetAt_sound x rest set hrest hfind

end

/-! ### The map -/

/-- `MapOfSets`: a sorted tree whose entries stand at increasing paths. -/
structure MapOfSets (K V : Type) [LinearOrder K] where
  root : SetNode K V
  sorted : root.Sorted
  increasing : ∀ ks v, root.lookup ks = some v → ks.Pairwise (· < ·)

namespace MapOfSets

variable {m : MapOfSets K V} {S T : Finset K} {v w : V} {p : V → Bool}

def empty : MapOfSets K V where
  root := .empty
  sorted := trivial
  increasing ks v h := by simp [SetNode.lookup_empty] at h

def insert (m : MapOfSets K V) (set : Finset K) (value : V) : MapOfSets K V where
  root := m.root.insert (set.sort (· ≤ ·)) value
  sorted := SetNode.sorted_insert _ _ _ m.sorted
  increasing ks v h := by
    rw [SetNode.lookup_insert _ _ _ _ m.sorted] at h
    split at h
    · next heq => exact heq ▸ set.sortedLT_sort.pairwise
    · exact m.increasing ks v h

def lookup (m : MapOfSets K V) (set : Finset K) : Option V := m.root.lookup (set.sort (· ≤ ·))

def findSubset (m : MapOfSets K V) (set : Finset K) (p : V → Bool) : Option V :=
  m.root.findSubset p (set.sort (· ≤ ·))

def findSuperset (m : MapOfSets K V) (set : Finset K) (p : V → Bool) : Option V :=
  m.root.findSuperset p (set.sort (· ≤ ·))

lemma lookup_empty : (empty : MapOfSets K V).lookup S = none := SetNode.lookup_empty _

lemma lookup_insert : (m.insert S v).lookup T = if S = T then some v else m.lookup T := by
  rw [lookup, insert, SetNode.lookup_insert _ _ _ _ m.sorted, lookup]
  refine if_congr ⟨fun h => ?_, fun h => by rw [h]⟩ rfl rfl
  rw [← S.sort_toFinset (· ≤ ·), h, T.sort_toFinset]

lemma sort_toFinset_of_pairwise {ks : List K} (h : ks.Pairwise (· < ·)) :
    ks.toFinset.sort (· ≤ ·) = ks :=
  (List.toFinset_sort (· ≤ ·) (h.imp fun hab => hab.ne)).mpr (h.imp fun hab => hab.le)

/-- An entry of the tree is an entry of the map. -/
lemma lookup_toFinset {ks : List K} (h : m.root.lookup ks = some v) :
    m.lookup ks.toFinset = some v := by
  rw [lookup, sort_toFinset_of_pairwise (m.increasing ks v h), h]

lemma exists_of_findSubset (h : m.findSubset S p = some v) :
    ∃ T ⊆ S, m.lookup T = some v ∧ p v = true := by
  obtain ⟨ks, hlook, hsub, hp⟩ := SetNode.findSubset_sound _ _ m.sorted h
  refine ⟨ks.toFinset, fun k hk => ?_, lookup_toFinset hlook, hp⟩
  exact (Finset.mem_sort (· ≤ ·)).mp (hsub.subset (List.mem_toFinset.mp hk))

lemma findSubset_ne_none (hT : T ⊆ S) (h : m.lookup T = some v) (hp : p v = true) :
    m.findSubset S p ≠ none :=
  SetNode.findSubset_complete _ _ _ m.sorted S.sortedLT_sort.pairwise T.sortedLT_sort.pairwise h
    (fun _ hk => (Finset.mem_sort (· ≤ ·)).mpr (hT ((Finset.mem_sort (· ≤ ·)).mp hk))) hp

lemma exists_of_findSuperset (h : m.findSuperset S p = some v) :
    ∃ T, S ⊆ T ∧ m.lookup T = some v ∧ p v = true := by
  obtain ⟨ks, hlook, hsub, hp⟩ := SetNode.findSuperset_sound _ _ m.sorted h
  refine ⟨ks.toFinset, fun k hk => ?_, lookup_toFinset hlook, hp⟩
  exact List.mem_toFinset.mpr (hsub.subset ((Finset.mem_sort (· ≤ ·)).mpr hk))

end MapOfSets

end Castan
