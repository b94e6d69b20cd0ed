/-
# The iterator of a map of sets

The iterator of `MapOfSets` walks through the tree with an explicit stack.  Every history of
insertions and clearings gives a tree on which the iterator and all searches answer as the finite
map from sets to values.
-/
import Castan.Solver.MapOfSetsEntries

namespace Castan

open Option SetNode

variable {K V : Type}

/-! ### The iterator -/

/-- An iterator of a map of children that is not at its end: the child it points to and the
children after it. -/
structure SetCursor (K V : Type) where
  key : K
  child : SetNode K V
  rest : SetChildren K V

/-- `MapOfSets::iterator`; the top of the stack comes first. -/
structure SetIterator (K V : Type) where
  onEntry : Bool
  stack : List (SetCursor K V)

/-- The first loop of `step`: down the first children to an entry, or to a node without
children. -/
def SetNode.enter : SetNode K V → List (SetCursor K V) → Bool × List (SetCursor K V)
  | .mk _ .nil, stack => (false, stack)
  | .mk _ (.cons key child rest), stack =>
      if child.value.isSome then (true, ⟨key, child, rest⟩ :: stack)
      else child.enter (⟨key, child, rest⟩ :: stack)

/-- The last loop of `step`: down the first children to an entry, where a node without children
fails the assertion. -/
def SetNode.descend : SetNode K V → List (SetCursor K V) → Option (List (SetCursor K V))
  | .mk (some _) _, stack => some stack
  | .mk none .nil, _ => none
  | .mk none (.cons key child rest), stack => child.descend (⟨key, child, rest⟩ :: stack)

namespace SetIterator

/-- The second loop of `step`: on to the next child of the last node that has one. -/
def advance : List (SetCursor K V) → Option (SetIterator K V)
  | [] => some ⟨false, []⟩
  | cur :: stack =>
      match cur.rest with
      | .nil => advance stack
      | .cons key child rest => (child.descend (⟨key, child, rest⟩ :: stack)).map (⟨true, ·⟩)

/-- The node at the top of the stack. -/
def top (root : SetNode K V) : List (SetCursor K V) → SetNode K V
  | [] => root
  | cur :: _ => cur.child

def step (root : SetNode K V) (it : SetIterator K V) : Option (SetIterator K V) :=
  if it.onEntry then
    match (top root it.stack).enter it.stack with
    | (true, stack) => some ⟨true, stack⟩
    | (false, stack) => advance stack
  else advance it.stack

/-- `MapOfSets::begin`. -/
def begin (root : SetNode K V) : Option (SetIterator K V) :=
  if root.value.isSome then some ⟨true, []⟩ else step root ⟨true, []⟩

/-- Equality with `MapOfSets::end`. -/
def isEnd (it : SetIterator K V) : Bool := !it.onEntry && it.stack.isEmpty

/-- The keys on the stack, from the root. -/
def path (stack : List (SetCursor K V)) : List K := (stack.map (·.key)).reverse

end SetIterator

/-! ### Every inner node leads to an entry -/

mutual

/-- A node without a value has children, everywhere below the node. -/
def SetNode.Full : SetNode K V → Prop
  | .mk value children => children.Full ∧ (value = none → children ≠ .nil)

def SetChildren.Full : SetChildren K V → Prop
  | .nil => True
  | .cons _ child rest => child.Full ∧ rest.Full

end

lemma SetNode.Full.children {n : SetNode K V} (h : n.Full) : n.children.Full := by
  obtain ⟨value, children⟩ := n
  exact h.1

/-! ### What the iterator still has to visit -/

namespace SetIterator

/-- The entries behind the cursors of a stack. -/
def pending : List (SetCursor K V) → List (List K × V)
  | [] => []
  | cur :: stack => cur.rest.entries.map (fun e => (path stack ++ e.1, e.2)) ++ pending stack

/-- The entries below a node that stands at the top of the stack, and those behind it. -/
def todo (stack : List (SetCursor K V)) (es : List (List K × V)) : List (List K × V) :=
  es.map (fun e => (path stack ++ e.1, e.2)) ++ pending stack

lemma path_cons (cur : SetCursor K V) (stack : List (SetCursor K V)) :
    path (cur :: stack) = path stack ++ [cur.key] := by
  rw [path, List.map_cons, List.reverse_cons, path]

/-- Going down to the first child. -/
lemma todo_cons (key : K) (child : SetNode K V) (rest : SetChildren K V)
    (stack : List (SetCursor K V)) :
    todo stack (SetChildren.cons key child rest).entries =
      todo (⟨key, child, rest⟩ :: stack) child.entries := by
  rw [todo, todo, pending, SetChildren.entries, List.map_append, List.map_map, List.append_assoc,
    path_cons]
  simp [Function.comp_def]

/-- All nodes on the stack and behind its cursors lead to entries. -/
def Full (stack : List (SetCursor K V)) : Prop :=
  ∀ cur ∈ stack, cur.child.Full ∧ cur.rest.Full

lemma Full.push {stack : List (SetCursor K V)} (h : Full stack) {key : K} {child : SetNode K V}
    {rest : SetChildren K V} (hchildren : (SetChildren.cons key child rest).Full) :
    Full (⟨key, child, rest⟩ :: stack) := by
  intro cur hcur
  rcases List.mem_cons.mp hcur with rfl | hcur
  · exact hchildren
  · exact h cur hcur

/-- The stack stands at an entry, from which `es` are left to visit. -/
structure AtEntry (root : SetNode K V) (stack : List (SetCursor K V)) (es : List (List K × V)) :
    Prop where
  full : Full stack
  value : (top root stack).value ≠ none
  left : todo stack (top root stack).entries = es

variable {root : SetNode K V} {stack : List (SetCursor K V)}

lemma descend_spec (root n : SetNode K V) (hfull : Full stack) (hn : n.Full)
    (htop : top root stack = n) :
    ∃ stack', n.descend stack = some stack' ∧ AtEntry root stack' (todo stack n.entries) := by
  fun_induction descend n stack with
  | case1 v children stack =>
    exact ⟨stack, rfl, hfull, by rw [htop]; simp [value], by rw [htop]⟩
  | case2 stack => exact absurd rfl (hn.2 rfl)
  | case3 key child rest stack ih =>
    obtain ⟨stack', heq, hentry⟩ := ih (hfull.push hn.1) hn.1.1 rfl
    refine ⟨stack', heq, ?_⟩
    rw [entries, map_none, toList_none, List.nil_append, todo_cons]
    exact hentry

lemma enter_spec (root n : SetNode K V) (hfull : Full stack) (hn : n.children.Full) :
    (n.children = .nil ∧ n.enter stack = (false, stack)) ∨
      ∃ stack', n.enter stack = (true, stack') ∧
        AtEntry root stack' (todo stack n.children.entries) := by
  fun_induction enter n stack with
  | case1 value stack => exact .inl ⟨rfl, rfl⟩
  | case2 value key child rest stack hsome =>
    refine .inr ⟨_, rfl, hfull.push hn, ?_, ?_⟩
    · exact isSome_iff_ne_none.mp hsome
    · rw [children, todo_cons]
      rfl
  | case3 value key child rest stack hnone ih =>
    -- the child has no value, so it has children, and the loop goes on
    obtain ⟨_ | v, cchildren⟩ := child
    swap
    · exact absurd rfl hnone
    rcases ih (hfull.push hn) hn.1.1 with ⟨hnil, -⟩ | ⟨stack', heq, hentry⟩
    · exact absurd hnil (hn.1.2 rfl)
    · refine .inr ⟨stack', heq, ?_⟩
      rw [children, todo_cons, entries, map_none, toList_none, List.nil_append]
      exact hentry

/-- The iterator goes on to the next entry, or to the end if there is none. -/
lemma advance_spec (hfull : Full stack) : (pending stack = [] ∧ advance stack = some ⟨false, []⟩) ∨
      ∃ stack', advance stack = some ⟨true, stack'⟩ ∧ AtEntry root stack' (pending stack) := by
  induction stack with
  | nil => exact .inl ⟨rfl, rfl⟩
  | cons cur stack ih =>
    have hfull' : Full stack := fun cur' hcur => hfull cur' (List.mem_cons_of_mem _ hcur)
    obtain ⟨-, hrest⟩ := hfull cur List.mem_cons_self
    rw [advance, pending]
    cases hcur : cur.rest with
    | nil => exact ih hfull'
    | cons key child rest =>
      rw [hcur] at hrest
      obtain ⟨stack', heq, hentry⟩ :=
        descend_spec root child (hfull'.push hrest) hrest.1 rfl
      refine .inr ⟨stack', by simp only [heq, map_some], ?_⟩
      have htodo := todo_cons key child rest stack
      rw [todo] at htodo
      rw [htodo]
      exact hentry

lemma step_spec (hfull : Full stack) (hroot : root.children.Full) :
    (todo stack (top root stack).children.entries = [] ∧
        step root ⟨true, stack⟩ = some ⟨false, []⟩) ∨
      ∃ stack', step root ⟨true, stack⟩ = some ⟨true, stack'⟩ ∧
        AtEntry root stack' (todo stack (top root stack).children.entries) := by
  have htop : (top root stack).children.Full := by
    cases stack with
    | nil => exact hroot
    | cons cur stack => exact (hfull cur List.mem_cons_self).1.children
  rw [step, if_pos rfl]
  rcases enter_spec root (top root stack) hfull htop with ⟨hnil, heq⟩ | ⟨stack', heq, hentry⟩
  · rw [heq, hnil]
    exact advance_spec hfull
  · rw [heq]
    exact .inr ⟨stack', rfl, hentry⟩

end SetIterator

/-! ### The loop -/

variable [LinearOrder K]

namespace SetIterator

/-- `*it`. -/
def deref (root : SetNode K V) (it : SetIterator K V) : Option (Finset K × V) :=
  (top root it.stack).value.map ((path it.stack).toFinset, ·)

/-- The loop from `it` to `end` finishes, and these are the entries it sees. -/
inductive Visits (root : SetNode K V) : SetIterator K V → List (Finset K × V) → Prop
  | stop {it} : it.isEnd = true → Visits root it []
  | next {it it' e es} : it.isEnd = false → it.deref root = some e → it.step root = some it' →
      Visits root it' es → Visits root it (e :: es)

variable {root : SetNode K V} {stack : List (SetCursor K V)}

/-- From an entry the loop visits all that is left. -/
lemma visits_of_atEntry (hroot : root.children.Full) {es : List (List K × V)}
    (h : AtEntry root stack es) :
    Visits root ⟨true, stack⟩ (es.map fun e => (e.1.toFinset, e.2)) := by
  induction hlen : es.length using Nat.strong_induction_on generalizing stack es with
  | _ n ih =>
  obtain ⟨v, hv⟩ := ne_none_iff_exists'.mp h.value
  have hes : es = (path stack, v) :: todo stack (top root stack).children.entries := by
    rw [← h.left, entries_eq, hv, todo, todo]
    simp
  have hderef : deref root ⟨true, stack⟩ = some ((path stack).toFinset, v) := by
    rw [deref, hv]
    rfl
  rw [hes, List.map_cons]
  rcases step_spec h.full hroot with ⟨hnil, hstep⟩ | ⟨stack', hstep, hentry⟩
  · rw [hnil]
    exact .next rfl hderef hstep (.stop rfl)
  · refine .next rfl hderef hstep (ih _ ?_ hentry rfl)
    rw [← hlen, hes]
    exact Nat.lt_succ_self _

theorem visits_begin (hroot : root.children.Full) : ∃ it, begin root = some it ∧
      Visits root it (root.entries.map fun e => (e.1.toFinset, e.2)) := by
  have hstack : Full ([] : List (SetCursor K V)) := by simp [Full]
  have htodo : ∀ es : List (List K × V), todo [] es = es := fun es => by simp [todo, pending, path]
  rw [begin]
  split
  · next hsome =>
    refine ⟨_, rfl, visits_of_atEntry hroot ⟨hstack, ?_, htodo _⟩⟩
    exact isSome_iff_ne_none.mp hsome
  · next hnone =>
    have heq : root.entries = root.children.entries := by
      rw [entries_eq, not_isSome_iff_eq_none.mp hnone]
      rfl
    rcases step_spec hstack hroot with ⟨hnil, hstep⟩ | ⟨stack', hstep, hentry⟩
    · rw [htodo] at hnil
      rw [heq, show root.children.entries = [] from hnil]
      exact ⟨_, hstep, .stop rfl⟩
    · rw [htodo] at hentry
      rw [heq]
      exact ⟨_, hstep, visits_of_atEntry hroot hentry⟩

end SetIterator

/-! ### Histories -/

lemma SetChildren.full_upsert {children : SetChildren K V} {k : K}
    {f : SetNode K V → SetNode K V} (h : children.Full)
    (hf : ∀ n : SetNode K V, n.children.Full → (f n).Full) :
    (children.upsert k f).Full ∧ children.upsert k f ≠ .nil := by
  have hempty : (f empty).Full := hf _ trivial
  induction children with
  | nil => exact ⟨⟨hempty, trivial⟩, by simp [upsert]⟩
  | cons key child rest ih =>
    rw [upsert]
    split
    · exact ⟨⟨hempty, h⟩, by simp⟩
    · split
      · exact ⟨⟨hf _ h.1.children, h.2⟩, by simp⟩
      · exact ⟨⟨h.1, (ih h.2).1⟩, by simp⟩

lemma SetNode.full_insert (ks : List K) (v : V) (n : SetNode K V) (h : n.children.Full) :
    (n.insert ks v).Full := by
  induction ks generalizing n with
  | nil =>
    obtain ⟨value, children⟩ := n
    exact ⟨h, by simp⟩
  | cons k ks ih =>
    obtain ⟨value, children⟩ := n
    obtain ⟨hfull, hne⟩ := SetChildren.full_upsert (k := k) h ih
    exact ⟨hfull, fun _ => hne⟩

/-- The operations that change a map. -/
inductive MapOfSetsOp (K V : Type)
  | insert (set : Finset K) (value : V)
  | clear

namespace MapOfSets

def apply (m : MapOfSets K V) : MapOfSetsOp K V → MapOfSets K V
  | .insert set value => m.insert set value
  | .clear => empty

/-- The operation on a finite map from sets to values. -/
def applyMap (f : Finset K → Option V) : MapOfSetsOp K V → Finset K → Option V
  | .insert set value => Function.update f set (some value)
  | .clear => fun _ => none

def run (ops : List (MapOfSetsOp K V)) : MapOfSets K V := ops.foldl apply empty

def runMap (ops : List (MapOfSetsOp K V)) : Finset K → Option V :=
  ops.foldl applyMap fun _ => none

/-- `entries` are the entries of the finite map with a set in `P`, each once. -/
structure Lists (f : Finset K → Option V) (P : Finset K → Prop) (entries : List (Finset K × V)) :
    Prop where
  nodup : (entries.map (·.1)).Nodup
  mem : ∀ T v, (T, v) ∈ entries ↔ P T ∧ f T = some v

/-- A value that satisfies `p` is found if one is stored under a set in `P`. -/
def Finds (f : Finset K → Option V) (P : Finset K → Prop) (p : V → Bool) : Option V → Prop
  | some v => p v = true ∧ ∃ T, P T ∧ f T = some v
  | none => ∀ T v, P T → f T = some v → p v = false

/-- The map of sets is the finite map `f`. -/
structure Implements (m : MapOfSets K V) (f : Finset K → Option V) : Prop where
  lookup : ∀ S, m.lookup S = f S
  findSubset : ∀ S p, Finds f (· ⊆ S) p (m.findSubset S p)
  findSuperset : ∀ S p, Finds f (S ⊆ ·) p (m.findSuperset S p)
  subsets : ∀ S out, ∃ entries, m.subsets S out = out ++ entries ∧ Lists f (· ⊆ S) entries
  supersets : ∀ S out, ∃ entries, m.supersets S out = out ++ entries ∧ Lists f (S ⊆ ·) entries
  iterates : ∃ it entries, SetIterator.begin m.root = some it ∧
    SetIterator.Visits m.root it entries ∧ Lists f (fun _ => True) entries

variable {m : MapOfSets K V} {S T : Finset K}

lemma sort_sublist_sort : (S.sort (· ≤ ·)).Sublist (T.sort (· ≤ ·)) ↔ S ⊆ T := by
  refine ⟨fun h k hk => ?_, fun h => ?_⟩
  · exact (Finset.mem_sort (· ≤ ·)).mp (h.subset ((Finset.mem_sort (· ≤ ·)).mpr hk))
  · refine List.sublist_of_subperm_of_sortedLE ?_ S.sortedLT_sort.sortedLE T.sortedLT_sort.sortedLE
    refine (S.sort_nodup (· ≤ ·)).subperm fun k hk => ?_
    exact (Finset.mem_sort (· ≤ ·)).mpr (h ((Finset.mem_sort (· ≤ ·)).mp hk))

lemma increasing_entries (m : MapOfSets K V) : ∀ e ∈ m.root.entries, e.1.Pairwise (· < ·) :=
  fun e he => m.increasing e.1 e.2 ((mem_entries _ m.sorted _ _).mp he)

/-- The tree lists the map. -/
lemma lists_entries (m : MapOfSets K V) {q : List K → Prop} [DecidablePred q]
    {P : Finset K → Prop} (hq : ∀ T : Finset K, q (T.sort (· ≤ ·)) ↔ P T) :
    Lists m.lookup P
      ((m.root.entries.filter fun e => q e.1).map fun e => (e.1.toFinset, e.2)) := by
  constructor
  · -- sets of increasing paths differ when the paths do
    rw [List.map_map]
    refine List.Nodup.map_on (fun e he e' he' heq => ?_) ?_
    · have hmem := List.mem_of_mem_filter he
      have hmem' := List.mem_of_mem_filter he'
      have hpath : e.1 = e'.1 := by
        rw [← sort_toFinset_of_pairwise (increasing_entries m e hmem),
          ← sort_toFinset_of_pairwise (increasing_entries m e' hmem')]
        exact congrArg (·.sort (· ≤ ·)) heq
      exact List.inj_on_of_nodup_map (nodup_entries _ m.sorted) hmem hmem' hpath
    · exact (List.Nodup.of_map _ (nodup_entries _ m.sorted)).filter _
  · intro T v
    rw [← hq, List.mem_map]
    constructor
    · rintro ⟨⟨ks, w⟩, hmem, heq⟩
      obtain ⟨rfl, rfl⟩ := Prod.mk.inj heq
      obtain ⟨hmem, hks⟩ := List.mem_filter.mp hmem
      have hsort := sort_toFinset_of_pairwise (increasing_entries m _ hmem)
      exact ⟨hsort.symm ▸ of_decide_eq_true hks,
        lookup_toFinset ((mem_entries _ m.sorted _ _).mp hmem)⟩
    · rintro ⟨hT, hlook⟩
      refine ⟨(T.sort (· ≤ ·), v), List.mem_filter.mpr ⟨?_, decide_eq_true hT⟩, ?_⟩
      · exact (mem_entries _ m.sorted _ _).mpr hlook
      · rw [T.sort_toFinset]

lemma lists_subsets (m : MapOfSets K V) (S : Finset K) :
    Lists m.lookup (· ⊆ S) (m.root.findSubsets ∅ (S.sort (· ≤ ·))) := by
  constructor
  · refine nodup_findSubsets (by simp) ?_
    exact SetChildren.nodup_findSubsets _ _ (S.sort_nodup _) (by simp)
  · intro T v
    rw [mem_findSubsets (SetChildren.mem_findSubsets _ _ _ _ _)]
    constructor
    · rintro ⟨ks, hsub, hlook, rfl⟩
      rw [Finset.empty_union]
      refine ⟨fun k hk => ?_, lookup_toFinset hlook⟩
      exact (Finset.mem_sort (· ≤ ·)).mp (hsub.subset (List.mem_toFinset.mp hk))
    · rintro ⟨hT, hlook⟩
      refine ⟨T.sort (· ≤ ·), sort_sublist_sort.mpr hT, hlook, ?_⟩
      rw [Finset.empty_union, T.sort_toFinset]

lemma lists_supersets (m : MapOfSets K V) (S : Finset K) :
    Lists m.lookup (S ⊆ ·) (m.root.findSupersets ∅ (S.sort (· ≤ ·))) := by
  have hreport : (report ∅ : List K × V → _) = fun e => (e.1.toFinset, e.2) := by
    funext e
    rw [report, Finset.empty_union]
  rw [findSupersets_eq _ _ _ m.sorted (increasing_entries m), hreport]
  exact lists_entries m fun T => sort_sublist_sort

theorem implements_lookup (hfull : m.root.children.Full) : m.Implements m.lookup where
  lookup _ := rfl
  findSubset S p := by
    cases hfind : m.findSubset S p with
    | some v =>
      obtain ⟨T, hT, hlook, hp⟩ := exists_of_findSubset hfind
      exact ⟨hp, T, hT, hlook⟩
    | none =>
      intro T v hT hlook
      exact Bool.eq_false_iff.mpr fun hp => findSubset_ne_none hT hlook hp hfind
  findSuperset S p := by
    cases hfind : m.findSuperset S p with
    | some v =>
      obtain ⟨T, hT, hlook, hp⟩ := exists_of_findSuperset hfind
      exact ⟨hp, T, hT, hlook⟩
    | none =>
      intro T v hT hlook
      refine Bool.eq_false_iff.mpr fun hp => ?_
      exact findSuperset_complete _ _ _ hlook (sort_sublist_sort.mpr hT) hp hfind
  subsets S out := ⟨_, rfl, lists_subsets m S⟩
  supersets S out := ⟨_, rfl, lists_supersets m S⟩
  iterates := by
    obtain ⟨it, hbegin, hvisits⟩ := SetIterator.visits_begin hfull
    refine ⟨it, _, hbegin, hvisits, ?_⟩
    have hall := lists_entries m (q := fun _ => True) (P := fun _ => True) fun _ => Iff.rfl
    simpa using hall

lemma apply_full (hfull : m.root.children.Full) (op : MapOfSetsOp K V) :
    (m.apply op).root.children.Full := by
  cases op with
  | insert set value => exact (full_insert _ value _ hfull).children
  | clear => trivial

lemma lookup_apply (op : MapOfSetsOp K V) : (m.apply op).lookup = applyMap m.lookup op := by
  funext T
  cases op with
  | insert set value =>
    rw [apply, lookup_insert, applyMap, Function.update_apply]
    exact if_congr eq_comm rfl rfl
  | clear => exact lookup_empty

/-- After every history of insertions and clearings, the tree is the finite map that the history
gives: for the exact lookup, for the four searches by subset and superset, and for iteration. -/
theorem run_implements (ops : List (MapOfSetsOp K V)) : (run ops).Implements (runMap ops) := by
  have hrun : ∀ (m : MapOfSets K V), m.root.children.Full →
      (ops.foldl apply m).root.children.Full ∧
        (ops.foldl apply m).lookup = ops.foldl applyMap m.lookup := by
    induction ops with
    | nil => exact fun m hm => ⟨hm, rfl⟩
    | cons op ops ih =>
      intro m hm
      rw [List.foldl_cons, List.foldl_cons, ← lookup_apply]
      exact ih (m.apply op) (apply_full hm op)
  obtain ⟨hfull, hlook⟩ := hrun empty trivial
  have hempty : (empty : MapOfSets K V).lookup = fun _ => none := funext fun _ => lookup_empty
  rw [hempty] at hlook
  rw [runMap, ← hlook]
  exact implements_lookup hfull

end MapOfSets

end Castan
