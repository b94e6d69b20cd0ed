/-
# The reads of an expression

`findReads` of `ExprUtil.cpp` collects the reads below an expression with a stack and a set of
visited expressions, also through the indices and values of update lists.  The value of the
expression depends on no other cell of the arrays than those its reads name
(`eval_eq_of_findReads`).
-/
import Castan.Expr.Evaluator

namespace Castan

open List UpdateNode

variable {e k : Expr}

/-- A `ReadExpr`. -/
structure ReadNode where
  root : KArray
  head : UpdateNode
  index : Expr
deriving DecidableEq

/-- The expression of a read. -/
def ReadNode.toExpr (r : ReadNode) : Expr := .read r.root r.head r.index

/-- The indices and values of a chain of updates, the most recent first. -/
def UpdateNode.parts : UpdateNode → List Expr
  | null => []
  | node next index value => index :: value :: next.parts

/-- What is directly below an expression: the kids, and the parts of the updates of a read. -/
def Expr.inner : Expr → List Expr
  | .read _ head index => index :: head.parts
  | e => e.kids

/-! ### The search -/

/-- The local variables of `findReads`.  Update nodes, which the source compares by address, are
compared by their chains. -/
structure FindReads where
  stack : List Expr
  visited : List Expr
  updates : List UpdateNode
  results : List ReadNode

namespace FindReads

/-- Push an expression, unless it is a constant or has been visited. -/
def push (s : FindReads) (e : Expr) : FindReads :=
  if e.isConst = false ∧ e ∉ s.visited then
    { s with stack := e :: s.stack, visited := e :: s.visited }
  else s

/-- Push the parts of the updates, unless the chain is memoized. -/
def pushUpdates (s : FindReads) (head : UpdateNode) : FindReads :=
  if head ∈ s.updates then s
  else head.parts.foldl push { s with updates := head :: s.updates }

/-- The body of the loop, for the expression taken from the stack. -/
def step (s : FindReads) : Expr → FindReads
  | .read root head index =>
      (push { s with results := s.results ++ [⟨root, head, index⟩] } index).pushUpdates head
  | top => top.kids.foldl push s

/-- The size of what is on the stack. -/
noncomputable def load (s : FindReads) : ℕ := (s.stack.map sizeOf).sum

lemma load_of_stack {s : FindReads} {top : Expr} {stack : List Expr} (h : s.stack = top :: stack) :
    s.load = load { s with stack } + sizeOf top := by
  simp only [load, h, map_cons, sum_cons]
  omega

lemma push_load (s : FindReads) (e : Expr) : (s.push e).load ≤ s.load + sizeOf e := by
  rw [push]
  split
  · simp only [load, map_cons, sum_cons]
    omega
  · omega

lemma foldl_push_load (es : List Expr) (s : FindReads) :
    (es.foldl push s).load ≤ s.load + (es.map sizeOf).sum := by
  induction es generalizing s with
  | nil => simp
  | cons e es ih =>
    have hpush := s.push_load e
    have htail := ih (s.push e)
    simp only [foldl_cons, map_cons, sum_cons]
    omega

lemma sizeOf_parts (head : UpdateNode) : (head.parts.map sizeOf).sum < sizeOf head := by
  cases head with
  | null => simp [parts]
  | node next index value =>
    have hnext := sizeOf_parts next
    simp only [parts, map_cons, sum_cons, node.sizeOf_spec]
    omega

lemma sizeOf_inner (e : Expr) : (e.inner.map sizeOf).sum < sizeOf e := by
  cases e with
  | read root head index =>
    have hparts := sizeOf_parts head
    simp only [Expr.inner, map_cons, sum_cons, Expr.read.sizeOf_spec]
    omega
  | _ => simp [Expr.inner, Expr.kids] <;> omega

lemma pushUpdates_load (s : FindReads) (head : UpdateNode) :
    (s.pushUpdates head).load ≤ s.load + (head.parts.map sizeOf).sum := by
  rw [pushUpdates]
  split
  · omega
  · exact foldl_push_load _ _

/-- The body pushes less than it takes. -/
lemma step_load (s : FindReads) (top : Expr) : (s.step top).load < s.load + sizeOf top := by
  have hinner := sizeOf_inner top
  cases top with
  | read root head index =>
    have hupdates := pushUpdates_load
      (push { s with results := s.results ++ [⟨root, head, index⟩] } index) head
    have hindex := push_load { s with results := s.results ++ [⟨root, head, index⟩] } index
    have hload : load { s with results := s.results ++ [⟨root, head, index⟩] } = s.load := rfl
    simp only [step, Expr.inner, map_cons, sum_cons] at hinner ⊢
    omega
  | _ => exact (foldl_push_load _ s).trans_lt (Nat.add_lt_add_left hinner _)

/-- The loop. -/
def loop (s : FindReads) : List ReadNode :=
  match _h : s.stack with
  | [] => s.results
  | top :: stack => loop (step { s with stack } top)
termination_by s.load
decreasing_by
  rw [load_of_stack _h]
  exact step_load _ _

/-- The body of the loop without `visitUpdates`. -/
def stepDirect (s : FindReads) : Expr → FindReads
  | .read root head index => push { s with results := s.results ++ [⟨root, head, index⟩] } index
  | top => top.kids.foldl push s

lemma stepDirect_load (s : FindReads) (top : Expr) :
    (s.stepDirect top).load < s.load + sizeOf top := by
  have hinner := sizeOf_inner top
  cases top with
  | read root head index =>
    have hindex := push_load { s with results := s.results ++ [⟨root, head, index⟩] } index
    have hload : load { s with results := s.results ++ [⟨root, head, index⟩] } = s.load := rfl
    simp only [stepDirect, Expr.inner, map_cons, sum_cons] at hinner ⊢
    omega
  | _ => exact (foldl_push_load _ s).trans_lt (Nat.add_lt_add_left hinner _)

/-- The loop without `visitUpdates`. -/
def loopDirect (s : FindReads) : List ReadNode :=
  match _h : s.stack with
  | [] => s.results
  | top :: stack => loopDirect (stepDirect { s with stack } top)
termination_by s.load
decreasing_by
  rw [load_of_stack _h]
  exact stepDirect_load _ _

end FindReads

/-- `findReads` with `visitUpdates`. -/
def findReads (e : Expr) : List ReadNode := (FindReads.push ⟨[], [], [], []⟩ e).loop

/-- `findReads` without `visitUpdates`. -/
def findDirectReads (e : Expr) : List ReadNode :=
  (FindReads.push ⟨[], [], [], []⟩ e).loopDirect

namespace FindReads

/-! ### What the search has seen -/

/-- A constant, or visited. -/
def Seen (s : FindReads) (e : Expr) : Prop := e.isConst = true ∨ e ∈ s.visited

/-- What is below the expression has been seen, and the expression itself recorded if it is a
read. -/
structure Processed (s : FindReads) (e : Expr) : Prop where
  inner : ∀ k ∈ e.inner, s.Seen k
  recorded : ∀ r : ReadNode, r.toExpr = e → r ∈ s.results

/-- `s'` has seen and recorded what `s` has. -/
structure Extends (s s' : FindReads) : Prop where
  stack : s.stack ⊆ s'.stack
  visited : s.visited ⊆ s'.visited
  results : s.results ⊆ s'.results
  updates : s.updates ⊆ s'.updates
  /-- New expressions are on the stack. -/
  fresh : ∀ e ∈ s'.visited, e ∈ s.visited ∨ e ∈ s'.stack

lemma Extends.refl (s : FindReads) : s.Extends s :=
  ⟨fun _ h => h, fun _ h => h, fun _ h => h, fun _ h => h, fun _ h => Or.inl h⟩

lemma Extends.trans {s₁ s₂ s₃ : FindReads} (h : s₁.Extends s₂) (h' : s₂.Extends s₃) :
    s₁.Extends s₃ := by
  refine ⟨List.Subset.trans h.stack h'.stack, List.Subset.trans h.visited h'.visited,
    List.Subset.trans h.results h'.results, List.Subset.trans h.updates h'.updates,
    fun e he => ?_⟩
  rcases h'.fresh e he with hold | hnew
  · exact (h.fresh e hold).imp_right (h'.stack ·)
  · exact Or.inr hnew

lemma Extends.seen {s s' : FindReads} (h : s.Extends s') (he : s.Seen e) : s'.Seen e :=
  he.imp_right (h.visited ·)

lemma Extends.processed {s s' : FindReads} (h : s.Extends s') (he : s.Processed e) :
    s'.Processed e :=
  ⟨fun k hk => h.seen (he.inner k hk), fun r hr => h.results (he.recorded r hr)⟩

lemma push_extends (s : FindReads) (e : Expr) : s.Extends (s.push e) := by
  rw [push]
  split
  · refine ⟨subset_cons_self _ _, subset_cons_self _ _, fun _ h => h, fun _ h => h, ?_⟩
    intro x hx
    rcases mem_cons.1 hx with rfl | hx
    · exact Or.inr (mem_cons_self ..)
    · exact Or.inl hx
  · exact Extends.refl s

lemma push_seen (s : FindReads) (e : Expr) : (s.push e).Seen e := by
  rw [push]
  split
  · exact Or.inr (mem_cons_self ..)
  · next h =>
    by_cases hconst : e.isConst = true
    · exact Or.inl hconst
    · exact Or.inr (not_not.1 (not_and.1 h (by simpa using hconst)))

lemma push_updates (s : FindReads) (e : Expr) : (s.push e).updates = s.updates := by
  rw [push]
  split <;> rfl

lemma foldl_push_extends (es : List Expr) (s : FindReads) : s.Extends (es.foldl push s) := by
  induction es generalizing s with
  | nil => exact Extends.refl s
  | cons e es ih => exact (s.push_extends e).trans (ih (s.push e))

lemma foldl_push_seen (es : List Expr) (s : FindReads) : ∀ e ∈ es, (es.foldl push s).Seen e := by
  induction es generalizing s with
  | nil => exact nofun
  | cons e es ih =>
    intro x hx
    rcases mem_cons.1 hx with rfl | hx
    · exact (foldl_push_extends es _).seen (s.push_seen x)
    · exact ih (s.push e) x hx

lemma foldl_push_updates (es : List Expr) (s : FindReads) :
    (es.foldl push s).updates = s.updates := by
  induction es generalizing s with
  | nil => rfl
  | cons e es ih => exact (ih (s.push e)).trans (s.push_updates e)

/-! ### The invariant of the loop -/

/-- What has been visited is processed or still on the stack, apart from the expression `top` in
hand, and the parts of the memoized chains have been seen. -/
structure Inv (top : Option Expr) (s : FindReads) : Prop where
  visited : ∀ e ∈ s.visited, top = some e ∨ e ∈ s.stack ∨ s.Processed e
  updates : ∀ head ∈ s.updates, ∀ e ∈ head.parts, s.Seen e

variable {top : Option Expr} {s s' : FindReads}

lemma Inv.extends (h : s.Inv top) (hext : s.Extends s')
    (hup : ∀ head ∈ s'.updates, head ∈ s.updates ∨ ∀ e ∈ head.parts, s'.Seen e) :
    s'.Inv top := by
  constructor
  · intro e he
    rcases hext.fresh e he with hold | hnew
    · exact (h.visited e hold).imp_right (Or.imp (hext.stack ·) hext.processed)
    · exact Or.inr (Or.inl hnew)
  · intro head hhead e he
    rcases hup head hhead with hold | hnew
    · exact hext.seen (h.updates head hold e he)
    · exact hnew e he

lemma pushUpdates_extends (s : FindReads) (head : UpdateNode) :
    s.Extends (s.pushUpdates head) := by
  rw [pushUpdates]
  split
  · exact Extends.refl s
  · obtain ⟨hstack, hvisited, hresults, -, hfresh⟩ :=
      foldl_push_extends head.parts { s with updates := head :: s.updates }
    refine ⟨hstack, hvisited, hresults, ?_, hfresh⟩
    rw [foldl_push_updates]
    exact subset_cons_self _ _

lemma foldl_push_inv (h : s.Inv top) (es : List Expr) : (es.foldl push s).Inv top :=
  h.extends (foldl_push_extends es s) fun head hhead =>
    Or.inl (by rwa [foldl_push_updates] at hhead)

lemma pushUpdates_seen (h : s.Inv top) (head : UpdateNode) :
    ∀ e ∈ head.parts, (s.pushUpdates head).Seen e := by
  rw [pushUpdates]
  split
  · next hmem => exact h.updates head hmem
  · exact foldl_push_seen _ _

lemma pushUpdates_inv (h : s.Inv top) (head : UpdateNode) : (s.pushUpdates head).Inv top := by
  refine h.extends (s.pushUpdates_extends head) fun head' hhead' => ?_
  by_cases hmem : head ∈ s.updates
  · rw [pushUpdates, if_pos hmem] at hhead'
    exact Or.inl hhead'
  · rw [pushUpdates, if_neg hmem, foldl_push_updates] at hhead'
    rcases mem_cons.1 hhead' with rfl | hold
    · exact Or.inr (pushUpdates_seen h head')
    · exact Or.inl hold

lemma Inv.record (h : s.Inv top) (r : ReadNode) :
    Inv top { s with results := s.results ++ [r] } := by
  refine h.extends ⟨fun _ h => h, fun _ h => h, subset_append_left _ _, fun _ h => h,
    fun _ h => Or.inl h⟩ fun _ h => Or.inl h

/-- An expression is no longer in hand once it is processed. -/
lemma Inv.done (h : s.Inv (some e)) (he : s.Processed e) : s.Inv none := by
  refine ⟨fun x hx => ?_, h.updates⟩
  rcases h.visited x hx with htop | hrest
  · rw [Option.some.inj htop] at he
    exact Or.inr (Or.inr he)
  · exact Or.inr hrest

/-- The body processes the expression it has taken. -/
lemma step_inv (h : s.Inv (some e)) : (s.step e).Inv none := by
  cases e with
  | read root head index =>
    have hindex : Inv (some (Expr.read root head index))
        (push { s with results := s.results ++ [⟨root, head, index⟩] } index) :=
      foldl_push_inv (h.record _) [index]
    refine (pushUpdates_inv hindex head).done ⟨?_, ?_⟩
    · intro k hk
      rcases mem_cons.1 hk with rfl | hk
      · exact (pushUpdates_extends _ head).seen (push_seen _ k)
      · exact pushUpdates_seen hindex head k hk
    · rintro ⟨root', head', index'⟩ hr
      obtain ⟨rfl, rfl, rfl⟩ := Expr.read.inj hr
      refine (pushUpdates_extends _ head').results ((push_extends _ index').results ?_)
      exact mem_append_right _ (mem_singleton.2 rfl)
  | _ =>
    exact (foldl_push_inv h _).done ⟨foldl_push_seen _ s, fun r hr => nomatch hr⟩

lemma step_extends (s : FindReads) (e : Expr) : s.Extends (s.step e) := by
  cases e with
  | read root head index =>
    have hrecord : s.Extends { s with results := s.results ++ [⟨root, head, index⟩] } :=
      ⟨fun _ h => h, fun _ h => h, subset_append_left _ _, fun _ h => h, fun _ h => Or.inl h⟩
    exact hrecord.trans ((push_extends _ index).trans (pushUpdates_extends _ head))
  | _ => exact foldl_push_extends _ s

/-- When the loop ends, what it has visited is processed. -/
lemma loop_processed (s : FindReads) (h : s.Inv none) :
    ∃ s' : FindReads, s.visited ⊆ s'.visited ∧ s'.results = s.loop ∧
      ∀ e ∈ s'.visited, s'.Processed e := by
  fun_induction loop s with
  | case1 s hstack =>
    refine ⟨s, fun _ h => h, rfl, fun e he => ?_⟩
    rcases h.visited e he with htop | hmem | hdone
    · exact nomatch htop
    · exact absurd (hstack ▸ hmem) (by simp)
    · exact hdone
  | case2 s top stack hstack ih =>
    have hpop : Inv (some top) { s with stack } := by
      refine ⟨fun e he => ?_, h.updates⟩
      rcases h.visited e he with htop | hmem | hdone
      · exact nomatch htop
      · rw [hstack] at hmem
        rcases mem_cons.1 hmem with rfl | hmem
        · exact Or.inl rfl
        · exact Or.inr (Or.inl hmem)
      · exact Or.inr (Or.inr ⟨hdone.inner, hdone.recorded⟩)
    obtain ⟨s', hvisited, hresults, hdone⟩ := ih (step_inv hpop)
    exact ⟨s', List.Subset.trans (step_extends { s with stack } top).visited hvisited, hresults,
      hdone⟩

/-! ### What the search finds -/

/-- A property of what is on the stack and of the recorded reads. -/
structure Below (P : Expr → Prop) (s : FindReads) : Prop where
  stack : ∀ e ∈ s.stack, P e
  results : ∀ r ∈ s.results, P r.toExpr

namespace Below

variable {P : Expr → Prop}

lemma push (h : s.Below P) (he : P e) : (s.push e).Below P := by
  rw [FindReads.push]
  split
  · exact ⟨forall_mem_cons.2 ⟨he, h.stack⟩, h.results⟩
  · exact h

lemma foldl_push (h : s.Below P) (es : List Expr) (hes : ∀ e ∈ es, P e) :
    (es.foldl FindReads.push s).Below P := by
  induction es generalizing s with
  | nil => exact h
  | cons e es ih =>
    rw [forall_mem_cons] at hes
    exact ih (h.push hes.1) hes.2

lemma pushUpdates (h : s.Below P) {head : UpdateNode} (hparts : ∀ k ∈ head.parts, P k) :
    (s.pushUpdates head).Below P := by
  rw [FindReads.pushUpdates]
  split
  · exact h
  · exact foldl_push (s := { s with updates := head :: s.updates }) ⟨h.stack, h.results⟩ _ hparts

/-- The body records the expression, if it is a read, and pushes what is directly below it. -/
lemma stepDirect (h : s.Below P) {top : Expr} (htop : P top) (hinner : ∀ k ∈ top.inner, P k) :
    (s.stepDirect top).Below P := by
  cases top with
  | read root head index =>
    refine push (s := { s with results := s.results ++ [⟨root, head, index⟩] })
      ⟨h.stack, fun r hr => ?_⟩ (hinner index (mem_cons_self ..))
    rcases mem_append.1 hr with hold | hnew
    · exact h.results r hold
    · rw [mem_singleton.1 hnew]
      exact htop
  | _ => exact h.foldl_push _ hinner

lemma step (h : s.Below P) {top : Expr} (htop : P top) (hinner : ∀ k ∈ top.inner, P k) :
    (s.step top).Below P := by
  cases top with
  | read root head index =>
    exact (h.stepDirect htop hinner).pushUpdates fun k hk => hinner k (mem_cons_of_mem _ hk)
  | _ => exact h.stepDirect htop hinner

lemma pop (h : s.Below P) {top : Expr} {stack : List Expr} (hs : s.stack = top :: stack) :
    P top ∧ Below P { s with stack } := by
  obtain ⟨hstack, hresults⟩ := h
  rw [hs, forall_mem_cons] at hstack
  exact ⟨hstack.1, hstack.2, hresults⟩

/-- A property that passes to what is below an expression holds of the reads that are found. -/
lemma loop (hP : ∀ e, P e → ∀ k ∈ e.inner, P k) (s : FindReads) (h : s.Below P) :
    ∀ r ∈ s.loop, P r.toExpr := by
  fun_induction FindReads.loop s with
  | case1 s hs => exact h.results
  | case2 s top stack hs ih =>
    obtain ⟨htop, hrest⟩ := h.pop hs
    exact ih (hrest.step htop (hP top htop))

lemma loopDirect (hP : ∀ e, P e → ∀ k ∈ e.inner, P k) (s : FindReads) (h : s.Below P) :
    ∀ r ∈ s.loopDirect, P r.toExpr := by
  fun_induction FindReads.loopDirect s with
  | case1 s hs => exact h.results
  | case2 s top stack hs ih =>
    obtain ⟨htop, hrest⟩ := h.pop hs
    exact ih (hrest.stepDirect htop (hP top htop))

end Below

end FindReads

lemma Expr.sizeOf_lt_of_inner (h : k ∈ e.inner) : sizeOf k < sizeOf e :=
  (single_le_sum (by simp) _ (mem_map_of_mem h)).trans_lt (FindReads.sizeOf_inner e)

lemma FindReads.seen_induction {M : Expr → Prop} {s : FindReads} (hconst : ∀ v, M (.const v))
    (hstep : ∀ x, (∀ k ∈ x.inner, M k) → (∀ r : ReadNode, r.toExpr = x → r ∈ s.results) → M x)
    (hdone : ∀ e ∈ s.visited, s.Processed e) (e : Expr) (he : s.Seen e) : M e := by
  rcases he with hc | hvisited
  · obtain ⟨v, rfl⟩ := Expr.isConst_iff.1 hc
    exact hconst v
  · have hproc := hdone e hvisited
    refine hstep e (fun k hk => ?_) hproc.recorded
    exact FindReads.seen_induction hconst hstep hdone k (hproc.inner k hk)
termination_by sizeOf e
decreasing_by exact Expr.sizeOf_lt_of_inner hk

/-- Induction over what is below an expression: every read that is met has been found. -/
theorem findReads_induction {M : Expr → Prop} (hconst : ∀ v, M (.const v))
    (hstep : ∀ x, (∀ k ∈ x.inner, M k) → (∀ r : ReadNode, r.toExpr = x → r ∈ findReads e) →
      M x) : M e := by
  have hinit : FindReads.Inv none (FindReads.push ⟨[], [], [], []⟩ e) :=
    FindReads.foldl_push_inv (s := ⟨[], [], [], []⟩) ⟨nofun, nofun⟩ [e]
  obtain ⟨s', hvisited, hresults, hdone⟩ := FindReads.loop_processed _ hinit
  refine FindReads.seen_induction hconst (fun x hinner hread => ?_) hdone e ?_
  · refine hstep x hinner fun r hr => ?_
    rw [findReads, ← hresults]
    exact hread r hr
  · exact (FindReads.push_seen _ e).imp_right (hvisited ·)

/-- A property that passes to what is below an expression holds of its reads. -/
theorem findReads_forall {P : Expr → Prop} (hP : ∀ e, P e → ∀ k ∈ e.inner, P k)
    (he : P e) : ∀ r ∈ findReads e, P r.toExpr :=
  FindReads.Below.loop hP _ (FindReads.Below.push ⟨nofun, nofun⟩ he)

/-- A property of the parts of a read's updates and of its index holds below a read. -/
lemma UpdateNode.forall_parts {P : Expr → Prop} {Q : UpdateNode → Prop}
    (hQ : ∀ next index value, Q (node next index value) → Q next ∧ P index ∧ P value) :
    ∀ {head : UpdateNode}, Q head → ∀ k ∈ head.parts, P k
  | null, _ => nofun
  | node next index value, h => by
    obtain ⟨hnext, hindex, hvalue⟩ := hQ next index value h
    simp only [parts, forall_mem_cons]
    exact ⟨hindex, hvalue, forall_parts hQ hnext⟩

lemma Expr.Typed.inner (h : e.Typed) : ∀ k ∈ e.inner, k.Typed := by
  cases e with
  | read root head index =>
    refine forall_mem_cons.2 ⟨h.2.1, ?_⟩
    exact forall_parts (Q := UpdateNode.Typed root)
      (fun _ _ _ hn => ⟨hn.1, hn.2.1, hn.2.2.1⟩) h.2.2.2
  | _ => exact fun k hk => Expr.Typed.kid h hk

lemma Expr.Indexable.inner (h : e.Indexable) : ∀ k ∈ e.inner, k.Indexable := by
  cases e with
  | read root head index =>
    refine forall_mem_cons.2 ⟨h.2.2, ?_⟩
    exact forall_parts (Q := UpdateNode.Indexable) (fun _ _ _ hn => hn) h.2.1
  | _ => simp_all [Expr.inner, Expr.kids, Expr.Indexable]

lemma Expr.InRange.inner {ρ : Valuation} (h : e.InRange ρ) : ∀ k ∈ e.inner, k.InRange ρ := by
  cases e with
  | read root head index =>
    refine forall_mem_cons.2 ⟨h.1, ?_⟩
    exact forall_parts (Q := UpdateNode.InRange ρ) (fun _ _ _ hn => hn) h.2.1
  | _ => simp_all [Expr.inner, Expr.kids, Expr.InRange]

lemma UpdateNode.exists_part_of_mem_reads {y : KArray × Expr} : ∀ {head : UpdateNode},
    y ∈ head.reads → ∃ k ∈ head.parts, y ∈ k.reads
  | null, h => nomatch h
  | node next index value, h => by
    simp only [reads, mem_append] at h
    simp only [parts, exists_mem_cons_iff]
    rcases h with hnext | hindex | hvalue
    · exact Or.inr (Or.inr (exists_part_of_mem_reads hnext))
    · exact Or.inl hindex
    · exact Or.inr (Or.inl hvalue)

/-- The search finds every read. -/
lemma exists_findReads_of_mem_reads : ∀ y ∈ e.reads, ∃ r ∈ findReads e, y = (r.root, r.index) := by
  refine findReads_induction
    (M := fun x => ∀ y ∈ x.reads, ∃ r ∈ findReads e, y = (r.root, r.index)) 
    (fun _ y hy => absurd hy not_mem_nil) fun x hinner hread y hy => ?_
  cases x with
  | read root head index =>
    simp only [Expr.reads, mem_cons, mem_append] at hy
    rcases hy with rfl | hindex | hhead
    · exact ⟨⟨root, head, index⟩, hread _ rfl, rfl⟩
    · exact hinner index (mem_cons_self ..) y hindex
    · obtain ⟨k, hk, hyk⟩ := exists_part_of_mem_reads hhead
      exact hinner k (mem_cons_of_mem _ hk) y hyk
  | const v => exact absurd hy not_mem_nil
  | _ =>
    simp only [Expr.inner, Expr.kids, forall_mem_cons] at hinner
    simp only [Expr.reads, mem_append] at hy
    grind

lemma UpdateNode.reads_part {head : UpdateNode} (hk : k ∈ head.parts) : k.reads ⊆ head.reads := by
  match head with
  | .null => exact nomatch hk
  | .node next index value =>
    intro y hy
    simp only [parts, mem_cons] at hk
    simp only [reads, mem_append]
    rcases hk with rfl | rfl | hnext
    · exact Or.inr (Or.inl hy)
    · exact Or.inr (Or.inr hy)
    · exact Or.inl (reads_part hnext hy)

lemma Expr.reads_inner (hk : k ∈ e.inner) : k.reads ⊆ e.reads := by
  cases e with
  | read root head index =>
    intro y hy
    rw [reads]
    refine mem_cons_of_mem _ (mem_append.2 ?_)
    rcases mem_cons.1 hk with rfl | hpart
    · exact Or.inl hy
    · exact Or.inr (reads_part hpart hy)
  | const v => exact absurd hk not_mem_nil
  | _ =>
    simp only [inner, kids, mem_cons, not_mem_nil, or_false] at hk
    intro y hy
    grind [Expr.reads]

/-- The search finds reads of the expression. -/
lemma mem_reads_of_findReads : ∀ r ∈ findReads e, (r.root, r.index) ∈ e.reads := by
  intro r hr
  have hsub : r.toExpr.reads ⊆ e.reads :=
    findReads_forall (P := fun x => x.reads ⊆ e.reads)
      (fun x hx k hk => List.Subset.trans (Expr.reads_inner hk) hx) (List.Subset.refl _) r hr
  exact hsub (mem_cons_self ..)

/-- So does the search without the updates. -/
lemma mem_reads_of_findDirectReads : ∀ r ∈ findDirectReads e, (r.root, r.index) ∈ e.reads := by
  intro r hr
  have hsub : r.toExpr.reads ⊆ e.reads :=
    FindReads.Below.loopDirect (P := fun x => x.reads ⊆ e.reads)
      (fun x hx k hk => List.Subset.trans (Expr.reads_inner hk) hx) _
      (FindReads.Below.push (s := ⟨[], [], [], []⟩) ⟨nofun, nofun⟩ (List.Subset.refl _)) r hr
  exact hsub (mem_cons_self ..)

/-! ### The value depends on the cells that are read -/

section Values

variable {ρ τ : Valuation}

/-- The valuations agree on the cell that a read ends in. -/
def ReadNode.Agrees (ρ τ : Valuation) (r : ReadNode) : Prop :=
  r.root.initialValue ρ (r.index.eval ρ).toNat = r.root.initialValue τ (r.index.eval ρ).toNat

/-- Through a chain of updates with equal parts the valuations read the same. -/
lemma UpdateNode.evalAt_congr {root : KArray} {i : APInt} (head : UpdateNode)
    (hparts : ∀ k ∈ head.parts, k.eval ρ = k.eval τ)
    (hroot : root.initialValue ρ i.toNat = root.initialValue τ i.toNat) :
    head.evalAt ρ root i = head.evalAt τ root i := by
  match head with
  | .null => exact hroot
  | .node next index value =>
    simp only [parts, forall_mem_cons] at hparts
    rw [evalAt, evalAt, hparts.1, hparts.2.1, evalAt_congr next hparts.2.2 hroot]

/-- The value of an expression depends on what is directly below it, and that of a read also on
the cell it ends in. -/
lemma Expr.eval_congr (hinner : ∀ k ∈ e.inner, k.eval ρ = k.eval τ)
    (hread : ∀ r : ReadNode, r.toExpr = e → r.Agrees ρ τ) : e.eval ρ = e.eval τ := by
  cases e with
  | read root head index =>
    have hagree := hread ⟨root, head, index⟩ rfl
    simp only [inner, forall_mem_cons] at hinner
    rw [eval, eval, ← hinner.1]
    exact head.evalAt_congr hinner.2 hagree
  | _ => simp_all [inner, kids, eval]

/-- Two valuations that agree on the cells of the reads of an expression give it one value. -/
theorem eval_eq_of_findReads (h : ∀ r ∈ findReads e, r.Agrees ρ τ) : e.eval ρ = e.eval τ :=
  findReads_induction (M := fun x => x.eval ρ = x.eval τ) (fun _ => rfl)
    fun _ hinner hread => Expr.eval_congr hinner fun r hr => h r (hread r hr)

end Values

end Castan
