/-
# Evaluation under an assignment

`Assignment` binds symbolic arrays to bytes, and `ExprEvaluator` is the visitor that evaluates an
expression under it.  The evaluator is partial: it leaves a division by zero as it is, and it does
not look into a `NotOptimized` constant.  Whatever it returns has the value of the expression
under the assignment, and where neither happens it returns a constant.
-/
import Castan.Expr.Constraints

namespace Castan

open Castan.Expr List

variable {o : Opts} {e k e' i value : Expr} {ks : List Expr} {root : KArray} {v : APInt}
  {next : UpdateNode}

/-! ### Assignments -/

/-- `Assignment` without free values: the contents of arrays, in the order of their addresses. -/
structure Assignment where
  bindings : List (KArray × List (BitVec 8))
deriving DecidableEq

namespace Assignment

/-- `bindings.insert`, which keeps an older binding of the array. -/
def insertBinding (array : KArray) (values : List (BitVec 8)) :
    List (KArray × List (BitVec 8)) → List (KArray × List (BitVec 8))
  | [] => [(array, values)]
  | b :: bs =>
      if b.1 = array then b :: bs
      else if array.addr < b.1.addr then (array, values) :: b :: bs
      else b :: insertBinding array values bs

/-- The constructor from parallel lists of arrays and contents. -/
def ofObjects (objects : List KArray) (values : List (List (BitVec 8))) : Assignment :=
  ⟨(objects.zip values).foldl (fun bs b => insertBinding b.1 b.2 bs) []⟩

/-- The cells of the assignment; a cell that is not bound is zero. -/
def valuation (a : Assignment) : Valuation := fun array i =>
  (((a.bindings.lookup array).bind (·[i]?)).map BitVec.toNat).getD 0

/-- `Assignment::evaluate(array, index)`. -/
def evaluateCell (a : Assignment) (array : KArray) (index : ℕ) : APInt :=
  .ofNat array.range (a.valuation array index)

end Assignment

/-! ### Induction over the kids -/

/-- An expression that is neither a constant nor a read: all below it are its kids. -/
def Expr.isNode : Expr → Bool
  | .const _ => false
  | .read _ _ _ => false
  | _ => true

/-- The cases of an induction over expressions and their update lists. -/
structure KidCases (P : Expr → Prop) (Q : UpdateNode → Prop) : Prop where
  const : ∀ c, P (.const c)
  read : ∀ root head index, Q head → P index → P (.read root head index)
  node : ∀ e, e.isNode = true → (∀ k ∈ e.kids, P k) → P e
  null : Q .null
  update : ∀ next i value, Q next → P i → P value → Q (.node next i value)

namespace KidCases

variable {P : Expr → Prop} {Q : UpdateNode → Prop}

mutual

@[elab_as_elim]
theorem expr (h : KidCases P Q) : ∀ e : Expr, P e
  | .const c => h.const c
  | .read root head index => h.read root head index (h.updates head) (h.expr index)
  | .select c t f => h.node _ rfl (by simp [kids, h.expr c, h.expr t, h.expr f])
  | .concat l r => h.node _ rfl (by simp [kids, h.expr l, h.expr r])
  | .bin _ l r => h.node _ rfl (by simp [kids, h.expr l, h.expr r])
  | .notOptimized e | .extract e _ _ | .zExt e _ | .sExt e _ | .not e =>
    h.node _ rfl (by simp [kids, h.expr e])

theorem updates (h : KidCases P Q) : ∀ head : UpdateNode, Q head
  | .null => h.null
  | .node next i value => h.update next i value (h.updates next) (h.expr i) (h.expr value)

end

end KidCases

/-! ### The evaluator -/

/-- The divisions, which `ExprEvaluator` overrides. -/
def BinKind.isDiv : BinKind → Bool
  | uDiv | sDiv | uRem | sRem => true
  | _ => false

namespace ExprEvaluator

/-- `ExprEvaluator::visitExprPost`. -/
def visitExprPost : Expr → Expr
  | .notOptimized src => src
  | e => e

/-- The default action: rebuild the expression if a kid has changed. -/
def doChildren (o : Opts) (e : Expr) (kids : List Expr) : Expr :=
  visitExprPost (if kids ≠ e.kids then e.rebuild o kids else e)

/-- An expression without an action of its own, given its visited kids.  `visitExpr` rebuilds an
expression over constants, in case it was not folded in construction. -/
def visitNode (o : Opts) (e : Expr) (kids : List Expr) : Expr :=
  if e.kids.all Expr.isConst then e.rebuild o e.kids else doChildren o e kids

/-- `protectedDivOperation`: a divisor that evaluates to zero is left as it is. -/
def visitDiv (o : Opts) (k : BinKind) (l r l' r' : Expr) : Expr :=
  let r'' := if r'.constant?.any APInt.isZero then r else r'
  if l.isConst && r.isConst then k.create o l r
  else if l' ≠ l ∨ r'' ≠ r then k.create o l' r''
  else .bin k l r

mutual

/-- `visit` for any `getInitialValue`, which `ExprEvaluator` leaves to its subclasses. -/
def visit (o : Opts) (getInitialValue : KArray → ℕ → Expr) : Expr → Expr
  | .const c => .const c
  | .notOptimized src => visitNode o (.notOptimized src) [visit o getInitialValue src]
  | .read root head index =>
      match (visit o getInitialValue index).constant? with
      | some c => evalRead o getInitialValue root head (c.toNat % 2 ^ 32)
      | none => doChildren o (.read root head index) [visit o getInitialValue index]
  | .select c t f =>
      visitNode o (.select c t f) [visit o getInitialValue c, visit o getInitialValue t,
        visit o getInitialValue f]
  | .concat l r =>
      visitNode o (.concat l r) [visit o getInitialValue l, visit o getInitialValue r]
  | .extract e off w => visitNode o (.extract e off w) [visit o getInitialValue e]
  | .zExt e w => visitNode o (.zExt e w) [visit o getInitialValue e]
  | .sExt e w => visitNode o (.sExt e w) [visit o getInitialValue e]
  | .not e => visitNode o (.not e) [visit o getInitialValue e]
  | .bin k l r =>
      if k.isDiv then
        visitDiv o k l r (visit o getInitialValue l) (visit o getInitialValue r)
      else visitNode o (.bin k l r) [visit o getInitialValue l, visit o getInitialValue r]

/-- `evalRead` for an `unsigned` index. -/
def evalRead (o : Opts) (getInitialValue : KArray → ℕ → Expr) (root : KArray) :
    UpdateNode → (index : ℕ) → Expr
  | .null, index => ((root.constantValues[index]?).map .const).getD (getInitialValue root index)
  | .node next i value, index =>
      match (visit o getInitialValue i).constant? with
      | some c =>
          if c.toNat = index then visit o getInitialValue value
          else evalRead o getInitialValue root next index
      | none =>
          -- the update may or may not be the one read
          ReadExpr.create o root (.node next i value) (.const (.ofNat root.domain index))

end

/-- The rest of `visitActual` for an expression that is neither a constant nor a read, given its
visited kids. -/
def visitKids (o : Opts) : Expr → List Expr → Expr
  | .bin k l r, [l', r'] =>
      if k.isDiv then visitDiv o k l r l' r' else visitNode o (.bin k l r) [l', r']
  | e, kids => visitNode o e kids

lemma visit_node {cell : KArray → ℕ → Expr} (h : e.isNode = true) :
    visit o cell e = visitKids o e (e.kids.map (visit o cell)) := by
  cases e with
  | const c => cases h
  | read root head index => cases h
  | _ => rw [visit]; rfl

end ExprEvaluator

/-- `Assignment::evaluate(e)` without free values, where every cell is a constant. -/
def Assignment.evaluate (o : Opts) (a : Assignment) (e : Expr) : Expr :=
  ExprEvaluator.visit o (fun root index => .const (a.evaluateCell root index)) e

/-- `Assignment::satisfies`. -/
def Assignment.satisfies (o : Opts) (a : Assignment) (es : List Expr) : Bool :=
  es.all fun e => (a.evaluate o e).constant?.any APInt.isTrue

/-! ### What the evaluator can deal with -/

mutual

/-- The indices of all arrays fit into an `unsigned`. -/
def Expr.Indexable : Expr → Prop
  | .const _ => True
  | .notOptimized src => src.Indexable
  | .read root head index => root.domain ≤ 32 ∧ head.Indexable ∧ index.Indexable
  | .select c t f => c.Indexable ∧ t.Indexable ∧ f.Indexable
  | .concat l r => l.Indexable ∧ r.Indexable
  | .extract e _ _ => e.Indexable
  | .zExt e _ => e.Indexable
  | .sExt e _ => e.Indexable
  | .not e => e.Indexable
  | .bin _ l r => l.Indexable ∧ r.Indexable

def UpdateNode.Indexable : UpdateNode → Prop
  | .null => True
  | .node next index value => next.Indexable ∧ index.Indexable ∧ value.Indexable

end

mutual

/-- No divisor is zero under `ρ`, and no constant is hidden below a `NotOptimized`. -/
def Expr.Evaluable (ρ : Valuation) : Expr → Prop
  | .const _ => True
  | .notOptimized src => src.isConst = false ∧ src.Evaluable ρ
  | .read _ head index => head.Evaluable ρ ∧ index.Evaluable ρ
  | .select c t f => c.Evaluable ρ ∧ t.Evaluable ρ ∧ f.Evaluable ρ
  | .concat l r => l.Evaluable ρ ∧ r.Evaluable ρ
  | .extract e _ _ => e.Evaluable ρ
  | .zExt e _ => e.Evaluable ρ
  | .sExt e _ => e.Evaluable ρ
  | .not e => e.Evaluable ρ
  | .bin k l r =>
      l.Evaluable ρ ∧ r.Evaluable ρ ∧ (k.isDiv = true → (r.eval ρ).isZero = false)

def UpdateNode.Evaluable (ρ : Valuation) : UpdateNode → Prop
  | .null => True
  | .node next index value => next.Evaluable ρ ∧ index.Evaluable ρ ∧ value.Evaluable ρ

end

/-! ### The negation of an indexable expression -/

mutual

/-- The arrays and indices of the reads below an expression. -/
def Expr.reads : Expr → List (KArray × Expr)
  | .const _ => []
  | .notOptimized src => src.reads
  | .read root head index => (root, index) :: (index.reads ++ head.reads)
  | .select c t f => c.reads ++ (t.reads ++ f.reads)
  | .concat l r => l.reads ++ r.reads
  | .extract e _ _ => e.reads
  | .zExt e _ => e.reads
  | .sExt e _ => e.reads
  | .not e => e.reads
  | .bin _ l r => l.reads ++ r.reads

def UpdateNode.reads : UpdateNode → List (KArray × Expr)
  | .null => []
  | .node next index value => next.reads ++ (index.reads ++ value.reads)

end

/-- Under `ρ` every read ends in a cell of its array with the property `P`. -/
def ReadsIn (P : KArray → ℕ → Prop) (ρ : Valuation) (reads : List (KArray × Expr)) : Prop :=
  ∀ r ∈ reads, P r.1 (r.2.eval ρ).toNat

lemma Expr.Indexable.kid (h : e.Indexable) (hk : k ∈ e.kids) : k.Indexable := by
  have hall : ∀ k ∈ e.kids, k.Indexable := by cases e <;> simp_all [kids, Expr.Indexable]
  exact hall k hk

lemma Expr.Evaluable.kid {ρ : Valuation} (h : e.Evaluable ρ) (hk : k ∈ e.kids) : k.Evaluable ρ := by
  have hall : ∀ k ∈ e.kids, k.Evaluable ρ := by cases e <;> simp_all [kids, Expr.Evaluable]
  exact hall k hk

lemma Expr.reads_kid (hk : k ∈ e.kids) : k.reads ⊆ e.reads := by
  have hall : ∀ k ∈ e.kids, k.reads ⊆ e.reads := by
    cases e <;> simp +contextual [kids, reads, subset_def]
  exact hall k hk

lemma hereditary_indexable : Hereditary fun e => e.Canon ∧ e.Indexable where
  const _ := ⟨trivial, trivial⟩
  bin hl hr h := ⟨hl.1.bin hr.1 h, hl.2, hr.2⟩
  left h := ⟨h.1.1, h.2.1⟩
  right h := ⟨h.1.2.1, h.2.2⟩
  zExt h := ⟨h.1.1, h.2⟩
  sExt h := ⟨h.1.1, h.2⟩
  index h := ⟨h.1.2, h.2.2.2⟩
  not_isConst h := h.1.not_isConst

lemma Expr.createIsZero_indexable (hc : e.Canon) (h : e.Indexable) : (e.createIsZero o).Indexable :=
  (hereditary_indexable.createIsZero ⟨hc, h⟩).2

/-! ### What the evaluator visits -/

/-- The indices and values that a read at `i` compares and returns: the updates before the first
one at `i`, with their indices only, and that one. -/
def UpdateNode.visited (ρ : Valuation) (i : APInt) : UpdateNode → List Expr
  | .null => []
  | .node next index value =>
      index :: if index.eval ρ = i then [value] else next.visited ρ i

/-- The evaluation of the second expression under `ρ` visits the first one. -/
inductive Expr.Visited (ρ : Valuation) : Expr → Expr → Prop
  | refl (e : Expr) : Visited ρ e e
  | kid {e' k e : Expr} : k ∈ e.kids → Visited ρ e' k → Visited ρ e' e
  | update {e' x index : Expr} {root : KArray} {head : UpdateNode} :
      x ∈ head.visited ρ (index.eval ρ) → Visited ρ e' x → Visited ρ e' (.read root head index)

lemma UpdateNode.Evaluable.visited {ρ : Valuation} {v : APInt} {x : Expr} :
    ∀ {head : UpdateNode}, head.Evaluable ρ → x ∈ head.visited ρ v →
      x.Evaluable ρ ∧ x.reads ⊆ head.reads
  | .node next index value, ⟨hn, hi, hvalue⟩, hx => by
    rcases mem_cons.1 hx with rfl | hx
    · exact ⟨hi, fun r hr => mem_append_right _ (mem_append_left _ hr)⟩
    split at hx
    · obtain rfl := mem_singleton.1 hx
      exact ⟨hvalue, fun r hr => mem_append_right _ (mem_append_right _ hr)⟩
    · exact ⟨(hn.visited hx).1, fun r hr => mem_append_left _ ((hn.visited hx).2 hr)⟩

/-! ### Values -/

section Values

variable {o : Opts} {a : Assignment} {S : Valuation → Prop} {ρ : Valuation}

/-- A canonical expression with the value of `e` under the valuations in `S`. -/
structure Evaluates (o : Opts) (S : Valuation → Prop) (e' e : Expr) : Prop where
  refinesOn : RefinesOn o S e' e
  canon : e'.Canon

lemma Evaluates.refl (h : e.Typed) (hc : e.Canon) : Evaluates o S e e :=
  ⟨RefinesOn.refl h, hc⟩

lemma Evaluates.eval_eq (h : Evaluates o S e' e) (hρ : S ρ) (hd : e.Defined o ρ) :
    e'.eval ρ = e.eval ρ :=
  h.refinesOn.evalOn _ hρ hd

lemma Evaluates.trans {e'' : Expr} (h₂ : Evaluates o S e'' e') (h₁ : Evaluates o S e' e) :
    Evaluates o S e'' e :=
  ⟨h₂.refinesOn.trans h₁.refinesOn, h₂.canon⟩

lemma rebuild_evaluates (he : e.Typed) (hc : e.Canon)
    (hks : List.Forall₂ (Evaluates o S) ks e.kids) : Evaluates o S (e.rebuild o ks) e := by
  have hreb := rebuild_rebuilt he hc (hks.imp fun _ _ h => ⟨h.refinesOn, h.canon⟩)
  exact ⟨hreb.refinesOn, hreb.canon⟩

namespace ExprEvaluator

lemma visitExprPost_evaluates (he : e.Typed) (hc : e.Canon) :
    Evaluates o S (visitExprPost e) e := by
  cases e with
  | notOptimized src =>
    refine ⟨⟨he, rfl, fun _ _ _ => rfl, fun _ _ h => h, ?_⟩, hc⟩
    simp only [visitExprPost, weight]
    omega
  | _ => exact Evaluates.refl he hc

lemma doChildren_evaluates (he : e.Typed) (hc : e.Canon)
    (hks : List.Forall₂ (Evaluates o S) ks e.kids) : Evaluates o S (doChildren o e ks) e := by
  rw [doChildren]
  split
  · have hreb := rebuild_evaluates he hc hks
    exact (visitExprPost_evaluates hreb.refinesOn.typed hreb.canon).trans hreb
  · exact visitExprPost_evaluates he hc

lemma visitNode_evaluates (he : e.Typed) (hc : e.Canon)
    (hks : List.Forall₂ (Evaluates o S) ks e.kids) : Evaluates o S (visitNode o e ks) e := by
  rw [visitNode]
  split
  · exact rebuild_evaluates he hc (List.forall₂_same.mpr fun k hk =>
      Evaluates.refl (he.kid hk) (hc.kid hk))
  · exact doChildren_evaluates he hc hks

lemma visitDiv_evaluates {k : BinKind} {l r l' r' : Expr} (he : (bin k l r).Typed)
    (hc : (bin k l r).Canon) (hl : Evaluates o S l' l) (hr : Evaluates o S r' r) :
    Evaluates o S (visitDiv o k l r l' r') (.bin k l r) := by
  have hlrefl : Evaluates o S l l := Evaluates.refl he.1 hc.1
  have hrrefl : Evaluates o S r r := Evaluates.refl he.2.1 hc.2.1
  have hcreate : ∀ x y, Evaluates o S x l → Evaluates o S y r →
      Evaluates o S (k.create o x y) (.bin k l r) := by
    intro x y hx hy
    have hks : List.Forall₂ (Evaluates o S) [x, y] [l, r] := .cons hx (.cons hy .nil)
    exact rebuild_evaluates he hc hks
  have hr'' : Evaluates o S (if r'.constant?.any APInt.isZero then r else r') r := by
    split
    · exact hrrefl
    · exact hr
  unfold visitDiv
  extract_lets r''
  split
  · exact hcreate l r hlrefl hrrefl
  · split
    · exact hcreate l' r'' hl hr''
    · exact Evaluates.refl he hc

/-- A constant with the value of a cell that is read without updates. -/
lemma const_evaluates {index : ℕ} (hroot : root.WF)
    (hindex : index < 2 ^ root.domain) (h : ∀ ρ, S ρ → root.initialValue ρ index = v)
    (hwidth : v.width = root.range) :
    Evaluates o S (.const v) (.read root .null (.const (.ofNat root.domain index))) := by
  refine ⟨⟨?_, hwidth, fun ρ hρ _ => ?_, fun _ _ _ => trivial, Nat.zero_le _⟩, trivial⟩
  · rw [Expr.Typed, hwidth]
    exact hroot.range_pos
  · simp only [eval, UpdateNode.evalAt, APInt.ofNat, APInt.toNat, BitVec.toNat_ofNat,
      Nat.mod_eq_of_lt hindex]
    exact (h ρ hρ).symm

/-- A cell that stays a read. -/
lemma create_evaluates (hroot : root.WF) (index : ℕ) :
    Evaluates o S (ReadExpr.create o root .null (.const (.ofNat root.domain index)))
      (.read root .null (.const (.ofNat root.domain index))) := by
  have hread : (read root .null (.const (.ofNat root.domain index))).Typed :=
    ⟨hroot, hroot.domain_pos, rfl, trivial⟩
  exact ⟨RefinesOn.of_refines (ReadExpr.create_refines hread),
    ReadExpr.create_canon trivial trivial⟩

/-- A step over an update. -/
lemma read_next_evaluates {c : Expr} (h : Evaluates o S e (.read root next c))
    (hne : ∀ ρ, S ρ → i.Defined o ρ → i.eval ρ ≠ c.eval ρ) :
    Evaluates o S e (.read root (.node next i value) c) := by
  refine ⟨⟨h.refinesOn.typed, h.refinesOn.width_eq, ?_, ?_, ?_⟩, h.canon⟩
  · intro ρ hS hρ
    have hne' := hne ρ hS fun ho => (hρ ho).2.1.2.1
    rw [h.refinesOn.evalOn _ hS fun ho => ⟨(hρ ho).1, (hρ ho).2.1.1, (hρ ho).2.2⟩, eval,
      eval, UpdateNode.evalAt, if_neg hne']
  · intro ρ hS hρ
    exact h.refinesOn.inRangeOn _ hS ⟨hρ.1, hρ.2.1.1, hρ.2.2⟩
  · refine h.refinesOn.weight_le.trans ?_
    simp only [weight, UpdateNode.weight]
    omega

/-- The update that is read. -/
lemma read_here_evaluates {c : Expr}
    (hhead : (UpdateNode.node next i value).Typed root) (h : Evaluates o S e value)
    (heq : ∀ ρ, S ρ → i.Defined o ρ → i.eval ρ = c.eval ρ) :
    Evaluates o S e (.read root (.node next i value) c) := by
  refine ⟨⟨h.refinesOn.typed, h.refinesOn.width_eq.trans hhead.2.2.2.2, ?_, ?_, ?_⟩, h.canon⟩
  · intro ρ hS hρ
    have heq' := heq ρ hS fun ho => (hρ ho).2.1.2.1
    rw [h.refinesOn.evalOn _ hS fun ho => (hρ ho).2.1.2.2, eval, UpdateNode.evalAt,
      if_pos heq']
  · intro ρ hS hρ
    exact h.refinesOn.inRangeOn _ hS hρ.2.1.2.2
  · refine h.refinesOn.weight_le.trans ?_
    simp only [weight, UpdateNode.weight]
    omega

/-- What `getInitialValue` returns has the initial value of the cell under the valuations in
`S`. -/
def InitialValues (o : Opts) (S : Valuation → Prop) (cell : KArray → ℕ → Expr) : Prop :=
  ∀ (root : KArray) (index : ℕ), root.WF → index < 2 ^ root.domain →
    root.constantValues[index]? = none →
    Evaluates o S (cell root index) (.read root .null (.const (.ofNat root.domain index)))

variable {cell : KArray → ℕ → Expr}

lemma visitKids_evaluates (he : e.Typed) (hc : e.Canon)
    (hks : List.Forall₂ (Evaluates o S) ks e.kids) : Evaluates o S (visitKids o e ks) e := by
  rw [visitKids.eq_def]
  split
  · next k l r l' r' =>
    obtain ⟨_, _, heq, hl, hr⟩ := forall₂_pair hks
    obtain ⟨rfl, rfl⟩ : l' = _ ∧ r' = _ := by simpa using heq
    split
    · exact visitDiv_evaluates he hc hl hr
    · exact visitNode_evaluates he hc hks
  · exact visitNode_evaluates he hc hks

/-- What the evaluator makes of a read behind the updates `head`. -/
def ReadsEvaluate (o : Opts) (S : Valuation → Prop) (cell : KArray → ℕ → Expr)
    (head : UpdateNode) : Prop :=
  ∀ (root : KArray) (index : ℕ), root.WF → head.Typed root → head.Canon → head.Indexable →
    index < 2 ^ root.domain →
    Evaluates o S (evalRead o cell root head index)
      (.read root head (.const (.ofNat root.domain index)))

lemma visit_read_evaluates {head : UpdateNode} {index : Expr}
    (hhead : ReadsEvaluate o S cell head) (he : (read root head index).Typed)
    (hc : (read root head index).Canon) (hi : (read root head index).Indexable)
    (hindex : Evaluates o S (visit o cell index) index) :
    Evaluates o S (visit o cell (.read root head index)) (.read root head index) := by
  rw [visit]
  split
  · next c hconst =>
    rw [constant?_eq_some.mp hconst] at hindex
    have hw : c.width = root.domain := hindex.refinesOn.width_eq.trans he.2.2.1
    have hlt : c.toNat < 2 ^ root.domain := by
      rw [← hw]
      exact c.toNat_lt
    have hmod : c.toNat % 2 ^ 32 = c.toNat :=
      Nat.mod_eq_of_lt (hlt.trans_le (Nat.pow_le_pow_right (by decide) hi.1))
    have hread := hhead root c.toNat he.1 he.2.2.2 hc.1 hi.2.1 hlt
    rw [← hw, ← APInt.eq_ofNat_toNat] at hread
    rw [hmod]
    exact hread.trans ⟨hindex.refinesOn.read he, hc.1, trivial⟩
  · exact doChildren_evaluates he hc (.cons hindex .nil)

lemma ReadsEvaluate.update (hnext : ReadsEvaluate o S cell next)
    (hi : i.Typed → i.Canon → i.Indexable → Evaluates o S (visit o cell i) i)
    (hvalue : value.Typed → value.Canon → value.Indexable →
      Evaluates o S (visit o cell value) value) :
    ReadsEvaluate o S cell (.node next i value) := by
  intro root index hroot htyped hcanon hidx hlt
  have hindex := hi htyped.2.1 hcanon.2.1 hidx.2.1
  rw [evalRead]
  split
  · next c hconst =>
    rw [constant?_eq_some.mp hconst] at hindex
    have hw : c.width = root.domain := hindex.refinesOn.width_eq.trans htyped.2.2.2.1
    have heval : ∀ ρ, S ρ → i.Defined o ρ →
        (i.eval ρ = APInt.ofNat root.domain index ↔ c.toNat = index) := by
      intro ρ hρ hd
      rw [← hindex.eval_eq hρ hd, eval]
      constructor
      · intro h
        rw [h, APInt.ofNat, APInt.toNat, BitVec.toNat_ofNat, Nat.mod_eq_of_lt hlt]
      · rintro rfl
        rw [← hw, ← APInt.eq_ofNat_toNat]
    split
    · next heq =>
      exact read_here_evaluates htyped (hvalue htyped.2.2.1 hcanon.2.2 hidx.2.2)
        fun ρ hρ hd => (heval ρ hρ hd).mpr heq
    · next hne =>
      exact read_next_evaluates (hnext root index hroot htyped.1 hcanon.1 hidx.1 hlt)
        fun ρ hρ hd h => hne ((heval ρ hρ hd).mp h)
  · have hread : (read root (.node next i value) (.const (.ofNat root.domain index))).Typed :=
      ⟨hroot, hroot.domain_pos, rfl, htyped⟩
    exact ⟨RefinesOn.of_refines (ReadExpr.create_refines hread),
      ReadExpr.create_canon hcanon trivial⟩

/-- The evaluator keeps the value under the valuations for which `getInitialValue` is right. -/
theorem visit_evaluates (hcell : InitialValues o S cell) (e : Expr) (he : e.Typed)
    (hc : e.Canon) (hi : e.Indexable) : Evaluates o S (visit o cell e) e := by
  revert he hc hi
  refine KidCases.expr (Q := ReadsEvaluate o S cell) ⟨?_, ?_, ?_, ?_, ?_⟩ e
  · intro c he hc _
    rw [visit]
    exact Evaluates.refl he hc
  · intro root head index hhead hindex he hc hi
    exact visit_read_evaluates hhead he hc hi (hindex he.2.1 hc.2 hi.2.2)
  · intro e hnode ih he hc hi
    rw [visit_node hnode]
    refine visitKids_evaluates he hc (List.forall₂_map_left_iff.mpr (List.forall₂_same.mpr ?_))
    exact fun k hk => ih k hk (he.kid hk) (hc.kid hk) (hi.kid hk)
  · intro root index hroot _ _ _ hlt
    rw [evalRead]
    cases hv : root.constantValues[index]? with
    | none => exact hcell root index hroot hlt hv
    | some v =>
      refine const_evaluates hroot hlt (fun ρ _ => ?_) (hroot.values_width v (mem_of_getElem? hv))
      rw [KArray.initialValue, hv, Option.getD_some]
  · intro next i value hnext hi hvalue
    exact hnext.update hi hvalue

/-! ### Constants -/

/-- The constant with the value of an expression. -/
def valueOf (ρ : Valuation) (e : Expr) : Expr := .const (e.eval ρ)

lemma valueOf_refinesOn (h : e.Typed) : RefinesOn o (· = ρ) (valueOf ρ e) e := by
  refine ⟨?_, eval_width ρ h, ?_, fun _ _ _ => trivial, Nat.zero_le _⟩
  · rw [valueOf, Expr.Typed, eval_width ρ h]
    exact h.width_pos
  · rintro _ rfl _
    rfl

/-- What replaces a node over constants is the constant with its value. -/
lemma eq_const_of_refines (ρ : Valuation) {p : Expr} (h : Refines o e' p) (hc : e'.Canon)
    (hp : p.weight = 0) (hin : p.InRange ρ) (hv : p.eval ρ = v) : e' = .const v := by
  have hconst : e'.isConst = true := by
    by_contra hne
    have hpos := hc.weight_pos (by simpa using hne)
    have hle := h.weight_le
    omega
  obtain ⟨c, rfl⟩ := isConst_iff.mp hconst
  rw [← hv, ← h.eval_eq ρ fun _ => hin, eval]

/-- A node over constants is folded. -/
lemma rebuild_values (he : e.Typed) (hnode : e.isNode = true) (hno : ∀ s, e ≠ .notOptimized s) :
    e.rebuild o (e.kids.map (valueOf ρ)) = .const (e.eval ρ) := by
  have hk : ∀ {k : Expr}, k.Typed → RefinesOn o (· = ρ) (valueOf ρ k) k := valueOf_refinesOn
  have hcanon : ∀ k : Expr, (valueOf ρ k).Canon := fun _ => trivial
  cases e with
  | const c => cases hnode
  | read root head index => cases hnode
  | notOptimized s => exact absurd rfl (hno s)
  | select c t f =>
    simp only [kids, map_cons, map_nil, rebuild, SelectExpr.create, valueOf,
      constant?_const, eval]
    split <;> rfl
  | concat l r =>
    have hplain := (hk he.1).concat (hk he.2)
    exact eq_const_of_refines ρ (ConcatExpr.create_refines (o := o) hplain.typed)
      (ConcatExpr.createAux_canon _ _ (hcanon l) (hcanon r)) rfl ⟨trivial, trivial⟩ rfl
  | bin k l r =>
    have hplain := RefinesOn.bin k (hk he.1) (hk he.2.1) he.2.2
    exact eq_const_of_refines ρ (BinKind.create_refines (o := o) k hplain.typed)
      (BinKind.create_canon k (hcanon l) (hcanon r)) rfl ⟨trivial, trivial⟩ rfl
  | extract x off w =>
    have hplain := (hk he.1).extract he.2.1 he.2.2
    exact eq_const_of_refines ρ (ExtractExpr.create_refines (o := o) hplain.typed)
      (ExtractExpr.createAux_canon _ off w (hcanon x)) rfl trivial rfl
  | zExt x w =>
    have hx := hk he.1
    have hplain := ZExtExpr.create_refines (o := o) hx.typed (he.1.width_pos.trans_le he.2)
    rw [zExtOrTrunc, if_neg (hx.width_eq.trans_le he.2).not_gt] at hplain
    exact eq_const_of_refines ρ hplain (ZExtExpr.create_canon (hcanon x) w) rfl trivial rfl
  | sExt x w =>
    have hx := hk he.1
    have hplain := SExtExpr.create_refines (o := o) hx.typed (he.1.width_pos.trans_le he.2)
    rw [sExtOrTrunc, if_neg (hx.width_eq.trans_le he.2).not_gt] at hplain
    exact eq_const_of_refines ρ hplain (SExtExpr.create_canon (hcanon x) w) rfl trivial rfl
  | not x => rfl

/-- The kids are constants only if they are their values. -/
lemma map_valueOf_eq {es : List Expr} : es.map (valueOf ρ) = es ↔ es.all isConst = true := by
  have hvalue : ∀ e : Expr, valueOf ρ e = e ↔ e.isConst = true := by
    intro e
    refine ⟨fun h => h ▸ rfl, fun h => ?_⟩
    obtain ⟨c, rfl⟩ := isConst_iff.mp h
    rfl
  induction es with
  | nil => simp
  | cons e es ih => simp [hvalue, ih]

lemma visitNode_values (he : e.Typed) (hnode : e.isNode = true)
    (hno : ∀ c, e ≠ .notOptimized (.const c)) :
    visitNode o e (e.kids.map (valueOf ρ)) = .const (e.eval ρ) := by
  by_cases hsrc : ∃ s, e = .notOptimized s
  · obtain ⟨s, rfl⟩ := hsrc
    have hs : s.isConst = false := by
      cases s with
      | const c => exact absurd rfl (hno c)
      | _ => rfl
    have hne : [valueOf ρ s] ≠ [s] := fun heq => by
      rw [← (List.cons.inj heq).1] at hs
      cases hs
    simp only [visitNode, kids, all_cons, hs, Bool.false_and, Bool.false_eq_true, if_false,
      doChildren, map_cons, map_nil, if_pos hne]
    rfl
  · have hfold := rebuild_values (o := o) (ρ := ρ) he hnode fun s hs => hsrc ⟨s, hs⟩
    rw [visitNode]
    split
    · next hall => rwa [map_valueOf_eq.mpr hall] at hfold
    · next hall =>
      rw [doChildren, if_pos fun heq => hall (map_valueOf_eq.mp heq), hfold]
      rfl

lemma visitDiv_values {k : BinKind} {l r : Expr} (he : (bin k l r).Typed)
    (hzero : (r.eval ρ).isZero = false) :
    visitDiv o k l r (valueOf ρ l) (valueOf ρ r) = .const ((bin k l r).eval ρ) := by
  have hfold := rebuild_values (o := o) (ρ := ρ) he rfl (by simp)
  have hz : (valueOf ρ r).constant?.any APInt.isZero = false := by simpa [valueOf] using hzero
  simp only [visitDiv, hz, Bool.false_eq_true, if_false]
  split
  · next hall =>
    have hall' : (bin k l r).kids.all isConst = true := by simpa [kids] using hall
    rwa [map_valueOf_eq.mpr hall'] at hfold
  · next hall =>
    have hne : valueOf ρ l ≠ l ∨ valueOf ρ r ≠ r := by
      by_contra heq
      push Not at heq
      exact hall (by rw [← heq.1, ← heq.2]; rfl)
    rw [if_pos hne]
    exact hfold

/-- The cell is a constant of the array, or `getInitialValue` gives its value. -/
def CellValue (cell : KArray → ℕ → Expr) (ρ : Valuation) (root : KArray) (i : ℕ) : Prop :=
  root.constantValues[i]? = none → cell root i = .const (root.initialValue ρ i)

/-- The evaluator can deal with a node over constants. -/
structure Folds (cell : KArray → ℕ → Expr) (ρ : Valuation) (e : Expr) : Prop where
  not_hidden : ∀ c, e ≠ .notOptimized (.const c)
  divisor : ∀ k l r, e = .bin k l r → k.isDiv = true → (r.eval ρ).isZero = false
  cellValue : ∀ root head index, e = .read root head index →
    CellValue cell ρ root (index.eval ρ).toNat

lemma visitKids_values (he : e.Typed) (hnode : e.isNode = true) (hf : Folds cell ρ e) :
    visitKids o e (e.kids.map (valueOf ρ)) = .const (e.eval ρ) := by
  cases e with
  | bin k l r =>
    simp only [kids, map_cons, map_nil, visitKids]
    split
    · next hdiv => exact visitDiv_values he (hf.divisor k l r rfl hdiv)
    · exact visitNode_values he hnode hf.not_hidden
  | _ => exact visitNode_values he hnode hf.not_hidden

/-- An expression is evaluated to the constant with its value if all that is visited on the way
can be dealt with. -/
theorem visit_values (e : Expr) (he : e.Typed) (hi : e.Indexable)
    (hf : ∀ e' : Expr, e'.Visited ρ e → Folds cell ρ e') : visit o cell e = .const (e.eval ρ) := by
  revert he hi hf
  refine KidCases.expr (Q := fun head => ∀ (root : KArray) (i : APInt), i.width = root.domain →
    head.Typed root → head.Indexable →
    (∀ x ∈ head.visited ρ i, ∀ e' : Expr, e'.Visited ρ x → Folds cell ρ e') →
    CellValue cell ρ root i.toNat →
    evalRead o cell root head i.toNat = .const (head.evalAt ρ root i)) ⟨?_, ?_, ?_, ?_, ?_⟩ e
  · intro c _ _ _
    rw [visit, eval]
  · intro root head index hhead hindex he hi hf
    have hw : (index.eval ρ).width = root.domain := (eval_width ρ he.2.1).trans he.2.2.1
    have hlt : (index.eval ρ).toNat < 2 ^ 32 :=
      (index.eval ρ).toNat_lt.trans_le (Nat.pow_le_pow_right (by decide) (hw ▸ hi.1))
    have hconst := hindex he.2.1 hi.2.2 fun e' h => hf e' (.kid (by simp [kids]) h)
    rw [visit, hconst]
    simp only [constant?_const, Nat.mod_eq_of_lt hlt]
    exact hhead root _ hw he.2.2.2 hi.2.1 (fun x hx e' h => hf e' (.update hx h))
      ((hf _ (.refl _)).cellValue root head index rfl)
  · intro e hnode ih he hi hf
    have hkids : e.kids.map (visit o cell) = e.kids.map (valueOf ρ) :=
      map_congr_left fun k hk => ih k hk (he.kid hk) (hi.kid hk) fun e' h => hf e' (.kid hk h)
    rw [visit_node hnode, hkids, visitKids_values he hnode (hf e (.refl e))]
  · intro root i _ _ _ _ hend
    rw [evalRead, UpdateNode.evalAt]
    cases hv : root.constantValues[i.toNat]? with
    | none => exact hend hv
    | some v =>
      rw [KArray.initialValue, hv]
      rfl
  · intro next x value hnext hx hvalue root i hw ht hidx hf hend
    obtain ⟨hfx, hrest⟩ := forall_mem_cons.1 hf
    have heq : (x.eval ρ).toNat = i.toNat ↔ x.eval ρ = i := by
      refine ⟨fun h => ?_, fun h => h ▸ rfl⟩
      rw [(x.eval ρ).eq_ofNat_toNat, h, eval_width ρ ht.2.1, ht.2.2.2.1, ← hw,
        ← APInt.eq_ofNat_toNat]
    rw [evalRead, hx ht.2.1 hidx.2.1 hfx, UpdateNode.evalAt]
    simp only [constant?_const, heq]
    split
    · next h =>
      rw [if_pos h] at hrest
      exact hvalue ht.2.2.1 hidx.2.2 (hrest value mem_cons_self)
    · next h =>
      rw [if_neg h] at hrest
      exact hnext root i hw ht.1 hidx.1 hrest hend

/-- All that is visited in an evaluable expression can be dealt with. -/
lemma folds_of_evaluable (hev : e.Evaluable ρ) (hr : ReadsIn (CellValue cell ρ) ρ e.reads)
    (h : e'.Visited ρ e) : Folds cell ρ e' := by
  induction h with
  | refl =>
    refine ⟨?_, ?_, ?_⟩
    · rintro c rfl
      exact absurd hev.1 (by simp)
    · rintro k l r rfl
      exact hev.2.2
    · rintro root head index rfl
      exact hr _ mem_cons_self
  | kid hk _ ih => exact ih (hev.kid hk) fun r hr' => hr r (reads_kid hk hr')
  | update hx _ ih =>
    obtain ⟨hxev, hreads⟩ := hev.1.visited hx
    exact ih hxev fun r hr' => hr r (mem_cons_of_mem _ (mem_append_right _ (hreads hr')))

lemma initialValues_assignment :
    InitialValues o (· = a.valuation) fun root index => .const (a.evaluateCell root index) := by
  intro root index hroot hlt hnone
  refine const_evaluates hroot hlt ?_ rfl
  rintro ρ rfl
  rw [KArray.initialValue, hnone, Option.getD_none, Assignment.evaluateCell]

end ExprEvaluator

/-- An assignment that `satisfies` some constraints makes them true. -/
lemma Assignment.holds_of_satisfies {es : List Expr} (h : a.satisfies o es = true)
    (hes : ∀ e ∈ es, e.IsConstraint ∧ e.Indexable ∧ e.Defined o a.valuation) :
    ∀ e ∈ es, e.Holds a.valuation := by
  intro e he
  obtain ⟨hcons, hi, hd⟩ := hes e he
  have hval : Evaluates o (· = a.valuation) (a.evaluate o e) e :=
    ExprEvaluator.visit_evaluates ExprEvaluator.initialValues_assignment e hcons.typed hcons.canon
      hi
  have htrue := all_eq_true.mp h e he
  cases hconst : (a.evaluate o e).constant? with
  | none => simp [hconst] at htrue
  | some c =>
    rw [hconst] at htrue
    rw [Expr.Holds, ← hval.eval_eq rfl hd, constant?_eq_some.mp hconst, eval]
    exact APInt.isTrue_iff.mp (by simpa using htrue)

lemma Assignment.cellValue (root : KArray) (i : ℕ) : ExprEvaluator.CellValue
    (fun root index => .const (a.evaluateCell root index)) a.valuation root i := by
  intro hnone
  rw [KArray.initialValue, hnone]
  rfl

/-- The value of an expression under an assignment. -/
theorem Assignment.evaluate_eq (ht : e.Typed) (hi : e.Indexable)
    (hev : e.Evaluable a.valuation) : a.evaluate o e = .const (e.eval a.valuation) :=
  ExprEvaluator.visit_values e ht hi fun _ =>
    ExprEvaluator.folds_of_evaluable hev fun _ _ => Assignment.cellValue _ _

/-! ### Free values -/

namespace Assignment

/-- The byte that is bound to a cell. -/
def byte? (a : Assignment) (array : KArray) (i : ℕ) : Option (BitVec 8) :=
  (a.bindings.lookup array).bind (·[i]?)

/-- `Assignment::evaluate(array, index)` with free values: a cell that is not bound stays a
read. -/
def evaluateFreeCell (o : Opts) (a : Assignment) (array : KArray) (index : ℕ) : Expr :=
  match a.byte? array index with
  | some b => .const (.ofNat array.range b.toNat)
  | none => ReadExpr.create o array .null (.const (.ofNat array.domain index))

/-- `Assignment::evaluate(e)` with free values. -/
def evaluateFree (o : Opts) (a : Assignment) (e : Expr) : Expr :=
  ExprEvaluator.visit o (a.evaluateFreeCell o) e

/-- The valuation has the bytes of the assignment. -/
def Agrees (a : Assignment) (ρ : Valuation) : Prop :=
  ∀ array i b, a.byte? array i = some b → ρ array i = b.toNat

end Assignment

lemma evaluateFreeCell_initialValues :
    ExprEvaluator.InitialValues o a.Agrees (a.evaluateFreeCell o) := by
  intro root index hroot hlt hnone
  rw [Assignment.evaluateFreeCell]
  split
  · next b hb =>
    refine ExprEvaluator.const_evaluates hroot hlt (fun ρ hρ => ?_) rfl
    rw [KArray.initialValue, hnone, Option.getD_none, hρ root index b hb]
  · exact ExprEvaluator.create_evaluates hroot index

/-- A constant that the evaluation with free values returns is the value under every valuation with
the bytes of the assignment. -/
theorem Assignment.eval_of_evaluateFree (ht : e.Typed) (hc : e.Canon)
    (hi : e.Indexable) (h : a.evaluateFree o e = .const v) (hρ : a.Agrees ρ)
    (hd : e.Defined o ρ) : e.eval ρ = v := by
  have heval :=
    (ExprEvaluator.visit_evaluates evaluateFreeCell_initialValues e ht hc hi).eval_eq hρ hd
  rw [evaluateFree] at h
  rw [← heval, h, eval]

/-- The evaluation with free values returns the value if every read ends in a cell with a byte. -/
theorem Assignment.evaluateFree_eq (ht : e.Typed) (hi : e.Indexable)
    (hρ : a.Agrees ρ) (hev : e.Evaluable ρ)
    (hreads : ReadsIn (fun root i => root.constantValues[i]? = none → (a.byte? root i).isSome) ρ
      e.reads) :
    a.evaluateFree o e = .const (e.eval ρ) := by
  refine ExprEvaluator.visit_values e ht hi fun _ =>
    ExprEvaluator.folds_of_evaluable hev fun r hr hnone => ?_
  obtain ⟨b, hb⟩ := Option.isSome_iff_exists.1 (hreads r hr hnone)
  rw [evaluateFreeCell, hb, KArray.initialValue, hnone, Option.getD_none, hρ _ _ b hb]

namespace ExprEvaluator

/-- The evaluator asks for the initial values of the arrays that are read. -/
lemma visit_congr {cell cell' : KArray → ℕ → Expr} (e : Expr)
    (h : ∀ r ∈ e.reads, ∀ i, r.1.constantValues[i]? = none → cell r.1 i = cell' r.1 i) :
    visit o cell e = visit o cell' e := by
  revert h
  refine KidCases.expr (Q := fun head => ∀ (root : KArray) (index : ℕ),
    (∀ r ∈ head.reads, ∀ i, r.1.constantValues[i]? = none → cell r.1 i = cell' r.1 i) →
    (∀ i, root.constantValues[i]? = none → cell root i = cell' root i) →
    evalRead o cell root head index = evalRead o cell' root head index)
    ⟨?_, ?_, ?_, ?_, ?_⟩ e
  · intro c _
    rw [visit, visit]
  · intro root head index hhead hindex h
    obtain ⟨hroot, hreads⟩ := forall_mem_cons.1 h
    obtain ⟨hi, hh⟩ := forall_mem_append.1 hreads
    rw [visit, visit, hindex hi]
    split
    · exact hhead root _ hh hroot
    · rfl
  · intro e hnode ih h
    rw [visit_node hnode, visit_node hnode,
      map_congr_left fun k hk => ih k hk fun r hr => h r (reads_kid hk hr)]
  · intro root index _ hroot
    rw [evalRead, evalRead]
    cases hv : root.constantValues[index]? with
    | none => rw [hroot index hv]
    | some v => rfl
  · intro next i value hnext hi hvalue root index h hroot
    obtain ⟨hn, hiv⟩ := forall_mem_append.1 h
    obtain ⟨hri, hrv⟩ := forall_mem_append.1 hiv
    rw [evalRead, evalRead, hi hri, hvalue hrv, hnext root index hn hroot]

end ExprEvaluator

end Values

/-! ### Full assignments -/

/-- No divisor that is visited is zero under `ρ`. -/
def Expr.NonzeroDivisors (ρ : Valuation) (e : Expr) : Prop :=
  ∀ k l r, (Expr.bin k l r).Visited ρ e → k.isDiv = true → (r.eval ρ).isZero = false

/-- No `NotOptimized` constant is visited under `ρ`. -/
def Expr.NoHiddenConstant (ρ : Valuation) (e : Expr) : Prop :=
  ∀ c, ¬ (Expr.notOptimized (.const c)).Visited ρ e

/-- An assignment evaluates constraints to their values, and `satisfies` decides them, unless the
evaluation meets a `NotOptimized` constant. -/
theorem Assignment.evaluate_exact (o : Opts) (a : Assignment) (es : List Expr)
    (ht : ∀ e ∈ es, e.Typed) (hi : ∀ e ∈ es, e.Indexable)
    (hdiv : ∀ e ∈ es, e.NonzeroDivisors a.valuation)
    (hno : ∀ e ∈ es, e.NoHiddenConstant a.valuation) :
    (∀ e ∈ es, a.evaluate o e = .const (e.eval a.valuation)) ∧
      (a.satisfies o es = true ↔ ∀ e ∈ es, e.Holds a.valuation) := by
  have heval : ∀ e ∈ es, a.evaluate o e = .const (e.eval a.valuation) := by
    intro e he
    refine ExprEvaluator.visit_values e (ht e he) (hi e he) fun e' hvisit => ⟨?_, ?_, ?_⟩
    · rintro c rfl
      exact hno e he c hvisit
    · rintro k l r rfl
      exact hdiv e he k l r hvisit
    · exact fun root _ _ _ => Assignment.cellValue root _
  refine ⟨heval, ?_⟩
  rw [Assignment.satisfies, all_eq_true]
  refine forall₂_congr fun e he => ?_
  rw [heval e he, constant?_const, Option.any_some, APInt.isTrue_iff, Expr.Holds]

lemma Expr.visited_const {ρ : Valuation} {c : APInt} (h : e.Visited ρ (.const c)) :
    e = .const c := by
  cases h with
  | refl => rfl
  | kid hk => simp [kids] at hk

/-- The constraint `7 = x[0]`, where the read stands behind an update at `x[1]`. -/
def sevenBehindUpdate : Expr :=
  .bin .eq (.const (.ofNat 8 7)) (.read (.bytes 0 "x" 4) (.node .null
    (.zExt (.read (.bytes 0 "x" 4) .null (.const (.ofNat 32 1))) 32)
    (.notOptimized (.const (.ofNat 8 5)))) (.const (.ofNat 32 0)))

/-- The array `x = [7, 1]`. -/
def sevenOne : Assignment := ⟨[(.bytes 0 "x" 4, [7, 1])]⟩

lemma sevenBehindUpdate_visited (h : e.Visited sevenOne.valuation sevenBehindUpdate) :
    e.isNode = false ∨ e = sevenBehindUpdate ∨ ∃ x, e = .zExt x 32 := by
  rcases h with _ | ⟨hk, h⟩
  · simp
  obtain rfl | rfl := mem_pair.1 hk
  · simp [visited_const h, isNode]
  rcases h with _ | ⟨hk, h⟩ | ⟨hx, h⟩
  · simp [isNode]
  · obtain rfl := mem_singleton.1 hk
    simp [visited_const h, isNode]
  · -- the index of the update is 1, so that the update is passed over
    obtain rfl := mem_singleton.1 hx
    rcases h with _ | ⟨hk, h⟩
    · simp
    obtain rfl := mem_singleton.1 hk
    rcases h with _ | ⟨hk, h⟩ | ⟨hx, h⟩
    · simp [isNode]
    · obtain rfl := mem_singleton.1 hk
      simp [visited_const h, isNode]
    · cases hx

/-- Under `x = [7, 1]` the update is passed over, and the constant hidden in it is not met. -/
theorem Assignment.evaluate_exact_behindUpdate :
    sevenOne.evaluate ⟨true, true⟩ sevenBehindUpdate = .const (.bool true) ∧
      sevenOne.satisfies ⟨true, true⟩ [sevenBehindUpdate] = true := by
  have hwf : (KArray.bytes 0 "x" 4).WF := KArray.bytes_wf 0 "x" (by decide)
  have htyped : sevenBehindUpdate.Typed := by
    refine ⟨Nat.succ_pos _, ⟨hwf, Nat.succ_pos _, rfl, trivial, ?_, Nat.succ_pos _, rfl, rfl⟩, rfl⟩
    exact ⟨⟨hwf, Nat.succ_pos _, rfl, trivial⟩, by decide⟩
  have hindexable : sevenBehindUpdate.Indexable := by
    simp [sevenBehindUpdate, Expr.Indexable, UpdateNode.Indexable, KArray.bytes]
  obtain ⟨heval, hsat⟩ := Assignment.evaluate_exact ⟨true, true⟩ sevenOne [sevenBehindUpdate]
    (forall_mem_singleton.2 htyped) (forall_mem_singleton.2 hindexable)
    (forall_mem_singleton.2 fun k l r h hdiv => by
      obtain h | h | ⟨x, h⟩ := sevenBehindUpdate_visited h
      · cases h
      · cases h
        cases hdiv
      · cases h)
    (forall_mem_singleton.2 fun c h => by
      obtain h | h | ⟨x, h⟩ := sevenBehindUpdate_visited h <;> cases h)
  exact ⟨heval _ mem_cons_self, hsat.2 (forall_mem_singleton.2 rfl)⟩

/-- A true constraint below a `NotOptimized` is left as it is. -/
theorem Assignment.evaluate_leaves_notOptimized :
    Assignment.evaluate ⟨false, false⟩ ⟨[]⟩ (.notOptimized (.const (.bool true))) =
        .notOptimized (.const (.bool true)) ∧
      Assignment.satisfies ⟨false, false⟩ ⟨[]⟩ [.notOptimized (.const (.bool true))] = false ∧
      (Expr.notOptimized (.const (.bool true))).Holds (Assignment.valuation ⟨[]⟩) := by
  refine ⟨?_, ?_, rfl⟩
  · simp [Assignment.evaluate, ExprEvaluator.visit, ExprEvaluator.visitNode, kids, rebuild]
  · simp [Assignment.satisfies, Assignment.evaluate, ExprEvaluator.visit, ExprEvaluator.visitNode,
      kids, rebuild, constant?]

-- A constructor above the node may fold it away: `x[0] * NotOptimized(5)` is 0 where `x[0]` is.
example : Assignment.evaluate ⟨false, false⟩ ⟨[]⟩
    (.bin .mul ConstraintManager.byteX (.notOptimized (.const (.ofNat 8 5)))) =
      .const (.ofNat 8 0) := by
  decide +kernel

end Castan
