/-
# The constraint manager

`ConstraintManager` keeps a conjunction of Boolean expressions as a list.  Adding an equality
with a constant rewrites the constraints that are there, and a rewritten constraint is added
anew.  The list always stands for the conjunction of the expressions that were added.
-/
import Castan.Expr.Visitor

namespace Castan

open Castan.Expr List

variable {xs cs : List Expr} {e l r : Expr}

namespace ConstraintManager

/-- The map `equalities` of `simplifyExpr`. -/
def equalities (cs : List Expr) : List (Expr × Expr) :=
  cs.map fun c =>
    match c with
    | .bin .eq (.const k) right => (right, .const k)
    | c => (c, .const (.bool true))

/-- `ConstraintManager::simplifyExpr`. -/
def simplifyExpr (o : Opts) (cs : List Expr) (e : Expr) : Expr :=
  if e.isConst then e else (ExprReplaceVisitor2 (equalities cs)).visit o e

/-- The loop of `ConstraintManager::rewriteConstraints` over the remaining `old` constraints;
`add` is `addConstraintInternal`. -/
def rewriteConstraints (o : Opts) (v : ExprVisitor) (add : List Expr → Expr → Option (List Expr)) :
    (old constraints : List Expr) → Option (List Expr)
  | [], cs => some cs
  | ce :: old, cs =>
      let e := v.visit o ce
      if e ≠ ce then
        -- enable further reductions
        (add cs e).bind (rewriteConstraints o v add old)
      else rewriteConstraints o v add old (cs ++ [ce])

/-- `ConstraintManager::addConstraintInternal`, with `add` for the calls from
`rewriteConstraints`.  The result is `none` if the assertion on a false constraint fails. -/
def addSplit (o : Opts) (add : List Expr → Expr → Option (List Expr)) :
    Expr → List Expr → Option (List Expr)
  | .const c, cs => if c.isTrue then some cs else none
  | .bin .and l r, cs => (addSplit o add l cs).bind (addSplit o add r)
  | .bin .eq (.const k) r, cs =>
      if o.rewriteEqualities then
        (rewriteConstraints o (ExprReplaceVisitor r (.const k)) add cs []).map
          (· ++ [.bin .eq (.const k) r])
      else some (cs ++ [.bin .eq (.const k) r])
  | e, cs => some (cs ++ [e])

/-- At most `n` nested rewritings. -/
def addFuel (o : Opts) : ℕ → List Expr → Expr → Option (List Expr)
  | 0, cs, e => addSplit o (fun _ _ => none) e cs
  | n + 1, cs, e => addSplit o (addFuel o n) e cs

/-- The symbolic leaves of a list of constraints. -/
def weight (cs : List Expr) : ℕ := (cs.map Expr.weight).sum

/-- `ConstraintManager::addConstraintInternal`.  That the fuel suffices is
`addConstraintInternal_ends`. -/
def addConstraintInternal (o : Opts) (cs : List Expr) (e : Expr) : Option (List Expr) :=
  addFuel o (weight (cs ++ [e])) cs e

/-- `ConstraintManager::addConstraint`. -/
def addConstraint (o : Opts) (cs : List Expr) (e : Expr) : Option (List Expr) :=
  addConstraintInternal o cs (simplifyExpr o cs e)

/-- The constraints after `addConstraint` for every expression of a list. -/
def addConstraints (o : Opts) : (cs es : List Expr) → Option (List Expr)
  | cs, [] => some cs
  | cs, e :: es => (addConstraint o cs e).bind fun cs' => addConstraints o cs' es

end ConstraintManager

/-- A constraint: a well-typed canonical Boolean expression. -/
abbrev Expr.IsConstraint (e : Expr) : Prop := e.OfWidth 1

/-! ### Conjunctions -/

section Conjunction

variable (o : Opts) (ρ : Valuation)

/-- Every constraint is defined and true. -/
def AllTrue (xs : List Expr) : Prop := ∀ x ∈ xs, x.Defined o ρ ∧ x.Holds ρ

/-- Some constraint is defined and false. -/
def SomeFalse (xs : List Expr) : Prop := ∃ x ∈ xs, x.Defined o ρ ∧ ¬ x.Holds ρ

end Conjunction

variable {o : Opts} {ρ : Valuation}

@[simp] lemma allTrue_nil : AllTrue o ρ [] := by simp [AllTrue]

@[simp] lemma allTrue_append {ys : List Expr} :
    AllTrue o ρ (xs ++ ys) ↔ AllTrue o ρ xs ∧ AllTrue o ρ ys :=
  forall_mem_append

@[simp] lemma allTrue_singleton {x : Expr} : AllTrue o ρ [x] ↔ x.Defined o ρ ∧ x.Holds ρ := by
  simp [AllTrue]

@[simp] lemma someFalse_nil : ¬ SomeFalse o ρ [] := by simp [SomeFalse]

@[simp] lemma someFalse_append {ys : List Expr} :
    SomeFalse o ρ (xs ++ ys) ↔ SomeFalse o ρ xs ∨ SomeFalse o ρ ys := by
  simp only [SomeFalse, mem_append, or_and_right, exists_or]

@[simp] lemma someFalse_singleton {x : Expr} :
    SomeFalse o ρ [x] ↔ x.Defined o ρ ∧ ¬ x.Holds ρ := by
  simp [SomeFalse]

lemma Visited.isConstraint {V : Valuation → Prop} {e' : Expr} (h : Visited o V e' e)
    (he : e.IsConstraint) : e'.IsConstraint :=
  ⟨h.refinesOn.typed, h.canon, h.refinesOn.width_eq.trans he.width_eq⟩

/-- Under a valuation in `V` a visited constraint is defined and true if the constraint is. -/
lemma Visited.holds_iff {V : Valuation → Prop} {e' : Expr} (h : Visited o V e' e) (hV : V ρ)
    (hd : e.Defined o ρ) : e'.Defined o ρ ∧ (e'.Holds ρ ↔ e.Holds ρ) := by
  refine ⟨fun ho => h.refinesOn.inRangeOn ρ hV (hd ho), ?_⟩
  rw [Expr.Holds, Expr.Holds, h.refinesOn.evalOn ρ hV hd]

namespace ConstraintManager

@[simp] lemma weight_append (xs ys : List Expr) : weight (xs ++ ys) = weight xs + weight ys := by
  simp [weight]

@[simp] lemma weight_nil : weight [] = 0 := rfl

@[simp] lemma weight_singleton (x : Expr) : weight [x] = x.weight := by simp [weight]

/-! ### Results that stand for a conjunction -/

/-- The list of constraints `ys` may stand for `xs`: whatever makes all of `xs` true makes all
of `ys` true, and a false constraint leaves a false one. -/
structure Stands (o : Opts) (xs ys : List Expr) : Prop where
  isConstraint : ∀ y ∈ ys, y.IsConstraint
  weight_le : weight ys ≤ weight xs
  allTrue : ∀ ρ, AllTrue o ρ xs → AllTrue o ρ ys
  someFalse : ∀ ρ, SomeFalse o ρ xs → SomeFalse o ρ ys

/-- The outcome of adding constraints: a list that stands for them, or a failed assertion if
no valuation makes them all true. -/
def Outcome (o : Opts) (xs : List Expr) : Option (List Expr) → Prop
  | none => ∀ ρ, ¬ AllTrue o ρ xs
  | some ys => Stands o xs ys

/-- An outcome for constraints that stand for others is one for these. -/
lemma Outcome.mono {xs' : List Expr} {r : Option (List Expr)} (h : Outcome o xs' r)
    (hw : weight xs' ≤ weight xs) (ht : ∀ ρ, AllTrue o ρ xs → AllTrue o ρ xs')
    (hf : ∀ ρ, SomeFalse o ρ xs → SomeFalse o ρ xs') : Outcome o xs r := by
  cases r with
  | none => exact fun ρ hρ => h ρ (ht ρ hρ)
  | some ys =>
    exact ⟨h.isConstraint, h.weight_le.trans hw, fun ρ hρ => h.allTrue ρ (ht ρ hρ),
      fun ρ hρ => h.someFalse ρ (hf ρ hρ)⟩

/-- Constraints are added one after the other. -/
lemma Outcome.bind {z : List Expr} {r : Option (List Expr)}
    {f : List Expr → Option (List Expr)} (h : Outcome o xs r)
    (hf : ∀ ys, r = some ys → Stands o xs ys → Outcome o (ys ++ z) (f ys)) :
    Outcome o (xs ++ z) (r.bind f) := by
  cases r with
  | none =>
    intro ρ hρ
    exact h ρ (allTrue_append.mp hρ).1
  | some ys =>
    refine (hf ys rfl h).mono ?_ (fun ρ hρ => ?_) (fun ρ hρ => ?_)
    · have := h.weight_le
      rw [weight_append, weight_append]
      omega
    · rw [allTrue_append] at hρ ⊢
      exact ⟨h.allTrue ρ hρ.1, hρ.2⟩
    · rw [someFalse_append] at hρ ⊢
      exact hρ.imp_left (h.someFalse ρ)

lemma Stands.refl (h : ∀ x ∈ xs, x.IsConstraint) : Stands o xs xs :=
  ⟨h, le_rfl, fun _ h => h, fun _ h => h⟩

/-! ### Rewriting with an equality -/

lemma isConstraint_append (hcs : ∀ c ∈ cs, c.IsConstraint)
    (he : e.IsConstraint) : ∀ c ∈ cs ++ [e], c.IsConstraint := by
  intro c hc
  rcases mem_append.mp hc with hc | hc
  · exact hcs c hc
  · rw [mem_singleton.mp hc]
    exact he

section Rewrite

variable {k : APInt} {right : Expr}

/-- The valuations that satisfy the equality. -/
lemma eq_holds_iff (h : (bin .eq (.const k) right).Typed) :
    (bin .eq (.const k) right).Holds ρ ↔ right.eval ρ = k := by
  rw [Expr.Holds, eval_eq_bin ρ h, APInt.bool_inj, decide_eq_true_iff, eval]
  exact eq_comm

lemma replaceVisitor_sound (h : (bin .eq (.const k) right).Typed) :
    (ExprReplaceVisitor right (.const k)).Sound fun ρ => (bin .eq (.const k) right).Holds ρ :=
  ExprReplaceVisitor_sound h.2.2 fun _ hρ => (eq_holds_iff h).mp hρ

/-- A false constraint stays false when it is rewritten, or the equality itself is false: if
the rewriting changes anything then it meets the right side of the equality, which is then
defined. -/
lemma rewrite_someFalse (h : (bin .eq (.const k) right).Typed) {ce : Expr}
    (hce : ce.Typed) (hcanon : ce.Canon) (hd : ce.Defined o ρ) (hf : ¬ ce.Holds ρ) :
    SomeFalse o ρ [(ExprReplaceVisitor right (.const k)).visit o ce,
      .bin .eq (.const k) right] := by
  set v := ExprReplaceVisitor right (.const k) with hv
  have hvis : Visited o _ (v.visit o ce) ce :=
    ExprVisitor.visit_visited (replaceVisitor_sound h) hce hcanon
  by_cases heq : (bin .eq (.const k) right).Holds ρ
  · obtain ⟨hd', hiff⟩ := hvis.holds_iff heq hd
    exact ⟨_, by simp, hd', fun hh => hf (hiff.mp hh)⟩
  · have hor : v.visit o ce = ce ∨ ∀ ρ : Valuation, ce.InRange ρ → right.InRange ρ := by
      rw [ExprVisitor.visit_eq (replaceVisitor_sound h) hce hcanon]
      exact ExprReplaceVisitor_eq_or_inRange _ _ _ _
    rcases hor with hsame | hin
    · rw [hsame]
      exact ⟨ce, by simp, hd, hf⟩
    · refine ⟨.bin .eq (.const k) right, by simp, fun ho => ?_, heq⟩
      exact ⟨trivial, hin ρ (hd ho)⟩

/-- The loop of `rewriteConstraints`: with the equality put behind them, the rewritten
constraints stand for the old ones.  The induction is on the remaining constraints. -/
theorem rewriteConstraints_outcome {add : List Expr → Expr → Option (List Expr)} {B : ℕ}
    (h : (bin .eq (.const k) right).IsConstraint)
    (hadd : ∀ (cs : List Expr) (e : Expr), (∀ c ∈ cs, c.IsConstraint) → e.IsConstraint →
      weight (cs ++ [e]) < B → Outcome o (cs ++ [e]) (add cs e)) (old : List Expr) :
    ∀ cs : List Expr, (∀ c ∈ cs, c.IsConstraint) → (∀ c ∈ old, c.IsConstraint) →
      weight (cs ++ old) ≤ B →
      Outcome o (cs ++ old ++ [.bin .eq (.const k) right])
        ((rewriteConstraints o (ExprReplaceVisitor right (.const k)) add old cs).map
          (· ++ [.bin .eq (.const k) right])) := by
  set q : Expr := .bin .eq (.const k) right with hq
  induction old with
  | nil =>
    intro cs hcs _ _
    rw [rewriteConstraints, append_nil]
    exact Stands.refl (isConstraint_append hcs h)
  | cons ce old ih =>
    intro cs hcs hold hB
    have hce := hold ce mem_cons_self
    have hold' : ∀ c ∈ old, c.IsConstraint := fun c hc => hold c (mem_cons_of_mem _ hc)
    have hvis : Visited o (fun ρ => q.Holds ρ) _ ce :=
      ExprVisitor.visit_visited (replaceVisitor_sound h.typed) hce.typed hce.canon
    rw [rewriteConstraints]
    set e := (ExprReplaceVisitor right (.const k)).visit o ce with he
    split_ifs with hne
    · have hlt := hvis.lt hne
      have hsum : weight (cs ++ ce :: old) = weight cs + (ce.weight + weight old) := by
        simp [weight]
      have hout := hadd cs e hcs (hvis.isConstraint hce) (by
        rw [weight_append, weight_singleton]
        omega)
      rw [Option.map_bind]
      refine Outcome.mono (hout.bind (z := old ++ [q]) fun ys _ hys => ?_) ?_ (fun ρ hρ => ?_)
        (fun ρ hρ => ?_)
      · have hw := hys.weight_le
        rw [weight_append, weight_singleton] at hw
        have hrest := ih ys hys.isConstraint hold' (by rw [weight_append]; omega)
        rwa [← append_assoc]
      · simp only [weight_append, weight_singleton, hsum]
        omega
      · simp only [allTrue_append, allTrue_singleton, append_cons cs ce old] at hρ ⊢
        obtain ⟨⟨⟨hcs', hd, hh⟩, hold''⟩, hqd, hqh⟩ := hρ
        obtain ⟨hd', hiff⟩ := hvis.holds_iff hqh hd
        exact ⟨⟨hcs', hd', hiff.mpr hh⟩, hold'', hqd, hqh⟩
      · simp only [someFalse_append, someFalse_singleton, append_cons cs ce old] at hρ ⊢
        rcases hρ with ((hf | ⟨hd, hf⟩) | hf) | hf
        · exact Or.inl (Or.inl hf)
        · obtain ⟨x, hx, hxf⟩ := rewrite_someFalse h.typed hce.typed hce.canon hd hf
          rcases mem_pair.mp hx with rfl | rfl
          · exact Or.inl (Or.inr hxf)
          · exact Or.inr (Or.inr hxf)
        · exact Or.inr (Or.inl hf)
        · exact Or.inr (Or.inr hf)
    · have hcons := ih (cs ++ [ce]) (isConstraint_append hcs hce) hold' (by rwa [← append_cons])
      rwa [← append_cons] at hcons

end Rewrite

/-! ### Adding a constraint -/

lemma and_isConstraint (h : (bin .and l r).IsConstraint) :
    l.IsConstraint ∧ r.IsConstraint := by
  have hwl : l.width = 1 := h.width_eq
  have hwr : r.width = 1 := by rw [← h.typed.2.2, hwl]
  exact ⟨⟨h.typed.1, h.canon.1, hwl⟩, ⟨h.typed.2.1, h.canon.2.1, hwr⟩⟩

/-- A conjunction and its two parts. -/
lemma and_holds_iff (h : (bin .and l r).IsConstraint) :
    (bin .and l r).Holds ρ ↔ l.Holds ρ ∧ r.Holds ρ := by
  obtain ⟨a, b, ha, hb⟩ := h.typed.boolOperands h.width_eq ρ
  simp only [Expr.Holds, eval_bin, ha, hb, BinKind.fold_bool, APInt.bool_inj]
  exact Bool.and_eq_true_iff

lemma and_defined_iff : (bin .and l r).Defined o ρ ↔ l.Defined o ρ ∧ r.Defined o ρ := by
  simp only [Expr.Defined, Expr.InRange]
  exact imp_and

/-- `addConstraintInternal` for one constraint, by recursion on its conjunctions. -/
theorem addSplit_outcome {add : List Expr → Expr → Option (List Expr)} {B : ℕ}
    (hadd : ∀ (cs : List Expr) (e : Expr), (∀ c ∈ cs, c.IsConstraint) → e.IsConstraint →
      weight (cs ++ [e]) < B → Outcome o (cs ++ [e]) (add cs e)) (e : Expr) (cs : List Expr)
    (hcs : ∀ c ∈ cs, c.IsConstraint) (he : e.IsConstraint) (hB : weight (cs ++ [e]) ≤ B) :
    Outcome o (cs ++ [e]) (addSplit o add e cs) := by
  unfold addSplit
  split
  · next c =>
    split_ifs with htrue
    · -- a true constant is dropped
      refine ⟨hcs, by simp, fun ρ hρ => (allTrue_append.mp hρ).1, fun ρ hρ => ?_⟩
      refine (someFalse_append.mp hρ).resolve_right fun hf => ?_
      exact (someFalse_singleton.mp hf).2 (APInt.isTrue_iff.mp htrue)
    · intro ρ hρ
      have hh : (const c).Holds ρ := (allTrue_singleton.mp (allTrue_append.mp hρ).2).2
      exact htrue (APInt.isTrue_iff.mpr hh)
  · next l r =>
    obtain ⟨hl, hr⟩ := and_isConstraint he
    have hw : weight (cs ++ [.bin .and l r]) = weight cs + (l.weight + r.weight) := by
      simp [Expr.weight]
    have hleft := addSplit_outcome hadd l cs hcs hl (by
      rw [weight_append, weight_singleton]
      omega)
    refine (hleft.bind (z := [r]) fun ys _ hys => ?_).mono ?_ (fun ρ hρ => ?_) (fun ρ hρ => ?_)
    · have hle := hys.weight_le
      rw [weight_append, weight_singleton] at hle
      exact addSplit_outcome hadd r ys hys.isConstraint hr (by
        rw [weight_append, weight_singleton]
        omega)
    · simp only [weight_append, weight_singleton, Expr.weight]
      omega
    · simp only [allTrue_append, allTrue_singleton, and_holds_iff he, and_defined_iff] at hρ ⊢
      tauto
    · simp only [someFalse_append, someFalse_singleton, and_holds_iff he, and_defined_iff] at hρ ⊢
      tauto
  · next k r =>
    split_ifs
    · have hw : weight cs ≤ B := by
        rw [weight_append] at hB
        omega
      have hout := rewriteConstraints_outcome he hadd cs [] (by simp) hcs (by simpa using hw)
      rwa [nil_append] at hout
    · exact Stands.refl (isConstraint_append hcs he)
  · exact Stands.refl (isConstraint_append hcs he)
termination_by sizeOf e

lemma addFuel_outcome (n : ℕ) :
    ∀ (cs : List Expr) (e : Expr), (∀ c ∈ cs, c.IsConstraint) → e.IsConstraint →
      weight (cs ++ [e]) ≤ n → Outcome o (cs ++ [e]) (addFuel o n cs e) := by
  induction n with
  | zero =>
    intro cs e hcs he hn
    exact addSplit_outcome (fun _ _ _ _ hlt => absurd hlt (Nat.not_lt_zero _)) e cs hcs he hn
  | succ n ih =>
    intro cs e hcs he hn
    exact addSplit_outcome (fun cs' e' hcs' he' hlt => ih cs' e' hcs' he' (by omega)) e cs hcs he hn

/-- One call of `addConstraintInternal`. -/
theorem addConstraintInternal_outcome (hcs : ∀ c ∈ cs, c.IsConstraint) (he : e.IsConstraint) :
    Outcome o (cs ++ [e]) (addConstraintInternal o cs e) :=
  addFuel_outcome _ cs e hcs he le_rfl

/-! ### The recursion ends -/

mutual

/-- `Adds o cs e r`: the call of `addConstraintInternal` for `e` and the constraints `cs`, with
all calls that it makes, ends in `r`, where `none` is the failed assertion. -/
inductive Adds (o : Opts) : List Expr → Expr → Option (List Expr) → Prop
  | const {cs : List Expr} (c : APInt) : Adds o cs (.const c) (if c.isTrue then some cs else none)
  | and {cs cs' : List Expr} {l r : Expr} {res : Option (List Expr)} : Adds o cs l (some cs') →
      Adds o cs' r res → Adds o cs (.bin .and l r) res
  | andFails {cs : List Expr} {l r : Expr} : Adds o cs l none → Adds o cs (.bin .and l r) none
  | eq {cs : List Expr} {k : APInt} {r : Expr} {res : Option (List Expr)} :
      o.rewriteEqualities = true → Rewrites o (ExprReplaceVisitor r (.const k)) cs [] res →
      Adds o cs (.bin .eq (.const k) r) (res.map (· ++ [.bin .eq (.const k) r]))
  | other {cs : List Expr} {e : Expr} : (∀ c, e ≠ .const c) → (∀ l r, e ≠ .bin .and l r) →
      (o.rewriteEqualities = true → ∀ k r, e ≠ .bin .eq (.const k) r) →
      Adds o cs e (some (cs ++ [e]))

/-- The loop of `rewriteConstraints` over the remaining `old` constraints ends. -/
inductive Rewrites (o : Opts) :
    ExprVisitor → (old cs : List Expr) → Option (List Expr) → Prop
  | nil {v : ExprVisitor} {cs : List Expr} : Rewrites o v [] cs (some cs)
  | same {v : ExprVisitor} {ce : Expr} {old cs : List Expr} {res : Option (List Expr)} :
      v.visit o ce = ce → Rewrites o v old (cs ++ [ce]) res → Rewrites o v (ce :: old) cs res
  | changed {v : ExprVisitor} {ce : Expr} {old cs cs' : List Expr} {res : Option (List Expr)} :
      v.visit o ce ≠ ce → Adds o cs (v.visit o ce) (some cs') → Rewrites o v old cs' res →
      Rewrites o v (ce :: old) cs res
  | fails {v : ExprVisitor} {ce : Expr} {old cs : List Expr} : v.visit o ce ≠ ce →
      Adds o cs (v.visit o ce) none → Rewrites o v (ce :: old) cs none

end

section Ends

variable {add : List Expr → Expr → Option (List Expr)} {B : ℕ}
  (hadd : ∀ (cs : List Expr) (e : Expr), (∀ c ∈ cs, c.IsConstraint) → e.IsConstraint →
    weight (cs ++ [e]) < B → Outcome o (cs ++ [e]) (add cs e) ∧ Adds o cs e (add cs e))

include hadd

lemma rewrites_rewriteConstraints {k : APInt} {right : Expr}
    (h : (bin .eq (.const k) right).IsConstraint) (old : List Expr) :
    ∀ cs : List Expr, (∀ c ∈ cs, c.IsConstraint) → (∀ c ∈ old, c.IsConstraint) →
      weight (cs ++ old) ≤ B → Rewrites o (ExprReplaceVisitor right (.const k)) old cs
        (rewriteConstraints o (ExprReplaceVisitor right (.const k)) add old cs) := by
  induction old with
  | nil => exact fun cs _ _ _ => .nil
  | cons ce old ih =>
    intro cs hcs hold hB
    have hce := hold ce mem_cons_self
    have hold' : ∀ c ∈ old, c.IsConstraint := fun c hc => hold c (mem_cons_of_mem _ hc)
    have hvis : Visited o _ _ ce :=
      ExprVisitor.visit_visited (replaceVisitor_sound h.typed) hce.typed hce.canon
    rw [rewriteConstraints]
    split_ifs with hne
    · -- the rewritten constraint has fewer symbolic leaves, so the inner call is a smaller one
      have hlt := hvis.lt hne
      have hsum : weight (cs ++ ce :: old) = weight cs + (ce.weight + weight old) := by
        simp [weight]
      obtain ⟨hout, hends⟩ := hadd cs _ hcs (hvis.isConstraint hce) (by
        rw [weight_append, weight_singleton]
        omega)
      cases hr : add cs ((ExprReplaceVisitor right (.const k)).visit o ce) with
      | none => exact .fails hne (hr ▸ hends)
      | some ys =>
        rw [hr] at hout
        have hw := hout.weight_le
        rw [weight_append, weight_singleton] at hw
        exact .changed hne (hr ▸ hends)
          (ih ys hout.isConstraint hold' (by rw [weight_append]; omega))
    · exact .same (not_not.1 hne)
        (ih (cs ++ [ce]) (isConstraint_append hcs hce) hold' (by rwa [← append_cons]))

lemma adds_addSplit (e : Expr) (cs : List Expr) (hcs : ∀ c ∈ cs, c.IsConstraint)
    (he : e.IsConstraint) (hB : weight (cs ++ [e]) ≤ B) : Adds o cs e (addSplit o add e cs) := by
  unfold addSplit
  split
  · exact .const _
  · next l r =>
    obtain ⟨hl, hr⟩ := and_isConstraint he
    have hw : weight (cs ++ [.bin .and l r]) = weight cs + (l.weight + r.weight) := by
      simp [Expr.weight]
    have hBl : weight (cs ++ [l]) ≤ B := by
      rw [weight_append, weight_singleton]
      omega
    have hout := addSplit_outcome (fun cs e h1 h2 h3 => (hadd cs e h1 h2 h3).1) l cs hcs hl hBl
    have hleft := adds_addSplit l cs hcs hl hBl
    cases hres : addSplit o add l cs with
    | none => exact .andFails (hres ▸ hleft)
    | some ys =>
      rw [hres] at hout
      have hle := hout.weight_le
      rw [weight_append, weight_singleton] at hle
      exact .and (hres ▸ hleft) (adds_addSplit r ys hout.isConstraint hr (by
        rw [weight_append, weight_singleton]
        omega))
  · next k r =>
    split_ifs with ho
    · exact .eq ho (rewrites_rewriteConstraints hadd he cs [] (by simp) hcs (by
        rw [weight_append] at hB
        rw [nil_append]
        omega))
    · exact .other (by simp) (by simp) (absurd · ho)
  · next hc ha hq => exact .other hc ha fun _ => hq
termination_by sizeOf e

end Ends

lemma adds_addFuel (n : ℕ) :
    ∀ (cs : List Expr) (e : Expr), (∀ c ∈ cs, c.IsConstraint) → e.IsConstraint →
      weight (cs ++ [e]) ≤ n → Adds o cs e (addFuel o n cs e) := by
  induction n with
  | zero =>
    intro cs e hcs he hn
    exact adds_addSplit (fun _ _ _ _ hlt => absurd hlt (Nat.not_lt_zero _)) e cs hcs he hn
  | succ n ih =>
    intro cs e hcs he hn
    refine adds_addSplit (fun cs' e' hcs' he' hlt => ⟨?_, ?_⟩) e cs hcs he hn
    · exact addFuel_outcome n cs' e' hcs' he' (by omega)
    · exact ih cs' e' hcs' he' (by omega)

/-- The calls of `addConstraintInternal` and `rewriteConstraints` for a constraint end, with the
result of the function that is bounded by its fuel. -/
theorem addConstraintInternal_ends (hcs : ∀ c ∈ cs, c.IsConstraint) (he : e.IsConstraint) :
    Adds o cs e (addConstraintInternal o cs e) :=
  adds_addFuel _ cs e hcs he le_rfl

/-! ### Simplification -/

/-- The keys of the map of `simplifyExpr` have their constants as values wherever the
constraints hold. -/
lemma equalities_sound (hcs : ∀ c ∈ cs, c.IsConstraint) :
    (ExprReplaceVisitor2 (equalities cs)).Sound fun ρ => ∀ c ∈ cs, c.Holds ρ := by
  refine ExprReplaceVisitor2_sound fun p hp => ?_
  obtain ⟨c, hc, rfl⟩ := mem_map.mp hp
  split
  · next k right => exact ⟨k, rfl, (hcs _ hc).typed.2.2, fun ρ hρ =>
      (eq_holds_iff (hcs _ hc).typed).mp (hρ _ hc)⟩
  · exact ⟨_, rfl, (hcs _ hc).width_eq.symm, fun ρ hρ => hρ _ hc⟩

theorem simplifyExpr_visited (hcs : ∀ c ∈ cs, c.IsConstraint) (he : e.Typed) (hc : e.Canon) :
    Visited o (fun ρ => ∀ c ∈ cs, c.Holds ρ) (simplifyExpr o cs e) e := by
  unfold simplifyExpr
  split_ifs
  · exact Visited.refl he hc
  · exact ExprVisitor.visit_visited (equalities_sound hcs) he hc

/-! ### Sequences of constraints -/

/-- The list `cs` stands for the added expressions `es` under the valuation `ρ`: either all
stored constraints and all added expressions are true or there is a false one on both
sides. -/
def Agree (o : Opts) (ρ : Valuation) (cs es : List Expr) : Prop :=
  (AllTrue o ρ cs ∧ ∀ e ∈ es, e.Holds ρ) ∨ (SomeFalse o ρ cs ∧ ∃ e ∈ es, ¬ e.Holds ρ)

lemma Agree.iff {es : List Expr} (h : Agree o ρ cs es) :
    (∀ c ∈ cs, c.Holds ρ) ↔ ∀ e ∈ es, e.Holds ρ := by
  rcases h with ⟨hcs, hes⟩ | ⟨⟨c, hc, -, hcf⟩, e, he, hef⟩
  · exact ⟨fun _ => hes, fun _ c hc => (hcs c hc).2⟩
  · exact ⟨fun h => absurd (h c hc) hcf, fun h => absurd (h e he) hef⟩

/-- What one `addConstraint` preserves. -/
theorem addConstraint_agree (es : List Expr) {cs' : List Expr}
    (hcs : ∀ c ∈ cs, c.IsConstraint) (he : e.IsConstraint)
    (hadd : addConstraint o cs e = some cs') :
    (∀ c ∈ cs', c.IsConstraint) ∧ ∀ ρ, ((∀ c ∈ cs, c.Holds ρ) → e.Defined o ρ) → Agree o ρ cs es →
        Agree o ρ cs' (es ++ [e]) := by
  have hvis : Visited o (fun ρ => ∀ c ∈ cs, c.Holds ρ) (simplifyExpr o cs e) e :=
    simplifyExpr_visited hcs he.typed he.canon
  have hout := addConstraintInternal_outcome (o := o) hcs (hvis.isConstraint he)
  rw [show addConstraintInternal o cs (simplifyExpr o cs e) = some cs' from hadd] at hout
  refine ⟨hout.isConstraint, fun ρ hd hagree => ?_⟩
  rcases hagree with ⟨hall, hes⟩ | ⟨hsome, e', he', hf'⟩
  · -- the simplified constraint has the value of the added one
    have hold : ∀ c ∈ cs, c.Holds ρ := fun c hc => (hall c hc).2
    obtain ⟨hd', hiff⟩ := hvis.holds_iff hold (hd hold)
    by_cases hh : e.Holds ρ
    · refine Or.inl ⟨hout.allTrue ρ ?_, ?_⟩
      · exact allTrue_append.mpr ⟨hall, allTrue_singleton.mpr ⟨hd', hiff.mpr hh⟩⟩
      · intro x hx
        rcases mem_append.mp hx with hx | hx
        · exact hes x hx
        · rwa [mem_singleton.mp hx]
    · refine Or.inr ⟨hout.someFalse ρ ?_, e, by simp, hh⟩
      exact someFalse_append.mpr (Or.inr (someFalse_singleton.mpr ⟨hd', fun h => hh (hiff.mp h)⟩))
  · refine Or.inr ⟨hout.someFalse ρ (someFalse_append.mpr (Or.inl hsome)), e', ?_, hf'⟩
    exact mem_append_left _ he'

/-- The stored constraints after `addConstraint`, under a valuation that defines the old ones. -/
lemma addConstraint_holds_iff {cs' : List Expr} (hcs : ∀ c ∈ cs, c.IsConstraint)
    (he : e.IsConstraint) (hadd : addConstraint o cs e = some cs') (hd : ∀ c ∈ cs, c.Defined o ρ)
    (hde : (∀ c ∈ cs, c.Holds ρ) → e.Defined o ρ) :
    (∀ c ∈ cs', c.Holds ρ) ↔ (∀ c ∈ cs, c.Holds ρ) ∧ e.Holds ρ := by
  have hagree : Agree o ρ cs cs := by
    by_cases hall : ∀ c ∈ cs, c.Holds ρ
    · exact Or.inl ⟨fun c hc => ⟨hd c hc, hall c hc⟩, hall⟩
    · push Not at hall
      obtain ⟨c, hc, hf⟩ := hall
      exact Or.inr ⟨⟨c, hc, hd c hc, hf⟩, c, hc, hf⟩
  rw [((addConstraint_agree cs hcs he hadd).2 ρ hde hagree).iff]
  simp only [mem_append, mem_singleton, or_imp, forall_and, forall_eq]

/-- No assertion fails on a constraint that is true together with the stored ones. -/
lemma addConstraint_isSome (hcs : ∀ c ∈ cs, c.IsConstraint)
    (he : e.IsConstraint) (hd : e.Defined o ρ) (hh : e.Holds ρ) (hall : AllTrue o ρ cs) :
    ∃ cs', addConstraint o cs e = some cs' := by
  have hvis : Visited o (fun ρ => ∀ c ∈ cs, c.Holds ρ) (simplifyExpr o cs e) e :=
    simplifyExpr_visited hcs he.typed he.canon
  have hout := addConstraintInternal_outcome (o := o) hcs (hvis.isConstraint he)
  obtain ⟨hd', hiff⟩ := hvis.holds_iff (fun c hc => (hall c hc).2) hd
  cases hres : addConstraint o cs e with
  | some cs' => exact ⟨cs', rfl⟩
  | none =>
    rw [show addConstraintInternal o cs (simplifyExpr o cs e) = none from hres] at hout
    exact absurd (allTrue_append.mpr ⟨hall, allTrue_singleton.mpr ⟨hd', hiff.mpr hh⟩⟩) (hout ρ)

/-- A run of `addConstraint`, by induction on the expressions still to be added. -/
lemma addConstraints_agree {ρ₀ : Valuation} (es : List Expr) :
    ∀ cs added : List Expr, (∀ c ∈ cs, c.IsConstraint) → (∀ e ∈ es, e.IsConstraint) →
      AllTrue o ρ₀ cs → (∀ e ∈ added, e.Holds ρ₀) → AllTrue o ρ₀ es →
      ∃ cs', addConstraints o cs es = some cs' ∧ (∀ c ∈ cs', c.IsConstraint) ∧
        ∀ ρ, (∀ e ∈ es, e.Defined o ρ) → Agree o ρ cs added → Agree o ρ cs' (added ++ es) := by
  induction es with
  | nil =>
    intro cs added hcs _ _ _ _
    exact ⟨cs, rfl, hcs, fun ρ _ h => by rwa [append_nil]⟩
  | cons e es ih =>
    intro cs added hcs hes hall hadded hsat
    have he := hes e mem_cons_self
    obtain ⟨hd, hh⟩ := hsat e mem_cons_self
    obtain ⟨cs₁, hcs₁⟩ := addConstraint_isSome hcs he hd hh hall
    obtain ⟨hc₁, hagree⟩ := addConstraint_agree added hcs he hcs₁
    have hall₁ : AllTrue o ρ₀ cs₁ ∧ ∀ x ∈ added ++ [e], x.Holds ρ₀ := by
      rcases hagree ρ₀ (fun _ => hd) (Or.inl ⟨hall, hadded⟩) with h | ⟨-, x, hx, hxf⟩
      · exact h
      · refine absurd ?_ hxf
        rcases mem_append.mp hx with hx | hx
        · exact hadded x hx
        · rwa [mem_singleton.mp hx]
    obtain ⟨cs', hrun, hc', hag'⟩ := ih cs₁ (added ++ [e]) hc₁
      (fun x hx => hes x (mem_cons_of_mem _ hx)) hall₁.1 hall₁.2
      (fun x hx => hsat x (mem_cons_of_mem _ hx))
    refine ⟨cs', by rw [addConstraints, hcs₁]; exact hrun, hc', fun ρ hdef h => ?_⟩
    have := hag' ρ (fun x hx => hdef x (mem_cons_of_mem _ hx))
      (hagree ρ (fun _ => hdef e mem_cons_self) h)
    rwa [append_assoc, singleton_append] at this

/-- Adding constraints keeps their meaning: if the added expressions are satisfiable then no
assertion fails, the stored constraints hold exactly where the added expressions do, and
`simplifyExpr` keeps values wherever the stored constraints hold. -/
theorem addConstraints_correct (o : Opts) (es : List Expr) (hes : ∀ e ∈ es, e.IsConstraint)
    (hsat : ∃ ρ, ∀ e ∈ es, e.Defined o ρ ∧ e.Holds ρ) :
    ∃ cs, addConstraints o [] es = some cs ∧ (∀ ρ, (∀ e ∈ es, e.Defined o ρ) →
        ((∀ c ∈ cs, c.Holds ρ) ↔ ∀ e ∈ es, e.Holds ρ)) ∧
      ∀ e : Expr, e.Typed → e.Canon → ∀ ρ, e.Defined o ρ → (∀ c ∈ cs, c.Holds ρ) →
        (simplifyExpr o cs e).eval ρ = e.eval ρ := by
  obtain ⟨ρ₀, hρ₀⟩ := hsat
  obtain ⟨cs, hrun, hcs, hagree⟩ := addConstraints_agree (o := o) es [] [] (by simp) hes
    allTrue_nil (by simp) hρ₀
  refine ⟨cs, hrun, fun ρ hdef => ?_, fun e he hc ρ hd hρ => ?_⟩
  · exact (hagree ρ hdef (Or.inl ⟨allTrue_nil, by simp⟩)).iff
  · exact (simplifyExpr_visited hcs he hc).refinesOn.evalOn ρ hρ hd

/-- The byte `x[0]`. -/
def byteX : Expr := .read (.bytes 0 "x" 4) .null (.const (.ofNat 32 0))

/-- The constraints `x[0] < 10` and `5 = x[0]`, the second of which rewrites the first. -/
def boundAndValue : List Expr :=
  [.bin .ult byteX (.const (.ofNat 8 10)), .bin .eq (.const (.ofNat 8 5)) byteX]

lemma byteX_typed : byteX.Typed :=
  ⟨KArray.bytes_wf 0 "x" (by decide), Nat.succ_pos _, rfl, trivial⟩

lemma boundAndValue_isConstraint : ∀ e ∈ boundAndValue, e.IsConstraint := by
  intro e he
  rcases mem_pair.mp he with rfl | rfl
  · exact ⟨⟨byteX_typed, Nat.succ_pos _, rfl⟩, ⟨⟨trivial, trivial⟩, trivial, rfl⟩, rfl⟩
  · exact ⟨⟨Nat.succ_pos _, byteX_typed, rfl⟩, ⟨trivial, ⟨trivial, trivial⟩, rfl⟩, rfl⟩

/-- The equality rewrites the bound to a constant. -/
theorem addConstraintInternal_ends_bound : Adds ⟨true, true⟩ [boundAndValue[0]] boundAndValue[1]
    (addConstraintInternal ⟨true, true⟩ [boundAndValue[0]] boundAndValue[1]) :=
  addConstraintInternal_ends
    (forall_mem_singleton.2 (boundAndValue_isConstraint _ (by decide)))
    (boundAndValue_isConstraint _ (by decide))

theorem addConstraints_correct_boundAndValue :
    ∃ cs, addConstraints ⟨true, true⟩ [] boundAndValue = some cs ∧
      ∀ ρ, (∀ c ∈ cs, c.Holds ρ) ↔ ∀ e ∈ boundAndValue, e.Holds ρ := by
  have hdef : ∀ ρ, ∀ e ∈ boundAndValue, e.Defined ⟨true, true⟩ ρ := by
    intro ρ e he _
    have hx : byteX.InRange ρ :=
      ⟨trivial, trivial, fun h => by simp [KArray.bytes, KArray.isSymbolicArray] at h⟩
    rcases mem_pair.mp he with rfl | rfl
    · exact ⟨hx, trivial⟩
    · exact ⟨trivial, hx⟩
  obtain ⟨cs, hrun, hiff, -⟩ := addConstraints_correct ⟨true, true⟩ boundAndValue
    boundAndValue_isConstraint ⟨fun _ _ => 5, fun e he => ⟨hdef _ e he, by
      rcases mem_pair.mp he with rfl | rfl <;> decide⟩⟩
  exact ⟨cs, hrun, fun ρ => hiff ρ (hdef ρ)⟩

/-- The visit of `simplifyExpr`, with the visits of the rebuilt expressions, ends after finitely
many calls. -/
theorem simplifyExpr_terminates (o : Opts) (hcs : ∀ c ∈ cs, c.IsConstraint) (he : e.Typed)
    (hc : e.Canon) : ∃ n,
      ExprVisitor.Visits o (ExprReplaceVisitor2 (equalities cs)) e (simplifyExpr o cs e) n := by
  unfold simplifyExpr
  split_ifs with hconst
  · obtain ⟨c, rfl⟩ := isConst_iff.mp hconst
    exact ⟨1, .const c⟩
  · exact ExprVisitor.exists_visits (equalities_sound hcs) e.weight e he hc le_rfl

/-- The sum of an expression and the byte `y[0]`. -/
def plusY (e : Expr) : Expr := .bin .add e (.read (.bytes 1 "y" 4) .null (.const (.ofNat 32 0)))

lemma plusY_typed : (plusY byteX).Typed :=
  ⟨byteX_typed, ⟨KArray.bytes_wf 1 "y" (by decide), Nat.succ_pos _, rfl, trivial⟩, rfl⟩

/-- The sum `x[0] + y[0]` is rebuilt as `5 + y[0]`, which is visited again. -/
theorem simplifyExpr_terminates_plusY : ∃ n,
    ExprVisitor.Visits ⟨true, true⟩ (ExprReplaceVisitor2 (equalities boundAndValue)) (plusY byteX)
      (plusY (.const (.ofNat 8 5))) n := by
  have hsimp : simplifyExpr ⟨true, true⟩ boundAndValue (plusY byteX) =
      plusY (.const (.ofNat 8 5)) := by decide +kernel
  rw [← hsimp]
  exact simplifyExpr_terminates ⟨true, true⟩ boundAndValue_isConstraint plusY_typed
    ⟨⟨trivial, trivial⟩, ⟨trivial, trivial⟩, rfl⟩

end ConstraintManager

end Castan
