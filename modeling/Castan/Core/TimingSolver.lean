/-
# The solver of the executor

`TimingSolver` answers constants itself, simplifies the other expressions under the constraints
of the state and passes them on.  We say what its answers mean for a path: with an exact solver
below it they are statements about the assignments that follow the path.
-/
import Castan.Core.Path
import Castan.Solver.Verdict

namespace Castan

open Castan.Expr

variable {c : APInt} {x : Valuation → APInt} {w : ℕ}

/-! ### The front end of the solver -/

namespace SolverImpl

variable (solver : SolverImpl)

/-- `Solver::evaluate` -/
def evaluate (query : Query) : Option Validity :=
  match query.expr.constant? with
  | some c => some (if c.isTrue then .isTrue else .isFalse)
  | none => solver.computeValidity query

/-- `Solver::mustBeTrue` -/
def mustBeTrue (query : Query) : Option Bool :=
  match query.expr.constant? with
  | some c => some c.isTrue
  | none => solver.computeTruth query

/-- `Solver::getValue` -/
def getValue (query : Query) : Option APInt :=
  match query.expr.constant? with
  | some c => some c
  | none => solver.computeValue query

end SolverImpl

/-- The options of the expression builder, the solver and the flag `simplifyExprs`. -/
structure TimingSolver where
  opts : Opts
  solver : SolverImpl
  simplifyExprs : Bool

namespace TimingSolver

variable (timing : TimingSolver) (constraints : List Expr) (expr : Expr)

/-- The query that is passed on. -/
def query : Query :=
  ⟨constraints,
    if timing.simplifyExprs then ConstraintManager.simplifyExpr timing.opts constraints expr
    else expr⟩

def evaluate : Option Validity :=
  match expr.constant? with
  | some c => some (if c.isTrue then .isTrue else .isFalse)
  | none => timing.solver.evaluate (timing.query constraints expr)

def mustBeTrue : Option Bool :=
  match expr.constant? with
  | some c => some c.isTrue
  | none => timing.solver.mustBeTrue (timing.query constraints expr)

def mustBeFalse : Option Bool :=
  timing.mustBeTrue constraints (expr.createIsZero timing.opts)

def mayBeTrue : Option Bool :=
  (timing.mustBeFalse constraints expr).map fun res => !res

def getValue : Option APInt :=
  match expr.constant? with
  | some c => some c
  | none => timing.solver.getValue (timing.query constraints expr)

end TimingSolver

/-! ### Exact solvers -/

/-- Boolean constraints and an expression, all well typed. -/
structure Query.Typed (q : Query) : Prop where
  constraints : ∀ c ∈ q.constraints, c.Typed ∧ c.width = 1
  expr : q.expr.Typed

/-- The solver answers every well typed query with satisfiable constraints, and rightly. -/
structure SolverImpl.AlwaysExact (solver : SolverImpl) : Prop where
  truth : ∀ q : Query, q.Typed → q.expr.width = 1 → q.Consistent Set.univ →
    ∃ isValid, solver.computeTruth q = some isValid ∧ (isValid = true ↔ q.Implied Set.univ)
  validity : ∀ q : Query, q.Typed → q.expr.width = 1 → q.Consistent Set.univ →
    ∃ result, solver.computeValidity q = some result ∧ q.Verdict Set.univ result
  value : ∀ q : Query, q.Typed → q.Consistent Set.univ →
    ∃ v, solver.computeValue q = some v ∧ ∃ ρ, q.MetBy ρ ∧ q.expr.eval ρ = v

lemma SolverImpl.preferring_exact (σ : Valuation) : (SolverImpl.preferring σ).AlwaysExact where
  truth _ _ _ _ := preferring_truth
  validity _ _ _ _ := preferring_validity
  value _ _ := preferring_value

/-- The solver answers with the values under `σ` where it can. -/
def SolverImpl.Prefers (solver : SolverImpl) (σ : Valuation) : Prop :=
  ∀ q : Query, q.MetBy σ → solver.computeValue q = some (q.expr.eval σ)

lemma SolverImpl.preferring_prefers (σ : Valuation) : (SolverImpl.preferring σ).Prefers σ :=
  fun _ => preferring_of_metBy

/-! ### Values on a path -/

section Path

variable {o : Opts} {S P Q : Valuation → Prop} {e l r : Expr} {w : ℕ}

/-- On the assignments in `S` the expression `e` of width `w` has the value `x`. -/
structure Computes (o : Opts) (S : Valuation → Prop) (e : Expr) (w : ℕ)
    (x : Valuation → APInt) : Prop where
  ofWidth : e.OfWidth w
  hasValue : ∀ ρ, S ρ → HasValue o ρ e (x ρ)

namespace Computes

variable {x y : Valuation → APInt}

lemma of_defined (he : e.OfWidth w) (hd : ∀ ρ, S ρ → e.Defined o ρ) :
    Computes o S e w fun ρ => e.eval ρ where
  ofWidth := he
  hasValue ρ hρ := ⟨by rwa [eval_width ρ he.typed, he.width_eq], hd ρ hρ, rfl⟩

lemma const (hc : 0 < c.width) : Computes o S (.const c) c.width fun _ => c where
  ofWidth := ⟨hc, trivial, rfl⟩
  hasValue _ _ := .const c hc

lemma width_eq (h : Computes o S e w x) {ρ : Valuation} (hρ : S ρ) : (x ρ).width = w :=
  (h.hasValue ρ hρ).ofWidth.width_eq.symm.trans h.ofWidth.width_eq

lemma mono {T : Valuation → Prop} (h : Computes o S e w x) (hT : ∀ ρ, T ρ → S ρ) :
    Computes o T e w x :=
  ⟨h.ofWidth, fun ρ hρ => h.hasValue ρ (hT ρ hρ)⟩

lemma simplifyExpr {cs : List Expr} (hcs : Decides o cs S) (h : Computes o S e w x) :
    Computes o S (ConstraintManager.simplifyExpr o cs e) w x :=
  ⟨hcs.simplifyExpr_ofWidth h.ofWidth, fun ρ hρ => hcs.simplifyExpr_hasValue hρ (h.hasValue ρ hρ)⟩

lemma bin (k : BinKind) (hl : Computes o S l w x) (hr : Computes o S r w y) :
    Computes o S (k.create o l r) (if k.isCmp then 1 else w) fun ρ => k.fold (x ρ) (y ρ) where
  ofWidth := by
    have htyped : (Expr.bin k l r).Typed :=
      ⟨hl.ofWidth.typed, hr.ofWidth.typed, by rw [hl.ofWidth.width_eq, hr.ofWidth.width_eq]⟩
    have href := BinKind.create_refines (o := o) k htyped
    refine ⟨href.typed, BinKind.create_canon k hl.ofWidth.canon hr.ofWidth.canon, ?_⟩
    rw [href.width_eq, width, hl.ofWidth.width_eq]
  hasValue ρ hρ := (hl.hasValue ρ hρ).bin k (hr.hasValue ρ hρ)
    ((hl.width_eq hρ).trans (hr.width_eq hρ).symm)

end Computes

/-- On the assignments in `S` the Boolean expression `e` is true where `P` is. -/
structure Tests (o : Opts) (S : Valuation → Prop) (e : Expr) (P : Valuation → Prop) : Prop where
  isConstraint : e.IsConstraint
  defined : ∀ ρ, S ρ → e.Defined o ρ
  holds_iff : ∀ ρ, S ρ → (e.Holds ρ ↔ P ρ)

namespace Tests

lemma congr (h : Tests o S e P) (hPQ : ∀ ρ, S ρ → (P ρ ↔ Q ρ)) : Tests o S e Q :=
  ⟨h.isConstraint, h.defined, fun ρ hρ => (h.holds_iff ρ hρ).trans (hPQ ρ hρ)⟩

/-- Fewer assignments. -/
lemma mono {T : Valuation → Prop} (h : Tests o S e P) (hT : ∀ ρ, T ρ → S ρ) : Tests o T e P :=
  ⟨h.isConstraint, fun ρ hρ => h.defined ρ (hT ρ hρ), fun ρ hρ => h.holds_iff ρ (hT ρ hρ)⟩

open Classical in
lemma computes (h : Tests o S e P) : Computes o S e 1 fun ρ => .bool (decide (P ρ)) where
  ofWidth := h.isConstraint
  hasValue ρ hρ := by
    have hval := HasValue.of_isConstraint h.isConstraint (h.defined ρ hρ)
    rwa [decide_eq_decide.2 (h.holds_iff ρ hρ)] at hval

/-- An expression whose value is a truth value. -/
lemma of_computes (h : Computes o S e 1 x)
    (hx : ∀ ρ, S ρ → (x ρ = .bool true ↔ P ρ)) : Tests o S e P where
  isConstraint := h.ofWidth
  defined ρ hρ := (h.hasValue ρ hρ).defined
  holds_iff ρ hρ := by rw [Expr.Holds, (h.hasValue ρ hρ).eval_eq, hx ρ hρ]

lemma bool (b : Bool) : Tests o S (.const (.bool b)) fun _ => b = true where
  isConstraint := ⟨Nat.one_pos, trivial, rfl⟩
  defined _ _ _ := trivial
  holds_iff _ _ := APInt.bool_inj

lemma eq {y : Valuation → APInt} (hl : Computes o S l w x) (hr : Computes o S r w y) :
    Tests o S (EqExpr.create o l r) fun ρ => x ρ = y ρ := by
  refine of_computes (hl.bin .eq hr) fun ρ hρ => ?_
  rw [BinKind.eq_fold ((hl.width_eq hρ).trans (hr.width_eq hρ).symm), APInt.bool_inj,
    decide_eq_true_iff]

lemma and (hl : Tests o S l P) (hr : Tests o S r Q) :
    Tests o S (AndExpr.create l r) fun ρ => P ρ ∧ Q ρ := by
  classical
  refine of_computes (hl.computes.bin .and hr.computes) fun ρ _ => ?_
  simp [BinKind.boolOp, APInt.bool_inj]

lemma or (hl : Tests o S l P) (hr : Tests o S r Q) :
    Tests o S (OrExpr.create l r) fun ρ => P ρ ∨ Q ρ := by
  classical
  refine of_computes (hl.computes.bin .or hr.computes) fun ρ _ => ?_
  simp [BinKind.boolOp, APInt.bool_inj]

lemma createIsZero (h : Tests o S e P) : Tests o S (e.createIsZero o) fun ρ => ¬ P ρ where
  isConstraint := by
    have href := createIsZero_refines (o := o) h.isConstraint.typed
    exact ⟨href.typed, createIsZero_canon h.isConstraint.canon, href.width_eq⟩
  defined ρ hρ ho := (createIsZero_refines h.isConstraint.typed).inRange ρ
    ⟨h.defined ρ hρ ho, trivial⟩
  holds_iff ρ hρ := by
    rw [createIsZero_holds h.isConstraint.typed h.isConstraint.width_eq (h.defined ρ hρ),
      h.holds_iff ρ hρ]

lemma simplifyExpr {cs : List Expr} (hcs : Decides o cs S) (h : Tests o S e P) :
    Tests o S (ConstraintManager.simplifyExpr o cs e) P where
  isConstraint := hcs.simplifyExpr_ofWidth h.isConstraint
  defined _ hρ := hcs.simplifyExpr_defined h.isConstraint.typed h.isConstraint.canon hρ
    (h.defined _ hρ)
  holds_iff ρ hρ := by
    rw [Expr.Holds, hcs.simplifyExpr_eval h.isConstraint.typed h.isConstraint.canon hρ
      (h.defined ρ hρ)]
    exact h.holds_iff ρ hρ

/-- A constant is true everywhere or nowhere. -/
lemma isTrue_iff (h : Tests o S (.const c) P) {ρ : Valuation} (hρ : S ρ) :
    c.isTrue = true ↔ P ρ := by
  obtain ⟨b, hb⟩ := eval_bool ρ h.isConstraint.typed h.isConstraint.width_eq
  obtain rfl : c = .bool b := hb
  rw [← h.holds_iff ρ hρ, Expr.Holds, eval, APInt.bool_inj]
  cases b <;> decide

end Tests

end Path

/-! ### What the answers mean -/

namespace TimingSolver

variable {timing : TimingSolver} {cs : List Expr} {S P : Valuation → Prop} {e : Expr}

lemma query_metBy (hcs : Decides timing.opts cs S) (ρ : Valuation) :
    (timing.query cs e).MetBy ρ ↔ S ρ :=
  hcs.holds_iff ρ

lemma query_consistent (hcs : Decides timing.opts cs S) (hsat : ∃ ρ, S ρ) :
    (timing.query cs e).Consistent Set.univ := by
  obtain ⟨ρ, hρ⟩ := hsat
  exact ⟨ρ, trivial, (query_metBy hcs ρ).2 hρ⟩

lemma query_tests (hcs : Decides timing.opts cs S) (he : Tests timing.opts S e P) :
    Tests timing.opts S (timing.query cs e).expr P := by
  unfold query
  split
  · exact he.simplifyExpr hcs
  · exact he

lemma query_computes (hcs : Decides timing.opts cs S)
    (he : Computes timing.opts S e w x) : Computes timing.opts S (timing.query cs e).expr w x := by
  unfold query
  split
  · exact he.simplifyExpr hcs
  · exact he

lemma query_typed (hcs : Decides timing.opts cs S)
    (he : (timing.query cs e).expr.OfWidth w) : (timing.query cs e).Typed where
  constraints c hc := ⟨(hcs.isConstraint c hc).typed, (hcs.isConstraint c hc).width_eq⟩
  expr := he.typed

/-- What the answer of `evaluate` says about the assignments of a path. -/
def Verdict (S P : Valuation → Prop) : Validity → Prop
  | .isTrue => ∀ ρ, S ρ → P ρ
  | .isFalse => ∀ ρ, S ρ → ¬ P ρ
  | .unknown => (∃ ρ, S ρ ∧ P ρ) ∧ ∃ ρ, S ρ ∧ ¬ P ρ

lemma verdict_const {o : Opts} (h : Tests o S (.const c) P) :
    Verdict S P (if c.isTrue then .isTrue else .isFalse) := by
  by_cases htrue : c.isTrue = true
  · rw [if_pos htrue]
    exact fun ρ hρ => (h.isTrue_iff hρ).1 htrue
  · rw [if_neg htrue]
    exact fun ρ hρ hP => htrue ((h.isTrue_iff hρ).2 hP)

lemma forall_iff_const {o : Opts} (hsat : ∃ ρ, S ρ) (h : Tests o S (.const c) P) :
    c.isTrue = true ↔ ∀ ρ, S ρ → P ρ := by
  obtain ⟨σ, hσ⟩ := hsat
  exact ⟨fun htrue ρ hρ => (h.isTrue_iff hρ).1 htrue, fun hall => (h.isTrue_iff hσ).2 (hall σ hσ)⟩

section Exact

variable (hexact : timing.solver.AlwaysExact) (hcs : Decides timing.opts cs S) (hsat : ∃ ρ, S ρ)

include hexact hcs hsat

lemma computeValidity_spec (he : Tests timing.opts S e P) :
    ∃ result, timing.solver.computeValidity (timing.query cs e) = some result ∧
      Verdict S P result := by
  have hquery := query_tests hcs he
  obtain ⟨result, heq, hverdict⟩ := hexact.validity _ (query_typed hcs hquery.isConstraint)
    hquery.isConstraint.width_eq (query_consistent hcs hsat)
  refine ⟨result, heq, ?_⟩
  cases result with
  | isTrue =>
    exact fun ρ hρ => (hquery.holds_iff ρ hρ).1 (hverdict ρ trivial ((query_metBy hcs ρ).2 hρ))
  | isFalse =>
    exact fun ρ hρ hP =>
      hverdict ρ trivial ((query_metBy hcs ρ).2 hρ) ((hquery.holds_iff ρ hρ).2 hP)
  | unknown =>
    obtain ⟨hnot, hnot'⟩ := hverdict
    simp only [Query.Implied, Query.Refuted, not_forall, not_not] at hnot hnot'
    obtain ⟨σ, -, hσ, hfalse⟩ := hnot
    obtain ⟨τ, -, hτ, htrue⟩ := hnot'
    have hSσ := (query_metBy hcs σ).1 hσ
    have hSτ := (query_metBy hcs τ).1 hτ
    exact ⟨⟨τ, hSτ, (hquery.holds_iff τ hSτ).1 htrue⟩,
      σ, hSσ, fun hP => hfalse ((hquery.holds_iff σ hSσ).2 hP)⟩

theorem evaluate_spec (he : Tests timing.opts S e P) :
    ∃ result, timing.evaluate cs e = some result ∧ Verdict S P result := by
  have hquery := query_tests hcs he
  unfold evaluate SolverImpl.evaluate
  rcases hc : e.constant? with _ | c
  · rcases hc' : (timing.query cs e).expr.constant? with _ | c
    · exact computeValidity_spec hexact hcs hsat he
    · rw [constant?_eq_some.1 hc'] at hquery
      exact ⟨_, rfl, verdict_const hquery⟩
  · rw [constant?_eq_some.1 hc] at he
    exact ⟨_, rfl, verdict_const he⟩

lemma computeTruth_spec (he : Tests timing.opts S e P) :
    ∃ result, timing.solver.computeTruth (timing.query cs e) = some result ∧
      (result = true ↔ ∀ ρ, S ρ → P ρ) := by
  have hquery := query_tests hcs he
  obtain ⟨result, heq, hiff⟩ := hexact.truth _ (query_typed hcs hquery.isConstraint)
    hquery.isConstraint.width_eq (query_consistent hcs hsat)
  refine ⟨result, heq, hiff.trans ⟨fun h ρ hρ => ?_, fun h ρ _ hmet => ?_⟩⟩
  · exact (hquery.holds_iff ρ hρ).1 (h ρ trivial ((query_metBy hcs ρ).2 hρ))
  · have hρ := (query_metBy hcs ρ).1 hmet
    exact (hquery.holds_iff ρ hρ).2 (h ρ hρ)

theorem mustBeTrue_spec (he : Tests timing.opts S e P) :
    ∃ result, timing.mustBeTrue cs e = some result ∧ (result = true ↔ ∀ ρ, S ρ → P ρ) := by
  have hquery := query_tests hcs he
  unfold mustBeTrue SolverImpl.mustBeTrue
  rcases hc : e.constant? with _ | c
  · rcases hc' : (timing.query cs e).expr.constant? with _ | c
    · exact computeTruth_spec hexact hcs hsat he
    · rw [constant?_eq_some.1 hc'] at hquery
      exact ⟨_, rfl, forall_iff_const hsat hquery⟩
  · rw [constant?_eq_some.1 hc] at he
    exact ⟨_, rfl, forall_iff_const hsat he⟩

theorem mayBeTrue_spec (he : Tests timing.opts S e P) :
    ∃ result, timing.mayBeTrue cs e = some result ∧ (result = true ↔ ∃ ρ, S ρ ∧ P ρ) := by
  obtain ⟨res, heq, hiff⟩ := mustBeTrue_spec hexact hcs hsat he.createIsZero
  refine ⟨!res, by rw [mayBeTrue, mustBeFalse, heq]; rfl, ?_⟩
  rw [Bool.not_eq_true', ← Bool.not_eq_true, hiff]
  push Not
  rfl

theorem getValue_spec (he : Computes timing.opts S e w x) :
    ∃ v, timing.getValue cs e = some v ∧ ∃ ρ, S ρ ∧ x ρ = v := by
  -- a constant is the value under any assignment
  have hconst : ∀ {c}, Computes timing.opts S (.const c) w x → ∃ ρ, S ρ ∧ x ρ = c := by
    intro c hc
    obtain ⟨σ, hσ⟩ := hsat
    exact ⟨σ, hσ, (hc.hasValue σ hσ).eval_eq.symm⟩
  have hquery := query_computes hcs he
  unfold getValue SolverImpl.getValue
  rcases hc : e.constant? with _ | c
  · rcases hc' : (timing.query cs e).expr.constant? with _ | c
    · obtain ⟨v, heq, ρ, hmet, hv⟩ := hexact.value _ (query_typed hcs hquery.ofWidth)
        (query_consistent hcs hsat)
      have hρ := (query_metBy hcs ρ).1 hmet
      exact ⟨v, heq, ρ, hρ, (hquery.hasValue ρ hρ).eval_eq.symm.trans hv⟩
    · rw [constant?_eq_some.1 hc'] at hquery
      exact ⟨c, rfl, hconst hquery⟩
  · rw [constant?_eq_some.1 hc] at he
    exact ⟨c, rfl, hconst he⟩

end Exact

/-- The value under the assignment that the solver prefers. -/
lemma getValue_of_prefers {σ : Valuation}
    (hprefers : timing.solver.Prefers σ) (hcs : Decides timing.opts cs S) (hσ : S σ)
    (he : Computes timing.opts S e w x) : timing.getValue cs e = some (x σ) := by
  have hquery := query_computes hcs he
  unfold getValue SolverImpl.getValue
  rcases hc : e.constant? with _ | c
  · rcases hc' : (timing.query cs e).expr.constant? with _ | c
    · show timing.solver.computeValue _ = _
      rw [hprefers _ ((query_metBy hcs σ).2 hσ), (hquery.hasValue σ hσ).eval_eq]
    · rw [constant?_eq_some.1 hc'] at hquery
      exact congrArg some (hquery.hasValue σ hσ).eval_eq
  · rw [constant?_eq_some.1 hc] at he
    exact congrArg some (he.hasValue σ hσ).eval_eq

/-- The preferred value is the answer. -/
lemma getValue_preferring {σ : Valuation} (hprefer : timing.solver = .preferring σ)
    (hcs : Decides timing.opts cs S) (he : Computes timing.opts S e w x)
    (hσ : S σ) : timing.getValue cs e = some (x σ) :=
  getValue_of_prefers (hprefer ▸ SolverImpl.preferring_prefers σ) hcs hσ he

end TimingSolver

end Castan
