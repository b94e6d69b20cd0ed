/-
# Verdicts on queries

What an exact solver answers.  The valuations that count are those of a set `D`: all of them, or
the ones under which no constant array is read out of bounds.  An exact solver exists for any
preferred valuation.
-/
import Castan.Solver.CexCaching

namespace Castan

/-- The functions of `SolverImpl`, with `none` for a failure. -/
structure SolverImpl where
  computeTruth : Query → Option Bool
  computeValidity : Query → Option Validity
  computeValue : Query → Option APInt
  /-- The values of the objects, if there is a solution. -/
  computeInitialValues : Query → List KArray → Option (Option (List (List (BitVec 8))))

namespace Query

section Verdict

variable (D : Set Valuation) (q : Query)

/-- The constraints hold. -/
def MetBy (ρ : Valuation) : Prop := ∀ c ∈ q.constraints, c.Holds ρ

/-- The constraints hold and the expression does not. -/
def FalsifiedBy (ρ : Valuation) : Prop := q.MetBy ρ ∧ ¬ q.expr.Holds ρ

/-- Some valuation satisfies the constraints. -/
def Consistent : Prop := ∃ ρ ∈ D, q.MetBy ρ

/-- The constraints imply the expression. -/
def Implied : Prop := ∀ ρ ∈ D, q.MetBy ρ → q.expr.Holds ρ

/-- The constraints imply that the expression is false. -/
def Refuted : Prop := ∀ ρ ∈ D, q.MetBy ρ → ¬ q.expr.Holds ρ

/-- The answer of `computeValidity` is right. -/
def Verdict : Validity → Prop
  | .isTrue => q.Implied D
  | .isFalse => q.Refuted D
  | .unknown => ¬ q.Implied D ∧ ¬ q.Refuted D

/-- The expression is a Boolean that has a value wherever the constraints hold. -/
structure Boolean (o : Opts) : Prop where
  typed : q.expr.Typed
  width : q.expr.width = 1
  defined : ∀ ρ ∈ D, q.MetBy ρ → q.expr.Defined o ρ

end Verdict

variable {D : Set Valuation} {o : Opts} {q : Query}

/-- With satisfiable constraints an expression is not both implied and refuted. -/
lemma Consistent.not_refuted (hsat : q.Consistent D) (h : q.Implied D) : ¬ q.Refuted D := by
  intro hr
  obtain ⟨ρ, hρ, hmet⟩ := hsat
  exact hr ρ hρ hmet (h ρ hρ hmet)

end Query

lemma Expr.createIsZero_holds {o : Opts} {ρ : Valuation} {e : Expr} (h : e.Typed)
    (hw : e.width = 1) (hd : e.Defined o ρ) : (e.createIsZero o).Holds ρ ↔ ¬ e.Holds ρ := by
  have href := Expr.createIsZero_refines (o := o) h
  rw [Expr.Holds, href.eval_eq _ fun ho => ⟨hd ho, trivial⟩, Expr.eval_eq_bin _ (isZero_typed h),
    APInt.bool_inj, decide_eq_true_iff, Expr.not_holds_iff h hw, Expr.eval, hw]
  rfl

namespace Query

variable {D : Set Valuation} {o : Opts} {q : Query}

lemma Boolean.negateExpr (h : q.Boolean D o) : (q.negateExpr o).Boolean D o where
  typed := (Expr.createIsZero_refines (o := o) h.typed).typed
  width := (Expr.createIsZero_refines (o := o) h.typed).width_eq
  defined ρ hρ hmet ho := (Expr.createIsZero_refines (o := o) h.typed).inRange _
    ⟨h.defined ρ hρ hmet ho, trivial⟩

lemma Boolean.negateExpr_holds (h : q.Boolean D o) {ρ : Valuation} (hρ : ρ ∈ D)
    (hmet : q.MetBy ρ) : (q.negateExpr o).expr.Holds ρ ↔ ¬ q.expr.Holds ρ :=
  Expr.createIsZero_holds h.typed h.width (h.defined ρ hρ hmet)

lemma Boolean.negateExpr_implied (h : q.Boolean D o) :
    (q.negateExpr o).Implied D ↔ q.Refuted D := by
  constructor
  · intro hi ρ hρ hmet
    exact (h.negateExpr_holds hρ hmet).1 (hi ρ hρ hmet)
  · intro hr ρ hρ hmet
    exact (h.negateExpr_holds hρ hmet).2 (hr ρ hρ hmet)

lemma Boolean.negateExpr_refuted (h : q.Boolean D o) :
    (q.negateExpr o).Refuted D ↔ q.Implied D := by
  constructor
  · intro hr ρ hρ hmet
    by_contra hnot
    exact hr ρ hρ hmet ((h.negateExpr_holds hρ hmet).2 hnot)
  · intro hi ρ hρ hmet hneg
    exact (h.negateExpr_holds hρ hmet).1 hneg (hi ρ hρ hmet)

end Query

/-! ### An exact solver -/

namespace SolverImpl

open scoped Classical in
/-- An exact solver that prefers the values under `σ`. -/
noncomputable def preferring (σ : Valuation) : SolverImpl where
  computeTruth q := some (decide (q.Implied Set.univ))
  computeValidity q :=
    some (if q.Implied Set.univ then .isTrue else if q.Refuted Set.univ then .isFalse else .unknown)
  computeValue q :=
    if q.MetBy σ then some (q.expr.eval σ)
    else if h : ∃ ρ, q.MetBy ρ then some (q.expr.eval h.choose) else none
  computeInitialValues _ _ := none

variable {q : Query} {σ : Valuation} {v : APInt}

lemma preferring_truth : ∃ isValid, (preferring σ).computeTruth q = some isValid ∧
    (isValid = true ↔ q.Implied Set.univ) :=
  ⟨_, rfl, by simp⟩

lemma preferring_validity : ∃ result, (preferring σ).computeValidity q = some result ∧
    q.Verdict Set.univ result := by
  refine ⟨_, rfl, ?_⟩
  split_ifs with hi hr
  · exact hi
  · exact hr
  · exact ⟨hi, hr⟩

lemma preferring_of_metBy (h : q.MetBy σ) : (preferring σ).computeValue q = some (q.expr.eval σ) :=
  if_pos h

lemma preferring_eq_some (h : (preferring σ).computeValue q = some v) :
    ∃ ρ, q.MetBy ρ ∧ q.expr.eval ρ = v := by
  simp only [preferring] at h
  split_ifs at h with hσ hmet
  · exact ⟨σ, hσ, Option.some.inj h⟩
  · exact ⟨hmet.choose, hmet.choose_spec, Option.some.inj h⟩

lemma preferring_eq_none_iff : (preferring σ).computeValue q = none ↔ ∀ ρ, ¬ q.MetBy ρ := by
  simp only [preferring]
  split_ifs with hσ hmet
  · exact iff_of_false (by simp) fun h => h σ hσ
  · exact iff_of_false (by simp) (not_forall_not.2 hmet)
  · exact iff_of_true rfl (not_exists.1 hmet)

lemma preferring_value (h : q.Consistent Set.univ) :
    ∃ v, (preferring σ).computeValue q = some v ∧ ∃ ρ, q.MetBy ρ ∧ q.expr.eval ρ = v := by
  obtain ⟨ρ, -, hρ⟩ := h
  cases hv : (preferring σ).computeValue q with
  | none => exact absurd hρ (preferring_eq_none_iff.1 hv ρ)
  | some v => exact ⟨v, rfl, preferring_eq_some hv⟩

end SolverImpl

end Castan
