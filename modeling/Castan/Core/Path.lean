/-
# Path constraints

The constraints of a path stand for the set of assignments that follow the path.  We say what it
means for a list of constraints to decide such a set, and that adding a constraint cuts the set
down to the assignments under which the constraint is true.
-/
import Castan.Core.ByteArray

namespace Castan

open ConstraintManager

variable {o : Opts} {S : Valuation → Prop} {cs : List Expr} {ρ : Valuation}

/-- The constraints `cs` hold exactly under the assignments in `S`.  Under the others some
constraint is false that does not read a constant array out of bounds. -/
structure Decides (o : Opts) (cs : List Expr) (S : Valuation → Prop) : Prop where
  isConstraint : ∀ c ∈ cs, c.IsConstraint
  allTrue : ∀ ρ, S ρ → AllTrue o ρ cs
  someFalse : ∀ ρ, ¬ S ρ → SomeFalse o ρ cs

namespace Decides

lemma holds_iff (h : Decides o cs S) (ρ : Valuation) : (∀ c ∈ cs, c.Holds ρ) ↔ S ρ := by
  constructor
  · intro hall
    by_contra hS
    obtain ⟨c, hc, -, hf⟩ := h.someFalse ρ hS
    exact hf (hall c hc)
  · exact fun hS c hc => (h.allTrue ρ hS c hc).2

lemma congr {S' : Valuation → Prop} (h : Decides o cs S) (hS : ∀ ρ, S ρ ↔ S' ρ) :
    Decides o cs S' where
  isConstraint := h.isConstraint
  allTrue ρ hρ := h.allTrue ρ ((hS ρ).mpr hρ)
  someFalse ρ hρ := h.someFalse ρ fun hS' => hρ ((hS ρ).mp hS')

/-- Constraints that can be evaluated everywhere. -/
lemma of_defined (hcs : ∀ c ∈ cs, c.IsConstraint) (hd : ∀ c ∈ cs, ∀ ρ, c.Defined o ρ) :
    Decides o cs fun ρ => ∀ c ∈ cs, c.Holds ρ where
  isConstraint := hcs
  allTrue ρ hρ c hc := ⟨hd c hc ρ, hρ c hc⟩
  someFalse ρ hρ := by
    push Not at hρ
    obtain ⟨c, hc, hf⟩ := hρ
    exact ⟨c, hc, hd c hc ρ, hf⟩

/-- What the constraints stand for after a constraint was added. -/
lemma of_addConstraint (h : Decides o cs S) {e : Expr} {cs' : List Expr} (he : e.IsConstraint)
    (hd : ∀ ρ, S ρ → e.Defined o ρ) (hadd : addConstraint o cs e = some cs') :
    Decides o cs' fun ρ => S ρ ∧ e.Holds ρ := by
  have hdef : ∀ ρ, (∀ c ∈ cs, c.Holds ρ) → e.Defined o ρ := fun ρ hρ =>
    hd ρ ((h.holds_iff ρ).mp hρ)
  refine ⟨(addConstraint_agree [] h.isConstraint he hadd).1, ?_, ?_⟩
  · rintro ρ ⟨hS, hh⟩
    rcases (addConstraint_agree [] h.isConstraint he hadd).2 ρ (hdef ρ)
      (Or.inl ⟨h.allTrue ρ hS, by simp⟩) with ⟨hall, -⟩ | ⟨-, x, hx, hf⟩
    · exact hall
    · rw [List.nil_append, List.mem_singleton] at hx
      exact absurd hh (hx ▸ hf)
  · intro ρ hρ
    by_cases hS : S ρ
    · have hf : ¬ e.Holds ρ := fun hh => hρ ⟨hS, hh⟩
      rcases (addConstraint_agree [] h.isConstraint he hadd).2 ρ (hdef ρ)
        (Or.inl ⟨h.allTrue ρ hS, by simp⟩) with ⟨-, hall⟩ | ⟨hsome, -⟩
      · exact absurd (hall e (by simp)) hf
      · exact hsome
    · -- the constraint that was false before is still accounted for
      have hfalse : ¬ (Expr.const (.bool false)).Holds ρ := fun hh =>
        absurd (APInt.bool_inj.mp hh) (by decide)
      rcases (addConstraint_agree [.const (.bool false)] h.isConstraint he hadd).2 ρ (hdef ρ)
        (Or.inr ⟨h.someFalse ρ hS, _, List.mem_singleton_self _, hfalse⟩) with
        ⟨-, hall⟩ | ⟨hsome, -⟩
      · exact absurd (hall _ (by simp)) hfalse
      · exact hsome

/-- Adding a constraint that is possible on the path. -/
theorem addConstraint (h : Decides o cs S) {e : Expr} (he : e.IsConstraint)
    (hd : ∀ ρ, S ρ → e.Defined o ρ) (hsat : ∃ ρ, S ρ ∧ e.Holds ρ) :
    ∃ cs', addConstraint o cs e = some cs' ∧ Decides o cs' fun ρ => S ρ ∧ e.Holds ρ := by
  obtain ⟨ρ₀, hS₀, he₀⟩ := hsat
  obtain ⟨cs', hadd⟩ := addConstraint_isSome h.isConstraint he (hd ρ₀ hS₀) he₀ (h.allTrue ρ₀ hS₀)
  exact ⟨cs', hadd, h.of_addConstraint he hd hadd⟩

lemma simplifyExpr_eval (h : Decides o cs S) {e : Expr} (ht : e.Typed) (hc : e.Canon)
    (hS : S ρ) (hd : e.Defined o ρ) : (simplifyExpr o cs e).eval ρ = e.eval ρ :=
  (simplifyExpr_visited h.isConstraint ht hc).refinesOn.evalOn ρ ((h.holds_iff ρ).mpr hS) hd

lemma simplifyExpr_ofWidth (h : Decides o cs S) {e : Expr} {w : ℕ} (he : e.OfWidth w) :
    (simplifyExpr o cs e).OfWidth w := by
  have hvis := simplifyExpr_visited (o := o) h.isConstraint he.typed he.canon
  exact ⟨hvis.refinesOn.typed, hvis.canon, hvis.refinesOn.width_eq.trans he.width_eq⟩

lemma simplifyExpr_defined (h : Decides o cs S) {e : Expr} (ht : e.Typed) (hc : e.Canon)
    (hS : S ρ) (hd : e.Defined o ρ) : (simplifyExpr o cs e).Defined o ρ := fun ho =>
  (simplifyExpr_visited h.isConstraint ht hc).refinesOn.inRangeOn ρ ((h.holds_iff ρ).mpr hS)
    (hd ho)

lemma simplifyExpr_hasValue (h : Decides o cs S) {e : Expr} {x : APInt} (hS : S ρ)
    (he : HasValue o ρ e x) : HasValue o ρ (simplifyExpr o cs e) x where
  ofWidth := h.simplifyExpr_ofWidth he.ofWidth
  defined := h.simplifyExpr_defined he.ofWidth.typed he.ofWidth.canon hS he.defined
  eval_eq := (h.simplifyExpr_eval he.ofWidth.typed he.ofWidth.canon hS he.defined).trans he.eval_eq

end Decides

/-! ### Values of Boolean expressions -/

namespace HasValue

variable {l r e : Expr}

lemma bin (k : BinKind) {a b : APInt} (hl : HasValue o ρ l a) (hr : HasValue o ρ r b)
    (hw : a.width = b.width) : HasValue o ρ (k.create o l r) (k.fold a b) := by
  have hwl := hl.ofWidth.width_eq
  have htyped : (Expr.bin k l r).Typed :=
    ⟨hl.ofWidth.typed, hr.ofWidth.typed, by rw [hwl, hr.ofWidth.width_eq, hw]⟩
  refine HasValue.of_refines (BinKind.create_refines k htyped)
    (BinKind.create_canon k hl.ofWidth.canon hr.ofWidth.canon) ?_
    (fun ho => ⟨hl.defined ho, hr.defined ho⟩) ?_
  · rw [BinKind.fold_width, Expr.width, hwl]
  · rw [Expr.eval_bin, hl.eval_eq, hr.eval_eq]

lemma eq {a b : APInt} (hl : HasValue o ρ l a) (hr : HasValue o ρ r b) (hw : a.width = b.width) :
    HasValue o ρ (EqExpr.create o l r) (.bool (decide (a = b))) := by
  rw [← BinKind.eq_fold hw]
  exact hl.bin .eq hr hw

lemma and {a b : Bool} (hl : HasValue o ρ l (.bool a)) (hr : HasValue o ρ r (.bool b)) :
    HasValue o ρ (AndExpr.create l r) (.bool (a && b)) := by
  have h := hl.bin .and hr rfl
  rwa [BinKind.fold_bool] at h

lemma holds_iff {b : Bool} (h : HasValue o ρ e (.bool b)) : e.Holds ρ ↔ b = true := by
  rw [Expr.Holds, h.eval_eq, APInt.bool_inj]

lemma isConstraint {b : Bool} (h : HasValue o ρ e (.bool b)) : e.IsConstraint := h.ofWidth

/-- A Boolean expression that can be evaluated has a truth value. -/
lemma of_isConstraint (he : e.IsConstraint) (hd : e.Defined o ρ) :
    HasValue o ρ e (.bool (decide (e.Holds ρ))) := by
  obtain ⟨b, hb⟩ := Expr.eval_bool ρ he.typed he.width_eq
  have hdec : decide (e.Holds ρ) = b := by simp [Expr.Holds, hb]
  exact ⟨he, hd, by rw [hb, hdec]⟩

end HasValue

end Castan
