/-
# The meaning of expressions

Under a valuation of the cells of all arrays every expression has a value.  A read walks the
update list from the most recent update and ends in the initial contents of the root array,
which for a constant array are its constants.
-/
import Castan.Expr.Syntax

namespace Castan

variable [Overshift]

/-- A value for every cell of every array. -/
abbrev Valuation := KArray → ℕ → ℕ

/-- The initial contents of the cell `i`: the constant stored there or, for a symbolic array
and outside the bounds, what the valuation says. -/
def KArray.initialValue (a : KArray) (ρ : Valuation) (i : ℕ) : APInt :=
  (a.constantValues[i]?).getD (APInt.ofNat a.range (ρ a i))

mutual

/-- The value of an expression. -/
def Expr.eval (ρ : Valuation) : Expr → APInt
  | .const v => v
  | .notOptimized src => src.eval ρ
  | .read root head index => head.evalAt ρ root (index.eval ρ)
  | .select c t f => if (c.eval ρ).isTrue then t.eval ρ else f.eval ρ
  | .concat l r => (l.eval ρ).concat (r.eval ρ)
  | .extract e off w => (e.eval ρ).extract off w
  | .zExt e w => (e.eval ρ).zExt w
  | .sExt e w => (e.eval ρ).sExt w
  | .not e => (e.eval ρ).not
  | .bin k l r => k.fold (l.eval ρ) (r.eval ρ)

/-- The cell with index `i` of an update list over `root`. -/
def UpdateNode.evalAt (ρ : Valuation) (root : KArray) : UpdateNode → APInt → APInt
  | .null, i => root.initialValue ρ i.toNat
  | .node next index value, i =>
      if index.eval ρ = i then value.eval ρ else next.evalAt ρ root i

end

mutual

/-- No constant array is read outside its bounds. -/
def Expr.InRange (ρ : Valuation) : Expr → Prop
  | .const _ => True
  | .notOptimized src => src.InRange ρ
  | .read root head index =>
      index.InRange ρ ∧ head.InRange ρ ∧
        (root.isSymbolicArray = false → (index.eval ρ).toNat < root.size)
  | .select c t f => c.InRange ρ ∧ t.InRange ρ ∧ f.InRange ρ
  | .concat l r => l.InRange ρ ∧ r.InRange ρ
  | .extract e _ _ => e.InRange ρ
  | .zExt e _ => e.InRange ρ
  | .sExt e _ => e.InRange ρ
  | .not e => e.InRange ρ
  | .bin _ l r => l.InRange ρ ∧ r.InRange ρ

/-- No constant array is read outside its bounds by the indices and values of the updates. -/
def UpdateNode.InRange (ρ : Valuation) : UpdateNode → Prop
  | .null => True
  | .node next index value => next.InRange ρ ∧ index.InRange ρ ∧ value.InRange ρ

end

/-- A Boolean expression is true under `ρ`. -/
def Expr.Holds (ρ : Valuation) (e : Expr) : Prop := e.eval ρ = APInt.bool true

instance (ρ : Valuation) (e : Expr) : Decidable (e.Holds ρ) :=
  inferInstanceAs (Decidable (e.eval ρ = APInt.bool true))

omit [Overshift] in
lemma KArray.initialValue_width {a : KArray} (h : a.WF) (ρ : Valuation) (i : ℕ) :
    (a.initialValue ρ i).width = a.range := by
  unfold initialValue
  cases hi : a.constantValues[i]? with
  | none => rfl
  | some v => exact h.values_width v (List.mem_of_getElem? hi)

mutual

lemma Expr.eval_width (ρ : Valuation) : ∀ {e : Expr}, e.Typed → (e.eval ρ).width = e.width
  | .const v, _ => rfl
  | .notOptimized src, h => Expr.eval_width ρ (e := src) h
  | .read root head index, h => UpdateNode.evalAt_width ρ h.1 h.2.2.2 _
  | .select c t f, h => by
    have ht := Expr.eval_width ρ h.2.1
    have hf := Expr.eval_width ρ h.2.2.1
    simp only [Expr.eval, Expr.width]
    split_ifs
    · exact ht
    · rw [hf, h.2.2.2.2]
  | .concat l r, h => by
    simp only [Expr.eval, Expr.width, APInt.concat, Expr.eval_width ρ h.1, Expr.eval_width ρ h.2]
  | .extract e off w, _ => rfl
  | .zExt e w, _ => rfl
  | .sExt e w, _ => rfl
  | .not e, h => Expr.eval_width ρ (e := e) h
  | .bin k l r, h => by
    simp only [Expr.eval, Expr.width, BinKind.fold_width, Expr.eval_width ρ h.1]

lemma UpdateNode.evalAt_width (ρ : Valuation) {root : KArray} (hroot : root.WF) :
    ∀ {head : UpdateNode}, head.Typed root → ∀ i, (head.evalAt ρ root i).width = root.range
  | .null, _, i => KArray.initialValue_width hroot ρ _
  | .node next index value, h, i => by
    have hv := Expr.eval_width ρ h.2.2.1
    have hn := UpdateNode.evalAt_width ρ hroot h.1 i
    simp only [UpdateNode.evalAt]
    split_ifs
    · rw [hv, h.2.2.2.2]
    · exact hn

end

/-- The value of a Boolean expression is a Boolean constant. -/
lemma Expr.eval_bool (ρ : Valuation) {e : Expr} (h : e.Typed) (hw : e.width = 1) :
    ∃ b, e.eval ρ = APInt.bool b :=
  ⟨_, APInt.eq_bool_of_width (by rw [Expr.eval_width ρ h, hw])⟩

lemma Expr.not_holds_iff {ρ : Valuation} {e : Expr} (h : e.Typed) (hw : e.width = 1) :
    ¬ e.Holds ρ ↔ e.eval ρ = APInt.bool false := by
  obtain ⟨b, hb⟩ := Expr.eval_bool ρ h hw
  cases b <;> simp [Expr.Holds, hb]

/-- The value of a well-typed expression of width `w` is a bit vector of that width. -/
lemma Expr.exists_eval_eq {e : Expr} {w : ℕ} (h : e.Typed) (hw : e.width = w) (ρ : Valuation) :
    ∃ x : BitVec w, e.eval ρ = ⟨w, x⟩ := by
  have h1 := Expr.eval_width ρ h
  rw [hw] at h1
  subst h1
  exact ⟨_, rfl⟩

end Castan
