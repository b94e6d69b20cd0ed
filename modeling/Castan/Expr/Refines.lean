/-
# Replacing an expression by a simpler one

`RefinesOn o V e' e` collects what a rewriting step has to keep under the valuations in `V`:
the replacement `e'` of `e` is well typed, has the width and the value of `e`, reads no
constant array out of bounds that `e` reads in bounds, and has no more symbolic leaves.  The
relation is transitive and a congruence, so that the proof about a rewriting rule only has to
look at the rule.  The rules of the `create` functions are valid under all valuations, which
is `Refines`.
-/
import Castan.Expr.Create

namespace Castan

open Castan.Expr

variable [Overshift]

/-! ### The number of symbolic leaves -/

mutual

/-- The number of symbolic leaves.  A read counts for more than a hundred copies of its index,
the most that `TryConstArrayOpt` makes of it, and contains the values of its updates. -/
def Expr.weight : Expr → ℕ
  | .const _ => 0
  | .notOptimized src => 1 + src.weight
  | .read _ head index => 1 + 101 * index.weight + head.weight
  | .select c t f => c.weight + t.weight + f.weight
  | .concat l r => l.weight + r.weight
  | .extract e _ _ => e.weight
  | .zExt e _ => e.weight
  | .sExt e _ => e.weight
  | .not e => e.weight
  | .bin _ l r => l.weight + r.weight

/-- The symbolic leaves of the values written by a chain of updates. -/
def UpdateNode.weight : UpdateNode → ℕ
  | .null => 0
  | .node next _ value => next.weight + value.weight

end

omit [Overshift] in
/-- A canonical expression without symbolic leaves is a constant. -/
lemma Expr.Canon.weight_pos {e : Expr} (h : e.Canon) (hc : e.isConst = false) : 0 < e.weight := by
  match e with
  | .const v => simp at hc
  | .notOptimized src => simp only [weight]; omega
  | .read root head index => simp only [weight]; omega
  | .select c t f =>
    have := weight_pos (e := c) h.1 h.2.2.2
    simp only [weight]
    omega
  | .concat l r =>
    simp only [weight]
    rcases Bool.and_eq_false_iff.mp h.2.2 with hl | hr
    · have := weight_pos (e := l) h.1 hl
      omega
    · have := weight_pos (e := r) h.2.1 hr
      omega
  | .extract e off w => exact weight_pos (e := e) h.1 h.2
  | .zExt e w => exact weight_pos (e := e) h.1 h.2
  | .sExt e w => exact weight_pos (e := e) h.1 h.2
  | .not e => exact weight_pos (e := e) h.1 h.2
  | .bin k l r =>
    simp only [weight]
    rcases Bool.and_eq_false_iff.mp h.2.2 with hl | hr
    · have := weight_pos (e := l) h.1 hl
      omega
    · have := weight_pos (e := r) h.2.1 hr
      omega

/-! ### The relation -/

/-- The expression `e'` may stand in the place of `e` under the valuations in `V`. -/
structure RefinesOn (o : Opts) (V : Valuation → Prop) (e' e : Expr) : Prop where
  typed : e'.Typed
  width_eq : e'.width = e.width
  evalOn : ∀ ρ, V ρ → (o.constArrayOpt = true → e.InRange ρ) → e'.eval ρ = e.eval ρ
  inRangeOn : ∀ ρ, V ρ → e.InRange ρ → e'.InRange ρ
  weight_le : e'.weight ≤ e.weight

/-- The expression `e'` may stand in the place of `e`. -/
abbrev Refines (o : Opts) (e' e : Expr) : Prop := RefinesOn o (fun _ => True) e' e

lemma Refines.eval_eq {o : Opts} {e e' : Expr} (h : Refines o e' e) (ρ : Valuation)
    (hρ : o.constArrayOpt = true → e.InRange ρ) : e'.eval ρ = e.eval ρ :=
  h.evalOn ρ trivial hρ

lemma Refines.inRange {o : Opts} {e e' : Expr} (h : Refines o e' e) (ρ : Valuation)
    (hρ : e.InRange ρ) : e'.InRange ρ :=
  h.inRangeOn ρ trivial hρ

namespace RefinesOn

variable {o : Opts} {V : Valuation → Prop} {e e' e'' : Expr}

lemma refl (h : e.Typed) : RefinesOn o V e e :=
  ⟨h, rfl, fun _ _ _ => rfl, fun _ _ h => h, le_rfl⟩

lemma trans (h₂ : RefinesOn o V e'' e') (h₁ : RefinesOn o V e' e) : RefinesOn o V e'' e where
  typed := h₂.typed
  width_eq := h₂.width_eq.trans h₁.width_eq
  evalOn ρ hV hρ := by
    rw [h₂.evalOn ρ hV fun ho => h₁.inRangeOn ρ hV (hρ ho), h₁.evalOn ρ hV hρ]
  inRangeOn ρ hV hρ := h₂.inRangeOn ρ hV (h₁.inRangeOn ρ hV hρ)
  weight_le := h₂.weight_le.trans h₁.weight_le

/-! ### Congruence -/

lemma bin (k : BinKind) {l l' r r' : Expr} (hl : RefinesOn o V l' l) (hr : RefinesOn o V r' r)
    (hw : l.width = r.width) : RefinesOn o V (.bin k l' r') (.bin k l r) where
  typed := ⟨hl.typed, hr.typed, by rw [hl.width_eq, hr.width_eq, hw]⟩
  width_eq := by simp only [width, hl.width_eq]
  evalOn ρ hV hρ := by
    simp only [eval, hl.evalOn ρ hV fun ho => (hρ ho).1, hr.evalOn ρ hV fun ho => (hρ ho).2]
  inRangeOn ρ hV hρ := ⟨hl.inRangeOn ρ hV hρ.1, hr.inRangeOn ρ hV hρ.2⟩
  weight_le := by
    have := hl.weight_le
    have := hr.weight_le
    simp only [weight]
    omega

lemma concat {l l' r r' : Expr} (hl : RefinesOn o V l' l) (hr : RefinesOn o V r' r) :
    RefinesOn o V (.concat l' r') (.concat l r) where
  typed := ⟨hl.typed, hr.typed⟩
  width_eq := by simp only [width, hl.width_eq, hr.width_eq]
  evalOn ρ hV hρ := by
    simp only [eval, hl.evalOn ρ hV fun ho => (hρ ho).1, hr.evalOn ρ hV fun ho => (hρ ho).2]
  inRangeOn ρ hV hρ := ⟨hl.inRangeOn ρ hV hρ.1, hr.inRangeOn ρ hV hρ.2⟩
  weight_le := by
    have := hl.weight_le
    have := hr.weight_le
    simp only [weight]
    omega

lemma extract (h : RefinesOn o V e' e) {off w : ℕ} (hw : 0 < w) (hle : off + w ≤ e.width) :
    RefinesOn o V (.extract e' off w) (.extract e off w) where
  typed := ⟨h.typed, hw, by rw [h.width_eq]; exact hle⟩
  width_eq := rfl
  evalOn ρ hV hρ := by simp only [eval, h.evalOn ρ hV hρ]
  inRangeOn := h.inRangeOn
  weight_le := h.weight_le

lemma zExt (h : RefinesOn o V e' e) {w : ℕ} (hle : e.width ≤ w) :
    RefinesOn o V (.zExt e' w) (.zExt e w) where
  typed := ⟨h.typed, by rw [h.width_eq]; exact hle⟩
  width_eq := rfl
  evalOn ρ hV hρ := by simp only [eval, h.evalOn ρ hV hρ]
  inRangeOn := h.inRangeOn
  weight_le := h.weight_le

lemma sExt (h : RefinesOn o V e' e) {w : ℕ} (hle : e.width ≤ w) :
    RefinesOn o V (.sExt e' w) (.sExt e w) where
  typed := ⟨h.typed, by rw [h.width_eq]; exact hle⟩
  width_eq := rfl
  evalOn ρ hV hρ := by simp only [eval, h.evalOn ρ hV hρ]
  inRangeOn := h.inRangeOn
  weight_le := h.weight_le

lemma not (h : RefinesOn o V e' e) : RefinesOn o V (.not e') (.not e) where
  typed := h.typed
  width_eq := h.width_eq
  evalOn ρ hV hρ := by simp only [eval, h.evalOn ρ hV hρ]
  inRangeOn := h.inRangeOn
  weight_le := h.weight_le

lemma notOptimized (h : RefinesOn o V e' e) :
    RefinesOn o V (.notOptimized e') (.notOptimized e) where
  typed := h.typed
  width_eq := h.width_eq
  evalOn := h.evalOn
  inRangeOn := h.inRangeOn
  weight_le := by
    have := h.weight_le
    simp only [weight]
    omega

lemma select {c c' t t' f f' : Expr} (hc : RefinesOn o V c' c) (ht : RefinesOn o V t' t)
    (hf : RefinesOn o V f' f) (hcw : c.width = 1) (hw : t.width = f.width) :
    RefinesOn o V (.select c' t' f') (.select c t f) where
  typed := ⟨hc.typed, ht.typed, hf.typed, by rw [hc.width_eq, hcw],
    by rw [ht.width_eq, hf.width_eq, hw]⟩
  width_eq := ht.width_eq
  evalOn ρ hV hρ := by
    simp only [eval, hc.evalOn ρ hV fun ho => (hρ ho).1, ht.evalOn ρ hV fun ho => (hρ ho).2.1,
      hf.evalOn ρ hV fun ho => (hρ ho).2.2]
  inRangeOn ρ hV hρ := ⟨hc.inRangeOn ρ hV hρ.1, ht.inRangeOn ρ hV hρ.2.1, hf.inRangeOn ρ hV hρ.2.2⟩
  weight_le := by
    have := hc.weight_le
    have := ht.weight_le
    have := hf.weight_le
    simp only [weight]
    omega

/-- The index of a read may be replaced, although the bounds of the read depend on its value:
only constant arrays have bounds, and where they matter the index keeps its value. -/
lemma read {root : KArray} {head : UpdateNode} {i i' : Expr} (hi : RefinesOn o V i' i)
    (h : (read root head i).Typed) :
    RefinesOn o V (.read root head i') (.read root head i) where
  typed := ⟨h.1, hi.typed, by rw [hi.width_eq, h.2.2.1], h.2.2.2⟩
  width_eq := rfl
  evalOn ρ hV hρ := by simp only [eval, hi.evalOn ρ hV fun ho => (hρ ho).1]
  inRangeOn ρ hV hρ := ⟨hi.inRangeOn ρ hV hρ.1, hρ.2.1, by
    rw [hi.evalOn ρ hV fun _ => hρ.1]
    exact hρ.2.2⟩
  weight_le := by
    have := hi.weight_le
    simp only [weight]
    omega

/-! ### Replacements with the same value everywhere -/

lemma mono {V' : Valuation → Prop} (h : RefinesOn o V e' e) (hV : ∀ ρ, V' ρ → V ρ) :
    RefinesOn o V' e' e :=
  ⟨h.typed, h.width_eq, fun ρ hρ => h.evalOn ρ (hV ρ hρ), fun ρ hρ => h.inRangeOn ρ (hV ρ hρ),
    h.weight_le⟩

/-- A replacement under all valuations is one under those in `V`. -/
lemma of_refines (h : Refines o e' e) : RefinesOn o V e' e := h.mono fun _ _ => trivial

/-- A replacement that evaluates as `e` does under every valuation. -/
lemma of_eval (ht : e'.Typed) (hw : e'.width = e.width) (he : ∀ ρ, e'.eval ρ = e.eval ρ)
    (hr : ∀ ρ, e.InRange ρ → e'.InRange ρ) (hle : e'.weight ≤ e.weight) : RefinesOn o V e' e :=
  ⟨ht, hw, fun ρ _ _ => he ρ, fun ρ _ => hr ρ, hle⟩

/-- A constant with the value of `e` may always replace it. -/
lemma const {v : APInt} (hpos : 0 < v.width) (hw : v.width = e.width)
    (he : ∀ ρ, (o.constArrayOpt = true → e.InRange ρ) → v = e.eval ρ) :
    RefinesOn o V (.const v) e :=
  ⟨hpos, hw, fun ρ _ => he ρ, fun _ _ _ => trivial, Nat.zero_le _⟩

end RefinesOn

end Castan
