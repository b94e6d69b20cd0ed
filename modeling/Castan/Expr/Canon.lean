/-
# The simplifying constructors return canonical expressions

`Expr.h` promises that no expression has only constant arguments.  The `create` functions
keep this: over canonical operands they return a canonical expression.
-/
import Castan.Expr.Create

namespace Castan

variable {k : BinKind} {l r e : Expr} {cl : APInt}

variable {o : Opts}

/-! ### The macros -/

lemma Expr.Canon.bin (hl : l.Canon) (hr : r.Canon)
    (h : l.isConst = false ∨ r.isConst = false) : (Expr.bin k l r).Canon :=
  ⟨hl, hr, Bool.and_eq_false_iff.mpr h⟩

/-- Next to a constant there is no second one. -/
lemma Expr.Canon.not_isConst {c : APInt}
    (h : (Expr.bin k (.const c) r).Canon) : r.isConst = false := by
  simpa using h.2.2

/-- A property that passes to the operands and that two constants side by side do not have. -/
structure Hereditary (P : Expr → Prop) : Prop where
  const : ∀ c, P (.const c)
  bin : ∀ {k : BinKind} {l r : Expr}, P l → P r → l.isConst = false ∨ r.isConst = false →
    P (.bin k l r)
  left : ∀ {k : BinKind} {l r : Expr}, P (.bin k l r) → P l
  right : ∀ {k : BinKind} {l r : Expr}, P (.bin k l r) → P r
  zExt : ∀ {e : Expr} {w : ℕ}, P (.zExt e w) → P e
  sExt : ∀ {e : Expr} {w : ℕ}, P (.sExt e w) → P e
  index : ∀ {root : KArray} {head : UpdateNode} {index : Expr}, P (.read root head index) → P index
  not_isConst : ∀ {k : BinKind} {c : APInt} {r : Expr}, P (.bin k (.const c) r) → r.isConst = false

lemma hereditary_canon : Hereditary Expr.Canon where
  const _ := trivial
  bin hl hr h := hl.bin hr h
  left h := h.1
  right h := h.2.1
  zExt h := h.1
  sExt h := h.1
  index h := h.2
  not_isConst h := h.not_isConst

section Macros

variable {P : Expr → Prop} (hP : Hereditary P) {l r : Expr}

include hP

lemma Hereditary.bcreateR {pl : Expr → APInt → Expr} {pr : APInt → Expr → Expr}
    {cn : Expr → Expr → Expr} (hR : ∀ cl, r.isConst = false → P (pr cl r))
    (hL : ∀ cr, l.isConst = false → P (pl l cr))
    (hN : l.isConst = false → r.isConst = false → P (cn l r)) : P (bcreateR k pl pr cn l r) := by
  unfold Castan.bcreateR
  split
  · exact hP.const _
  · next cl _ hr => exact hR cl (Expr.constant?_eq_none.mp hr)
  · next cr hl _ => exact hL cr (Expr.constant?_eq_none.mp hl)
  · next hl hr => exact hN (Expr.constant?_eq_none.mp hl) (Expr.constant?_eq_none.mp hr)

/-- A call of `create` with a constant operand. -/
lemma Hereditary.constCase {p : Expr} {f : APInt → APInt} (hp : e.isConst = false → P p) :
    P (match e.constant? with
      | some v => Expr.const (f v)
      | none => p) := by
  split
  · exact hP.const _
  · next h => exact hp (Expr.constant?_eq_none.mp h)

/-! ### And, Or, Eq -/

lemma Hereditary.andPartial {cr : APInt} (hl : P l) (hlc : l.isConst = false) :
    P (AndExpr.createPartial l cr) := by
  unfold AndExpr.createPartial
  split_ifs
  · exact hl
  · exact hP.const _
  · exact hP.bin hl (hP.const _) (Or.inl hlc)

lemma Hereditary.and (hl : P l) (hr : P r) : P (AndExpr.create l r) :=
  hP.bcreateR (fun _ => hP.andPartial hr) (fun _ => hP.andPartial hl)
    fun hlc _ => hP.bin hl hr (Or.inl hlc)

lemma Hereditary.orPartial {cr : APInt} (hl : P l) (hlc : l.isConst = false) :
    P (OrExpr.createPartial l cr) := by
  unfold OrExpr.createPartial
  split_ifs
  · exact hP.const _
  · exact hl
  · exact hP.bin hl (hP.const _) (Or.inl hlc)

lemma Hereditary.or (hl : P l) (hr : P r) : P (OrExpr.create l r) :=
  hP.bcreateR (fun _ => hP.orPartial hr) (fun _ => hP.orPartial hl)
    fun hlc _ => hP.bin hl hr (Or.inl hlc)

lemma Hereditary.eqNode (hl : P l) (hr : P r) (hrc : r.isConst = false) :
    P (EqExpr.createNode l r) := by
  unfold EqExpr.createNode
  split_ifs
  · exact hP.const _
  · exact hP.bin hl hr (Or.inr hrc)

lemma Hereditary.tryConstArrayOptLoop {dflt : Expr} {mayBe : ℕ → Expr}
    (hd : P dflt) (hm : ∀ i, P (mayBe i)) (vs : List APInt) (i n : ℕ) (res : Expr) (h : P res) :
    P (tryConstArrayOptLoop cl dflt mayBe vs i n res) := by
  induction vs generalizing i n res with
  | nil => exact h
  | cons v vs ih =>
    rw [Castan.tryConstArrayOptLoop]
    split_ifs
    · exact hd
    · exact ih _ _ _ (hP.or h (hm i))
    · exact ih _ _ _ h

theorem Hereditary.eqPartialR (cl : APInt) (r : Expr) (hr : P r) (hrc : r.isConst = false) :
    P (EqExpr.createPartialR o cl r) := by
  have hnode : P (EqExpr.createNode (.const cl) r) := hP.eqNode (hP.const _) hr hrc
  unfold EqExpr.createPartialR
  by_cases hw : cl.width = 1
  · rw [if_pos hw]
    by_cases ht : cl.isTrue = true
    · rw [if_pos ht]
      exact hr
    rw [if_neg ht]
    split
    · split_ifs
      · exact hP.right hr
      · exact hnode
    · next a b =>
      exact hP.and (hP.constCase (eqPartialR _ a (hP.left hr)))
        (hP.constCase (eqPartialR _ b (hP.right hr)))
    · exact hnode
  rw [if_neg hw]
  split
  · next src w =>
    dsimp only
    split_ifs
    · exact hP.constCase (eqPartialR _ src (hP.sExt hr))
    · exact hP.const _
  · next src w =>
    dsimp only
    split_ifs
    · exact hP.constCase (eqPartialR _ src (hP.zExt hr))
    · exact hP.const _
  · next c1 b => exact eqPartialR _ b (hP.right hr) (hP.not_isConst hr)
  · next c1 b => exact eqPartialR _ b (hP.right hr) (hP.not_isConst hr)
  · next root head index =>
    split_ifs
    · unfold tryConstArrayOpt
      split_ifs
      · exact hnode
      · exact hP.tryConstArrayOptLoop hnode (fun i => hP.constCase
          (eqPartialR _ index (hP.index hr))) _ _ _ _ (hP.const _)
    · exact hnode
  · exact hnode
termination_by sizeOf r

lemma Hereditary.eq (hl : P l) (hr : P r) : P (EqExpr.create o l r) :=
  hP.bcreateR (fun cl => hP.eqPartialR cl r hr) (fun cr => hP.eqPartialR cr l hl)
    fun _ => hP.eqNode hl hr

lemma Hereditary.createIsZero (h : P e) : P (e.createIsZero o) :=
  hP.eq h (hP.const _)

end Macros

lemma AndExpr.create_canon (hl : l.Canon) (hr : r.Canon) :
    (AndExpr.create l r).Canon := hereditary_canon.and hl hr

lemma OrExpr.create_canon (hl : l.Canon) (hr : r.Canon) :
    (OrExpr.create l r).Canon := hereditary_canon.or hl hr

lemma EqExpr.create_canon (hl : l.Canon) (hr : r.Canon) :
    (EqExpr.create o l r).Canon := hereditary_canon.eq hl hr

lemma Expr.createIsZero_canon (h : e.Canon) : (e.createIsZero o).Canon :=
  hereditary_canon.createIsZero h

/-! ### Arithmetic and comparisons -/

section Arith

variable {l r : Expr}

lemma XorExpr.createPartialR_canon (hr : r.Canon) (hrc : r.isConst = false) :
    (XorExpr.createPartialR o cl r).Canon := by
  unfold XorExpr.createPartialR
  split_ifs
  · exact hr
  · exact hereditary_canon.eqPartialR _ r hr hrc
  · exact Expr.Canon.bin trivial hr (Or.inr hrc)

lemma XorExpr.create_canon (hl : l.Canon) (hr : r.Canon) : (XorExpr.create o l r).Canon :=
  hereditary_canon.bcreateR (fun _ => XorExpr.createPartialR_canon hr)
    (fun _ => XorExpr.createPartialR_canon hl) fun hlc _ => hl.bin hr (Or.inl hlc)

mutual

theorem AddExpr.createPartialR_canon (cl : APInt) (r : Expr) (hr : r.Canon)
    (hrc : r.isConst = false) : (AddExpr.createPartialR o cl r).Canon := by
  unfold AddExpr.createPartialR
  by_cases h1 : cl.width = 1
  · rw [if_pos h1]
    exact XorExpr.createPartialR_canon hr hrc
  rw [if_neg h1]
  by_cases h0 : cl.isZero = true
  · rw [if_pos h0]
    exact hr
  rw [if_neg h0]
  split
  · next k c => exact hereditary_canon.constCase (AddExpr.createPartialR_canon _ c hr.2.1)
  · next k c => exact hereditary_canon.constCase (SubExpr.createPartialR_canon _ c hr.2.1)
  · exact Expr.Canon.bin trivial hr (Or.inr hrc)
termination_by sizeOf r

theorem SubExpr.createPartialR_canon (cl : APInt) (r : Expr) (hr : r.Canon)
    (hrc : r.isConst = false) : (SubExpr.createPartialR o cl r).Canon := by
  unfold SubExpr.createPartialR
  by_cases h1 : cl.width = 1
  · rw [if_pos h1]
    exact XorExpr.createPartialR_canon hr hrc
  rw [if_neg h1]
  split
  · next k c => exact hereditary_canon.constCase (SubExpr.createPartialR_canon _ c hr.2.1)
  · next k c => exact hereditary_canon.constCase (AddExpr.createPartialR_canon _ c hr.2.1)
  · exact Expr.Canon.bin trivial hr (Or.inr hrc)
termination_by sizeOf r

end

mutual

/-- A sum with a constant is no constant, except for Booleans. -/
theorem AddExpr.createPartialR_isConst (cl : APInt) (r : Expr) (h1 : cl.width ≠ 1) (hr : r.Canon)
    (hrc : r.isConst = false) : (AddExpr.createPartialR o cl r).isConst = false := by
  unfold AddExpr.createPartialR
  rw [if_neg h1]
  by_cases h0 : cl.isZero = true
  · rw [if_pos h0]
    exact hrc
  rw [if_neg h0]
  split
  · next k c =>
    rw [Expr.constant?_eq_none.mpr hr.not_isConst]
    exact AddExpr.createPartialR_isConst _ c (by rwa [BinKind.fold_width]) hr.2.1 hr.not_isConst
  · next k c =>
    rw [Expr.constant?_eq_none.mpr hr.not_isConst]
    exact SubExpr.createPartialR_isConst _ c (by rwa [BinKind.fold_width]) hr.2.1 hr.not_isConst
  · rfl
termination_by sizeOf r

theorem SubExpr.createPartialR_isConst (cl : APInt) (r : Expr) (h1 : cl.width ≠ 1) (hr : r.Canon)
    (hrc : r.isConst = false) : (SubExpr.createPartialR o cl r).isConst = false := by
  unfold SubExpr.createPartialR
  rw [if_neg h1]
  split
  · next k c =>
    rw [Expr.constant?_eq_none.mpr hr.not_isConst]
    exact SubExpr.createPartialR_isConst _ c (by rwa [BinKind.fold_width]) hr.2.1 hr.not_isConst
  · next k c =>
    rw [Expr.constant?_eq_none.mpr hr.not_isConst]
    exact AddExpr.createPartialR_isConst _ c (by rwa [BinKind.fold_width]) hr.2.1 hr.not_isConst
  · rfl
termination_by sizeOf r

end

/-- `AddExpr::create` of a symbolic operand and a constant. -/
lemma AddExpr.create_const_isConst {k : APInt} (hk : k.width ≠ 1) (he : e.Canon)
    (hec : e.isConst = false) : (AddExpr.create o e (.const k)).isConst = false := by
  unfold AddExpr.create
  rw [Expr.constant?_eq_none.mpr hec, Expr.constant?_const]
  exact AddExpr.createPartialR_isConst k e hk he hec

lemma AddExpr.createConst_canon {k : APInt} (he : e.Canon) : (AddExpr.createConst o k e).Canon :=
  hereditary_canon.constCase (AddExpr.createPartialR_canon k e he)

lemma SubExpr.createConst_canon {k : APInt} (he : e.Canon) : (SubExpr.createConst o k e).Canon :=
  hereditary_canon.constCase (SubExpr.createPartialR_canon k e he)

lemma SubExpr.createConstR_canon {k : APInt} (he : e.Canon) :
    (SubExpr.createConstR o e k).Canon := by
  unfold SubExpr.createConstR
  split
  · trivial
  · next h => exact AddExpr.createPartialR_canon _ e he (Expr.constant?_eq_none.mp h)

mutual

theorem AddExpr.create_canon (l r : Expr) (hl : l.Canon) (hr : r.Canon) :
    (AddExpr.create o l r).Canon := by
  unfold AddExpr.create
  split
  · trivial
  · next cl _ h => exact AddExpr.createPartialR_canon cl r hr (Expr.constant?_eq_none.mp h)
  · next cr h _ => exact AddExpr.createPartialR_canon cr l hl (Expr.constant?_eq_none.mp h)
  · next hlc _ =>
    have hnode : ∀ k, (Expr.bin k l r).Canon := fun k =>
      hl.bin hr (Or.inl (Expr.constant?_eq_none.mp hlc))
    by_cases h1 : l.width = 1
    · rw [if_pos h1]
      exact hnode _
    rw [if_neg h1]
    clear h1
    split
    · next k a => exact AddExpr.createConst_canon (AddExpr.create_canon a r hl.2.1 hr)
    · next k a => exact AddExpr.createConst_canon (SubExpr.create_canon r a hr hl.2.1)
    · next k b _ _ _ => exact AddExpr.createConst_canon (AddExpr.create_canon l b hl hr.2.1)
    · next k b _ _ _ => exact AddExpr.createConst_canon (SubExpr.create_canon l b hl hr.2.1)
    · exact hnode _
termination_by sizeOf l + sizeOf r

theorem SubExpr.create_canon (l r : Expr) (hl : l.Canon) (hr : r.Canon) :
    (SubExpr.create o l r).Canon := by
  unfold SubExpr.create
  split
  · trivial
  · next cl _ h => exact SubExpr.createPartialR_canon cl r hr (Expr.constant?_eq_none.mp h)
  · next cr h _ => exact AddExpr.createPartialR_canon _ l hl (Expr.constant?_eq_none.mp h)
  · next hlc _ =>
    have hnode : ∀ k, (Expr.bin k l r).Canon := fun k =>
      hl.bin hr (Or.inl (Expr.constant?_eq_none.mp hlc))
    by_cases h1 : l.width = 1
    · rw [if_pos h1]
      exact hnode _
    rw [if_neg h1]
    clear h1
    by_cases hlr : l = r
    · rw [if_pos hlr]
      trivial
    rw [if_neg hlr]
    clear hlr
    split
    · next k a => exact AddExpr.createConst_canon (SubExpr.create_canon a r hl.2.1 hr)
    · next k a => exact SubExpr.createConst_canon (AddExpr.create_canon a r hl.2.1 hr)
    · next k b _ _ _ => exact SubExpr.createConstR_canon (SubExpr.create_canon l b hl hr.2.1)
    · next k b _ _ _ => exact SubExpr.createConstR_canon (AddExpr.create_canon l b hl hr.2.1)
    · exact hnode _
termination_by sizeOf l + sizeOf r

end

lemma MulExpr.createPartialR_canon (hr : r.Canon) (hrc : r.isConst = false) :
    (MulExpr.createPartialR cl r).Canon := by
  unfold MulExpr.createPartialR
  split_ifs
  · exact hereditary_canon.andPartial hr hrc
  · exact hr
  · trivial
  · exact Expr.Canon.bin trivial hr (Or.inr hrc)

lemma MulExpr.create_canon (hl : l.Canon) (hr : r.Canon) : (MulExpr.create l r).Canon := by
  refine hereditary_canon.bcreateR (fun _ => MulExpr.createPartialR_canon hr)
    (fun _ => MulExpr.createPartialR_canon hl) fun hlc _ => ?_
  unfold MulExpr.createNode
  split_ifs <;> exact hl.bin hr (Or.inl hlc)

lemma bcreate_canon {cn : Expr → Expr → Expr} {l r : Expr}
    (hN : l.isConst = false ∨ r.isConst = false → (cn l r).Canon) :
    (bcreate k cn l r).Canon := by
  unfold bcreate
  split
  · trivial
  · next hno =>
    apply hN
    by_contra hboth
    rw [not_or, Bool.not_eq_false, Bool.not_eq_false] at hboth
    obtain ⟨⟨cl, rfl⟩, cr, rfl⟩ := hboth.imp Expr.isConst_iff.mp Expr.isConst_iff.mp
    exact hno cl cr rfl rfl

/-- The macro `BCREATE` for a constructor that treats Booleans apart. -/
lemma bcreateBool_canon (f : Expr → Expr → Expr) (hl : l.Canon) (hr : r.Canon)
    (hf : (f l r).Canon) :
    (bcreate k (fun l r => if l.width = 1 then f l r else .bin k l r) l r).Canon := by
  refine bcreate_canon fun h => ?_
  split_ifs
  · exact hf
  · exact hl.bin hr h

theorem BinKind.create_canon (k : BinKind) (hl : l.Canon) (hr : r.Canon) :
    (k.create o l r).Canon := by
  have hzl : (l.createIsZero o).Canon := Expr.createIsZero_canon hl
  have hzr : (r.createIsZero o).Canon := Expr.createIsZero_canon hr
  cases k with
  | add => exact AddExpr.create_canon l r hl hr
  | sub => exact SubExpr.create_canon l r hl hr
  | mul => exact MulExpr.create_canon hl hr
  | uDiv =>
    exact bcreateBool_canon (fun l _ => l) hl hr hl
  | sDiv =>
    exact bcreateBool_canon (fun l _ => l) hl hr hl
  | uRem =>
    exact bcreateBool_canon (fun _ _ => .const (.bool false)) hl hr trivial
  | sRem =>
    exact bcreateBool_canon (fun _ _ => .const (.bool false)) hl hr trivial
  | and => exact AndExpr.create_canon hl hr
  | or => exact OrExpr.create_canon hl hr
  | xor => exact XorExpr.create_canon hl hr
  | shl =>
    exact bcreateBool_canon (fun l r => AndExpr.create l (r.createIsZero o)) hl hr
      (AndExpr.create_canon hl hzr)
  | lShr =>
    exact bcreateBool_canon (fun l r => AndExpr.create l (r.createIsZero o)) hl hr
      (AndExpr.create_canon hl hzr)
  | aShr =>
    exact bcreateBool_canon (fun l _ => l) hl hr hl
  | eq => exact EqExpr.create_canon hl hr
  | ne => exact EqExpr.create_canon trivial (EqExpr.create_canon hl hr)
  | ult =>
    exact bcreateBool_canon (fun l r => AndExpr.create (l.createIsZero o) r) hl hr
      (AndExpr.create_canon hzl hr)
  | ule =>
    exact bcreateBool_canon (fun l r => OrExpr.create (l.createIsZero o) r) hl hr
      (OrExpr.create_canon hzl hr)
  | slt =>
    exact bcreateBool_canon (fun l r => AndExpr.create l (r.createIsZero o)) hl hr
      (AndExpr.create_canon hl hzr)
  | sle =>
    exact bcreateBool_canon (fun l r => OrExpr.create l (r.createIsZero o)) hl hr
      (OrExpr.create_canon hl hzr)
  | ugt =>
    exact bcreateBool_canon (fun l r => AndExpr.create (l.createIsZero o) r) hr hl
      (AndExpr.create_canon hzr hl)
  | uge =>
    exact bcreateBool_canon (fun l r => OrExpr.create (l.createIsZero o) r) hr hl
      (OrExpr.create_canon hzr hl)
  | sgt =>
    exact bcreateBool_canon (fun l r => AndExpr.create l (r.createIsZero o)) hr hl
      (AndExpr.create_canon hr hzl)
  | sge =>
    exact bcreateBool_canon (fun l r => OrExpr.create l (r.createIsZero o)) hr hl
      (OrExpr.create_canon hr hzl)

end Arith

/-! ### The remaining kinds -/

mutual

theorem ExtractExpr.createAux_canon (e : Expr) (off w : ℕ) (h : e.Canon) :
    (ExtractExpr.createAux e off w).1.Canon := by
  unfold ExtractExpr.createAux
  by_cases hw : w = e.width
  · rw [if_pos hw]
    exact h
  rw [if_neg hw]
  split
  · trivial
  · next l r =>
    by_cases hhigh : r.width ≤ off
    · rw [if_pos hhigh]
      exact ExtractExpr.createAux_canon l _ w h.1
    rw [if_neg hhigh]
    by_cases hlow : off + w ≤ r.width
    · rw [if_pos hlow]
      exact ExtractExpr.createAux_canon r off w h.2.1
    rw [if_neg hlow]
    have hx := ExtractExpr.createAux_canon l 0 (w + off - r.width) h.1
    have hy := ExtractExpr.createAux_canon r off (r.width - off) h.2.1
    split
    next x hxl y hyr ex ey =>
    rw [ex] at hx
    rw [ey] at hy
    exact ConcatExpr.createAux_canon x y hx hy
  · next hnc _ =>
    refine ⟨h, Bool.eq_false_iff.mpr fun hc => ?_⟩
    obtain ⟨c, rfl⟩ := Expr.isConst_iff.mp hc
    exact hnc c rfl
termination_by 2 * e.concats
decreasing_by all_goals (simp_all only [Expr.concats]; omega)

theorem ConcatExpr.createAux_canon (l r : Expr) (hl : l.Canon) (hr : r.Canon) :
    (ConcatExpr.createAux l r).1.Canon := by
  unfold ConcatExpr.createAux
  split
  · trivial
  · next el ol wl er or wr =>
    split_ifs with heq
    · exact ExtractExpr.createAux_canon el or (wl + wr) hl.1
    · exact ⟨hl, hr, rfl⟩
  · next hcc _ =>
    refine ⟨hl, hr, ?_⟩
    rw [Bool.and_eq_false_iff]
    by_contra hboth
    rw [not_or, Bool.not_eq_false, Bool.not_eq_false] at hboth
    obtain ⟨⟨a, rfl⟩, b, rfl⟩ := hboth.imp Expr.isConst_iff.mp Expr.isConst_iff.mp
    exact hcc a b rfl rfl
termination_by 2 * (l.concats + r.concats) + 1
decreasing_by all_goals (simp_all only [Expr.concats]; omega)

end

lemma ZExtExpr.create_canon (h : e.Canon) (w : ℕ) : (ZExtExpr.create e w).Canon := by
  unfold ZExtExpr.create
  split_ifs
  · exact h
  · exact ExtractExpr.createAux_canon e 0 w h
  · exact hereditary_canon.constCase fun hc => ⟨h, hc⟩

lemma SExtExpr.create_canon (h : e.Canon) (w : ℕ) : (SExtExpr.create e w).Canon := by
  unfold SExtExpr.create
  split_ifs
  · exact h
  · exact ExtractExpr.createAux_canon e 0 w h
  · exact hereditary_canon.constCase fun hc => ⟨h, hc⟩

lemma NotExpr.create_canon (h : e.Canon) : (NotExpr.create e).Canon :=
  hereditary_canon.constCase fun hc => ⟨h, hc⟩

lemma SelectExpr.create_canon {c t f : Expr} (hc : c.Canon) (ht : t.Canon) (hf : f.Canon) :
    (SelectExpr.create o c t f).Canon := by
  have hz : (c.createIsZero o).Canon := Expr.createIsZero_canon hc
  unfold SelectExpr.create
  split
  · split_ifs
    · exact ht
    · exact hf
  · next hcc =>
    have hnode : (Expr.select c t f).Canon := ⟨hc, ht, hf, Expr.constant?_eq_none.mp hcc⟩
    by_cases htf : t = f
    · rw [if_pos htf]
      exact ht
    rw [if_neg htf]
    by_cases hw : t.width = 1
    · rw [if_pos hw]
      split
      · split_ifs
        · exact OrExpr.create_canon hc hf
        · exact AndExpr.create_canon hz hf
      · split_ifs
        · exact OrExpr.create_canon hz ht
        · exact AndExpr.create_canon hc ht
      · exact hnode
    · rw [if_neg hw]
      exact hnode

lemma ReadExpr.rollback_canon {index value : Expr} :
    ∀ {head : UpdateNode}, head.Canon → rollback o index head = some value → value.Canon
  | .null, _, h => by simp [rollback] at h
  | .node next i v, hc, h => by
    rw [rollback] at h
    split at h
    · split_ifs at h
      · obtain rfl : v = value := by simpa using h
        exact hc.2.2
      · exact rollback_canon hc.1 h
    · simp at h

lemma ReadExpr.create_canon {root : KArray} {head : UpdateNode} {index : Expr}
    (hh : head.Canon) (hi : index.Canon) : (ReadExpr.create o root head index).Canon := by
  unfold ReadExpr.create
  cases hroll : ReadExpr.rollback o index head with
  | none => exact ⟨hh, hi⟩
  | some value => exact ReadExpr.rollback_canon hh hroll

end Castan
