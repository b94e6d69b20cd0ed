/-
# The simplifying constructors keep the meaning: And, Or, Eq

Every `create` function returns a replacement, in the sense of `Refines`, of the plain node
over its operands.  This file treats the conjunction, the disjunction and the equality, which
the other constructors use.
-/
import Castan.Expr.Refines

namespace Castan

open BinKind Castan.Expr Refines RefinesOn

variable [Overshift] {o : Opts} {k : BinKind} {l r b e index : Expr} {w : ℕ} {cl cr a c : APInt}

/-! ### Operands -/

lemma Expr.Typed.operands (h : (bin k l r).Typed) (ρ : Valuation) :
    ∃ x y : BitVec l.width, l.eval ρ = ⟨l.width, x⟩ ∧ r.eval ρ = ⟨l.width, y⟩ := by
  obtain ⟨x, hx⟩ := exists_eval_eq h.1 rfl ρ
  obtain ⟨y, hy⟩ := exists_eval_eq h.2.1 h.2.2.symm ρ
  exact ⟨x, y, hx, hy⟩

/-- The operands of a Boolean operation are Boolean constants. -/
lemma Expr.Typed.boolOperands (h : (bin k l r).Typed) (hw : l.width = 1) (ρ : Valuation) :
    ∃ a b : Bool, l.eval ρ = .bool a ∧ r.eval ρ = .bool b := by
  obtain ⟨a, ha⟩ := eval_bool ρ h.1 hw
  obtain ⟨b, hb⟩ := eval_bool ρ h.2.1 (h.2.2 ▸ hw)
  exact ⟨a, b, ha, hb⟩

/-- The binary operations on Boolean constants, by evaluation. -/
def BinKind.boolOp : BinKind → Bool → Bool → Bool
  | add, a, b => a ^^ b
  | sub, a, b => a ^^ b
  | mul, a, b => a && b
  | uDiv, a, _ => a
  | sDiv, a, _ => a
  | uRem, _, _ => false
  | sRem, _, _ => false
  | and, a, b => a && b
  | or, a, b => a || b
  | xor, a, b => a ^^ b
  | shl, a, b => a && !b
  | lShr, a, b => a && !b
  | aShr, a, b => if b then (Overshift.ashr (BitVec.ofBool a)).msb else a
  | eq, a, b => a == b
  | ne, a, b => a != b
  | ult, a, b => !a && b
  | ule, a, b => !a || b
  | ugt, a, b => a && !b
  | uge, a, b => a || !b
  | slt, a, b => a && !b
  | sle, a, b => a || !b
  | sgt, a, b => !a && b
  | sge, a, b => !a || b

@[simp] lemma BinKind.fold_bool (k : BinKind) (a b : Bool) :
    k.fold (.bool a) (.bool b) = .bool (k.boolOp a b) := by
  cases k with
  | aShr =>
    have hbit : ∀ x : BitVec 1, x = BitVec.ofBool x.msb := by decide
    cases b with
    | false => cases a <;> rfl
    | true => exact congrArg (APInt.mk 1) (hbit _)
  | _ => cases a <;> cases b <;> rfl

namespace APInt

omit [Overshift] in
lemma isAllOnes_iff {x : BitVec w} : isAllOnes ⟨w, x⟩ = true ↔ x = BitVec.allOnes w := by
  simp [isAllOnes]

omit [Overshift] in
lemma isZero_iff {x : BitVec w} : isZero ⟨w, x⟩ = true ↔ x = 0#w := by
  simp [isZero]

omit [Overshift] in
lemma isOne_iff {x : BitVec w} (hw : 0 < w) : isOne ⟨w, x⟩ = true ↔ x = 1#w := by
  have h1 : 1 % 2 ^ w = 1 := Nat.mod_eq_of_lt (Nat.one_lt_two_pow hw.ne')
  simp [isOne, toNat, BitVec.toNat_eq, h1]

end APInt

/-! ### Folding -/

lemma Refines.fold (h : (bin k (.const cl) (.const cr)).Typed) :
    Refines o (.const (k.fold cl cr)) (.bin k (.const cl) (.const cr)) := by
  have hpos : 0 < cl.width := h.1
  refine const ?_ ?_ fun _ _ => rfl
  · rw [fold_width]
    split_ifs <;> omega
  · rw [fold_width]
    rfl

/-- A commutative operation with its operands exchanged. -/
lemma Refines.comm (hk : ∀ (w : ℕ) (x y : BitVec w), k.op y x = k.op x y)
    (h : (bin k l r).Typed) : Refines o (.bin k r l) (.bin k l r) := by
  refine of_eval ⟨h.2.1, h.1, h.2.2.symm⟩ ?_ ?_ (fun ρ hρ => ⟨hρ.2, hρ.1⟩) ?_
  · simp only [width, h.2.2]
  · intro ρ
    obtain ⟨x, y, hx, hy⟩ := h.operands ρ
    simp only [eval, hx, hy, fold_mk, hk]
  · simp only [weight]
    omega

/-- The macro `BCREATE_R`, given its three special functions. -/
lemma Refines.bcreateR {pl : Expr → APInt → Expr} {pr : APInt → Expr → Expr}
    {cn : Expr → Expr → Expr} (h : (bin k l r).Typed)
    (hR : ∀ cl, l = .const cl → Refines o (pr cl r) (.bin k l r))
    (hL : ∀ cr, r = .const cr → Refines o (pl l cr) (.bin k l r))
    (hN : Refines o (cn l r) (.bin k l r)) :
    Refines o (Castan.bcreateR k pl pr cn l r) (.bin k l r) := by
  unfold Castan.bcreateR
  split
  · next cl cr hl hr =>
    rw [constant?_eq_some] at hl hr
    subst hl; subst hr
    exact fold h
  · next cl hl hr => exact hR cl (constant?_eq_some.mp hl)
  · next cr hl hr => exact hL cr (constant?_eq_some.mp hr)
  · exact hN

/-- The macro `BCREATE`, given its special function. -/
lemma Refines.bcreate {cn : Expr → Expr → Expr}
    (h : (bin k l r).Typed) (hN : Refines o (cn l r) (.bin k l r)) :
    Refines o (Castan.bcreate k cn l r) (.bin k l r) := by
  unfold Castan.bcreate
  split
  · next cl cr hl hr =>
    rw [constant?_eq_some] at hl hr
    subst hl; subst hr
    exact fold h
  · exact hN

lemma Expr.Typed.rightOperand {c : BitVec w} (h : (bin k (.const ⟨w, c⟩) r).Typed)
    (ρ : Valuation) : ∃ y : BitVec w, r.eval ρ = ⟨w, y⟩ :=
  exists_eval_eq h.2.1 h.2.2.symm ρ

/-- A constant that is neutral on the left. -/
lemma Refines.unitLeft (h : (bin k (.const cl) r).Typed) (hk : k.isCmp = false)
    (hunit : ∀ y, k.op cl.bits y = ⟨cl.width, y⟩) : Refines o r (.bin k (.const cl) r) := by
  refine of_eval h.2.1 ?_ (fun ρ => ?_) (fun ρ hρ => hρ.2) ?_
  · simpa [width, hk] using h.2.2.symm
  · obtain ⟨w, c⟩ := cl
    obtain ⟨y, hy⟩ := h.rightOperand ρ
    rw [eval, eval, hy, fold_mk, hunit]
  · simp only [weight]
    omega

/-- A constant that absorbs what stands right of it. -/
lemma Refines.zeroLeft (h : (bin k (.const cl) r).Typed) (hk : k.isCmp = false)
    (hzero : ∀ y, k.op cl.bits y = ⟨cl.width, cl.bits⟩) :
    Refines o (.const cl) (.bin k (.const cl) r) := by
  refine const h.1 (by simp [width, hk]) fun ρ _ => ?_
  obtain ⟨w, c⟩ := cl
  obtain ⟨y, hy⟩ := h.rightOperand ρ
  rw [eval, eval, hy, fold_mk, hzero]

/-- The macro `BCREATE_R` for a commutative operation, given its function for a constant. -/
lemma Refines.bcreateComm {p : APInt → Expr → Expr} {cn : Expr → Expr → Expr}
    (hk : ∀ (w : ℕ) (x y : BitVec w), k.op y x = k.op x y) (h : (bin k l r).Typed)
    (hp : ∀ {c e}, (bin k (.const c) e).Typed → Refines o (p c e) (.bin k (.const c) e))
    (hN : Refines o (cn l r) (.bin k l r)) :
    Refines o (Castan.bcreateR k (fun l cr => p cr l) p cn l r) (.bin k l r) := by
  refine Refines.bcreateR h ?_ ?_ hN
  · rintro cl rfl
    exact hp h
  · rintro cr rfl
    exact (hp ⟨h.2.1, h.1, h.2.2.symm⟩).trans (comm hk h)

/-! ### And, Or -/

namespace AndExpr

lemma createPartialR_refines (h : (bin .and (.const cl) r).Typed) :
    Refines o (createPartialR cl r) (.bin .and (.const cl) r) := by
  unfold createPartialR createPartial
  split_ifs with h1 h0
  · exact unitLeft h rfl fun y => by simp [op, APInt.isAllOnes_iff.mp h1]
  · exact zeroLeft h rfl fun y => by simp [op, APInt.isZero_iff.mp h0]
  · exact comm (fun w x y => by simp only [op, BitVec.and_comm]) h

lemma create_refines (h : (bin .and l r).Typed) : Refines o (create l r) (.bin .and l r) :=
  bcreateComm (fun w x y => by simp only [op, BitVec.and_comm]) h
    createPartialR_refines (refl h)

end AndExpr

namespace OrExpr

lemma createPartialR_refines (h : (bin .or (.const cl) r).Typed) :
    Refines o (createPartialR cl r) (.bin .or (.const cl) r) := by
  unfold createPartialR createPartial
  split_ifs with h1 h0
  · exact zeroLeft h rfl fun y => by simp [op, APInt.isAllOnes_iff.mp h1]
  · exact unitLeft h rfl fun y => by simp [op, APInt.isZero_iff.mp h0]
  · exact comm (fun w x y => by simp only [op, BitVec.or_comm]) h

lemma create_refines (h : (bin .or l r).Typed) : Refines o (create l r) (.bin .or l r) :=
  bcreateComm (fun w x y => by simp only [op, BitVec.or_comm]) h
    createPartialR_refines (refl h)

end OrExpr

/-! ### Eq -/

lemma BinKind.eq_fold_mk (x y : BitVec w) :
    eq.fold ⟨w, x⟩ ⟨w, y⟩ = .bool (decide (x = y)) := by
  simp only [fold_mk, op]
  congr 1

/-- The equality of two values of one width. -/
lemma BinKind.eq_fold {b : APInt} (h : a.width = b.width) :
    eq.fold a b = .bool (decide (a = b)) := by
  obtain ⟨w, x⟩ := a
  obtain ⟨w', y⟩ := b
  simp only at h
  subst h
  rw [eq_fold_mk]
  simp

lemma Expr.eval_eq_bin (ρ : Valuation) (h : (bin .eq l r).Typed) :
    (bin .eq l r).eval ρ = .bool (decide (l.eval ρ = r.eval ρ)) :=
  eq_fold (by rw [eval_width ρ h.1, eval_width ρ h.2.1, h.2.2])

namespace EqExpr

lemma createNode_refines (h : (bin .eq l r).Typed) :
    Refines o (createNode l r) (.bin .eq l r) := by
  unfold createNode
  split_ifs with hlr
  · subst hlr
    refine const Nat.one_pos rfl fun ρ _ => ?_
    rw [eval_eq_bin ρ h]
    simp
  · exact refl h

/-- Two equalities with a constant that hold under the same valuations. -/
lemma refines_of_iff {d : APInt} {a : Expr} (hb : (bin .eq (.const d) b).Typed)
    (ha : (bin .eq (.const c) a).Typed)
    (hiff : ∀ ρ, d = b.eval ρ ↔ c = a.eval ρ)
    (hr : ∀ ρ, a.InRange ρ → b.InRange ρ) (hle : b.weight ≤ a.weight) :
    Refines o (.bin .eq (.const d) b) (.bin .eq (.const c) a) := by
  refine of_eval hb rfl (fun ρ => ?_) (fun ρ hρ => ⟨trivial, hr ρ hρ.2⟩) ?_
  · rw [eval_eq_bin ρ hb, eval_eq_bin ρ ha]
    exact APInt.bool_decide_congr (hiff ρ)
  · simp only [weight]
    omega

/-- The call `EqExpr::create(e, c)` with a constant `c`. -/
lemma constCase (h : (bin .eq (.const c) e).Typed)
    (ih : Refines o (createPartialR o c e) (.bin .eq (.const c) e)) :
    Refines o (match e.constant? with
      | some v => .const (eq.fold v c)
      | none => createPartialR o c e) (.bin .eq (.const c) e) := by
  split
  · next v hv =>
    obtain rfl := constant?_eq_some.mp hv
    have hcomm : (bin .eq (.const v) (.const c)).Typed := ⟨h.2.1, h.1, h.2.2.symm⟩
    refine (fold hcomm).trans (comm (fun w x y => ?_) h)
    simp only [op, Bool.beq_comm]
  · exact ih

end EqExpr

/-! #### The disjunction over a constant array -/

/-- The disjunction `res` says that the index is one of the positions below `i` that hold `cl`;
`n` of them have been found. -/
structure DisjUpTo (o : Opts) (cl : APInt) (values : List APInt) (index : Expr) (i n : ℕ)
    (res : Expr) : Prop where
  typed : res.Typed
  width_eq : res.width = 1
  inRange : ∀ ρ, index.InRange ρ → res.InRange ρ
  weight_le : res.weight ≤ n * index.weight
  eval_eq : ∀ ρ, (o.constArrayOpt = true → index.InRange ρ) → res.eval ρ =
    .bool (decide (∃ j < i, values[j]? = some cl ∧ index.eval ρ = .ofNat index.width j))

lemma DisjUpTo.skip {v : APInt} {values : List APInt} {res : Expr} {i n : ℕ}
    (h : DisjUpTo o cl values index i n res) (hv : values[i]? = some v) (hne : cl ≠ v) :
    DisjUpTo o cl values index (i + 1) n res where
  typed := h.typed
  width_eq := h.width_eq
  inRange := h.inRange
  weight_le := h.weight_le
  eval_eq ρ hρ := by
    rw [h.eval_eq ρ hρ]
    refine APInt.bool_decide_congr
      ⟨fun ⟨j, hj, hval⟩ => ⟨j, by omega, hval⟩, fun ⟨j, hj, hval⟩ => ?_⟩
    refine ⟨j, lt_of_le_of_ne (Nat.lt_succ_iff.mp hj) ?_, hval⟩
    rintro rfl
    rw [hv, Option.some.injEq] at hval
    exact hne hval.1.symm

lemma DisjUpTo.take {values : List APInt} {res m : Expr} {i n : ℕ}
    (h : DisjUpTo o cl values index i n res) (hv : values[i]? = some cl)
    (hi : (bin .eq (.const (.ofNat index.width i)) index).Typed)
    (hm : Refines o m (.bin .eq (.const (.ofNat index.width i)) index)) :
    DisjUpTo o cl values index (i + 1) (n + 1) (OrExpr.create res m) := by
  have hmw : m.width = 1 := hm.width_eq
  have hor : (bin .or res m).Typed := ⟨h.typed, hm.typed, by rw [h.width_eq, hmw]⟩
  have href : Refines o (OrExpr.create res m) (.bin .or res m) := OrExpr.create_refines hor
  have hmr : ∀ ρ, index.InRange ρ → m.InRange ρ := fun ρ hρ => hm.inRange ρ ⟨trivial, hρ⟩
  refine ⟨href.typed, ?_, ?_, ?_, ?_⟩
  · rw [href.width_eq]
    exact h.width_eq
  · intro ρ hρ
    exact href.inRange ρ ⟨h.inRange ρ hρ, hmr ρ hρ⟩
  · have h1 := href.weight_le
    have h2 := hm.weight_le
    have h3 := h.weight_le
    simp only [weight] at h1 h2
    rw [Nat.add_mul]
    omega
  · intro ρ hρ
    rw [href.eval_eq ρ fun ho => ⟨h.inRange ρ (hρ ho), hmr ρ (hρ ho)⟩]
    simp only [eval]
    rw [h.eval_eq ρ hρ, hm.eval_eq ρ fun ho => ⟨trivial, hρ ho⟩, eval_eq_bin ρ hi,
      fold_bool]
    simp only [boolOp]
    rw [← Bool.decide_or]
    refine APInt.bool_decide_congr ⟨?_, ?_⟩
    · rintro (⟨j, hj, hval⟩ | heq)
      · exact ⟨j, by omega, hval⟩
      · exact ⟨i, by omega, hv, heq.symm⟩
    · rintro ⟨j, hj, hval⟩
      rcases Nat.lt_succ_iff_lt_or_eq.mp hj with hj | rfl
      · exact Or.inl ⟨j, hj, hval⟩
      · exact Or.inr hval.2.symm

/-- The loop ends with the disjunction over the whole array, unless it gives up. -/
lemma tryConstArrayOptLoop_spec (dflt : Expr) {mayBe : ℕ → Expr} {values : List APInt}
    (hi : ∀ i, (bin .eq (.const (.ofNat index.width i)) index).Typed)
    (hm : ∀ i, Refines o (mayBe i) (.bin .eq (.const (.ofNat index.width i)) index)) :
    ∀ (vs : List APInt) (i n : ℕ) (res : Expr), values.drop i = vs → n ≤ 100 →
      DisjUpTo o cl values index i n res →
      tryConstArrayOptLoop cl dflt mayBe vs i n res = dflt ∨
        ∃ n' ≤ 100, DisjUpTo o cl values index values.length n'
          (tryConstArrayOptLoop cl dflt mayBe vs i n res) := by
  intro vs
  induction vs with
  | nil =>
    intro i n res hdrop hn h
    have hlen : values.length ≤ i := List.drop_eq_nil_iff.mp hdrop
    refine Or.inr ⟨n, hn, h.typed, h.width_eq, h.inRange, h.weight_le, fun ρ hρ => ?_⟩
    rw [show tryConstArrayOptLoop cl dflt mayBe [] i n res = res from rfl, h.eval_eq ρ hρ]
    refine APInt.bool_decide_congr
      ⟨fun ⟨j, hj, hval⟩ => ⟨j, ?_, hval⟩, fun ⟨j, hj, hval⟩ => ⟨j, by omega, hval⟩⟩
    exact (List.getElem?_eq_some_iff.mp hval.1).1
  | cons v vs ih =>
    intro i n res hdrop hn h
    have hv : values[i]? = some v := by
      rw [← List.head?_drop, hdrop]
      rfl
    have hdrop' : values.drop (i + 1) = vs := by
      rw [← List.tail_drop, hdrop]
      rfl
    simp only [tryConstArrayOptLoop]
    split_ifs with hcl h100
    · exact Or.inl rfl
    · subst hcl
      exact ih (i + 1) (n + 1) _ hdrop' (by omega) (h.take hv (hi i) (hm i))
    · exact ih (i + 1) n res hdrop' hn (h.skip hv hcl)

omit [Overshift] in
/-- A read of a constant array in its bounds. -/
lemma KArray.initialValue_of_lt {a : KArray} (h : a.WF) (hc : a.isSymbolicArray = false)
    (ρ : Valuation) {i : ℕ} (hi : i < a.size) :
    a.constantValues[i]? = some (a.initialValue ρ i) := by
  have hlen : i < a.constantValues.length := by rw [h.size_eq hc]; exact hi
  simp [initialValue, hlen]

lemma tryConstArrayOpt_refines {root : KArray} {head : UpdateNode}
    {mayBe : ℕ → Expr} (ho : o.constArrayOpt = true)
    (h : (bin .eq (.const cl) (.read root head index)).Typed)
    (hm : ∀ i, Refines o (mayBe i) (.bin .eq (.const (.ofNat index.width i)) index)) :
    Refines o (tryConstArrayOpt cl root head index mayBe)
      (.bin .eq (.const cl) (.read root head index)) := by
  obtain ⟨hcl, ⟨hroot, hidx, hdom, hhead⟩, hw⟩ := h
  have h : (bin .eq (.const cl) (.read root head index)).Typed :=
    ⟨hcl, ⟨hroot, hidx, hdom, hhead⟩, hw⟩
  unfold tryConstArrayOpt
  split_ifs with hsym
  · exact EqExpr.createNode_refines h
  · push Not at hsym
    obtain ⟨hsym, rfl⟩ := hsym
    have hc : root.isSymbolicArray = false := by simpa using hsym
    have hi : ∀ i, (bin .eq (.const (.ofNat index.width i)) index).Typed :=
      fun i => ⟨hidx.width_pos, hidx, rfl⟩
    have h0 : DisjUpTo o cl root.constantValues index 0 0 (.const (.bool false)) := by
      refine ⟨Nat.one_pos, rfl, fun _ _ => trivial, Nat.zero_le _, fun ρ _ => ?_⟩
      simp [eval]
    rcases tryConstArrayOptLoop_spec (EqExpr.createNode (.const cl)
      (.read root .null index)) hi hm root.constantValues 0 0 _ rfl (by omega) h0 with
      hd | ⟨n, hn, hres⟩
    · rw [hd]
      exact EqExpr.createNode_refines h
    · refine ⟨hres.typed, hres.width_eq, ?_, fun ρ _ hρ => hres.inRange ρ hρ.2.1, ?_⟩
      · intro ρ _ hρ
        have hin := (hρ ho).2
        rw [hres.eval_eq ρ fun _ => hin.1, eval_eq_bin ρ h]
        have hk : (index.eval ρ).toNat < root.size := hin.2.2 hc
        have hval := KArray.initialValue_of_lt hroot hc ρ hk
        have hidxw := eval_width ρ hidx
        simp only [eval, UpdateNode.evalAt]
        -- the only position that can be the index is its value
        refine APInt.bool_decide_congr ⟨?_, fun heq => ⟨(index.eval ρ).toNat, ?_, ?_, ?_⟩⟩
        · rintro ⟨j, hj, hvj, hij⟩
          rw [hroot.size_eq hc] at hj
          have hlt : j < 2 ^ index.width := by
            rw [hdom]
            exact lt_of_lt_of_le hj hroot.size_le
          have hjk : (index.eval ρ).toNat = j := by
            rw [hij]
            simp [APInt.toNat, APInt.ofNat, Nat.mod_eq_of_lt hlt]
          rw [hjk, hvj, Option.some.injEq] at hval
          rw [hjk]
          exact hval
        · rw [hroot.size_eq hc]
          exact hk
        · rw [hval, heq]
        · rw [← hidxw]
          exact APInt.eq_ofNat_toNat _
      · have h1 := hres.weight_le
        have h2 : n * index.weight ≤ 100 * index.weight := Nat.mul_le_mul_right _ hn
        simp only [weight]
        omega

/-! #### Equality with a constant -/

namespace APInt

omit [Overshift] in
lemma zExt_sExt (h : a.width ≤ w) : (a.sExt w).zExt a.width = a := by
  obtain ⟨n, x⟩ := a
  simp only [zExt, sExt, APInt.mk.injEq, heq_eq_eq, true_and] at h ⊢
  apply BitVec.eq_of_getLsbD_eq
  intro i hi
  have hiw : i < w := by omega
  simp only [BitVec.getLsbD_setWidth, BitVec.getLsbD_signExtend]
  simp [hi, hiw]

omit [Overshift] in
lemma zExt_zExt (h : a.width ≤ w) : (a.zExt w).zExt a.width = a := by
  obtain ⟨n, x⟩ := a
  simp only [zExt, APInt.mk.injEq, heq_eq_eq, true_and] at h ⊢
  apply BitVec.eq_of_getLsbD_eq
  intro i hi
  have hiw : i < w := by omega
  simp only [BitVec.getLsbD_setWidth]
  simp [hi, hiw]

omit [Overshift] in
/-- A constant is an extension of `a` iff it is the extension of its own truncation and
this truncation is `a`; for both kinds of extension. -/
lemma eq_ext_iff {ext : APInt → ℕ → APInt}
    (hext : ∀ (a : APInt) (w : ℕ), a.width ≤ w → (ext a w).zExt a.width = a)
    (h : a.width ≤ w) :
    c = ext a w ↔ c = ext (c.zExt a.width) w ∧ c.zExt a.width = a := by
  constructor
  · intro hc
    have ha : c.zExt a.width = a := by rw [hc, hext a w h]
    exact ⟨by rw [ha]; exact hc, ha⟩
  · rintro ⟨hc, ha⟩
    rw [ha] at hc
    exact hc

lemma sub_eq_iff {b : APInt} (hab : a.width = b.width) (hbc : b.width = c.width) :
    (sub.fold a b = c ↔ a = add.fold b c) ∧
      (sub.fold a b = c ↔ b = sub.fold a c) := by
  obtain ⟨n, x⟩ := a
  obtain ⟨_, y⟩ := b
  obtain ⟨_, z⟩ := c
  simp only at hab hbc
  subst hab; subst hbc
  simp only [fold_mk, op, APInt.mk.injEq, heq_eq_eq, true_and]
  exact ⟨⟨by rintro rfl; simp, by rintro rfl; simp⟩, ⟨by rintro rfl; simp, by rintro rfl; simp⟩⟩

end APInt

namespace EqExpr

/-- `not(or(a,b))` is `and(not a, not b)`. -/
lemma deMorgan_refines {a a' b' : Expr}
    (h : (bin .eq (.const cl) (.bin .or a b)).Typed) (hcl : cl = .bool false)
    (ha : Refines o a' (.bin .eq (.const (.ofNat a.width 0)) a))
    (hb : Refines o b' (.bin .eq (.const (.ofNat b.width 0)) b)) :
    Refines o (AndExpr.create a' b') (.bin .eq (.const cl) (.bin .or a b)) := by
  obtain ⟨-, ⟨hta, htb, hab⟩, hw⟩ := id h
  subst hcl
  have hwa : a.width = 1 := hw.symm
  have hwb : b.width = 1 := by rw [← hab, hwa]
  have hand : (bin .and a' b').Typed := ⟨ha.typed, hb.typed, by
    rw [ha.width_eq, hb.width_eq]
    rfl⟩
  refine (AndExpr.create_refines hand).trans ((bin .and ha hb rfl).trans ?_)
  refine of_eval ⟨⟨hta.width_pos, hta, rfl⟩, ⟨htb.width_pos, htb, rfl⟩, rfl⟩ rfl ?_
    (fun ρ hρ => ⟨⟨trivial, hρ.2.1⟩, ⟨trivial, hρ.2.2⟩⟩) ?_
  · intro ρ
    obtain ⟨x, y, hx, hy⟩ := Expr.Typed.boolOperands (k := .or) ⟨hta, htb, hab⟩ hwa ρ
    simp only [eval, hwa, hwb, hx, hy, show APInt.ofNat 1 0 = .bool false from rfl,
      fold_bool, boolOp]
    cases x <;> cases y <;> rfl
  · simp only [weight]
    omega

/-- An extension equals a constant iff the constant is the extension of its own truncation and the
source equals the truncation; for both kinds of extension. -/
lemma ext_refines {ext : APInt → ℕ → APInt} {src p : Expr}
    (hext : ∀ (a : APInt) (w : ℕ), a.width ≤ w → (ext a w).zExt a.width = a)
    (h : (bin .eq (.const cl) e).Typed) (hsrc : src.Typed) (hle : src.width ≤ cl.width)
    (heval : ∀ ρ, e.eval ρ = ext (src.eval ρ) cl.width) (hr : ∀ ρ, e.InRange ρ → src.InRange ρ)
    (hweight : src.weight ≤ e.weight)
    (hp : (bin .eq (.const (cl.zExt src.width)) src).Typed →
      Refines o p (.bin .eq (.const (cl.zExt src.width)) src)) :
    Refines o (if cl = ext (cl.zExt src.width) cl.width then p else .const (.bool false))
      (.bin .eq (.const cl) e) := by
  have hs : (bin .eq (.const (cl.zExt src.width)) src).Typed := ⟨hsrc.width_pos, hsrc, rfl⟩
  have hiff : ∀ ρ, cl = e.eval ρ ↔
      cl = ext (cl.zExt src.width) cl.width ∧ cl.zExt src.width = src.eval ρ := by
    intro ρ
    have hsw := eval_width ρ hsrc
    rw [heval, ← hsw]
    exact APInt.eq_ext_iff hext (hsw ▸ hle)
  split_ifs with hcl
  · refine (hp hs).trans (refines_of_iff hs h (fun ρ => ?_) hr hweight)
    rw [hiff]
    exact ⟨fun heq => ⟨hcl, heq⟩, And.right⟩
  · refine const Nat.one_pos rfl fun ρ _ => ?_
    rw [eval_eq_bin ρ h, APInt.bool_inj, eq_comm, decide_eq_false_iff_not]
    exact fun heq => hcl ((hiff ρ).mp heq).1

/-- `c0 = c1 + b` iff `c0 - c1 = b`. -/
lemma add_refines {c1 : APInt} (h : (bin .eq (.const cl) (.bin .add (.const c1) b)).Typed) :
    Refines o (.bin .eq (.const (sub.fold cl c1)) b)
      (.bin .eq (.const cl) (.bin .add (.const c1) b)) := by
  obtain ⟨hcl, ⟨hc1, hb, hw1⟩, hw⟩ := id h
  have hw' : cl.width = c1.width := hw
  have hwb : ∀ ρ, c1.width = (b.eval ρ).width := fun ρ => by
    rw [eval_width ρ hb]
    exact hw1
  refine refines_of_iff ⟨hcl, hb, hw'.trans hw1⟩ h (fun ρ => (APInt.sub_eq_iff hw' (hwb ρ)).1)
    (fun ρ hρ => hρ.2) ?_
  simp only [weight]
  omega

/-- `c0 = c1 - b` iff `c1 - c0 = b`. -/
lemma sub_refines {c1 : APInt} (h : (bin .eq (.const cl) (.bin .sub (.const c1) b)).Typed) :
    Refines o (.bin .eq (.const (sub.fold c1 cl)) b)
      (.bin .eq (.const cl) (.bin .sub (.const c1) b)) := by
  obtain ⟨hcl, ⟨hc1, hb, hw1⟩, hw⟩ := id h
  have hw' : cl.width = c1.width := hw
  have hwb : ∀ ρ, cl.width = (b.eval ρ).width := fun ρ => by
    rw [eval_width ρ hb, hw']
    exact hw1
  refine refines_of_iff ⟨hc1, hb, hw1⟩ h (fun ρ => (APInt.sub_eq_iff hw'.symm (hwb ρ)).2)
    (fun ρ hρ => hρ.2) ?_
  simp only [weight]
  omega

/-- Every branch of `EqExpr_createPartialR`, by recursion on the operand. -/
theorem createPartialR_refines (cl : APInt) (r : Expr) (h : (bin .eq (.const cl) r).Typed) :
    Refines o (createPartialR o cl r) (.bin .eq (.const cl) r) := by
  unfold createPartialR
  by_cases hw : cl.width = 1
  · rw [if_pos hw]
    by_cases ht : cl.isTrue = true
    · rw [if_pos ht]
      obtain rfl := APInt.isTrue_iff.mp ht
      refine of_eval h.2.1 h.2.2.symm (fun ρ => ?_) (fun ρ hρ => hρ.2) ?_
      · obtain ⟨b, hb⟩ := eval_bool ρ h.2.1 h.2.2.symm
        cases b <;> simp [eval, hb, boolOp]
      · simp only [weight]
        omega
    · rw [if_neg ht]
      have hf : cl = .bool false := APInt.isFalse_of_not_isTrue hw (by simpa using ht)
      split
      · next ce right =>
        split_ifs with hce
        · -- 0 == (0 == A)
          obtain ⟨-, ⟨hc, hr, hwr⟩, -⟩ := id h
          obtain rfl := APInt.isFalse_iff.mp hce.2
          subst hf
          refine of_eval hr hwr.symm (fun ρ => ?_) (fun ρ hρ => hρ.2.2) ?_
          · obtain ⟨b, hb⟩ := eval_bool ρ hr hwr.symm
            cases b <;> simp [eval, hb, boolOp]
          · simp only [weight]
            omega
        · exact createNode_refines h
      · next a b =>
        have ha : (bin .eq (.const (.ofNat a.width 0)) a).Typed :=
          ⟨h.2.1.1.width_pos, h.2.1.1, rfl⟩
        have hb : (bin .eq (.const (.ofNat b.width 0)) b).Typed :=
          ⟨h.2.1.2.1.width_pos, h.2.1.2.1, rfl⟩
        exact deMorgan_refines h hf (constCase ha (createPartialR_refines _ a ha))
          (constCase hb (createPartialR_refines _ b hb))
      · exact createNode_refines h
  · rw [if_neg hw]
    split
    · next src w =>
      obtain rfl : cl.width = w := h.2.2
      exact ext_refines (fun _ _ => APInt.zExt_sExt) h h.2.1.1 h.2.1.2 (fun _ => rfl)
        (fun _ hρ => hρ) le_rfl fun hs => constCase hs (createPartialR_refines _ src hs)
    · next src w =>
      obtain rfl : cl.width = w := h.2.2
      exact ext_refines (fun _ _ => APInt.zExt_zExt) h h.2.1.1 h.2.1.2 (fun _ => rfl)
        (fun _ hρ => hρ) le_rfl fun hs => constCase hs (createPartialR_refines _ src hs)
    · next c1 b =>
      have hadd : Refines o _ _ := add_refines h
      exact (createPartialR_refines _ b hadd.typed).trans hadd
    · next c1 b =>
      have hsub : Refines o _ _ := sub_refines h
      exact (createPartialR_refines _ b hsub.typed).trans hsub
    · next root head index =>
      split_ifs with ho
      · have hi : ∀ i, (bin .eq (.const (.ofNat index.width i)) index).Typed :=
          fun i => ⟨h.2.1.2.1.width_pos, h.2.1.2.1, rfl⟩
        exact tryConstArrayOpt_refines ho h fun i =>
          constCase (hi i) (createPartialR_refines _ index (hi i))
      · exact createNode_refines h
    · exact createNode_refines h
termination_by sizeOf r

lemma createPartial_refines (h : (bin .eq l (.const cr)).Typed) :
    Refines o (createPartial o l cr) (.bin .eq l (.const cr)) :=
  (createPartialR_refines cr l ⟨h.2.1, h.1, h.2.2.symm⟩).trans
    (comm (fun w x y => by simp only [op, Bool.beq_comm]) h)

theorem create_refines (h : (bin .eq l r).Typed) :
    Refines o (create o l r) (.bin .eq l r) := by
  refine Refines.bcreateR h ?_ ?_ (createNode_refines h)
  · rintro cl rfl
    exact createPartialR_refines cl r h
  · rintro cr rfl
    exact createPartial_refines h

end EqExpr

omit [Overshift] in
lemma Expr.isZero_typed (h : e.Typed) : (bin .eq e (.const (.ofNat e.width 0))).Typed :=
  ⟨h, h.width_pos, rfl⟩

lemma Expr.createIsZero_refines (h : e.Typed) :
    Refines o (e.createIsZero o) (.bin .eq e (.const (.ofNat e.width 0))) :=
  EqExpr.create_refines (isZero_typed h)

end Castan
