/-
# The simplifying constructors keep the meaning: arithmetic and comparisons

The rules of `AddExpr_create` and `SubExpr_create` reassociate sums and differences of three
operands; `Lin` describes such trees, so that a rule is an identity of bit vectors.
-/
import Castan.Expr.CreateEq

namespace Castan

open BinKind Castan.Expr Option Refines RefinesOn SubExpr

variable {o : Opts} {k k' j : BinKind} {r l e x : Expr} {cl cr c : APInt} {ρ : Valuation}

section Overshift

variable [Overshift]

/-! ### Boolean operands -/

/-- A Boolean operation may be replaced by another kind with the same truth table. -/
lemma Refines.boolKind (hk : ∀ a b, k'.boolOp a b = k.boolOp a b)
    (hw : l.width = 1) (h : (bin k l r).Typed) : Refines o (.bin k' l r) (.bin k l r) := by
  refine of_eval h ?_ ?_ (fun ρ hρ => hρ) le_rfl
  · simp only [width, hw]
    split_ifs <;> rfl
  · intro ρ
    obtain ⟨a, b, ha, hb⟩ := h.boolOperands hw ρ
    simp only [eval, ha, hb, fold_bool, hk]

/-- A Boolean operation that only depends on its left operand. -/
lemma Refines.boolLeft (hk : ∀ a b, k.boolOp a b = a)
    (hw : l.width = 1) (h : (bin k l r).Typed) : Refines o l (.bin k l r) := by
  refine of_eval h.1 ?_ ?_ (fun ρ hρ => hρ.1) (Nat.le_add_right _ _)
  · simp only [width, hw]
    split_ifs <;> rfl
  · intro ρ
    obtain ⟨a, b, ha, hb⟩ := h.boolOperands hw ρ
    simp only [eval, ha, hb, fold_bool, hk]

/-- A Boolean operation that is always false. -/
lemma Refines.boolFalse (hk : ∀ a b, k.boolOp a b = false)
    (hw : l.width = 1) (h : (bin k l r).Typed) :
    Refines o (.const (.bool false)) (.bin k l r) := by
  refine const Nat.one_pos ?_ fun ρ _ => ?_
  · simp only [width, hw]
    split_ifs <;> rfl
  · obtain ⟨a, b, ha, hb⟩ := h.boolOperands hw ρ
    simp only [eval, ha, hb, fold_bool, hk]

/-- The negation of a Boolean operand. -/
lemma Expr.eval_isZero (hw : e.width = 1) {b : Bool} (hb : e.eval ρ = .bool b) :
    (bin .eq e (.const (.ofNat e.width 0))).eval ρ = .bool !b := by
  simp only [eval, hb, hw, show APInt.ofNat 1 0 = .bool false from rfl, fold_bool,
    boolOp]
  cases b <;> rfl

/-- A Boolean operation on the left operand and the negation of the right one. -/
lemma Refines.boolNegRight (hk : ∀ a b, j.boolOp a (!b) = k.boolOp a b)
    (hc : j.isCmp = false) {n : Expr} (hw : l.width = 1) (h : (bin k l r).Typed)
    (hn : Refines o n (.bin .eq r (.const (.ofNat r.width 0))))
    (hx : (bin j l n).Typed → Refines o x (.bin j l n)) :
    Refines o x (.bin k l r) := by
  have hwr : r.width = 1 := by rw [← h.2.2, hw]
  have hln : (bin j l n).Typed := ⟨h.1, hn.typed, by rw [hn.width_eq, hw]; rfl⟩
  refine ((hx hln).trans (bin j (refl h.1) hn (by rw [hw]; rfl))).trans ?_
  refine of_eval ⟨h.1, isZero_typed h.2.1, by rw [hw]; rfl⟩ ?_ ?_
    (fun ρ hρ => ⟨hρ.1, hρ.2, trivial⟩) le_rfl
  · simp only [width, hw, hc]
    split_ifs <;> rfl
  · intro ρ
    obtain ⟨a, b, ha, hb⟩ := h.boolOperands hw ρ
    rw [eval, eval_isZero hwr hb, eval, ha, hb, fold_bool,
      fold_bool, hk]

/-- A Boolean operation on the negation of the left operand and the right one. -/
lemma Refines.boolNegLeft (hk : ∀ a b, j.boolOp (!a) b = k.boolOp a b)
    (hc : j.isCmp = false) {n : Expr} (hw : l.width = 1) (h : (bin k l r).Typed)
    (hn : Refines o n (.bin .eq l (.const (.ofNat l.width 0))))
    (hx : (bin j n r).Typed → Refines o x (.bin j n r)) :
    Refines o x (.bin k l r) := by
  have hwr : r.width = 1 := by rw [← h.2.2, hw]
  have hnr : (bin j n r).Typed := ⟨hn.typed, h.2.1, by rw [hn.width_eq, hwr]; rfl⟩
  refine ((hx hnr).trans (bin j hn (refl h.2.1) (by rw [hwr]; rfl))).trans ?_
  refine of_eval ⟨isZero_typed h.1, h.2.1, by rw [hwr]; rfl⟩ ?_ ?_
    (fun ρ hρ => ⟨⟨hρ.1, trivial⟩, hρ.2⟩) le_rfl
  · simp only [width, hw, hc]
    split_ifs <;> rfl
  · intro ρ
    obtain ⟨a, b, ha, hb⟩ := h.boolOperands hw ρ
    rw [eval, eval_isZero hw ha, eval, ha, hb, fold_bool,
      fold_bool, hk]

/-! ### Xor -/

namespace XorExpr

lemma createPartialR_refines (h : (bin .xor (.const cl) r).Typed) :
    Refines o (createPartialR o cl r) (.bin .xor (.const cl) r) := by
  unfold createPartialR
  split_ifs with h0 h1
  · exact unitLeft h rfl fun y => by simp [op, APInt.isZero_iff.mp h0]
  · have hwr : r.width = 1 := by rw [← h.2.2]; exact h1
    have heq : (bin .eq r (.const (.bool false))).Typed := ⟨h.2.1, Nat.one_pos, hwr⟩
    refine (EqExpr.createPartial_refines heq).trans ?_
    refine of_eval heq h1.symm (fun ρ => ?_) (fun ρ hρ => ⟨hρ.2, trivial⟩) ?_
    · obtain ⟨b, hb⟩ := eval_bool ρ h.2.1 hwr
      have hcl : cl = .bool true := by
        refine APInt.isTrue_of_not_isFalse h1 ?_
        rw [Bool.eq_false_iff]
        intro hf
        rw [APInt.isFalse_iff] at hf
        rw [hf] at h0
        exact h0 rfl
      simp only [eval, hb, hcl, fold_bool, boolOp]
      cases b <;> rfl
    · simp only [weight]
      omega
  · exact refl h

lemma create_refines (h : (bin .xor l r).Typed) : Refines o (create o l r) (.bin .xor l r) :=
  bcreateComm (fun w x y => by simp only [op, BitVec.xor_comm]) h
    createPartialR_refines (refl h)

end XorExpr

/-! ### Sums and differences of three operands -/

/-- Trees of additions and subtractions over three operands. -/
inductive Lin
  | leaf (i : Fin 3)
  | add (a b : Lin)
  | sub (a b : Lin)

namespace Lin

/-- The tree with the expressions `v` at its leaves. -/
def toExpr (v : Fin 3 → Expr) : Lin → Expr
  | leaf i => v i
  | add a b => .bin .add (a.toExpr v) (b.toExpr v)
  | sub a b => .bin .sub (a.toExpr v) (b.toExpr v)

/-- The value of a tree from the values of its leaves. -/
def toBits {w : ℕ} (x : Fin 3 → BitVec w) : Lin → BitVec w
  | leaf i => x i
  | add a b => a.toBits x + b.toBits x
  | sub a b => a.toBits x - b.toBits x

/-- The leaves from left to right. -/
def leaves : Lin → List (Fin 3)
  | leaf i => [i]
  | add a b => a.leaves ++ b.leaves
  | sub a b => a.leaves ++ b.leaves

variable {v : Fin 3 → Expr} {w : ℕ}

omit [Overshift] in
lemma typed_width (hv : ∀ i, (v i).Typed ∧ (v i).width = w) :
    ∀ t : Lin, (t.toExpr v).Typed ∧ (t.toExpr v).width = w
  | leaf i => hv i
  | add a b => by
    obtain ⟨ha, hwa⟩ := typed_width hv a
    obtain ⟨hb, hwb⟩ := typed_width hv b
    exact ⟨⟨ha, hb, by rw [hwa, hwb]⟩, hwa⟩
  | sub a b => by
    obtain ⟨ha, hwa⟩ := typed_width hv a
    obtain ⟨hb, hwb⟩ := typed_width hv b
    exact ⟨⟨ha, hb, by rw [hwa, hwb]⟩, hwa⟩

lemma eval_eq {x : Fin 3 → BitVec w} (hx : ∀ i, (v i).eval ρ = ⟨w, x i⟩) :
    ∀ t : Lin, (t.toExpr v).eval ρ = ⟨w, t.toBits x⟩
  | leaf i => hx i
  | add a b => by
    simp only [toExpr, eval, eval_eq hx a, eval_eq hx b, fold_mk, op, toBits]
  | sub a b => by
    simp only [toExpr, eval, eval_eq hx a, eval_eq hx b, fold_mk, op, toBits]

lemma inRange_iff : ∀ t : Lin, (t.toExpr v).InRange ρ ↔ ∀ i ∈ t.leaves, (v i).InRange ρ
  | leaf i => by simp [toExpr, leaves]
  | add a b => by
    simp only [toExpr, Expr.InRange, inRange_iff a, inRange_iff b, leaves, List.forall_mem_append]
  | sub a b => by
    simp only [toExpr, Expr.InRange, inRange_iff a, inRange_iff b, leaves, List.forall_mem_append]

omit [Overshift] in
lemma weight_eq : ∀ t : Lin, (t.toExpr v).weight = (t.leaves.map fun i => (v i).weight).sum
  | leaf i => by simp [toExpr, leaves]
  | add a b => by
    simp only [toExpr, weight, weight_eq a, weight_eq b, leaves, List.map_append,
      List.sum_append]
  | sub a b => by
    simp only [toExpr, weight, weight_eq a, weight_eq b, leaves, List.map_append,
      List.sum_append]

/-- Two trees with the same leaves and the same value may replace each other. -/
theorem refines {s t : Lin} (hperm : s.leaves.Perm t.leaves)
    (hval : ∀ (w : ℕ) (x : Fin 3 → BitVec w), s.toBits x = t.toBits x)
    (hv : ∀ i, (v i).Typed ∧ (v i).width = w) :
    Refines o (s.toExpr v) (t.toExpr v) := by
  obtain ⟨hs, hws⟩ := typed_width hv s
  obtain ⟨-, hwt⟩ := typed_width hv t
  refine of_eval hs (by rw [hws, hwt]) (fun ρ => ?_) (fun ρ hρ => ?_) ?_
  · have hx : ∀ i, ∃ x : BitVec w, (v i).eval ρ = ⟨w, x⟩ :=
      fun i => exists_eval_eq (hv i).1 (hv i).2 ρ
    choose x hx using hx
    rw [eval_eq hx s, eval_eq hx t, hval w x]
  · rw [inRange_iff] at hρ ⊢
    exact fun i hi => hρ i (hperm.mem_iff.mp hi)
  · rw [weight_eq, weight_eq, (hperm.map _).sum_eq]

end Lin

/-- The operands of a rule, by position. -/
def operands (x y z : Expr) : Fin 3 → Expr := ![x, y, z]

omit [Overshift] in
lemma operands_typed {y z : Expr} {w : ℕ} (hx : x.Typed ∧ x.width = w)
    (hy : y.Typed ∧ y.width = w) (hz : z.Typed ∧ z.width = w) :
    ∀ i, (operands x y z i).Typed ∧ (operands x y z i).width = w := by
  intro i
  fin_cases i
  · exact hx
  · exact hy
  · exact hz

/-! ### Add, Sub -/

section AddSub

open Lin

variable {x y z : Expr} {w : ℕ} (hx : x.Typed ∧ x.width = w) (hy : y.Typed ∧ y.width = w)
  (hz : z.Typed ∧ z.width = w)

include hx hy hz

/-- `(x + y) + z` may replace `x + (y + z)`. -/
lemma Refines.add_add : Refines o (.bin .add (.bin .add x y) z) (.bin .add x (.bin .add y z)) :=
  Lin.refines (v := operands x y z) (s := add (add (leaf 0) (leaf 1)) (leaf 2))
    (t := add (leaf 0) (add (leaf 1) (leaf 2))) (by decide)
    (fun w x => by simp only [toBits]; ring) (operands_typed hx hy hz)

/-- `(x + y) - z` may replace `x + (y - z)`. -/
lemma Refines.add_sub : Refines o (.bin .sub (.bin .add x y) z) (.bin .add x (.bin .sub y z)) :=
  Lin.refines (v := operands x y z) (s := sub (add (leaf 0) (leaf 1)) (leaf 2))
    (t := add (leaf 0) (sub (leaf 1) (leaf 2))) (by decide)
    (fun w x => by simp only [toBits]; ring) (operands_typed hx hy hz)

/-- `(x - y) - z` may replace `x - (y + z)`. -/
lemma Refines.sub_add : Refines o (.bin .sub (.bin .sub x y) z) (.bin .sub x (.bin .add y z)) :=
  Lin.refines (v := operands x y z) (s := sub (sub (leaf 0) (leaf 1)) (leaf 2))
    (t := sub (leaf 0) (add (leaf 1) (leaf 2))) (by decide)
    (fun w x => by simp only [toBits]; ring) (operands_typed hx hy hz)

/-- `(x - y) + z` may replace `x - (y - z)`. -/
lemma Refines.sub_sub : Refines o (.bin .add (.bin .sub x y) z) (.bin .sub x (.bin .sub y z)) :=
  Lin.refines (v := operands x y z) (s := add (sub (leaf 0) (leaf 1)) (leaf 2))
    (t := sub (leaf 0) (sub (leaf 1) (leaf 2))) (by decide)
    (fun w x => by simp only [toBits]; ring) (operands_typed hx hy hz)

end AddSub

/-- A call of `create` with a constant on the left. -/
lemma Refines.constLeft {p : Expr}
    (h : (bin k (.const c) e).Typed) (hp : Refines o p (.bin k (.const c) e)) :
    Refines o (match e.constant? with
      | some v => .const (k.fold c v)
      | none => p) (.bin k (.const c) e) := by
  split
  · next v hv =>
    obtain rfl := constant?_eq_some.mp hv
    exact fold h
  · exact hp

/-- Two constants that meet at the left of a tree are folded. -/
lemma Refines.foldLeft (hk : k'.isCmp = false)
    (hcl : 0 < cl.width) (hc : 0 < c.width) (hw : cl.width = c.width) (he : e.Typed)
    (hwe : c.width = e.width) :
    Refines o (.bin k (.const (k'.fold cl c)) e) (.bin k (.bin k' (.const cl) (.const c)) e) := by
  refine bin k (fold ⟨hcl, hc, hw⟩) (refl he) ?_
  simp only [width, hk]
  exact hw.trans hwe

/-- A constant meets the constant at the left of the other operand. -/
lemma Refines.reassoc {j' : BinKind} {p : Expr} (hj : j.isCmp = false)
    (hj' : j'.isCmp = false) (h : (bin k (.const cl) (.bin j (.const c) e)).Typed)
    (hrule : ∀ {x y z : Expr}, x.Typed ∧ x.width = c.width → y.Typed ∧ y.width = c.width →
      z.Typed ∧ z.width = c.width → Refines o (.bin k' (.bin j' x y) z) (.bin k x (.bin j y z)))
    (hp : (bin k' (.const (j'.fold cl c)) e).Typed →
      Refines o p (.bin k' (.const (j'.fold cl c)) e)) :
    Refines o (match e.constant? with
      | some v => .const (k'.fold (j'.fold cl c) v)
      | none => p) (.bin k (.const cl) (.bin j (.const c) e)) := by
  obtain ⟨hcl, ⟨hc, he, hwe⟩, hw⟩ := h
  have hw' : cl.width = c.width := by simpa [width, hj] using hw
  have hfold : Refines o _ _ := (foldLeft hj' hcl hc hw' he hwe).trans
    (hrule ⟨hcl, hw'⟩ ⟨hc, rfl⟩ ⟨he, hwe.symm⟩)
  exact (constLeft hfold.typed (hp hfold.typed)).trans hfold

mutual

theorem AddExpr.createPartialR_refines (cl : APInt) (r : Expr)
    (h : (bin .add (.const cl) r).Typed) :
    Refines o (AddExpr.createPartialR o cl r) (.bin .add (.const cl) r) := by
  unfold AddExpr.createPartialR
  by_cases h1 : cl.width = 1
  · rw [if_pos h1]
    exact (XorExpr.createPartialR_refines h).trans (boolKind (fun _ _ => rfl) h1 h)
  rw [if_neg h1]
  by_cases h0 : cl.isZero = true
  · rw [if_pos h0]
    exact unitLeft h rfl fun y => by simp [op, APInt.isZero_iff.mp h0]
  rw [if_neg h0]
  split
  · exact reassoc rfl rfl h add_add (AddExpr.createPartialR_refines _ _)
  · exact reassoc rfl rfl h add_sub (SubExpr.createPartialR_refines _ _)
  · exact refl h
termination_by sizeOf r

theorem SubExpr.createPartialR_refines (cl : APInt) (r : Expr)
    (h : (bin .sub (.const cl) r).Typed) :
    Refines o (createPartialR o cl r) (.bin .sub (.const cl) r) := by
  unfold createPartialR
  by_cases h1 : cl.width = 1
  · rw [if_pos h1]
    exact (XorExpr.createPartialR_refines h).trans (boolKind (fun _ _ => rfl) h1 h)
  rw [if_neg h1]
  split
  · exact reassoc rfl rfl h sub_add (SubExpr.createPartialR_refines _ _)
  · exact reassoc rfl rfl h sub_sub (AddExpr.createPartialR_refines _ _)
  · exact refl h
termination_by sizeOf r

end

/-- `AddExpr::create(k, e)` for a replacement `e` of another operand. -/
lemma AddExpr.createConst_refines {k : APInt} (hk : 0 < k.width)
    (he : Refines o e x) (hw : k.width = x.width) :
    Refines o (AddExpr.createConst o k e) (.bin .add (.const k) x) := by
  have hadd : Refines o _ _ := bin .add (refl (e := .const k) hk) he hw
  exact (constLeft hadd.typed (AddExpr.createPartialR_refines k e hadd.typed)).trans hadd

lemma SubExpr.createConst_refines {k : APInt} (hk : 0 < k.width)
    (he : Refines o e x) (hw : k.width = x.width) :
    Refines o (createConst o k e) (.bin .sub (.const k) x) := by
  have hsub : Refines o _ _ := bin .sub (refl (e := .const k) hk) he hw
  exact (constLeft hsub.typed (SubExpr.createPartialR_refines k e hsub.typed)).trans hsub

lemma AddExpr.createPartial_refines (h : (bin .add l (.const cr)).Typed) :
    Refines o (AddExpr.createPartial o l cr) (.bin .add l (.const cr)) :=
  (AddExpr.createPartialR_refines cr l ⟨h.2.1, h.1, h.2.2.symm⟩).trans
    (comm (fun w x y => by simp only [op, BitVec.add_comm]) h)

/-- `l - c` and `l + (0 - c)`. -/
lemma SubExpr.createPartial_refines (h : (bin .sub l (.const cr)).Typed) :
    Refines o (createPartial o l cr) (.bin .sub l (.const cr)) := by
  have hadd : (bin .add l
      (.const (sub.fold (.ofNat cr.width 0) cr))).Typed := ⟨h.1, h.2.1, h.2.2⟩
  refine (AddExpr.createPartial_refines hadd).trans ?_
  refine of_eval hadd rfl (fun ρ => ?_) (fun ρ hρ => ⟨hρ.1, trivial⟩) le_rfl
  obtain ⟨w, c⟩ := cr
  obtain ⟨x, hx⟩ : ∃ x : BitVec w, l.eval ρ = ⟨w, x⟩ := exists_eval_eq h.1 h.2.2 ρ
  have hval : x + (0#w - c) = x - c := by rw [BitVec.zero_sub, sub_eq_add_neg]
  simp only [eval, hx, APInt.ofNat, fold_mk, op]
  exact congrArg _ hval

lemma SubExpr.self_refines (hlr : l = r) (h : (bin .sub l r).Typed) :
    Refines o (.const (.ofNat l.width 0)) (.bin .sub l r) := by
  subst hlr
  refine const h.1.width_pos rfl fun ρ _ => ?_
  obtain ⟨x, hx⟩ := exists_eval_eq h.1 rfl ρ
  simp [eval, hx, op, APInt.ofNat]

lemma SubExpr.createConstR_refines {k : APInt} (hk : 0 < k.width)
    (he : Refines o e x) (hw : x.width = k.width) :
    Refines o (createConstR o e k) (.bin .sub x (.const k)) := by
  have hsub : Refines o _ _ := bin .sub he (refl (e := .const k) hk) hw
  refine trans ?_ hsub
  unfold createConstR
  split
  · next v hv =>
    obtain rfl := constant?_eq_some.mp hv
    exact fold hsub.typed
  · exact createPartial_refines hsub.typed

section Create

open Lin

/-- A rule on three operands of one width, one of them a constant. -/
lemma Lin.rule (s t : Lin) (hperm : s.leaves.Perm t.leaves)
    (hval : ∀ (w : ℕ) (x : Fin 3 → BitVec w), s.toBits x = t.toBits x) {k : APInt} {a b : Expr}
    (hk : 0 < k.width) (ha : a.Typed ∧ a.width = k.width) (hb : b.Typed ∧ b.width = k.width) :
    Refines o (s.toExpr (operands (.const k) a b)) (t.toExpr (operands (.const k) a b)) :=
  Lin.refines hperm hval (operands_typed ⟨hk, rfl⟩ ha hb)

mutual

theorem AddExpr.create_refines (l r : Expr) (h : (bin .add l r).Typed) :
    Refines o (AddExpr.create o l r) (.bin .add l r) := by
  unfold AddExpr.create
  split
  · next cl cr hl hr =>
    obtain rfl := constant?_eq_some.mp hl
    obtain rfl := constant?_eq_some.mp hr
    exact fold h
  · next cl hl hr =>
    obtain rfl := constant?_eq_some.mp hl
    exact AddExpr.createPartialR_refines cl r h
  · next cr hl hr =>
    obtain rfl := constant?_eq_some.mp hr
    exact AddExpr.createPartial_refines h
  · by_cases h1 : l.width = 1
    · rw [if_pos h1]
      exact boolKind (fun _ _ => rfl) h1 h
    rw [if_neg h1]
    clear h1
    split
    · next k a _ =>
      obtain ⟨⟨hk, ha, hwa⟩, hr, hwr⟩ := id h
      have hin : Refines o _ _ := AddExpr.create_refines a r ⟨ha, hr, hwa.symm.trans hwr⟩
      exact (AddExpr.createConst_refines hk hin hwa).trans
        (Lin.rule (add (leaf 0) (add (leaf 1) (leaf 2))) (add (add (leaf 0) (leaf 1)) (leaf 2))
          (by decide) (fun w x => by simp only [toBits]; ring) hk ⟨ha, hwa.symm⟩
          ⟨hr, hwr.symm⟩)
    · next k a _ =>
      obtain ⟨⟨hk, ha, hwa⟩, hr, hwr⟩ := id h
      have hin : Refines o _ _ := SubExpr.create_refines r a ⟨hr, ha, hwr.symm.trans hwa⟩
      exact (AddExpr.createConst_refines hk hin hwr).trans
        (Lin.rule (add (leaf 0) (sub (leaf 2) (leaf 1))) (add (sub (leaf 0) (leaf 1)) (leaf 2))
          (by decide) (fun w x => by simp only [toBits]; ring) hk ⟨ha, hwa.symm⟩
          ⟨hr, hwr.symm⟩)
    · next k b _ _ _ =>
      obtain ⟨hl, ⟨hk, hb, hwb⟩, hwl⟩ := id h
      have hin : Refines o _ _ := AddExpr.create_refines l b ⟨hl, hb, hwl.trans hwb⟩
      exact (AddExpr.createConst_refines hk hin hwl.symm).trans
        (Lin.rule (add (leaf 0) (add (leaf 1) (leaf 2))) (add (leaf 1) (add (leaf 0) (leaf 2)))
          (by decide) (fun w x => by simp only [toBits]; ring) hk ⟨hl, hwl⟩ ⟨hb, hwb.symm⟩)
    · next k b _ _ _ =>
      obtain ⟨hl, ⟨hk, hb, hwb⟩, hwl⟩ := id h
      have hin : Refines o _ _ := SubExpr.create_refines l b ⟨hl, hb, hwl.trans hwb⟩
      exact (AddExpr.createConst_refines hk hin hwl.symm).trans
        (Lin.rule (add (leaf 0) (sub (leaf 1) (leaf 2))) (add (leaf 1) (sub (leaf 0) (leaf 2)))
          (by decide) (fun w x => by simp only [toBits]; ring) hk ⟨hl, hwl⟩ ⟨hb, hwb.symm⟩)
    · exact refl h
termination_by sizeOf l + sizeOf r

theorem SubExpr.create_refines (l r : Expr) (h : (bin .sub l r).Typed) :
    Refines o (SubExpr.create o l r) (.bin .sub l r) := by
  unfold SubExpr.create
  split
  · next cl cr hl hr =>
    obtain rfl := constant?_eq_some.mp hl
    obtain rfl := constant?_eq_some.mp hr
    exact fold h
  · next cl hl hr =>
    obtain rfl := constant?_eq_some.mp hl
    exact SubExpr.createPartialR_refines cl r h
  · next cr hl hr =>
    obtain rfl := constant?_eq_some.mp hr
    exact createPartial_refines h
  · by_cases h1 : l.width = 1
    · rw [if_pos h1]
      exact boolKind (fun _ _ => rfl) h1 h
    rw [if_neg h1]
    clear h1
    by_cases hlr : l = r
    · rw [if_pos hlr]
      exact self_refines hlr h
    rw [if_neg hlr]
    clear hlr
    split
    · next k a _ =>
      obtain ⟨⟨hk, ha, hwa⟩, hr, hwr⟩ := id h
      have hin : Refines o _ _ := SubExpr.create_refines a r ⟨ha, hr, hwa.symm.trans hwr⟩
      exact (AddExpr.createConst_refines hk hin hwa).trans
        (Lin.rule (add (leaf 0) (sub (leaf 1) (leaf 2))) (sub (add (leaf 0) (leaf 1)) (leaf 2))
          (by decide) (fun w x => by simp only [toBits]; ring) hk ⟨ha, hwa.symm⟩
          ⟨hr, hwr.symm⟩)
    · next k a _ =>
      obtain ⟨⟨hk, ha, hwa⟩, hr, hwr⟩ := id h
      have hin : Refines o _ _ := AddExpr.create_refines a r ⟨ha, hr, hwa.symm.trans hwr⟩
      exact (createConst_refines hk hin hwa).trans
        (Lin.rule (sub (leaf 0) (add (leaf 1) (leaf 2))) (sub (sub (leaf 0) (leaf 1)) (leaf 2))
          (by decide) (fun w x => by simp only [toBits]; ring) hk ⟨ha, hwa.symm⟩
          ⟨hr, hwr.symm⟩)
    · next k b _ _ _ =>
      obtain ⟨hl, ⟨hk, hb, hwb⟩, hwl⟩ := id h
      have hin : Refines o _ _ := SubExpr.create_refines l b ⟨hl, hb, hwl.trans hwb⟩
      exact (createConstR_refines hk hin hwl).trans
        (Lin.rule (sub (sub (leaf 1) (leaf 2)) (leaf 0)) (sub (leaf 1) (add (leaf 0) (leaf 2)))
          (by decide) (fun w x => by simp only [toBits]; ring) hk ⟨hl, hwl⟩ ⟨hb, hwb.symm⟩)
    · next k b _ _ _ =>
      obtain ⟨hl, ⟨hk, hb, hwb⟩, hwl⟩ := id h
      have hin : Refines o _ _ := AddExpr.create_refines l b ⟨hl, hb, hwl.trans hwb⟩
      exact (createConstR_refines hk hin hwl).trans
        (Lin.rule (sub (add (leaf 1) (leaf 2)) (leaf 0)) (sub (leaf 1) (sub (leaf 0) (leaf 2)))
          (by decide) (fun w x => by simp only [toBits]; ring) hk ⟨hl, hwl⟩ ⟨hb, hwb.symm⟩)
    · exact refl h
termination_by sizeOf l + sizeOf r

end

end Create

/-! ### Mul, division, remainder and shifts -/

namespace MulExpr

lemma createPartialR_refines (h : (bin .mul (.const cl) r).Typed) :
    Refines o (createPartialR cl r) (.bin .mul (.const cl) r) := by
  unfold createPartialR
  split_ifs with h1 hone h0
  · exact (AndExpr.createPartialR_refines h).trans (boolKind (fun _ _ => rfl) h1 h)
  · have hone := (APInt.isOne_iff (x := cl.bits) h.1).mp hone
    exact unitLeft h rfl fun y => by simp [op, hone]
  · exact zeroLeft h rfl fun y => by simp [op, APInt.isZero_iff.mp h0]
  · exact refl h

lemma create_refines (h : (bin .mul l r).Typed) : Refines o (create l r) (.bin .mul l r) := by
  refine bcreateComm (fun w x y => by simp only [op, BitVec.mul_comm]) h
    createPartialR_refines ?_
  unfold createNode
  split_ifs with h1
  · exact boolKind (fun _ _ => rfl) h1 h
  · exact refl h

end MulExpr

/-- The macro `BCREATE` for a constructor that treats Booleans apart. -/
lemma Refines.bcreateBool {cn : Expr → Expr → Expr}
    (h : (bin k l r).Typed) (hcn : l.width = 1 → Refines o (cn l r) (.bin k l r)) :
    Refines o (Castan.bcreate k (fun l r => if l.width = 1 then cn l r else .bin k l r) l r)
      (.bin k l r) := by
  refine bcreate h ?_
  split_ifs with h1
  · exact hcn h1
  · exact refl h

lemma UDivExpr.create_refines (h : (bin .uDiv l r).Typed) :
    Refines o (UDivExpr.create l r) (.bin .uDiv l r) :=
  bcreateBool h fun h1 => boolLeft (fun _ _ => rfl) h1 h

lemma SDivExpr.create_refines (h : (bin .sDiv l r).Typed) :
    Refines o (SDivExpr.create l r) (.bin .sDiv l r) :=
  bcreateBool h fun h1 => boolLeft (fun _ _ => rfl) h1 h

lemma URemExpr.create_refines (h : (bin .uRem l r).Typed) :
    Refines o (URemExpr.create l r) (.bin .uRem l r) :=
  bcreateBool h fun h1 => boolFalse (fun _ _ => rfl) h1 h

lemma SRemExpr.create_refines (h : (bin .sRem l r).Typed) :
    Refines o (SRemExpr.create l r) (.bin .sRem l r) :=
  bcreateBool h fun h1 => boolFalse (fun _ _ => rfl) h1 h

lemma ShlExpr.create_refines (h : (bin .shl l r).Typed) :
    Refines o (ShlExpr.create o l r) (.bin .shl l r) :=
  bcreateBool h fun h1 => boolNegRight (j := .and) (fun _ _ => rfl) rfl h1 h
    (createIsZero_refines h.2.1) AndExpr.create_refines

lemma LShrExpr.create_refines (h : (bin .lShr l r).Typed) :
    Refines o (LShrExpr.create o l r) (.bin .lShr l r) :=
  bcreateBool h fun h1 => boolNegRight (j := .and) (fun _ _ => rfl) rfl h1 h
    (createIsZero_refines h.2.1) AndExpr.create_refines

/-- A Boolean that is shifted by one without becoming its overshift: `AShrExpr_create` takes the
shift for the Boolean itself. -/
def Expr.Overshifts (ρ : Valuation) (l r : Expr) : Prop :=
  l.width = 1 ∧ (l.isConst && r.isConst) = false ∧ r.eval ρ = .bool true ∧
    Overshift.ashr (l.eval ρ).bits ≠ (l.eval ρ).bits

/-- The arithmetic shift of a Boolean. -/
lemma Expr.eval_aShr_bool (h : (bin .aShr l r).Typed) (hw : l.width = 1) (ρ : Valuation) :
    (bin .aShr l r).eval ρ = l.eval ρ ↔
      (r.eval ρ = .bool true → Overshift.ashr (l.eval ρ).bits = (l.eval ρ).bits) := by
  obtain ⟨a, b, ha, hb⟩ := h.boolOperands hw ρ
  have hbit : ∀ (x : BitVec 1) (a : Bool), x.msb = a ↔ x = BitVec.ofBool a := by decide
  rw [eval, ha, hb, fold_bool, APInt.bool_inj, APInt.bool_inj, boolOp]
  cases b with
  | false => simp
  | true => simp [hbit, APInt.bool]

/-- A Boolean is returned as it is. -/
lemma AShrExpr.create_eq_left (hw : l.width = 1) (hconst : (l.isConst && r.isConst) = false) :
    AShrExpr.create l r = l := by
  unfold AShrExpr.create Castan.bcreate
  split
  · next hl hr => simp [isConst, hl, hr] at hconst
  · exact if_pos hw

lemma AShrExpr.create_refinesOn (h : (bin .aShr l r).Typed) :
    RefinesOn o (fun ρ => ¬ l.Overshifts ρ r) (AShrExpr.create l r) (.bin .aShr l r) := by
  by_cases hbool : l.width = 1 ∧ (l.isConst && r.isConst) = false
  · obtain ⟨hw, hconst⟩ := hbool
    rw [create_eq_left hw hconst]
    refine ⟨h.1, hw.trans (by simp [width, hw, isCmp]), fun ρ hρ _ => ?_, fun ρ _ hρ => hρ.1,
      Nat.le_add_right _ _⟩
    refine ((eval_aShr_bool h hw ρ).2 fun hone => ?_).symm
    by_contra hne
    exact hρ ⟨hw, hconst, hone, hne⟩
  · refine of_refines ?_
    unfold AShrExpr.create Castan.bcreate
    split
    · next cl cr hl hr =>
      rw [constant?_eq_some] at hl hr
      subst hl; subst hr
      exact fold h
    · next hconst =>
      have hw : ¬ l.width = 1 := fun hw => hbool ⟨hw, Bool.eq_false_iff.2 fun hboth => ?_⟩
      · dsimp only
        rw [if_neg hw]
        exact refl h
      · obtain ⟨hl, hr⟩ := Bool.and_eq_true_iff.1 hboth
        obtain ⟨cl, hl⟩ := isSome_iff_exists.1 hl
        obtain ⟨cr, hr⟩ := isSome_iff_exists.1 hr
        exact hconst cl cr hl hr

/-! ### Comparisons -/

lemma NeExpr.create_refines (h : (bin .ne l r).Typed) :
    Refines o (NeExpr.create o l r) (.bin .ne l r) := by
  have heq : Refines o (EqExpr.create o l r) (.bin .eq l r) := EqExpr.create_refines h
  have hout : Refines o _ _ := bin .eq
    (refl (e := .const (.bool false)) Nat.one_pos) heq rfl
  refine ((EqExpr.create_refines hout.typed).trans hout).trans ?_
  refine of_eval ⟨Nat.one_pos, h, rfl⟩ rfl (fun ρ => ?_) (fun ρ hρ => ⟨trivial, hρ⟩) ?_
  · obtain ⟨x, y, hx, hy⟩ := h.operands ρ
    have hbool : ∀ b : Bool, eq.fold (.bool false) (.bool b) = .bool !b := fun b => by
      rw [fold_bool, boolOp, Bool.false_beq]
    have heq : eq.fold ⟨l.width, x⟩ ⟨l.width, y⟩ = .bool (x == y) := by
      rw [fold_mk]
      rfl
    have hne : ne.fold ⟨l.width, x⟩ ⟨l.width, y⟩ = .bool (x != y) := by
      rw [fold_mk]
      rfl
    rw [eval, eval, eval, eval, hx, hy, heq, hne, hbool]
    rfl
  · simp only [weight]
    omega

lemma UltExpr.create_refines (h : (bin .ult l r).Typed) :
    Refines o (UltExpr.create o l r) (.bin .ult l r) :=
  bcreateBool h fun h1 => boolNegLeft (j := .and) (fun _ _ => rfl) rfl h1 h
    (createIsZero_refines h.1) AndExpr.create_refines

lemma UleExpr.create_refines (h : (bin .ule l r).Typed) :
    Refines o (UleExpr.create o l r) (.bin .ule l r) :=
  bcreateBool h fun h1 => boolNegLeft (j := .or) (fun _ _ => rfl) rfl h1 h
    (createIsZero_refines h.1) OrExpr.create_refines

lemma SltExpr.create_refines (h : (bin .slt l r).Typed) :
    Refines o (SltExpr.create o l r) (.bin .slt l r) :=
  bcreateBool h fun h1 => boolNegRight (j := .and) (fun _ _ => rfl) rfl h1 h
    (createIsZero_refines h.2.1) AndExpr.create_refines

lemma SleExpr.create_refines (h : (bin .sle l r).Typed) :
    Refines o (SleExpr.create o l r) (.bin .sle l r) :=
  bcreateBool h fun h1 => boolNegRight (j := .or) (fun _ _ => rfl) rfl h1 h
    (createIsZero_refines h.2.1) OrExpr.create_refines

/-- A comparison read from right to left. -/
lemma Refines.swap (hc : k.isCmp = true) (hc' : j.isCmp = true)
    (hk : ∀ (w : ℕ) (x y : BitVec w), j.op y x = k.op x y)
    (h : (bin k l r).Typed) (hx : (bin j r l).Typed → Refines o x (.bin j r l)) :
    Refines o x (.bin k l r) := by
  have hrl : (bin j r l).Typed := ⟨h.2.1, h.1, h.2.2.symm⟩
  refine (hx hrl).trans (of_eval hrl ?_ (fun ρ => ?_) (fun ρ hρ => ⟨hρ.2, hρ.1⟩) ?_)
  · simp [width, hc, hc']
  · obtain ⟨x, y, hx, hy⟩ := h.operands ρ
    simp only [eval, hx, hy, fold_mk, hk]
  · simp only [weight]
    omega

/-- The `create` function of every binary kind returns a replacement of the plain node, unless the
node overshifts a Boolean. -/
theorem BinKind.create_refinesOn (k : BinKind) (h : (bin k l r).Typed) :
    RefinesOn o (fun ρ => k = .aShr → ¬ l.Overshifts ρ r) (k.create o l r) (.bin k l r) := by
  cases k with
  | add => exact of_refines (AddExpr.create_refines l r h)
  | sub => exact of_refines (SubExpr.create_refines l r h)
  | mul => exact of_refines (MulExpr.create_refines h)
  | uDiv => exact of_refines (UDivExpr.create_refines h)
  | sDiv => exact of_refines (SDivExpr.create_refines h)
  | uRem => exact of_refines (URemExpr.create_refines h)
  | sRem => exact of_refines (SRemExpr.create_refines h)
  | and => exact of_refines (AndExpr.create_refines h)
  | or => exact of_refines (OrExpr.create_refines h)
  | xor => exact of_refines (XorExpr.create_refines h)
  | shl => exact of_refines (ShlExpr.create_refines h)
  | lShr => exact of_refines (LShrExpr.create_refines h)
  | aShr => exact (AShrExpr.create_refinesOn h).mono fun ρ hρ => hρ rfl
  | eq => exact of_refines (EqExpr.create_refines h)
  | ne => exact of_refines (NeExpr.create_refines h)
  | ult => exact of_refines (UltExpr.create_refines h)
  | ule => exact of_refines (UleExpr.create_refines h)
  | slt => exact of_refines (SltExpr.create_refines h)
  | sle => exact of_refines (SleExpr.create_refines h)
  | ugt => exact of_refines (swap (j := .ult) rfl rfl (fun _ _ _ => rfl) h UltExpr.create_refines)
  | uge => exact of_refines (swap (j := .ule) rfl rfl (fun _ _ _ => rfl) h UleExpr.create_refines)
  | sgt => exact of_refines (swap (j := .slt) rfl rfl (fun _ _ _ => rfl) h SltExpr.create_refines)
  | sge => exact of_refines (swap (j := .sle) rfl rfl (fun _ _ _ => rfl) h SleExpr.create_refines)

end Overshift

/-- Nothing overshifts where the sign is filled in. -/
theorem BinKind.create_refines (k : BinKind) (h : (bin k l r).Typed) :
    Refines o (k.create o l r) (.bin k l r) := by
  refine (create_refinesOn k h).mono fun ρ _ _ hover => hover.2.2.2 ?_
  obtain ⟨x, hx⟩ := exists_eval_eq h.1 hover.1 ρ
  have hfill : ∀ x : BitVec 1, x.sshiftRight 1 = x := by decide
  rw [hx]
  exact hfill x

end Castan
