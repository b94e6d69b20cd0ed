/-
# The simplifying constructors keep the meaning: the remaining kinds

Concatenations, extractions, casts, selects and reads, and the summary over all the kinds of
expressions.
-/
import Castan.Expr.CreateArith

namespace Castan

open BitVec Castan.Expr Refines RefinesOn

variable {o : Opts} {a b : APInt} {off w : ℕ} {e : Expr}

/-! ### Extracted and concatenated bits -/

namespace APInt

lemma ext_getLsbD (hw : a.width = b.width)
    (h : ∀ i < a.width, a.bits.getLsbD i = b.bits.getLsbD i) : a = b := by
  obtain ⟨n, x⟩ := a
  obtain ⟨m, y⟩ := b
  obtain rfl : n = m := hw
  rw [eq_of_getLsbD_eq (x := x) (y := y) h]

lemma extract_full (a : APInt) : a.extract 0 a.width = a := by
  refine ext_getLsbD rfl fun i hi => ?_
  have hi : i < a.width := hi
  simp only [extract, getLsbD_extractLsb', hi, decide_true, Bool.true_and, Nat.zero_add]

lemma extract_zero (a : APInt) (w : ℕ) : a.extract 0 w = a.zExt w := by
  refine ext_getLsbD rfl fun i hi => ?_
  simp only [extract, zExt, getLsbD_extractLsb', getLsbD_setWidth, Nat.zero_add]

lemma extract_concat_high (h : b.width ≤ off) :
    (a.concat b).extract off w = a.extract (off - b.width) w := by
  refine ext_getLsbD rfl fun i hi => ?_
  have h1 : ¬ off + i < b.width := by omega
  have h2 : off + i - b.width = off - b.width + i := by omega
  simp only [extract, concat, getLsbD_extractLsb', getLsbD_append, h1, if_false, h2]

lemma extract_concat_low (h : off + w ≤ b.width) :
    (a.concat b).extract off w = b.extract off w := by
  refine ext_getLsbD rfl fun i hi => ?_
  have h1 : off + i < b.width := by
    have hi : i < w := hi
    omega
  simp only [extract, concat, getLsbD_extractLsb', getLsbD_append, h1, if_true]

/-- An extraction over the border of a concatenation. -/
lemma extract_concat_mid (h1 : off < b.width) (h2 : b.width < off + w) :
    (a.concat b).extract off w =
      (a.extract 0 (w + off - b.width)).concat (b.extract off (b.width - off)) := by
  refine ext_getLsbD ?_ fun i hi => ?_
  · simp only [extract, concat]
    omega
  · have hi : i < w := hi
    simp only [extract, concat, getLsbD_extractLsb', getLsbD_append, hi]
    by_cases hb : i < b.width - off
    · have h3 : off + i < b.width := by omega
      simp [hb, h3]
    · have h3 : ¬ off + i < b.width := by omega
      have h4 : off + i - b.width = i - (b.width - off) := by omega
      have h5 : i - (b.width - off) < w + off - b.width := by omega
      simp [hb, h3, h4, h5]

/-- Contiguous extractions. -/
lemma concat_extract (a : APInt) (off w w' : ℕ) :
    (a.extract (off + w) w').concat (a.extract off w) = a.extract off (w' + w) := by
  refine ext_getLsbD rfl fun i hi => ?_
  have hi : i < w' + w := hi
  simp only [extract, concat, getLsbD_extractLsb', getLsbD_append, hi]
  by_cases hb : i < w
  · simp [hb]
  · have h1 : i - w < w' := by omega
    have h2 : off + w + (i - w) = off + i := by omega
    simp [hb, h1, h2]

end APInt

section Overshift

variable [Overshift]

/-! ### Extract, Concat -/

section ExtractConcat

lemma Refines.extract_full (h : (extract e off e.width).Typed) :
    Refines o e (.extract e off e.width) := by
  obtain ⟨he, -, hle⟩ := id h
  obtain rfl : off = 0 := by omega
  refine of_eval he rfl (fun ρ => ?_) (fun ρ hρ => hρ) le_rfl
  rw [eval, ← eval_width ρ he, APInt.extract_full]

lemma Refines.extract_const {c : APInt} (h : (extract (.const c) off w).Typed) :
    Refines o (.const (c.extractFold off w)) (.extract (.const c) off w) :=
  const h.2.1 rfl fun _ _ => APInt.extractFold_eq h.2.2

variable {l r : Expr} {off w : ℕ}

lemma Refines.extract_high (h : (extract (.concat l r) off w).Typed) (hoff : r.width ≤ off) :
    Refines o (.extract l (off - r.width) w) (.extract (.concat l r) off w) := by
  obtain ⟨⟨hl, hr⟩, hw, hle⟩ := id h
  simp only [width] at hle
  refine of_eval ⟨hl, hw, by omega⟩ rfl (fun ρ => ?_) (fun ρ hρ => hρ.1)
    (Nat.le_add_right _ _)
  rw [← eval_width ρ hr] at hoff ⊢
  exact (APInt.extract_concat_high hoff).symm

lemma Refines.extract_low (h : (extract (.concat l r) off w).Typed)
    (hoff : off + w ≤ r.width) :
    Refines o (.extract r off w) (.extract (.concat l r) off w) := by
  obtain ⟨⟨hl, hr⟩, hw, -⟩ := id h
  refine of_eval ⟨hr, hw, hoff⟩ rfl (fun ρ => ?_) (fun ρ hρ => hρ.2)
    (Nat.le_add_left _ _)
  rw [← eval_width ρ hr] at hoff
  exact (APInt.extract_concat_low hoff).symm

lemma Refines.extract_mid (h : (extract (.concat l r) off w).Typed)
    (h1 : off < r.width) (h2 : r.width < off + w) :
    Refines o (.concat (.extract l 0 (w + off - r.width)) (.extract r off (r.width - off)))
      (.extract (.concat l r) off w) := by
  obtain ⟨⟨hl, hr⟩, hw, hle⟩ := id h
  simp only [width] at hle
  refine of_eval ⟨⟨hl, by omega, by omega⟩, ⟨hr, by omega, by omega⟩⟩ ?_ (fun ρ => ?_)
    (fun ρ hρ => hρ) le_rfl
  · simp only [width]
    omega
  · rw [← eval_width ρ hr] at h1 h2 ⊢
    exact (APInt.extract_concat_mid h1 h2).symm

lemma Refines.concat_extract {w' : ℕ}
    (h : (concat (.extract e (off + w) w') (.extract e off w)).Typed) :
    Refines o (.extract e off (w' + w)) (.concat (.extract e (off + w) w') (.extract e off w)) := by
  obtain ⟨⟨he, hw', hle'⟩, -, hw, hle⟩ := id h
  refine of_eval ⟨he, by omega, by omega⟩ rfl (fun ρ => ?_) (fun ρ hρ => hρ.1)
    (Nat.le_add_right _ _)
  exact (APInt.concat_extract _ _ _ _).symm

mutual

theorem ExtractExpr.createAux_refines (e : Expr) (off w : ℕ) (h : (extract e off w).Typed) :
    Refines o (ExtractExpr.createAux e off w).1 (.extract e off w) := by
  unfold ExtractExpr.createAux
  by_cases hw : w = e.width
  · rw [if_pos hw]
    subst hw
    exact extract_full h
  rw [if_neg hw]
  split
  · exact extract_const h
  · next l r =>
    by_cases hhigh : r.width ≤ off
    · rw [if_pos hhigh]
      have hrule : Refines o _ _ := extract_high h hhigh
      exact (ExtractExpr.createAux_refines l _ w hrule.typed).trans hrule
    rw [if_neg hhigh]
    by_cases hlow : off + w ≤ r.width
    · rw [if_pos hlow]
      have hrule : Refines o _ _ := extract_low h hlow
      exact (ExtractExpr.createAux_refines r off w hrule.typed).trans hrule
    rw [if_neg hlow]
    have hrule : Refines o _ _ := extract_mid h (by omega) (by omega)
    have hx := ExtractExpr.createAux_refines l 0 (w + off - r.width) hrule.typed.1
    have hy := ExtractExpr.createAux_refines r off (r.width - off) hrule.typed.2
    split
    next x hxl y hyr ex ey =>
    rw [ex] at hx
    rw [ey] at hy
    have hxy : Refines o _ _ := hx.concat hy
    exact ((ConcatExpr.createAux_refines x y hxy.typed).trans hxy).trans hrule
  · exact refl h
termination_by 2 * e.concats
decreasing_by all_goals (simp_all only [concats]; omega)

theorem ConcatExpr.createAux_refines (l r : Expr) (h : (concat l r).Typed) :
    Refines o (ConcatExpr.createAux l r).1 (.concat l r) := by
  unfold ConcatExpr.createAux
  split
  · refine const ?_ rfl fun _ _ => rfl
    exact Nat.add_pos_left h.1 _
  · next el ol wl er or wr =>
    split_ifs with heq
    · obtain ⟨rfl, rfl⟩ := heq
      have hrule : Refines o _ _ := concat_extract h
      exact (ExtractExpr.createAux_refines el or (wl + wr) hrule.typed).trans hrule
    · exact refl h
  · exact refl h
termination_by 2 * (l.concats + r.concats) + 1
decreasing_by all_goals (simp_all only [concats]; omega)

end

theorem ExtractExpr.create_refines (h : (extract e off w).Typed) :
    Refines o (ExtractExpr.create e off w) (.extract e off w) :=
  ExtractExpr.createAux_refines e off w h

theorem ConcatExpr.create_refines (h : (concat l r).Typed) :
    Refines o (ConcatExpr.create l r) (.concat l r) :=
  ConcatExpr.createAux_refines l r h

end ExtractConcat

/-! ### Casts, Not -/

/-- The plain node that `ZExtExpr::create` stands for: a narrowing cast is an extraction. -/
def Expr.zExtOrTrunc (e : Expr) (w : ℕ) : Expr :=
  if w < e.width then .extract e 0 w else .zExt e w

/-- The plain node that `SExtExpr::create` stands for. -/
def Expr.sExtOrTrunc (e : Expr) (w : ℕ) : Expr :=
  if w < e.width then .extract e 0 w else .sExt e w

/-- A cast to the same, to a smaller and to a larger width. -/
lemma cast_refines {res node : Expr} (h : e.Typed) (hw : 0 < w)
    (hself : w = e.width → Refines o e node) (hext : e.width ≤ w → Refines o res node) :
    Refines o (if w = e.width then e else if w < e.width then ExtractExpr.create e 0 w else res)
      (if w < e.width then .extract e 0 w else node) := by
  split_ifs with heq hlt hlt
  · omega
  · exact hself heq
  · exact ExtractExpr.create_refines ⟨h, hw, by omega⟩
  · exact hext (Nat.not_lt.1 hlt)

lemma ZExtExpr.create_refines (h : e.Typed) (hw : 0 < w) :
    Refines o (ZExtExpr.create e w) (e.zExtOrTrunc w) := by
  refine cast_refines h hw (fun heq => ?_) fun hle => ?_
  · refine of_eval h heq.symm (fun ρ => ?_) (fun ρ hρ => hρ) le_rfl
    rw [eval, heq, ← eval_width ρ h]
    simp [APInt.zExt]
  · split
    · next c hc =>
      obtain rfl := constant?_eq_some.mp hc
      exact const hw rfl fun _ _ => rfl
    · exact refl ⟨h, hle⟩

lemma SExtExpr.create_refines (h : e.Typed) (hw : 0 < w) :
    Refines o (SExtExpr.create e w) (e.sExtOrTrunc w) := by
  refine cast_refines h hw (fun heq => ?_) fun hle => ?_
  · refine of_eval h heq.symm (fun ρ => ?_) (fun ρ hρ => hρ) le_rfl
    rw [eval, heq, ← eval_width ρ h]
    simp [APInt.sExt]
  · split
    · next c hc =>
      obtain rfl := constant?_eq_some.mp hc
      exact const hw rfl fun _ _ => rfl
    · exact refl ⟨h, hle⟩

lemma NotExpr.create_refines (h : e.Typed) : Refines o (NotExpr.create e) (.not e) := by
  unfold NotExpr.create
  split
  · next c hc =>
    obtain rfl := constant?_eq_some.mp hc
    exact const h rfl fun _ _ => rfl
  · exact refl h

/-! ### Select -/

lemma Expr.eval_bin (ρ : Valuation) (k : BinKind) (l r : Expr) :
    (bin k l r).eval ρ = k.fold (l.eval ρ) (r.eval ρ) := by
  rw [eval]

section Select

variable {c t f : Expr}

lemma Refines.select_true (h : (select c t f).Typed) (hc : ∀ ρ, c.eval ρ = .bool true) :
    Refines o t (.select c t f) := by
  refine of_eval h.2.1 rfl (fun ρ => ?_) (fun ρ hρ => hρ.2.1) ?_
  · simp [eval, hc]
  · simp only [weight]
    omega

lemma Refines.select_false (h : (select c t f).Typed) (hc : ∀ ρ, c.eval ρ = .bool false) :
    Refines o f (.select c t f) := by
  refine of_eval h.2.2.1 h.2.2.2.2.symm (fun ρ => ?_) (fun ρ hρ => hρ.2.2) ?_
  · simp [eval, hc]
  · simp only [weight]
    omega

/-- A select over Booleans with a constant arm is a Boolean operation of the condition, or of
its negation, and the other arm. -/
lemma Refines.select_bool {k : BinKind} {x y : Expr} (hk : k.isCmp = false)
    (h : (select c t f).Typed) (hw : t.width = 1)
    (hx : x = c ∨ x = .bin .eq c (.const (.ofNat c.width 0))) (hy : y = t ∨ y = f)
    (hval : ∀ ρ, (bin k x y).eval ρ = (select c t f).eval ρ) :
    Refines o (.bin k x y) (.select c t f) := by
  obtain ⟨hc, ht, hf, hwc, hwf⟩ := id h
  have hxt : x.Typed ∧ x.width = 1 ∧ x.weight = c.weight ∧ ∀ ρ, c.InRange ρ → x.InRange ρ := by
    rcases hx with rfl | rfl
    · exact ⟨hc, hwc, rfl, fun ρ hρ => hρ⟩
    · exact ⟨isZero_typed hc, rfl, rfl, fun ρ hρ => ⟨hρ, trivial⟩⟩
  have hyt : y.Typed ∧ y.width = 1 ∧ y.weight ≤ t.weight + f.weight ∧
      ∀ ρ, t.InRange ρ → f.InRange ρ → y.InRange ρ := by
    rcases hy with rfl | rfl
    · exact ⟨ht, hw, Nat.le_add_right _ _, fun ρ h1 _ => h1⟩
    · exact ⟨hf, hwf.symm.trans hw, Nat.le_add_left _ _, fun ρ _ h2 => h2⟩
  obtain ⟨hx1, hx2, hx3, hx4⟩ := hxt
  obtain ⟨hy1, hy2, hy3, hy4⟩ := hyt
  refine of_eval ⟨hx1, hy1, hx2.trans hy2.symm⟩ ?_ hval
    (fun ρ hρ => ⟨hx4 ρ hρ.1, hy4 ρ hρ.2.1 hρ.2.2⟩) ?_
  · simp [width, hk, hx2, hw]
  · simp only [weight]
    omega

/-- The operands of a Boolean select. -/
lemma Expr.Typed.selectOperands (h : (select c t f).Typed) (hw : t.width = 1)
    (ρ : Valuation) : ∃ a b d : Bool, c.eval ρ = .bool a ∧ t.eval ρ = .bool b ∧
      f.eval ρ = .bool d := by
  obtain ⟨a, ha⟩ := eval_bool ρ h.1 h.2.2.2.1
  obtain ⟨b, hb⟩ := eval_bool ρ h.2.1 hw
  obtain ⟨d, hd⟩ := eval_bool ρ h.2.2.1 (h.2.2.2.2.symm.trans hw)
  exact ⟨a, b, d, ha, hb, hd⟩

namespace SelectExpr

/-- `c ? true : f` is `c or f`. -/
lemma or_refines (h : (select c (.const (.bool true)) f).Typed) :
    Refines o (OrExpr.create c f) (.select c (.const (.bool true)) f) := by
  have hplain : Refines o (.bin .or c f) (.select c (.const (.bool true)) f) := by
    refine select_bool rfl h rfl (Or.inl rfl) (Or.inr rfl) fun ρ => ?_
    obtain ⟨a, b, d, ha, -, hd⟩ := h.selectOperands rfl ρ
    cases a <;> simp [eval, ha, hd, BinKind.boolOp]
  exact (OrExpr.create_refines hplain.typed).trans hplain

/-- `c ? t : false` is `c and t`. -/
lemma and_refines (h : (select c t (.const (.bool false))).Typed) :
    Refines o (AndExpr.create c t) (.select c t (.const (.bool false))) := by
  have hw : t.width = 1 := h.2.2.2.2
  have hplain : Refines o (.bin .and c t) (.select c t (.const (.bool false))) := by
    refine select_bool rfl h hw (Or.inl rfl) (Or.inl rfl) fun ρ => ?_
    obtain ⟨a, b, d, ha, hb, -⟩ := h.selectOperands hw ρ
    cases a <;> simp [eval, ha, hb, BinKind.boolOp]
  exact (AndExpr.create_refines hplain.typed).trans hplain

/-- `c ? false : f` is `not c and f`. -/
lemma not_and_refines (h : (select c (.const (.bool false)) f).Typed) :
    Refines o (AndExpr.create (c.createIsZero o) f) (.select c (.const (.bool false)) f) := by
  have hplain : Refines o (.bin .and (.bin .eq c (.const (.ofNat c.width 0))) f)
      (.select c (.const (.bool false)) f) := by
    refine select_bool rfl h rfl (Or.inr rfl) (Or.inr rfl) fun ρ => ?_
    obtain ⟨a, b, d, ha, -, hd⟩ := h.selectOperands rfl ρ
    rw [eval_bin, eval_isZero h.2.2.2.1 ha]
    cases a <;> simp [eval, ha, hd, BinKind.boolOp]
  have hin : Refines o _ _ :=
    bin .and (createIsZero_refines h.1) (refl h.2.2.1) h.2.2.2.2
  exact ((AndExpr.create_refines hin.typed).trans hin).trans hplain

/-- `c ? t : true` is `not c or t`. -/
lemma not_or_refines (h : (select c t (.const (.bool true))).Typed) :
    Refines o (OrExpr.create (c.createIsZero o) t) (.select c t (.const (.bool true))) := by
  have hw : t.width = 1 := h.2.2.2.2
  have hplain : Refines o (.bin .or (.bin .eq c (.const (.ofNat c.width 0))) t)
      (.select c t (.const (.bool true))) := by
    refine select_bool rfl h hw (Or.inr rfl) (Or.inl rfl) fun ρ => ?_
    obtain ⟨a, b, d, ha, hb, -⟩ := h.selectOperands hw ρ
    rw [eval_bin, eval_isZero h.2.2.2.1 ha]
    cases a <;> simp [eval, ha, hb, BinKind.boolOp]
  have hin : Refines o _ _ :=
    bin .or (createIsZero_refines h.1) (refl h.2.1) hw.symm
  exact ((OrExpr.create_refines hin.typed).trans hin).trans hplain

theorem create_refines (h : (select c t f).Typed) :
    Refines o (create o c t f) (.select c t f) := by
  unfold create
  split
  · next v hv =>
    obtain rfl := constant?_eq_some.mp hv
    split_ifs with htrue
    · exact select_true h fun _ => APInt.isTrue_iff.mp htrue
    · exact select_false h fun _ =>
        APInt.isFalse_of_not_isTrue h.2.2.2.1 (Bool.eq_false_iff.mpr htrue)
  by_cases htf : t = f
  · rw [if_pos htf]
    subst htf
    refine of_eval h.2.1 rfl (fun ρ => ?_) (fun ρ hρ => hρ.2.1) ?_
    · simp [eval]
    · simp only [weight]
      omega
  rw [if_neg htf]
  by_cases hw : t.width = 1
  · rw [if_pos hw]
    split
    · next vt ht =>
      obtain rfl := constant?_eq_some.mp ht
      split_ifs with hvt
      · obtain rfl := APInt.isTrue_iff.mp hvt
        exact or_refines h
      · obtain rfl := APInt.isFalse_of_not_isTrue hw (Bool.eq_false_iff.mpr hvt)
        exact not_and_refines h
    · next vf _ hf =>
      obtain rfl := constant?_eq_some.mp hf
      split_ifs with hvf
      · obtain rfl := APInt.isTrue_iff.mp hvf
        exact not_or_refines h
      · obtain rfl := APInt.isFalse_of_not_isTrue (h.2.2.2.2.symm.trans hw)
          (Bool.eq_false_iff.mpr hvf)
        exact and_refines h
    · exact refl h
  · rw [if_neg hw]
    exact refl h

end SelectExpr

end Select

/-! ### Read -/

/-- The comparison of two indices, when it is a constant, decides whether they are equal. -/
lemma EqExpr.create_constant {i j : Expr} {c : APInt} (h : (bin .eq i j).Typed)
    (hc : (EqExpr.create o i j).constant? = some c) {ρ : Valuation}
    (hρ : o.constArrayOpt = true → (bin .eq i j).InRange ρ) :
    c = .bool (decide (j.eval ρ = i.eval ρ)) := by
  have heval := (EqExpr.create_refines h).eval_eq ρ hρ
  rw [constant?_eq_some.mp hc] at heval
  obtain ⟨x, y, hx, hy⟩ := h.operands ρ
  rw [eval_bin, hx, hy, BinKind.fold_mk] at heval
  simp only [eval] at heval
  rw [heval, hx, hy, BinKind.op, APInt.bool_inj, beq_eq_decide, decide_eq_decide]
  simp [eq_comm]

/-- The rollback loop returns the value that is read. -/
lemma ReadExpr.rollback_spec {root : KArray} {index value : Expr} (hroot : root.WF)
    (hi : index.Typed) (hwi : index.width = root.domain) :
    ∀ {head : UpdateNode}, head.Typed root → rollback o index head = some value →
      Refines o value (.read root head index)
  | .null, _, h => by simp [rollback] at h
  | .node next i v, hty, h => by
    obtain ⟨hn, hti, htv, hwi', hwv⟩ := id hty
    have heq : (bin .eq index i).Typed := ⟨hi, hti, hwi.trans hwi'.symm⟩
    rw [rollback] at h
    split at h
    · next c hc =>
      split_ifs at h with htrue
      · -- the update surely writes the cell that is read
        obtain rfl : v = value := by simpa using h
        refine ⟨htv, hwv, fun ρ _ hρ => ?_, fun ρ _ hρ => hρ.2.1.2.2, ?_⟩
        · have hcmp := EqExpr.create_constant heq hc (fun ho => ⟨(hρ ho).1, (hρ ho).2.1.2.1⟩)
          rw [APInt.isTrue_iff.mp htrue, APInt.bool_inj, eq_comm, decide_eq_true_iff] at hcmp
          simp only [eval, UpdateNode.evalAt, hcmp, if_true]
        · simp only [weight, UpdateNode.weight]
          omega
      · -- the update surely writes another cell
        have ih := rollback_spec hroot hi hwi hn h
        refine ⟨ih.typed, ih.width_eq, fun ρ _ hρ => ?_, fun ρ _ hρ => ?_, ?_⟩
        · have hcmp := EqExpr.create_constant heq hc (fun ho => ⟨(hρ ho).1, (hρ ho).2.1.2.1⟩)
          have hne : ¬ i.eval ρ = index.eval ρ := by
            intro hiv
            rw [hcmp, decide_eq_true hiv] at htrue
            exact htrue rfl
          rw [ih.eval_eq ρ fun ho => ⟨(hρ ho).1, (hρ ho).2.1.1, (hρ ho).2.2⟩]
          simp only [eval, UpdateNode.evalAt, hne, if_false]
        · exact ih.inRange ρ ⟨hρ.1, hρ.2.1.1, hρ.2.2⟩
        · have := ih.weight_le
          simp only [weight, UpdateNode.weight] at this ⊢
          omega
    · simp at h

theorem ReadExpr.create_refines {root : KArray} {head : UpdateNode} {index : Expr}
    (h : (read root head index).Typed) :
    Refines o (ReadExpr.create o root head index) (.read root head index) := by
  unfold ReadExpr.create
  cases hroll : ReadExpr.rollback o index head with
  | none => exact refl h
  | some value => exact ReadExpr.rollback_spec h.1 h.2.1 h.2.2.1 h.2.2.2 hroll

/-! ### All the kinds -/

/-- A plain node: the kind of an expression and its operands. -/
inductive Node
  | read (root : KArray) (head : UpdateNode) (index : Expr)
  | select (cond trueExpr falseExpr : Expr)
  | concat (left right : Expr)
  | extract (expr : Expr) (offset width : ℕ)
  | zExt (src : Expr) (width : ℕ)
  | sExt (src : Expr) (width : ℕ)
  | not (expr : Expr)
  | bin (kind : BinKind) (left right : Expr)

variable {n : Node}

namespace Node

/-- The call of the `create` function of the kind. -/
def create (o : Opts) : Node → Expr
  | read root head index => ReadExpr.create o root head index
  | select c t f => SelectExpr.create o c t f
  | concat l r => ConcatExpr.create l r
  | extract e off w => ExtractExpr.create e off w
  | zExt e w => ZExtExpr.create e w
  | sExt e w => SExtExpr.create e w
  | not e => NotExpr.create e
  | bin k l r => k.create o l r

/-- Operands of the widths that the kind asks for. -/
def WellTyped : Node → Prop
  | read root head index => root.WF ∧ index.Typed ∧ index.width = root.domain ∧ head.Typed root
  | select c t f => c.Typed ∧ t.Typed ∧ f.Typed ∧ c.width = 1 ∧ t.width = f.width
  | concat l r => l.Typed ∧ r.Typed
  | extract e off w => e.Typed ∧ 0 < w ∧ off + w ≤ e.width
  | zExt e w => e.Typed ∧ 0 < w
  | sExt e w => e.Typed ∧ 0 < w
  | not e => e.Typed
  | bin _ l r => l.Typed ∧ r.Typed ∧ l.width = r.width

/-- The width of the node. -/
def width : Node → ℕ
  | read root _ _ => root.range
  | select _ t _ => t.width
  | concat l r => l.width + r.width
  | extract _ _ w => w
  | zExt _ w => w
  | sExt _ w => w
  | not e => e.width
  | bin k l _ => if k.isCmp then 1 else l.width

/-- The value of the node over the values of its operands. -/
def value (ρ : Valuation) : Node → APInt
  | read root head index => head.evalAt ρ root (index.eval ρ)
  | select c t f => if (c.eval ρ).isTrue then t.eval ρ else f.eval ρ
  | concat l r => (l.eval ρ).concat (r.eval ρ)
  | extract e off w => (e.eval ρ).extract off w
  | zExt e w => (e.eval ρ).zExt w
  | sExt e w => (e.eval ρ).sExt w
  | not e => (e.eval ρ).not
  | bin k l r => k.fold (l.eval ρ) (r.eval ρ)

/-- No constant array is read out of bounds, by the operands or by the node itself. -/
def InRange (ρ : Valuation) : Node → Prop
  | read root head index => (Expr.read root head index).InRange ρ
  | select c t f => c.InRange ρ ∧ t.InRange ρ ∧ f.InRange ρ
  | concat l r => l.InRange ρ ∧ r.InRange ρ
  | extract e _ _ => e.InRange ρ
  | zExt e _ => e.InRange ρ
  | sExt e _ => e.InRange ρ
  | not e => e.InRange ρ
  | bin _ l r => l.InRange ρ ∧ r.InRange ρ

/-- The node as an expression; a narrowing cast is an extraction of the low bits. -/
def toExpr : Node → Expr
  | read root head index => .read root head index
  | select c t f => .select c t f
  | concat l r => .concat l r
  | extract e off w => .extract e off w
  | zExt e w => e.zExtOrTrunc w
  | sExt e w => e.sExtOrTrunc w
  | not e => .not e
  | bin k l r => .bin k l r

/-- An arithmetic shift of a Boolean by one, of which LLVM makes another Boolean. -/
def Overshifts (ρ : Valuation) : Node → Prop
  | bin k l r => k = .aShr ∧ l.Overshifts ρ r
  | _ => False

lemma create_refinesOn_toExpr (h : n.WellTyped) :
    RefinesOn o (fun ρ => ¬ n.Overshifts ρ) (n.create o) n.toExpr := by
  cases n with
  | read root head index => exact of_refines (ReadExpr.create_refines h)
  | select c t f => exact of_refines (SelectExpr.create_refines h)
  | concat l r => exact of_refines (ConcatExpr.create_refines h)
  | extract e off w => exact of_refines (ExtractExpr.create_refines h)
  | zExt e w => exact of_refines (ZExtExpr.create_refines h.1 h.2)
  | sExt e w => exact of_refines (SExtExpr.create_refines h.1 h.2)
  | not e => exact of_refines (NotExpr.create_refines h)
  | bin k l r =>
    exact (BinKind.create_refinesOn k h).mono fun ρ hρ hk hover => hρ ⟨hk, hover⟩

omit [Overshift] in
lemma toExpr_width (n : Node) : n.toExpr.width = n.width := by
  cases n with
  | zExt e w =>
    simp only [toExpr, zExtOrTrunc, width]
    split_ifs <;> rfl
  | sExt e w =>
    simp only [toExpr, sExtOrTrunc, width]
    split_ifs <;> rfl
  | _ => rfl

lemma toExpr_eval (h : n.WellTyped) (ρ : Valuation) : n.toExpr.eval ρ = n.value ρ := by
  cases n with
  | zExt e w =>
    simp only [toExpr, zExtOrTrunc, value]
    split_ifs
    · rw [eval, APInt.extract_zero]
    · rw [eval]
  | sExt e w =>
    simp only [toExpr, sExtOrTrunc, value]
    split_ifs with hlt
    · rw [← eval_width ρ h.1] at hlt
      rw [eval, APInt.extract_zero, APInt.zExt, APInt.sExt,
        signExtend_eq_setWidth_of_le _ hlt.le]
    · rw [eval]
  | _ => simp only [toExpr, eval, value]

lemma toExpr_inRange {ρ : Valuation} (h : n.InRange ρ) : n.toExpr.InRange ρ := by
  cases n with
  | zExt e w =>
    simp only [toExpr, zExtOrTrunc]
    split_ifs <;> exact h
  | sExt e w =>
    simp only [toExpr, sExtOrTrunc]
    split_ifs <;> exact h
  | _ => exact h

end Node

end Overshift

namespace Node

/-- The overshift of LLVM 3.4, as long as the value fits into a word. -/
@[reducible] def zeroFill : Overshift := ⟨fun _ => 0⟩

def byteX : Expr := .read (.bytes 0 "x" 4) .null (.const (.ofNat 32 0))

lemma byteX_typed : byteX.Typed :=
  ⟨KArray.bytes_wf 0 "x" (by decide), Nat.succ_pos _, rfl, trivial⟩

/-- The sum `3 + (5 + x[0])` over a byte `x[0]`. -/
def sumNode : Node :=
  .bin .add (.const (.ofNat 8 3)) (.bin .add (.const (.ofNat 8 5)) byteX)

lemma sumNode_wellTyped : sumNode.WellTyped :=
  ⟨Nat.succ_pos _, ⟨Nat.succ_pos _, byteX_typed, rfl⟩, rfl⟩

/-- The low bit of the byte, shifted by itself. -/
def bitShift : Node := .bin .aShr (.extract byteX 0 1) (.extract byteX 0 1)

end Node

end Castan
