/-
# The ranges of measured expressions

`ExprRangeEvaluator` shifts by eight bits in every concatenation.  The range that it returns
contains the value of the expression if the right part of every concatenation is a byte, and may
miss it otherwise.
-/
import Castan.Solver.BitwiseBounds

namespace Castan

open Castan.Expr ExprRangeEvaluator

/-! ### Ranges of a width -/

namespace ValueRange

variable {r b : ValueRange} {w m n : ℕ}

/-- A range of numbers of `w` bits that is not empty. -/
structure OfWidth (r : ValueRange) (w : ℕ) : Prop where
  le : r.min ≤ r.max
  max_lt : r.max.toNat < 2 ^ w

/-- The number is in the range. -/
def Has (r : ValueRange) (n : ℕ) : Prop := r.min.toNat ≤ n ∧ n ≤ r.max.toNat

lemma OfWidth.isEmpty (h : r.OfWidth w) : r.isEmpty = false := by
  simpa [ValueRange.isEmpty] using h.le

lemma fixed_ofWidth {v : BitVec 64} (h : v.toNat < 2 ^ w) : (fixed v).OfWidth w :=
  ⟨BitVec.le_refl v, h⟩

lemma ofConstant_spec {c : APInt} (h : c.width ≤ 64) :
    (ofConstant c).OfWidth c.width ∧ (ofConstant c).Has c.toNat := by
  have hlt : c.toNat < 2 ^ 64 := c.toNat_lt.trans_le (Nat.pow_le_pow_right (by decide) h)
  have hval : (BitVec.ofNat 64 c.toNat).toNat = c.toNat := Nat.mod_eq_of_lt hlt
  rw [ofConstant, show Nat.min c.toNat (2 ^ 64 - 1) = c.toNat from min_eq_left (by omega)]
  exact ⟨fixed_ofWidth (hval.trans_lt c.toNat_lt), hval.le, hval.ge⟩

lemma full_ofWidth (h : w ≤ 64) : (full w).OfWidth w := by
  refine ⟨BitVec.le_def.2 (Nat.zero_le _), ?_⟩
  rw [full, toNat_maxValueOfNBits h]
  exact Nat.sub_lt (Nat.two_pow_pos w) Nat.one_pos

lemma full_has (h : w ≤ 64) (hn : n < 2 ^ w) : (full w).Has n := by
  refine ⟨Nat.zero_le _, ?_⟩
  rw [full, toNat_maxValueOfNBits h]
  omega

/-- Nothing is known about the range on the left, which is empty at first. -/
lemma setUnion_ofWidth (hr : r.max.toNat < 2 ^ w) (hb : b.OfWidth w) :
    (r.setUnion b).OfWidth w := by
  have hle := hb.le
  have hlt := hb.max_lt
  constructor
  · simp only [setUnion]
    split_ifs <;> bv_omega
  · simp only [setUnion]
    split_ifs <;> assumption

lemma setUnion_has (h : r.Has n ∨ b.Has n) : (r.setUnion b).Has n := by
  simp only [Has, setUnion]
  obtain ⟨h₁, h₂⟩ | ⟨h₁, h₂⟩ := h <;> split_ifs <;> bv_omega

/-- A bitwise operation whose bounds are exact; two fixed ranges are a case of it. -/
lemma bitwise_spec {g : BitVec 64 → BitVec 64 → BitVec 64} {f : ℕ → ℕ → ℕ} {lo hi : BitVec 64}
    (hg : ∀ x y, (g x y).toNat = f x.toNat y.toNat)
    (hlo : IsLeast (results g r.min r.max b.min b.max) lo)
    (hhi : IsGreatest (results g r.min r.max b.min b.max) hi)
    (hlt : ∀ x y, x ≤ r.max.toNat → y ≤ b.max.toNat → f x y < 2 ^ w) :
    ∃ x, (if r.isFixed && b.isFixed then some (fixed (g r.min b.min)) else some ⟨lo, hi⟩) = some x ∧
      x.OfWidth w ∧ ∀ {m n}, r.Has m → b.Has n → x.Has (f m n) := by
  refine ⟨⟨lo, hi⟩, ?_, ⟨hlo.2 hhi.1, ?_⟩, fun {m n} hm hn => ?_⟩
  · split
    · next hfixed =>
      obtain ⟨hr, hb⟩ : r.min = r.max ∧ b.min = b.max := by simpa [isFixed] using hfixed
      have hsame : ∀ v ∈ results g r.min r.max b.min b.max, v = g r.min b.min := by
        rintro v ⟨x, y, hx, hy, rfl⟩
        rw [BitVec.le_antisymm (hr ▸ hx.2) hx.1, BitVec.le_antisymm (hb ▸ hy.2) hy.1]
      rw [hsame lo hlo.1, hsame hi hhi.1, fixed]
    · rfl
  · obtain ⟨x, y, hx, hy, rfl⟩ := hhi.1
    rw [hg]
    exact hlt _ _ hx.2 hy.2
  · have hm' : (BitVec.ofNat 64 m).toNat = m := Nat.mod_eq_of_lt (hm.2.trans_lt r.max.isLt)
    have hn' : (BitVec.ofNat 64 n).toNat = n := Nat.mod_eq_of_lt (hn.2.trans_lt b.max.isLt)
    have hmem : g (.ofNat 64 m) (.ofNat 64 n) ∈ results g r.min r.max b.min b.max := by
      refine ⟨_, _, ?_, ?_, rfl⟩
      · rwa [BitVec.le_def, BitVec.le_def, hm']
      · rwa [BitVec.le_def, BitVec.le_def, hn']
    have hvalue : (g (.ofNat 64 m) (.ofNat 64 n)).toNat = f m n := by rw [hg, hm', hn']
    rw [Has, ← hvalue]
    exact ⟨hlo.2 hmem, hhi.2 hmem⟩

section Bitwise

variable {w' : ℕ} (hr : r.OfWidth w) (hb : b.OfWidth w')

include hr hb

lemma binaryAnd_spec : ∃ x, r.binaryAnd b = some x ∧ x.OfWidth w ∧
    ∀ {m n}, r.Has m → b.Has n → x.Has (m &&& n) := by
  rw [binaryAnd, hr.isEmpty, hb.isEmpty]
  exact bitwise_spec BitVec.toNat_and (isLeast_minAND hr.le hb.le) (isGreatest_maxAND hr.le hb.le)
    fun x y hx _ => (Nat.and_le_left.trans hx).trans_lt hr.max_lt

lemma binaryOr_spec {v : ℕ} (hw : w ≤ v) (hw' : w' ≤ v) : ∃ x, r.binaryOr b = some x ∧
    x.OfWidth v ∧ ∀ {m n}, r.Has m → b.Has n → x.Has (m ||| n) := by
  rw [binaryOr, hr.isEmpty, hb.isEmpty]
  refine bitwise_spec BitVec.toNat_or (isLeast_minOR hr.le hb.le) (isGreatest_maxOR hr.le hb.le)
    fun x y hx hy => Nat.or_lt_two_pow ?_ ?_
  · exact (hx.trans_lt hr.max_lt).trans_le (Nat.pow_le_pow_right (by decide) hw)
  · exact (hy.trans_lt hb.max_lt).trans_le (Nat.pow_le_pow_right (by decide) hw')

/-- The range of a concatenation, of which the right part is a byte. -/
lemma concat_spec (hw : w + w' ≤ 64) (hw' : w' = 8) :
    ∃ x, ((fixed 0).concat r 8).bind (fun res => res.concat b 8) = some x ∧ x.OfWidth (w + w') ∧
      ∀ {m n}, r.Has m → b.Has n → x.Has (m * 2 ^ w' + n) := by
  subst hw'
  obtain ⟨x, hx, hxw, hxm⟩ := binaryOr_spec (r := (fixed 0).binaryShiftLeft 8) (w := w)
    ⟨by decide, by simp [fixed, binaryShiftLeft]⟩ hr le_rfl le_rfl
  have hshift : ∀ v : BitVec 64, v.toNat < 2 ^ w → (v <<< 8).toNat = v.toNat * 2 ^ 8 := by
    intro v hv
    have hpow : 2 ^ w ≤ 2 ^ 56 := Nat.pow_le_pow_right (by decide) (by omega)
    rw [BitVec.toNat_shiftLeft, Nat.shiftLeft_eq, Nat.mod_eq_of_lt (by omega)]
  have hmax := hshift x.max hxw.max_lt
  have hmin := hshift x.min (lt_of_le_of_lt hxw.le hxw.max_lt)
  have hxs : (x.binaryShiftLeft 8).OfWidth (w + 8) := by
    constructor
    · rw [binaryShiftLeft, BitVec.le_def, hmin, hmax]
      exact Nat.mul_le_mul_right _ hxw.le
    · rw [binaryShiftLeft, hmax, pow_add]
      exact Nat.mul_lt_mul_of_pos_right hxw.max_lt (by decide)
  obtain ⟨y, hy, hyw, hyn⟩ := binaryOr_spec hxs hb (v := w + 8) le_rfl (Nat.le_add_left 8 w)
  refine ⟨y, ?_, hyw, fun {m n} hm hn => ?_⟩
  · rw [concat, hx, Option.bind_some, concat, hy]
  · have hm' : x.Has m := by
      have := hxm (m := 0) (n := m) ⟨le_rfl, le_rfl⟩ hm
      rwa [Nat.zero_or] at this
    have hlt : n < 2 ^ 8 := hn.2.trans_lt hb.max_lt
    have hor : m * 2 ^ 8 ||| n = m * 2 ^ 8 + n := by
      rw [mul_comm, Nat.two_pow_add_eq_or_of_lt hlt]
    rw [← hor]
    refine hyn ⟨?_, ?_⟩ hn
    · rw [binaryShiftLeft, hmin]
      exact Nat.mul_le_mul_right _ hm'.1
    · rw [binaryShiftLeft, hmax]
      exact Nat.mul_le_mul_right _ hm'.2

end Bitwise

/-- Two numbers in ranges that do not meet are different. -/
lemma ne_of_mayEqual (h : r.mayEqual b = false) (hm : r.Has m) (hn : b.Has n) : m ≠ n := by
  rintro rfl
  simp only [mayEqual, intersects, setIntersection, isEmpty, Bool.not_eq_false'] at h
  simp only [Has] at hm hn
  split_ifs at h <;>
    · have hlt := of_decide_eq_true h
      bv_omega

/-- A number in a fixed range. -/
lemma eq_of_isFixed (h : r.isFixed = true) (hn : r.Has n) : n = r.min.toNat := by
  have hfixed : r.min = r.max := by simpa [isFixed] using h
  rw [Has, ← hfixed] at hn
  omega

lemma eq_of_mustEqual (h : r.mustEqual b = true) (hm : r.Has m) (hn : b.Has n) : m = n := by
  simp only [mustEqual, Bool.and_eq_true, decide_eq_true_eq] at h
  rw [eq_of_isFixed h.1.1 hm, eq_of_isFixed h.1.2 hn, h.2]

/-- The loop clears the lowest bit until the highest one is left. -/
lemma withoutLowerBits_eq (t : BitVec 64) (ht : t ≠ 0) :
    ∃ u, withoutLowerBits t = some u ∧ u.toNat = 2 ^ t.toNat.log2 := by
  have hne : t.toNat ≠ 0 := fun h => ht (BitVec.toNat_inj.1 h)
  have hand := toNat_and_pred ht
  have hzero : t &&& (t - 1) = 0 ↔ t.toNat.isPowerOfTwo := by
    rw [← Nat.and_sub_one_eq_zero_iff_isPowerOfTwo hne, ← hand]
    exact BitVec.toNat_inj.symm
  rw [withoutLowerBits, dif_neg ht]
  split_ifs with hpow
  · obtain ⟨k, hk⟩ := hzero.1 hpow
    exact ⟨t, rfl, by rw [hk, Nat.log2_two_pow]⟩
  · -- the highest bit stays
    have hbit := Nat.and_sub_one_testBit_log2 hne fun h => hpow (hzero.2 h)
    rw [← hand] at hbit
    have hlt : (t &&& (t - 1)).toNat < t.toNat :=
      hand ▸ Nat.and_le_right.trans_lt (Nat.sub_one_lt hne)
    have hlog : (t &&& (t - 1)).toNat.log2 = t.toNat.log2 :=
      (Nat.log2_eq_iff fun h => hpow (BitVec.toNat_inj.1 h)).2
        ⟨Nat.ge_two_pow_of_testBit hbit, hlt.trans Nat.lt_log2_self⟩
    rw [← hlog]
    exact withoutLowerBits_eq _ hpow
termination_by t.toNat

/-- The bits up to the highest one. -/
lemma toNat_shiftLeft_sub_one {u : BitVec 64} {k : ℕ} (hk : k < 64) (hu : u.toNat = 2 ^ k) :
    (u <<< 1 - 1).toNat = 2 ^ (k + 1) - 1 := by
  have hle : 2 ^ (k + 1) ≤ 2 ^ 64 := Nat.pow_le_pow_right (by decide) hk
  have hpos := Nat.two_pow_pos (k + 1)
  rw [BitVec.toNat_sub, BitVec.toNat_shiftLeft, hu, Nat.shiftLeft_eq, ← pow_succ]
  obtain hlt | heq := hle.lt_or_eq
  · rw [Nat.mod_eq_of_lt hlt]
    show (2 ^ 64 - 1 + 2 ^ (k + 1)) % 2 ^ 64 = _
    omega
  · rw [heq]
    decide

lemma binaryXor_spec (hr : r.OfWidth w) (hb : b.OfWidth w) (hw : w ≤ 64) :
    ∃ x, r.binaryXor b = some x ∧ x.OfWidth w ∧ ∀ {m n}, r.Has m → b.Has n → x.Has (m ^^^ n) := by
  rw [binaryXor]
  split_ifs with hfixed
  · rw [Bool.and_eq_true] at hfixed
    refine ⟨_, rfl, fixed_ofWidth ?_, fun {m n} hm hn => ?_⟩
    · rw [BitVec.toNat_xor]
      exact Nat.xor_lt_two_pow (lt_of_le_of_lt hr.le hr.max_lt) (lt_of_le_of_lt hb.le hb.max_lt)
    · rw [eq_of_isFixed hfixed.1 hm, eq_of_isFixed hfixed.2 hn, ← BitVec.toNat_xor]
      exact ⟨le_rfl, le_rfl⟩
  · have hor := BitVec.toNat_or (x := r.max) (y := b.max)
    have hne : (r.max ||| b.max).toNat ≠ 0 := by
      intro h
      have h₁ : r.max.toNat ≤ r.max.toNat ||| b.max.toNat := Nat.left_le_or
      have h₂ : b.max.toNat ≤ r.max.toNat ||| b.max.toNat := Nat.right_le_or
      have h₃ := hr.le
      have h₄ := hb.le
      apply hfixed
      simp only [isFixed, Bool.and_eq_true, decide_eq_true_eq]
      constructor <;> bv_omega
    obtain ⟨u, hu, hval⟩ := withoutLowerBits_eq _ fun h => hne (congrArg BitVec.toNat h)
    have hlog : (r.max ||| b.max).toNat.log2 < w := by
      rw [Nat.log2_lt hne, hor]
      exact Nat.or_lt_two_pow hr.max_lt hb.max_lt
    generalize hk : (r.max ||| b.max).toNat.log2 = k at *
    have hmax := toNat_shiftLeft_sub_one (hlog.trans_le hw) hval
    have hlt : (r.max ||| b.max).toNat < 2 ^ (k + 1) := hk ▸ Nat.lt_log2_self
    refine ⟨_, by rw [hu]; rfl, ⟨BitVec.le_def.2 (Nat.zero_le _), ?_⟩, fun {m n} hm hn => ?_⟩
    · have hle : 2 ^ (k + 1) ≤ 2 ^ w := Nat.pow_le_pow_right (by decide) hlog
      have := Nat.two_pow_pos (k + 1)
      simp only [hmax]
      omega
    · have hm' := hm.2.trans (hor ▸ Nat.left_le_or (m := b.max.toNat))
      have hn' := hn.2.trans (hor ▸ Nat.right_le_or (n := r.max.toNat))
      have := Nat.xor_lt_two_pow (hm'.trans_lt hlt) (hn'.trans_lt hlt)
      simp only [Has, hmax]
      exact ⟨Nat.zero_le _, by omega⟩

lemma OfWidth.fitsBits (h : r.OfWidth w) (hw : w < 64) : r.fitsBits w = true := by
  have hshift : ∀ v : BitVec 64, v.toNat < 2 ^ w → v >>> w = 0 := fun v hv => by
    apply BitVec.eq_of_toNat_eq
    rw [BitVec.toNat_ushiftRight, Nat.shiftRight_eq_div_pow, Nat.div_eq_of_lt hv]
    rfl
  simp [ValueRange.fitsBits, hw, hshift r.max h.max_lt,
    hshift r.min (lt_of_le_of_lt h.le h.max_lt)]

lemma toNat_smallest (hw : w < 64) : (smallest w).toNat = 2 ^ (w - 1) := toNat_bit (by omega)

lemma toInt_sext (hw : w < 64) {v : BitVec 64} (hv : v.toNat < 2 ^ w) :
    (sext v w).toInt = if 2 * v.toNat < 2 ^ w then (v.toNat : ℤ) else v.toNat - (2 ^ w : ℕ) := by
  rw [sext, BitVec.toInt_signExtend_of_le hw.le, BitVec.toInt, BitVec.toNat_setWidth,
    Nat.mod_eq_of_lt hv]

/-- The signed bounds of the range. -/
lemma signed_spec (h : r.OfWidth w) (h₀ : 0 < w) (hw : w < 64) :
    ∃ lo hi, r.minSigned w = some lo ∧ r.maxSigned w = some hi ∧
      ∀ v : BitVec w, r.Has v.toNat → lo.toInt ≤ v.toInt ∧ v.toInt ≤ hi.toInt := by
  have hpow : 2 * 2 ^ (w - 1) = 2 ^ w := by rw [← pow_succ', Nat.sub_add_cancel h₀]
  have hle : 2 ^ (w - 1) ≤ 2 ^ 62 := Nat.pow_le_pow_right (by decide) (by omega)
  have hpos := Nat.two_pow_pos (w - 1)
  have hmax := h.max_lt
  have hmin : r.min.toNat ≤ r.max.toNat := h.le
  have hsmall := toNat_smallest hw
  have hfits : ¬ r.fitsBits w = false := by simp [h.fitsBits hw]
  simp only [minSigned, maxSigned, if_neg hfits, ← apply_ite some]
  refine ⟨_, _, rfl, rfl, fun v ⟨hlo, hhi⟩ => ?_⟩
  have hsub : (smallest w - 1).toNat = 2 ^ (w - 1) - 1 := by
    rw [← hsmall]
    exact BitVec.toNat_sub_of_le (BitVec.le_def.2 (hsmall ▸ hpos))
  simp only [BitVec.lt_def, BitVec.le_def, apply_ite BitVec.toInt, toInt_sext hw hmax, hsmall,
    toInt_sext hw (hsmall.trans_lt (by omega : 2 ^ (w - 1) < 2 ^ w))]
  simp only [BitVec.toInt, hsub]
  generalize 2 ^ (w - 1) = p at *
  constructor <;> split_ifs <;> omega

end ValueRange

/-! ### Measured expressions -/

mutual

/-- The range evaluator finds a range that contains the value.  It cannot measure more than 64
bits, takes every cell for a byte, shifts by eight bits in every concatenation, by the width in a
signed comparison, and does not know the kinds that are never built. -/
def Expr.Measured : Expr → Prop
  | .const c => c.width ≤ 64
  | .notOptimized src => src.width ≤ 64
  | .read root head index => root.range = 8 ∧ head.Measured ∧ index.Measured
  | .select c t f => c.Measured ∧ t.Measured ∧ f.Measured
  | .concat l r => l.Measured ∧ r.Measured ∧ l.width + r.width ≤ 64 ∧ r.width = 8
  | .extract _ _ w => w ≤ 64
  | .zExt _ w => w ≤ 64
  | .sExt _ w => w ≤ 64
  | .not e => e.width ≤ 64
  | .bin k l r =>
    match k with
    | .shl | .lShr | .aShr => l.width ≤ 64
    | .ne | .ugt | .uge | .sgt | .sge => False
    | .slt | .sle => l.Measured ∧ r.Measured ∧ l.width < 64
    | _ => l.Measured ∧ r.Measured ∧ l.width ≤ 64

def UpdateNode.Measured : UpdateNode → Prop
  | .null => True
  | .node next index value => next.Measured ∧ index.Measured ∧ value.Measured

end

/-- The range has the width of the expression and contains its value. -/
structure ValueRange.Measures (ρ : Valuation) (e : Expr) (r : ValueRange) : Prop where
  ofWidth : r.OfWidth e.width
  has : r.Has (e.eval ρ).toNat

/-- The ranges of initial values are ranges of bytes and contain the cells at these indices. -/
def Valuation.DescribedBy (ρ : Valuation) (initial : KArray → ValueRange → ValueRange) : Prop :=
  ∀ ⦃root : KArray⦄, root.WF → root.range = 8 → ∀ ⦃x : ValueRange⦄ ⦃n : ℕ⦄, x.Has n →
    (initial root x).OfWidth 8 ∧ (initial root x).Has (root.initialValue ρ n).toNat

namespace ExprRangeEvaluator

open ValueRange

variable {initial : KArray → ValueRange → ValueRange} {ρ : Valuation} {l r e : Expr}

/-- A cell is a byte. -/
lemma byte_describes {root : KArray} (hroot : root.WF) (hrange : root.range = 8) (n : ℕ) :
    (⟨0, 255⟩ : ValueRange).OfWidth 8 ∧
      (⟨0, 255⟩ : ValueRange).Has (root.initialValue ρ n).toNat := by
  refine ⟨⟨by decide, by decide⟩, Nat.zero_le _, ?_⟩
  have hlt := APInt.toNat_lt (root.initialValue ρ n)
  rw [KArray.initialValue_width hroot, hrange] at hlt
  exact Nat.le_of_lt_succ hlt

/-- A constant cell is known. -/
lemma describedBy_getInitialReadRange (ρ : Valuation) :
    ρ.DescribedBy CexRangeEvaluator.getInitialReadRange := by
  intro root hroot hrange x n hn
  have hbyte := byte_describes (ρ := ρ) hroot hrange n
  rw [CexRangeEvaluator.getInitialReadRange]
  split
  · next c hc =>
    split
    · next hfixed =>
      have hw : c.width = 8 := (hroot.values_width c (List.mem_of_getElem? hc)).trans hrange
      have hmin := eq_of_isFixed (Bool.and_eq_true_iff.1 hfixed).1 hn
      rw [KArray.initialValue, hmin, hc, Option.getD_some, ← hw]
      exact ofConstant_spec (by omega)
    · exact hbyte
  · exact hbyte

lemma full_measures (ht : e.Typed) (hw : e.width ≤ 64) : (full e.width).Measures ρ e := by
  refine ⟨full_ofWidth hw, full_has hw ?_⟩
  rw [← eval_width ρ ht]
  exact APInt.toNat_lt _

/-- A comparison of two values that the ranges may settle. -/
lemma comparison_measures {k : BinKind} {must mustNot p : Bool} (hk : k.isCmp = true)
    (heval : (Expr.bin k l r).eval ρ = APInt.bool p) (h₁ : must = true → p = true)
    (h₀ : mustNot = true → p = false) : (comparison must mustNot).Measures ρ (.bin k l r) := by
  constructor
  · rw [Expr.width, if_pos hk]
    cases must <;> cases mustNot <;> exact ⟨by decide, by decide⟩
  · rw [heval]
    cases must <;> cases mustNot <;> cases p <;> first | exact ⟨by decide, by decide⟩ | simp_all

/-- A binary expression whose operands have ranges, if they are evaluated. -/
lemma bin_measured {k : BinKind} (ht : (Expr.bin k l r).Typed) (hm : (Expr.bin k l r).Measured)
    (hl : l.Measured → ∃ x, evaluate initial l = some x ∧ x.Measures ρ l)
    (hr : r.Measured → ∃ y, evaluate initial r = some y ∧ y.Measures ρ r) :
    ∃ z, evaluate initial (.bin k l r) = some z ∧ z.Measures ρ (.bin k l r) := by
  by_cases hshift : k = .shl ∨ k = .lShr ∨ k = .aShr
  · obtain rfl | rfl | rfl := hshift <;>
      exact ⟨_, rfl, full_measures (e := .bin _ l r) ht hm⟩
  obtain ⟨hlm, hrm⟩ : l.Measured ∧ r.Measured := by
    cases k <;> first | exact ⟨hm.1, hm.2.1⟩ | exact hm.elim | simp at hshift
  obtain ⟨x, hl, hxw, hxh⟩ := hl hlm
  obtain ⟨y, hr, hyw, hyh⟩ := hr hrm
  rw [← ht.2.2] at hyw
  obtain ⟨v, u, hv, hu⟩ := ht.operands ρ
  have heval : (Expr.bin k l r).eval ρ = k.op v u := by rw [eval, hv, hu, BinKind.fold_mk]
  rw [hv] at hxh
  rw [hu] at hyh
  cases k with
  | add | sub | mul | uDiv | sDiv | uRem | sRem =>
    refine ⟨full l.width, ?_, full_measures (e := .bin _ l r) ht hm.2.2⟩
    simp only [evaluate, hl, hr, Option.bind_eq_bind, Option.bind_some]
    rfl
  | shl | lShr | aShr => simp at hshift
  | ne | ugt | uge | sgt | sge => exact hm.elim
  | xor =>
    obtain ⟨z, hz, hzw, hzh⟩ := binaryXor_spec hxw hyw hm.2.2
    refine ⟨z, by simp [evaluate, hl, hr, hz], hzw, ?_⟩
    rw [heval, BinKind.op, APInt.toNat, BitVec.toNat_xor]
    exact hzh hxh hyh
  | and =>
    obtain ⟨z, hz, hzw, hzh⟩ := binaryAnd_spec hxw hyw
    refine ⟨z, by simp [evaluate, hl, hr, hz], hzw, ?_⟩
    rw [heval, BinKind.op, APInt.toNat, BitVec.toNat_and]
    exact hzh hxh hyh
  | or =>
    obtain ⟨z, hz, hzw, hzh⟩ := binaryOr_spec hxw hyw le_rfl le_rfl
    refine ⟨z, by simp [evaluate, hl, hr, hz], hzw, ?_⟩
    rw [heval, BinKind.op, APInt.toNat, BitVec.toNat_or]
    exact hzh hxh hyh
  | eq =>
    simp only [evaluate, hl, hr, Option.bind_eq_bind, Option.bind_some]
    refine ⟨_, rfl, comparison_measures rfl heval (fun h => ?_) fun h => ?_⟩
    · exact beq_iff_eq.2 (BitVec.toNat_inj.1 (eq_of_mustEqual h hxh hyh))
    · rw [beq_eq_false_iff_ne]
      rintro rfl
      exact ne_of_mayEqual (by simpa using h) hxh hyh rfl
  | ult | ule =>
    simp only [evaluate, hl, hr, getMin, getMax, hxw.isEmpty, hyw.isEmpty, Option.bind_eq_bind,
      Option.bind_some, Bool.false_eq_true, if_false]
    refine ⟨_, rfl, comparison_measures rfl heval (fun h => ?_) fun h => ?_⟩ <;>
      · have h' := of_decide_eq_true h
        simp only [Has, APInt.toNat] at hxh hyh
        simp only [BitVec.ult, BitVec.ule, decide_eq_true_eq, decide_eq_false_iff_not]
        bv_omega
  | slt | sle =>
    have hpos : 0 < l.width := ht.1.width_pos
    obtain ⟨x₁, x₂, hx₁, hx₂, hxs⟩ := signed_spec hxw hpos hm.2.2
    obtain ⟨y₁, y₂, hy₁, hy₂, hys⟩ := signed_spec hyw hpos hm.2.2
    have hxs := hxs v hxh
    have hys := hys u hyh
    simp only [evaluate, hl, hr, hx₁, hx₂, hy₁, hy₂, Option.bind_eq_bind, Option.bind_some]
    refine ⟨_, rfl, comparison_measures rfl heval (fun h => ?_) fun h => ?_⟩ <;>
      · simp only [BitVec.slt, BitVec.sle, decide_eq_true_eq, decide_eq_false_iff_not] at h ⊢
        omega

mutual

lemma evaluate_measured (hρ : ρ.DescribedBy initial) : ∀ e : Expr, e.Typed → e.Measured →
    ∃ x, evaluate initial e = some x ∧ x.Measures ρ e
  | .const c, _, hm => ⟨_, rfl, (ofConstant_spec hm).1, (ofConstant_spec hm).2⟩
  | .notOptimized src, ht, hm => ⟨_, rfl, full_measures (e := .notOptimized src) ht hm⟩
  | .read root head index, ht, hm => by
    obtain ⟨x, hx, hxm⟩ := evaluate_measured hρ index ht.2.1 hm.2.2
    obtain ⟨y, hy, hyw, hyh⟩ := evalRead_measured hρ hxm ht.1 hm.1 ht.2.1 ht.2.2.1 head ht.2.2.2
      hm.2.1 ValueRange.empty (by decide)
    refine ⟨y, by rw [evaluate, hx]; exact hy, ?_, hyh _ (Or.inr rfl)⟩
    rwa [Expr.width, hm.1]
  | .select c t f, ht, hm => by
    obtain ⟨x, hx, hxm⟩ := evaluate_measured hρ c ht.1 hm.1
    obtain ⟨y, hy, hym⟩ := evaluate_measured hρ t ht.2.1 hm.2.1
    obtain ⟨z, hz, hzm⟩ := evaluate_measured hρ f ht.2.2.1 hm.2.2
    have hzw := hzm.ofWidth
    rw [← ht.2.2.2.2] at hzw
    -- the condition is a Boolean, and a fixed range tells which
    have hcond : ∀ {v : BitVec 64}, x.mustEqual (fixed v) = true → (c.eval ρ).toNat = v.toNat :=
      fun hv => eq_of_mustEqual hv hxm.has ⟨le_rfl, le_rfl⟩
    obtain ⟨p, hp⟩ := eval_bool ρ ht.1 ht.2.2.2.1
    have heval : (Expr.select c t f).eval ρ = if p then t.eval ρ else f.eval ρ := by
      rw [eval, hp, APInt.isTrue_bool]
    rw [hp] at hcond
    simp only [evaluate, hx, hy, hz, Option.bind_eq_bind, Option.bind_some]
    split_ifs with h₁ h₀
    · refine ⟨y, rfl, hym.ofWidth, ?_⟩
      rw [heval]
      cases p
      · exact absurd (hcond h₁) (by decide)
      · exact hym.has
    · refine ⟨z, rfl, hzw, ?_⟩
      rw [heval]
      cases p
      · exact hzm.has
      · exact absurd (hcond h₀) (by decide)
    · refine ⟨_, rfl, setUnion_ofWidth hym.ofWidth.max_lt hzw, setUnion_has ?_⟩
      rw [heval]
      cases p
      · exact Or.inr hzm.has
      · exact Or.inl hym.has
  | .concat l r, ht, hm => by
    obtain ⟨x, hx, hxm⟩ := evaluate_measured hρ l ht.1 hm.1
    obtain ⟨y, hy, hym⟩ := evaluate_measured hρ r ht.2 hm.2.1
    obtain ⟨z, hz, hzw, hzh⟩ := concat_spec hxm.ofWidth hym.ofWidth hm.2.2.1 hm.2.2.2
    refine ⟨z, ?_, hzw, ?_⟩
    · simp only [evaluate, hx, hy, Option.bind_eq_bind, Option.bind_some]
      exact hz
    · have hcat : ((l.eval ρ).concat (r.eval ρ)).toNat =
          (l.eval ρ).toNat * 2 ^ r.width + (r.eval ρ).toNat := by
        rw [← eval_width ρ ht.2, mul_comm, Nat.two_pow_add_eq_or_of_lt (APInt.toNat_lt _), mul_comm,
          ← Nat.shiftLeft_eq]
        exact BitVec.toNat_append _ _
      rw [eval, hcat]
      exact hzh hxm.has hym.has
  | .extract e off w, ht, hm => ⟨_, rfl, full_measures (e := .extract e off w) ht hm⟩
  | .zExt e w, ht, hm => ⟨_, rfl, full_measures (e := .zExt e w) ht hm⟩
  | .sExt e w, ht, hm => ⟨_, rfl, full_measures (e := .sExt e w) ht hm⟩
  | .not e, ht, hm => ⟨_, rfl, full_measures (e := .not e) ht hm⟩
  | .bin _ l r, ht, hm =>
    bin_measured ht hm (evaluate_measured hρ l ht.1) (evaluate_measured hρ r ht.2.1)

/-- The range of a read contains the values so far and the value of the read. -/
lemma evalRead_measured (hρ : ρ.DescribedBy initial) {root : KArray} {index : Expr}
    {i : ValueRange} (hi : i.Measures ρ index) (hroot : root.WF) (hrange : root.range = 8)
    (hit : index.Typed) (hiw : index.width = root.domain) :
    ∀ un : UpdateNode, un.Typed root → un.Measured → ∀ res : ValueRange, res.max.toNat < 2 ^ 8 →
        ∃ y, evalRead initial root un res i = some y ∧ y.OfWidth 8 ∧
          ∀ n, res.Has n ∨ n = (un.evalAt ρ root (index.eval ρ)).toNat → y.Has n
  | .null, _, _, res, hres => by
    obtain ⟨hw, hh⟩ := hρ hroot hrange hi.has
    refine ⟨_, rfl, setUnion_ofWidth hres hw, fun n hn => setUnion_has (hn.imp_right ?_)⟩
    rintro rfl
    exact hh
  | .node next unIndex value, ht, hm, res, hres => by
    obtain ⟨ui, hui, huim⟩ := evaluate_measured hρ unIndex ht.2.1 hm.2.1
    obtain ⟨v, hv, hvm⟩ := evaluate_measured hρ value ht.2.2.1 hm.2.2
    have hvw := hvm.ofWidth
    rw [ht.2.2.2.2, hrange] at hvw
    have hunion := setUnion_ofWidth hres hvw
    -- the value of the update is in the union
    have hvalue : (res.setUnion v).Has (value.eval ρ).toNat := setUnion_has (Or.inr hvm.has)
    simp only [evalRead, hui, hv, Option.bind_eq_bind, Option.bind_some]
    split_ifs with hmust hmay hfull
    · refine ⟨_, rfl, hunion, fun n hn => ?_⟩
      obtain hn | rfl := hn
      · exact setUnion_has (Or.inl hn)
      · have heq : unIndex.eval ρ = index.eval ρ := APInt.ext_toNat
          (by rw [eval_width ρ ht.2.1, eval_width ρ hit, ht.2.2.2.1, hiw])
          (eq_of_mustEqual hmust huim.has hi.has)
        rwa [UpdateNode.evalAt, if_pos heq]
    · refine ⟨_, rfl, hunion, fun n hn => ?_⟩
      obtain hn | rfl := hn
      · exact setUnion_has (Or.inl hn)
      · -- the range of all bytes
        obtain ⟨hmin, hmax⟩ : (res.setUnion v).min = 0 ∧ (res.setUnion v).max = 255 := by
          simpa [isFullRange, show maxValueOfNBits 8 = 255 by decide] using hfull
        have hlt := APInt.toNat_lt
          ((UpdateNode.node next unIndex value).evalAt ρ root (index.eval ρ))
        rw [UpdateNode.evalAt_width ρ hroot ht, hrange] at hlt
        rw [Has, hmin, hmax]
        exact ⟨Nat.zero_le _, Nat.le_of_lt_succ hlt⟩
    · obtain ⟨y, hy, hyw, hyh⟩ := evalRead_measured hρ hi hroot hrange hit hiw next ht.1 hm.1
        (res.setUnion v) hunion.max_lt
      refine ⟨y, hy, hyw, fun n hn => hyh n ?_⟩
      rw [UpdateNode.evalAt] at hn
      split_ifs at hn with heq
      · exact Or.inl (hn.elim (fun hn => setUnion_has (Or.inl hn)) fun hn => hn ▸ hvalue)
      · exact hn.imp_left fun hn => setUnion_has (Or.inl hn)
    · obtain ⟨y, hy, hyw, hyh⟩ := evalRead_measured hρ hi hroot hrange hit hiw next ht.1 hm.1 res
        hres
      refine ⟨y, hy, hyw, fun n hn => hyh n ?_⟩
      have hne : unIndex.eval ρ ≠ index.eval ρ := fun h =>
        ne_of_mayEqual (by simpa using hmay) huim.has hi.has (congrArg APInt.toNat h)
      rwa [UpdateNode.evalAt, if_neg hne] at hn

end

/-- The byte `x[i]`. -/
def cellX (i : ℕ) : Expr := .read (.bytes 0 "x" 4) .null (.const (.ofNat 32 i))

lemma cellX_typed (i : ℕ) : (cellX i).Typed :=
  ⟨KArray.bytes_wf 0 "x" (by decide), Nat.succ_pos _, rfl, trivial⟩

/-- The byte `x[0]` is at most four. -/
def atMostFour (root : KArray) (index : ValueRange) : ValueRange :=
  if root = .bytes 0 "x" 4 ∧ index = fixed 0 then ⟨0, 4⟩ else ⟨0, 255⟩

/-- The two bytes of `x` are less than 1280 as a signed number. -/
def belowX : Expr := .bin .slt (.concat (cellX 0) (cellX 1)) (.const (.ofNat 16 1280))

/-- The concatenation of `x[0]` and the two bytes after it, as a read of three bytes. -/
def threeBytes : Expr := .concat (cellX 0) (.concat (cellX 1) (cellX 2))

end ExprRangeEvaluator

end Castan
