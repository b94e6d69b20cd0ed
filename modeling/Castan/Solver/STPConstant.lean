/-
# Products and quotients by constants in STP terms

`STPBuilder` expresses a product with a constant by shifts, sums and differences, and a 32-bit
division by a constant by the high half of such a product.  Both are exact
(`constructMulByConstant_exact`, `constructDivByConstant_exact`).
-/
import Castan.Solver.ConstantDivision
import Castan.Solver.STPShift

namespace Castan

namespace STP

/-- The bit vectors with arithmetic.  The shifts, extractions and concatenations are the terms of
`STP.Term`, whose variables stand for the operand. -/
inductive Arith
  | term (t : Term)
  | bits (body : Term) (arg : Arith)
  | bvPlus (width : ℕ) (left right : Arith)
  | bvMinus (width : ℕ) (left right : Arith)
  | bvUMinus (e : Arith)
  | bvXor (left right : Arith)
  | bvSignExtend (e : Arith) (width : ℕ)

namespace Arith

/-- `vc_getBVLength` -/
def getBVLength : Arith → ℕ
  | term t => t.getBVLength
  | bits body _ => body.getBVLength
  | bvPlus width _ _ => width
  | bvMinus width _ _ => width
  | bvUMinus e => e.getBVLength
  | bvXor l _ => l.getBVLength
  | bvSignExtend _ width => width

/-- The values of the variables of a term that stand for an operand. -/
def operand (value : APInt) : ℕ → (w : ℕ) → BitVec w := fun _ w => value.bits.setWidth w

/-- The value of a bit vector; the operands of an operation have its width. -/
def eval (env : ℕ → (w : ℕ) → BitVec w) : Arith → APInt
  | term t => t.eval env
  | bits body arg => body.eval (operand (arg.eval env))
  | bvPlus width l r => ⟨width, (l.eval env).bits.setWidth width + (r.eval env).bits.setWidth width⟩
  | bvMinus width l r =>
    ⟨width, (l.eval env).bits.setWidth width - (r.eval env).bits.setWidth width⟩
  | bvUMinus e => ⟨(e.eval env).width, -(e.eval env).bits⟩
  | bvXor l r => ⟨(l.eval env).width, (l.eval env).bits ^^^ (r.eval env).bits.setWidth _⟩
  | bvSignExtend e width => ⟨width, (e.eval env).bits.signExtend width⟩

/-- An operand inside a term. -/
def hole (e : Arith) : Term := .var 0 e.getBVLength

/-- A bit vector of a width and with a value of that width. -/
structure HasValue {w : ℕ} (env : ℕ → (w : ℕ) → BitVec w) (e : Arith) (x : BitVec w) : Prop where
  length_eq : e.getBVLength = w
  eval_eq : e.eval env = ⟨w, x⟩

namespace HasValue

variable {env : ℕ → (w : ℕ) → BitVec w} {w : ℕ} {e l r : Arith} {x y : BitVec w}

lemma hole (h : HasValue env e x) : STPBuilder.HasValue (operand ⟨w, x⟩) e.hole x := by
  refine ⟨trivial, h.length_eq, ?_⟩
  rw [Arith.hole, h.length_eq, Term.eval, operand, BitVec.setWidth_eq]

lemma bits {u : ℕ} {z : BitVec u} {body : Term} (h : HasValue env e x)
    (hbody : STPBuilder.HasValue (operand ⟨w, x⟩) body z) : HasValue env (.bits body e) z := by
  refine ⟨hbody.length_eq, ?_⟩
  rw [Arith.eval, h.eval_eq, hbody.eval_eq]

lemma bvPlus (hl : HasValue env l x) (hr : HasValue env r y) :
    HasValue env (.bvPlus w l r) (x + y) := by
  refine ⟨rfl, ?_⟩
  rw [Arith.eval, hl.eval_eq, hr.eval_eq]
  simp

lemma bvMinus (hl : HasValue env l x) (hr : HasValue env r y) :
    HasValue env (.bvMinus w l r) (x - y) := by
  refine ⟨rfl, ?_⟩
  rw [Arith.eval, hl.eval_eq, hr.eval_eq]
  simp

lemma bvUMinus (h : HasValue env e x) : HasValue env (.bvUMinus e) (-x) := by
  refine ⟨h.length_eq, ?_⟩
  rw [Arith.eval, h.eval_eq]

lemma bvXor (hl : HasValue env l x) (hr : HasValue env r y) :
    HasValue env (.bvXor l r) (x ^^^ y) := by
  refine ⟨hl.length_eq, ?_⟩
  rw [Arith.eval, hl.eval_eq, hr.eval_eq]
  simp

lemma bvSignExtend (h : HasValue env e x) (width : ℕ) :
    HasValue env (.bvSignExtend e width) (x.signExtend width) := by
  refine ⟨rfl, ?_⟩
  rw [Arith.eval, h.eval_eq]

end HasValue

end Arith

end STP

namespace STPBuilder

open STP ConstantDivision

/-! ### The terms -/

/-- One iteration of the loop of `constructMulByConstant` over the bits, with `none` for the
assertion that no bit is both added and subtracted.  There is no result before the first bit. -/
def mulByBit (expr : Arith) (width : ℕ) (add sub : BitVec 64) (res : Option Arith) (j : ℕ) :
    Option (Option Arith) :=
  let bit := 1#64 <<< j
  if add &&& bit ≠ 0 ∨ sub &&& bit ≠ 0 then
    if add &&& bit ≠ 0 ∧ sub &&& bit ≠ 0 then none
    else
      let op := Arith.bits (bvLeftShift expr.hole j) expr
      if add &&& bit ≠ 0 then
        some (some (match res with
          | some res => .bvPlus width res op
          | none => op))
      else
        some (some (match res with
          | some res => .bvMinus width res op
          | none => .bvUMinus op))
  else some res

/-- `constructMulByConstant`, with `none` for a failed assertion. -/
def constructMulByConstant (expr : Arith) (width : ℕ) (x : BitVec 64) : Option Arith := do
  let (add, sub) ← computeMultConstants64 x
  let add := Bits.truncateToNBits add width
  let sub := Bits.truncateToNBits sub width
  let res ← (List.range 64).reverse.foldlM (mulByBit expr width add sub) none
  pure (res.getD (.term (bvZero width)))

/-- `constructUDivByConstant` for 32 bits, with `none` for a failed assertion. -/
def constructUDivByConstant (n : Arith) (d : BitVec 32) : Option Arith := do
  let c := computeUDivConstants32 d
  let sh1 := bvConst32 32 c.sh1.toNat
  let sh2 := bvConst32 32 c.sh2.toNat
  -- t1 = MULUH(mprime, n)
  let n64 := Arith.bits (.bvConcat (bvZero 32) n.hole) n
  let t1Bits ← constructMulByConstant n64 64 (c.mprime.setWidth 64)
  let t1 := Arith.bits (bvExtract t1Bits.hole 63 32) t1Bits
  -- n/d = (((n - t1) >> sh1) + t1) >> sh2
  let nMinusT1 := Arith.bvMinus 32 n t1
  let shiftSh1 := Arith.bits (bvVarRightShift nMinusT1.hole sh1) nMinusT1
  let plusT1 := Arith.bvPlus 32 shiftSh1 t1
  pure (.bits (bvVarRightShift plusT1.hole sh2) plusT1)

/-- `constructSDivByConstant` for 32 bits, with `none` for a failed assertion. -/
def constructSDivByConstant (n : Arith) (d : BitVec 32) : Option Arith := do
  let c := computeSDivConstants32 d
  let dsign := Arith.term (bvConst32 32 c.dsign.toNat)
  let shpost := bvConst32 32 c.shpost.toNat
  -- q0 = n + MULSH(mprime, n)
  let n64 := Arith.bvSignExtend n 64
  let mult ← constructMulByConstant n64 64 (c.mprime.signExtend 64)
  let mulsh := Arith.bits (bvExtract mult.hole 63 32) mult
  let nPlusMulsh := Arith.bvPlus 32 n mulsh
  -- sign extend, shift, extract
  let extendNpm := Arith.bvSignExtend nPlusMulsh 64
  let shiftNpm := Arith.bits (bvVarRightShift extendNpm.hole shpost) extendNpm
  let shiftShpost := Arith.bits (bvExtract shiftNpm.hole 31 0) shiftNpm
  -- XSIGN(n)
  let xsign := Arith.bits (.ite (bvBoolExtract n.hole 31) (bvMinusOne 32) (bvZero 32)) n
  let q0 := Arith.bvMinus 32 shiftShpost xsign
  pure (.bvMinus 32 (.bvXor q0 dsign) dsign)

/-! ### Products -/

variable {env : ℕ → (w : ℕ) → BitVec w} {w : ℕ} {expr : Arith} {e : BitVec w}

/-- The result of the loop has a value, which is zero before the first bit. -/
def ResultHasValue (env : ℕ → (w : ℕ) → BitVec w) (res : Option Arith) (v : BitVec w) : Prop :=
  match res with
  | some r => r.HasValue env v
  | none => v = 0

/-- The bits of a number from `i` on. -/
def highBits (a : BitVec 64) (i : ℕ) : ℕ := a.toNat / 2 ^ i * 2 ^ i

lemma highBits_succ (a : BitVec 64) (i : ℕ) :
    highBits a i = highBits a (i + 1) + if a.getLsbD i then 2 ^ i else 0 := by
  have hdiv : a.toNat / 2 ^ i = 2 * (a.toNat / 2 ^ (i + 1)) + a.toNat / 2 ^ i % 2 := by
    rw [pow_succ, ← Nat.div_div_eq_div_mul]
    omega
  have hbit : a.toNat / 2 ^ i % 2 = if a.getLsbD i then 1 else 0 := by
    rw [BitVec.getLsbD, Nat.testBit_eq_decide_div_mod_eq]
    have : a.toNat / 2 ^ i % 2 < 2 := Nat.mod_lt _ (by norm_num)
    split
    · next h => simpa using h
    · next h =>
      have hne : ¬ a.toNat / 2 ^ i % 2 = 1 := by simpa using h
      omega
  rw [highBits, highBits, hdiv, hbit, pow_succ]
  split <;> ring

/-- The value of the loop when the bits from `i` on are done. -/
def partialProduct (e : BitVec w) (add sub : BitVec 64) (i : ℕ) : BitVec w :=
  e * BitVec.ofNat w (highBits add i) - e * BitVec.ofNat w (highBits sub i)

lemma shiftLeft_eq_mul_ofNat (e : BitVec w) (j : ℕ) : e <<< j = e * BitVec.ofNat w (2 ^ j) := by
  apply BitVec.eq_of_toNat_eq
  rw [BitVec.toNat_shiftLeft, BitVec.toNat_mul, BitVec.toNat_ofNat, Nat.shiftLeft_eq,
    Nat.mul_mod_mod]

lemma partialProduct_succ (e : BitVec w) (add sub : BitVec 64) (i : ℕ) :
    partialProduct e add sub i = partialProduct e add sub (i + 1) +
      (if add.getLsbD i then e <<< i else 0) - (if sub.getLsbD i then e <<< i else 0) := by
  rw [partialProduct, partialProduct, highBits_succ add, highBits_succ sub,
    BitVec.ofNat_add, BitVec.ofNat_add, shiftLeft_eq_mul_ofNat]
  have hzero : BitVec.ofNat w 0 = (0 : BitVec w) := rfl
  simp only [apply_ite (BitVec.ofNat w), hzero]
  split_ifs <;> ring

/-- One bit of the factor. -/
lemma mulByBit_hasValue (h : expr.HasValue env e) {add sub : BitVec 64} (hdis : add &&& sub = 0)
    {res : Option Arith} {j : ℕ}
    (hres : ResultHasValue env res (partialProduct e add sub (j + 1))) :
    ∃ res', mulByBit expr w add sub res j = some res' ∧
      ResultHasValue env res' (partialProduct e add sub j) := by
  have hop : (Arith.bits (bvLeftShift expr.hole j) expr).HasValue env (e <<< j) :=
    h.bits (bvLeftShift_hasValue h.hole j)
  have hnot : ¬ (add.getLsbD j = true ∧ sub.getLsbD j = true) := by
    intro hboth
    have hbit : (add &&& sub).getLsbD j = (0#64).getLsbD j := by rw [hdis]; rfl
    rw [BitVec.getLsbD_and, BitVec.getLsbD_zero, hboth.1, hboth.2] at hbit
    cases hbit
  rw [mulByBit, ← BitVec.twoPow_eq]
  simp only [and_twoPow_ne_zero, hnot, if_false]
  have hsucc := partialProduct_succ e add sub j
  by_cases hadd : add.getLsbD j = true
  · have hsub : sub.getLsbD j = false := Bool.eq_false_iff.mpr fun hs => hnot ⟨hadd, hs⟩
    simp only [hadd, true_or, if_true]
    refine ⟨_, rfl, ?_⟩
    rw [hsucc, hadd, hsub]
    simp only [if_true, Bool.false_eq_true, if_false, sub_zero]
    cases res with
    | none =>
      have hzero : partialProduct e add sub (j + 1) = 0 := hres
      rw [hzero, zero_add]
      exact hop
    | some r => exact Arith.HasValue.bvPlus hres hop
  · rw [Bool.not_eq_true] at hadd
    cases hsub : sub.getLsbD j with
    | true =>
      simp only [hadd, Bool.false_eq_true, or_true, if_true, if_false]
      refine ⟨_, rfl, ?_⟩
      rw [hsucc, hadd, hsub]
      simp only [if_true, Bool.false_eq_true, if_false, add_zero]
      cases res with
      | none =>
        have hzero : partialProduct e add sub (j + 1) = 0 := hres
        rw [hzero, zero_sub]
        exact hop.bvUMinus
      | some r => exact Arith.HasValue.bvMinus hres hop
    | false =>
      simp only [hadd, Bool.false_eq_true, or_self, if_false]
      refine ⟨res, rfl, ?_⟩
      rw [hsucc, hadd, hsub]
      simpa using hres

/-- The loop over the lowest `i` bits. -/
lemma mulByBits_hasValue (h : expr.HasValue env e) {add sub : BitVec 64} (hdis : add &&& sub = 0)
    (i : ℕ) : ∀ {res : Option Arith}, ResultHasValue env res (partialProduct e add sub i) →
    ∃ res', (List.range i).reverse.foldlM (mulByBit expr w add sub) res = some res' ∧
      ResultHasValue env res' (partialProduct e add sub 0) := by
  induction i with
  | zero =>
    intro res hres
    exact ⟨res, rfl, hres⟩
  | succ i ih =>
    intro res hres
    obtain ⟨res', hstep, hres'⟩ := mulByBit_hasValue h hdis hres
    rw [List.range_succ, List.reverse_append, List.reverse_singleton, List.singleton_append,
      List.foldlM_cons, hstep]
    exact ih hres'

lemma ofNat_truncateToNBits (a : BitVec 64) (hw : 1 ≤ w) (hle : w ≤ 64) :
    BitVec.ofNat w (Bits.truncateToNBits a w).toNat = a.setWidth w := by
  apply BitVec.eq_of_getLsbD_eq
  intro i hi
  rw [BitVec.getLsbD_ofNat, BitVec.getLsbD_setWidth, ← BitVec.getLsbD.eq_1,
    Bits.getLsbD_truncateToNBits a hw hle]
  simp [hi]

/-- The term of a product with a constant. -/
lemma constructMulByConstant_hasValue (h : expr.HasValue env e) (hw : 1 ≤ w) (hle : w ≤ 64)
    (x : BitVec 64) :
    ∃ t, constructMulByConstant expr w x = some t ∧ t.HasValue env (e * x.setWidth w) := by
  obtain ⟨add, sub, hcompute, hdiff, hdis⟩ := computeMultConstants64_spec x
  have hdis' : Bits.truncateToNBits add w &&& Bits.truncateToNBits sub w = 0 := by
    apply BitVec.eq_of_getLsbD_eq
    intro i hi
    have hbit : (add &&& sub).getLsbD i = (0#64).getLsbD i := by rw [hdis]; rfl
    rw [BitVec.getLsbD_and, BitVec.getLsbD_zero] at hbit
    rw [BitVec.getLsbD_and, Bits.getLsbD_truncateToNBits add hw hle,
      Bits.getLsbD_truncateToNBits sub hw hle]
    cases hadd : add.getLsbD i <;> simp_all
  have hinit : ResultHasValue env none (partialProduct e (Bits.truncateToNBits add w)
      (Bits.truncateToNBits sub w) 64) := by
    have hzero : ∀ a : BitVec 64, highBits a 64 = 0 := by
      intro a
      rw [highBits, Nat.div_eq_of_lt a.isLt, Nat.zero_mul]
    show partialProduct _ _ _ _ = 0
    rw [partialProduct, hzero, hzero, sub_self]
  obtain ⟨res, hloop, hres⟩ := mulByBits_hasValue h hdis' 64 hinit
  have hvalue : partialProduct e (Bits.truncateToNBits add w) (Bits.truncateToNBits sub w) 0 =
      e * x.setWidth w := by
    have hall : ∀ a : BitVec 64, highBits a 0 = a.toNat := by
      intro a
      rw [highBits, pow_zero, Nat.div_one, Nat.mul_one]
    have hsub : x.setWidth w = add.setWidth w - sub.setWidth w := by
      rw [← hdiff, BitVec.sub_eq_add_neg, BitVec.setWidth_add _ _ hle,
        BitVec.setWidth_neg_of_le hle, ← BitVec.sub_eq_add_neg]
    rw [partialProduct, hall, hall, ofNat_truncateToNBits add hw hle,
      ofNat_truncateToNBits sub hw hle, hsub]
    ring
  rw [hvalue] at hres
  refine ⟨res.getD (.term (bvZero w)), ?_, ?_⟩
  · simp only [constructMulByConstant, hcompute, Option.bind_eq_bind, Option.bind_some, hloop]
    rfl
  · cases res with
    | none =>
      have hzero : e * x.setWidth w = 0 := hres
      rw [hzero]
      exact ⟨rfl, rfl⟩
    | some r => exact hres

/-- The factor is recoded as a difference of two numbers without a common bit, and the term that is
built from them has the value of the product. -/
theorem constructMulByConstant_exact (x : BitVec 64) :
    (∃ add sub, computeMultConstants64 x = some (add, sub) ∧ add - sub = x ∧ add &&& sub = 0) ∧
    ∀ (w : ℕ), 1 ≤ w → w ≤ 64 → ∀ (env : ℕ → (w : ℕ) → BitVec w) (expr : Arith) (e : BitVec w),
      expr.HasValue env e → ∃ t, constructMulByConstant expr w x = some t ∧
        t.eval env = ⟨w, e * x.setWidth w⟩ := by
  refine ⟨computeMultConstants64_spec x, ?_⟩
  intro w hw hle env expr e h
  obtain ⟨t, ht, hvalue⟩ := constructMulByConstant_hasValue h hw hle x
  exact ⟨t, ht, hvalue.eval_eq⟩

/-- A product of 20 with the two highest bits of a byte. -/
theorem constructMulByConstant_exact_byte :
    ∃ t, constructMulByConstant (.term (bvConst32 8 20)) 8 192 = some t ∧
      t.eval (fun _ _ => 0) = ⟨8, 20#8 * (192 : BitVec 64).setWidth 8⟩ :=
  (constructMulByConstant_exact 192).2 8 (by norm_num) (by norm_num) (fun _ _ => 0)
    (.term (bvConst32 8 20)) 20#8 ⟨rfl, rfl⟩

/-! ### Quotients -/

section Quotient

variable {n : Arith} {x d : BitVec 32} {l : ℕ}

lemma hasValue_bvConst32 (x : BitVec 32) : HasValue env (bvConst32 32 x.toNat) x := by
  refine ⟨trivial, rfl, ?_⟩
  rw [bvConst32, Term.eval, APInt.ofNat, BitVec.ofNat_toNat, BitVec.setWidth_eq]

/-- The shifts of the difference and of the sum divide by a power of two together. -/
lemma udiv_eq {c : UDivConstants} (hd : d ≠ 0) (h : c.Spec d.toNat l) (x : BitVec 32) :
    ((x.toNat - x.toNat * c.mprime.toNat / 2 ^ 32) / 2 ^ c.sh1.toNat +
      x.toNat * c.mprime.toNat / 2 ^ 32) / 2 ^ c.sh2.toNat = x.toNat / d.toNat := by
  have hne : d.toNat ≠ 0 := fun hzero => hd (BitVec.eq_of_toNat_eq hzero)
  have hx := x.isLt
  have hm : InvariantDivision.Multiplier d.toNat (c.mprime.toNat + 2 ^ 32) (32 + l) l := by
    rw [h.mprime_eq]
    exact InvariantDivision.multiplier_div hne h.le
  have hdiv : (c.mprime.toNat + 2 ^ 32) * x.toNat / 2 ^ (32 + l) = x.toNat / d.toNat := by
    refine hm.mul_div hne ?_
    rw [pow_add]
    exact Nat.mul_lt_mul_of_pos_right hx (by positivity)
  have hhigh : (c.mprime.toNat + 2 ^ 32) * x.toNat / 2 ^ 32 =
      x.toNat + x.toNat * c.mprime.toNat / 2 ^ 32 := by
    rw [Nat.add_mul, Nat.add_mul_div_left _ _ (by norm_num), Nat.mul_comm c.mprime.toNat,
      Nat.add_comm]
  have hle : x.toNat * c.mprime.toNat / 2 ^ 32 ≤ x.toNat :=
    Nat.div_le_of_le_mul (Nat.mul_comm _ _ ▸ Nat.mul_le_mul_right _ c.mprime.isLt.le)
  rw [← hdiv, pow_add, ← Nat.div_div_eq_div_mul, hhigh, h.sh1_eq, h.sh2_eq]
  cases l with
  | zero =>
    simp only [Nat.zero_min, pow_zero, Nat.div_one, Nat.zero_sub]
    -- the divisor is one and the high half is zero
    have hone : d.toNat = 1 := le_antisymm h.le (Nat.pos_of_ne_zero hne)
    have hmp := h.mprime_eq
    rw [hone] at hmp
    have hmone : c.mprime.toNat = 1 := by
      norm_num at hmp
      omega
    rw [hmone]
    omega
  | succ l =>
    have hmin : min (l + 1) 1 = 1 := by omega
    rw [hmin, pow_one, InvariantDivision.half_sub_add hle, Nat.add_sub_cancel,
      pow_succ' 2 l, Nat.div_div_eq_div_mul]

/-- The term of an unsigned quotient. -/
lemma constructUDivByConstant_hasValue (hn : n.HasValue env x) (hd : d ≠ 0) :
    ∃ t, constructUDivByConstant n d = some t ∧ t.HasValue env (x / d) := by
  obtain ⟨l, h⟩ := computeUDivConstants32_spec hd
  set c := computeUDivConstants32 d with hc
  have h64 : (Arith.bits (.bvConcat (bvZero 32) n.hole) n).HasValue env (0#32 ++ x : BitVec 64) :=
    hn.bits ((hasValue_bvZero 32).bvConcat hn.hole)
  obtain ⟨product, hmul, hproduct⟩ :=
    constructMulByConstant_hasValue (w := 64) h64 (by norm_num) le_rfl (c.mprime.setWidth 64)
  have ht := hproduct.bits (hproduct.hole.bvExtract 63 32 (by norm_num) (by norm_num))
  have hminus := hn.bvMinus ht
  have hshift := hminus.bits (bvVarRightShift_hasValue hminus.hole (hasValue_bvConst32 c.sh1)
    (by norm_num) (by decide))
  have hplus := hshift.bvPlus ht
  have hres := hplus.bits (bvVarRightShift_hasValue hplus.hole (hasValue_bvConst32 c.sh2)
    (by norm_num) (by decide))
  refine ⟨_, by rw [constructUDivByConstant, ← hc]; simp only [hmul]; rfl, ?_⟩
  convert hres using 1
  have hx := x.isLt
  have hm := c.mprime.isLt
  have hle := h.le_32
  have hprod : x.toNat * c.mprime.toNat < 2 ^ 64 := by
    calc x.toNat * c.mprime.toNat < 2 ^ 32 * 2 ^ 32 := Nat.mul_lt_mul'' hx hm
      _ = 2 ^ 64 := by norm_num
  have hhigh : (((0#32 ++ x : BitVec 64) * (c.mprime.setWidth 64).setWidth 64).extractLsb' 32
      (63 - 32 + 1)).toNat = x.toNat * c.mprime.toNat / 2 ^ 32 := by
    rw [BitVec.extractLsb'_toNat, BitVec.toNat_mul, BitVec.setWidth_eq, toNat_setWidth64,
      BitVec.toNat_append, Nat.shiftRight_eq_div_pow]
    simp only [BitVec.toNat_ofNat, Nat.zero_mod, Nat.zero_shiftLeft, Nat.zero_or]
    rw [Nat.mod_eq_of_lt hprod, Nat.mod_eq_of_lt (by omega)]
  have hdiff := Nat.div_le_self (x.toNat - x.toNat * c.mprime.toNat / 2 ^ 32) (2 ^ c.sh1.toNat)
  have hxle : x.toNat * c.mprime.toNat / 2 ^ 32 ≤ x.toNat :=
    Nat.div_le_of_le_mul (Nat.mul_comm _ _ ▸ Nat.mul_le_mul_right _ hm.le)
  rw [if_pos (by rw [h.sh2_eq]; omega), if_pos (by rw [h.sh1_eq]; omega)]
  apply BitVec.eq_of_toNat_eq
  rw [BitVec.toNat_udiv, BitVec.toNat_ushiftRight, BitVec.toNat_add, BitVec.toNat_ushiftRight,
    BitVec.toNat_sub_of_le (by rw [BitVec.le_def, hhigh]; exact hxle), hhigh,
    Nat.shiftRight_eq_div_pow, Nat.shiftRight_eq_div_pow, Nat.mod_eq_of_lt (by omega),
    udiv_eq hd h]

/-- The high half of a signed product. -/
lemma toInt_high_mul (x m : BitVec 32) :
    ((x.signExtend 64 * m.signExtend 64).extractLsb' 32 32).toInt =
      x.toInt * m.toInt / 2 ^ 32 := by
  have hprod : (x.signExtend 64 * m.signExtend 64).toInt = x.toInt * m.toInt := by
    rw [BitVec.toInt_mul, BitVec.toInt_signExtend_of_le (by norm_num),
      BitVec.toInt_signExtend_of_le (by norm_num)]
    have hx := BitVec.le_toInt x
    have hx' := BitVec.toInt_lt (x := x)
    have hm := BitVec.le_toInt m
    have hm' := BitVec.toInt_lt (x := m)
    norm_num at hx hx' hm hm'
    refine Int.bmod_eq_of_le ?_ ?_ <;> norm_num <;> nlinarith
  rw [← hprod, BitVec.toInt_eq_toNat_cond, BitVec.toInt_eq_toNat_cond, BitVec.extractLsb'_toNat,
    Nat.shiftRight_eq_div_pow]
  have hlt := (x.signExtend 64 * m.signExtend 64).isLt
  split_ifs <;> omega

/-- A multiplier between `2 ^ 31` and `2 ^ 32` needs no carry. -/
lemma toInt_add_high (x : BitVec 32) {m : BitVec 32} (hm : m.toInt ≤ 0) :
    (x + (x.signExtend 64 * m.signExtend 64).extractLsb' 32 32).toInt =
      x.toInt * (m.toInt + 2 ^ 32) / 2 ^ 32 := by
  have hx := BitVec.le_toInt x
  have hx' := BitVec.toInt_lt (x := x)
  have hge := BitVec.le_toInt m
  norm_num at hx hx' hge
  rw [BitVec.toInt_add, toInt_high_mul, mul_add, Int.add_mul_ediv_right _ _ (by norm_num), add_comm]
  have hbounds : (0 ≤ x.toInt → x.toInt * m.toInt ≤ 0 ∧ -2 ^ 31 * x.toInt ≤ x.toInt * m.toInt) ∧
      (x.toInt < 0 → 0 ≤ x.toInt * m.toInt ∧ x.toInt * m.toInt ≤ -2 ^ 31 * x.toInt) := by
    refine ⟨fun hpos => ⟨?_, ?_⟩, fun hneg => ⟨?_, ?_⟩⟩ <;> nlinarith
  refine Int.bmod_eq_of_le ?_ ?_ <;> norm_num <;> omega

/-- The lower half of a shifted sign extension is the arithmetic shift. -/
lemma extract_signExtend_shift (y : BitVec 32) {s : ℕ} (hs : s ≤ 31) :
    (y.signExtend 64 >>> s).extractLsb' 0 32 = y.sshiftRight s := by
  apply BitVec.eq_of_getLsbD_eq
  intro i hi
  have hlt : s + i < 64 := by omega
  rw [BitVec.getLsbD_extractLsb', BitVec.getLsbD_ushiftRight, BitVec.getLsbD_signExtend,
    BitVec.getLsbD_sshiftRight]
  simp [hi, hlt]

/-- The product, rounded down, is the quotient, or one less for a negative number. -/
lemma sdiv_floor {a m l : ℕ} (hm : InvariantDivision.Multiplier a m (31 + l) l) (ha : a ≠ 0)
    (x : BitVec 32) :
    x.toInt * m / 2 ^ (31 + l) = x.toInt.tdiv a + if x.msb then -1 else 0 := by
  have hpow : (2 : ℕ) ^ (31 + l) = 2 ^ 31 * 2 ^ l := pow_add 2 31 l
  have hlt := BitVec.toInt_lt (x := x)
  have hge := BitVec.le_toInt x
  rw [BitVec.msb_eq_toInt]
  rcases lt_or_ge x.toInt 0 with hneg | hpos
  · obtain ⟨n, hn⟩ : ∃ n : ℕ, x.toInt = -(n : ℤ) := ⟨x.toInt.natAbs, by omega⟩
    have hdiv := hm.neg_mul_ediv (n := n) ha (by omega) (by
      rw [hpow]
      exact Nat.mul_le_mul_right _ (by omega))
    rw [hn, Int.neg_tdiv, ← Int.ofNat_tdiv, if_pos (by simp; omega), ← sub_eq_add_neg, ← hdiv]
    congr 1
    push_cast
    ring
  · obtain ⟨n, hn⟩ : ∃ n : ℕ, x.toInt = n := ⟨x.toInt.toNat, by omega⟩
    have hdiv := hm.mul_div (n := n) ha (by
      rw [hpow]
      exact Nat.mul_lt_mul_of_pos_right (by omega) (by positivity))
    rw [hn, ← Int.ofNat_tdiv, if_neg (by simp), add_zero, ← hdiv]
    push_cast
    rw [mul_comm]

/-- A number is negated by an exclusive or and a difference with a sign in all bits. -/
lemma xor_sub_sign (q : BitVec 32) (b : Bool) :
    (q ^^^ if b then BitVec.allOnes 32 else 0) - (if b then BitVec.allOnes 32 else 0) =
      if b then -q else q := by
  cases b with
  | false => simp
  | true =>
    simp only [if_true, BitVec.xor_allOnes]
    rw [BitVec.neg_eq_not_add, ← BitVec.neg_one_eq_allOnes, sub_neg_eq_add]

/-- The quotient by the absolute value of the divisor. -/
lemma sdiv_eq {c : SDivConstants} (hd : 2 ≤ d.toInt.natAbs) (h : c.Spec d l) (x : BitVec 32) :
    (x + (x.signExtend 64 * c.mprime.signExtend 64).extractLsb' 32 32).sshiftRight c.shpost.toNat -
        (if x.msb then BitVec.allOnes 32 else 0#32) =
      BitVec.ofInt 32 (x.toInt.tdiv d.toInt.natAbs) := by
  have hm := InvariantDivision.multiplier_div (k := 31 + l) (l := l) (by omega) h.le
  have hpow : (2 : ℤ) ^ 32 * ((2 ^ (l - 1) : ℕ) : ℤ) = 2 ^ (31 + l) := by
    have hl := h.pos
    rw [Nat.cast_pow, Nat.cast_ofNat, ← pow_add]
    congr 1
    omega
  rw [← BitVec.ofInt_toInt (x := BitVec.sshiftRight _ _), BitVec.toInt_sshiftRight,
    toInt_add_high x h.mprime_nonpos, h.mprime_eq, h.shpost_eq, Int.shiftRight_eq_div_pow,
    Int.ediv_ediv_of_nonneg (by norm_num), hpow, sdiv_floor hm (by omega) x, BitVec.ofInt_add]
  cases x.msb <;> simp [← BitVec.neg_one_eq_allOnes]

/-- The term of a signed quotient. -/
lemma constructSDivByConstant_hasValue (hn : n.HasValue env x) (hd : 2 ≤ d.toInt.natAbs) :
    ∃ t, constructSDivByConstant n d = some t ∧
      t.HasValue env (BitVec.ofInt 32 (x.toInt.tdiv d.toInt)) := by
  obtain ⟨l, h⟩ := computeSDivConstants32_spec hd
  set c := computeSDivConstants32 d with hc
  obtain ⟨product, hmul, hproduct⟩ := constructMulByConstant_hasValue (w := 64)
    (hn.bvSignExtend 64) (by norm_num) le_rfl (c.mprime.signExtend 64)
  have hmulsh := hproduct.bits (hproduct.hole.bvExtract 63 32 (by norm_num) (by norm_num))
  have hext := (hn.bvPlus hmulsh).bvSignExtend 64
  have hshift := hext.bits (bvVarRightShift_hasValue hext.hole (hasValue_bvConst32 c.shpost)
    (by norm_num) (by decide))
  have hlow := hshift.bits (hshift.hole.bvExtract 31 0 (by norm_num) (by norm_num))
  have hsign := hn.bits ((hasValue_bvMinusOne 32).ite (bvBoolExtract_typed hn.hole (by norm_num))
    (hasValue_bvZero 32))
  have hconst : HasValue env (bvConst32 32 c.dsign.toNat) c.dsign := hasValue_bvConst32 c.dsign
  have hdsign : (Arith.term (bvConst32 32 c.dsign.toNat)).HasValue env c.dsign :=
    ⟨rfl, hconst.eval_eq⟩
  have hres := ((hlow.bvMinus hsign).bvXor hdsign).bvMinus hdsign
  refine ⟨_, by rw [constructSDivByConstant, ← hc]; simp only [hmul]; rfl, ?_⟩
  convert hres using 1
  have hshpost : c.shpost.toNat ≤ 31 := by
    have := h.le_31
    rw [h.shpost_eq]
    omega
  have hmsb := bvBoolExtract_eval hn.hole (by norm_num)
  rw [hmsb, if_pos (by omega), BitVec.setWidth_eq]
  show _ = (BitVec.extractLsb' 0 32 _ - _ ^^^ _) - _
  rw [extract_signExtend_shift _ hshpost, sdiv_eq hd h, h.dsign_eq, xor_sub_sign,
    BitVec.msb_eq_toInt]
  split_ifs with hneg
  · have habs : d.toInt = -(d.toInt.natAbs : ℤ) := by
      have := of_decide_eq_true hneg
      omega
    rw [← BitVec.ofInt_neg, ← Int.tdiv_neg, ← habs]
  · have habs : (d.toInt.natAbs : ℤ) = d.toInt := by
      rw [decide_eq_true_iff] at hneg
      omega
    rw [habs]

/-- Both kinds of division by a constant are exact. -/
theorem constructDivByConstant_exact (env : ℕ → (w : ℕ) → BitVec w) (n : Arith) (x : BitVec 32)
    (hn : n.HasValue env x) :
    (∀ d : BitVec 32, d ≠ 0 → ∃ t, constructUDivByConstant n d = some t ∧
      t.eval env = .ofNat 32 (x.toNat / d.toNat)) ∧
    ∀ d : BitVec 32, d.toInt ≠ 0 → d.toInt ≠ 1 → d.toInt ≠ -1 →
      ∃ t, constructSDivByConstant n d = some t ∧
        t.eval env = ⟨32, BitVec.ofInt 32 (x.toInt.tdiv d.toInt)⟩ := by
  constructor
  · intro d hd
    obtain ⟨t, ht, hvalue⟩ := constructUDivByConstant_hasValue hn hd
    refine ⟨t, ht, ?_⟩
    rw [hvalue.eval_eq, APInt.ofNat, ← BitVec.toNat_udiv, BitVec.ofNat_toNat, BitVec.setWidth_eq]
  · intro d h0 h1 hneg
    obtain ⟨t, ht, hvalue⟩ := constructSDivByConstant_hasValue hn (d := d) (by omega)
    exact ⟨t, ht, hvalue.eval_eq⟩

/-- The least number, divided by seven. -/
theorem constructDivByConstant_exact_seven :
    ∃ t, constructSDivByConstant (.term (bvConst32 32 (2 ^ 31))) 7 = some t ∧
      t.eval (fun _ _ => 0) = ⟨32, BitVec.ofInt 32 ((-2 ^ 31 : ℤ).tdiv 7)⟩ :=
  (constructDivByConstant_exact (fun _ _ => 0) (.term (bvConst32 32 (2 ^ 31)))
    (BitVec.ofNat 32 (2 ^ 31)) ⟨rfl, rfl⟩).2 7 (by decide) (by decide) (by decide)

end Quotient

end STPBuilder

end Castan
