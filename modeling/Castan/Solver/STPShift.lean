/-
# Shifts in STP terms

`STPBuilder` expresses a shift by a constant with concatenations and extractions, and a shift by
another amount with one case per amount.  Both are compared with the shifts of the constant folder.
They agree exactly if the amount is less than the width, or is seen to be too large by all three
(`shift_agree_iff`).
-/
import Castan.Expr.APInt

namespace Castan

open BitVec

namespace STP

mutual

/-- The bit vectors of STP that the shifts need. -/
inductive Term
  | var (name width : ℕ)
  | bvConst (value : APInt)
  | bvConcat (left right : Term)
  | bvExtract (e : Term) (top bottom : ℕ)
  | ite (cond : Formula) (thenPart elsePart : Term)

/-- The Booleans of STP that the shifts need. -/
inductive Formula
  | eq (left right : Term)
  | bvLt (left right : Term)

end

/-- `vc_getBVLength` -/
def Term.getBVLength : Term → ℕ
  | var _ width => width
  | bvConst value => value.width
  | bvConcat l r => l.getBVLength + r.getBVLength
  | bvExtract _ top bottom => top - bottom + 1
  | ite _ t _ => t.getBVLength

mutual

/-- The value of a bit vector. -/
def Term.eval (env : ℕ → (w : ℕ) → BitVec w) : Term → APInt
  | .var name width => ⟨width, env name width⟩
  | .bvConst value => value
  | .bvConcat l r => (l.eval env).concat (r.eval env)
  | .bvExtract e top bottom => (e.eval env).extract bottom (top - bottom + 1)
  | .ite c t e => if c.eval env then t.eval env else e.eval env

def Formula.eval (env : ℕ → (w : ℕ) → BitVec w) : Formula → Bool
  | .eq l r => l.eval env = r.eval env
  | .bvLt l r => (l.eval env).toNat < (r.eval env).toNat

end

mutual

/-- The operands of equations and of both branches have one width (an assertion of `eqExpr`), and
extractions stay inside. -/
def Term.Typed : Term → Prop
  | .var _ _ => True
  | .bvConst _ => True
  | .bvConcat l r => l.Typed ∧ r.Typed
  | .bvExtract e top bottom => e.Typed ∧ bottom ≤ top ∧ top < e.getBVLength
  | .ite c t e => c.Typed ∧ t.Typed ∧ e.Typed ∧ t.getBVLength = e.getBVLength

def Formula.Typed : Formula → Prop
  | .eq l r => l.Typed ∧ r.Typed ∧ l.getBVLength = r.getBVLength
  | .bvLt l r => l.Typed ∧ r.Typed ∧ l.getBVLength = r.getBVLength

end

end STP

/-- The shifts among the binary expressions. -/
inductive ShiftKind
  | shl | lShr | aShr
deriving DecidableEq

namespace ShiftKind

variable {w : ℕ}

/-- The bits of a shifted number. -/
def shiftBy : ShiftKind → BitVec w → ℕ → BitVec w
  | shl, x, n => x <<< n
  | lShr, x, n => x >>> n
  | aShr, x, n => x.sshiftRight n

/-- `ConstantExpr::Shl`, `LShr` and `AShr`, the shifts of `APInt`.  What an arithmetic shift by the
width or more returns depends on the version of LLVM: zero, or the sign in all bits. -/
def constant (overshift : BitVec w → BitVec w) : ShiftKind → BitVec w → BitVec w → BitVec w
  | shl, x, n => x <<< n
  | lShr, x, n => x >>> n
  | aShr, x, n => if n.toNat < w then x.sshiftRight n.toNat else overshift x

end ShiftKind

namespace STPBuilder

open STP

def bvConst32 (width value : ℕ) : Term := .bvConst (.ofNat width value)

def bvZero (width : ℕ) : Term := .bvConst (.ofNat width 0)

def bvOne (width : ℕ) : Term := .bvConst (.ofNat width 1)

def bvMinusOne (width : ℕ) : Term := .bvConst ⟨width, BitVec.allOnes width⟩

def bvExtract (expr : Term) (top bottom : ℕ) : Term := .bvExtract expr top bottom

def bvBoolExtract (expr : Term) (bit : ℕ) : Formula := .eq (bvExtract expr bit bit) (bvOne 1)

def eqExpr (a b : Term) : Formula := .eq a b

/-- Logical right shift. -/
def bvRightShift (expr : Term) (shift : ℕ) : Term :=
  let width := expr.getBVLength
  if shift = 0 then expr
  else if width ≤ shift then bvZero width
  else .bvConcat (bvZero shift) (bvExtract expr (width - 1) shift)

/-- Logical left shift. -/
def bvLeftShift (expr : Term) (shift : ℕ) : Term :=
  let width := expr.getBVLength
  if shift = 0 then expr
  else if width ≤ shift then bvZero width
  else .bvConcat (bvExtract expr (width - shift - 1) 0) (bvZero shift)

def constructAShrByConstant (expr : Term) (shift : ℕ) (isSigned : Formula) : Term :=
  let width := expr.getBVLength
  if shift = 0 then expr
  else if width ≤ shift then bvZero width
  else .ite isSigned (.bvConcat (bvMinusOne shift) (bvExtract expr (width - 1) shift))
    (bvRightShift expr shift)

/-- The number of bits of the amount that are looked at, `getActiveBits` of the width. -/
def shiftBits (width : ℕ) : ℕ := width.size

def extractPartialShiftValue (shift : Term) (width : ℕ) : Term :=
  .bvExtract shift (shiftBits width - 1) 0

/-- The loop of the three functions below: one case for each amount less than `count`, the smallest
outermost, around the result `res`. -/
def cascade (shiftExt : Term) (bits : ℕ) (case : ℕ → Term) (count : ℕ) (res : Term) : Term :=
  (List.range count).foldr
    (fun i res => .ite (eqExpr shiftExt (bvConst32 bits i)) (case i) res) res

/-- The end of the three functions: a shift by too much is zero. -/
def guardOvershift (shift : Term) (width : ℕ) (res : Term) : Term :=
  .ite (.bvLt shift (bvConst32 shift.getBVLength width)) res (bvZero width)

def bvVarLeftShift (expr shift : Term) : Term :=
  let width := expr.getBVLength
  guardOvershift shift width (cascade (extractPartialShiftValue shift width) (shiftBits width)
    (bvLeftShift expr) width (bvZero width))

def bvVarRightShift (expr shift : Term) : Term :=
  let width := expr.getBVLength
  guardOvershift shift width (cascade (extractPartialShiftValue shift width) (shiftBits width)
    (bvRightShift expr) width (bvZero width))

/-- The loop starts with the result of a shift by `width - 1`. -/
def bvVarArithRightShift (expr shift : Term) : Term :=
  let width := expr.getBVLength
  let signedBool := bvBoolExtract expr (width - 1)
  guardOvershift shift width (cascade (extractPartialShiftValue shift width) (shiftBits width)
    (fun i => constructAShrByConstant expr i signedBool) (width - 1)
    (constructAShrByConstant expr (width - 1) signedBool))

/-- The right operand of a shift: a constant, or an expression with its term. -/
inductive Amount
  | constant (value : APInt)
  | expr (term : Term)

/-- The terms of the shifts.  A constant amount is converted to an `unsigned`. -/
def constructShift (left : Term) : ShiftKind → Amount → Term
  | .shl, .constant c => bvLeftShift left (c.toNat % 2 ^ 32)
  | .shl, .expr amount => bvVarLeftShift left amount
  | .lShr, .constant c => bvRightShift left (c.toNat % 2 ^ 32)
  | .lShr, .expr amount => bvVarRightShift left amount
  | .aShr, .constant c =>
    constructAShrByConstant left (c.toNat % 2 ^ 32) (bvBoolExtract left (left.getBVLength - 1))
  | .aShr, .expr amount => bvVarArithRightShift left amount

/-- The cases `Shl`, `LShr` and `AShr` of `constructActual`, with `none` for the assertion that the
width is not one. -/
def constructActual (kind : ShiftKind) (left : Term) (right : Amount) : Option Term :=
  if left.getBVLength = 1 then none else some (constructShift left kind right)

/-! ### Shifts by a constant -/

section Value

variable {env : ℕ → (w : ℕ) → BitVec w} {w : ℕ} {x : BitVec w} {left : Term}

/-- A term of a width and with a value of that width. -/
structure HasValue (env : ℕ → (w : ℕ) → BitVec w) (t : Term) (x : BitVec w) : Prop where
  typed : t.Typed
  length_eq : t.getBVLength = w
  eval_eq : t.eval env = ⟨w, x⟩

namespace HasValue

variable {u v : ℕ} {y : BitVec u} {t : Term}

lemma bvConcat {r : Term} (h : HasValue env t x) (hr : HasValue env r y) :
    HasValue env (.bvConcat t r) (x ++ y) := by
  refine ⟨⟨h.typed, hr.typed⟩, ?_, ?_⟩
  · rw [Term.getBVLength, h.length_eq, hr.length_eq]
  · rw [Term.eval, h.eval_eq, hr.eval_eq]
    rfl

lemma bvExtract (h : HasValue env t x) (top bottom : ℕ) (hle : bottom ≤ top) (hlt : top < w) :
    HasValue env (bvExtract t top bottom) (x.extractLsb' bottom (top - bottom + 1)) := by
  refine ⟨⟨h.typed, hle, by rwa [h.length_eq]⟩, rfl, ?_⟩
  rw [STPBuilder.bvExtract, Term.eval, h.eval_eq]
  rfl

/-- The value is determined by its width and its bits. -/
lemma congr (h : HasValue env t x) (hw : w = u) (hbits : ∀ i < u, x.getLsbD i = y.getLsbD i) :
    HasValue env t y := by
  subst hw
  rwa [← eq_of_getLsbD_eq hbits]

lemma ite {c : Formula} {e : Term} {x y : BitVec w} (ht : HasValue env t x) (hc : c.Typed)
    (he : HasValue env e y) :
    HasValue env (.ite c t e) (if c.eval env = true then x else y) := by
  refine ⟨⟨hc, ht.typed, he.typed, ht.length_eq.trans he.length_eq.symm⟩, ht.length_eq, ?_⟩
  rw [Term.eval]
  split_ifs
  · exact ht.eval_eq
  · exact he.eval_eq

end HasValue

lemma hasValue_bvZero (w : ℕ) : HasValue env (bvZero w) 0#w := ⟨trivial, rfl, rfl⟩

lemma hasValue_bvMinusOne (w : ℕ) : HasValue env (bvMinusOne w) (BitVec.allOnes w) :=
  ⟨trivial, rfl, rfl⟩

theorem bvRightShift_hasValue (h : HasValue env left x) (n : ℕ) :
    HasValue env (bvRightShift left n) (x >>> n) := by
  rw [bvRightShift, h.length_eq]
  split_ifs with hzero hover
  · subst hzero
    rwa [ushiftRight_zero]
  · rw [ushiftRight_eq_zero hover]
    exact hasValue_bvZero w
  · refine ((hasValue_bvZero n).bvConcat (h.bvExtract _ _ (by omega) (by omega))).congr (by omega)
      fun i hi => ?_
    rw [getLsbD_append]
    by_cases hlow : i < w - 1 - n + 1
    · simp [hlow]
    · simp [hlow, getLsbD_of_ge x (n + i) (by omega)]

theorem bvLeftShift_hasValue (h : HasValue env left x) (n : ℕ) :
    HasValue env (bvLeftShift left n) (x <<< n) := by
  rw [bvLeftShift, h.length_eq]
  split_ifs with hzero hover
  · subst hzero
    rwa [shiftLeft_zero]
  · rw [shiftLeft_eq_zero hover]
    exact hasValue_bvZero w
  · refine ((h.bvExtract _ _ (by omega) (by omega)).bvConcat (hasValue_bvZero n)).congr (by omega)
      fun i hi => ?_
    rw [getLsbD_append, getLsbD_shiftLeft]
    by_cases hlow : i < n
    · simp [hlow]
    · have hhigh : i - n < w - n - 1 + 1 := by omega
      simp [hlow, hi, hhigh]

/-- The sign of a number. -/
lemma bvBoolExtract_eval (h : HasValue env left x) (hw : 0 < w) :
    (bvBoolExtract left (w - 1)).eval env = x.msb := by
  have hbit := (h.bvExtract (w - 1) (w - 1) le_rfl (by omega)).eval_eq
  rw [bvBoolExtract, Formula.eval, hbit, bvOne, Term.eval, APInt.ofNat, Bool.eq_iff_iff,
    decide_eq_true_iff, Nat.sub_self, APInt.mk.injEq, msb_eq_getLsbD_last]
  simp only [zero_add, heq_eq_eq, true_and]
  constructor
  · intro heq
    have hget := congrArg (BitVec.getLsbD · 0) heq
    simpa using hget
  · intro hsign
    apply eq_of_getLsbD_eq
    intro i hi
    obtain rfl : i = 0 := by omega
    simpa using hsign

lemma bvBoolExtract_typed (h : HasValue env left x) (hw : 0 < w) :
    (bvBoolExtract left (w - 1)).Typed := by
  refine ⟨(h.bvExtract (w - 1) (w - 1) le_rfl (by omega)).typed, trivial, ?_⟩
  simp [bvExtract, bvOne, Term.getBVLength]

/-- An arithmetic shift by too much is zero. -/
theorem constructAShrByConstant_hasValue (h : HasValue env left x) (hw : 0 < w) (n : ℕ) :
    HasValue env (constructAShrByConstant left n (bvBoolExtract left (w - 1)))
      (if n < w then x.sshiftRight n else 0#w) := by
  rw [constructAShrByConstant, h.length_eq]
  split_ifs with hzero hlt hover hlt hlt
  · subst hzero
    rwa [sshiftRight_zero]
  · omega
  · omega
  · exact hasValue_bvZero w
  · have hones := (hasValue_bvMinusOne n).bvConcat (h.bvExtract (w - 1) n (by omega) (by omega))
    have hsigned := hones.congr (y := BitVec.setWidth w _) (by omega)
      fun i hi => (by rw [getLsbD_setWidth, decide_eq_true hi, Bool.true_and])
    refine ((hsigned.ite (bvBoolExtract_typed h hw) (bvRightShift_hasValue h n)).congr rfl) ?_
    intro i hi
    rw [bvBoolExtract_eval h hw]
    cases hmsb : x.msb with
    | false => simp [sshiftRight_eq_of_msb_false hmsb]
    | true =>
      rw [if_pos rfl, getLsbD_setWidth, getLsbD_append, getLsbD_sshiftRight]
      by_cases hlow : i < w - 1 - n + 1
      · have hlow' : n + i < w := by omega
        simp [hi, hlow, hlow']
      · have hhigh : ¬ n + i < w := by omega
        have hone : i - (w - 1 - n + 1) < n := by omega
        simp [hi, hlow, hhigh, hone, hmsb]
  · omega

/-! ### Shifts by another amount -/

variable {n : BitVec w} {amount : Term}

/-- The cascade selects the case of the amount. -/
lemma cascade_hasValue {bits : ℕ} {m : BitVec bits} {shiftExt : Term} {case : ℕ → Term}
    {f : ℕ → BitVec w} (hm : HasValue env shiftExt m) : ∀ (count : ℕ) {res : Term} {y : BitVec w},
    count ≤ 2 ^ bits → (∀ i < count, HasValue env (case i) (f i)) → HasValue env res y →
    HasValue env (cascade shiftExt bits case count res) (if m.toNat < count then f m.toNat else y)
  | 0, res, y, _, _, hres => by
    rw [cascade, List.range_zero, List.foldr_nil, if_neg (Nat.not_lt_zero _)]
    exact hres
  | count + 1, res, y, hle, hcase, hres => by
    have htyped : (eqExpr shiftExt (bvConst32 bits count)).Typed :=
      ⟨hm.typed, trivial, hm.length_eq⟩
    have hite := (hcase count (Nat.lt_succ_self _)).ite htyped hres
    have hrec := cascade_hasValue hm count (by omega)
      (fun i hi => hcase i (Nat.lt_succ_of_lt hi)) hite
    have heval : (eqExpr shiftExt (bvConst32 bits count)).eval env = true ↔ m.toNat = count := by
      rw [eqExpr, Formula.eval, hm.eval_eq, bvConst32, Term.eval, APInt.ofNat, decide_eq_true_iff,
        APInt.mk.injEq]
      simp only [heq_eq_eq, true_and]
      rw [toNat_eq, toNat_ofNat, Nat.mod_eq_of_lt (by omega)]
    rw [cascade, List.range_succ, List.foldr_append]
    refine hrec.congr rfl fun i _ => ?_
    simp only [heval]
    split_ifs <;> first | omega | simp_all

/-- The bits of the amount that are looked at. -/
lemma shiftBits_le (w : ℕ) : shiftBits w ≤ w := Nat.size_le.mpr Nat.lt_two_pow_self

/-- The bits of the amount that are looked at give the amount if it is less than the width. -/
lemma extractPartialShiftValue_hasValue {u : ℕ} {n : BitVec u} (h : HasValue env amount n)
    (hw : 2 ≤ w) (hu : shiftBits w ≤ u) :
    HasValue env (extractPartialShiftValue amount w) (n.setWidth (shiftBits w)) := by
  have hpos : 0 < shiftBits w := Nat.size_pos.mpr (by omega)
  refine (h.bvExtract (shiftBits w - 1) 0 (Nat.zero_le _) (by omega)).congr (by omega)
    fun i hi => ?_
  have hi' : i < shiftBits w - 1 + 1 := by omega
  simp [hi, hi']

/-- The amount is compared with the width. -/
lemma guardOvershift_hasValue {u : ℕ} {n : BitVec u} (h : HasValue env amount n) (hu : w < 2 ^ u)
    {res : Term} {y : BitVec w} (hres : HasValue env res y) :
    HasValue env (guardOvershift amount w res) (if n.toNat < w then y else 0#w) := by
  have htyped : (Formula.bvLt amount (bvConst32 amount.getBVLength w)).Typed :=
    ⟨h.typed, trivial, rfl⟩
  refine (hres.ite htyped (hasValue_bvZero w)).congr rfl fun i _ => ?_
  have heval : (Formula.bvLt amount (bvConst32 amount.getBVLength w)).eval env = true ↔
      n.toNat < w := by
    rw [Formula.eval, h.eval_eq, h.length_eq, bvConst32, Term.eval, decide_eq_true_iff, APInt.toNat,
      APInt.toNat, APInt.ofNat, toNat_ofNat, Nat.mod_eq_of_lt hu]
  simp only [heval]

/-- The value of a variable shift by less than the width. -/
lemma guard_cascade_hasValue {u : ℕ} {n : BitVec u} (h : HasValue env amount n) (hw : 2 ≤ w)
    (hu : shiftBits w ≤ u) {case : ℕ → Term} {f : ℕ → BitVec w} {count : ℕ} {res : Term}
    {y : BitVec w} (hcount : count ≤ w)
    (hcase : ∀ i < count, HasValue env (case i) (f i)) (hres : HasValue env res y)
    (hy : n.toNat < w → ¬ n.toNat < count → y = f n.toNat) :
    HasValue env (guardOvershift amount w (cascade (extractPartialShiftValue amount w) (shiftBits w)
      case count res)) (if n.toNat < w then f n.toNat else 0#w) := by
  have hlt : w < 2 ^ shiftBits w := Nat.lt_size_self w
  have hwu : w < 2 ^ u := hlt.trans_le (Nat.pow_le_pow_right (by norm_num) hu)
  have hcascade := cascade_hasValue (extractPartialShiftValue_hasValue h hw hu) count (by omega)
    hcase hres
  refine (guardOvershift_hasValue h hwu hcascade).congr rfl fun i _ => ?_
  split
  · next hn =>
    rw [toNat_setWidth, Nat.mod_eq_of_lt (by omega)]
    split
    · rfl
    · next hcount => rw [hy hn hcount]
  · rfl

/-- A logical shift to the right, whatever the width of the amount. -/
lemma bvVarRightShift_hasValue {u : ℕ} {n : BitVec u} (hleft : HasValue env left x)
    (hamount : HasValue env amount n) (hw : 2 ≤ w) (hu : shiftBits w ≤ u) :
    HasValue env (bvVarRightShift left amount) (if n.toNat < w then x >>> n.toNat else 0#w) := by
  rw [bvVarRightShift, hleft.length_eq]
  exact guard_cascade_hasValue hamount hw hu le_rfl (fun i _ => bvRightShift_hasValue hleft i)
    (hasValue_bvZero w) fun hn hnot => absurd hn hnot

/-- A shift by an expression is right, and zero if it is by the width or more. -/
theorem constructActual_expr (kind : ShiftKind) (hleft : HasValue env left x)
    (hamount : HasValue env amount n) (hw : 2 ≤ w) :
    ∃ t, constructActual kind left (.expr amount) = some t ∧
      HasValue env t (if n.toNat < w then kind.shiftBy x n.toNat else 0#w) := by
  rw [constructActual, if_neg (by rw [hleft.length_eq]; omega)]
  refine ⟨_, rfl, ?_⟩
  cases kind with
  | shl =>
    simp only [constructShift, bvVarLeftShift, hleft.length_eq]
    exact guard_cascade_hasValue hamount hw (shiftBits_le w) le_rfl
      (fun i _ => bvLeftShift_hasValue hleft i) (hasValue_bvZero w) fun hn hnot => absurd hn hnot
  | lShr => exact bvVarRightShift_hasValue hleft hamount hw (shiftBits_le w)
  | aShr =>
    simp only [constructShift, bvVarArithRightShift, hleft.length_eq]
    have hcase : ∀ i < w, HasValue env
        (constructAShrByConstant left i (bvBoolExtract left (w - 1))) (x.sshiftRight i) := by
      intro i hi
      have h := constructAShrByConstant_hasValue hleft (by omega) i
      rwa [if_pos hi] at h
    refine guard_cascade_hasValue hamount hw (shiftBits_le w) (Nat.sub_le w 1)
      (fun i hi => hcase i (by omega)) (hcase (w - 1) (by omega)) fun hn hnot => ?_
    -- only the shift by `width - 1` has no case of its own
    have hlast : n.toNat = w - 1 := by omega
    rw [hlast]
    rfl

/-- A shift by a constant is by its low 32 bits. -/
theorem constructActual_constant (kind : ShiftKind) (hleft : HasValue env left x) (hw : 2 ≤ w) :
    ∃ t, constructActual kind left (.constant ⟨w, n⟩) = some t ∧
      HasValue env t (if n.toNat % 2 ^ 32 < w then kind.shiftBy x (n.toNat % 2 ^ 32) else 0#w) := by
  rw [constructActual, if_neg (by rw [hleft.length_eq]; omega)]
  refine ⟨_, rfl, ?_⟩
  have hover : ∀ m, ¬ m < w → x <<< m = 0#w ∧ x >>> m = 0#w := fun m hm =>
    ⟨shiftLeft_eq_zero (not_lt.mp hm), ushiftRight_eq_zero (not_lt.mp hm)⟩
  cases kind with
  | shl =>
    refine (bvLeftShift_hasValue hleft _).congr rfl fun i _ => ?_
    split
    · rfl
    · next h => rw [APInt.toNat, (hover _ h).1]
  | lShr =>
    refine (bvRightShift_hasValue hleft _).congr rfl fun i _ => ?_
    split
    · rfl
    · next h => rw [APInt.toNat, (hover _ h).2]
  | aShr =>
    simp only [constructShift, hleft.length_eq]
    exact constructAShrByConstant_hasValue hleft (by omega) _

end Value

/-! ### Agreement -/

/-- The two terms and the constant folder agree on a shift. -/
def ShiftsAgree {w : ℕ} (overshift : BitVec w → BitVec w) (kind : ShiftKind) (x n : BitVec w)
    (env : ℕ → (w : ℕ) → BitVec w) (left amount : Term) : Prop :=
  ∃ byConstant byExpr, constructActual kind left (.constant ⟨w, n⟩) = some byConstant ∧
    constructActual kind left (.expr amount) = some byExpr ∧
    byConstant.eval env = ⟨w, kind.constant overshift x n⟩ ∧
    byExpr.eval env = ⟨w, kind.constant overshift x n⟩

/-- The shifts agree if and only if the amount is less than the width, or the low 32 bits of the
amount shift everything out and the constant folder returns zero too. -/
theorem shift_agree_iff {w : ℕ} (hw : 2 ≤ w) (hw64 : w ≤ 64) (overshift : BitVec w → BitVec w)
    (kind : ShiftKind) (x n : BitVec w) (env : ℕ → (w : ℕ) → BitVec w) (left amount : Term)
    (hleft : HasValue env left x) (hamount : HasValue env amount n) :
    ShiftsAgree overshift kind x n env left amount ↔ n.toNat < w ∨
        (w ≤ n.toNat % 2 ^ 32 ∨ kind.shiftBy x (n.toNat % 2 ^ 32) = 0#w) ∧
          (kind = .aShr → overshift x = 0#w) := by
  obtain ⟨byConstant, hconstant, hcv⟩ := constructActual_constant (n := n) kind hleft hw
  obtain ⟨byExpr, hexpr, hev⟩ := constructActual_expr kind hleft hamount hw
  have hagree : ShiftsAgree overshift kind x n env left amount ↔
      (if n.toNat % 2 ^ 32 < w then kind.shiftBy x (n.toNat % 2 ^ 32) else 0#w) =
          kind.constant overshift x n ∧
        (if n.toNat < w then kind.shiftBy x n.toNat else 0#w) = kind.constant overshift x n := by
    rw [ShiftsAgree, hconstant, hexpr]
    constructor
    · rintro ⟨_, _, ⟨⟩, ⟨⟩, hc, he⟩
      rw [hcv.eval_eq, APInt.mk.injEq] at hc
      rw [hev.eval_eq, APInt.mk.injEq] at he
      exact ⟨eq_of_heq hc.2, eq_of_heq he.2⟩
    · rintro ⟨hc, he⟩
      exact ⟨_, _, rfl, rfl, by rw [hcv.eval_eq, hc], by rw [hev.eval_eq, he]⟩
  rw [hagree]
  by_cases hn : n.toNat < w
  · have hmod : n.toNat % 2 ^ 32 = n.toNat := Nat.mod_eq_of_lt (by omega)
    have hfold : kind.constant overshift x n = kind.shiftBy x n.toNat := by
      cases kind with
      | shl => rfl
      | lShr => rfl
      | aShr => exact if_pos hn
    rw [hmod, if_pos hn, hfold]
    simp [hn]
  · have hfold : kind.constant overshift x n = 0#w ↔ (kind = .aShr → overshift x = 0#w) := by
      cases kind with
      | shl => exact iff_of_true (shiftLeft_eq_zero (not_lt.mp hn)) (by simp)
      | lShr => exact iff_of_true (ushiftRight_eq_zero (not_lt.mp hn)) (by simp)
      | aShr => simp [ShiftKind.constant, hn]
    have hover : (if n.toNat % 2 ^ 32 < w then kind.shiftBy x (n.toNat % 2 ^ 32) else 0#w) = 0#w ↔
        w ≤ n.toNat % 2 ^ 32 ∨ kind.shiftBy x (n.toNat % 2 ^ 32) = 0#w := by
      split
      · next h => rw [or_iff_right (not_le.mpr h)]
      · next h => exact iff_of_true rfl (Or.inl (not_lt.mp h))
    rw [if_neg hn, or_iff_right hn, ← hover, ← hfold]
    constructor
    · rintro ⟨hc, he⟩
      exact ⟨hc.trans he.symm, he.symm⟩
    · rintro ⟨hc, he⟩
      exact ⟨hc.trans he.symm, he.symm⟩

lemma hasValue_bvConst {w : ℕ} (x : BitVec w) (env : ℕ → (w : ℕ) → BitVec w) :
    HasValue env (.bvConst ⟨w, x⟩) x := ⟨trivial, rfl, rfl⟩

theorem shift_agree_byte : ShiftsAgree (fun _ => 0) .aShr 200#8 3#8 (fun _ _ => 0)
    (.bvConst ⟨8, 200#8⟩) (.bvConst ⟨8, 3#8⟩) :=
  (shift_agree_iff (by decide) (by decide) _ _ _ _ _ _ _ (hasValue_bvConst 200#8 _)
    (hasValue_bvConst 3#8 _)).mpr (Or.inl (by decide))

/-- A shift to the left by the constant `2 ^ 32` does nothing, while a shift by an expression with
that value and the constant folder return zero; an arithmetic shift of a negative byte by 8 is zero
in both terms, and not in a constant folder that fills in the sign. -/
theorem shifts_disagree :
    ¬ ShiftsAgree (fun _ => 0) .shl 1#64 (BitVec.ofNat 64 (2 ^ 32)) (fun _ _ => 0)
      (.bvConst ⟨64, 1#64⟩) (.bvConst ⟨64, BitVec.ofNat 64 (2 ^ 32)⟩) ∧
    ¬ ShiftsAgree (fun x => if x.msb then BitVec.allOnes 8 else 0) .aShr 200#8 8#8 (fun _ _ => 0)
      (.bvConst ⟨8, 200#8⟩) (.bvConst ⟨8, 8#8⟩) := by
  constructor
  · rintro ⟨_, _, ⟨⟩, -, h, -⟩
    have hzero : 1#64 <<< BitVec.ofNat 64 (2 ^ 32) = 0#64 :=
      shiftLeft_eq_zero (by decide)
    rw [ShiftKind.constant, hzero] at h
    revert h
    decide +kernel
  · rintro ⟨_, _, ⟨⟩, -, h, -⟩
    revert h
    decide +kernel

end STPBuilder

end Castan
