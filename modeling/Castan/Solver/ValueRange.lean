/-
# Ranges of values

`ValueRange` of `FastCexSolver.cpp` is an interval of 64-bit numbers, empty if its bounds are in
the wrong order.  `ExprRangeEvaluator` computes the range of an expression from the ranges of its
kids.  Functions that end in a failed assertion, an undefined shift or a loop without end return
`none`.
-/
import Castan.Expr.Evaluator

namespace Castan

/-- `bits64::maxValueOfNBits` -/
def maxValueOfNBits (n : ℕ) : BitVec 64 := if n = 0 then 0 else BitVec.allOnes 64 >>> (64 - n)

lemma toNat_maxValueOfNBits {n : ℕ} (hn : n ≤ 64) : (maxValueOfNBits n).toNat = 2 ^ n - 1 := by
  interval_cases n <;> rfl

structure ValueRange where
  min : BitVec 64
  max : BitVec 64
deriving DecidableEq, Repr

namespace ValueRange

/-! ### Bounds of bitwise operations

The loops go from bit 63 to bit 0; the argument is the number of bits that remain. -/

def minOR : ℕ → (a b c d : BitVec 64) → BitVec 64
  | 0, a, _, c, _ => a ||| c
  | k + 1, a, b, c, d =>
    let m : BitVec 64 := 1 <<< k
    if ~~~a &&& c &&& m ≠ 0 then
      let temp := (a ||| m) &&& -m
      if temp ≤ b then temp ||| c else minOR k a b c d
    else if a &&& ~~~c &&& m ≠ 0 then
      let temp := (c ||| m) &&& -m
      if temp ≤ d then a ||| temp else minOR k a b c d
    else minOR k a b c d

def maxOR : ℕ → (a b c d : BitVec 64) → BitVec 64
  | 0, _, b, _, d => b ||| d
  | k + 1, a, b, c, d =>
    let m : BitVec 64 := 1 <<< k
    if b &&& d &&& m ≠ 0 then
      let temp := (b - m) ||| (m - 1)
      if a ≤ temp then temp ||| d
      else
        let temp := (d - m) ||| (m - 1)
        if c ≤ temp then b ||| temp else maxOR k a b c d
    else maxOR k a b c d

def minAND : ℕ → (a b c d : BitVec 64) → BitVec 64
  | 0, a, _, c, _ => a &&& c
  | k + 1, a, b, c, d =>
    let m : BitVec 64 := 1 <<< k
    if ~~~a &&& ~~~c &&& m ≠ 0 then
      let temp := (a ||| m) &&& -m
      if temp ≤ b then temp &&& c
      else
        let temp := (c ||| m) &&& -m
        if temp ≤ d then a &&& temp else minAND k a b c d
    else minAND k a b c d

def maxAND : ℕ → (a b c d : BitVec 64) → BitVec 64
  | 0, _, b, _, d => b &&& d
  | k + 1, a, b, c, d =>
    let m : BitVec 64 := 1 <<< k
    if b &&& ~~~d &&& m ≠ 0 then
      let temp := (b &&& ~~~m) ||| (m - 1)
      if a ≤ temp then temp &&& d else maxAND k a b c d
    else if ~~~b &&& d &&& m ≠ 0 then
      let temp := (d &&& ~~~m) ||| (m - 1)
      if c ≤ temp then b &&& temp else maxAND k a b c d
    else maxAND k a b c d

/-! ### Ranges -/

/-- `ValueRange(uint64_t)` -/
def fixed (value : BitVec 64) : ValueRange := ⟨value, value⟩

/-- `ValueRange()` -/
def empty : ValueRange := ⟨1, 0⟩

/-- `ValueRange(const ref<ConstantExpr> &)` with `getLimitedValue`. -/
def ofConstant (c : APInt) : ValueRange := fixed (BitVec.ofNat 64 (Nat.min c.toNat (2 ^ 64 - 1)))

/-- All numbers of a width. -/
def full (width : ℕ) : ValueRange := ⟨0, maxValueOfNBits width⟩

variable (r b : ValueRange)

def isEmpty : Bool := r.max < r.min

def isFixed : Bool := r.min = r.max

def isFullRange (bits : ℕ) : Bool := r.min = 0 && r.max = maxValueOfNBits bits

def setIntersection : ValueRange :=
  ⟨if r.min ≤ b.min then b.min else r.min, if r.max ≤ b.max then r.max else b.max⟩

def setUnion : ValueRange :=
  ⟨if r.min ≤ b.min then r.min else b.min, if r.max ≤ b.max then b.max else r.max⟩

def intersects : Bool := !(r.setIntersection b).isEmpty

def mustEqual : Bool := r.isFixed && b.isFixed && r.min = b.min

def mayEqual : Bool := r.intersects b

/-- `min()`, which asserts that the range is not empty. -/
def getMin : Option (BitVec 64) := if r.isEmpty then none else some r.min

/-- `max()` -/
def getMax : Option (BitVec 64) := if r.isEmpty then none else some r.max

def binaryAnd : Option ValueRange :=
  if r.isEmpty || b.isEmpty then none
  else if r.isFixed && b.isFixed then some (fixed (r.min &&& b.min))
  else some ⟨minAND 64 r.min r.max b.min b.max, maxAND 64 r.min r.max b.min b.max⟩

def binaryOr : Option ValueRange :=
  if r.isEmpty || b.isEmpty then none
  else if r.isFixed && b.isFixed then some (fixed (r.min ||| b.min))
  else some ⟨minOR 64 r.min r.max b.min b.max, maxOR 64 r.min r.max b.min b.max⟩

lemma toNat_and_pred {t : BitVec 64} (h : t ≠ 0) :
    (t &&& (t - 1)).toNat = t.toNat &&& (t.toNat - 1) := by
  have hpos : t.toNat ≠ 0 := fun hzero => h (BitVec.toNat_inj.1 hzero)
  have hle : 1#64 ≤ t := BitVec.le_def.2 (Nat.one_le_iff_ne_zero.2 hpos)
  rw [BitVec.toNat_and]
  exact congrArg _ (BitVec.toNat_sub_of_le hle)

/-- The loop of `binaryXor`, which does not end for zero; every round clears a bit. -/
def withoutLowerBits (t : BitVec 64) : Option (BitVec 64) :=
  if h : t = 0 then none
  else if t &&& (t - 1) = 0 then some t
  else withoutLowerBits (t &&& (t - 1))
termination_by t.toNat
decreasing_by
  rw [toNat_and_pred h]
  have hpos : t.toNat ≠ 0 := fun hzero => h (BitVec.toNat_inj.1 hzero)
  exact Nat.and_le_right.trans_lt (Nat.sub_one_lt hpos)

def binaryXor : Option ValueRange :=
  if r.isFixed && b.isFixed then some (fixed (r.min ^^^ b.min))
  else (withoutLowerBits (r.max ||| b.max)).map fun t : BitVec 64 => ⟨0, (t <<< 1) - 1⟩

def binaryShiftLeft (bits : ℕ) : ValueRange := ⟨r.min <<< bits, r.max <<< bits⟩

def concat (bits : ℕ) : Option ValueRange := (r.binaryShiftLeft bits).binaryOr b

/-- The assertion of `minSigned` and `maxSigned`; the shift by 64 bits is undefined. -/
def fitsBits (bits : ℕ) : Bool := bits < 64 && r.min >>> bits = 0 && r.max >>> bits = 0

/-- `1 << (bits - 1)` -/
def smallest (bits : ℕ) : BitVec 64 := 1 <<< (bits - 1)

/-- `ints::sext(value, 64, bits)` -/
def sext (value : BitVec 64) (bits : ℕ) : BitVec 64 := (value.setWidth bits).signExtend 64

def minSigned (bits : ℕ) : Option (BitVec 64) :=
  if r.fitsBits bits = false then none
  else if smallest bits ≤ r.max then some (sext (smallest bits) bits) else some r.min

def maxSigned (bits : ℕ) : Option (BitVec 64) :=
  if r.fitsBits bits = false then none
  else if r.min < smallest bits ∧ smallest bits ≤ r.max then some (smallest bits - 1)
  else some (sext r.max bits)

end ValueRange

/-! ### The range of an expression -/

/-- `CexRangeEvaluator::getInitialReadRange`: only a concrete read of a constant array is known. -/
def CexRangeEvaluator.getInitialReadRange (array : KArray) (index : ValueRange) : ValueRange :=
  match array.constantValues[index.min.toNat]? with
  | some c =>
    if index.isFixed && index.min.toNat < array.size then .ofConstant c else ⟨0, 255⟩
  | none => ⟨0, 255⟩

namespace ExprRangeEvaluator

open ValueRange

/-- A comparison that holds for all values, for none of them or for some. -/
def comparison (must mustNot : Bool) : ValueRange :=
  if must then fixed 1 else if mustNot then fixed 0 else full 1

-- the range of the initial values of an array at a range of indices, which the subclass gives
variable (getInitialReadRange : KArray → ValueRange → ValueRange)

mutual

/-- `ExprRangeEvaluator::evaluate` -/
def evaluate : Expr → Option ValueRange
  | .const c => some (ofConstant c)
  | .notOptimized src => some (full src.width)
  | .read root head index => do
    let i ← evaluate index
    evalRead root head ValueRange.empty i
  | .select c t f => do
    let cond ← evaluate c
    if cond.mustEqual (fixed 1) then evaluate t
    else if cond.mustEqual (fixed 0) then evaluate f
    else return (← evaluate t).setUnion (← evaluate f)
  | .concat l r => do
    -- every kid is taken for a byte
    let res ← (fixed 0).concat (← evaluate l) 8
    res.concat (← evaluate r) 8
  | .extract _ _ w => some (full w)
  | .zExt _ w => some (full w)
  | .sExt _ w => some (full w)
  | .not e => some (full e.width)
  | .bin k l r =>
    match k with
    | .add | .sub | .mul | .uDiv | .sDiv | .uRem | .sRem => do
      let _ ← evaluate l
      let _ ← evaluate r
      return full l.width
    | .and => do (← evaluate l).binaryAnd (← evaluate r)
    | .or => do (← evaluate l).binaryOr (← evaluate r)
    | .xor => do (← evaluate l).binaryXor (← evaluate r)
    | .shl | .lShr | .aShr => some (full l.width)
    | .eq => do
      let left ← evaluate l
      let right ← evaluate r
      return comparison (left.mustEqual right) (!left.mayEqual right)
    | .ult => do
      let left ← evaluate l
      let right ← evaluate r
      return comparison ((← left.getMax) < (← right.getMin)) ((← right.getMax) ≤ (← left.getMin))
    | .ule => do
      let left ← evaluate l
      let right ← evaluate r
      return comparison ((← left.getMax) ≤ (← right.getMin)) ((← right.getMax) < (← left.getMin))
    | .slt => do
      let left ← evaluate l
      let right ← evaluate r
      return comparison ((← left.maxSigned l.width).slt (← right.minSigned l.width))
        ((← right.maxSigned l.width).sle (← left.minSigned l.width))
    | .sle => do
      let left ← evaluate l
      let right ← evaluate r
      return comparison ((← left.maxSigned l.width).sle (← right.minSigned l.width))
        ((← right.maxSigned l.width).slt (← left.minSigned l.width))
    | .ne | .ugt | .uge | .sgt | .sge => none

/-- `ExprRangeEvaluator::evalRead` from the update `un` on, with the union of the values so far. -/
def evalRead (root : KArray) : (un : UpdateNode) → (res index : ValueRange) → Option ValueRange
  | .null, res, index => some (res.setUnion (getInitialReadRange root index))
  | .node next i value, res, index => do
    let ui ← evaluate i
    if ui.mustEqual index then return res.setUnion (← evaluate value)
    else if ui.mayEqual index then
      let res := res.setUnion (← evaluate value)
      if res.isFullRange 8 then return res else evalRead root next res index
    else evalRead root next res index

end

end ExprRangeEvaluator

end Castan
