/-
# Arbitrary-precision constants

The constants of the expression language are LLVM's `APInt`s: a width and that many bits.
`BinKind` lists the binary kinds of `Expr::Kind`, and `BinKind.fold` is the family
`ConstantExpr::Add`, ..., `ConstantExpr::Sge` of constant operations; the same operations
give the binary expressions their meaning.
-/
import Mathlib

namespace Castan

/-- LLVM's `APInt`: a value together with its bit width. -/
structure APInt where
  /-- The number of bits. -/
  width : ℕ
  /-- The bits. -/
  bits : BitVec width
deriving DecidableEq, Repr

namespace APInt

/-- The constructor `APInt(w, v)`, which keeps the low `w` bits of `v`. -/
def ofNat (w v : ℕ) : APInt := ⟨w, BitVec.ofNat w v⟩

/-- `getZExtValue`: the unsigned value. -/
def toNat (a : APInt) : ℕ := a.bits.toNat

/-- The Boolean constants, `ConstantExpr::alloc(b, Expr::Bool)`. -/
def bool (b : Bool) : APInt := ⟨1, BitVec.ofBool b⟩

/-- `ConstantExpr::isZero`. -/
def isZero (a : APInt) : Bool := a.bits == 0#a.width

/-- `ConstantExpr::isOne`. -/
def isOne (a : APInt) : Bool := a.toNat == 1

/-- `ConstantExpr::isTrue`. -/
def isTrue (a : APInt) : Bool := a.width == 1 && a.toNat != 0

/-- `ConstantExpr::isFalse`. -/
def isFalse (a : APInt) : Bool := a.width == 1 && a.toNat == 0

/-- `ConstantExpr::isAllOnes`. -/
def isAllOnes (a : APInt) : Bool := a.bits == BitVec.allOnes a.width

/-- `ConstantExpr::Concat`: the receiver provides the high bits. -/
def concat (a b : APInt) : APInt := ⟨a.width + b.width, a.bits ++ b.bits⟩

/-- The bits `off, ..., off + w - 1`. -/
def extract (a : APInt) (off w : ℕ) : APInt := ⟨w, a.bits.extractLsb' off w⟩

/-- `ConstantExpr::Extract`, which shifts arithmetically before it truncates. -/
def extractFold (a : APInt) (off w : ℕ) : APInt := ⟨w, (a.bits.sshiftRight off).setWidth w⟩

/-- `ConstantExpr::ZExt`, that is `zextOrTrunc`. -/
def zExt (a : APInt) (w : ℕ) : APInt := ⟨w, a.bits.setWidth w⟩

/-- `ConstantExpr::SExt`, that is `sextOrTrunc`. -/
def sExt (a : APInt) (w : ℕ) : APInt := ⟨w, a.bits.signExtend w⟩

/-- `ConstantExpr::Not`. -/
def not (a : APInt) : APInt := ⟨a.width, ~~~a.bits⟩

end APInt

/-- `APInt::ashr` by the width or more, on which the versions of LLVM differ. -/
class Overshift where
  ashr : {w : ℕ} → BitVec w → BitVec w

/-- The overshift that fills in the sign, which is meant where no other one is named. -/
instance signFill : Overshift := ⟨fun {w} x => x.sshiftRight w⟩

/-- The binary kinds of `Expr::Kind`, from `BinaryKindFirst` to `BinaryKindLast`. -/
inductive BinKind
  | add | sub | mul | uDiv | sDiv | uRem | sRem
  | and | or | xor | shl | lShr | aShr
  | eq | ne | ult | ule | ugt | uge | slt | sle | sgt | sge
deriving DecidableEq, Repr

namespace BinKind

variable [Overshift]

/-- The kinds between `CmpKindFirst` and `CmpKindLast`, whose value is a Boolean. -/
def isCmp : BinKind → Bool
  | eq | ne | ult | ule | ugt | uge | slt | sle | sgt | sge => true
  | _ => false

/-- The operation of a binary kind on operands of one width.  Shifts to the left and logical shifts
by at least the width give zero, arithmetic ones what `Overshift` says.  A zero divisor has no
meaning in the source (`APInt` asserts on it); the value given to it here is the one the Boolean
shortcuts `UDivExpr_create` etc. return. -/
def op {w : ℕ} : BinKind → BitVec w → BitVec w → APInt
  | add, x, y => ⟨w, x + y⟩
  | sub, x, y => ⟨w, x - y⟩
  | mul, x, y => ⟨w, x * y⟩
  | uDiv, x, y => ⟨w, if y = 0 then x else x / y⟩
  | sDiv, x, y => ⟨w, if y = 0 then x else x.sdiv y⟩
  | uRem, x, y => ⟨w, if y = 0 then 0 else x % y⟩
  | sRem, x, y => ⟨w, if y = 0 then 0 else x.srem y⟩
  | and, x, y => ⟨w, x &&& y⟩
  | or, x, y => ⟨w, x ||| y⟩
  | xor, x, y => ⟨w, x ^^^ y⟩
  | shl, x, y => ⟨w, x <<< y⟩
  | lShr, x, y => ⟨w, x >>> y⟩
  | aShr, x, y => ⟨w, if y.toNat < w then x.sshiftRight' y else Overshift.ashr x⟩
  | eq, x, y => .bool (x == y)
  | ne, x, y => .bool (x != y)
  | ult, x, y => .bool (x.ult y)
  | ule, x, y => .bool (x.ule y)
  | ugt, x, y => .bool (y.ult x)
  | uge, x, y => .bool (y.ule x)
  | slt, x, y => .bool (x.slt y)
  | sle, x, y => .bool (x.sle y)
  | sgt, x, y => .bool (y.slt x)
  | sge, x, y => .bool (y.sle x)

/-- The constant operations `ConstantExpr::Add`, ..., `ConstantExpr::Sge`.  Both operands
have one width in the source; the second is brought to the width of the first. -/
def fold (k : BinKind) (a b : APInt) : APInt := k.op a.bits (b.bits.setWidth a.width)

@[simp] lemma fold_mk (k : BinKind) {w : ℕ} (x y : BitVec w) :
    k.fold ⟨w, x⟩ ⟨w, y⟩ = k.op x y := by
  simp [fold]

lemma op_width (k : BinKind) {w : ℕ} (x y : BitVec w) :
    (k.op x y).width = if k.isCmp then 1 else w := by
  cases k <;> rfl

lemma fold_width (k : BinKind) (a b : APInt) :
    (k.fold a b).width = if k.isCmp then 1 else a.width :=
  op_width k _ _

end BinKind

namespace APInt

@[simp] lemma bool_width (b : Bool) : (bool b).width = 1 := rfl

@[simp] lemma ofNat_width (w v : ℕ) : (ofNat w v).width = w := rfl

@[simp] lemma bool_inj {a b : Bool} : bool a = bool b ↔ a = b := by
  cases a <;> cases b <;> simp [bool]

lemma bool_decide_congr {p q : Prop} [Decidable p] [Decidable q] (h : p ↔ q) :
    bool (decide p) = bool (decide q) := by
  rw [bool_inj, decide_eq_decide]
  exact h

@[simp] lemma isTrue_bool (b : Bool) : (bool b).isTrue = b := by
  cases b <;> decide

@[simp] lemma isFalse_bool (b : Bool) : (bool b).isFalse = !b := by
  cases b <;> decide

lemma toNat_lt (a : APInt) : a.toNat < 2 ^ a.width := a.bits.isLt

/-- A value of width one is a Boolean constant. -/
lemma eq_bool_of_width {a : APInt} (h : a.width = 1) : a = bool a.isTrue := by
  obtain ⟨w, x⟩ := a
  simp only at h
  subst h
  revert x
  decide

lemma isTrue_iff {a : APInt} : a.isTrue = true ↔ a = bool true := by
  constructor
  · intro h
    have hw : a.width = 1 := by simp [isTrue] at h; exact h.1
    rw [eq_bool_of_width hw, h]
  · rintro rfl
    simp

lemma isFalse_iff {a : APInt} : a.isFalse = true ↔ a = bool false := by
  constructor
  · intro h
    have hw : a.width = 1 := by simp [isFalse] at h; exact h.1
    rw [eq_bool_of_width hw] at h ⊢
    simpa using h
  · rintro rfl
    simp

lemma isTrue_of_not_isFalse {a : APInt} (hw : a.width = 1) (h : a.isFalse = false) :
    a = bool true := by
  rw [eq_bool_of_width hw] at h ⊢
  simpa using h

lemma isFalse_of_not_isTrue {a : APInt} (hw : a.width = 1) (h : a.isTrue = false) :
    a = bool false := by
  rw [eq_bool_of_width hw, h]

/-- A value is determined by its width and its unsigned value. -/
lemma eq_ofNat_toNat (a : APInt) : a = ofNat a.width a.toNat := by
  obtain ⟨w, x⟩ := a
  simp [ofNat, toNat]

lemma ext_toNat {a b : APInt} (hw : a.width = b.width) (h : a.toNat = b.toNat) : a = b := by
  rw [eq_ofNat_toNat a, eq_ofNat_toNat b, hw, h]

/-- The arithmetic shift of `ConstantExpr::Extract` never shows: the bits it fills in lie
above the extracted ones. -/
lemma extractFold_eq {a : APInt} {off w : ℕ} (h : off + w ≤ a.width) :
    a.extractFold off w = a.extract off w := by
  obtain ⟨n, x⟩ := a
  simp only [extractFold, extract, APInt.mk.injEq, heq_eq_eq, true_and] at h ⊢
  apply BitVec.eq_of_getLsbD_eq
  intro i hi
  have h1 : i < n := by omega
  have h2 : off + i < n := by omega
  simp only [BitVec.getLsbD_setWidth, BitVec.getLsbD_sshiftRight, BitVec.getLsbD_extractLsb']
  simp [hi, h2, Nat.not_le.mpr h1]

end APInt

end Castan
