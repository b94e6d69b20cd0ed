/-
# Symbolic expressions

The expression trees of `Expr.h`.  The classes with one shape in the source (`BinaryExpr`)
are one constructor with the kind as an argument; an update list is its root array and the
chain of its update nodes, the most recent first.
-/
import Castan.Expr.APInt

namespace Castan

/-- `klee::Array`.  Arrays are identified by their address, which also separates two arrays
with equal contents. -/
structure KArray where
  /-- The identity of the array, `const Array *`. -/
  addr : ℕ
  /-- The name. -/
  name : String
  /-- The number of cells. -/
  size : ℕ
  /-- The width of an index. -/
  domain : ℕ
  /-- The width of a cell. -/
  range : ℕ
  /-- The constant contents, empty for a symbolic array. -/
  constantValues : List APInt
deriving DecidableEq

namespace KArray

/-- `Array::isSymbolicArray`. -/
def isSymbolicArray (a : KArray) : Bool := a.constantValues.isEmpty

/-- What the constructor of `Array` asserts, and that every cell can be addressed (the index
width is 32 and the size an `unsigned` for every array the source creates). -/
structure WF (a : KArray) : Prop where
  size_eq : a.isSymbolicArray = false → a.constantValues.length = a.size
  values_width : ∀ v ∈ a.constantValues, v.width = a.range
  size_le : a.size ≤ 2 ^ a.domain
  domain_pos : 0 < a.domain
  range_pos : 0 < a.range

/-- A symbolic array of bytes with 32-bit indices, the defaults of the constructor. -/
def bytes (addr : ℕ) (name : String) (size : ℕ) : KArray := ⟨addr, name, size, 32, 8, []⟩

lemma bytes_wf (addr : ℕ) (name : String) {size : ℕ} (h : size ≤ 2 ^ 32) :
    (bytes addr name size).WF :=
  ⟨fun hs => by simp [bytes, isSymbolicArray] at hs, fun v hv => by simp [bytes] at hv, h,
    by simp [bytes], by simp [bytes]⟩

end KArray

mutual

/-- `klee::Expr`. -/
inductive Expr
  | const (value : APInt)
  | notOptimized (src : Expr)
  | read (root : KArray) (head : UpdateNode) (index : Expr)
  | select (cond trueExpr falseExpr : Expr)
  | concat (left right : Expr)
  | extract (expr : Expr) (offset width : ℕ)
  | zExt (src : Expr) (width : ℕ)
  | sExt (src : Expr) (width : ℕ)
  | not (expr : Expr)
  | bin (kind : BinKind) (left right : Expr)

/-- `klee::UpdateNode`: a chain of updates, `null` at its end. -/
inductive UpdateNode
  | null
  | node (next : UpdateNode) (index value : Expr)

end

deriving instance DecidableEq for Expr, UpdateNode

namespace Expr

/-- `getWidth`. -/
def width : Expr → ℕ
  | const v => v.width
  | notOptimized src => src.width
  | read root _ _ => root.range
  | select _ t _ => t.width
  | concat l r => l.width + r.width
  | extract _ _ w => w
  | zExt _ w => w
  | sExt _ w => w
  | not e => e.width
  | bin k l _ => if k.isCmp then 1 else l.width

/-- `dyn_cast<ConstantExpr>`. -/
def constant? : Expr → Option APInt
  | const v => some v
  | _ => none

/-- `isa<ConstantExpr>`. -/
def isConst (e : Expr) : Bool := e.constant?.isSome

/-- The kids `getKid(0), ..., getKid(getNumKids() - 1)`.  The nodes of an update list are no
kids of a read. -/
def kids : Expr → List Expr
  | const _ => []
  | notOptimized src => [src]
  | read _ _ index => [index]
  | select c t f => [c, t, f]
  | concat l r => [l, r]
  | extract e _ _ => [e]
  | zExt e _ => [e]
  | sExt e _ => [e]
  | not e => [e]
  | bin _ l r => [l, r]

@[simp] lemma constant?_const (v : APInt) : (const v).constant? = some v := rfl

lemma constant?_eq_some {e : Expr} {v : APInt} : e.constant? = some v ↔ e = const v := by
  cases e <;> simp [constant?]

lemma isConst_iff {e : Expr} : e.isConst = true ↔ ∃ v, e = const v := by
  cases e <;> simp [isConst, constant?]

@[simp] lemma isConst_const (v : APInt) : (const v).isConst = true := rfl

lemma constant?_eq_none {e : Expr} : e.constant? = none ↔ e.isConst = false := by
  cases e <;> simp [isConst, constant?]

end Expr

/-! ### Well-typed expressions -/

mutual

/-- The typing rules of the expression language: the assertions of the `create` functions on
the widths of their operands, for every node of the tree. -/
def Expr.Typed : Expr → Prop
  | .const v => 0 < v.width
  | .notOptimized src => src.Typed
  | .read root head index =>
      root.WF ∧ index.Typed ∧ index.width = root.domain ∧ head.Typed root
  | .select c t f => c.Typed ∧ t.Typed ∧ f.Typed ∧ c.width = 1 ∧ t.width = f.width
  | .concat l r => l.Typed ∧ r.Typed
  | .extract e off w => e.Typed ∧ 0 < w ∧ off + w ≤ e.width
  | .zExt e w => e.Typed ∧ e.width ≤ w
  | .sExt e w => e.Typed ∧ e.width ≤ w
  | .not e => e.Typed
  | .bin _ l r => l.Typed ∧ r.Typed ∧ l.width = r.width

/-- The updates of a list over `root` write cells of `root`. -/
def UpdateNode.Typed (root : KArray) : UpdateNode → Prop
  | .null => True
  | .node next index value =>
      next.Typed root ∧ index.Typed ∧ value.Typed ∧
        index.width = root.domain ∧ value.width = root.range

end

lemma Expr.Typed.width_pos {e : Expr} (h : e.Typed) : 0 < e.width := by
  match e with
  | .const v => exact h
  | .notOptimized src => exact width_pos (e := src) h
  | .read root head index => exact h.1.range_pos
  | .select c t f => exact width_pos (e := t) h.2.1
  | .concat l r =>
    have hl := width_pos (e := l) h.1
    simp only [Expr.width]
    omega
  | .extract e off w => exact h.2.1
  | .zExt e w => exact lt_of_lt_of_le (width_pos (e := e) h.1) h.2
  | .sExt e w => exact lt_of_lt_of_le (width_pos (e := e) h.1) h.2
  | .not e => exact width_pos (e := e) h
  | .bin k l r =>
    have hl := width_pos (e := l) h.1
    simp only [Expr.width]
    split_ifs <;> omega

/-! ### Canonical expressions -/

mutual

/-- The first canonicalization rule of `Expr.h`, "no Expr has all constant arguments", for
every node of the tree; a select even has no constant condition. -/
def Expr.Canon : Expr → Prop
  | .const _ => True
  | .notOptimized src => src.Canon
  | .read _ head index => head.Canon ∧ index.Canon
  | .select c t f => c.Canon ∧ t.Canon ∧ f.Canon ∧ c.isConst = false
  | .concat l r => l.Canon ∧ r.Canon ∧ (l.isConst && r.isConst) = false
  | .extract e _ _ => e.Canon ∧ e.isConst = false
  | .zExt e _ => e.Canon ∧ e.isConst = false
  | .sExt e _ => e.Canon ∧ e.isConst = false
  | .not e => e.Canon ∧ e.isConst = false
  | .bin _ l r => l.Canon ∧ r.Canon ∧ (l.isConst && r.isConst) = false

/-- Canonical indices and values in a chain of updates. -/
def UpdateNode.Canon : UpdateNode → Prop
  | .null => True
  | .node next index value => next.Canon ∧ index.Canon ∧ value.Canon

end

/-- A well-typed canonical expression of width `w`. -/
structure Expr.OfWidth (w : ℕ) (e : Expr) : Prop where
  typed : e.Typed
  canon : e.Canon
  width_eq : e.width = w

end Castan
