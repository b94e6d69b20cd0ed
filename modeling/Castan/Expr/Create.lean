/-
# The simplifying constructors

The `create` functions of `Expr.cpp`, which every client uses to build expressions.  An
allocation `XExpr::alloc` is the plain constructor of `Expr`.  The static functions
`XExpr_create`, `XExpr_createPartial` and `XExpr_createPartialR` of the source are
`XExpr.createNode`, `XExpr.createPartial` and `XExpr.createPartialR` here; in a call
`XExpr::create(k, e)` whose first argument is known to be a constant the test of that
argument is done already (`XExpr.createConst`).
-/
import Castan.Expr.Eval

namespace Castan

variable [Overshift]

/-- The command-line options the expression library reads. -/
structure Opts where
  /-- `const-array-opt`. -/
  constArrayOpt : Bool
  /-- `rewrite-equalities`. -/
  rewriteEqualities : Bool
deriving DecidableEq

/-- The constant arrays are read in bounds, where the options make this matter. -/
def Expr.Defined (o : Opts) (ρ : Valuation) (e : Expr) : Prop :=
  o.constArrayOpt = true → e.InRange ρ

/-- The macros `BCREATE_R` and `CMPCREATE_T`: fold two constants, hand one constant to its
special function. -/
def bcreateR (op : BinKind) (partialL : Expr → APInt → Expr) (partialR : APInt → Expr → Expr)
    (createNode : Expr → Expr → Expr) (l r : Expr) : Expr :=
  match l.constant?, r.constant? with
  | some cl, some cr => .const (op.fold cl cr)
  | some cl, none => partialR cl r
  | none, some cr => partialL l cr
  | none, none => createNode l r

/-- The macros `BCREATE` and `CMPCREATE`: only fold two constants. -/
def bcreate (op : BinKind) (createNode : Expr → Expr → Expr) (l r : Expr) : Expr :=
  match l.constant?, r.constant? with
  | some cl, some cr => .const (op.fold cl cr)
  | _, _ => createNode l r

/-! ### And, Or -/

def AndExpr.createPartial (l : Expr) (cr : APInt) : Expr :=
  if cr.isAllOnes then l
  else if cr.isZero then .const cr
  else .bin .and l (.const cr)

def AndExpr.createPartialR (cl : APInt) (r : Expr) : Expr := AndExpr.createPartial r cl

def AndExpr.create (l r : Expr) : Expr :=
  bcreateR .and AndExpr.createPartial AndExpr.createPartialR (.bin .and) l r

def OrExpr.createPartial (l : Expr) (cr : APInt) : Expr :=
  if cr.isAllOnes then .const cr
  else if cr.isZero then l
  else .bin .or l (.const cr)

def OrExpr.createPartialR (cl : APInt) (r : Expr) : Expr := OrExpr.createPartial r cl

def OrExpr.create (l r : Expr) : Expr :=
  bcreateR .or OrExpr.createPartial OrExpr.createPartialR (.bin .or) l r

/-! ### Eq -/

def EqExpr.createNode (l r : Expr) : Expr :=
  if l = r then .const (.bool true) else .bin .eq l r

/-- The loop of `TryConstArrayOpt` over the contents of a constant array from the index `i`
on.  It gives up with `dflt` at the 101st match. -/
def tryConstArrayOptLoop (cl : APInt) (dflt : Expr) (mayBe : ℕ → Expr) :
    List APInt → (i numMatches : ℕ) → (res : Expr) → Expr
  | [], _, _, res => res
  | v :: vs, i, numMatches, res =>
      if cl = v then
        if numMatches + 1 > 100 then dflt
        else tryConstArrayOptLoop cl dflt mayBe vs (i + 1) (numMatches + 1)
          (OrExpr.create res (mayBe i))
      else tryConstArrayOptLoop cl dflt mayBe vs (i + 1) numMatches res

/-- `TryConstArrayOpt` for the read of `root` behind the updates `head`; `mayBe i` is the
equality of the index with `i`. -/
def tryConstArrayOpt (cl : APInt) (root : KArray) (head : UpdateNode) (index : Expr)
    (mayBe : ℕ → Expr) : Expr :=
  if root.isSymbolicArray ∨ head ≠ .null then
    EqExpr.createNode (.const cl) (.read root head index)
  else
    tryConstArrayOptLoop cl (EqExpr.createNode (.const cl) (.read root head index)) mayBe
      root.constantValues 0 0 (.const (.bool false))

/-- `EqExpr_createPartialR`.  Every nested `EqExpr::create` has one constant operand. -/
def EqExpr.createPartialR (o : Opts) (cl : APInt) (r : Expr) : Expr :=
  if cl.width = 1 then
    if cl.isTrue then r
    else match r with
      | .bin .eq (.const ce) right =>
          -- 0 == (0 == A) => A
          if ce.width = 1 ∧ ce.isFalse then right else EqExpr.createNode (.const cl) r
      | .bin .or a b =>
          -- transform not(or(a,b)) to and(not a, not b)
          AndExpr.create (match a.constant? with
              | some va => .const (BinKind.eq.fold va (.ofNat a.width 0))
              | none => EqExpr.createPartialR o (.ofNat a.width 0) a)
            (match b.constant? with
              | some vb => .const (BinKind.eq.fold vb (.ofNat b.width 0))
              | none => EqExpr.createPartialR o (.ofNat b.width 0) b)
      | _ => EqExpr.createNode (.const cl) r
  else match r with
    | .sExt src _ =>
        -- (sext(a,T)==c) == (a==c), if it is possible to sext to this value
        let trunc := cl.zExt src.width
        if cl = trunc.sExt cl.width then
          match src.constant? with
          | some v => .const (BinKind.eq.fold v trunc)
          | none => EqExpr.createPartialR o trunc src
        else .const (.bool false)
    | .zExt src _ =>
        -- (zext(a,T)==c) == (a==c), if it is possible to zext to this value
        let trunc := cl.zExt src.width
        if cl = trunc.zExt cl.width then
          match src.constant? with
          | some v => .const (BinKind.eq.fold v trunc)
          | none => EqExpr.createPartialR o trunc src
        else .const (.bool false)
    | .bin .add (.const c1) b =>
        -- c0 = c1 + b => c0 - c1 = b
        EqExpr.createPartialR o (BinKind.sub.fold cl c1) b
    | .bin .sub (.const c1) b =>
        -- c0 = c1 - b => c1 - c0 = b
        EqExpr.createPartialR o (BinKind.sub.fold c1 cl) b
    | .read root head index =>
        if o.constArrayOpt then
          tryConstArrayOpt cl root head index fun i =>
            match index.constant? with
            | some v => .const (BinKind.eq.fold v (.ofNat index.width i))
            | none => EqExpr.createPartialR o (.ofNat index.width i) index
        else EqExpr.createNode (.const cl) r
    | _ => EqExpr.createNode (.const cl) r

def EqExpr.createPartial (o : Opts) (l : Expr) (cr : APInt) : Expr :=
  EqExpr.createPartialR o cr l

def EqExpr.create (o : Opts) (l r : Expr) : Expr :=
  bcreateR .eq (EqExpr.createPartial o) (EqExpr.createPartialR o) EqExpr.createNode l r

/-- `Expr::createIsZero`. -/
def Expr.createIsZero (o : Opts) (e : Expr) : Expr :=
  EqExpr.create o e (.const (.ofNat e.width 0))

/-! ### Xor -/

def XorExpr.createPartialR (o : Opts) (cl : APInt) (r : Expr) : Expr :=
  if cl.isZero then r
  else if cl.width = 1 then EqExpr.createPartial o r (.bool false)
  else .bin .xor (.const cl) r

def XorExpr.createPartial (o : Opts) (l : Expr) (cr : APInt) : Expr :=
  XorExpr.createPartialR o cr l

def XorExpr.create (o : Opts) (l r : Expr) : Expr :=
  bcreateR .xor (XorExpr.createPartial o) (XorExpr.createPartialR o) (.bin .xor) l r

/-! ### Add, Sub -/

mutual

def AddExpr.createPartialR (o : Opts) (cl : APInt) (r : Expr) : Expr :=
  if cl.width = 1 then XorExpr.createPartialR o cl r
  else if cl.isZero then r
  else match r with
    | .bin .add (.const k) c =>
        -- A + (B+c) == (A+B) + c
        match c.constant? with
        | some v => .const (BinKind.add.fold (BinKind.add.fold cl k) v)
        | none => AddExpr.createPartialR o (BinKind.add.fold cl k) c
    | .bin .sub (.const k) c =>
        -- A + (B-c) == (A+B) - c
        match c.constant? with
        | some v => .const (BinKind.sub.fold (BinKind.add.fold cl k) v)
        | none => SubExpr.createPartialR o (BinKind.add.fold cl k) c
    | _ => .bin .add (.const cl) r

def SubExpr.createPartialR (o : Opts) (cl : APInt) (r : Expr) : Expr :=
  if cl.width = 1 then XorExpr.createPartialR o cl r
  else match r with
    | .bin .add (.const k) c =>
        -- A - (B+c) == (A-B) - c
        match c.constant? with
        | some v => .const (BinKind.sub.fold (BinKind.sub.fold cl k) v)
        | none => SubExpr.createPartialR o (BinKind.sub.fold cl k) c
    | .bin .sub (.const k) c =>
        -- A - (B-c) == (A-B) + c
        match c.constant? with
        | some v => .const (BinKind.add.fold (BinKind.sub.fold cl k) v)
        | none => AddExpr.createPartialR o (BinKind.sub.fold cl k) c
    | _ => .bin .sub (.const cl) r

end

def AddExpr.createPartial (o : Opts) (l : Expr) (cr : APInt) : Expr :=
  AddExpr.createPartialR o cr l

/-- `l - c => l + (-c)`. -/
def SubExpr.createPartial (o : Opts) (l : Expr) (cr : APInt) : Expr :=
  AddExpr.createPartial o l (BinKind.sub.fold (.ofNat cr.width 0) cr)

/-- `AddExpr::create(k, e)` for a constant `k`. -/
def AddExpr.createConst (o : Opts) (k : APInt) (e : Expr) : Expr :=
  match e.constant? with
  | some v => .const (BinKind.add.fold k v)
  | none => AddExpr.createPartialR o k e

/-- `SubExpr::create(k, e)` for a constant `k`. -/
def SubExpr.createConst (o : Opts) (k : APInt) (e : Expr) : Expr :=
  match e.constant? with
  | some v => .const (BinKind.sub.fold k v)
  | none => SubExpr.createPartialR o k e

/-- `SubExpr::create(e, k)` for a constant `k`. -/
def SubExpr.createConstR (o : Opts) (e : Expr) (k : APInt) : Expr :=
  match e.constant? with
  | some v => .const (BinKind.sub.fold v k)
  | none => SubExpr.createPartial o e k

mutual

/-- `AddExpr::create`, with `AddExpr_create` for two operands that are no constants. -/
def AddExpr.create (o : Opts) (l r : Expr) : Expr :=
  match l.constant?, r.constant? with
  | some cl, some cr => .const (BinKind.add.fold cl cr)
  | some cl, none => AddExpr.createPartialR o cl r
  | none, some cr => AddExpr.createPartial o l cr
  | none, none =>
    if l.width = 1 then .bin .xor l r
    else match l, r with
      | .bin .add (.const k) a, r => AddExpr.createConst o k (AddExpr.create o a r)
      | .bin .sub (.const k) a, r => AddExpr.createConst o k (SubExpr.create o r a)
      | l, .bin .add (.const k) b => AddExpr.createConst o k (AddExpr.create o l b)
      | l, .bin .sub (.const k) b => AddExpr.createConst o k (SubExpr.create o l b)
      | l, r => .bin .add l r
termination_by sizeOf l + sizeOf r

/-- `SubExpr::create`, with `SubExpr_create` for two operands that are no constants. -/
def SubExpr.create (o : Opts) (l r : Expr) : Expr :=
  match l.constant?, r.constant? with
  | some cl, some cr => .const (BinKind.sub.fold cl cr)
  | some cl, none => SubExpr.createPartialR o cl r
  | none, some cr => SubExpr.createPartial o l cr
  | none, none =>
    if l.width = 1 then .bin .xor l r
    else if l = r then .const (.ofNat l.width 0)
    else match l, r with
      | .bin .add (.const k) a, r => AddExpr.createConst o k (SubExpr.create o a r)
      | .bin .sub (.const k) a, r => SubExpr.createConst o k (AddExpr.create o a r)
      | l, .bin .add (.const k) b => SubExpr.createConstR o (SubExpr.create o l b) k
      | l, .bin .sub (.const k) b => SubExpr.createConstR o (AddExpr.create o l b) k
      | l, r => .bin .sub l r
termination_by sizeOf l + sizeOf r

end

/-! ### Mul -/

def MulExpr.createPartialR (cl : APInt) (r : Expr) : Expr :=
  if cl.width = 1 then AndExpr.createPartialR cl r
  else if cl.isOne then r
  else if cl.isZero then .const cl
  else .bin .mul (.const cl) r

def MulExpr.createPartial (l : Expr) (cr : APInt) : Expr := MulExpr.createPartialR cr l

def MulExpr.createNode (l r : Expr) : Expr :=
  if l.width = 1 then .bin .and l r else .bin .mul l r

def MulExpr.create (l r : Expr) : Expr :=
  bcreateR .mul MulExpr.createPartial MulExpr.createPartialR MulExpr.createNode l r

/-! ### Division, remainder and shifts -/

def UDivExpr.create (l r : Expr) : Expr :=
  bcreate .uDiv (fun l r => if l.width = 1 then l else .bin .uDiv l r) l r

def SDivExpr.create (l r : Expr) : Expr :=
  bcreate .sDiv (fun l r => if l.width = 1 then l else .bin .sDiv l r) l r

def URemExpr.create (l r : Expr) : Expr :=
  bcreate .uRem (fun l r => if l.width = 1 then .const (.bool false) else .bin .uRem l r) l r

def SRemExpr.create (l r : Expr) : Expr :=
  bcreate .sRem (fun l r => if l.width = 1 then .const (.bool false) else .bin .sRem l r) l r

def ShlExpr.create (o : Opts) (l r : Expr) : Expr :=
  bcreate .shl (fun l r =>
    if l.width = 1 then AndExpr.create l (r.createIsZero o) else .bin .shl l r) l r

def LShrExpr.create (o : Opts) (l r : Expr) : Expr :=
  bcreate .lShr (fun l r =>
    if l.width = 1 then AndExpr.create l (r.createIsZero o) else .bin .lShr l r) l r

def AShrExpr.create (l r : Expr) : Expr :=
  bcreate .aShr (fun l r => if l.width = 1 then l else .bin .aShr l r) l r

/-! ### Comparisons -/

def NeExpr.create (o : Opts) (l r : Expr) : Expr :=
  EqExpr.create o (.const (.bool false)) (EqExpr.create o l r)

def UltExpr.create (o : Opts) (l r : Expr) : Expr :=
  bcreate .ult (fun l r =>
    if l.width = 1 then AndExpr.create (l.createIsZero o) r else .bin .ult l r) l r

def UleExpr.create (o : Opts) (l r : Expr) : Expr :=
  bcreate .ule (fun l r =>
    if l.width = 1 then OrExpr.create (l.createIsZero o) r else .bin .ule l r) l r

def SltExpr.create (o : Opts) (l r : Expr) : Expr :=
  bcreate .slt (fun l r =>
    if l.width = 1 then AndExpr.create l (r.createIsZero o) else .bin .slt l r) l r

def SleExpr.create (o : Opts) (l r : Expr) : Expr :=
  bcreate .sle (fun l r =>
    if l.width = 1 then OrExpr.create l (r.createIsZero o) else .bin .sle l r) l r

/-- The `create` function of a binary kind. -/
def BinKind.create (o : Opts) : BinKind → Expr → Expr → Expr
  | add, l, r => AddExpr.create o l r
  | sub, l, r => SubExpr.create o l r
  | mul, l, r => MulExpr.create l r
  | uDiv, l, r => UDivExpr.create l r
  | sDiv, l, r => SDivExpr.create l r
  | uRem, l, r => URemExpr.create l r
  | sRem, l, r => SRemExpr.create l r
  | and, l, r => AndExpr.create l r
  | or, l, r => OrExpr.create l r
  | xor, l, r => XorExpr.create o l r
  | shl, l, r => ShlExpr.create o l r
  | lShr, l, r => LShrExpr.create o l r
  | aShr, l, r => AShrExpr.create l r
  | eq, l, r => EqExpr.create o l r
  | ne, l, r => NeExpr.create o l r
  | ult, l, r => UltExpr.create o l r
  | ule, l, r => UleExpr.create o l r
  | ugt, l, r => UltExpr.create o r l
  | uge, l, r => UleExpr.create o r l
  | slt, l, r => SltExpr.create o l r
  | sle, l, r => SleExpr.create o l r
  | sgt, l, r => SltExpr.create o r l
  | sge, l, r => SleExpr.create o r l

/-! ### Concat, Extract and the casts -/

/-- The number of concatenations that an extraction may be pushed through. -/
def Expr.concats : Expr → ℕ
  | .concat l r => 1 + l.concats + r.concats
  | .extract e _ _ => e.concats
  | _ => 0

mutual

/-- `ExtractExpr::create`, with the bound on its result that makes the recursion through
`ConcatExpr::create` well founded. -/
def ExtractExpr.createAux (e : Expr) (off w : ℕ) : {x : Expr // x.concats ≤ e.concats} :=
  if w = e.width then ⟨e, le_rfl⟩
  else match e with
    | .const c => ⟨.const (c.extractFold off w), le_rfl⟩
    | .concat l r =>
        if r.width ≤ off then
          -- the extract skips the right side of the concat
          let x := ExtractExpr.createAux l (off - r.width) w
          ⟨x.1, by have := x.2; simp only [Expr.concats]; omega⟩
        else if off + w ≤ r.width then
          -- the extract skips the left side of the concat
          let x := ExtractExpr.createAux r off w
          ⟨x.1, by have := x.2; simp only [Expr.concats]; omega⟩
        else
          -- E(C(x,y)) = C(E(x), E(y)); the source writes w - r.width + off, in unsigned
          -- arithmetic that may wrap in between
          match ExtractExpr.createAux l 0 (w + off - r.width),
              ExtractExpr.createAux r off (r.width - off) with
          | ⟨x, hx⟩, ⟨y, hy⟩ =>
            let z := ConcatExpr.createAux x y
            ⟨z.1, by have := z.2; simp only [Expr.concats]; omega⟩
    | e => ⟨.extract e off w, le_rfl⟩
termination_by 2 * e.concats
decreasing_by all_goals (simp only [Expr.concats]; omega)

/-- `ConcatExpr::create`. -/
def ConcatExpr.createAux (l r : Expr) : {x : Expr // x.concats ≤ 1 + l.concats + r.concats} :=
  match l, r with
  | .const a, .const b => ⟨.const (a.concat b), by simp [Expr.concats]⟩
  | .extract el ol wl, .extract er or wr =>
      -- merge contiguous extracts
      if el = er ∧ or + wr = ol then
        let x := ExtractExpr.createAux el or (wl + wr)
        ⟨x.1, by have := x.2; simp only [Expr.concats]; omega⟩
      else ⟨.concat (.extract el ol wl) (.extract er or wr), le_rfl⟩
  | l, r => ⟨.concat l r, le_rfl⟩
termination_by 2 * (l.concats + r.concats) + 1
decreasing_by all_goals (simp only [Expr.concats]; omega)

end

/-- `ExtractExpr::create`. -/
def ExtractExpr.create (e : Expr) (off w : ℕ) : Expr := (ExtractExpr.createAux e off w).1

/-- `ConcatExpr::create`. -/
def ConcatExpr.create (l r : Expr) : Expr := (ConcatExpr.createAux l r).1

def ZExtExpr.create (e : Expr) (w : ℕ) : Expr :=
  if w = e.width then e
  else if w < e.width then ExtractExpr.create e 0 w
  else match e.constant? with
    | some c => .const (c.zExt w)
    | none => .zExt e w

def SExtExpr.create (e : Expr) (w : ℕ) : Expr :=
  if w = e.width then e
  else if w < e.width then ExtractExpr.create e 0 w
  else match e.constant? with
    | some c => .const (c.sExt w)
    | none => .sExt e w

/-! ### Not, Select, Read -/

def NotExpr.create (e : Expr) : Expr :=
  match e.constant? with
  | some c => .const c.not
  | none => .not e

def SelectExpr.create (o : Opts) (c t f : Expr) : Expr :=
  match c.constant? with
  | some v => if v.isTrue then t else f
  | none =>
    if t = f then t
    else if t.width = 1 then
      -- c ? t : f  <=> (c and t) or (not c and f)
      match t.constant?, f.constant? with
      | some vt, _ =>
          if vt.isTrue then OrExpr.create c f else AndExpr.create (c.createIsZero o) f
      | none, some vf =>
          if vf.isTrue then OrExpr.create (c.createIsZero o) t else AndExpr.create c t
      | none, none => .select c t f
    else .select c t f

/-- The rollback loop of `ReadExpr::create`: the value of the first update that is surely the
one read, unless an update comes first that may be it. -/
def ReadExpr.rollback (o : Opts) (index : Expr) : UpdateNode → Option Expr
  | .null => none
  | .node next i value =>
      match (EqExpr.create o index i).constant? with
      | some c => if c.isTrue then some value else ReadExpr.rollback o index next
      | none => none

def ReadExpr.create (o : Opts) (root : KArray) (head : UpdateNode) (index : Expr) : Expr :=
  (ReadExpr.rollback o index head).getD (.read root head index)

end Castan
