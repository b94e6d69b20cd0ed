/-
# The counterexample cache

`CexCachingSolver` stands in front of another solver and remembers its answers under the sets of
constraints they belong to: an assignment, or null for an unsatisfiable set.  A query is first
looked up; an assignment of a superset and an unsatisfiable subset answer it too, and so does any
assignment at hand that happens to satisfy it.

The order of expressions, in which the sets are traversed, is a parameter.
-/
import Castan.Expr.Evaluator
import Castan.Solver.MapOfSets

namespace Castan

/-! ### Queries -/

/-- `Query`: do the constraints imply the expression? -/
structure Query where
  constraints : List Expr
  expr : Expr
deriving DecidableEq

namespace Query

/-- `withFalse`. -/
def withFalse (q : Query) : Query := { q with expr := .const (.bool false) }

/-- `negateExpr`. -/
def negateExpr (o : Opts) (q : Query) : Query := { q with expr := q.expr.createIsZero o }

end Query

/-! ### Symbolic objects -/

mutual

/-- The symbolic arrays in the order in which `SymbolicObjectFinder` meets them. -/
def Expr.symbolicObjects : Expr → List KArray
  | .const _ => []
  | .notOptimized src => src.symbolicObjects
  | .read root head index =>
      head.symbolicObjects ++ (if root.isSymbolicArray then [root] else []) ++
        index.symbolicObjects
  | .select c t f => c.symbolicObjects ++ t.symbolicObjects ++ f.symbolicObjects
  | .concat l r => l.symbolicObjects ++ r.symbolicObjects
  | .extract e _ _ => e.symbolicObjects
  | .zExt e _ => e.symbolicObjects
  | .sExt e _ => e.symbolicObjects
  | .not e => e.symbolicObjects
  | .bin _ l r => l.symbolicObjects ++ r.symbolicObjects

def UpdateNode.symbolicObjects : UpdateNode → List KArray
  | .null => []
  | .node next index value =>
      index.symbolicObjects ++ value.symbolicObjects ++ next.symbolicObjects

end

/-- `findSymbolicObjects`. -/
def findSymbolicObjects (es : List Expr) : List KArray :=
  (es.flatMap Expr.symbolicObjects).eraseDups

/-! ### The table of assignments -/

namespace Assignment

/-- The order of two bindings, by the array and then by its contents. -/
def bindingLt (p q : KArray × List (BitVec 8)) : Bool :=
  p.1.addr < q.1.addr || !(q.1.addr < p.1.addr) && p.2.map BitVec.toNat < q.2.map BitVec.toNat

/-- The order of maps of bindings. -/
def bindingsLt : List (KArray × List (BitVec 8)) → List (KArray × List (BitVec 8)) → Bool
  | _, [] => false
  | [], _ :: _ => true
  | p :: ps, q :: qs =>
      if bindingLt p q then true else if bindingLt q p then false else bindingsLt ps qs

/-- `assignmentsTable.insert`: the new table, and the assignment with these bindings in it. -/
def memoize (a : Assignment) : List Assignment → List Assignment × Assignment
  | [] => ([a], a)
  | b :: bs =>
      if a = b then (b :: bs, b)
      else if bindingsLt a.bindings b.bindings then (a :: b :: bs, a)
      else
        let r := memoize a bs
        (b :: r.1, r.2)

lemma memoize_snd (a : Assignment) (table : List Assignment) : (a.memoize table).2 = a := by
  induction table with
  | nil => rfl
  | cons b bs ih =>
    rw [memoize]
    split
    · next heq => exact heq.symm
    · split
      · rfl
      · exact ih

end Assignment

/-! ### The solver -/

/-- The options of the cache. -/
structure CexOpts where
  /-- `cex-cache-try-all`. -/
  cexCacheTryAll : Bool
  /-- `cex-cache-superset`. -/
  cexCacheSuperSet : Bool
  /-- `cex-cache-exp`. -/
  cexCacheExperimental : Bool

/-- What the cache is built with. -/
structure CexEnv where
  o : Opts
  opts : CexOpts
  /-- `computeInitialValues` of the wrapped solver: `none` if it fails, and otherwise the values of
  the objects, if there is a solution. -/
  solve : Query → List KArray → Option (Option (List (List (BitVec 8))))

/-- What a call ends with. -/
inductive Outcome (α : Type)
  /-- The call returns false. -/
  | failure
  /-- An assertion fails. -/
  | assertion
  | success (answer : α)
deriving DecidableEq

def Outcome.map {α β : Type} (f : α → β) : Outcome α → Outcome β
  | failure => failure
  | assertion => assertion
  | success a => success (f a)

/-- `Solver::Validity`. -/
inductive Validity
  | isTrue
  | isFalse
  | unknown
deriving DecidableEq

variable [LinearOrder Expr]

/-- The members `cache` and `assignmentsTable`. -/
structure CexState where
  cache : MapOfSets Expr (Option Assignment)
  assignmentsTable : List Assignment

namespace CexEnv

def initial : CexState := ⟨.empty, []⟩

/-- `searchForAssignment`: the cached result, if there is one. -/
def searchForAssignment (env : CexEnv) (s : CexState) (key : Finset Expr) :
    Option (Option Assignment) :=
  let satisfying := fun a : Assignment => a.satisfies env.o (key.sort (· ≤ ·))
  let superset := if env.opts.cexCacheSuperSet then
    s.cache.findSuperset key fun r => r.isSome else none
  match s.cache.lookup key with
  | some r => some r
  | none =>
      if env.opts.cexCacheTryAll then
        match superset.or (s.cache.findSubset key fun r => r.isNone) with
        | some r => some r
        | none => (s.assignmentsTable.find? satisfying).map some
      else superset.or (s.cache.findSubset key fun r => r.all satisfying)

/-- The key of a query: its constraints and the negation of its expression, unless this is
constant. -/
def key (env : CexEnv) (q : Query) : Finset Expr :=
  let neg := q.expr.createIsZero env.o
  if neg.isConst then q.constraints.toFinset else insert neg q.constraints.toFinset

/-- `lookupAssignment`. -/
def lookupAssignment (env : CexEnv) (s : CexState) (q : Query) : Option (Option Assignment) :=
  if (q.expr.createIsZero env.o).constant?.any APInt.isFalse then some none
  else env.searchForAssignment s (env.key q)

/-- `getAssignment`: `none` if it returns false, and otherwise the assignment or null.  The first
statement returns `result`, so a null result that was looked up is returned as false. -/
def getAssignment (env : CexEnv) (s : CexState) (q : Query) :
    Option (Option Assignment) × CexState :=
  match env.lookupAssignment s q with
  | some result => (result.map some, s)
  | none =>
      let objects := findSymbolicObjects ((env.key q).sort (· ≤ ·))
      match env.solve q objects with
      | none => (none, s)
      | some (some values) =>
          let r := (Assignment.ofObjects objects values).memoize s.assignmentsTable
          (some (some r.2), ⟨s.cache.insert (env.key q) (some r.2), r.1⟩)
      | some none => (some none, { s with cache := s.cache.insert (env.key q) none })

/-- `computeTruth`. -/
def computeTruth (env : CexEnv) (s : CexState) (q : Query) : Outcome Bool × CexState :=
  if env.opts.cexCacheExperimental ∧
      env.lookupAssignment s (q.negateExpr env.o) = some none then (.failure, s)
  else
    match env.getAssignment s q with
    | (none, s) => (.failure, s)
    | (some a, s) => (.success a.isNone, s)

/-- `computeValidity`. -/
def computeValidity (env : CexEnv) (s : CexState) (q : Query) : Outcome Validity × CexState :=
  match env.getAssignment s q.withFalse with
  | (none, s) => (.failure, s)
  | (some none, s) => (.assertion, s)
  | (some (some a), s) =>
      match (a.evaluate env.o q.expr).constant? with
      | none => (.assertion, s)
      | some c =>
          if c.isTrue then
            match env.getAssignment s q with
            | (none, s) => (.failure, s)
            | (some a, s) => (.success (if a.isNone then .isTrue else .unknown), s)
          else
            match env.getAssignment s (q.negateExpr env.o) with
            | (none, s) => (.failure, s)
            | (some a, s) => (.success (if a.isNone then .isFalse else .unknown), s)

/-- `computeValue`. -/
def computeValue (env : CexEnv) (s : CexState) (q : Query) : Outcome APInt × CexState :=
  match env.getAssignment s q.withFalse with
  | (none, s) => (.failure, s)
  | (some none, s) => (.assertion, s)
  | (some (some a), s) =>
      match (a.evaluate env.o q.expr).constant? with
      | none => (.assertion, s)
      | some c => (.success c, s)

/-- The contents of an array under an assignment, as `computeInitialValues` returns them. -/
def initialValuesOf (a : Assignment) (array : KArray) : List (BitVec 8) :=
  (a.bindings.lookup array).getD (List.replicate array.size 0)

/-- `computeInitialValues`: the values of the objects, if there is a solution. -/
def computeInitialValues (env : CexEnv) (s : CexState) (q : Query) (objects : List KArray) :
    Outcome (Option (List (List (BitVec 8)))) × CexState :=
  match env.getAssignment s q with
  | (none, s) => (.failure, s)
  | (some a, s) => (.success (a.map fun a => objects.map (initialValuesOf a)), s)

/-! ### Sequences of calls -/

/-- A call of the solver. -/
inductive Call
  | truth (q : Query)
  | validity (q : Query)
  | value (q : Query)
  | initialValues (q : Query) (objects : List KArray)

/-- What a successful call returns. -/
inductive Answer
  | truth (isValid : Bool)
  | validity (result : Validity)
  | value (result : APInt)
  | initialValues (values : Option (List (List (BitVec 8))))

def step (env : CexEnv) (s : CexState) : Call → Outcome Answer × CexState
  | .truth q => (env.computeTruth s q).map (Outcome.map .truth) id
  | .validity q => (env.computeValidity s q).map (Outcome.map .validity) id
  | .value q => (env.computeValue s q).map (Outcome.map .value) id
  | .initialValues q objects =>
      (env.computeInitialValues s q objects).map (Outcome.map .initialValues) id

/-- The state after a sequence of calls. -/
def run (env : CexEnv) (calls : List Call) : CexState :=
  calls.foldl (fun s c => (env.step s c).2) initial

end CexEnv

end Castan
