/-
# Concretization of symbolic pointers

`ContentionSetCacheModel::memoryOperation` picks a concrete address for an access through a
symbolic pointer.  It goes through the contention sets, those with the most expensive misses
first, and through the lines of each set, and asks the solver whether the pointer can be in the
line.  When a set has more lines that are cached or possible than it has ways, the last line that
was found is taken; otherwise the line that completed the longest such list, and otherwise any
value.
-/
import Castan.Cache.ContentionSet
import Castan.Expr.Constraints

namespace Castan

open Std (TreeMap TreeSet)
open ConstraintManager (simplifyExpr addConstraint)

/-- The command-line options of the search. -/
structure PointerOpts where
  /-- `worst-case-sym-indices`. -/
  worstCaseSymIndices : Bool
  /-- `give-up-on-complex-sym-indices`. -/
  giveUpOnComplexSymIndices : Bool
  /-- `terminate-on-unsat-sym-indices`. -/
  terminateOnUNSAT : Bool

/-- What a call of `memoryOperation` reads. -/
structure PointerQuery where
  o : Opts
  opts : PointerOpts
  /-- `Solver::getValue`: `none` if it fails. -/
  getValue : List Expr → Expr → Option APInt
  /-- The flag `simplifyExprs` of the timing solver. -/
  simplifyExprs : Bool
  /-- The results of the calls of `rand`. -/
  rand : ℕ → ℕ
  tables : Tables
  model : CacheModel
  constraints : List Expr
  address : Expr
  isWrite : Bool

/-- Which part of the search an address comes from. -/
inductive Choice
  | constant
  | fullMatch (setIdx : ℕ)
  | backup
  | anyValue
deriving DecidableEq

/-- A call that returns a constant address. -/
structure PointerResult where
  constraints : List Expr
  model : CacheModel
  address : APInt
  choice : Choice

namespace PointerQuery

/-! ### One line -/

/-- `((1 << PAGE_BITS) - 1) & ~((1 << BLOCK_BITS) - 1)`. -/
def lineMask : BitVec 64 := ((1#64 <<< pageBits) - 1) &&& ~~~((1#64 <<< blockBits) - 1)

/-- The concrete address as a machine word. -/
def word (c : APInt) : BitVec 64 := BitVec.ofNat 64 c.toNat

/-- The constraint that the pointer is in the line `a`. -/
def lineConstraint (q : PointerQuery) (a : BitVec 64) : Expr :=
  simplifyExpr q.o q.constraints (EqExpr.create q.o (.const (.ofNat q.address.width a.toNat))
      (AndExpr.create (.const (.ofNat q.address.width lineMask.toNat)) q.address))

/-- What comes out of trying a line. -/
inductive Probe
  /-- The constraint simplifies to false. -/
  | triviallyUnsat
  /-- Adding the constraint to a copy of the path constraints fails an assertion. -/
  | clash
  /-- The solver finds no value. -/
  | unsat
  | value (c : APInt)
deriving DecidableEq

def probe (q : PointerQuery) (a : BitVec 64) : Probe :=
  let e := q.lineConstraint a
  if e.constant?.any APInt.isFalse then .triviallyUnsat
  else match addConstraint q.o q.constraints e with
    | none => .clash
    | some cs => match q.getValue cs q.address with
      | none => .unsat
      | some c => .value c

/-- Is the line of the concrete address `c` cached in one of the sets of `a`? -/
def isHit (q : PointerQuery) (a : BitVec 64) (c : APInt) : Bool :=
  (q.tables.contentionSetIdxs.getD a ∅).toList.any fun idx =>
    (q.model.cache idx).contains (blockAddr (word c))

/-! ### The loops over the lines and the sets -/

/-- The variables `backupHits` and `backupAddress`. -/
structure Backup where
  hits : ℕ := 0
  address : Option APInt := none

/-- How the loop over the lines of a set ends. -/
inductive LinesResult
  | found (c : APInt)
  | giveup (b : Backup)
  | done (b : Backup)

/-- The loop over the lines of a set with `associativity` ways.  The result is `none` if an
assertion fails. -/
def tryLines (q : PointerQuery) (associativity : ℕ) :
    List (BitVec 64) → (hitCount : ℕ) → Backup → Option LinesResult
  | [], _, b => some (.done b)
  | a :: as, hitCount, b =>
      match q.probe a with
      | .triviallyUnsat => tryLines q associativity as hitCount b
      | .clash => none
      | .unsat =>
          if q.opts.giveUpOnComplexSymIndices then some (.giveup b)
          else tryLines q associativity as hitCount b
      | .value c =>
          if q.isHit a c then tryLines q associativity as hitCount b
          else if hitCount + 1 > associativity then some (.found c)
          else if hitCount + 1 > b.hits then
            tryLines q associativity as (hitCount + 1) ⟨hitCount + 1, some c⟩
          else tryLines q associativity as (hitCount + 1) b

/-- The lines of a set. -/
def lines (q : PointerQuery) (setIdx : ℕ) : List (BitVec 64) :=
  (q.tables.contentionSets[setIdx]?.map ContentionSet.addresses).getD []

/-- How the loop over the sets ends. -/
inductive SearchResult
  | found (setIdx : ℕ) (c : APInt)
  | notFound (backupAddress : Option APInt)

def trySets (q : PointerQuery) : List ℕ → Backup → Option SearchResult
  | [], b => some (.notFound b.address)
  | i :: is, b =>
      match q.tryLines (q.tables.associativity i) (q.lines i) (q.model.cache i).size b with
      | none => none
      | some (.found c) => some (.found i c)
      | some (.giveup b') => some (.notFound b'.address)
      | some (.done b') => trySets q is b'

/-- The order of the keys of `setCosts`, pairs `<<-cycles, misses till eviction>, rand>`. -/
abbrev costOrder : (ℤ × ℤ) × ℕ → (ℤ × ℤ) × ℕ → Ordering :=
  compareLex (compareOn fun p => p.1.1) (compareLex (compareOn fun p => p.1.2)
    (compareOn fun p => p.2))

/-- The sets by the damage a miss would cause; sets with equal keys overwrite each other. -/
def setCosts (q : PointerQuery) : TreeMap ((ℤ × ℤ) × ℕ) ℕ costOrder :=
  (List.range q.tables.contentionSets.length).foldl (fun m (setIdx : ℕ) =>
    m.insert ((-(q.model.getMissCost q.tables setIdx q.isWrite : ℤ),
      (q.tables.associativity setIdx : ℤ) - (q.model.cache setIdx).size), q.rand setIdx) setIdx) ∅

/-- The sets in the order in which they are tried. -/
def searchOrder (q : PointerQuery) : List ℕ := q.setCosts.toList.map Prod.snd

/-- The search for a line.  The message before the loop dereferences `setCosts.rbegin()`, which
an empty map does not have. -/
def search (q : PointerQuery) : Option SearchResult :=
  if q.opts.worstCaseSymIndices then
    if q.setCosts.isEmpty then none else q.trySets q.searchOrder {}
  else some (.notFound none)

/-! ### The whole call -/

/-- `TimingSolver::getValue` for a pointer that is not constant. -/
def timingGetValue (o : Opts) (simplifyExprs : Bool) (getValue : List Expr → Expr → Option APInt)
    (constraints : List Expr) (address : Expr) : Option APInt :=
  let e := if simplifyExprs then simplifyExpr o constraints address else address
  match e.constant? with
  | some c => some c
  | none => getValue constraints e

/-- Constrain the pointer to the value `c` and access it. -/
def pick (q : PointerQuery) (choice : Choice) (c : APInt) : Option PointerResult :=
  (addConstraint q.o q.constraints (EqExpr.create q.o (.const c) q.address)).map fun cs =>
    { constraints := cs
      model := q.model.updateCache q.tables (word c) q.isWrite
      address := c
      choice := choice }

/-- `memoryOperation` once the address is simplified and not a constant.  The state is terminated
where the result is `some none`. -/
def concretize (q : PointerQuery) : Option (Option PointerResult) :=
  match q.search with
  | none => none
  | some (.found i c) => (q.pick (.fullMatch i) c).map some
  | some (.notFound backupAddress) =>
      if q.opts.terminateOnUNSAT then some none
      else match backupAddress with
        | some c => (q.pick .backup c).map some
        | none => match timingGetValue q.o q.simplifyExprs q.getValue q.constraints q.address with
          | none => none
          | some c => (q.pick .anyValue c).map some

/-- `ContentionSetCacheModel::memoryOperation`. -/
def memoryOperation (q : PointerQuery) : Option (Option PointerResult) :=
  let address := simplifyExpr q.o q.constraints q.address
  match address.constant? with
  | some c => some (some
      { constraints := q.constraints
        model := q.model.updateCache q.tables (word c) q.isWrite
        address := c
        choice := .constant })
  | none => concretize { q with address := address }

end PointerQuery

end Castan
