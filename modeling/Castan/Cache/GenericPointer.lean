/-
# Concretization of symbolic pointers in the generic cache model

`GenericCacheModel::memoryOperation` picks a concrete address for an access through a symbolic
pointer.  It goes through the lines of all levels, those with the most expensive misses first, and
among them those with the fewest misses until an eviction.  If all levels are set-associative it
asks the solver for an address in the line that is none of the cached ones.  If some level has
contention sets it goes through the addresses of the set that starts with the line, and takes the
one that completes an eviction.
-/
import Castan.Cache.GenericCacheCost
import Castan.Cache.SymbolicPointer

namespace Castan

open ConstraintManager (simplifyExpr addConstraint)
open PointerQuery (Probe word lineMask timingGetValue costOrder)

namespace CacheLevel

/-- The lines of a level in the set `lines`: all line numbers, or the block number of the first
address of each contention set. -/
def lineNumbers (c : CacheLevel) : List (BitVec 32) :=
  if c.associativity ≠ 0 then (List.range c.lines).map (BitVec.ofNat 32)
  else c.contentionSets.map fun s => ((s.addresses.headD 0).sshiftRight blockBits).setWidth 32

/-- The contention set of a level that contains the address of a line. -/
def setOfLine (c : CacheLevel) (line : BitVec 32) : Option ContentionSet :=
  c.contentionSetIdx[line.setWidth 64 <<< blockBits]?.bind (c.contentionSets[·]?)

/-- The key in `cache[level]` under which the search looks for the cached blocks of a line. -/
def hitKey (c : CacheLevel) (line : BitVec 32) : BitVec 32 :=
  if c.associativity ≠ 0 then BitVec.ofNat 32 (line.toNat % c.lines) else line

/-- The line and the number of ways in `getMissCost`, which does not set the number of ways of a
set-associative level.  A block in no contention set has `UINT_MAX` ways too, and no line is as
full as that. -/
def missPlace (c : CacheLevel) (blockPtr : BitVec 64) : Option (BitVec 32 × ℕ) :=
  (c.costPlace blockPtr).map fun place =>
    if c.associativity ≠ 0 then (place.1, 2 ^ 32 - 1) else place

end CacheLevel

namespace GenericCacheModel

/-- `getMissCost`: the cost of an access that misses in all levels it reaches. -/
def getMissCost (cacheConfig : List CacheLevel) (latency : ℕ → BitVec 64) (s : GenericCacheModel) :
    (fuel : ℕ) → (address : BitVec 64) → (isWrite : Bool) → (level : ℕ) → Option (BitVec 64)
  | 0, _, _, _ => none
  | fuel + 1, address, isWrite, level =>
      match cacheConfig[level]? with
      | none => some (latency level)
      | some c =>
          let victim := (c.missPlace (address >>> blockBits)).bind fun place =>
            (s.cache level place.1).victim place.2
          (evictionCost (fun a w => getCost cacheConfig latency s fuel a w ((level + 1) % 2 ^ 8))
              victim).bind fun cost =>
            (if !isWrite || !c.writeBack then
              getMissCost cacheConfig latency s fuel address isWrite ((level + 1) % 2 ^ 8)
            else some (latency level)).map (cost + ·)

/-- `CACHE_L3_SIZE`. -/
def cacheL3Size : ℕ := 25600 * 1024

/-- `getMissesUntilEviction`, which looks at the third level only.  The `int` of the source is
returned as an `unsigned long`.  The entry behind the last level is DRAM and has no contention
sets; the result is `none` if `cacheConfig` has no third entry. -/
def getMissesUntilEviction (cacheConfig : List CacheLevel) (s : GenericCacheModel)
    (address : BitVec 64) : Option (BitVec 64) :=
  let set? := cacheConfig[2]?.bind fun c =>
    c.contentionSetIdx[address]?.bind (c.contentionSets[·]?)
  if cacheConfig.length < 2 then none
  else match set? with
    | some set =>
        let ways : BitVec 64 := BitVec.ofNat 64 set.associativity
        let used : BitVec 64 := BitVec.ofNat 64 (s.cache 2 (address.setWidth 32)).size
        some (((ways - used).setWidth 32).signExtend 64)
    | none => some (BitVec.ofNat 64 (cacheL3Size / 2 ^ blockBits))

end GenericCacheModel

/-- What a call of `memoryOperation` reads. -/
structure GenericQuery where
  o : Opts
  /-- `worst-case-sym-indices`. -/
  worstCaseSymIndices : Bool
  /-- The flag `simplifyExprs` of the timing solver. -/
  simplifyExprs : Bool
  cacheConfig : List CacheLevel
  /-- The latencies of the levels and of DRAM, in whole cycles. -/
  latency : ℕ → BitVec 64
  model : GenericCacheModel
  constraints : List Expr
  address : Expr
  isWrite : Bool
  /-- What `rand` returns for each line. -/
  rand : BitVec 32 → ℕ

/-- A call that returns. -/
structure GenericResult where
  constraints : List Expr
  model : GenericCacheModel
  address : APInt
  found : Bool

namespace GenericQuery

/-- The set `lines`. -/
def lines (q : GenericQuery) : List (BitVec 32) := q.cacheConfig.flatMap CacheLevel.lineNumbers

/-- The key of a line in `lineCosts`, a pair `<<-cycles, misses till eviction>, rand>`. -/
def lineKey (q : GenericQuery) (fuel : ℕ) (line : BitVec 32) : Option ((ℤ × ℤ) × ℕ) := do
  let address : BitVec 64 := (line <<< blockBits).setWidth 64
  let cost ← q.model.getMissCost q.cacheConfig q.latency fuel address q.isWrite 0
  let misses ← q.model.getMissesUntilEviction q.cacheConfig address
  return (((-cost).toInt, misses.toInt), q.rand line)

/-- The lines by the damage a miss would cause; lines with equal keys overwrite each other. -/
def lineCosts (q : GenericQuery) (fuel : ℕ) :
    Option (Std.TreeMap ((ℤ × ℤ) × ℕ) (BitVec 32) costOrder) :=
  (q.lines.dedup.insertionSort fun a b => a.toNat ≤ b.toNat).foldlM
    (fun m line => (q.lineKey fuel line).map fun key => m.insert key line) ∅

/-- Some level has contention sets. -/
def enumeratedSets (q : GenericQuery) : Bool := q.cacheConfig.any fun c => c.associativity = 0

/-- The blocks that are cached in a line of some level, as the search sees them. -/
def hitBlocks (q : GenericQuery) (line : BitVec 32) : List (BitVec 64) :=
  q.cacheConfig.zipIdx.flatMap fun p => (q.model.cache p.2 (p.1.hitKey line)).keys

/-- `Solver::getValue`: `none` if it fails. -/
abbrev GetValue := List Expr → Expr → Option APInt

/-- A constraint that the address, masked with `mask`, is `value`. -/
def maskedEq (q : GenericQuery) (mask value : BitVec 64) : Expr :=
  EqExpr.create q.o (.const (.ofNat q.address.width value.toNat))
    (AndExpr.create (.const (.ofNat q.address.width mask.toNat)) q.address)

/-! ### Set-associative levels -/

/-- `*lines.rbegin()`. -/
def maxLine (q : GenericQuery) : BitVec 32 :=
  BitVec.ofNat 32 ((q.lines.map BitVec.toNat).foldr max 0)

/-- The address is in a line of the level with the most lines. -/
def lineEq (q : GenericQuery) (line : BitVec 32) : Expr :=
  q.maskedEq ((q.maxLine <<< blockBits).setWidth 64) (line.setWidth 64 <<< blockBits)

/-- The address is not in a cached block. -/
def notHit (q : GenericQuery) (block : BitVec 64) : Expr :=
  NotExpr.create (q.maskedEq ((-1 : BitVec 64) <<< blockBits) (block <<< blockBits))

/-- Constrain against hit addresses.  The result is `none` if an assertion fails, and
`some none` if a constraint simplifies to false. -/
def exclude (q : GenericQuery) : (hits : List (BitVec 64)) → (constraints : List Expr) →
    Option (Option (List Expr))
  | [], cs => some (some cs)
  | hit :: hits, cs =>
      let e := simplifyExpr q.o cs (q.notHit hit)
      if e.constant?.any APInt.isFalse then some none
      else (addConstraint q.o cs e).bind (exclude q hits)

/-- One line of set-associative levels. -/
def tryLine (q : GenericQuery) (getValue : GetValue) (line : BitVec 32) : Option (Option APInt) :=
  let e := simplifyExpr q.o q.constraints (q.lineEq line)
  if e.constant?.any APInt.isFalse then some none
  else
    (addConstraint q.o q.constraints e).bind fun cs =>
      (q.exclude (q.hitBlocks line) cs).map fun r => r.bind fun cs => getValue cs q.address

/-! ### Levels with contention sets -/

/-- Does the address fit the line `a` of a page? -/
def probe (q : GenericQuery) (getValue : GetValue) (a : BitVec 64) : Probe :=
  let e := simplifyExpr q.o q.constraints (q.maskedEq lineMask a)
  if e.constant?.any APInt.isFalse then .triviallyUnsat
  else match addConstraint q.o q.constraints e with
    | none => .clash
    | some cs => match getValue cs q.address with
      | none => .unsat
      | some c => .value c

/-- The set `hits`. -/
def hits (q : GenericQuery) (line : BitVec 32) : List (BitVec 64) := (q.hitBlocks line).dedup

/-- The variable `addresses`; only one level should have contention sets. -/
def addresses (q : GenericQuery) (line : BitVec 32) : List (BitVec 64) :=
  q.cacheConfig.foldl (fun addresses c =>
    if c.associativity ≠ 0 then addresses
    else match c.setOfLine line with
      | some s => s.addresses
      | none => addresses) []

/-- The variable `associativity`. -/
def associativity (q : GenericQuery) (line : BitVec 32) : ℕ :=
  q.cacheConfig.foldl (fun associativity c =>
    if c.associativity ≠ 0 then max associativity c.associativity.toNat
    else match c.setOfLine line with
      | some s => max associativity s.associativity
      | none => associativity) 0

/-- The loop over the addresses of a contention set. -/
def tryAddresses (q : GenericQuery) (getValue : GetValue) (line : BitVec 32) :
    List (BitVec 64) → (hitCount : ℕ) → Option (Option APInt)
  | [], _ => some none
  | a :: as, hitCount =>
      if a ∈ q.hits line then tryAddresses q getValue line as hitCount
      else match q.probe getValue a with
        | .triviallyUnsat => tryAddresses q getValue line as hitCount
        | .clash => none
        | .unsat => tryAddresses q getValue line as hitCount
        | .value c =>
            if hitCount + 1 > q.associativity line then some (some c)
            else tryAddresses q getValue line as (hitCount + 1)

/-! ### The whole call -/

/-- The loop over the lines. -/
def search (q : GenericQuery) (getValue : GetValue) : List (BitVec 32) → Option (Option APInt)
  | [] => some none
  | line :: rest =>
      (if q.enumeratedSets then
        q.tryAddresses getValue line (q.addresses line) (q.hits line).length
      else q.tryLine getValue line).bind fun
        | some c => some (some c)
        | none => search q getValue rest

/-- The access at the concrete address. -/
def access (q : GenericQuery) (fuel : ℕ) (found : Bool) (constraints : List Expr) (c : APInt) :
    Option GenericResult :=
  (q.model.updateCache q.cacheConfig fuel (word c) q.isWrite 0).map
    fun model => ⟨constraints, model, c, found⟩

/-- Constrain the pointer to the value `c` and access it. -/
def pick (q : GenericQuery) (fuel : ℕ) (found : Bool) (c : APInt) : Option GenericResult :=
  (addConstraint q.o q.constraints (EqExpr.create q.o (.const c) q.address)).bind fun cs =>
    q.access fuel found cs c

/-- The worst case.  The message before the loop dereferences `lineCosts.rbegin()`, which an empty
map does not have. -/
def searchLines (q : GenericQuery) (getValue : GetValue) (fuel : ℕ) : Option (Option APInt) :=
  (q.lineCosts fuel).bind fun m =>
    if m.isEmpty then none else q.search getValue (m.toList.map Prod.snd)

/-- `memoryOperation` once the address is simplified. -/
def concretize (q : GenericQuery) (getValue : GetValue) (fuel : ℕ) : Option GenericResult :=
  (if q.worstCaseSymIndices then q.searchLines getValue fuel else some none).bind fun
    | some c => q.pick fuel true c
    | none => (timingGetValue q.o q.simplifyExprs getValue q.constraints q.address).bind
        (q.pick fuel false)

/-- `GenericCacheModel::memoryOperation`. -/
def memoryOperation (q : GenericQuery) (getValue : GetValue) (fuel : ℕ) : Option GenericResult :=
  match q.address.constant? with
  | some c => q.access fuel false q.constraints c
  | none =>
      concretize { q with address := simplifyExpr q.o q.constraints q.address } getValue fuel

end GenericQuery

end Castan
