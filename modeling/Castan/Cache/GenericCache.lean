/-
# The generic cache model

A hierarchy of caches, each of them set-associative or driven by a table of contention sets.
`updateCache` performs one access at a level; a miss and a write-through go on to the next level,
and so does the write-back of a dirty block that a miss evicts.  Beyond the last level is DRAM.
-/
import Castan.Cache.ContentionSet

namespace Castan

open Std (TreeMap)

/-- An entry of `cacheConfig`. -/
structure CacheLevel where
  /-- The size in bytes. -/
  size : BitVec 32
  writeBack : Bool
  /-- The number of ways, or 0 for a level with contention sets. -/
  associativity : BitVec 32
  contentionSets : List ContentionSet
  contentionSetIdx : TreeMap (BitVec 64) ℕ

namespace CacheLevel

/-- The number of lines of a set-associative level. -/
def lines (c : CacheLevel) : ℕ := c.size.toNat / c.associativity.toNat / 2 ^ blockBits

/-- The line of a block, as the key in `cache[level]`, and its number of ways.  A block in no
contention set is in the line `-1`, which has no limit. -/
def place (c : CacheLevel) (blockPtr : BitVec 64) : BitVec 32 × ℕ :=
  if c.associativity ≠ 0 then
    (BitVec.ofNat 32 (blockPtr.toNat % c.lines), c.associativity.toNat)
  else
    match c.contentionSetIdx[blockPtr <<< blockBits]?.bind (c.contentionSets[·]?) with
    | some s => ((s.addresses.headD 0).setWidth 32, s.associativity)
    | none => (-1, 2 ^ 32 - 1)

/-- A set-associative level with at least one way and one line. -/
structure SetAssociative (c : CacheLevel) : Prop where
  associativity_pos : 0 < c.associativity.toNat
  lines_pos : 0 < c.lines

lemma SetAssociative.place_snd {c : CacheLevel} (h : c.SetAssociative) (block : BitVec 64) :
    (c.place block).2 = c.associativity.toNat := by
  have hne : c.associativity ≠ 0 := by
    intro h0
    have hpos := h.associativity_pos
    rw [h0] at hpos
    exact lt_irrefl 0 hpos
  rw [place, if_pos hne]

end CacheLevel

/-- A call of `updateCache` at a level: the block, whether it is a write, and the time. -/
structure CacheAccess where
  block : BitVec 64
  isWrite : Bool
  time : BitVec 64
deriving DecidableEq

/-- `GenericCacheModel`, with the statistics of the current iteration of the loop. -/
structure GenericCacheModel where
  /-- `[level][line][block]`. -/
  cache : ℕ → BitVec 32 → CacheLines
  currentTime : BitVec 64
  hitCount : ℕ → BitVec 64
  /-- Not in the source: the accesses that reached each level, in the order of the calls of
  `updateCache`. -/
  reached : ℕ → List CacheAccess

namespace GenericCacheModel

/-- The model before the first access. -/
def empty : GenericCacheModel := ⟨fun _ _ => ∅, 0, fun _ => 0, fun _ => []⟩

/-- Assign `cache[level][line]`. -/
def setLine (s : GenericCacheModel) (level : ℕ) (line : BitVec 32) (m : CacheLines) :
    GenericCacheModel :=
  { s with cache := Function.update s.cache level (Function.update (s.cache level) line m) }

/-- `loopStats.back().hitCount[level]++`. -/
def countHit (s : GenericCacheModel) (level : ℕ) : GenericCacheModel :=
  { s with hitCount := Function.update s.hitCount level (s.hitCount level + 1) }

/-- The clock advances for the first level only. -/
def advance (s : GenericCacheModel) (level : ℕ) : GenericCacheModel :=
  if level = 0 then { s with currentTime := s.currentTime + 1 } else s

/-- An access arrives at a level. -/
def enter (s : GenericCacheModel) (level : ℕ) (block : BitVec 64) (isWrite : Bool) :
    GenericCacheModel :=
  { s with
    reached := Function.update s.reached level
      (s.reached level ++ [⟨block, isWrite, s.currentTime⟩]) }

lemma enter_reached_self (s : GenericCacheModel) (level : ℕ) (block : BitVec 64) (isWrite : Bool) :
    (s.enter level block isWrite).reached level =
      s.reached level ++ [⟨block, isWrite, s.currentTime⟩] :=
  Function.update_self _ _ _

lemma enter_reached_of_ne (s : GenericCacheModel) {level k : ℕ} (hk : k ≠ level)
    (block : BitVec 64) (isWrite : Bool) :
    (s.enter level block isWrite).reached k = s.reached k :=
  Function.update_of_ne hk _ _

/-- `updateCache` at the next level, for an address and whether it is a write. -/
abbrev Next := GenericCacheModel → BitVec 64 → Bool → Option GenericCacheModel

section Level

variable (next : Next) (c : CacheLevel) (level : ℕ) (line : BitVec 32)

/-- The end of a hit: the time of the use, and the dirtiness, which a read does not affect. -/
def touchBlock (s : GenericCacheModel) (block : BitVec 64) (isWrite : Bool) : GenericCacheModel :=
  let m := s.cache level line
  let dirty := if isWrite then c.writeBack else (m[block]?.map CacheEntry.dirty).getD false
  s.setLine level line (m.insert block ⟨s.currentTime, dirty⟩)

/-- A hit: a write goes through to the next level, unless this one is write-back. -/
def hit (s : GenericCacheModel) (address : BitVec 64) (isWrite : Bool) :
    Option GenericCacheModel :=
  (if isWrite && !c.writeBack then next s address isWrite else some (s.countHit level)).map
    fun s => touchBlock c level line s (address >>> blockBits) isWrite

/-- Make room in a line, and write out the oldest entry if it is dirty. -/
def evict (associativity : ℕ) (s : GenericCacheModel) : Option GenericCacheModel :=
  match (s.cache level line).victim associativity with
  | none => some s
  | some lru =>
      (if lru.2.dirty then next s (lru.1 <<< blockBits) true else some s).map
        fun s => s.setLine level line ((s.cache level line).erase lru.1)

/-- The end of a miss. -/
def insertBlock (s : GenericCacheModel) (block : BitVec 64) (isWrite : Bool) : GenericCacheModel :=
  s.setLine level line ((s.cache level line).insert block ⟨s.currentTime, isWrite && c.writeBack⟩)

/-- A miss: the entry is read in or written through, unless it is a write to a write-back level. -/
def miss (associativity : ℕ) (s : GenericCacheModel) (address : BitVec 64) (isWrite : Bool) :
    Option GenericCacheModel :=
  (evict next level line associativity s).bind fun s =>
    (if !isWrite || !c.writeBack then next s address isWrite else some s).map
      fun s => insertBlock c level line s (address >>> blockBits) isWrite

/-- `updateCache` at a level that exists. -/
def accessLevel (s : GenericCacheModel) (address : BitVec 64) (isWrite : Bool) :
    Option GenericCacheModel :=
  let place := c.place (address >>> blockBits)
  if (s.cache level place.1).contains (address >>> blockBits) then
    hit next c level place.1 s address isWrite
  else miss next c level place.1 place.2 s address isWrite

end Level

/-- `updateCache`.  The level is a `uint8_t`; `fuel` bounds the depth of the recursion. -/
def updateCache (cacheConfig : List CacheLevel) :
    (fuel : ℕ) → GenericCacheModel → (address : BitVec 64) → (isWrite : Bool) → (level : ℕ) →
      Option GenericCacheModel
  | 0, _, _, _, _ => none
  | fuel + 1, s, address, isWrite, level =>
      match cacheConfig[level]? with
      | none => some (s.countHit level)
      | some c =>
          accessLevel (fun s a w => updateCache cacheConfig fuel s a w ((level + 1) % 2 ^ 8)) c
            level ((s.advance level).enter level (address >>> blockBits) isWrite) address isWrite

/-- A trace of accesses. -/
def run (cacheConfig : List CacheLevel) (fuel : ℕ) (s : GenericCacheModel) :
    List (BitVec 64 × Bool) → Option GenericCacheModel
  | [] => some s
  | access :: trace => do
      let s ← updateCache cacheConfig fuel s access.1 access.2 0
      run cacheConfig fuel s trace

end GenericCacheModel

end Castan
