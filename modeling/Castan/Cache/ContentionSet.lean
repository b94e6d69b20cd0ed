/-
# Contention sets

The cache model that is driven by a table of contention sets: sets of page offsets that compete
for the same `associativity` cache lines.  The table is loaded by the constructor into two global
variables, the list of sets and the index from addresses to set indices.  `updateCache` performs
one access at a concrete address; an address that belongs to several sets is looked up and
inserted in each of them, and one that belongs to none goes to the catch-all set `-1`.
-/
import Castan.Lib.Instances

namespace Castan

open Std (TreeMap TreeSet)

/-! ### Geometry -/

def blockBits : ℕ := 6

def pageBits : ℕ := 30

def cacheSize : ℕ := 25600 * 1024

def cacheHitLatency : ℚ := 30 * (23 / 100)

def cacheMissLatency : ℚ := 62

/-- The address of the cache line, `address & ~((1 << BLOCK_BITS) - 1)`. -/
def blockAddr (address : BitVec 64) : BitVec 64 := address &&& ~~~((1#64 <<< blockBits) - 1)

/-- The offset of a cache line in its page. -/
def pageAddr (block : BitVec 64) : BitVec 64 := block &&& ((1#64 <<< pageBits) - 1)

/-! ### The tables -/

/-- A contention set: its addresses (`long`s, in increasing order) and its number of ways. -/
structure ContentionSet where
  addresses : List (BitVec 64)
  associativity : ℕ
  sorted : addresses.Pairwise fun a b => a.toInt < b.toInt
  associativity_pos : 0 < associativity

lemma sorted_line : [64#64].Pairwise fun a b => a.toInt < b.toInt := by decide

lemma sorted_page : [0#64, 4096#64].Pairwise fun a b => a.toInt < b.toInt := by decide

/-- `address -> [set idxs]`. -/
abbrev SetIdxs := TreeMap (BitVec 64) (TreeSet ℤ)

/-- `contentionSetIdxs[address].insert(i)`. -/
def SetIdxs.insertIdx (m : SetIdxs) (address : BitVec 64) (i : ℤ) : SetIdxs :=
  m.insert address ((m.getD address ∅).insert i)

/-- The loop of the constructor over the loaded sets. -/
def SetIdxs.index (m : SetIdxs) (sets : List ContentionSet) : SetIdxs :=
  sets.zipIdx.foldl
    (fun m p => p.1.addresses.foldl (fun m address => m.insertIdx address (p.2 : ℤ)) m) m

/-- `address` belongs to set number `i` of `sets`. -/
def InSet (sets : List ContentionSet) (address : BitVec 64) (i : ℤ) : Prop :=
  ∃ n s, i = (n : ℕ) ∧ sets[n]? = some s ∧ address ∈ s.addresses

/-- The index lists, for each address, the sets it belongs to, and has no empty entries. -/
structure SetIdxs.Indexes (m : SetIdxs) (sets : List ContentionSet) : Prop where
  mem_iff : ∀ address i, i ∈ m.getD address ∅ ↔ InSet sets address i
  contains_iff : ∀ address, address ∈ m ↔ ∃ i, i ∈ m.getD address ∅

/-- The global variables of the model. -/
structure Tables where
  contentionSets : List ContentionSet
  contentionSetIdxs : SetIdxs
  indexes : contentionSetIdxs.Indexes contentionSets

namespace SetIdxs

variable {m : SetIdxs} {sets : List ContentionSet} {a b : BitVec 64} {i j : ℤ}

lemma mem_insertIdx : i ∈ (m.insertIdx a j).getD b ∅ ↔ (a = b ∧ j = i) ∨ i ∈ m.getD b ∅ := by
  rw [insertIdx, TreeMap.getD_insert]
  by_cases hab : a = b
  · subst hab
    rw [if_pos (by simp), TreeSet.mem_insert]
    simp
  · rw [if_neg (by simpa using hab)]
    simp [hab]

lemma contains_insertIdx : b ∈ m.insertIdx a j ↔ a = b ∨ b ∈ m := by
  rw [insertIdx, TreeMap.mem_insert]
  simp

lemma mem_insertAll (addresses : List (BitVec 64)) :
    i ∈ (addresses.foldl (fun m address => m.insertIdx address j) m).getD b ∅ ↔
      (b ∈ addresses ∧ j = i) ∨ i ∈ m.getD b ∅ := by
  induction addresses generalizing m with
  | nil => simp
  | cons a addresses ih =>
    rw [List.foldl_cons, ih, mem_insertIdx, List.mem_cons, eq_comm (a := a)]
    tauto

lemma contains_insertAll (addresses : List (BitVec 64)) :
    b ∈ addresses.foldl (fun m address => m.insertIdx address j) m ↔ b ∈ addresses ∨ b ∈ m := by
  induction addresses generalizing m with
  | nil => simp
  | cons a addresses ih =>
    rw [List.foldl_cons, ih, contains_insertIdx, List.mem_cons, eq_comm (a := a)]
    tauto

lemma mem_foldl_insertAll (ps : List (ContentionSet × ℕ)) :
    i ∈ (ps.foldl (fun m p => p.1.addresses.foldl
        (fun m address => m.insertIdx address (p.2 : ℤ)) m) m).getD b ∅ ↔
      (∃ p ∈ ps, b ∈ p.1.addresses ∧ (p.2 : ℤ) = i) ∨ i ∈ m.getD b ∅ := by
  induction ps generalizing m with
  | nil => simp
  | cons p ps ih =>
    rw [List.foldl_cons, ih, mem_insertAll]
    simp only [List.mem_cons, exists_eq_or_imp]
    rw [or_left_comm, or_assoc]

lemma contains_foldl_insertAll (ps : List (ContentionSet × ℕ)) :
    b ∈ ps.foldl (fun m p => p.1.addresses.foldl
        (fun m address => m.insertIdx address (p.2 : ℤ)) m) m ↔
      (∃ p ∈ ps, b ∈ p.1.addresses) ∨ b ∈ m := by
  induction ps generalizing m with
  | nil => simp
  | cons p ps ih =>
    rw [List.foldl_cons, ih, contains_insertAll]
    simp only [List.mem_cons, exists_eq_or_imp]
    rw [or_left_comm, or_assoc]

/-- The loop of the constructor re-indexes all sets, also those that an earlier model loaded. -/
lemma Indexes.load (h : m.Indexes sets) (loaded : List ContentionSet) :
    (m.index (sets ++ loaded)).Indexes (sets ++ loaded) := by
  have hmono : ∀ address i, InSet sets address i → InSet (sets ++ loaded) address i := by
    rintro address i ⟨n, s, rfl, hn, ha⟩
    exact ⟨n, s, rfl, by
      rw [List.getElem?_append_left (List.getElem?_eq_some_iff.mp hn).1, hn], ha⟩
  have hset : ∀ address i,
      (∃ p ∈ (sets ++ loaded).zipIdx, address ∈ p.1.addresses ∧ (p.2 : ℤ) = i) ↔
        InSet (sets ++ loaded) address i := by
    intro address i
    constructor
    · rintro ⟨⟨s, n⟩, hp, ha, rfl⟩
      exact ⟨n, s, rfl, List.mk_mem_zipIdx_iff_getElem?.mp hp, ha⟩
    · rintro ⟨n, s, rfl, hn, ha⟩
      exact ⟨(s, n), List.mk_mem_zipIdx_iff_getElem?.mpr hn, ha, rfl⟩
  have hmem : ∀ address i, i ∈ (m.index (sets ++ loaded)).getD address ∅ ↔
      InSet (sets ++ loaded) address i := by
    intro address i
    rw [index, mem_foldl_insertAll, hset, h.mem_iff]
    exact or_iff_left_of_imp (hmono address i)
  refine ⟨hmem, fun address => ?_⟩
  simp only [hmem]
  rw [index, contains_foldl_insertAll, h.contains_iff]
  simp only [h.mem_iff, ← hset]
  constructor
  · rintro (⟨p, hp, ha⟩ | ⟨i, hi⟩)
    · exact ⟨p.2, p, hp, ha, rfl⟩
    · exact ⟨i, (hset address i).mpr (hmono address i hi)⟩
  · rintro ⟨i, p, hp, ha, rfl⟩
    exact Or.inl ⟨p, hp, ha⟩

end SetIdxs

namespace Tables

/-- The globals before any model is built. -/
def empty : Tables where
  contentionSets := []
  contentionSetIdxs := ∅
  indexes := ⟨fun _ _ => by simp [InSet], fun _ => by simp⟩

/-- The constructor, once the file's records are read. -/
def load (t : Tables) (sets : List ContentionSet) : Tables where
  contentionSets := t.contentionSets ++ sets
  contentionSetIdxs := t.contentionSetIdxs.index (t.contentionSets ++ sets)
  indexes := t.indexes.load sets

/-- The sets an access to `block` affects. -/
def idxs (t : Tables) (block : BitVec 64) : TreeSet ℤ :=
  if t.contentionSetIdxs.contains (pageAddr block) then
    t.contentionSetIdxs.getD (pageAddr block) ∅
  else
    TreeSet.insert ∅ (-1)

/-- The number of ways of a set, `CACHE_SIZE / (1 << BLOCK_BITS)` for the catch-all one. -/
def associativity (t : Tables) (i : ℤ) : ℕ :=
  if 0 ≤ i then (t.contentionSets[i.toNat]?.map ContentionSet.associativity).getD 1
  else cacheSize / 2 ^ blockBits

/-- The page offset of `block` belongs to set `i`, or to no set if `i` is the catch-all one. -/
def Maps (t : Tables) (block : BitVec 64) (i : ℤ) : Prop :=
  InSet t.contentionSets (pageAddr block) i ∨
    i = -1 ∧ ∀ j, ¬ InSet t.contentionSets (pageAddr block) j

lemma mem_idxs_iff {t : Tables} {block : BitVec 64} {i : ℤ} :
    i ∈ t.idxs block ↔ t.Maps block i := by
  rw [idxs, Maps]
  by_cases hc : pageAddr block ∈ t.contentionSetIdxs
  · have hex := (t.indexes.contains_iff _).mp hc
    simp only [t.indexes.mem_iff] at hex
    rw [if_pos (TreeMap.contains_iff_mem.mpr hc), t.indexes.mem_iff]
    constructor
    · exact Or.inl
    · rintro (h | ⟨-, h⟩)
      · exact h
      · exact absurd hex.choose_spec (h _)
  · have hnone : ∀ j, ¬ InSet t.contentionSets (pageAddr block) j := fun j hj =>
      hc ((t.indexes.contains_iff _).mpr ⟨j, (t.indexes.mem_iff _ _).mpr hj⟩)
    rw [if_neg (by simpa [TreeMap.contains_iff_mem] using hc), TreeSet.mem_insert,
      Std.compare_eq_iff_eq, eq_comm]
    simp [hnone]

lemma associativity_pos (t : Tables) (i : ℤ) : 0 < t.associativity i := by
  rw [associativity]
  split
  · cases t.contentionSets[i.toNat]? with
    | none => exact Nat.one_pos
    | some s => exact s.associativity_pos
  · decide

end Tables

/-! ### The cache -/

/-- A cached line: the time of its most recent use and whether it is to be written back. -/
structure CacheEntry where
  useTime : BitVec 64
  dirty : Bool
  deriving DecidableEq

/-- The cached lines of one contention set. -/
abbrev CacheLines := TreeMap (BitVec 64) CacheEntry

/-- The counters of one iteration of the analysed loop. -/
structure LoopStats where
  instructionCount : BitVec 64 := 0
  readCount : BitVec 64 := 0
  writeCount : BitVec 64 := 0
  hitCount : BitVec 64 := 0
  missCount : BitVec 64 := 0
  deriving DecidableEq

/-- The model's own state.  `cache[i]` of a set that was never touched is empty. -/
structure CacheModel where
  enabled : Bool := false
  cache : ℤ → CacheLines := fun _ => ∅
  currentTime : BitVec 64 := 0
  loopStats : List LoopStats := []

namespace CacheLines

/-- The search for the oldest entry, in the order of the keys; the first one wins a tie. -/
def oldest (entries : List (BitVec 64 × CacheEntry)) (p : BitVec 64 × CacheEntry) :
    BitVec 64 × CacheEntry :=
  entries.foldl (fun lru entry => if entry.2.useTime < lru.2.useTime then entry else lru) p

/-- The entry an insertion would evict: the oldest one if the set is full. -/
def victim (associativity : ℕ) (m : CacheLines) : Option (BitVec 64 × CacheEntry) :=
  if associativity ≤ m.size then m.toList.head?.map (oldest m.toList) else none

/-- A line that was found is used again; a read does not affect its dirtiness. -/
def hit (m : CacheLines) (block now : BitVec 64) (isWrite : Bool) : CacheLines :=
  m.insert block
    { useTime := now
      dirty := if isWrite then true else (m[block]?.map CacheEntry.dirty).getD false }

/-- A line that was not found is inserted, in the place of the oldest one if the set is full. -/
def miss (associativity : ℕ) (m : CacheLines) (block now : BitVec 64) (isWrite : Bool) :
    CacheLines :=
  let m' := match m.victim associativity with
    | some lru => m.erase lru.1
    | none => m
  m'.insert block { useTime := now, dirty := isWrite }

/-- Does a miss write out a dirty line? -/
def evictsDirty (associativity : ℕ) (m : CacheLines) : Bool :=
  match m.victim associativity with
  | some lru => lru.2.dirty
  | none => false

end CacheLines

namespace CacheModel

/-- The variables of the loop of `updateCache` over the affected sets. -/
structure Access where
  cache : ℤ → CacheLines
  miss : Bool := true
  dirtyMiss : Bool := false

/-- One iteration of that loop, for a write-back cache. -/
def accessSet (t : Tables) (block now : BitVec 64) (isWrite : Bool) (r : Access) (setIdx : ℤ) :
    Access :=
  if (r.cache setIdx).contains block then
    { r with
      cache := Function.update r.cache setIdx ((r.cache setIdx).hit block now isWrite)
      miss := false }
  else
    { r with
      cache := Function.update r.cache setIdx
        ((r.cache setIdx).miss (t.associativity setIdx) block now isWrite)
      dirtyMiss := r.dirtyMiss || (r.cache setIdx).evictsDirty (t.associativity setIdx) }

/-- The counters at the end of `updateCache`. -/
def count (miss dirtyMiss : Bool) (stats : LoopStats) : LoopStats :=
  { stats with
    hitCount := if miss then stats.hitCount else stats.hitCount + 1
    missCount := (if miss then stats.missCount + 1 else stats.missCount) +
      if dirtyMiss then 1 else 0 }

/-- One access at a concrete address.  The statistics go to the last iteration. -/
def updateCache (t : Tables) (s : CacheModel) (address : BitVec 64) (isWrite : Bool) :
    CacheModel :=
  let block := blockAddr address
  let now := s.currentTime + 1
  let r := (t.idxs block).toList.foldl (accessSet t block now isWrite) { cache := s.cache }
  { s with
    cache := r.cache
    currentTime := now
    loopStats := s.loopStats.modifyLast (count r.miss r.dirtyMiss) }

/-- A sequence of calls of `updateCache`. -/
def run (t : Tables) (s : CacheModel) (trace : List (BitVec 64 × Bool)) : CacheModel :=
  trace.foldl (fun s access => s.updateCache t access.1 access.2) s

/-- The head of the analysed loop: a new iteration, unless there were `maxLoops` already. -/
def loop (maxLoops : ℕ) (s : CacheModel) : Bool × CacheModel :=
  if s.enabled then
    if maxLoops ≤ s.loopStats.length then (false, s)
    else (true, { s with loopStats := s.loopStats ++ [{}] })
  else (true, { s with enabled := true, loopStats := s.loopStats ++ [{}] })

def exec (s : CacheModel) : CacheModel :=
  if s.enabled then
    { s with loopStats := s.loopStats.modifyLast fun st =>
        { st with instructionCount := st.instructionCount + 1 } }
  else s

/-- What `load` and `store` count before `memoryOperation`. -/
def countAccess (s : CacheModel) (isWrite : Bool) : CacheModel :=
  { s with loopStats := s.loopStats.modifyLast fun st =>
      if isWrite then { st with writeCount := st.writeCount + 1 }
      else { st with readCount := st.readCount + 1 } }

/-- The states a model can get to. -/
inductive Reachable (t : Tables) : CacheModel → Prop
  | init : Reachable t {}
  | loop {s : CacheModel} (maxLoops : ℕ) : Reachable t s → Reachable t (s.loop maxLoops).2
  | exec {s : CacheModel} : Reachable t s → Reachable t s.exec
  | countAccess {s : CacheModel} (isWrite : Bool) : Reachable t s → s.enabled = true →
      Reachable t (s.countAccess isWrite)
  | updateCache {s : CacheModel} (address : BitVec 64) (isWrite : Bool) : Reachable t s →
      s.enabled = true → Reachable t (s.updateCache t address isWrite)

/-- The cost of a miss in a set, truncated to an `unsigned long` by each addition. -/
def getMissCost (t : Tables) (s : CacheModel) (setIdx : ℤ) (isWrite : Bool) : ℕ :=
  let cost := if (s.cache setIdx).evictsDirty (t.associativity setIdx) then
    ⌊cacheMissLatency⌋₊ else 0
  if isWrite then ⌊(cost : ℚ) + cacheHitLatency⌋₊ else ⌊(cost : ℚ) + cacheMissLatency⌋₊

end CacheModel

end Castan
