/-
# The predicted cost of an access

`getCost` predicts what an access costs without performing it; `updateCache` performs it and
counts a hit at each level that serves it.  As long as no dirty block is evicted on the way, the
prediction is the latency of the level that counts the hit, but a write that misses in a write-back
level is predicted to cost the latency of that level and counted nowhere.  So for such an access
the two agree exactly if it is no write that misses in a write-back level.
-/
import Castan.Cache.GenericCacheEntries

namespace Castan

open Option

namespace CacheLevel

/-- The line and the number of ways in `getCost`, which leaves the line uninitialised where
`updateCache` uses the line `-1`. -/
def costPlace (c : CacheLevel) (blockPtr : BitVec 64) : Option (BitVec 32 × ℕ) :=
  if c.associativity ≠ 0 then
    some (BitVec.ofNat 32 (blockPtr.toNat % c.lines), c.associativity.toNat)
  else
    (c.contentionSetIdx[blockPtr <<< blockBits]?.bind (c.contentionSets[·]?)).map
      fun s => ((s.addresses.headD 0).setWidth 32, s.associativity)

lemma SetAssociative.costPlace_eq {c : CacheLevel} (h : c.SetAssociative) (block : BitVec 64) :
    c.costPlace block = some (c.place block) := by
  have hne : c.associativity ≠ 0 := by
    intro h0
    have hpos := h.associativity_pos
    rw [h0] at hpos
    exact lt_irrefl 0 hpos
  rw [costPlace, place, if_pos hne, if_pos hne]

end CacheLevel

namespace GenericCacheModel

/-- The cost of writing an evicted entry to the next level if it is dirty. -/
def evictionCost (next : (address : BitVec 64) → (isWrite : Bool) → Option (BitVec 64)) :
    Option (BitVec 64 × CacheEntry) → Option (BitVec 64)
  | none => some 0
  | some lru => if lru.2.dirty then next (lru.1 <<< blockBits) true else some 0

/-- `getCost` at a level that exists; `next` is `getCost` at the next level. -/
def costLevel (next : (address : BitVec 64) → (isWrite : Bool) → Option (BitVec 64))
    (c : CacheLevel) (latency : BitVec 64) (level : ℕ) (s : GenericCacheModel)
    (address : BitVec 64) (isWrite : Bool) : Option (BitVec 64) :=
  (c.costPlace (address >>> blockBits)).bind fun place =>
    let m := s.cache level place.1
    if m.contains (address >>> blockBits) then
      if isWrite && !c.writeBack then next address isWrite else some latency
    else
      (evictionCost next (m.victim place.2)).bind fun cost =>
        -- read in or write-through new entry from next level, or write-back to current level
        (if !isWrite || !c.writeBack then next address isWrite else some latency).map (cost + ·)

/-- `getCost`.  The entry of `cacheConfig` behind the last level is DRAM; it has a latency
too. -/
def getCost (cacheConfig : List CacheLevel) (latency : ℕ → BitVec 64) (s : GenericCacheModel) :
    (fuel : ℕ) → (address : BitVec 64) → (isWrite : Bool) → (level : ℕ) → Option (BitVec 64)
  | 0, _, _, _ => none
  | fuel + 1, address, isWrite, level =>
      match cacheConfig[level]? with
      | none => some (latency level)
      | some c =>
          costLevel (fun a w => getCost cacheConfig latency s fuel a w ((level + 1) % 2 ^ 8)) c
            (latency level) level s address isWrite

/-- Both functions return, and the predicted cost of an access is the sum over the levels and
DRAM of the latency times the increase of the number of hits. -/
def Predicts (cacheConfig : List CacheLevel) (latency : ℕ → BitVec 64) (fuel : ℕ)
    (s : GenericCacheModel) (address : BitVec 64) (isWrite : Bool) : Prop :=
  ∃ cost s', getCost cacheConfig latency s fuel address isWrite 0 = some cost ∧
    updateCache cacheConfig fuel s address isWrite 0 = some s' ∧
    cost.toNat = ∑ level ∈ Finset.range (cacheConfig.length + 1),
      (latency level).toNat * (s'.hitCount level - s.hitCount level).toNat

/-! ### Accesses that evict no dirty block -/

/-- The access evicts no dirty block from the levels that it reaches. -/
def EvictsClean (s : GenericCacheModel) : List CacheLevel → (level : ℕ) → (address : BitVec 64) →
    (isWrite : Bool) → Prop
  | [], _, _, _ => True
  | c :: levels, level, address, isWrite =>
      let place := c.place (address >>> blockBits)
      let m := s.cache level place.1
      if m.contains (address >>> blockBits) then
        (isWrite && !c.writeBack) = true → EvictsClean s levels (level + 1) address isWrite
      else
        (∀ lru, m.victim place.2 = some lru → lru.2.dirty = false) ∧
        ((!isWrite || !c.writeBack) = true → EvictsClean s levels (level + 1) address isWrite)

/-- The access is a write that reaches a write-back level and misses there. -/
def Allocates (s : GenericCacheModel) : List CacheLevel → (level : ℕ) → (address : BitVec 64) →
    (isWrite : Bool) → Prop
  | [], _, _, _ => False
  | c :: levels, level, address, isWrite =>
      isWrite = true ∧
        if c.writeBack then
          (s.cache level (c.place (address >>> blockBits)).1).contains
            (address >>> blockBits) = false
        else Allocates s levels (level + 1) address isWrite

/-- A write goes on behind a write-through level. -/
lemma allocates_cons {s : GenericCacheModel} {c : CacheLevel} {levels : List CacheLevel} {level : ℕ}
    {address : BitVec 64} {isWrite : Bool} (h : c.writeBack = false) :
    s.Allocates (c :: levels) level address isWrite ↔
      s.Allocates levels (level + 1) address isWrite := by
  cases levels <;> simp +contextual [Allocates, h]

lemma not_allocates_read {s : GenericCacheModel} {levels : List CacheLevel} {level : ℕ}
    {address : BitVec 64} : ¬ s.Allocates levels level address false := by
  cases levels <;> simp [Allocates]

/-- The two states hold the same entries from a level on. -/
def SameFrom (level : ℕ) (s s' : GenericCacheModel) : Prop :=
  ∀ k, level ≤ k → s'.cache k = s.cache k

lemma SameFrom.succ {level : ℕ} {s s' : GenericCacheModel} (h : SameFrom level s s') :
    SameFrom (level + 1) s s' := fun k hk => h k (by omega)

lemma SameFrom.of_ne {level : ℕ} {s s₁ s₂ : GenericCacheModel} (h : SameFrom level s s₁)
    (hne : ∀ k, k ≠ level → s₂.cache k = s₁.cache k) : SameFrom (level + 1) s s₂ :=
  fun k hk => (hne k (by omega)).trans (h k (by omega))

/-- An access costs `cost`, and performing it changes the counters by `count`, in every state
that holds the same entries from its level on. -/
structure Charges (level : ℕ) (s : GenericCacheModel) (predicted : Option (BitVec 64))
    (performed : GenericCacheModel → Option GenericCacheModel) (cost : BitVec 64)
    (count : (ℕ → BitVec 64) → ℕ → BitVec 64) : Prop where
  predicted_eq : predicted = some cost
  performed_eq : ∀ s', SameFrom level s s' →
    ∃ s'', performed s' = some s'' ∧ s''.hitCount = count s'.hitCount

/-- One more hit at a level. -/
def oneHit (k : ℕ) (hits : ℕ → BitVec 64) : ℕ → BitVec 64 :=
  Function.update hits k (hits k + 1)

@[simp] lemma advance_hitCount (s : GenericCacheModel) (level : ℕ) :
    (s.advance level).hitCount = s.hitCount := by
  rw [advance]
  split <;> rfl

/-- The eviction of a clean block changes the level only, and counts no hit. -/
lemma evict_clean (next : Next) {level associativity : ℕ} {line : BitVec 32}
    {s : GenericCacheModel}
    (h : ∀ lru, (s.cache level line).victim associativity = some lru → lru.2.dirty = false) :
    ∃ s₁, evict next level line associativity s = some s₁ ∧ s₁.hitCount = s.hitCount ∧
      ∀ k, k ≠ level → s₁.cache k = s.cache k := by
  cases hv : (s.cache level line).victim associativity with
  | none => exact ⟨s, by rw [evict, hv], rfl, fun _ _ => rfl⟩
  | some lru =>
    refine ⟨s.setLine level line ((s.cache level line).erase lru.1), ?_, rfl,
      fun k hk => s.setLine_cache_of_ne hk _ _⟩
    simp only [evict, hv, h lru hv, Bool.false_eq_true, if_false, map_some]

section Level

variable {costNext : (address : BitVec 64) → (isWrite : Bool) → Option (BitVec 64)} {next : Next}
  {c : CacheLevel} {level : ℕ} {latency cost : BitVec 64} {s : GenericCacheModel}
  {address : BitVec 64} {isWrite : Bool} {count : (ℕ → BitVec 64) → ℕ → BitVec 64}

/-- Entering a level changes neither the entries nor the counters. -/
lemma Charges.enter {predicted : Option (BitVec 64)}
    {performed : GenericCacheModel → Option GenericCacheModel}
    (h : Charges level s predicted performed cost count) (block : BitVec 64) :
    Charges level s predicted (fun s' => performed ((s'.advance level).enter level block isWrite))
      cost count := by
  refine ⟨h.predicted_eq, fun s' hs' => ?_⟩
  obtain ⟨s'', hs'', hcount⟩ := h.performed_eq ((s'.advance level).enter level block isWrite)
    (fun k hk => (congrFun (advance_cache s' level) k).trans (hs' k hk))
  exact ⟨s'', hs'', hcount.trans (congrArg count (advance_hitCount s' level))⟩

/-- A hit that is not written through. -/
lemma charges_hit (hc : c.SetAssociative)
    (hhit : (s.cache level (c.place (address >>> blockBits)).1).contains
      (address >>> blockBits) = true)
    (hstop : (isWrite && !c.writeBack) = false) :
    Charges level s (costLevel costNext c latency level s address isWrite)
      (fun s' => accessLevel next c level s' address isWrite) latency (oneHit level) := by
  refine ⟨?_, fun s' hs' => ⟨touchBlock c level (c.place (address >>> blockBits)).1
    (s'.countHit level) (address >>> blockBits) isWrite, ?_, rfl⟩⟩
  · simp only [costLevel, hc.costPlace_eq, bind_some, hhit, if_true, hstop,
      Bool.false_eq_true, if_false]
  · simp only [accessLevel, hs' level le_rfl, hhit, if_true, hit, hstop, Bool.false_eq_true,
      if_false, map_some]

/-- A hit that is written through. -/
lemma charges_through (hc : c.SetAssociative)
    (hhit : (s.cache level (c.place (address >>> blockBits)).1).contains
      (address >>> blockBits) = true)
    (hthrough : (isWrite && !c.writeBack) = true)
    (hnext : Charges (level + 1) s (costNext address isWrite) (fun s' => next s' address isWrite)
      cost count) :
    Charges level s (costLevel costNext c latency level s address isWrite)
      (fun s' => accessLevel next c level s' address isWrite) cost count := by
  refine ⟨?_, fun s' hs' => ?_⟩
  · simp only [costLevel, hc.costPlace_eq, bind_some, hhit, if_true, hthrough, hnext.predicted_eq]
  · obtain ⟨s'', hs'', hcount⟩ := hnext.performed_eq s' hs'.succ
    refine ⟨touchBlock c level (c.place (address >>> blockBits)).1 s'' (address >>> blockBits)
      isWrite, ?_, hcount⟩
    simp only [accessLevel, hs' level le_rfl, hhit, if_true, hit, hthrough, hs'', map_some]

section Miss

variable (hc : c.SetAssociative)
  (hmiss : (s.cache level (c.place (address >>> blockBits)).1).contains
    (address >>> blockBits) = false)
  (hclean : ∀ lru, (s.cache level (c.place (address >>> blockBits)).1).victim
    (c.place (address >>> blockBits)).2 = some lru → lru.2.dirty = false)

include hc hmiss hclean

/-- The predicted cost of a miss that evicts no dirty block. -/
lemma costLevel_clean : costLevel costNext c latency level s address isWrite =
      if !isWrite || !c.writeBack then costNext address isWrite else some latency := by
  have hevicted : evictionCost costNext ((s.cache level (c.place (address >>> blockBits)).1).victim
      (c.place (address >>> blockBits)).2) = some 0 := by
    cases hv : (s.cache level (c.place (address >>> blockBits)).1).victim
        (c.place (address >>> blockBits)).2 with
    | none => rfl
    | some lru => rw [evictionCost, hclean lru hv, if_neg Bool.false_ne_true]
  simp only [costLevel, hc.costPlace_eq, bind_some, hmiss, Bool.false_eq_true, if_false,
    hevicted, zero_add, map_id']

/-- A miss that evicts no dirty block and goes on to the next level. -/
lemma charges_miss (hforward : (!isWrite || !c.writeBack) = true)
    (hnext : Charges (level + 1) s (costNext address isWrite) (fun s' => next s' address isWrite)
      cost count) :
    Charges level s (costLevel costNext c latency level s address isWrite)
      (fun s' => accessLevel next c level s' address isWrite) cost count := by
  refine ⟨?_, fun s' hs' => ?_⟩
  · rw [costLevel_clean hc hmiss hclean, if_pos hforward, hnext.predicted_eq]
  · rw [← hs' level le_rfl] at hmiss hclean
    obtain ⟨s₁, hs₁, hhits, hcache⟩ := evict_clean next hclean
    obtain ⟨s'', hs'', hcount⟩ := hnext.performed_eq s₁ (hs'.of_ne hcache)
    refine ⟨insertBlock c level (c.place (address >>> blockBits)).1 s'' (address >>> blockBits)
      isWrite, ?_, hcount.trans (congrArg count hhits)⟩
    simp only [accessLevel, hmiss, Bool.false_eq_true, if_false, miss, hs₁, bind_some,
      hforward, if_true, hs'', map_some]

/-- A write that misses in a write-back level and evicts no dirty block: its predicted cost is
the latency of the level, and it counts no hit. -/
lemma charges_allocate (hallocate : (!isWrite || !c.writeBack) = false) :
    Charges level s (costLevel costNext c latency level s address isWrite)
      (fun s' => accessLevel next c level s' address isWrite) latency id := by
  refine ⟨?_, fun s' hs' => ?_⟩
  · rw [costLevel_clean hc hmiss hclean, if_neg (Bool.eq_false_iff.mp hallocate)]
  · rw [← hs' level le_rfl] at hmiss hclean
    obtain ⟨s₁, hs₁, hhits, -⟩ := evict_clean next hclean
    refine ⟨insertBlock c level (c.place (address >>> blockBits)).1 s₁ (address >>> blockBits)
      isWrite, ?_, hhits⟩
    simp only [accessLevel, hmiss, Bool.false_eq_true, if_false, miss, hs₁, bind_some,
      hallocate, map_some]

end Miss

end Level

/-! ### Whole accesses -/

section Access

variable {cacheConfig levels : List CacheLevel} {c : CacheLevel} {latency : ℕ → BitVec 64}
  {level fuel : ℕ} {s : GenericCacheModel} {address : BitVec 64} {isWrite : Bool}

lemma remaining_nil (hrem : Remaining cacheConfig [] level) : cacheConfig[level]? = none := by
  rw [← List.head?_drop, hrem.drop_eq, List.head?_nil]

/-- An access that reaches DRAM. -/
lemma charges_nil (hrem : Remaining cacheConfig [] level) :
    Charges level s (getCost cacheConfig latency s (fuel + 1) address isWrite level)
      (fun s' => updateCache cacheConfig (fuel + 1) s' address isWrite level) (latency level)
      (oneHit level) := by
  have hnone := remaining_nil hrem
  refine ⟨by simp only [getCost, hnone], fun s' _ => ⟨s'.countHit level, ?_, rfl⟩⟩
  simp only [updateCache, hnone]

/-- An access at a level that exists. -/
lemma charges_cons {cost : BitVec 64} {count : (ℕ → BitVec 64) → ℕ → BitVec 64}
    (hrem : Remaining cacheConfig (c :: levels) level)
    (h : Charges level s
      (costLevel (fun a w => getCost cacheConfig latency s fuel a w (level + 1)) c (latency level)
        level s address isWrite)
      (fun s' => accessLevel (fun s a w => updateCache cacheConfig fuel s a w (level + 1)) c level
        s' address isWrite) cost count) :
    Charges level s (getCost cacheConfig latency s (fuel + 1) address isWrite level)
      (fun s' => updateCache cacheConfig (fuel + 1) s' address isWrite level) cost count := by
  have hmod : (level + 1) % 2 ^ 8 = level + 1 := Nat.mod_eq_of_lt (by
    have := hrem.length_le
    rw [List.length_cons] at this
    omega)
  simp only [getCost, updateCache, hrem.head, hmod]
  exact h.enter _

/-- An access that evicts no dirty block costs the latency of a level, and this level counts a hit
unless the access is a write that misses there. -/
lemma EvictsClean.charges (latency : ℕ → BitVec 64) (hrem : Remaining cacheConfig levels level)
    (hfuel : levels.length < fuel) (hclean : s.EvictsClean levels level address isWrite) :
    ∃ k ≤ level + levels.length, ∃ count,
      Charges level s (getCost cacheConfig latency s fuel address isWrite level)
        (fun s' => updateCache cacheConfig fuel s' address isWrite level) (latency k) count ∧
      (s.Allocates levels level address isWrite ∧ count = id ∨
        ¬ s.Allocates levels level address isWrite ∧ count = oneHit k) := by
  obtain ⟨fuel, rfl⟩ : ∃ n, fuel = n + 1 := ⟨fuel - 1, by omega⟩
  induction levels generalizing level fuel with
  | nil => exact ⟨level, le_rfl, _, charges_nil hrem, .inr ⟨id, rfl⟩⟩
  | cons c levels ih =>
    rw [List.length_cons] at hfuel ⊢
    have hc : c.SetAssociative := hrem.setAssociative c List.mem_cons_self
    obtain ⟨fuel, rfl⟩ : ∃ n, fuel = n + 1 := ⟨fuel - 1, by omega⟩
    rw [EvictsClean] at hclean
    split_ifs at hclean with hhit
    · cases hstop : (isWrite && !c.writeBack) with
      | false =>
        refine ⟨level, by omega, _, charges_cons hrem (charges_hit hc hhit hstop), .inr ⟨?_, rfl⟩⟩
        rintro ⟨hwrite, hallocates⟩
        have hback : c.writeBack = true := by simpa [hwrite] using hstop
        rw [if_pos hback, hhit] at hallocates
        cases hallocates
      | true =>
        obtain ⟨k, hk, count, hnext, hcount⟩ := ih hrem.tail (hclean hstop) fuel (by omega)
        refine ⟨k, by omega, count, charges_cons hrem (charges_through hc hhit hstop hnext), ?_⟩
        rwa [allocates_cons (by simpa using (Bool.and_eq_true_iff.1 hstop).2)]
    · obtain ⟨hevict, hrest⟩ := hclean
      have hmiss := Bool.eq_false_iff.mpr hhit
      cases hforward : (!isWrite || !c.writeBack) with
      | false =>
        refine ⟨level, by omega, _, charges_cons hrem (charges_allocate hc hmiss hevict hforward),
          .inl ⟨?_, rfl⟩⟩
        simp only [Bool.or_eq_false_iff, Bool.not_eq_false'] at hforward
        rw [Allocates, if_pos hforward.2]
        exact ⟨hforward.1, hmiss⟩
      | true =>
        obtain ⟨k, hk, count, hnext, hcount⟩ := ih hrem.tail (hrest hforward) fuel (by omega)
        refine ⟨k, by omega, count,
          charges_cons hrem (charges_miss hc hmiss hevict hforward hnext), ?_⟩
        cases isWrite with
        | false => exact .inr ⟨not_allocates_read, (hcount.resolve_left fun h =>
            not_allocates_read h.1).2⟩
        | true => rwa [allocates_cons (by simpa using hforward)]

end Access

/-! ### The prediction and the counters -/

/-- A change of the counters by one hit at level `k` costs the latency of that level. -/
lemma sum_oneHit (latency hits : ℕ → BitVec 64) {k n : ℕ} (hk : k < n) :
    ∑ level ∈ Finset.range n, (latency level).toNat * (oneHit k hits level - hits level).toNat =
      (latency k).toNat := by
  rw [Finset.sum_eq_single_of_mem k (Finset.mem_range.mpr hk)]
  · rw [oneHit, Function.update_self, add_sub_cancel_left]
    exact Nat.mul_one _
  · intro level _ hne
    rw [oneHit, Function.update_of_ne hne, BitVec.sub_self]
    rfl

end GenericCacheModel

end Castan
