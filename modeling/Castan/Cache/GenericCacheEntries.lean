/-
# Invariants of the entries of the generic cache model

A property of entries that holds for every entry an access inserts holds in every reachable
state: a block is only cached in its own line.  An access always returns if there is fuel for the
levels below.
-/
import Castan.Cache.GenericCacheLru

namespace Castan

open Option

namespace GenericCacheModel

lemma setLine_cache_of_ne (s : GenericCacheModel) {level k : ℕ} (hk : k ≠ level)
    (line : BitVec 32) (m : CacheLines) : (s.setLine level line m).cache k = s.cache k :=
  Function.update_of_ne hk _ _

lemma setLine_cache_self (s : GenericCacheModel) (level : ℕ) (line : BitVec 32)
    (m : CacheLines) : (s.setLine level line m).cache level =
      Function.update (s.cache level) line m :=
  Function.update_self _ _ _

@[simp] lemma advance_cache (s : GenericCacheModel) (level : ℕ) :
    (s.advance level).cache = s.cache := by
  rw [advance]
  split <;> rfl

/-- Every entry has the property `P`. -/
def Entries (P : ℕ → BitVec 32 → BitVec 64 → CacheEntry → Prop) (s : GenericCacheModel) : Prop :=
  ∀ (level : ℕ) (line : BitVec 32) (block : BitVec 64) (e : CacheEntry),
    (s.cache level line)[block]? = some e → P level line block e

namespace Entries

variable {P : ℕ → BitVec 32 → BitVec 64 → CacheEntry → Prop} {s s' : GenericCacheModel}
  {level : ℕ} {line : BitVec 32}

lemma empty : Entries P GenericCacheModel.empty := by
  intro level line block e he
  cases he

lemma setLine (h : s.Entries P) {m : CacheLines}
    (hm : ∀ (block : BitVec 64) (e : CacheEntry), m[block]? = some e → P level line block e) :
    (s.setLine level line m).Entries P := by
  intro level' line' block e he
  by_cases hlevel : level' = level
  · subst hlevel
    rw [setLine_cache_self] at he
    by_cases hline : line' = line
    · subst hline
      rw [Function.update_self] at he
      exact hm block e he
    · rw [Function.update_of_ne hline] at he
      exact h _ _ _ _ he
  · rw [setLine_cache_of_ne _ hlevel] at he
    exact h _ _ _ _ he

lemma insert (h : s.Entries P) {block : BitVec 64} {e : CacheEntry} (he : P level line block e) :
    (s.setLine level line ((s.cache level line).insert block e)).Entries P := by
  refine h.setLine fun block' e' he' => ?_
  rw [Std.TreeMap.getElem?_insert] at he'
  split_ifs at he' with hblock
  · obtain rfl := some.inj he'
    obtain rfl : block = block' := Std.LawfulEqCmp.eq_of_compare hblock
    exact he
  · exact h _ _ _ _ he'

lemma erase (h : s.Entries P) (block : BitVec 64) :
    (s.setLine level line ((s.cache level line).erase block)).Entries P := by
  refine h.setLine fun block' e' he' => ?_
  rw [Std.TreeMap.getElem?_erase] at he'
  split_ifs at he'
  exact h _ _ _ _ he'

lemma evict {next : Next} {associativity : ℕ} (h : s.Entries P)
    (hnext : ∀ s a w s', s.Entries P → next s a w = some s' → s'.Entries P)
    (hs' : evict next level line associativity s = some s') : s'.Entries P := by
  rw [GenericCacheModel.evict] at hs'
  split at hs'
  · exact some.inj hs' ▸ h
  · next lru hlru =>
    obtain ⟨s₁, hs₁, rfl⟩ := map_eq_some_iff.mp hs'
    have h₁ : s₁.Entries P := by
      split_ifs at hs₁
      · exact hnext _ _ _ _ h hs₁
      · exact some.inj hs₁ ▸ h
    exact h₁.erase lru.1

/-- One access at a level. -/
lemma accessLevel {next : Next} {c : CacheLevel} {address : BitVec 64} {isWrite : Bool}
    (hinsert : ∀ block e, P level (c.place block).1 block e)
    (hnext : ∀ s a w s', s.Entries P → next s a w = some s' → s'.Entries P) (h : s.Entries P)
    (hs' : accessLevel next c level s address isWrite = some s') : s'.Entries P := by
  rw [GenericCacheModel.accessLevel] at hs'
  split_ifs at hs'
  · obtain ⟨s₁, hs₁, rfl⟩ := map_eq_some_iff.mp hs'
    have h₁ : s₁.Entries P := by
      split_ifs at hs₁
      · exact hnext _ _ _ _ h hs₁
      · obtain rfl := some.inj hs₁
        exact fun _ => h _
    exact h₁.insert (hinsert _ _)
  · obtain ⟨s₁, hs₁, hs'⟩ := bind_eq_some_iff.mp hs'
    obtain ⟨s₂, hs₂, rfl⟩ := map_eq_some_iff.mp hs'
    have h₁ : s₁.Entries P := h.evict hnext hs₁
    have h₂ : s₂.Entries P := by
      split_ifs at hs₂
      · exact hnext _ _ _ _ h₁ hs₂
      · exact some.inj hs₂ ▸ h₁
    exact h₂.insert (hinsert _ _)

variable {cacheConfig : List CacheLevel} {fuel : ℕ}
  (hP : ∀ level c, cacheConfig[level]? = some c → ∀ block e, P level (c.place block).1 block e)

include hP

lemma updateCache {address : BitVec 64} {isWrite : Bool} (h : s.Entries P)
    (hs' : updateCache cacheConfig fuel s address isWrite level = some s') : s'.Entries P := by
  induction fuel generalizing s address isWrite level s' with
  | zero => cases hs'
  | succ fuel ih =>
    rw [GenericCacheModel.updateCache] at hs'
    split at hs'
    · obtain rfl := some.inj hs'
      exact fun _ => h _
    · next c hc =>
      refine accessLevel (hP level c hc) (fun _ _ _ _ => ih) ?_ hs'
      intro level' line block e he
      exact h level' line block e (congrFun (advance_cache s level) level' ▸ he)

/-- A property of all entries that are inserted holds in every reachable state. -/
theorem run {trace : List (BitVec 64 × Bool)} (h : s.Entries P)
    (hs' : run cacheConfig fuel s trace = some s') : s'.Entries P := by
  induction trace generalizing s with
  | nil => exact some.inj hs' ▸ h
  | cons access trace ih =>
    obtain ⟨s₁, hs₁, hs'⟩ := bind_eq_some_iff.mp hs'
    exact ih (h.updateCache hP hs₁) hs'

end Entries

/-- A block is only cached in its own line. -/
def Placed (cacheConfig : List CacheLevel) (s : GenericCacheModel) : Prop :=
  s.Entries fun level line block _ =>
    ∀ c, cacheConfig[level]? = some c → (c.place block).1 = line

lemma placed_of_run {cacheConfig : List CacheLevel} {fuel : ℕ} {s : GenericCacheModel}
    {trace : List (BitVec 64 × Bool)} (h : run cacheConfig fuel empty trace = some s) :
    s.Placed cacheConfig := by
  refine Entries.run (fun level c hc block _ c' hc' => ?_) .empty h
  rw [some.inj (hc'.symm.trans hc)]

section Total

variable {next : Next} (hnext : ∀ s a w, ∃ s', next s a w = some s')

include hnext

lemma next_isSome (cond : Bool) (s₀ s : GenericCacheModel) (address : BitVec 64) (isWrite : Bool) :
    ∃ s', (if cond then next s address isWrite else some s₀) = some s' := by
  cases cond with
  | true => exact hnext s address isWrite
  | false => exact ⟨s₀, rfl⟩

lemma evict_isSome (level associativity : ℕ) (line : BitVec 32) (s : GenericCacheModel) :
    ∃ s', evict next level line associativity s = some s' := by
  rw [evict]
  split
  · exact ⟨s, rfl⟩
  · next lru _ =>
    obtain ⟨s₁, hs₁⟩ := next_isSome hnext lru.2.dirty s s (lru.1 <<< blockBits) true
    exact ⟨_, by rw [hs₁]; rfl⟩

lemma accessLevel_isSome (c : CacheLevel) (level : ℕ) (s : GenericCacheModel)
    (address : BitVec 64) (isWrite : Bool) :
    ∃ s', accessLevel next c level s address isWrite = some s' := by
  rw [accessLevel]
  split_ifs
  · obtain ⟨s₁, hs₁⟩ := next_isSome hnext (isWrite && !c.writeBack) (s.countHit level) s address
      isWrite
    exact ⟨_, by rw [hit, hs₁]; rfl⟩
  · obtain ⟨s₁, hs₁⟩ := evict_isSome hnext level (c.place (address >>> blockBits)).2
      (c.place (address >>> blockBits)).1 s
    obtain ⟨s₂, hs₂⟩ := next_isSome hnext (!isWrite || !c.writeBack) s₁ s₁ address isWrite
    exact ⟨_, by rw [miss, hs₁, bind_some, hs₂]; rfl⟩

end Total

/-- An access returns if there is fuel for the levels from its level on. -/
lemma updateCache_isSome {cacheConfig : List CacheLevel} (hlength : cacheConfig.length ≤ 255)
    {fuel level : ℕ} (hlevel : level ≤ cacheConfig.length)
    (hfuel : cacheConfig.length < fuel + level) (s : GenericCacheModel) (address : BitVec 64)
    (isWrite : Bool) : ∃ s', updateCache cacheConfig fuel s address isWrite level = some s' := by
  induction fuel generalizing s address isWrite level with
  | zero => omega
  | succ fuel ih =>
    rw [updateCache]
    split
    · exact ⟨_, rfl⟩
    · next c hc =>
      have hlt : level < cacheConfig.length := (List.getElem?_eq_some_iff.mp hc).1
      rw [Nat.mod_eq_of_lt (by omega)]
      exact accessLevel_isSome (fun s a w => ih (by omega) (by omega) s a w) c level _ address
        isWrite

end GenericCacheModel

end Castan
