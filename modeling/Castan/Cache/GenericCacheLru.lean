/-
# When the generic cache model is an exact LRU hierarchy

`Hierarchy` is what the model stands for: every line keeps its blocks in the order of their last
use and gives up the last one.  The model finds the block to evict by its time stamp, and the clock
only advances for the first level: a write-back and the fill that follows it leave the same stamp in
the next level, and the model then takes the block with the lower address for the older one
(`run_sameStamp`).  As long as the hierarchy never evicts a block while one with a lower address and
the same stamp is in its line, the two agree, and every line of the model holds the most recently
accessed blocks (`run_lru`).
-/
import Castan.Cache.GenericCache
import Castan.Cache.ContentionSetLru

namespace Castan

open Function GenericCacheModel List
open Std (TreeMap)
open Recency (order touch)

variable {k fuel : ℕ} {line : BitVec 32} {address : BitVec 64} {isWrite : Bool}
  {levels : List CacheLevel}

/-! ### A line with the least-recently-used policy -/

/-- An entry of a line: a block, the time of its last use, and whether it is dirty. -/
abbrev Way := BitVec 64 × CacheEntry

namespace Lru

/-- Put an entry in front, in the place of the one for its block if there is one. -/
def use (q : List Way) (block : BitVec 64) (e : CacheEntry) : List Way :=
  (block, e) :: q.filter fun p => p.1 != block

/-- The entry that makes room in a full line. -/
def victim (associativity : ℕ) (q : List Way) : Option Way :=
  if associativity ≤ q.length then q.getLast? else none

/-- What remains of a line when there is room for one more entry. -/
def evict (associativity : ℕ) (q : List Way) : List Way :=
  if associativity ≤ q.length then q.dropLast else q

/-- Whether a block is dirty after a hit. -/
def dirtyAfter (c : CacheLevel) (q : List Way) (block : BitVec 64) (isWrite : Bool) : Bool :=
  if isWrite then c.writeBack else ((q.lookup block).map CacheEntry.dirty).getD false

/-- One access to a line, the most recently used entry first. -/
def step (c : CacheLevel) (q : List Way) (a : CacheAccess) : List Way :=
  if a.block ∈ q.map Prod.fst then use q a.block ⟨a.time, dirtyAfter c q a.block a.isWrite⟩
  else use (evict c.associativity.toNat q) a.block ⟨a.time, a.isWrite && c.writeBack⟩

/-- The accesses to a line. -/
def lineOf (c : CacheLevel) (line : BitVec 32) (log : List CacheAccess) : List CacheAccess :=
  log.filter fun a => (c.place a.block).1 == line

/-- The entries of a line after the accesses to its level. -/
def entries (c : CacheLevel) (line : BitVec 32) (log : List CacheAccess) : List Way :=
  (lineOf c line log).foldl (step c) []

/-- The line holds a block with a lower address that was last used at the same time as `v`. -/
def clash (q : List Way) (v : Way) : Bool :=
  q.any fun p => p.2.useTime == v.2.useTime && decide (p.1 < v.1)

lemma victim_eq_some {q : List Way} {v : Way} :
    victim k q = some v ↔ k ≤ q.length ∧ q.getLast? = some v := by
  rw [victim]
  split_ifs with hle
  · simp [hle]
  · simp [hle]

lemma victim_eq_none (hk : 0 < k) {q : List Way} (h : victim k q = none) : ¬ k ≤ q.length := by
  intro hle
  rw [victim, if_pos hle, List.getLast?_eq_none_iff] at h
  rw [h, length_nil] at hle
  omega

end Lru

/-! ### The hierarchy -/

/-- A hierarchy of caches with an exact least-recently-used policy.  What its lines hold follows
from the accesses. -/
structure Hierarchy where
  /-- The accesses that reached each level. -/
  log : ℕ → List CacheAccess
  /-- The time of the last access at the first level. -/
  now : BitVec 64
  /-- Some block was evicted while its line held a block with a lower address that was last used at
  the same time. -/
  ambiguous : Bool

namespace Hierarchy

def empty : Hierarchy := ⟨fun _ => [], 0, false⟩

def record (h : Hierarchy) (level : ℕ) (block : BitVec 64) (isWrite : Bool) : Hierarchy :=
  { h with log := Function.update h.log level (h.log level ++ [⟨block, isWrite, h.now⟩]) }

lemma record_log_self (h : Hierarchy) (level : ℕ) (block : BitVec 64) (isWrite : Bool) :
    (h.record level block isWrite).log level = h.log level ++ [⟨block, isWrite, h.now⟩] :=
  update_self _ _ _

lemma record_log_of_ne (h : Hierarchy) {level : ℕ} (hk : k ≠ level) (block : BitVec 64)
    (isWrite : Bool) : (h.record level block isWrite).log k = h.log k :=
  update_of_ne hk _ _

/-- An access to a block at the next level. -/
abbrev Next := Hierarchy → BitVec 64 → Bool → Hierarchy

/-- Evict an entry from a line that holds `q`. -/
def evict (next : Next) (c : CacheLevel) (q : List Way) (h : Hierarchy) : Hierarchy :=
  match Lru.victim c.associativity.toNat q with
  | none => h
  | some v =>
      let h := { h with ambiguous := h.ambiguous || Lru.clash q v }
      if v.2.dirty then next h v.1 true else h

/-- What an access to a line that holds `q` does above its level. -/
def propagate (next : Next) (c : CacheLevel) (q : List Way) (h : Hierarchy) (block : BitVec 64)
    (isWrite : Bool) : Hierarchy :=
  if block ∈ q.map Prod.fst then if isWrite && !c.writeBack then next h block isWrite else h
  else
    let h := evict next c q h
    if !isWrite || !c.writeBack then next h block isWrite else h

/-- An access to a block at a level, with the levels from there on. -/
def access : List CacheLevel → (level : ℕ) → Next
  | [], _, h, _, _ => h
  | c :: levels, level, h, block, isWrite =>
      let q := Lru.entries c (c.place block).1 (h.log level)
      (propagate (access levels (level + 1)) c q h block isWrite).record level block isWrite

/-- A trace of accesses at the first level. -/
def run (cacheConfig : List CacheLevel) (h : Hierarchy) : List (BitVec 64 × Bool) → Hierarchy
  | [] => h
  | a :: trace =>
      run cacheConfig (access cacheConfig 0 { h with now := h.now + 1 } (a.1 >>> blockBits) a.2)
        trace

end Hierarchy

/-! ### A line of the model and a line of the hierarchy -/

/-- The map holds the entries of the list, and their stamps do not increase along it. -/
structure LineRel (m : CacheLines) (q : List Way) (now : BitVec 64) : Prop where
  mem : ∀ b e, (b, e) ∈ q ↔ m[b]? = some e
  nodup : (q.map Prod.fst).Nodup
  le_now : ∀ p ∈ q, p.2.useTime ≤ now
  decreasing : q.Pairwise fun p p' => p'.2.useTime ≤ p.2.useTime
  /-- The blocks are addresses without their last bits. -/
  block : ∀ p ∈ q, p.1 <<< blockBits >>> blockBits = p.1

lemma shiftRight_block (address : BitVec 64) :
    address >>> blockBits <<< blockBits >>> blockBits = address >>> blockBits := by
  apply BitVec.eq_of_toNat_eq
  simp only [BitVec.toNat_ushiftRight, BitVec.toNat_shiftLeft, Nat.shiftRight_eq_div_pow,
    Nat.shiftLeft_eq, blockBits]
  omega

namespace CacheLines

lemma oldest_eq_or_lt (entries : List Way) (p : Way) :
    oldest entries p = p ∨ (oldest entries p).2.useTime < p.2.useTime := by
  induction entries generalizing p with
  | nil => exact Or.inl rfl
  | cons q entries ih =>
    rw [oldest_cons]
    by_cases hlt : q.2.useTime < p.2.useTime
    · rw [if_pos hlt]
      rcases ih q with heq | hlt'
      · exact Or.inr (by rwa [heq])
      · exact Or.inr (BitVec.lt_trans hlt' hlt)
    · rw [if_neg hlt]
      exact ih p

/-- Of the entries with the smallest stamp the oldest one is the first. -/
lemma oldest_first {entries : List Way} (hsorted : entries.Pairwise fun p p' => p.1 < p'.1)
    {p : Way} (hp : ∀ r ∈ entries, p.1 ≤ r.1) :
    ∀ r ∈ entries, (oldest entries p).2.useTime = r.2.useTime → (oldest entries p).1 ≤ r.1 := by
  induction entries generalizing p with
  | nil => simp
  | cons q entries ih =>
    obtain ⟨hq, hrest⟩ := pairwise_cons.1 hsorted
    rw [oldest_cons]
    intro r hr heq
    by_cases hlt : q.2.useTime < p.2.useTime
    · rw [if_pos hlt] at heq ⊢
      rcases mem_cons.1 hr with rfl | hr
      · rcases oldest_eq_or_lt entries r with h | h
        · rw [h]
          exact BitVec.le_refl _
        · rw [heq] at h
          exact absurd h (BitVec.lt_irrefl _)
      · exact ih hrest (fun r' hr' => BitVec.le_of_lt (hq r' hr')) r hr heq
    · rw [if_neg hlt] at heq ⊢
      rcases mem_cons.1 hr with rfl | hr
      · rcases oldest_eq_or_lt entries p with h | h
        · rw [h]
          exact hp r (by simp)
        · rw [heq] at h
          exact absurd h hlt
      · exact ih hrest (fun r' hr' => hp r' (by simp [hr'])) r hr heq

end CacheLines

namespace LineRel

variable {m : CacheLines} {q : List Way} {now : BitVec 64}

lemma empty (now : BitVec 64) : LineRel ∅ [] now :=
  ⟨by simp, by simp, by simp, by simp, by simp⟩

lemma mem_keys (h : LineRel m q now) (b : BitVec 64) : b ∈ q.map Prod.fst ↔ b ∈ m := by
  rw [TreeMap.mem_iff_isSome_getElem?, Option.isSome_iff_exists]
  simp only [mem_map, Prod.exists, exists_and_right, exists_eq_right, h.mem]

lemma contains_eq (h : LineRel m q now) (b : BitVec 64) :
    m.contains b = (q.map Prod.fst).contains b := by
  rw [Bool.eq_iff_iff, TreeMap.contains_iff_mem, ← h.mem_keys, contains_iff_mem]

lemma size_eq (h : LineRel m q now) : m.size = q.length := by
  have hnodup : m.keys.Nodup := by
    simpa [List.Nodup, Std.compare_eq_iff_eq] using m.distinct_keys
  have hperm : m.keys.Perm (q.map Prod.fst) :=
    (perm_ext_iff_of_nodup hnodup h.nodup).mpr fun b => by rw [TreeMap.mem_keys, h.mem_keys]
  rw [← TreeMap.length_keys, hperm.length_eq, length_map]

lemma lookup_eq (h : LineRel m q now) (b : BitVec 64) : q.lookup b = m[b]? := by
  cases hq : q.lookup b with
  | none =>
    have hnot : b ∉ q.map Prod.fst := by
      rw [lookup_eq_none_iff] at hq
      intro hb
      obtain ⟨p, hp, rfl⟩ := mem_map.1 hb
      simpa using hq p hp
    rw [h.mem_keys] at hnot
    exact (TreeMap.getElem?_eq_none hnot).symm
  | some e =>
    obtain ⟨l₁, l₂, rfl, -⟩ := lookup_eq_some_iff.1 hq
    exact ((h.mem b e).1 (by simp)).symm

lemma last_le (h : LineRel m q now) {v : Way} (hv : q.getLast? = some v) {p : Way} (hp : p ∈ q) :
    v.2.useTime ≤ p.2.useTime := by
  obtain ⟨M, rfl⟩ := List.getLast?_eq_some_iff.1 hv
  rcases mem_append.1 hp with hp | hp
  · exact (pairwise_append.1 h.decreasing).2.2 p hp v (by simp)
  · rw [mem_singleton.1 hp]
    exact BitVec.le_refl _

/-- The entry the model evicts is the last one, if no lower block has its stamp. -/
lemma victim_eq (h : LineRel m q now) {v : Way} (hv : Lru.victim k q = some v)
    (hclash : Lru.clash q v = false) : m.victim k = some v := by
  obtain ⟨hle, hv⟩ := Lru.victim_eq_some.1 hv
  have hmem : v ∈ q := mem_of_getLast? hv
  have hvm : v ∈ m.toList := TreeMap.mem_toList_iff_getElem?_eq_some.2 ((h.mem v.1 v.2).1 hmem)
  obtain ⟨p, l, hl⟩ : ∃ p l, m.toList = p :: l := exists_cons_of_ne_nil (ne_nil_of_mem hvm)
  have hsorted : m.toList.Pairwise fun a b => a.1 < b.1 :=
    m.ordered_keys_toList.imp fun hab => compareOfLessAndEq_eq_lt.1 hab
  have hp : ∀ r ∈ m.toList, p.1 ≤ r.1 := by
    rw [hl] at hsorted ⊢
    intro r hr
    rcases mem_cons.1 hr with rfl | hr
    · exact BitVec.le_refl _
    · exact BitVec.le_of_lt ((pairwise_cons.1 hsorted).1 r hr)
  have ho : CacheLines.oldest m.toList p ∈ m.toList := by
    rcases mem_cons.1 (CacheLines.oldest_mem m.toList p) with ho | ho
    · rw [ho, hl]
      exact mem_cons_self
    · exact ho
  have hoq : CacheLines.oldest m.toList p ∈ q :=
    (h.mem _ _).2 (TreeMap.mem_toList_iff_getElem?_eq_some.1 ho)
  have hfirst := CacheLines.oldest_first hsorted hp
  have hmin := CacheLines.oldest_le m.toList p
  rw [CacheLines.victim, if_pos (by rw [h.size_eq]; exact hle), hl, List.head?_cons,
    Option.map_some, ← hl]
  generalize CacheLines.oldest m.toList p = o at ho hoq hfirst hmin
  have htime : o.2.useTime = v.2.useTime := by
    have hle₁ := hmin v (mem_cons_of_mem _ hvm)
    have hle₂ := h.last_le hv hoq
    rw [BitVec.le_def] at hle₂
    exact BitVec.eq_of_toNat_eq (by omega)
  have hnot : ¬ o.1 < v.1 := by
    intro hlt
    have : Lru.clash q v = true := by
      rw [Lru.clash, any_eq_true]
      exact ⟨o, hoq, by simp [htime, hlt]⟩
    rw [hclash] at this
    cases this
  have hblock : o.1 = v.1 := by
    have hle₁ := hfirst v hvm htime
    rw [BitVec.le_def] at hle₁
    rw [BitVec.lt_def] at hnot
    exact BitVec.eq_of_toNat_eq (by omega)
  have hentry : some o.2 = some v.2 := by
    rw [← (h.mem o.1 o.2).1 hoq, ← (h.mem v.1 v.2).1 hmem, hblock]
  rw [Prod.ext hblock (Option.some.inj hentry)]

lemma victim_eq_none (h : LineRel m q now) (hv : ¬ k ≤ q.length) : m.victim k = none := by
  rw [CacheLines.victim, h.size_eq, if_neg hv]

lemma use (h : LineRel m q now) {b : BitVec 64} (hb : b <<< blockBits >>> blockBits = b)
    (dirty : Bool) :
    LineRel (m.insert b ⟨now, dirty⟩) (Lru.use q b ⟨now, dirty⟩) now := by
  refine ⟨?_, ?_, ?_, ?_, ?_⟩
  · intro b' e
    simp only [Lru.use, mem_cons, mem_filter, TreeMap.getElem?_insert,
      Std.compare_eq_iff_eq, h.mem]
    rcases eq_or_ne b b' with rfl | hne
    · simp [eq_comm]
    · simp [hne, hne.symm]
  · rw [Lru.use, map_cons, nodup_cons]
    refine ⟨?_, h.nodup.sublist (filter_sublist.map _)⟩
    intro hmem
    obtain ⟨p, hp, hpb⟩ := mem_map.1 hmem
    simp [hpb] at hp
  · rintro p hp
    rcases mem_cons.1 hp with rfl | hp
    · exact BitVec.le_refl _
    · exact h.le_now p (mem_of_mem_filter hp)
  · refine pairwise_cons.2 ⟨?_, h.decreasing.sublist filter_sublist⟩
    intro p hp
    exact h.le_now p (mem_of_mem_filter hp)
  · rintro p hp
    rcases mem_cons.1 hp with rfl | hp
    · exact hb
    · exact h.block p (mem_of_mem_filter hp)

lemma dropLast (h : LineRel m q now) {v : Way} (hv : q.getLast? = some v) :
    LineRel (m.erase v.1) q.dropLast now := by
  obtain ⟨M, rfl⟩ := List.getLast?_eq_some_iff.1 hv
  rw [dropLast_concat]
  have hsub : M.Sublist (M ++ [v]) := sublist_append_left _ _
  refine ⟨?_, h.nodup.sublist (hsub.map _), fun p hp => h.le_now p (hsub.subset hp),
    h.decreasing.sublist hsub, fun p hp => h.block p (hsub.subset hp)⟩
  have hnodup := h.nodup
  rw [map_append, nodup_append] at hnodup
  intro b e
  simp only [TreeMap.getElem?_erase, Std.compare_eq_iff_eq]
  rcases eq_or_ne v.1 b with rfl | hne
  · simp only [↓reduceIte, reduceCtorEq, iff_false]
    intro hmem
    exact hnodup.2.2 v.1 (mem_map.2 ⟨_, hmem, rfl⟩) v.1 (by simp) rfl
  · rw [if_neg hne, ← h.mem, mem_append, mem_singleton, or_iff_left]
    rintro rfl
    exact hne rfl

/-- Time passes. -/
lemma mono (h : LineRel m q now) {now' : BitVec 64} (hle : now ≤ now') : LineRel m q now' :=
  { h with le_now := fun p hp => BitVec.le_trans (h.le_now p hp) hle }

end LineRel

/-! ### The blocks of a line -/

namespace Lru

variable {c : CacheLevel}

lemma keys_use (q : List Way) (block : BitVec 64) (e : CacheEntry) :
    (use q block e).map Prod.fst = block :: (q.map Prod.fst).filter (· != block) := by
  rw [use, map_cons, filter_map]
  rfl

/-- An access moves the block to the front of the order of recency. -/
lemma keys_step {q : List Way} (hnodup : (q.map Prod.fst).Nodup) (a : CacheAccess) :
    (step c q a).map Prod.fst = touch c.associativity.toNat (q.map Prod.fst) a.block := by
  rw [step, touch]
  split_ifs with hmem hlen
  · rw [keys_use, hnodup.erase_eq_filter]
  · rw [keys_use, evict, if_neg (by rw [length_map] at hlen; omega), filter_eq_self.2]
    intro b hb
    simp only [bne_iff_ne]
    rintro rfl
    exact hmem hb
  · rw [keys_use, evict, if_pos (by rw [length_map] at hlen; omega), map_dropLast,
      filter_eq_self.2]
    intro b hb
    simp only [bne_iff_ne]
    rintro rfl
    exact hmem (mem_of_mem_dropLast hb)

lemma keys_foldl (hc : c.SetAssociative) (log : List CacheAccess) :
    (log.foldl (step c) []).map Prod.fst =
      (order (log.map CacheAccess.block)).take c.associativity.toNat := by
  induction log using List.reverseRecOn with
  | nil => simp [order]
  | append_singleton log a ih =>
    have hnodup : ((log.foldl (step c) []).map Prod.fst).Nodup := by
      rw [ih]
      exact (Recency.nodup_order _).sublist (take_sublist _ _)
    rw [foldl_append, foldl_cons, foldl_nil, keys_step hnodup, ih, map_append,
      map_singleton, Recency.take_order_concat _ _ hc.associativity_pos]

lemma entries_concat {a : CacheAccess} (h : (c.place a.block).1 = line)
    (log : List CacheAccess) : entries c line (log ++ [a]) = step c (entries c line log) a := by
  simp [entries, lineOf, h]

lemma entries_concat_of_ne {a : CacheAccess} (h : (c.place a.block).1 ≠ line)
    (log : List CacheAccess) : entries c line (log ++ [a]) = entries c line log := by
  simp [entries, lineOf, h]

end Lru

/-! ### What an access leaves as it was -/

namespace Hierarchy

variable {level : ℕ}

/-- `h'` comes from `h` by accesses above the level, in which evictions may become ambiguous. -/
structure Above (level : ℕ) (h h' : Hierarchy) : Prop where
  now : h'.now = h.now
  log : ∀ k ≤ level, h'.log k = h.log k
  ambiguous : h'.ambiguous = false → h.ambiguous = false

lemma Above.refl (level : ℕ) (h : Hierarchy) : Above level h h := ⟨rfl, fun _ _ => rfl, id⟩

lemma Above.trans {h₁ h₂ h₃ : Hierarchy} (h₁₂ : Above level h₁ h₂) (h₂₃ : Above level h₂ h₃) :
    Above level h₁ h₃ :=
  ⟨h₂₃.now.trans h₁₂.now, fun k hk => (h₂₃.log k hk).trans (h₁₂.log k hk),
    fun ha => h₁₂.ambiguous (h₂₃.ambiguous ha)⟩

/-- Accesses to the next level stay above this one. -/
def Stays (level : ℕ) (next : Next) : Prop :=
  ∀ h block isWrite, Above level h (next h block isWrite)

variable {next : Next}

lemma Stays.ite (hnext : Stays level next) (cond : Bool) (h : Hierarchy) (block : BitVec 64)
    (isWrite : Bool) : Above level h (if cond then next h block isWrite else h) := by
  cases cond with
  | true => exact hnext h block isWrite
  | false => exact .refl level h

lemma Stays.evict (hnext : Stays level next) (c : CacheLevel) (q : List Way) (h : Hierarchy) :
    Above level h (evict next c q h) := by
  rw [Hierarchy.evict]
  cases Lru.victim c.associativity.toNat q with
  | none => exact .refl level h
  | some v =>
    have hflag : Above level h { h with ambiguous := h.ambiguous || Lru.clash q v } :=
      ⟨rfl, fun _ _ => rfl, fun ha => (Bool.or_eq_false_iff.1 ha).1⟩
    exact hflag.trans (hnext.ite v.2.dirty _ v.1 true)

lemma Stays.propagate (hnext : Stays level next) (c : CacheLevel) (q : List Way) (h : Hierarchy)
    (block : BitVec 64) (isWrite : Bool) :
    Above level h (propagate next c q h block isWrite) := by
  rw [Hierarchy.propagate]
  split
  · exact hnext.ite _ h block isWrite
  · exact (hnext.evict c q h).trans (hnext.ite _ _ block isWrite)

lemma access_stays (levels : List CacheLevel) (level : ℕ) :
    Stays level (access levels (level + 1)) := by
  induction levels generalizing level with
  | nil => exact fun h _ _ => .refl level h
  | cons c levels ih =>
    intro h block isWrite
    have habove := (ih (level + 1)).propagate c
      (Lru.entries c (c.place block).1 (h.log (level + 1))) h block isWrite
    refine ⟨habove.now, fun k hk => ?_, habove.ambiguous⟩
    rw [access, record_log_of_ne _ (by omega)]
    exact habove.log k (by omega)

lemma access_zero (levels : List CacheLevel) (h : Hierarchy) (block : BitVec 64) (isWrite : Bool) :
    (access levels 0 h block isWrite).now = h.now ∧
      ((access levels 0 h block isWrite).ambiguous = false → h.ambiguous = false) := by
  cases levels with
  | nil => exact ⟨rfl, id⟩
  | cons c levels =>
    have habove := (access_stays levels 0).propagate c
      (Lru.entries c (c.place block).1 (h.log 0)) h block isWrite
    exact ⟨habove.now, habove.ambiguous⟩

/-- An ambiguous eviction is not forgotten. -/
lemma ambiguous_of_run {cacheConfig : List CacheLevel} {h : Hierarchy}
    {trace : List (BitVec 64 × Bool)} (hrun : (run cacheConfig h trace).ambiguous = false) :
    h.ambiguous = false := by
  induction trace generalizing h with
  | nil => exact hrun
  | cons a trace ih => exact (access_zero _ { h with now := h.now + 1 } _ _).2 (ih hrun)

end Hierarchy

/-! ### The model follows the hierarchy -/

open GenericCacheModel (setLine countHit)

section Simulation

variable {cacheConfig : List CacheLevel} {level : ℕ} {s s' : GenericCacheModel} {h : Hierarchy}

/-- From a level on, the model and the hierarchy agree. -/
structure Agrees (cacheConfig : List CacheLevel) (level : ℕ) (s : GenericCacheModel)
    (h : Hierarchy) : Prop where
  now : s.currentTime = h.now
  reached : ∀ k, level ≤ k → s.reached k = h.log k
  line : ∀ k c, level ≤ k → cacheConfig[k]? = some c → ∀ line,
    LineRel (s.cache k line) (Lru.entries c line (h.log k)) h.now

/-- The two states are the same up to a level, and at the same time. -/
structure SameUpTo (level : ℕ) (s s' : GenericCacheModel) : Prop where
  now : s'.currentTime = s.currentTime
  reached : ∀ k ≤ level, s'.reached k = s.reached k
  cache : ∀ k ≤ level, s'.cache k = s.cache k

lemma SameUpTo.refl (level : ℕ) (s : GenericCacheModel) : SameUpTo level s s :=
  ⟨rfl, fun _ _ => rfl, fun _ _ => rfl⟩

/-- The next level of the model follows the next level of the hierarchy. -/
structure Follows (cacheConfig : List CacheLevel) (level : ℕ) (next : GenericCacheModel.Next)
    (next' : Hierarchy.Next) : Prop where
  stays : Hierarchy.Stays level next'
  sim : ∀ s h (address : BitVec 64) isWrite, Agrees cacheConfig (level + 1) s h →
    (next' h (address >>> blockBits) isWrite).ambiguous = false →
    ∃ s', next s address isWrite = some s' ∧ SameUpTo level s s' ∧
      Agrees cacheConfig (level + 1) s' (next' h (address >>> blockBits) isWrite)

/-- An access to the next level that is made under a condition. -/
lemma Follows.ite {next : GenericCacheModel.Next} {next' : Hierarchy.Next}
    (hf : Follows cacheConfig level next next') {s₀ : GenericCacheModel}
    (hag : Agrees cacheConfig (level + 1) s h) (hag₀ : Agrees cacheConfig (level + 1) s₀ h)
    (hsame : SameUpTo level s s₀) (cond : Bool) (address : BitVec 64) (isWrite : Bool)
    (hamb : (if cond then next' h (address >>> blockBits) isWrite else h).ambiguous = false) :
    ∃ s', (if cond then next s address isWrite else some s₀) = some s' ∧ SameUpTo level s s' ∧
      Agrees cacheConfig (level + 1) s'
        (if cond then next' h (address >>> blockBits) isWrite else h) := by
  cases cond with
  | true => exact hf.sim s h address isWrite hag hamb
  | false => exact ⟨s₀, rfl, hsame, hag₀⟩

lemma Agrees.countHit (hag : Agrees cacheConfig level s h) (k : ℕ) :
    Agrees cacheConfig level (s.countHit k) h := ⟨hag.now, hag.reached, hag.line⟩

/-- The lines of lower levels do not matter. -/
lemma Agrees.setLine (hag : Agrees cacheConfig (level + 1) s h) (line : BitVec 32)
    (m : CacheLines) : Agrees cacheConfig (level + 1) (s.setLine level line m) h := by
  refine ⟨hag.now, hag.reached, ?_⟩
  intro k c hk hc l
  have hne : k ≠ level := by omega
  show LineRel (update s.cache level _ k l) _ _
  rw [update_of_ne hne]
  exact hag.line k c hk hc l

/-- One line of the level was assigned, and nothing below. -/
structure Assigned (level : ℕ) (line : BitVec 32) (m : CacheLines) (s s' : GenericCacheModel) :
    Prop where
  now : s'.currentTime = s.currentTime
  reached : ∀ k ≤ level, s'.reached k = s.reached k
  below : ∀ k < level, s'.cache k = s.cache k
  cache : s'.cache level = Function.update (s.cache level) line m

lemma SameUpTo.assigned (hsame : SameUpTo level s s') (line : BitVec 32) :
    Assigned level line (s.cache level line) s s' :=
  ⟨hsame.now, hsame.reached, fun k hk => hsame.cache k hk.le, by
    rw [update_eq_self]
    exact hsame.cache level le_rfl⟩

/-- Nothing but the level above, and then the line. -/
lemma Assigned.setLine {m₁ : CacheLines} {s₁ s₂ : GenericCacheModel}
    (h₁ : Assigned level line m₁ s s₁) (h₂ : SameUpTo level s₁ s₂) (m : CacheLines) :
    Assigned level line m s (s₂.setLine level line m) := by
  refine ⟨h₂.now.trans h₁.now, fun k hk => (h₂.reached k hk).trans (h₁.reached k hk), ?_, ?_⟩
  · intro k hk
    show update s₂.cache level _ k = _
    rw [update_of_ne hk.ne, h₂.cache k hk.le, h₁.below k hk]
  · show update s₂.cache level _ level = _
    rw [update_self, h₂.cache level le_rfl, h₁.cache, update_idem]

variable {next : GenericCacheModel.Next} {next' : Hierarchy.Next} {c : CacheLevel}
  {line : BitVec 32} {q : List Way}

lemma evict_follows (hf : Follows cacheConfig level next next') (hc : c.SetAssociative)
    (hag : Agrees cacheConfig (level + 1) s h) (hq : LineRel (s.cache level line) q h.now)
    (hamb : (Hierarchy.evict next' c q h).ambiguous = false) :
    ∃ s' m, evict next level line c.associativity.toNat s = some s' ∧
      Assigned level line m s s' ∧ LineRel m (Lru.evict c.associativity.toNat q) h.now ∧
      Agrees cacheConfig (level + 1) s' (Hierarchy.evict next' c q h) := by
  rw [Hierarchy.evict] at hamb ⊢
  rw [evict]
  cases hv : Lru.victim c.associativity.toNat q with
  | none =>
    have hroom := Lru.victim_eq_none hc.associativity_pos hv
    rw [hq.victim_eq_none hroom, Lru.evict, if_neg hroom]
    exact ⟨s, _, rfl, (SameUpTo.refl level s).assigned line, hq, hag⟩
  | some v =>
    obtain ⟨hle, hlast⟩ := Lru.victim_eq_some.1 hv
    have hblock : v.1 <<< blockBits >>> blockBits = v.1 := hq.block v (mem_of_getLast? hlast)
    simp only [hv] at hamb ⊢
    -- nothing becomes unambiguous again
    have hflag := (hf.stays.ite v.2.dirty _ v.1 true).ambiguous hamb
    have hclash : Lru.clash q v = false := (Bool.or_eq_false_iff.1 hflag).2
    have hag₁ : Agrees cacheConfig (level + 1) s
        { h with ambiguous := h.ambiguous || Lru.clash q v } := ⟨hag.now, hag.reached, hag.line⟩
    rw [← hblock] at hamb
    obtain ⟨s₁, hnext, hsame, hag₂⟩ :=
      hf.ite hag₁ hag₁ (.refl level s) v.2.dirty (v.1 <<< blockBits) true hamb
    rw [hblock] at hag₂
    rw [hq.victim_eq hv hclash]
    refine ⟨s₁.setLine level line ((s₁.cache level line).erase v.1), _, ?_,
      ((SameUpTo.refl level s).assigned line).setLine hsame _, ?_, hag₂.setLine line _⟩
    · simp only [hnext, Option.map_some]
    · rw [hsame.cache level le_rfl, Lru.evict, if_pos hle]
      exact hq.dropLast hlast

/-- One level of the model follows one level of the hierarchy. -/
lemma accessLevel_follows (hf : Follows cacheConfig level next next') (hc : c.SetAssociative)
    (hag : Agrees cacheConfig (level + 1) s h)
    (hline : (c.place (address >>> blockBits)).1 = line)
    (hq : LineRel (s.cache level line) q h.now)
    (hamb : (Hierarchy.propagate next' c q h (address >>> blockBits) isWrite).ambiguous = false) :
    ∃ s' m, accessLevel next c level s address isWrite = some s' ∧
      Assigned level line m s s' ∧
      LineRel m (Lru.step c q ⟨address >>> blockBits, isWrite, h.now⟩) h.now ∧
      Agrees cacheConfig (level + 1) s'
        (Hierarchy.propagate next' c q h (address >>> blockBits) isWrite) := by
  have hshift := shiftRight_block address
  rw [accessLevel]
  simp only [hline, hc.place_snd, hq.contains_eq, contains_iff_mem]
  rw [Hierarchy.propagate] at hamb ⊢
  rw [Lru.step]
  by_cases hmem : address >>> blockBits ∈ q.map Prod.fst
  · simp only [if_pos hmem] at hamb ⊢
    obtain ⟨s₁, hnext, hsame, hag₁⟩ := hf.ite hag (hag.countHit level)
      ⟨rfl, fun _ _ => rfl, fun _ _ => rfl⟩ (isWrite && !c.writeBack) address isWrite hamb
    refine ⟨touchBlock c level line s₁ (address >>> blockBits) isWrite, _, ?_,
      ((SameUpTo.refl level s).assigned line).setLine hsame _, ?_, hag₁.setLine line _⟩
    · rw [hit, hnext, Option.map_some]
    · rw [hsame.cache level le_rfl, hsame.now, hag.now, ← hq.lookup_eq]
      exact hq.use hshift _
  · simp only [if_neg hmem] at hamb ⊢
    have habove := hf.stays.ite (!isWrite || !c.writeBack) (Hierarchy.evict next' c q h)
      (address >>> blockBits) isWrite
    obtain ⟨s₁, m₁, hevict, hassign, hm₁, hag₁⟩ :=
      evict_follows hf hc hag hq (habove.ambiguous hamb)
    obtain ⟨s₂, hnext, hsame, hag₂⟩ := hf.ite hag₁ hag₁ (.refl level s₁)
      (!isWrite || !c.writeBack) address isWrite hamb
    refine ⟨insertBlock c level line s₂ (address >>> blockBits) isWrite, _, ?_,
      hassign.setLine hsame _, ?_, hag₂.setLine line _⟩
    · rw [miss, hevict, Option.bind_some, hnext, Option.map_some]
    · rw [hsame.cache level le_rfl, hassign.cache, update_self, hsame.now, hassign.now,
        hag.now]
      exact hm₁.use hshift _

/-- The state of one level, in which the access was recorded. -/
lemma Assigned.agrees {s₁ : GenericCacheModel} {h' : Hierarchy} {m : CacheLines}
    {block : BitVec 64} (hag : Agrees cacheConfig level s h)
    (hlevel : cacheConfig[level]? = some c) (hline : (c.place block).1 = line)
    (hassign : Assigned level line m (s.enter level block isWrite) s₁)
    (hm : LineRel m (Lru.step c (Lru.entries c line (h.log level)) ⟨block, isWrite, h.now⟩) h.now)
    (habove : Hierarchy.Above level h h') (hag' : Agrees cacheConfig (level + 1) s₁ h') :
    Agrees cacheConfig level s₁ (h'.record level block isWrite) := by
  have hlog : (h'.record level block isWrite).log level =
      h.log level ++ [⟨block, isWrite, h.now⟩] := by
    rw [Hierarchy.record_log_self, habove.log level le_rfl, habove.now]
  have hother : ∀ k, level + 1 ≤ k → (h'.record level block isWrite).log k = h'.log k := by
    intro k hk
    exact Hierarchy.record_log_of_ne h' (by omega) block isWrite
  refine ⟨hag'.now, ?_, ?_⟩
  · intro k hk
    rcases eq_or_lt_of_le hk with rfl | hk
    · rw [hlog, hassign.reached level le_rfl, enter_reached_self,
        hag.reached level le_rfl, hag.now]
    · rw [hother k hk]
      exact hag'.reached k hk
  · intro k c' hk hc' l
    show LineRel _ _ h'.now
    rcases eq_or_lt_of_le hk with rfl | hk
    · obtain rfl : c = c' := Option.some.inj (hlevel.symm.trans hc')
      rw [hlog, hassign.cache, habove.now]
      rcases eq_or_ne line l with rfl | hne
      · rw [update_self, Lru.entries_concat (a := ⟨block, isWrite, h.now⟩) hline]
        exact hm
      · rw [update_of_ne hne.symm,
          Lru.entries_concat_of_ne (a := ⟨block, isWrite, h.now⟩) (by rw [hline]; exact hne)]
        exact hag.line level c le_rfl hlevel l
    · rw [hother k hk]
      exact hag'.line k c' hk hc' l

lemma Agrees.enter (hag : Agrees cacheConfig level s h) (block : BitVec 64) (isWrite : Bool) :
    Agrees cacheConfig (level + 1) (s.enter level block isWrite) h := by
  refine ⟨hag.now, ?_, fun k c hk => hag.line k c (Nat.le_of_succ_le hk)⟩
  intro k hk
  rw [enter_reached_of_ne s (by omega)]
  exact hag.reached k (Nat.le_of_succ_le hk)

/-- An access at one level, with its record. -/
lemma access_follows (hf : Follows cacheConfig level next next')
    (hlevel : cacheConfig[level]? = some c) (hc : c.SetAssociative)
    (hag : Agrees cacheConfig level s h)
    (hamb : (Hierarchy.propagate next' c
      (Lru.entries c (c.place (address >>> blockBits)).1 (h.log level)) h (address >>> blockBits)
      isWrite).ambiguous = false) :
    ∃ s' m, accessLevel next c level
        (s.enter level (address >>> blockBits) isWrite) address isWrite = some s' ∧
      Assigned level (c.place (address >>> blockBits)).1 m
        (s.enter level (address >>> blockBits) isWrite) s' ∧
      Agrees cacheConfig level s' ((Hierarchy.propagate next' c
        (Lru.entries c (c.place (address >>> blockBits)).1 (h.log level)) h
        (address >>> blockBits) isWrite).record level (address >>> blockBits) isWrite) := by
  obtain ⟨s', m, hrun, hassign, hm, hag'⟩ := accessLevel_follows hf hc
    (hag.enter (address >>> blockBits) isWrite) rfl (hag.line level c le_rfl hlevel _) hamb
  exact ⟨s', m, hrun, hassign,
    Assigned.agrees hag hlevel rfl hassign hm (hf.stays.propagate c _ h _ isWrite) hag'⟩

/-- The levels above one. -/
structure Remaining (cacheConfig levels : List CacheLevel) (level : ℕ) : Prop where
  drop_eq : cacheConfig.drop level = levels
  setAssociative : ∀ c ∈ levels, c.SetAssociative
  /-- The level fits into a `uint8_t`. -/
  length_le : level + levels.length ≤ 255

lemma Remaining.head
    (hrem : Remaining cacheConfig (c :: levels) level) : cacheConfig[level]? = some c := by
  rw [← List.head?_drop, hrem.drop_eq, List.head?_cons]

lemma Remaining.tail (hrem : Remaining cacheConfig (c :: levels) level) :
    Remaining cacheConfig levels (level + 1) where
  drop_eq := by rw [← tail_drop, hrem.drop_eq, tail_cons]
  setAssociative := fun c' hc' => hrem.setAssociative c' (mem_cons_of_mem _ hc')
  length_le := by
    have := hrem.length_le
    rw [length_cons] at this
    omega

/-- Above every level the model follows the hierarchy, with fuel for the remaining levels. -/
lemma updateCache_follows
    (hrem : Remaining cacheConfig levels (level + 1)) (hfuel : levels.length < fuel) :
    Follows cacheConfig level
      (fun s a w => updateCache cacheConfig fuel s a w ((level + 1) % 2 ^ 8))
      (Hierarchy.access levels (level + 1)) := by
  have hmod : (level + 1) % 2 ^ 8 = level + 1 := Nat.mod_eq_of_lt (by
    have := hrem.length_le
    omega)
  rw [hmod]
  induction levels generalizing level fuel with
  | nil =>
    refine ⟨Hierarchy.access_stays [] level, ?_⟩
    intro s h address isWrite hag _
    obtain ⟨fuel, rfl⟩ : ∃ n, fuel = n + 1 := ⟨fuel - 1, by omega⟩
    have hnone : cacheConfig[level + 1]? = none := by
      rw [← List.head?_drop, hrem.drop_eq, List.head?_nil]
    refine ⟨s.countHit (level + 1), ?_, ⟨rfl, fun _ _ => rfl, fun _ _ => rfl⟩, hag.countHit _⟩
    simp only [updateCache, hnone]
  | cons c levels ih =>
    rw [length_cons] at hfuel
    obtain ⟨fuel, rfl⟩ : ∃ n, fuel = n + 1 := ⟨fuel - 1, by omega⟩
    have hlen := hrem.length_le
    rw [length_cons] at hlen
    have hmod' : (level + 1 + 1) % 2 ^ 8 = level + 1 + 1 := Nat.mod_eq_of_lt (by omega)
    have hlt : levels.length < fuel := by omega
    have hf := ih hrem.tail hlt hmod'
    refine ⟨Hierarchy.access_stays (c :: levels) level, ?_⟩
    intro s h address isWrite hag hamb
    obtain ⟨s', m, hrun, hassign, hag'⟩ := access_follows hf hrem.head
      (hrem.setAssociative c mem_cons_self) hag hamb
    refine ⟨s', ?_, ⟨hassign.now, fun k hk => ?_, fun k hk => hassign.below k (by omega)⟩, hag'⟩
    · rw [← hmod'] at hrun
      simp only [updateCache, hrem.head]
      exact hrun
    · rw [hassign.reached k (by omega), enter_reached_of_ne _ (by omega)]

/-- The clock advances. -/
lemma Agrees.advance (hag : Agrees cacheConfig 0 s h) (htime : h.now ≤ h.now + 1) :
    Agrees cacheConfig 0 (s.advance 0) { h with now := h.now + 1 } := by
  refine ⟨?_, hag.reached, fun k c hk hc line => (hag.line k c hk hc line).mono htime⟩
  show s.currentTime + 1 = h.now + 1
  rw [hag.now]

/-- One access at the first level. -/
lemma updateCache_zero (hset : ∀ c' ∈ c :: levels, c'.SetAssociative)
    (hlength : (c :: levels).length ≤ 255) (hfuel : (c :: levels).length < fuel)
    (hag : Agrees (c :: levels) 0 s h) (htime : h.now ≤ h.now + 1)
    (hamb : (Hierarchy.access (c :: levels) 0 { h with now := h.now + 1 } (address >>> blockBits)
      isWrite).ambiguous = false) :
    ∃ s', updateCache (c :: levels) fuel s address isWrite 0 = some s' ∧
      Agrees (c :: levels) 0 s' (Hierarchy.access (c :: levels) 0 { h with now := h.now + 1 }
        (address >>> blockBits) isWrite) := by
  rw [length_cons] at hlength hfuel
  obtain ⟨fuel, rfl⟩ : ∃ n, fuel = n + 1 := ⟨fuel - 1, by omega⟩
  have hrem : Remaining (c :: levels) levels (0 + 1) :=
    ⟨rfl, fun c' hc' => hset c' (mem_cons_of_mem _ hc'), by omega⟩
  have hlt : levels.length < fuel := by omega
  obtain ⟨s', m, hrun, -, hag'⟩ := access_follows (updateCache_follows hrem hlt) rfl
    (hset c mem_cons_self) (hag.advance htime) hamb
  refine ⟨s', ?_, hag'⟩
  rw [updateCache]
  exact hrun

lemma Agrees.run (hset : ∀ c' ∈ c :: levels, c'.SetAssociative)
    (hlength : (c :: levels).length ≤ 255) (hfuel : (c :: levels).length < fuel)
    (hag : Agrees (c :: levels) 0 s h) {trace : List (BitVec 64 × Bool)}
    (htrace : h.now.toNat + trace.length < 2 ^ 64)
    (hamb : (Hierarchy.run (c :: levels) h trace).ambiguous = false) :
    ∃ s', run (c :: levels) fuel s trace = some s' ∧
      Agrees (c :: levels) 0 s' (Hierarchy.run (c :: levels) h trace) := by
  induction trace generalizing s h with
  | nil => exact ⟨s, rfl, hag⟩
  | cons a trace ih =>
    rw [length_cons] at htrace
    have hnow : (h.now + 1).toNat = h.now.toNat + 1 := by
      rw [BitVec.toNat_add]
      exact Nat.mod_eq_of_lt (by have : (1 : BitVec 64).toNat = 1 := rfl; omega)
    have htime : h.now ≤ h.now + 1 := by
      rw [BitVec.le_def]
      omega
    obtain ⟨s₁, hupdate, hag₁⟩ := updateCache_zero hset hlength hfuel hag htime
      (Hierarchy.ambiguous_of_run hamb)
    have hlast := (Hierarchy.access_zero (c :: levels) { h with now := h.now + 1 }
      (a.1 >>> blockBits) a.2).1
    obtain ⟨s₂, hrun, hag₂⟩ := ih hag₁ (by rw [hlast, hnow]; omega) hamb
    refine ⟨s₂, ?_, hag₂⟩
    rw [run, hupdate]
    exact hrun

end Simulation

lemma Agrees.empty (cacheConfig : List CacheLevel) :
    Agrees cacheConfig 0 empty Hierarchy.empty :=
  ⟨rfl, fun _ _ => rfl, fun _ _ _ _ _ => LineRel.empty 0⟩

/-- Without any level, every access goes to DRAM. -/
lemma run_nil (hfuel : 0 < fuel) (s : GenericCacheModel)
    (trace : List (BitVec 64 × Bool)) : ∃ s', run [] fuel s trace = some s' := by
  obtain ⟨fuel, rfl⟩ : ∃ n, fuel = n + 1 := ⟨fuel - 1, by omega⟩
  induction trace generalizing s with
  | nil => exact ⟨s, rfl⟩
  | cons a trace ih => exact ih (s.countHit 0)

/-- After a trace that makes no ambiguous eviction in the hierarchy, every line of the model holds
the blocks that were accessed most recently among those of the line, as many as it has ways. -/
theorem run_lru (cacheConfig : List CacheLevel) (hset : ∀ c ∈ cacheConfig, c.SetAssociative)
    (hlength : cacheConfig.length ≤ 255) (fuel : ℕ) (hfuel : cacheConfig.length < fuel)
    (trace : List (BitVec 64 × Bool)) (htrace : trace.length < 2 ^ 64)
    (hamb : (Hierarchy.run cacheConfig Hierarchy.empty trace).ambiguous = false) :
    ∃ s, GenericCacheModel.run cacheConfig fuel GenericCacheModel.empty trace = some s ∧
      ∀ level c, cacheConfig[level]? = some c → ∀ line block, block ∈ s.cache level line ↔
          block ∈ (order ((Lru.lineOf c line (s.reached level)).map CacheAccess.block)).take
            c.associativity.toNat := by
  cases cacheConfig with
  | nil =>
    obtain ⟨s, hrun⟩ := run_nil hfuel empty trace
    exact ⟨s, hrun, fun level c hc => nomatch hc⟩
  | cons c levels =>
    obtain ⟨s, hrun, hag⟩ := (Agrees.empty (c :: levels)).run hset hlength hfuel
      (by rw [Hierarchy.empty]; simpa using htrace) hamb
    refine ⟨s, hrun, fun level c' hc' line block => ?_⟩
    rw [hag.reached level (Nat.zero_le _),
      ← Lru.keys_foldl (hset c' (mem_of_getElem? hc')), ← Lru.entries,
      (hag.line level c' (Nat.zero_le _) hc' line).mem_keys]

/-- A write-back level with one line. -/
def oneLine (ways : BitVec 32) : CacheLevel := ⟨ways * 64, true, ways, [], ∅⟩

/-- A line of one way in front of a line of two ways. -/
def twoLevels : List CacheLevel := [oneLine 1, oneLine 2]

lemma twoLevels_setAssociative : ∀ c ∈ twoLevels, c.SetAssociative := by
  intro c hc
  rcases mem_pair.1 hc with rfl | rfl
  · exact ⟨by decide, by decide⟩
  · exact ⟨by decide, by decide⟩

/-- The write-back of block 1 comes before the fill of block 2, and block 1 is evicted first. -/
theorem run_lru_twoLevels :
    ∃ s, GenericCacheModel.run twoLevels 3 .empty [(64, true), (128, false), (192, false)] =
        some s ∧
      ∀ level c, twoLevels[level]? = some c → ∀ line block, block ∈ s.cache level line ↔
          block ∈ (order ((Lru.lineOf c line (s.reached level)).map CacheAccess.block)).take
            c.associativity.toNat :=
  run_lru twoLevels twoLevels_setAssociative (by decide) 3 (by decide)
    [(64, true), (128, false), (192, false)] (by decide) (by decide +kernel)

/-- Block 2 is written and then written back by the read of block 1, which reaches the second level
later but with the same stamp.  The read of block 3 evicts block 1 all the same. -/
theorem run_sameStamp : (∀ c ∈ twoLevels, c.SetAssociative) ∧
      ∃ s, GenericCacheModel.run twoLevels 3 .empty [(128, true), (64, false), (192, false)] =
          some s ∧
        (s.reached 1).map CacheAccess.block = [2, 1, 3] ∧ (2 : BitVec 64) ∈ s.cache 1 0 ∧
        (1 : BitVec 64) ∉ s.cache 1 0 ∧
        (1 : BitVec 64) ∈ (order ((Lru.lineOf (oneLine 2) 0 (s.reached 1)).map
          CacheAccess.block)).take 2 := by
  refine ⟨twoLevels_setAssociative, ?_⟩
  have hrun : ((run twoLevels 3 .empty
      [(128, true), (64, false), (192, false)]).map fun s =>
        (s.reached 1, (s.cache 1 0).contains 2, (s.cache 1 0).contains 1)) =
      some ([⟨2, true, 2⟩, ⟨1, false, 2⟩, ⟨3, false, 3⟩], true, false) := by decide +kernel
  obtain ⟨s, hs, heq⟩ := Option.map_eq_some_iff.1 hrun
  obtain ⟨hreached, htwo, hone⟩ : _ ∧ _ ∧ _ := by simpa only [Prod.mk.injEq] using heq
  refine ⟨s, hs, ?_, TreeMap.contains_iff_mem.1 htwo, ?_, ?_⟩
  · rw [hreached]
    rfl
  · rw [← TreeMap.contains_iff_mem, hone]
    simp
  · rw [hreached]
    decide +kernel

end Castan
