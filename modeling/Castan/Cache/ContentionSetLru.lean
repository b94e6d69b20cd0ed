/-
# The contention-set model is an exact LRU cache

The lines cached for a contention set are the most recently used ones among those that map to the
set.  The time stamps are what the code orders them by: they are distinct within each set and at
most the shared clock, so the entry with the smallest stamp is the least recently used one.
-/
import Castan.Cache.ContentionSet
import Castan.Lib.Recency

namespace Castan

open CacheLines List Tables
open Std (TreeMap TreeSet)
open Recency (Tracks order touch)

/-! ### The lines of one set -/

namespace CacheLines

variable {m : CacheLines} {L : List (BitVec 64)} {k now : ℕ} {block time : BitVec 64}
  {isWrite : Bool}

/-- The times of the most recent uses. -/
def times (m : CacheLines) (block : BitVec 64) : Option ℕ := m[block]?.map (·.useTime.toNat)

lemma times_insert (e : CacheEntry) :
    times (m.insert block e) = Function.update (times m) block (some e.useTime.toNat) := by
  funext b
  simp only [times, TreeMap.getElem?_insert, Std.compare_eq_iff_eq]
  rcases eq_or_ne block b with rfl | hb
  · simp
  · rw [if_neg hb, Function.update_of_ne hb.symm, times]

lemma times_erase : times (m.erase block) = Function.update (times m) block none := by
  funext b
  simp only [times, TreeMap.getElem?_erase, Std.compare_eq_iff_eq]
  rcases eq_or_ne block b with rfl | hb
  · simp
  · rw [if_neg hb, Function.update_of_ne hb.symm, times]

lemma mem_iff (h : Tracks (times m) now L) (b : BitVec 64) : b ∈ L ↔ b ∈ m := by
  rw [h.mem_iff, TreeMap.mem_iff_isSome_getElem?, Option.isSome_iff_exists]
  simp only [times, Option.map_eq_some_iff]
  exact ⟨fun ⟨_, e, he, _⟩ => ⟨e, he⟩, fun ⟨e, he⟩ => ⟨_, e, he, rfl⟩⟩

lemma size_eq (h : Tracks (times m) now L) : m.size = L.length := by
  have hnodup : m.keys.Nodup := by
    have := m.distinct_keys
    simpa [List.Nodup, Std.compare_eq_iff_eq] using this
  have hperm : m.keys.Perm L := (perm_ext_iff_of_nodup hnodup h.nodup).mpr fun b => by
    rw [TreeMap.mem_keys, mem_iff h]
  rw [← TreeMap.length_keys, hperm.length_eq]

/-! ### The oldest entry -/

lemma oldest_cons (q p : BitVec 64 × CacheEntry) (entries : List (BitVec 64 × CacheEntry)) :
    oldest (q :: entries) p = oldest entries (if q.2.useTime < p.2.useTime then q else p) := rfl

lemma oldest_mem (entries : List (BitVec 64 × CacheEntry)) (p : BitVec 64 × CacheEntry) :
    oldest entries p ∈ p :: entries := by
  induction entries generalizing p with
  | nil => simp [oldest]
  | cons q entries ih =>
    have hstep := ih (if q.2.useTime < p.2.useTime then q else p)
    rw [oldest_cons]
    rcases mem_cons.mp hstep with h | h
    · rw [h]
      split <;> simp
    · simp [h]

lemma oldest_le (entries : List (BitVec 64 × CacheEntry)) (p : BitVec 64 × CacheEntry) :
    ∀ q ∈ p :: entries, (oldest entries p).2.useTime.toNat ≤ q.2.useTime.toNat := by
  induction entries generalizing p with
  | nil => simp [oldest]
  | cons q entries ih =>
    have hstep := ih (if q.2.useTime < p.2.useTime then q else p)
    rw [oldest_cons]
    have hhead := hstep _ mem_cons_self
    have hmin : (if q.2.useTime < p.2.useTime then q else p).2.useTime.toNat ≤
        min p.2.useTime.toNat q.2.useTime.toNat := by
      split <;> next h => rw [BitVec.lt_def] at h; omega
    intro r hr
    rcases mem_cons.mp hr with rfl | hr
    · omega
    · rcases mem_cons.mp hr with rfl | hr
      · omega
      · exact hstep r (mem_cons_of_mem _ hr)

lemma victim_eq_none (h : Tracks (times m) now L) (hk : L.length < k) : m.victim k = none := by
  rw [victim, if_neg (by rw [size_eq h]; omega)]

/-- In a full set the victim is the least recently used line. -/
lemma victim_eq_some (h : Tracks (times m) now L) (hpos : 0 < k) (hk : k ≤ L.length) :
    ∃ M c e, L = M ++ [c] ∧ m.victim k = some (c, e) ∧ m[c]? = some e := by
  have hlen : m.toList.length = L.length := by rw [TreeMap.length_toList, size_eq h]
  obtain ⟨p, l, hl⟩ : ∃ p l, m.toList = p :: l := by
    cases hcase : m.toList with
    | nil =>
      rw [hcase, length_nil] at hlen
      omega
    | cons p l => exact ⟨p, l, rfl⟩
  have hmem : oldest m.toList p ∈ m.toList := by
    have := oldest_mem m.toList p
    rw [hl, mem_cons] at this
    rcases this with h | h
    · rw [hl, h]
      exact mem_cons_self
    · rwa [hl]
  obtain ⟨c, e, hce⟩ : ∃ c e, oldest m.toList p = (c, e) := ⟨_, _, rfl⟩
  rw [hce, TreeMap.mem_toList_iff_getElem?_eq_some] at hmem
  have hcL : c ∈ L := by
    rw [mem_iff h, TreeMap.mem_iff_isSome_getElem?, hmem]
    rfl
  obtain ⟨M, hM⟩ := h.eq_getLast hcL fun b _ s t hs ht => by
    obtain ⟨d, hd, rfl⟩ := Option.map_eq_some_iff.mp hs
    obtain ⟨e', he', rfl⟩ := Option.map_eq_some_iff.mp ht
    rw [hmem] at he'
    obtain rfl := Option.some.inj he'
    have hle := oldest_le m.toList p (b, d)
      (mem_cons_of_mem _ (TreeMap.mem_toList_iff_getElem?_eq_some.mpr hd))
    rwa [hce] at hle
  refine ⟨M, c, e, hM, ?_, hmem⟩
  rw [victim, if_pos (by rw [size_eq h]; exact hk)]
  rw [show m.toList.head? = some p by rw [hl, List.head?_cons], Option.map_some, hce]

/-! ### One access to one set -/

/-- The lines after an access. -/
def access (k : ℕ) (m : CacheLines) (block time : BitVec 64) (isWrite : Bool) : CacheLines :=
  if m.contains block then m.hit block time isWrite else m.miss k block time isWrite

/-- An access moves the line to the front of the order of recency. -/
lemma tracks_access (h : Tracks (times m) now L) (hpos : 0 < k) (hnow : now < time.toNat) :
    Tracks (times (access k m block time isWrite)) time.toNat (touch k L block) := by
  rw [access, touch]
  by_cases hb : block ∈ m
  · rw [if_pos (TreeMap.contains_iff_mem.mpr hb), if_pos ((mem_iff h _).mpr hb), hit, times_insert]
    exact h.hit hnow
  · have hbL : block ∉ L := fun hbL => hb ((mem_iff h _).mp hbL)
    rw [if_neg (by simpa [TreeMap.contains_iff_mem] using hb), if_neg hbL, miss, times_insert]
    by_cases hk : L.length < k
    · rw [if_pos hk, victim_eq_none h hk]
      exact h.insert hnow hbL
    · obtain ⟨M, c, e, rfl, hv, -⟩ := victim_eq_some h hpos (Nat.le_of_not_lt hk)
      rw [if_neg hk, hv, dropLast_concat, times_erase]
      exact h.evict.insert hnow fun hbM => hbL (mem_append_left _ hbM)

/-- The line that was accessed is dirty if it was written, now or before. -/
lemma access_self : (access k m block time isWrite)[block]? =
      some ⟨time, isWrite || (m[block]?.map CacheEntry.dirty).getD false⟩ := by
  rw [access]
  by_cases hb : block ∈ m
  · rw [if_pos (TreeMap.contains_iff_mem.mpr hb), hit, TreeMap.getElem?_insert_self]
    cases isWrite <;> rfl
  · rw [if_neg (by simpa [TreeMap.contains_iff_mem] using hb), miss, TreeMap.getElem?_insert_self,
      TreeMap.getElem?_eq_none hb]
    cases isWrite <;> rfl

/-- The other lines that remain are unchanged. -/
lemma access_of_ne {b : BitVec 64} {e : CacheEntry} (hb : b ≠ block)
    (he : (access k m block time isWrite)[b]? = some e) : m[b]? = some e := by
  rw [access] at he
  split at he
  · rwa [hit, TreeMap.getElem?_insert, if_neg (by simpa using hb.symm)] at he
  · rw [miss, TreeMap.getElem?_insert, if_neg (by simpa using hb.symm)] at he
    split at he
    · rw [TreeMap.getElem?_erase] at he
      split at he
      · simp at he
      · exact he
    · exact he

/-- A miss writes out a dirty line if the line that leaves the set is dirty. -/
lemma evictsDirty_iff (h : Tracks (times m) now L) (hpos : 0 < k) (hb : block ∉ L) :
    m.evictsDirty k = true ↔
      ∃ c e, c ∈ L ∧ c ∉ touch k L block ∧ m[c]? = some e ∧ e.dirty = true := by
  rw [touch, if_neg hb, evictsDirty]
  by_cases hk : L.length < k
  · rw [victim_eq_none h hk, if_pos hk]
    refine ⟨fun hf => absurd hf (by simp), ?_⟩
    rintro ⟨c, e, hc, hc', -, -⟩
    exact absurd (mem_cons_of_mem _ hc) hc'
  · obtain ⟨M, c, e, rfl, hv, hce⟩ := victim_eq_some h hpos (Nat.le_of_not_lt hk)
    have hcM : c ∉ M := by
      have hnodup := h.nodup
      rw [nodup_append] at hnodup
      exact fun hcM => hnodup.2.2 c hcM c (by simp) rfl
    have hcb : c ≠ block := fun hcb => hb (hcb ▸ by simp)
    rw [hv, if_neg hk, dropLast_concat]
    constructor
    · intro hd
      exact ⟨c, e, by simp, by simp [hcM, hcb], hce, hd⟩
    · rintro ⟨c', e', hc', hnot, hce', hd⟩
      obtain rfl : c' = c := by
        rcases mem_append.mp hc' with hc' | hc'
        · exact absurd (mem_cons_of_mem _ hc') hnot
        · exact mem_singleton.mp hc'
      rw [hce] at hce'
      obtain rfl := Option.some.inj hce'
      exact hd

end CacheLines

/-! ### What a trace leaves in a set -/

instance (t : Tables) (block : BitVec 64) (i : ℤ) : Decidable (t.Maps block i) :=
  decidable_of_iff (i ∈ t.idxs block) Tables.mem_idxs_iff

namespace Tables

variable {t : Tables} {i : ℤ} {trace : List (BitVec 64 × Bool)} {a b : BitVec 64} {w : Bool}

/-- The lines a trace accesses that map to set `i`. -/
def blocks (t : Tables) (i : ℤ) (trace : List (BitVec 64 × Bool)) : List (BitVec 64) :=
  (trace.map fun access => blockAddr access.1).filter fun block => t.Maps block i

/-- The most recently accessed lines among them, as many as the set has ways. -/
def recent (t : Tables) (i : ℤ) (trace : List (BitVec 64 × Bool)) : List (BitVec 64) :=
  (order (t.blocks i trace)).take (t.associativity i)

/-- `block` was written, and has been in set `i` at every access to it since. -/
def WrittenSinceInserted (t : Tables) (i : ℤ) (trace : List (BitVec 64 × Bool))
    (block : BitVec 64) : Prop :=
  ∃ before address after, trace = before ++ (address, true) :: after ∧ blockAddr address = block ∧
    ∀ mid address' w after', after = mid ++ (address', w) :: after' →
      blockAddr address' = block → block ∈ t.recent i (before ++ (address, true) :: mid)

lemma blocks_concat (h : t.Maps (blockAddr a) i) :
    t.blocks i (trace ++ [(a, w)]) = t.blocks i trace ++ [blockAddr a] := by
  simp [blocks, h]

lemma recent_concat (h : t.Maps (blockAddr a) i) :
    t.recent i (trace ++ [(a, w)]) =
      touch (t.associativity i) (t.recent i trace) (blockAddr a) := by
  rw [recent, blocks_concat h, Recency.take_order_concat _ _ (t.associativity_pos i), recent]

lemma recent_concat_of_not (h : ¬ t.Maps (blockAddr a) i) :
    t.recent i (trace ++ [(a, w)]) = t.recent i trace := by
  rw [recent, recent, blocks, blocks]
  simp [h]

lemma maps_of_mem_recent (h : b ∈ t.recent i trace) : t.Maps b i := by
  have hb := Recency.mem_order.mp (mem_of_mem_take h)
  rw [blocks, mem_filter, decide_eq_true_iff] at hb
  exact hb.2

lemma concat_eq_split {α : Type*} {l before after : List α} {x y : α} :
    l ++ [x] = before ++ y :: after ↔
      (after = [] ∧ before = l ∧ y = x) ∨ ∃ mid, after = mid ++ [x] ∧ l = before ++ y :: mid := by
  constructor
  · intro h
    rcases eq_nil_or_concat after with rfl | ⟨mid, z, rfl⟩
    · obtain ⟨rfl, hx⟩ := append_inj' h rfl
      exact Or.inl ⟨rfl, rfl, (List.cons.inj hx).1.symm⟩
    · rw [concat_eq_append, ← cons_append, ← append_assoc] at h
      obtain ⟨rfl, hx⟩ := append_inj' h rfl
      exact Or.inr ⟨mid, by rw [concat_eq_append, (List.cons.inj hx).1], rfl⟩
  · rintro (⟨rfl, rfl, rfl⟩ | ⟨mid, rfl, rfl⟩)
    · rfl
    · simp

/-- An access to another line does not count. -/
lemma writtenSinceInserted_of_ne (h : blockAddr a ≠ b) :
    t.WrittenSinceInserted i (trace ++ [(a, w)]) b ↔ t.WrittenSinceInserted i trace b := by
  constructor
  · rintro ⟨before, address, after, heq, hb, hin⟩
    rcases concat_eq_split.mp heq with ⟨-, -, hx⟩ | ⟨mid, rfl, rfl⟩
    · exact absurd (by rw [← (Prod.mk.inj hx).1, hb]) h
    · exact ⟨before, address, mid, rfl, hb, fun mid' a' w' after' hm =>
        hin mid' a' w' (after' ++ [(a, w)]) (by rw [hm]; simp)⟩
  · rintro ⟨before, address, after, rfl, hb, hin⟩
    refine ⟨before, address, after ++ [(a, w)], by simp, hb, fun mid a' w' after' hm ha' => ?_⟩
    rcases concat_eq_split.mp hm with ⟨-, -, hx⟩ | ⟨mid', rfl, rfl⟩
    · exact absurd (by rw [← (Prod.mk.inj hx).1, ha']) h
    · exact hin mid a' w' mid' rfl ha'

/-- After an access to the line: it is written now, or it was found and was written before. -/
lemma writtenSinceInserted_self : t.WrittenSinceInserted i (trace ++ [(a, w)]) (blockAddr a) ↔
      w = true ∨ blockAddr a ∈ t.recent i trace ∧ t.WrittenSinceInserted i trace (blockAddr a) := by
  constructor
  · rintro ⟨before, address, after, heq, hb, hin⟩
    rcases concat_eq_split.mp heq with ⟨-, -, hx⟩ | ⟨mid, rfl, rfl⟩
    · exact Or.inl (Prod.mk.inj hx).2.symm
    · refine Or.inr ⟨hin mid a w [] rfl rfl, before, address, mid, rfl, hb, ?_⟩
      exact fun mid' a' w' after' hm => hin mid' a' w' (after' ++ [(a, w)]) (by rw [hm]; simp)
  · rintro (rfl | ⟨hrecent, before, address, after, rfl, hb, hin⟩)
    · exact ⟨trace, a, [], rfl, rfl, fun mid a' w' after' hm => by simp at hm⟩
    · refine ⟨before, address, after ++ [(a, w)], by simp, hb, fun mid a' w' after' hm ha' => ?_⟩
      rcases concat_eq_split.mp hm with ⟨-, rfl, -⟩ | ⟨mid', rfl, rfl⟩
      · exact hrecent
      · exact hin mid a' w' mid' rfl ha'

end Tables

namespace CacheModel

variable {t : Tables} {s : CacheModel} {i : ℤ} {trace : List (BitVec 64 × Bool)}
  {a block time : BitVec 64} {w : Bool}

/-! ### The loop over the affected sets -/

lemma accessSet_cache (r : Access) (j : ℤ) : (accessSet t block time w r j).cache =
      Function.update r.cache j ((r.cache j).access (t.associativity j) block time w) := by
  rw [accessSet, access]
  split <;> rfl

lemma accessSet_cache_of_notMem {idxs : List ℤ} {r : Access} {j l : ℤ} (hj : j ∉ idxs)
    (hl : l ∈ idxs) : (accessSet t block time w r j).cache l = r.cache l := by
  have hlj : l ≠ j := by
    rintro rfl
    exact hj hl
  rw [accessSet_cache, Function.update_of_ne hlj]

lemma foldl_accessSet_cache (idxs : List ℤ) (hnodup : idxs.Nodup) (r : Access) :
    (idxs.foldl (accessSet t block time w) r).cache i =
      if i ∈ idxs then (r.cache i).access (t.associativity i) block time w else r.cache i := by
  induction idxs generalizing r with
  | nil => simp
  | cons j idxs ih =>
    obtain ⟨hj, hnodup⟩ := nodup_cons.mp hnodup
    rw [foldl_cons, ih hnodup, accessSet_cache]
    rcases eq_or_ne i j with rfl | hij
    · simp [hj]
    · simp [hij]

lemma foldl_accessSet_miss (idxs : List ℤ) (hnodup : idxs.Nodup) (r : Access) :
    (idxs.foldl (accessSet t block time w) r).miss = true ↔
      r.miss = true ∧ ∀ j ∈ idxs, block ∉ r.cache j := by
  induction idxs generalizing r with
  | nil => simp
  | cons j idxs ih =>
    obtain ⟨hj, hnodup⟩ := nodup_cons.mp hnodup
    have hmiss : (accessSet t block time w r j).miss = true ↔
        r.miss = true ∧ block ∉ r.cache j := by
      rw [accessSet, ← TreeMap.contains_iff_mem]
      split <;> next h => simp [h]
    rw [foldl_cons, ih hnodup, hmiss, forall_mem_cons, and_assoc]
    refine and_congr_right fun _ => and_congr_right fun _ => forall₂_congr fun l hl => ?_
    rw [accessSet_cache_of_notMem hj hl]

lemma foldl_accessSet_dirtyMiss (idxs : List ℤ) (hnodup : idxs.Nodup) (r : Access) :
    (idxs.foldl (accessSet t block time w) r).dirtyMiss = true ↔
      r.dirtyMiss = true ∨ ∃ j ∈ idxs, block ∉ r.cache j ∧
        (r.cache j).evictsDirty (t.associativity j) = true := by
  induction idxs generalizing r with
  | nil => simp
  | cons j idxs ih =>
    obtain ⟨hj, hnodup⟩ := nodup_cons.mp hnodup
    have hdirty : (accessSet t block time w r j).dirtyMiss = true ↔ r.dirtyMiss = true ∨
        block ∉ r.cache j ∧ (r.cache j).evictsDirty (t.associativity j) = true := by
      rw [accessSet, ← TreeMap.contains_iff_mem]
      split <;> next h => simp [h]
    rw [foldl_cons, ih hnodup, hdirty, exists_mem_cons_iff, or_assoc]
    refine or_congr_right (or_congr_right (exists_congr fun l => and_congr_right fun hl => ?_))
    rw [accessSet_cache_of_notMem hj hl]

/-- One access, set by set: the lines, the clock and the counters. -/
lemma updateCache_eq (t : Tables) (s : CacheModel) (a : BitVec 64) (w : Bool) :
    (∀ i, (s.updateCache t a w).cache i = if t.Maps (blockAddr a) i then
        (s.cache i).access (t.associativity i) (blockAddr a) (s.currentTime + 1) w
      else s.cache i) ∧
    (s.updateCache t a w).currentTime = s.currentTime + 1 ∧
    ∃ miss dirtyMiss, (s.updateCache t a w).loopStats =
        s.loopStats.modifyLast (count miss dirtyMiss) ∧
      (miss = true ↔ ∀ i, t.Maps (blockAddr a) i → blockAddr a ∉ s.cache i) ∧
      (dirtyMiss = true ↔ ∃ i, t.Maps (blockAddr a) i ∧ blockAddr a ∉ s.cache i ∧
        (s.cache i).evictsDirty (t.associativity i) = true) := by
  have hnodup : (t.idxs (blockAddr a)).toList.Nodup := by
    have := (t.idxs (blockAddr a)).distinct_toList
    simpa [List.Nodup, Std.compare_eq_iff_eq] using this
  refine ⟨fun i => ?_, rfl, _, _, rfl, ?_, ?_⟩
  · simp only [updateCache]
    rw [foldl_accessSet_cache _ hnodup]
    simp only [TreeSet.mem_toList, mem_idxs_iff]
  · rw [foldl_accessSet_miss _ hnodup]
    simp only [TreeSet.mem_toList, mem_idxs_iff, true_and]
  · rw [foldl_accessSet_dirtyMiss _ hnodup]
    simp only [TreeSet.mem_toList, mem_idxs_iff, Bool.false_eq_true, false_or]

/-! ### Whole traces -/

/-- The lines of set `i` after a trace. -/
structure Lru (t : Tables) (i : ℤ) (trace : List (BitVec 64 × Bool)) (m : CacheLines) : Prop where
  tracks : Tracks m.times trace.length (t.recent i trace)
  dirty_iff : ∀ b e, m[b]? = some e → (e.dirty = true ↔ t.WrittenSinceInserted i trace b)

lemma Lru.mem_iff {m : CacheLines} (h : Lru t i trace m) (b : BitVec 64) :
    b ∈ m ↔ b ∈ t.recent i trace :=
  (CacheLines.mem_iff h.tracks b).symm

lemma Lru.nil : Lru t i [] ∅ where
  tracks := by
    have htimes : times ∅ = fun _ => none := by
      funext b
      simp [times]
    simpa [htimes, recent, blocks, order] using Tracks.empty 0
  dirty_iff b e he := by simp at he

/-- An access that maps to the set. -/
lemma Lru.access {m : CacheLines} (h : Lru t i trace m) (hmaps : t.Maps (blockAddr a) i)
    (htime : time.toNat = trace.length + 1) :
    Lru t i (trace ++ [(a, w)]) (m.access (t.associativity i) (blockAddr a) time w) where
  tracks := by
    rw [recent_concat hmaps, length_append, length_singleton, ← htime]
    exact tracks_access h.tracks (t.associativity_pos i) (by omega)
  dirty_iff b e he := by
    rcases eq_or_ne (blockAddr a) b with rfl | hb
    · rw [access_self] at he
      obtain rfl := Option.some.inj he
      rw [writtenSinceInserted_self, Bool.or_eq_true, ← h.mem_iff]
      refine or_congr_right ?_
      -- the flag of a line that was not there is the one it is inserted with
      rw [TreeMap.mem_iff_isSome_getElem?]
      cases hold : m[blockAddr a]? with
      | none => simp
      | some old => simpa using h.dirty_iff _ old hold
    · rw [writtenSinceInserted_of_ne hb]
      exact h.dirty_iff b e (access_of_ne hb.symm he)

/-- An access that does not map to the set. -/
lemma Lru.skip {m : CacheLines} (h : Lru t i trace m) (hmaps : ¬ t.Maps (blockAddr a) i) :
    Lru t i (trace ++ [(a, w)]) m where
  tracks := by
    rw [recent_concat_of_not hmaps, length_append, length_singleton]
    exact { h.tracks with le_now := fun b n hn => (h.tracks.le_now b n hn).trans (Nat.le_succ _) }
  dirty_iff b e he := by
    have hb : blockAddr a ≠ b := by
      rintro rfl
      refine hmaps (maps_of_mem_recent ((h.mem_iff _).mp ?_))
      rw [TreeMap.mem_iff_isSome_getElem?, he]
      rfl
    rw [writtenSinceInserted_of_ne hb]
    exact h.dirty_iff b e he

/-- The model when the analysed loop is entered: the cache is empty. -/
def start (stats : List LoopStats) : CacheModel := { enabled := true, loopStats := stats }

lemma run_concat (access : BitVec 64 × Bool) :
    run t s (trace ++ [access]) = (run t s trace).updateCache t access.1 access.2 := by
  rw [run, foldl_append]
  rfl

/-- The invariant of a run: every set is an LRU cache and the clock counts the accesses. -/
lemma run_tracksLru (t : Tables) (stats : List LoopStats) (trace : List (BitVec 64 × Bool))
    (hlen : trace.length < 2 ^ 64) :
    (∀ i, Lru t i trace ((run t (start stats) trace).cache i)) ∧
      (run t (start stats) trace).currentTime.toNat = trace.length := by
  induction trace using List.reverseRecOn with
  | nil => exact ⟨fun i => Lru.nil, rfl⟩
  | append_singleton trace access ih =>
    rw [length_append, length_singleton] at hlen
    obtain ⟨hlru, hclock⟩ := ih (by omega)
    obtain ⟨hcache, htime, -⟩ :=
      updateCache_eq t (run t (start stats) trace) access.1 access.2
    have hnext : ((run t (start stats) trace).currentTime + 1).toNat = trace.length + 1 := by
      rw [BitVec.toNat_add, hclock]
      exact Nat.mod_eq_of_lt hlen
    refine ⟨fun i => ?_, ?_⟩
    · rw [run_concat, hcache]
      split
      · next hmaps => exact (hlru i).access hmaps hnext
      · next hmaps => exact (hlru i).skip hmaps
    · rw [run_concat, htime, hnext, length_append, length_singleton]

lemma run_loopStats_ne_nil (t : Tables) (trace : List (BitVec 64 × Bool)) {stats : List LoopStats}
    (hstats : stats ≠ []) : (run t (start stats) trace).loopStats ≠ [] := by
  induction trace using List.reverseRecOn with
  | nil => exact hstats
  | append_singleton trace access ih =>
    obtain ⟨-, -, miss, dirtyMiss, hstep, -⟩ :=
      updateCache_eq t (run t (start stats) trace) access.1 access.2
    obtain ⟨init, st, hinit⟩ := eq_nil_or_concat _ |>.resolve_left ih
    rw [run_concat, hstep, hinit, concat_eq_append, modifyLast_concat]
    simp

/-- The line of `a` is found in one of its sets. -/
def Hits (t : Tables) (trace : List (BitVec 64 × Bool)) (a : BitVec 64) : Prop :=
  ∃ i, t.Maps (blockAddr a) i ∧ blockAddr a ∈ t.recent i trace

/-- A dirty line leaves one of the sets of `a`. -/
def EvictsDirty (t : Tables) (trace : List (BitVec 64 × Bool)) (a : BitVec 64) (w : Bool) : Prop :=
  ∃ i c, t.Maps (blockAddr a) i ∧ c ∈ t.recent i trace ∧ c ∉ t.recent i (trace ++ [(a, w)]) ∧
    t.WrittenSinceInserted i trace c

lemma evictsDirty_iff_of_lru {m : CacheLines} (h : Lru t i trace m)
    (hmaps : t.Maps (blockAddr a) i) :
    blockAddr a ∉ m ∧ m.evictsDirty (t.associativity i) = true ↔
      ∃ c, c ∈ t.recent i trace ∧ c ∉ t.recent i (trace ++ [(a, w)]) ∧
        t.WrittenSinceInserted i trace c := by
  rw [h.mem_iff, recent_concat hmaps]
  constructor
  · rintro ⟨hb, hev⟩
    obtain ⟨c, e, hc, hc', he, hd⟩ :=
      (evictsDirty_iff h.tracks (t.associativity_pos i) hb).mp hev
    exact ⟨c, hc, hc', (h.dirty_iff c e he).mp hd⟩
  · rintro ⟨c, hc, hc', hwritten⟩
    -- a hit moves a line to the front and loses none
    have hb : blockAddr a ∉ t.recent i trace := fun hb => by
      rw [touch, if_pos hb] at hc'
      rcases eq_or_ne c (blockAddr a) with rfl | hne
      · exact hc' mem_cons_self
      · exact hc' (mem_cons_of_mem _ ((mem_erase_of_ne hne).mpr hc))
    obtain ⟨e, he⟩ := Option.isSome_iff_exists.mp
      (TreeMap.mem_iff_isSome_getElem?.mp ((h.mem_iff c).mpr hc))
    exact ⟨hb, (evictsDirty_iff h.tracks (t.associativity_pos i) hb).mpr
      ⟨c, e, hc, hc', he, (h.dirty_iff c e he).mpr hwritten⟩⟩

/-- What one more access adds to the counters. -/
lemma run_count (t : Tables) (stats : List LoopStats) (trace : List (BitVec 64 × Bool))
    (hlen : trace.length < 2 ^ 64) (a : BitVec 64) (w : Bool) :
    ∃ miss dirtyMiss, (run t (start stats) (trace ++ [(a, w)])).loopStats =
        (run t (start stats) trace).loopStats.modifyLast (count miss dirtyMiss) ∧
      (miss = true ↔ ¬ Hits t trace a) ∧ (dirtyMiss = true ↔ EvictsDirty t trace a w) := by
  obtain ⟨hlru, -⟩ := run_tracksLru t stats trace hlen
  obtain ⟨-, -, miss, dirtyMiss, hstep, hmiss, hdirty⟩ :=
    updateCache_eq t (run t (start stats) trace) a w
  refine ⟨miss, dirtyMiss, by rw [run_concat, hstep], ?_, ?_⟩
  · rw [hmiss, Hits]
    push Not
    exact forall₂_congr fun i _ => by rw [(hlru i).mem_iff]
  · rw [hdirty, EvictsDirty]
    refine exists_congr fun i => ?_
    rw [exists_and_left]
    exact and_congr_right fun hmaps => evictsDirty_iff_of_lru (hlru i) hmaps

open Classical in
/-- The model is an exact LRU cache.  From the empty cache, for every trace of accesses: the lines
of each set are the most recently accessed distinct ones among those that map to it, as many as
fit; a line is dirty iff it was written since it was last inserted; and every access counts as a
hit iff its line was among the recent ones of one of its sets and otherwise as a miss, with one
more miss iff it evicted a dirty line. -/
theorem run_exactLru (t : Tables) (stats : List LoopStats) (hstats : stats ≠ [])
    (trace : List (BitVec 64 × Bool)) (hlen : trace.length < 2 ^ 64) :
    (∀ i, (∀ b, b ∈ (run t (start stats) trace).cache i ↔
          b ∈ (order (t.blocks i trace)).take (t.associativity i)) ∧
        ((run t (start stats) trace).cache i).size =
          min (t.associativity i) (t.blocks i trace).dedup.length ∧
        ∀ b e, ((run t (start stats) trace).cache i)[b]? = some e →
          (e.dirty = true ↔ t.WrittenSinceInserted i trace b)) ∧
      ∀ before a w after, trace = before ++ (a, w) :: after →
        ∃ init st, (run t (start stats) before).loopStats = init ++ [st] ∧
          (run t (start stats) (before ++ [(a, w)])).loopStats = init ++ [{ st with
            hitCount := st.hitCount + if Hits t before a then 1 else 0
            missCount := st.missCount + (if Hits t before a then 0 else 1) +
              if EvictsDirty t before a w then 1 else 0 }] := by
  obtain ⟨hlru, -⟩ := run_tracksLru t stats trace hlen
  refine ⟨fun i => ⟨(hlru i).mem_iff, ?_, (hlru i).dirty_iff⟩, ?_⟩
  · rw [size_eq (hlru i).tracks, recent, length_take, order, length_reverse]
  · rintro before a w after rfl
    rw [length_append] at hlen
    obtain ⟨miss, dirtyMiss, hstep, hmiss, hdirty⟩ := run_count t stats before (by omega) a w
    obtain ⟨init, st, hinit⟩ :=
      (eq_nil_or_concat _).resolve_left (run_loopStats_ne_nil t before hstats)
    rw [concat_eq_append] at hinit
    refine ⟨init, st, hinit, ?_⟩
    have hif : (if EvictsDirty t before a w then (1 : BitVec 64) else 0) =
        if dirtyMiss = true then 1 else 0 := if_congr hdirty.symm rfl rfl
    rw [hstep, hinit, modifyLast_concat, hif]
    by_cases hhit : Hits t before a
    · obtain rfl : miss = false := by simpa [hhit] using hmiss
      simp [count, hhit]
    · obtain rfl : miss = true := by simpa [hhit] using hmiss
      simp [count, hhit]

/-- Two overlapping sets of one and two ways. -/
def overlapping : Tables :=
  Tables.empty.load [⟨[0, 4096], 1, sorted_page, Nat.one_pos⟩,
    ⟨[4096, 8192], 2, by decide, by decide⟩]

/-- Offset 4096 is in both sets: the read of 0 evicts it from the first set only. -/
theorem run_exactLru_overlapping :
    (∀ b, b ∈ (run overlapping (start [{}]) [(4101, true), (0, false), (8192, false)]).cache 0 ↔
      b ∈ [0#64]) ∧
    ∀ b, b ∈ (run overlapping (start [{}]) [(4101, true), (0, false), (8192, false)]).cache 1 ↔
      b ∈ [8192#64, 4096#64] := by
  have h := (run_exactLru overlapping [{}] (by decide) [(4101, true), (0, false), (8192, false)]
    (by decide)).1
  refine ⟨fun b => ((h 0).1 b).trans ?_, fun b => ((h 1).1 b).trans ?_⟩
  · rw [show (order (overlapping.blocks 0 [(4101, true), (0, false), (8192, false)])).take
      (overlapping.associativity 0) = [0#64] by decide +kernel]
  · rw [show (order (overlapping.blocks 1 [(4101, true), (0, false), (8192, false)])).take
      (overlapping.associativity 1) = [8192#64, 4096#64] by decide +kernel]

end CacheModel

end Castan
