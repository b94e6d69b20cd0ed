/-
# Statistics of the contention-set model

Over a run of any calls, the counters of an iteration add up: every access is a hit or a miss, and
one more miss if it evicts a dirty entry.  The time that `dumpStats` prints for an iteration is the
total of all iterations, so that it is right only for a single iteration
(`dumpStats_right_iff`).
-/
import Castan.Cache.ContentionSetLru

namespace Castan

open List

def nsPerInstruction : ℚ := 5 / 100

def fixedOverheadNs : ℚ := 0

namespace CacheModel

/-! ### Calls -/

/-- `load` and `store` at a concrete address. -/
def access (t : Tables) (s : CacheModel) (address : BitVec 64) (isWrite : Bool) : CacheModel :=
  if s.enabled then (s.countAccess isWrite).updateCache t address isWrite else s

inductive Call
  | loop
  | exec
  | load (address : BitVec 64)
  | store (address : BitVec 64)

def call (t : Tables) (maxLoops : ℕ) (s : CacheModel) : Call → CacheModel
  | .loop => (s.loop maxLoops).2
  | .exec => s.exec
  | .load address => s.access t address false
  | .store address => s.access t address true

/-- A new model after a number of calls. -/
def calls (t : Tables) (maxLoops : ℕ) (cs : List Call) : CacheModel :=
  cs.foldl (call t maxLoops) {}

/-! ### Reports -/

/-- The contribution of an iteration to the time. -/
def iterationTime (st : LoopStats) : ℚ :=
  fixedOverheadNs + st.instructionCount.toNat * nsPerInstruction +
    st.hitCount.toNat * cacheHitLatency + st.missCount.toNat * cacheMissLatency

def getTotalTime (s : CacheModel) : ℚ :=
  s.loopStats.foldl (fun ns st => ns + iterationTime st) 0

/-- What `dumpStats` prints for an iteration; the throughput is left out for the time zero. -/
structure IterationReport where
  iteration : ℕ
  instructions : BitVec 64
  reads : BitVec 64
  writes : BitVec 64
  cacheHits : BitVec 64
  dramAccesses : BitVec 64
  executionTime : ℚ
  throughput : Option ℚ

def dumpStats (s : CacheModel) : List IterationReport :=
  s.loopStats.zipIdx.map fun p =>
    let ns := s.getTotalTime
    { iteration := p.2
      instructions := p.1.instructionCount
      reads := p.1.readCount
      writes := p.1.writeCount
      cacheHits := p.1.hitCount
      dramAccesses := p.1.missCount
      executionTime := ns
      throughput := if ns ≠ 0 then some (1000 / ns) else none }

/-! ### What the numbers should be -/

/-- The access evicts a dirty entry from a set that its line belongs to. -/
def WritesBack (t : Tables) (s : CacheModel) (address : BitVec 64) : Prop :=
  ∃ i, t.Maps (blockAddr address) i ∧ blockAddr address ∉ s.cache i ∧
    (s.cache i).evictsDirty (t.associativity i) = true

open Classical in
/-- The number of accesses of each iteration that evict a dirty entry, after one more call. -/
noncomputable def countWriteBacks (t : Tables) (maxLoops : ℕ) (s : CacheModel)
    (counts : List ℕ) : Call → List ℕ
  | .loop => if (s.loop maxLoops).1 then counts ++ [0] else counts
  | .exec => counts
  | .load address | .store address =>
    if s.enabled = true ∧ WritesBack t s address then counts.modifyLast (· + 1) else counts

/-- The number of accesses of each iteration that evict a dirty entry, over the calls of a run. -/
noncomputable def writeBacks (t : Tables) (maxLoops : ℕ) : CacheModel → List ℕ → List Call → List ℕ
  | _, counts, [] => counts
  | s, counts, c :: cs =>
    writeBacks t maxLoops (s.call t maxLoops c) (countWriteBacks t maxLoops s counts c) cs

/-- Each access is a hit or a miss, and a second miss if it evicts a dirty entry. -/
structure AddsUp (st : LoopStats) (writeBacks : ℕ) : Prop where
  sum_eq : st.hitCount.toNat + st.missCount.toNat =
    st.readCount.toNat + st.writeCount.toNat + writeBacks
  le : writeBacks ≤ st.readCount.toNat + st.writeCount.toNat

/-- The time printed for an iteration is its own, and the printed times make up the total. -/
structure TimesRight (s : CacheModel) : Prop where
  own : List.Forall₂ (fun st report => report.executionTime = iterationTime st) s.loopStats
    s.dumpStats
  sum_eq : (s.dumpStats.map IterationReport.executionTime).sum = s.getTotalTime

/-! ### The counters of a run -/

variable {t : Tables} {maxLoops : ℕ} {s : CacheModel}

/-- The counters add up, and there were at most `n` accesses. -/
structure AddsUpTo (n : ℕ) (st : LoopStats) (writeBacks : ℕ) : Prop extends
    AddsUp st writeBacks where
  accesses_le : st.readCount.toNat + st.writeCount.toNat ≤ n

lemma AddsUpTo.mono {n m : ℕ} {st : LoopStats} {k : ℕ} (h : AddsUpTo n st k) (hle : n ≤ m) :
    AddsUpTo m st k := ⟨h.toAddsUp, h.accesses_le.trans hle⟩

lemma modifyLast_cons_cons {α : Type} (f : α → α) (a b : α) (l : List α) :
    (a :: b :: l).modifyLast f = a :: (b :: l).modifyLast f :=
  modifyLast_append_of_right_ne_nil f [a] (b :: l) (by simp)

lemma forall₂_modifyLast {α β : Type} {R R' : α → β → Prop} {f : α → α} {g : β → β}
    (hmono : ∀ a b, R a b → R' a b) (hstep : ∀ a b, R a b → R' (f a) (g b)) {l : List α}
    {l' : List β} (h : List.Forall₂ R l l') :
    List.Forall₂ R' (l.modifyLast f) (l'.modifyLast g) := by
  induction h with
  | nil => exact .nil
  | cons hab hl ih =>
    cases hl with
    | nil => exact .cons (hstep _ _ hab) .nil
    | cons hab' hl =>
      rw [modifyLast_cons_cons, modifyLast_cons_cons]
      exact .cons (hmono _ _ hab) ih

lemma modifyLast_id {α : Type} (l : List α) : l.modifyLast id = l := by
  rcases eq_nil_or_concat' l with rfl | ⟨l, a, rfl⟩
  · rfl
  · rw [modifyLast_concat]
    rfl

lemma modifyLast_modifyLast {α : Type} (f g : α → α) (l : List α) :
    (l.modifyLast f).modifyLast g = l.modifyLast (g ∘ f) := by
  rcases eq_nil_or_concat' l with rfl | ⟨l, a, rfl⟩
  · rfl
  · rw [modifyLast_concat, modifyLast_concat, modifyLast_concat]
    rfl

/-- What an access does to the counters of the iteration. -/
def recordAccess (isWrite miss dirtyMiss : Bool) (st : LoopStats) : LoopStats :=
  count miss dirtyMiss (if isWrite then { st with writeCount := st.writeCount + 1 }
    else { st with readCount := st.readCount + 1 })

lemma AddsUpTo.recordAccess {n : ℕ} {st : LoopStats} {k : ℕ} (h : AddsUpTo n st k)
    (hn : n + 1 < 2 ^ 63) (isWrite miss dirtyMiss : Bool) :
    AddsUpTo (n + 1) (recordAccess isWrite miss dirtyMiss st) (if dirtyMiss then k + 1 else k) := by
  obtain ⟨⟨hsum, hle⟩, hn'⟩ := h
  cases isWrite <;> cases miss <;> cases dirtyMiss <;>
    · simp only [CacheModel.recordAccess, count, Bool.false_eq_true, if_true, if_false]
      refine ⟨⟨?_, ?_⟩, ?_⟩ <;> simp only [] <;> bv_omega

/-- An access changes the counters of the last iteration only. -/
lemma access_loopStats (t : Tables) (h : s.enabled = true) (address : BitVec 64) (isWrite : Bool) :
    ∃ miss dirtyMiss, (s.access t address isWrite).loopStats =
      s.loopStats.modifyLast (recordAccess isWrite miss dirtyMiss) ∧
        (dirtyMiss = true ↔ WritesBack t s address) := by
  obtain ⟨-, -, miss, dirtyMiss, hstats, -, hdirty⟩ :=
    updateCache_eq t (s.countAccess isWrite) address isWrite
  refine ⟨miss, dirtyMiss, ?_, hdirty⟩
  rw [access, if_pos h, hstats, countAccess, modifyLast_modifyLast]
  rfl

open Classical in
lemma access_addsUpTo {n : ℕ} {counts : List ℕ} (hn : n + 1 < 2 ^ 63)
    (h : List.Forall₂ (AddsUpTo n) s.loopStats counts) (address : BitVec 64) (isWrite : Bool) :
    List.Forall₂ (AddsUpTo (n + 1)) (s.access t address isWrite).loopStats
      (if s.enabled = true ∧ WritesBack t s address then counts.modifyLast (· + 1)
        else counts) := by
  have hmono : ∀ st k, AddsUpTo n st k → AddsUpTo (n + 1) st k := fun _ _ h =>
    h.mono (Nat.le_succ n)
  by_cases hen : s.enabled = true
  · obtain ⟨miss, dirtyMiss, hstats, hdirty⟩ := access_loopStats t hen address isWrite
    have hstep := forall₂_modifyLast hmono
      (fun st k h => h.recordAccess hn isWrite miss dirtyMiss) h
    rw [hstats]
    cases dirtyMiss with
    | true =>
      rw [if_pos ⟨hen, hdirty.mp rfl⟩]
      exact hstep
    | false =>
      rw [if_neg fun hwb => absurd (hdirty.mpr hwb.2) (by decide)]
      rw [← modifyLast_id counts]
      exact hstep
  · rw [access, if_neg hen, if_neg fun hwb => hen hwb.1]
    exact h.imp hmono

/-- One more call keeps the counters in step with the evictions. -/
lemma call_addsUpTo {n : ℕ} {counts : List ℕ} (hn : n + 1 < 2 ^ 63)
    (h : List.Forall₂ (AddsUpTo n) s.loopStats counts) (c : Call) :
    List.Forall₂ (AddsUpTo (n + 1)) (s.call t maxLoops c).loopStats
      (countWriteBacks t maxLoops s counts c) := by
  have hmono : ∀ st k, AddsUpTo n st k → AddsUpTo (n + 1) st k := fun _ _ h =>
    h.mono (Nat.le_succ n)
  have hnew : List.Forall₂ (AddsUpTo (n + 1)) (s.loopStats ++ [({} : LoopStats)])
      (counts ++ [0]) :=
    rel_append (h.imp hmono) (.cons ⟨⟨rfl, le_rfl⟩, Nat.zero_le _⟩ .nil)
  cases c with
  | loop =>
    simp only [call, countWriteBacks, loop]
    split
    · split
      · exact h.imp hmono
      · exact hnew
    · exact hnew
  | exec =>
    simp only [call, countWriteBacks, exec]
    split
    · rw [← modifyLast_id counts]
      refine forall₂_modifyLast hmono (fun st k hst => ?_) h
      exact ⟨⟨hst.sum_eq, hst.le⟩, hst.accesses_le.trans (Nat.le_succ n)⟩
    · exact h.imp hmono
  | load address => exact access_addsUpTo hn h address false
  | store address => exact access_addsUpTo hn h address true

/-- The counters of a run. -/
theorem calls_addsUpTo (t : Tables) (maxLoops : ℕ) :
    ∀ (cs : List Call) {n : ℕ} {s : CacheModel} {counts : List ℕ},
    n + cs.length < 2 ^ 63 → List.Forall₂ (AddsUpTo n) s.loopStats counts →
      List.Forall₂ (AddsUpTo (n + cs.length)) (cs.foldl (call t maxLoops) s).loopStats
        (writeBacks t maxLoops s counts cs)
  | [], _, _, _, _, h => h
  | c :: cs, n, s, counts, hn, h => by
    rw [length_cons] at hn ⊢
    have hlength : n + (cs.length + 1) = n + 1 + cs.length := by omega
    rw [foldl_cons, writeBacks, hlength]
    exact calls_addsUpTo t maxLoops cs (by omega) (call_addsUpTo (by omega) h c)

/-! ### The printed times -/

/-- Nothing happened in the iteration. -/
def Idle (st : LoopStats) : Prop :=
  st.instructionCount = 0 ∧ st.hitCount = 0 ∧ st.missCount = 0

lemma iterationTime_eq_zero_iff (st : LoopStats) : iterationTime st = 0 ↔ Idle st := by
  have hcast : ∀ b : BitVec 64, (b.toNat : ℚ) = 0 ↔ b = 0 := by
    intro b
    rw [Nat.cast_eq_zero, BitVec.toNat_eq]
    rfl
  unfold iterationTime fixedOverheadNs nsPerInstruction cacheHitLatency cacheMissLatency
  rw [zero_add, add_eq_zero_iff_of_nonneg (by positivity) (by positivity),
    add_eq_zero_iff_of_nonneg (by positivity) (by positivity)]
  simp [Idle, and_assoc, hcast]

lemma getTotalTime_eq_sum (s : CacheModel) :
    s.getTotalTime = (s.loopStats.map iterationTime).sum := by
  rw [getTotalTime, sum_eq_foldl, foldl_map]

lemma dumpStats_executionTime (s : CacheModel) : s.dumpStats.map IterationReport.executionTime =
      List.replicate s.loopStats.length s.getTotalTime := by
  rw [dumpStats, map_map]
  show s.loopStats.zipIdx.map (fun _ => s.getTotalTime) = _
  rw [map_const', length_zipIdx]

lemma forall₂_zipIdx {α : Type} {P : α → Prop} (l : List α) (n : ℕ) :
    List.Forall₂ (fun a _ => P a) l (l.zipIdx n) ↔ ∀ a ∈ l, P a := by
  induction l generalizing n with
  | nil => simp
  | cons a l ih => rw [zipIdx_cons, List.forall₂_cons, ih, forall_mem_cons]

lemma own_iff (s : CacheModel) :
    List.Forall₂ (fun st report => report.executionTime = iterationTime st) s.loopStats
      s.dumpStats ↔ ∀ st ∈ s.loopStats, iterationTime st = s.getTotalTime := by
  rw [dumpStats, List.forall₂_map_right_iff]
  show List.Forall₂ (fun st _ => s.getTotalTime = iterationTime st) _ _ ↔ _
  rw [forall₂_zipIdx]
  simp only [eq_comm]

/-- The printed times are right for a single iteration, and if all times are zero. -/
theorem timesRight_iff (s : CacheModel) :
    s.TimesRight ↔ s.loopStats.length ≤ 1 ∨ ∀ st ∈ s.loopStats, Idle st := by
  have htotal := getTotalTime_eq_sum s
  constructor
  · rintro ⟨hown, -⟩
    rw [own_iff] at hown
    -- the total is the number of iterations times the total
    rw [map_congr_left hown, map_const', sum_replicate, nsmul_eq_mul] at htotal
    refine or_iff_not_imp_left.mpr fun hlen st hst => ?_
    have htwo : (2 : ℚ) ≤ s.loopStats.length := by exact_mod_cast not_le.mp hlen
    have hzero : s.getTotalTime = 0 := by
      have hprod : ((s.loopStats.length : ℚ) - 1) * s.getTotalTime = 0 := by linarith
      rcases mul_eq_zero.mp hprod with h | h
      · linarith
      · exact h
    rw [← iterationTime_eq_zero_iff, hown st hst, hzero]
  · intro h
    have hown : ∀ st ∈ s.loopStats, iterationTime st = s.getTotalTime := by
      rcases h with hlen | hidle
      · intro st hst
        have hsingle : s.loopStats = [st] := by
          rcases hl : s.loopStats with _ | ⟨a, _ | ⟨b, l⟩⟩ <;> simp_all
        rw [htotal, hsingle, map_singleton, sum_singleton]
      · have hzero : ∀ st ∈ s.loopStats, iterationTime st = 0 := fun st hst =>
          (iterationTime_eq_zero_iff st).mpr (hidle st hst)
        intro st hst
        rw [hzero st hst, htotal, map_congr_left hzero, map_const', sum_replicate, smul_zero]
    refine ⟨(own_iff s).mpr hown, ?_⟩
    rw [dumpStats_executionTime, ← map_const', ← map_congr_left hown, ← htotal]

/-- The counters of all iterations add up, and the printed times are right. -/
structure StatsRight (t : Tables) (maxLoops : ℕ) (cs : List Call) : Prop where
  addsUp : List.Forall₂ AddsUp (calls t maxLoops cs).loopStats (writeBacks t maxLoops {} [] cs)
  timesRight : (calls t maxLoops cs).TimesRight

/-- The statistics of a run are right if and only if there is at most one iteration or nothing
happened in any iteration. -/
theorem dumpStats_right_iff (t : Tables) (maxLoops : ℕ) (cs : List Call)
    (hcs : cs.length < 2 ^ 63) :
    StatsRight t maxLoops cs ↔ (calls t maxLoops cs).loopStats.length ≤ 1 ∨
      ∀ st ∈ (calls t maxLoops cs).loopStats, Idle st := by
  rw [← timesRight_iff]
  constructor
  · exact StatsRight.timesRight
  · intro htimes
    have hcounters := calls_addsUpTo t maxLoops cs (n := 0) (s := {}) (by omega) .nil
    exact ⟨hcounters.imp fun _ _ h => h.toAddsUp, htimes⟩

/-- One iteration: a store, a load that evicts its dirty entry from one of its two sets, and a load
that hits. -/
def dirtyEviction : List Call := [.loop, .exec, .store 4101, .load 0, .load 5]

theorem dumpStats_right_single : StatsRight overlapping 2 dirtyEviction ∧
    (calls overlapping 2 dirtyEviction).loopStats =
      [{ instructionCount := 1, readCount := 2, writeCount := 1, hitCount := 1, missCount := 3 }] :=
  ⟨(dumpStats_right_iff overlapping 2 dirtyEviction (by decide)).mpr
    (Or.inl (by decide +kernel)), by decide +kernel⟩

/-- Two iterations with an instruction each: both are said to take 0.1 ns. -/
theorem dumpStats_two_iterations :
    (calls .empty 2 [.loop, .exec, .loop, .exec]).dumpStats.map IterationReport.executionTime =
      [1 / 10, 1 / 10] ∧
    (calls .empty 2 [.loop, .exec, .loop, .exec]).loopStats.map iterationTime = [1 / 20, 1 / 20] ∧
    ¬ StatsRight .empty 2 [.loop, .exec, .loop, .exec] := by
  have hstats : (calls .empty 2 [.loop, .exec, .loop, .exec]).loopStats =
      [{ instructionCount := 1 }, { instructionCount := 1 }] := rfl
  have htimes : (calls .empty 2 [.loop, .exec, .loop, .exec]).loopStats.map iterationTime =
      [1 / 20, 1 / 20] := by
    rw [hstats]
    norm_num [iterationTime, fixedOverheadNs, nsPerInstruction]
    rfl
  have htotal : (calls .empty 2 [.loop, .exec, .loop, .exec]).getTotalTime = 1 / 10 := by
    rw [getTotalTime_eq_sum, htimes]
    norm_num
  refine ⟨?_, htimes, fun h => ?_⟩
  · rw [dumpStats_executionTime, htotal, hstats]
    rfl
  · have hsum := h.timesRight.sum_eq
    rw [dumpStats_executionTime, htotal, hstats] at hsum
    norm_num [List.replicate] at hsum

end CacheModel

end Castan
