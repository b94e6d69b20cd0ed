/-
# The cost map when the constructor ends

Which instructions get a path does not depend on the order of the worklist: a path ends at an
exit or at a call of `castan_loop`, and goes through a call only if the callee has a path to its
exit or reaches `castan_loop`.  With this we say when the costs are the declared ones, when the
continuation cost of a call is up to date, and which instructions have a cost at all.
-/
import Castan.Search.CostMapFlags

namespace Castan

open Relation (ReflTransGen)

open CostMapState CostTables CountMap LlvmModule

variable {m : LlvmModule} {w : InstructionCosts} {t t' : CostTables} {f : ℕ}
  {c i j q x y : Instruction} {s : CostMapState}

/-- The instructions with a path, when plain instructions cost nothing. -/
inductive LlvmModule.HasPath (m : LlvmModule) : Instruction → Prop
  | base {i : Instruction} (hi : m.Base i) : HasPath m i
  | plain {i x : Instruction} (hi : m.handling i = .plain) (hx : x ∈ m.successors i)
      (h : HasPath m x) : HasPath m i
  | ahead {i x : Instruction} (hi : m.handling i = .plain) (hx : x ∈ m.successors i)
      (h : m.Reaches x) : HasPath m i
  | direct {i : Instruction} {f : ℕ} (hi : m.handling i = .direct f)
      (h : m.Reaches (.entry f)) : HasPath m i
  | through {i x : Instruction} {f : ℕ} (hi : m.handling i = .direct f) (hx : x ∈ m.successors i)
      (he : HasPath m (.entry f)) (h : HasPath m x) : HasPath m i

namespace CostMapState.Built

/-! ### Costs and paths -/

/-- A cost above zero comes with a path. -/
lemma count_self_pos_of_cost (h : Built m w t) (hy : 0 < (t.cost y).2) :
    0 < (t.paths y).count y := by
  rw [h.cost_eq_weight y] at hy
  obtain ⟨j, hj⟩ := exists_count_pos_of_weight hy
  exact h.count_self_pos y j hj

/-- A flagged plain instruction has a path. -/
lemma count_self_pos_of_flag (h : Built m w t) : ∀ y, m.handling y = .plain →
    (t.cost y).1 = true → 0 < (t.paths y).count y := by
  refine h.induct ?_ ?_ ?_
  · intro y hy hflag
    rw [cost_init, if_neg (by rw [hy]; exact Handling.noConfusion)] at hflag
    split at hflag
    · exact Bool.noConfusion hflag
    · exact Bool.noConfusion hflag
  · intro t t' hs ih y hy hflag
    rw [hs.1] at hflag
    rw [hs.2]
    exact ih y hy hflag
  · intro t i cost path _ hw ih y hy hflag
    by_cases hyi : y = i
    · subst hyi
      rw [paths_record_self]
      cases hw with
      | plain _ _ _ _ => rw [count_add_self]; omega
      | direct hi _ _ => rw [hy] at hi; exact Handling.noConfusion hi
      | through hi _ _ _ _ _ => rw [hy] at hi; exact Handling.noConfusion hi
      | blocked hi _ _ _ _ => rw [hy] at hi; exact Handling.noConfusion hi
    · rw [cost_record_of_ne hyi] at hflag
      rw [paths_record_of_ne hyi]
      exact ih y hy hflag

/-- An instruction with a path has a cost. -/
lemma cost_ne_of_count_self (h : Built m w t) : ∀ y, 0 < (t.paths y).count y →
    t.cost y ≠ (false, 0) := by
  refine h.induct ?_ ?_ ?_
  · intro y hpos
    rw [count_init] at hpos
    split at hpos
    · next hy =>
      rw [cost_init]
      split_ifs
      · simp
      · simp
      · next hbase => exact absurd hy.1 hbase
    · exact absurd hpos (Nat.lt_irrefl 0)
  · intro t t' hs ih y hpos
    rw [hs.2] at hpos
    rw [hs.1]
    exact ih y hpos
  · intro t i cost path _ hw ih y hpos
    by_cases hyi : y = i
    · subst hyi
      rw [cost_record_self]
      rw [paths_record_self] at hpos
      cases hw with
      | @plain x _ _ _ himp =>
        -- without a flag the new cost is above the old one
        intro heq
        rw [Improves, heq, Prod.Lex.toLex_lt_toLex] at himp
        obtain hlt | ⟨-, hlt⟩ := himp
        · exact absurd hlt (by simp)
        · exact absurd hlt (Nat.not_lt_zero _)
      | direct _ _ _ => simp
      | through _ _ _ _ _ _ =>
        intro heq
        have := (Prod.mk.inj heq).2
        omega
      | blocked _ _ _ _ _ => exact absurd hpos (Nat.lt_irrefl 0)
    · rw [cost_record_of_ne hyi]
      rw [paths_record_of_ne hyi] at hpos
      exact ih y hpos

/-- The plain instructions on a path have paths themselves. -/
lemma count_self_pos_of_path (h : Built m w t) : ∀ y j, m.handling j = .plain →
    0 < (t.paths y).count j → 0 < (t.paths j).count j := by
  refine h.induct ?_ ?_ ?_
  · intro y j _ hpos
    rw [count_init] at hpos ⊢
    split at hpos
    · next hy =>
      rw [hy.2, if_pos ⟨hy.1, rfl⟩]
      exact Nat.one_pos
    · exact absurd hpos (Nat.lt_irrefl 0)
  · intro t t' hs ih y j hj hpos
    rw [hs.2] at hpos ⊢
    exact ih y j hj hpos
  · intro t i cost path _ hw ih y j hj hpos
    by_cases hji : j = i
    · -- the path that is recorded for a plain instruction contains it
      subst hji
      rw [paths_record_self]
      cases hw with
      | plain _ _ _ _ => rw [count_add_self]; omega
      | direct hi _ _ => rw [hj] at hi; exact Handling.noConfusion hi
      | through hi _ _ _ _ _ => rw [hj] at hi; exact Handling.noConfusion hi
      | blocked hi _ _ _ _ => rw [hj] at hi; exact Handling.noConfusion hi
    · rw [paths_record_of_ne hji]
      by_cases hyi : y = i
      · subst hyi
        rw [paths_record_self] at hpos
        cases hw with
        | @plain x _ _ _ _ =>
          rw [count_add_of_ne _ _ _ _ hji] at hpos
          exact ih x j hj hpos
        | direct _ _ _ =>
          rw [count_add_of_ne _ _ _ _ hji] at hpos
          exact ih _ j hj hpos
        | @through f x _ _ _ _ _ _ =>
          rw [count_addAll, count_addAll,
            count_add_of_ne _ _ _ _ hji, count_empty, Nat.zero_add] at hpos
          obtain hpos | hpos := Nat.add_pos_iff_pos_or_pos.1 hpos
          · exact ih _ j hj hpos
          · exact ih x j hj hpos
        | blocked _ _ _ _ _ => exact absurd hpos (Nat.lt_irrefl 0)
      · rw [paths_record_of_ne hyi] at hpos
        exact ih y j hj hpos

lemma count_self_pos_of_base (h : Built m w t) (hy : m.Base y) : 0 < (t.paths y).count y := by
  refine h.induct ?_ ?_ ?_
  · rw [count_init, if_pos ⟨hy, rfl⟩]
    exact Nat.one_pos
  · intro t t' hs ih
    rw [hs.2]
    exact ih
  · intro t i cost path _ hw ih
    rw [paths_record_of_ne (hw.ne_of_base hy)]
    exact ih

/-- Paths are not recorded without a reason. -/
lemma hasPath_of_count (h : Built m ⟨0, 0⟩ t) : ∀ y, 0 < (t.paths y).count y → m.HasPath y := by
  refine h.induct ?_ ?_ ?_
  · intro y hpos
    rw [count_init] at hpos
    split at hpos
    · next hy => exact .base hy.1
    · exact absurd hpos (Nat.lt_irrefl 0)
  · intro t t' hs ih y hpos
    rw [hs.2] at hpos
    exact ih y hpos
  · intro t i cost path hbuilt hw ih y hpos
    by_cases hyi : y = i
    · subst hyi
      rw [paths_record_self] at hpos
      cases hw with
      | @plain x hi hx _ himp =>
        by_cases hflag : (t.cost x).1 = true
        · exact .ahead hi hx (hbuilt.reaches_of_flag x hflag)
        · refine .plain hi hx (ih x (hbuilt.count_self_pos_of_cost ?_))
          rw [improves_iff] at himp
          have hzero : InstructionCosts.of ⟨0, 0⟩ (m.opcode? y) = 0 := by
            have := InstructionCosts.of_le (w := ⟨0, 0⟩) (m.opcode? y)
            simpa using this
          split_ifs at himp
          · exact absurd himp.1 hflag
          · have := himp.resolve_left hflag
            omega
      | direct hi he _ => exact .direct hi (hbuilt.reaches_of_flag _ he)
      | through hi hx _ hpe hpx _ =>
        refine .through hi hx (ih _ ?_) (ih _ ?_)
        · exact hbuilt.keys_entry_nonempty_iff.1 hpe
        · exact (hbuilt.keys_successor_nonempty_iff hi hx).1 hpx
      | blocked _ _ _ _ _ => exact absurd hpos (Nat.lt_irrefl 0)
    · rw [paths_record_of_ne hyi] at hpos
      exact ih y hpos

end CostMapState.Built

/-- At the end every instruction that can have a path has one. -/
lemma CostMapState.Ends.count_of_hasPath (h : Ends m w s) (hm : m.Acyclic) (hi : m.HasPath i) :
    0 < (s.tables.paths i).count i := by
  have hbuilt := h.1.built
  have hagrees : ∀ i, s.tables.Agrees m w i :=
    fun i => h.1.agrees hm i (by rw [h.2]; exact Finset.notMem_empty i)
  induction hi with
  | base hi => exact hbuilt.count_self_pos_of_base hi
  | @plain i x hi hx _ ih =>
    by_cases hxi : x = i
    · rw [← hxi]
      exact ih
    have hcost := hbuilt.cost_ne_of_count_self x ih
    obtain htwo | hno := (hagrees i).plain hi x hx hxi hcost
    · exact hbuilt.count_self_pos_of_path x i hi (by omega)
    · -- without a path the cost of `i` is zero, so that the one over `x` is higher
      by_contra hzero
      have hflag : (s.tables.cost i).1 = false :=
        Bool.eq_false_iff.2 fun hflag => hzero (hbuilt.count_self_pos_of_flag i hi hflag)
      have hnone : (s.tables.cost i).2 = 0 :=
        Nat.eq_zero_of_not_pos fun hpos => hzero (hbuilt.count_self_pos_of_cost hpos)
      refine hno (improves_iff.2 ?_)
      rw [hflag, hnone, if_neg Bool.false_ne_true]
      by_cases hx' : (s.tables.cost x).1 = true
      · exact Or.inl hx'
      · right
        have hne : (s.tables.cost x).2 ≠ 0 :=
          fun h0 => hcost (Prod.ext (Bool.eq_false_iff.2 hx') h0)
        omega
  | ahead hi hx hreaches =>
    exact hbuilt.count_self_pos_of_flag _ hi
      (h.flag_of_goes hm (Or.inl hx) (h.flag_of_reaches hm hreaches))
  | @direct i f hi hreaches =>
    obtain ⟨x, hx⟩ := exists_successor_of_direct hi
    refine hbuilt.count_self_pos_of_cost ?_
    rw [((hagrees i).direct f hi x hx).1, callCost, if_pos (h.flag_of_reaches hm hreaches)]
    exact Nat.succ_pos _
  | @through i x f hi hx _ _ ihe ihx =>
    refine hbuilt.count_self_pos_of_cost ?_
    rw [((hagrees i).direct f hi x hx).1, callCost]
    split_ifs with h₁ h₂
    · exact Nat.succ_pos _
    · show 0 < 1 + _ + _
      omega
    · exact absurd ⟨hbuilt.keys_entry_nonempty_iff.2 ihe,
        (hbuilt.keys_successor_nonempty_iff hi hx).2 ihx⟩ h₂

/-! ### Declared costs -/

def InstructionCosts.nsPerInstruction : ℚ := 1 / 20

/-- The time of an instruction and of an access to the first cache, of four cycles. -/
def InstructionCosts.nsPerMemoryInstruction : ℚ := nsPerInstruction + 4 * (23 / 100)

/-- The declared cost of a plain instruction. -/
def declaredCost : Option Opcode → ℚ
  | some .load => InstructionCosts.nsPerMemoryInstruction
  | some .store => InstructionCosts.nsPerMemoryInstruction
  | _ => InstructionCosts.nsPerInstruction

/-- The costs that the loop adds: the declared ones, converted to `long`. -/
def sourceCosts : InstructionCosts :=
  ⟨⌊InstructionCosts.nsPerMemoryInstruction⌋₊, ⌊InstructionCosts.nsPerInstruction⌋₊⟩

/-- Both are below one nanosecond. -/
lemma sourceCosts_eq : sourceCosts = ⟨0, 0⟩ := by
  have hmemory : ⌊InstructionCosts.nsPerMemoryInstruction⌋₊ = 0 := by
    rw [Nat.floor_eq_zero, InstructionCosts.nsPerMemoryInstruction,
      InstructionCosts.nsPerInstruction]
    norm_num
  have hinstruction : ⌊InstructionCosts.nsPerInstruction⌋₊ = 0 := by
    rw [Nat.floor_eq_zero, InstructionCosts.nsPerInstruction]
    norm_num
  rw [sourceCosts, hmemory, hinstruction]

lemma sourceCosts_of (o : Option Opcode) : sourceCosts.of o = 0 := by
  have := InstructionCosts.of_le (w := sourceCosts) o
  rw [sourceCosts_eq] at this ⊢
  exact Nat.le_zero.1 this

lemma declaredCost_pos (o : Option Opcode) : 0 < declaredCost o := by
  unfold declaredCost InstructionCosts.nsPerMemoryInstruction InstructionCosts.nsPerInstruction
  split <;> norm_num

/-- Plain instructions but exits weigh less on a path than declared, all others as much. -/
lemma pathWeight_le (m : LlvmModule) (j : Instruction) :
    ((m.pathWeight sourceCosts.of j : ℕ) : ℚ) ≤ m.pathWeight declaredCost j := by
  unfold pathWeight
  split
  · split_ifs
    · norm_num
    · rw [sourceCosts_of, Nat.cast_zero]
      exact (declaredCost_pos _).le
  · norm_num

lemma pathWeight_eq (h : m.handling j = .plain → m.successors j = []) :
    ((m.pathWeight sourceCosts.of j : ℕ) : ℚ) = m.pathWeight declaredCost j := by
  unfold pathWeight
  split
  · next hj => rw [if_pos (h hj), if_pos (h hj), Nat.cast_one]
  · exact Nat.cast_one

lemma pathWeight_lt (hj : m.handling j = .plain) (hne : m.successors j ≠ []) :
    ((m.pathWeight sourceCosts.of j : ℕ) : ℚ) < m.pathWeight declaredCost j := by
  obtain ⟨x, hx⟩ := List.exists_mem_of_ne_nil _ hne
  rw [pathWeight_of_plain hj hx, pathWeight_of_plain hj hx, sourceCosts_of,
    Nat.cast_zero]
  exact declaredCost_pos _

lemma weight_cast (p : CountMap Instruction) : ((p.weight (m.pathWeight sourceCosts.of) : ℕ) : ℚ) =
      ∑ k ∈ p.keys, (p.count k : ℚ) * ((m.pathWeight sourceCosts.of k : ℕ) : ℚ) := by
  rw [weight, Nat.cast_sum]
  refine Finset.sum_congr rfl fun k _ => ?_
  rw [Nat.cast_mul, Nat.cast_id]

/-! ### Counters -/

/-- A number for each instruction that bounds how often its path visits `k`, if no plain
instruction but an exit is on a path. -/
structure LlvmModule.BoundsVisits (m : LlvmModule) (k : Instruction) (b : Instruction → ℕ) :
    Prop where
  base : m.Base k → 1 ≤ b k
  direct : ∀ i f, m.handling i = .direct f → m.Reaches (.entry f) →
    (if k = i then 1 else 0) + b (.entry f) ≤ b i
  through : ∀ i f, m.handling i = .direct f → ¬ m.Reaches (.entry f) → ∀ x ∈ m.successors i,
    (if k = i then 1 else 0) + b (.entry f) + b x ≤ b i

/-- The counters of all paths fit into an `int`. -/
def LlvmModule.CountersFit (m : LlvmModule) : Prop :=
  ∀ k, ∃ b, m.BoundsVisits k b ∧ ∀ i, b i < 2 ^ 31

/-- No plain instruction other than an exit has a path. -/
def LlvmModule.OnlyCalls (m : LlvmModule) : Prop :=
  ∀ i, m.handling i = .plain → m.successors i ≠ [] → ¬ m.HasPath i

namespace CostMapState.Built

/-- Such an instruction is not written. -/
lemma not_plain (h : Built m ⟨0, 0⟩ t) (hnone : m.OnlyCalls) {cost : Bool × ℕ}
    {path : CountMap Instruction} (hw : Writes m ⟨0, 0⟩ t i cost path) : m.handling i ≠ .plain := by
  intro hi
  cases hw with
  | @plain x _ hx hcount himp =>
    have hbuilt : Built m ⟨0, 0⟩ _ := h.tail ⟨i, .record (.plain hi hx hcount himp)⟩
    refine hnone i hi (List.ne_nil_of_mem hx) (hbuilt.hasPath_of_count i ?_)
    rw [paths_record_self, count_add_self]
    exact Nat.succ_pos _
  | direct hi' _ _ => rw [hi] at hi'; exact Handling.noConfusion hi'
  | through hi' _ _ _ _ _ => rw [hi] at hi'; exact Handling.noConfusion hi'
  | blocked hi' _ _ _ _ => rw [hi] at hi'; exact Handling.noConfusion hi'

/-- An instruction does not get a path before its flag. -/
lemma flag_of_count (h : Built m ⟨0, 0⟩ t) (hnone : m.OnlyCalls) :
    ∀ y, 0 < (t.paths y).count y → m.Reaches y → (t.cost y).1 = true := by
  refine h.induct ?_ ?_ ?_
  · intro y hpos hreach
    rw [count_init] at hpos
    split at hpos
    · next hy =>
      obtain ht | ⟨-, he⟩ := hy.1
      · rw [cost_init, if_pos ht]
      · -- nothing follows an exit
        obtain ⟨c, hc, hyc⟩ := hreach
        obtain rfl | ⟨j, hj | ⟨f, hf, -⟩, -⟩ := hyc.cases_head
        · rw [cost_init, if_pos (handling_eq_target.2 hc)]
        · rw [he] at hj
          cases hj
        · rw [successors_of_call hf] at he
          cases he
    · exact absurd hpos (Nat.lt_irrefl 0)
  · intro t t' hs ih y
    rw [hs.1, hs.2]
    exact ih y
  · intro t i cost path hbuilt hw ih y
    by_cases hy : y = i
    · subst hy
      rw [cost_record_self, paths_record_self]
      intro hpos hreach
      cases hw with
      | plain hi hx hcount himp =>
        exact absurd hi (hbuilt.not_plain hnone (.plain hi hx hcount himp))
      | direct _ _ _ => rfl
      | through hi hx he hpe hpx _ =>
        obtain hreach | hreach := hreach.of_direct hi hx
        · rw [ih _ (hbuilt.keys_entry_nonempty_iff.1 hpe) hreach] at he
          exact Bool.noConfusion he
        · exact ih _ ((hbuilt.keys_successor_nonempty_iff hi hx).1 hpx) hreach
      | blocked _ _ _ _ _ => exact absurd hpos (Nat.lt_irrefl 0)
    · rw [cost_record_of_ne hy, paths_record_of_ne hy]
      exact ih y

/-- The counters stay below their bounds. -/
lemma count_le_bound (h : Built m ⟨0, 0⟩ t) (hnone : m.OnlyCalls) {k : Instruction}
    {b : Instruction → ℕ} (hb : m.BoundsVisits k b) : ∀ y, (t.paths y).count k ≤ b y := by
  refine h.induct ?_ ?_ ?_
  · intro y
    rw [count_init]
    split_ifs with hy
    · rw [hy.2] at hb
      exact hb.base hy.1
    · exact Nat.zero_le _
  · intro t t' hs ih y
    rw [hs.2]
    exact ih y
  · intro t i cost path hbuilt hw ih y
    by_cases hy : y = i
    · subst hy
      rw [paths_record_self]
      cases hw with
      | plain hi hx hcount himp =>
        exact absurd hi (hbuilt.not_plain hnone (.plain hi hx hcount himp))
      | @direct f hi he _ =>
        have hle := hb.direct y f hi (hbuilt.reaches_of_flag _ he)
        have hentry := ih (.entry f)
        rw [count_add]
        omega
      | @through f x hi hx he hpe hpx _ =>
        have hreach : ¬ m.Reaches (.entry f) := fun hreach => by
          rw [hbuilt.flag_of_count hnone _ (hbuilt.keys_entry_nonempty_iff.1 hpe) hreach] at he
          exact Bool.noConfusion he
        have hle := hb.through y f hi hreach x hx
        have hentry := ih (.entry f)
        have hnext := ih x
        rw [count_addAll, count_addAll, count_add, count_empty]
        omega
      | blocked _ _ _ _ _ => exact Nat.zero_le _
    · rw [paths_record_of_ne hy]
      exact ih y

end CostMapState.Built

lemma direct_callThenLoop (h : callThenLoop.handling i = .direct f) : i = ⟨2, 0, 0⟩ ∧ f = 1 := by
  obtain ⟨hi, hf, -⟩ := handling_eq_direct.1 h
  have hall : ∀ i ∈ callThenLoop.insts, ∀ g ∈ (callThenLoop.opcode? i).bind Opcode.callee?,
      g = 0 ∨ i = ⟨2, 0, 0⟩ ∧ g = 1 := by decide
  exact (hall i (mem_insts_of_opcode? hi) f (by rw [hi]; rfl)).resolve_left hf

lemma countersFit_callThenLoop : callThenLoop.CountersFit := by
  intro k
  have hone : ∀ i : Instruction, (if k = i then 1 else 0) ≤ 1 := fun i => by split_ifs <;> decide
  refine ⟨fun i => if i = ⟨2, 0, 0⟩ then 3 else 1, ⟨fun _ => ?_, ?_, ?_⟩, fun i => ?_⟩
  · split_ifs <;> decide
  · intro i f hi _
    obtain ⟨rfl, rfl⟩ := direct_callThenLoop hi
    exact Nat.add_le_add (hone _) (by decide : 1 ≤ 2)
  · intro i f hi _ x hx
    obtain ⟨rfl, rfl⟩ := direct_callThenLoop hi
    obtain rfl : x = ⟨2, 0, 1⟩ := List.mem_singleton.1 hx
    exact Nat.add_le_add (Nat.add_le_add (hone _) le_rfl) le_rfl
  · dsimp only
    split_ifs <;> decide

/-- A load before a call of `castan_loop`. -/
def loadThenCall : LlvmModule where
  functions := [[], [⟨[.load, .call (some 0)], []⟩]]
  castanLoop := ⟨0, by decide⟩
  targets_valid := by decide

/-- The continuation cost of a call is up to date if the callee has a path to its exit and does
not reach `castan_loop`. -/
theorem successorCosts_eq (hm : m.Acyclic) (h : Ends m w s)
    (hc : m.opcode? c = some (.call (some f))) (hf : m.Defined f) (hx : x ∈ m.successors c)
    (hcost : (s.tables.cost x).2 ≠ 0) (hne : f ≠ m.castanLoop)
    (hreach : ¬ m.Reaches (.entry f)) (hpath : m.HasPath (.entry f)) :
    s.tables.successorCosts c = some (s.tables.cost x).2 := by
  have hdirect := handling_eq_direct.2 ⟨hc, hne, hf⟩
  have hagrees := h.1.agrees hm c (by rw [h.2]; exact Finset.notMem_empty c)
  refine (hagrees.direct f hdirect x hx).2 ?_ (h.count_of_hasPath hm hpath) ?_
  · exact Bool.eq_false_iff.2 fun hflag => hreach (h.1.built.reaches_of_flag _ hflag)
  · exact h.1.built.count_self_pos_of_cost (Nat.pos_of_ne_zero hcost)

theorem successorCosts_eq_callThenLoop : ∃ s, Ends callThenLoop sourceCosts s ∧
    s.tables.successorCosts ⟨2, 0, 0⟩ = some (s.tables.cost ⟨2, 0, 1⟩).2 := by
  obtain ⟨s, hends, -, hentry, hcost⟩ := ends_callThenLoop
  have hm := acyclic_callThenLoop
  refine ⟨s, hends, successorCosts_eq hm hends (f := 1) (by decide) (by decide) (by decide)
    (by rw [hcost]; exact Nat.one_ne_zero) (by decide) ?_ (.base (Or.inr ⟨by decide, by decide⟩))⟩
  intro hreach
  have hflag := hends.flag_of_reaches hm hreach
  rw [hentry] at hflag
  exact Bool.noConfusion hflag

/-- A call of a function that calls `castan_loop`. -/
def callOfLoop : LlvmModule where
  functions := [[], [⟨[.call (some 0)], []⟩], [⟨[.call (some 1)], []⟩]]
  castanLoop := ⟨0, by decide⟩
  targets_valid := by decide

/-- The cost after the call is not recorded. -/
theorem successorCosts_missing : ∃ s, Ends callOfLoop sourceCosts s ∧ callOfLoop.Acyclic ∧
    callOfLoop.opcode? ⟨2, 0, 0⟩ = some (.call (some 1)) ∧ callOfLoop.Defined 1 ∧
    ⟨2, 0, 1⟩ ∈ callOfLoop.successors ⟨2, 0, 0⟩ ∧ (s.tables.cost ⟨2, 0, 1⟩).2 = 1 ∧
    s.tables.successorCosts ⟨2, 0, 0⟩ = none := by
  rw [sourceCosts_eq]
  obtain ⟨s, hs, hempty, hcost, hnone⟩ : ∃ s,
      drain callOfLoop ⟨0, 0⟩ [⟨1, 0, 0⟩, ⟨2, 0, 0⟩] = some s ∧ s.worklist = ∅ ∧
      (s.tables.cost ⟨2, 0, 1⟩).2 = 1 ∧ s.tables.successorCosts ⟨2, 0, 0⟩ = none :=
    ⟨_, rfl, by decide, rfl, rfl⟩
  exact ⟨s, ⟨reachable_of_drain hs, hempty⟩, acyclic_of_lt (by decide), by decide,
    by decide, by decide, hcost, hnone⟩

end Castan
