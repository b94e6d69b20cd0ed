/-
# The recorded paths

Each cost in the tables of the constructor comes with a path, of which only the number of visits
of each instruction is kept.  We show what these numbers say: they stay within the functions that
can be called, their weighted sum is the cost, and an instruction occurs only a bounded number of
times on a path of its own function.
-/
import Castan.Search.CostMap

namespace Castan

open Relation (ReflTransGen TransGen)

open CostMapState CostTables CountMap LlvmModule

variable {m : LlvmModule} {w : InstructionCosts} {t t' : CostTables} {f : ℕ}
  {c i j q x y : Instruction} {cost : Bool × ℕ} {path : CountMap Instruction}

/-- The weight of an instruction on a path, for given costs of plain instructions. -/
def LlvmModule.pathWeight {R : Type} [One R] (m : LlvmModule) (v : Option Opcode → R)
    (j : Instruction) : R :=
  match m.handling j with
  | .plain => if m.successors j = [] then 1 else v (m.opcode? j)
  | _ => 1

lemma LlvmModule.pathWeight_of_base {R : Type} [One R] {v : Option Opcode → R} (h : m.Base j) :
    m.pathWeight v j = 1 := by
  rw [pathWeight]
  obtain h | ⟨-, h⟩ := h
  · rw [h]
  · split
    · exact if_pos h
    · rfl

lemma LlvmModule.pathWeight_of_direct {R : Type} [One R] {v : Option Opcode → R}
    (h : m.handling j = .direct f) : m.pathWeight v j = 1 := by
  rw [pathWeight, h]

lemma LlvmModule.pathWeight_of_plain {R : Type} [One R] {v : Option Opcode → R}
    (h : m.handling j = .plain) (hx : x ∈ m.successors j) :
    m.pathWeight v j = v (m.opcode? j) := by
  rw [pathWeight, h]
  exact if_neg (List.ne_nil_of_mem hx)

namespace CostMapState.Built

/-- A property of costs and counters holds of all tables if it holds before the loop and is kept
when a cost is recorded. -/
@[elab_as_elim]
lemma induct {P : CostTables → Prop} (h : Built m w t) (hinit : P (init m).tables)
    (hsame : ∀ t t', t.SameValues t' → P t → P t')
    (hwrite : ∀ t i cost path, Built m w t → Writes m w t i cost path → P t →
      P (t.record i cost path)) : P t := by
  induction h with
  | refl => exact hinit
  | tail hbuilt hact ih =>
    obtain ⟨i, hact⟩ := hact
    obtain hs | ⟨cost, path, hw, rfl⟩ := hact.cases
    · exact hsame _ _ hs ih
    · exact hwrite _ i cost path hbuilt hw ih

/-- The calls of `castan_loop` and the exits keep their costs. -/
lemma cost_of_base (h : Built m w t) (hy : m.Base y) : t.cost y = (init m).tables.cost y := by
  refine h.induct rfl ?_ ?_
  · intro t t' hs ih
    rw [hs.1, ih]
  · intro t i cost path _ hw ih
    rw [cost_record_of_ne (hw.ne_of_base hy), ih]

lemma cost_of_target (h : Built m w t) (hy : m.handling y = .target) : t.cost y = (true, 1) := by
  rw [h.cost_of_base (Or.inl hy), cost_init, if_pos hy]

/-! ### The instructions on a path -/

/-- A path stays in the functions that are called. -/
lemma keys_calls (h : Built m w t) :
    ∀ y, ∀ j ∈ (t.paths y).keys, ReflTransGen m.Calls y.fn j.fn := by
  induction h with
  | refl =>
    intro y j hj
    rw [keys_init] at hj
    split at hj
    · rw [Finset.mem_singleton.1 hj]
    · exact absurd hj (Finset.notMem_empty j)
  | tail _ hact ih =>
    obtain ⟨i, hact⟩ := hact
    cases hact with
    | touch x => exact ih
    | recordSuccessor hi v => exact ih
    | @touchPath x hi hx =>
      intro y j hj
      by_cases hy : y = x
      · subst hy
        simp only [touchPath, Function.update_self, keys_add, Finset.mem_insert] at hj
        obtain rfl | hj := hj
        · rw [fn_of_mem_successors hx]
        · exact ih y j hj
      · rw [paths_touchPath_of_ne hy] at hj
        exact ih y j hj
    | @record cost path hw =>
      intro y j hj
      by_cases hy : y = i
      · subst hy
        rw [paths_record_self] at hj
        cases hw with
        | @plain x hi hx _ _ =>
          obtain rfl | hj := Finset.mem_insert.1 hj
          · exact .refl
          · rw [← fn_of_mem_successors hx]
            exact ih x j hj
        | direct hi _ _ =>
          obtain rfl | hj := Finset.mem_insert.1 hj
          · exact .refl
          · exact (ih _ j hj).head (calls_of_direct hi)
        | @through f x hi hx _ _ _ _ =>
          simp only [keys_addAll, keys_add, keys_empty,
            Finset.mem_union, Finset.mem_insert, Finset.notMem_empty, or_false] at hj
          obtain (rfl | hj) | hj := hj
          · exact .refl
          · exact (ih _ j hj).head (calls_of_direct hi)
          · rw [← fn_of_mem_successors hx]
            exact ih x j hj
        | blocked _ _ _ _ _ => exact absurd hj (Finset.notMem_empty j)
      · rw [paths_record_of_ne hy] at hj
        exact ih y j hj

/-- The path of a callee does not come back to the function of the call. -/
lemma notMem_keys_entry (h : Built m w t) (hm : m.Acyclic) (hi : m.handling i = .direct f)
    (hj : j.fn = i.fn) : j ∉ (t.paths (.entry f)).keys := by
  intro hkey
  have hback := h.keys_calls _ j hkey
  rw [hj] at hback
  exact hm i.fn (TransGen.head' (calls_of_direct hi) hback)

lemma count_entry (h : Built m w t) (hm : m.Acyclic) (hi : m.handling i = .direct f)
    (hj : j.fn = i.fn) : (t.paths (.entry f)).count j = 0 :=
  (t.paths (.entry f)).count_eq_zero j (h.notMem_keys_entry hm hi hj)

/-- A path starts with its own instruction. -/
lemma count_self_pos (h : Built m w t) :
    ∀ y j, 0 < (t.paths y).count j → 0 < (t.paths y).count y := by
  refine h.induct ?_ ?_ ?_
  · intro y j hj
    rw [count_init] at hj ⊢
    split at hj
    · next hy => rw [if_pos ⟨hy.1, rfl⟩]; exact hj
    · exact absurd hj (Nat.lt_irrefl 0)
  · intro t t' hs ih y j hj
    rw [hs.2] at hj ⊢
    exact ih y j hj
  · intro t i cost path _ hw ih y j hj
    by_cases hy : y = i
    · subst hy
      rw [paths_record_self] at hj ⊢
      cases hw with
      | plain _ _ _ _ => rw [count_add_self]; omega
      | direct _ _ _ => rw [count_add_self]; omega
      | through _ _ _ _ _ _ =>
        rw [count_addAll, count_addAll, count_add_self]
        omega
      | blocked _ _ _ _ _ => exact absurd hj (Nat.lt_irrefl 0)
    · rw [paths_record_of_ne hy] at hj ⊢
      exact ih y j hj

/-- Only plain instructions create entries with the counter zero, so that a path that none of
them reads is empty or starts with its own instruction. -/
lemma keys_nonempty_iff (h : Built m w t) (hx : ∀ i, m.handling i = .plain → x ∉ m.successors i) :
    (t.paths x).keys.Nonempty ↔ 0 < (t.paths x).count x := by
  refine ⟨?_, fun hpos => ⟨x, mem_keys_of_count_pos hpos⟩⟩
  induction h with
  | refl =>
    rintro ⟨j, hj⟩
    rw [keys_init] at hj
    split at hj
    · next hbase => rw [count_init, if_pos ⟨hbase, rfl⟩]; exact Nat.one_pos
    · exact absurd hj (Finset.notMem_empty j)
  | tail _ hact ih =>
    obtain ⟨i, hact⟩ := hact
    cases hact with
    | touch _ => exact ih
    | recordSuccessor _ _ => exact ih
    | @touchPath x' hi hx' =>
      have hne : x ≠ x' := by
        rintro rfl
        exact hx i hi hx'
      rw [paths_touchPath_of_ne hne]
      exact ih
    | record hw =>
      by_cases hi : x = i
      · subst hi
        rw [paths_record_self]
        intro hne
        cases hw with
        | plain _ _ _ _ => rw [count_add_self]; omega
        | direct _ _ _ => rw [count_add_self]; omega
        | through _ _ _ _ _ _ =>
          rw [count_addAll, count_addAll, count_add_self]
          omega
        | blocked _ _ _ _ _ => exact absurd hne (by simp)
      · rw [paths_record_of_ne hi]
        exact ih

lemma keys_entry_nonempty_iff (h : Built m w t) :
    (t.paths (.entry f)).keys.Nonempty ↔ 0 < (t.paths (.entry f)).count (.entry f) :=
  h.keys_nonempty_iff fun _ _ => entry_not_mem_successors

lemma keys_successor_nonempty_iff (h : Built m w t) (hc : m.handling c = .direct f)
    (hx : x ∈ m.successors c) : (t.paths x).keys.Nonempty ↔ 0 < (t.paths x).count x :=
  h.keys_nonempty_iff fun _ hi => not_mem_successors_of_direct hc hx hi

/-! ### The weight of a path -/

/-- The cost of an instruction is the weight of its path. -/
lemma cost_eq_weight (h : Built m w t) :
    ∀ y, (t.cost y).2 = (t.paths y).weight (m.pathWeight w.of) := by
  refine h.induct ?_ ?_ ?_
  · intro y
    by_cases hbase : m.Base y
    · have hcount : ∀ j, ((init m).tables.paths y).count j = (empty.set y 1).count j := by
        intro j
        rw [count_init, count_set]
        simp [hbase]
      rw [cost_init, weight_congr _ hcount, weight_set_empty,
        pathWeight_of_base hbase]
      split_ifs
      · rfl
      · rfl
    · have hcount : ∀ j, ((init m).tables.paths y).count j = empty.count j := by
        intro j
        rw [count_init, if_neg (fun h => hbase h.1)]
        rfl
      have ht : m.handling y ≠ .target := fun ht => hbase (Or.inl ht)
      rw [cost_init, if_neg ht, if_neg hbase, weight_congr _ hcount,
        weight_empty]
  · intro t t' hs ih y
    rw [hs.1, weight_congr _ (hs.2 y)]
    exact ih y
  · intro t i cost path _ hw ih y
    by_cases hy : y = i
    · subst hy
      rw [cost_record_self, paths_record_self]
      cases hw with
      | @plain x hi hx _ _ =>
        rw [weight_add, ← ih x, pathWeight_of_plain hi hx, Nat.cast_one,
          one_mul]
      | direct hi _ _ =>
        rw [weight_add, ← ih, pathWeight_of_direct hi, Nat.cast_one, one_mul]
      | @through f x hi _ _ _ _ _ =>
        rw [weight_addAll, weight_addAll, weight_add, ← ih, ← ih,
          pathWeight_of_direct hi, weight_empty, Nat.cast_one, one_mul,
          Nat.zero_add]
      | blocked _ _ _ _ _ => rw [weight_empty]
    · rw [cost_record_of_ne hy, paths_record_of_ne hy]
      exact ih y

/-! ### How often an instruction occurs on a path -/

/-- The loop checks this for plain instructions. -/
lemma count_le_two (h : Built m w t) (hm : m.Acyclic) : ∀ y j, j.fn = y.fn →
    (∀ f, m.handling j ≠ .direct f) → (t.paths y).count j ≤ 2 := by
  refine h.induct ?_ ?_ ?_
  · intro y j _ _
    rw [count_init]
    split_ifs
    · exact Nat.le_succ 1
    · exact Nat.zero_le 2
  · intro t t' hs ih y j hfn hj
    rw [hs.2]
    exact ih y j hfn hj
  · intro t i cost path hbuilt hw ih y j hfn hj
    by_cases hy : y = i
    · subst hy
      rw [paths_record_self]
      cases hw with
      | @plain x hi hx hcount _ =>
        by_cases hji : j = y
        · rw [hji, count_add_self]
          omega
        · rw [count_add_of_ne _ _ _ _ hji]
          exact ih x j (hfn.trans (fn_of_mem_successors hx).symm) hj
      | direct hi _ _ =>
        have hji : j ≠ y := fun hji => hj _ (hji ▸ hi)
        rw [count_add_of_ne _ _ _ _ hji, hbuilt.count_entry hm hi hfn]
        exact Nat.zero_le 2
      | @through f x hi hx _ _ _ _ =>
        have hji : j ≠ y := fun hji => hj _ (hji ▸ hi)
        rw [count_addAll, count_addAll, count_add_of_ne _ _ _ _ hji,
          hbuilt.count_entry hm hi hfn]
        simpa using ih x j (hfn.trans (fn_of_mem_successors hx).symm) hj
      | blocked _ _ _ _ _ => exact Nat.zero_le 2
    · rw [paths_record_of_ne hy]
      exact ih y j hfn hj

/-- The loop does not check this for calls, but each visit of a call is followed by one of its
successor, unless the path ends in the callee. -/
lemma count_call_le (h : Built m w t) (hm : m.Acyclic) (hc : m.handling c = .direct f)
    (hq : q ∈ m.successors c) : ∀ y, c.fn = y.fn →
    (t.paths y).count c + (if q = y then 1 else 0) ≤ (t.paths y).count q + 1 := by
  have hcq : c ≠ q := by
    rintro rfl
    have := distance_of_direct hc hq
    omega
  have hcbase : ¬ m.Base c := by
    rintro (ht | ⟨-, ht⟩)
    · rw [hc] at ht
      exact Handling.noConfusion ht
    · rw [ht] at hq
      exact absurd hq List.not_mem_nil
  refine h.induct ?_ ?_ ?_
  · intro y _
    have hzero : ((init m).tables.paths y).count c = 0 := by
      rw [count_init, if_neg]
      rintro ⟨hbase, rfl⟩
      exact hcbase hbase
    rw [hzero]
    split_ifs <;> omega
  · intro t t' hs ih y hfn
    rw [hs.2, hs.2]
    exact ih y hfn
  · intro t i cost path hbuilt hw ih y hfn
    by_cases hy : y = i
    · subst hy
      rw [paths_record_self]
      cases hw with
      | @plain x hi hx _ _ =>
        have hcy : c ≠ y := by
          rintro rfl
          rw [hc] at hi
          exact Handling.noConfusion hi
        have hx := ih x (hfn.trans (fn_of_mem_successors hx).symm)
        rw [count_add_of_ne _ _ _ _ hcy, count_add]
        omega
      | direct hi _ _ =>
        rw [count_add, count_add, hbuilt.count_entry hm hi hfn]
        split_ifs <;> omega
      | @through f' x hi hx _ _ _ _ =>
        have hxc := ih x (hfn.trans (fn_of_mem_successors hx).symm)
        simp only [count_addAll, count_add, count_empty,
          hbuilt.count_entry hm hi hfn]
        by_cases hcy : c = y
        · -- the call itself: its successor is the one that the rule looks at
          have hqx : q = x := by
            rw [hcy, successors_of_direct hi, List.mem_singleton] at hq
            rw [successors_of_direct hi, List.mem_singleton] at hx
            rw [hq, hx]
          rw [if_pos hqx] at hxc
          rw [if_pos hcy, if_neg (fun hqy => hcq (hcy.trans hqy.symm))]
          omega
        · rw [if_neg hcy]
          split_ifs at hxc ⊢ <;> omega
      | blocked _ _ _ _ _ =>
        simp only [count_empty]
        split_ifs <;> omega
    · rw [paths_record_of_ne hy]
      exact ih y hfn

lemma count_le (h : Built m w t) (hm : m.Acyclic) (hj : j.fn = y.fn) :
    (t.paths y).count j ≤ 2 + m.distance j := by
  induction hd : m.distance j generalizing j with
  | zero =>
    refine h.count_le_two hm y j hj ?_
    intro f hf
    obtain ⟨q, hq⟩ := exists_successor_of_direct hf
    have := distance_of_direct hf hq
    omega
  | succ d ih =>
    by_cases hdirect : ∃ f, m.handling j = .direct f
    · obtain ⟨f, hf⟩ := hdirect
      obtain ⟨q, hq⟩ := exists_successor_of_direct hf
      have hdist := distance_of_direct hf hq
      have hle := ih ((fn_of_mem_successors hq).trans hj) (by omega)
      have hcall := h.count_call_le hm hf hq y hj
      omega
    · have := h.count_le_two hm y j hj (fun f hf => hdirect ⟨f, hf⟩)
      omega

end CostMapState.Built

end Castan
