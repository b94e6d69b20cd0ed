/-
# The cost map is built in finitely many rounds

The loop of the constructor looks for expensive paths in a graph with cycles.  Costs are bounded
since paths are, and the cost of a plain instruction only rises.  The cost of a call may fall, but
it only changes after the cost of its callee or of its successor did.  So along the call graph, and
within a block from its end, the cost of each instruction is eventually constant.
-/
import Castan.Lib.WorklistRun
import Castan.Search.CostMapPaths

namespace Castan

open Relation (ReflTransGen TransGen)

open Filter (EventuallyConst atTop)

open CostMapState CostTables LlvmModule

variable {m : LlvmModule} {w : InstructionCosts} {t t' : CostTables} {f g : ℕ}
  {c i j q x y : Instruction}

namespace LlvmModule

lemma lt_of_calls (h : m.Calls f g) : f < m.functions.length := by
  obtain ⟨i, rfl, hi⟩ := h
  obtain ⟨bb, hbb, -⟩ := opcode?_eq_some.1 hi
  obtain ⟨bbs, hf, -⟩ := block?_eq_some.1 hbb
  exact (List.getElem?_eq_some_iff.1 hf).1

/-- Callees come before their callers. -/
lemma Acyclic.wellFounded (hm : m.Acyclic) : WellFounded fun g f => m.Calls f g := by
  let r : Fin m.functions.length → Fin m.functions.length → Prop :=
    fun a b => TransGen m.Calls b a
  have : IsTrans _ r := ⟨fun a b c hab hbc => TransGen.trans hbc hab⟩
  have : Std.Irrefl r := ⟨fun a ha => hm a ha⟩
  have hr : WellFounded r := Finite.wellFounded_of_trans_of_irrefl r
  have hacc : ∀ a : Fin m.functions.length, Acc (fun g f => m.Calls f g) a := by
    intro a
    induction a using hr.induction with
    | _ a ih =>
      refine ⟨_, fun g hg => ?_⟩
      by_cases hlt : g < m.functions.length
      · exact ih ⟨g, hlt⟩ (.single hg)
      · exact ⟨_, fun g' hg' => absurd (lt_of_calls hg') hlt⟩
  refine ⟨fun f => ?_⟩
  by_cases hlt : f < m.functions.length
  · exact hacc ⟨f, hlt⟩
  · exact ⟨_, fun g hg => absurd (lt_of_calls hg) hlt⟩

/-- A function calls only finitely many functions. -/
lemma exists_bound_of_calls {P : ℕ → ℕ → Prop} (hmono : ∀ f K K', K ≤ K' → P f K → P f K')
    (h : ∀ f, m.Calls g f → ∃ K, P f K) : ∃ K, ∀ f, m.Calls g f → P f K := by
  classical
  have hchoice : ∀ f, ∃ K, m.Calls g f → P f K := by
    intro f
    by_cases hf : m.Calls g f
    · obtain ⟨K, hK⟩ := h f hf
      exact ⟨K, fun _ => hK⟩
    · exact ⟨0, fun hf' => absurd hf' hf⟩
  choose K hK using hchoice
  let callees : Finset ℕ := (m.insts.filterMap fun i => (m.opcode? i).bind Opcode.callee?).toFinset
  refine ⟨callees.sup K, fun f hf => hmono f (K f) _ (Finset.le_sup ?_) (hK f hf)⟩
  obtain ⟨i, -, hi⟩ := hf
  rw [List.mem_toFinset, List.mem_filterMap]
  exact ⟨i, mem_insts_of_opcode? hi, by rw [hi]; rfl⟩

/-- How many instructions of a function are on a path. -/
def visits (m : LlvmModule) (g : ℕ) (p : CountMap Instruction) : ℕ :=
  ∑ j ∈ m.insts.toFinset with j.fn = g, p.count j

lemma visits_addAll (p p' : CountMap Instruction) :
    m.visits g (p.addAll p') = m.visits g p + m.visits g p' :=
  Finset.sum_add_distrib

lemma visits_add (p : CountMap Instruction) (hi : i ∈ m.insts) (hg : i.fn = g) :
    m.visits g (p.add i 1) = m.visits g p + 1 := by
  have hmem : i ∈ m.insts.toFinset.filter (·.fn = g) :=
    Finset.mem_filter.2 ⟨List.mem_toFinset.2 hi, hg⟩
  simp only [visits, CountMap.count_add, Finset.sum_add_distrib]
  rw [Finset.sum_ite_eq_of_mem' _ i _ hmem]

lemma count_le_visits (p : CountMap Instruction) (hi : i ∈ m.insts) (hg : i.fn = g) :
    p.count i ≤ m.visits g p := by
  have hmem : i ∈ m.insts.toFinset.filter (·.fn = g) :=
    Finset.mem_filter.2 ⟨List.mem_toFinset.2 hi, hg⟩
  exact Finset.single_le_sum (fun j _ => Nat.zero_le (p.count j)) hmem

lemma Base.mem_insts (h : m.Base i) : i ∈ m.insts := by
  obtain h | h := h
  · exact mem_insts_of_opcode? (handling_eq_target.1 h)
  · exact h.1

end LlvmModule

/-! ### Costs are bounded -/

namespace CostMapState

/-- The cost of an instruction is at most proportional to the visits of its own function, if the
costs of the functions called from there are bounded. -/
lemma Built.cost_le_visits {K : ℕ}
    (hK : ∀ f, m.Calls g f → ∀ t, Built m w t → (t.cost (.entry f)).2 ≤ K) (h : Built m w t) :
    ∀ y, y.fn = g →
      (t.cost y).2 ≤ (w.memory + w.instruction + 1 + K) * m.visits g (t.paths y) := by
  set C := w.memory + w.instruction + 1 + K with hC
  refine h.induct ?_ ?_ ?_
  · intro y hg
    by_cases hbase : m.Base y
    · have hone : 1 ≤ m.visits g ((init m).tables.paths y) := by
        refine le_trans ?_ (count_le_visits _ hbase.mem_insts hg)
        rw [count_init, if_pos ⟨hbase, rfl⟩]
      have hcost : ((init m).tables.cost y).2 ≤ 1 := by
        rw [cost_init]
        split_ifs <;> simp
      calc ((init m).tables.cost y).2 ≤ 1 := hcost
        _ ≤ C * 1 := by omega
        _ ≤ C * m.visits g ((init m).tables.paths y) := Nat.mul_le_mul_left C hone
    · rw [cost_init, if_neg (fun ht => hbase (Or.inl ht)), if_neg hbase]
      exact Nat.zero_le _
  · intro t t' hs ih y hg
    have hvisits : m.visits g (t'.paths y) = m.visits g (t.paths y) :=
      Finset.sum_congr rfl fun j _ => hs.2 y j
    rw [hs.1, hvisits]
    exact ih y hg
  · intro t i cost path hbuilt hw ih y hg
    by_cases hy : y = i
    · subst hy
      have hmem := hw.mem_insts
      rw [cost_record_self, paths_record_self]
      cases hw with
      | @plain x hi hx _ _ =>
        have hxg := ih x ((fn_of_mem_successors hx).trans hg)
        have hle := InstructionCosts.of_le (w := w) (m.opcode? y)
        rw [visits_add _ hmem hg, Nat.mul_add, Nat.mul_one]
        show (t.cost x).2 + w.of (m.opcode? y) ≤ _
        omega
      | direct hi _ _ =>
        have he := hK _ (hg ▸ calls_of_direct hi) t hbuilt
        rw [visits_add _ hmem hg, Nat.mul_add, Nat.mul_one]
        show (t.cost _).2 + 1 ≤ _
        omega
      | @through f x hi hx _ _ _ _ =>
        have he := hK _ (hg ▸ calls_of_direct hi) t hbuilt
        have hxg := ih x ((fn_of_mem_successors hx).trans hg)
        rw [visits_addAll, visits_addAll, visits_add _ hmem hg,
          Nat.mul_add, Nat.mul_add, Nat.mul_add, Nat.mul_one]
        show 1 + (t.cost _).2 + (t.cost x).2 ≤ _
        omega
      | blocked _ _ _ _ _ => exact Nat.zero_le _
    · rw [cost_record_of_ne hy, paths_record_of_ne hy]
      exact ih y hg

/-- The costs of a function are bounded, whatever the loop does. -/
lemma exists_cost_le (hm : m.Acyclic) (w : InstructionCosts) (g : ℕ) :
    ∃ B, ∀ t, Built m w t → ∀ y, y.fn = g → (t.cost y).2 ≤ B := by
  induction g using hm.wellFounded.induction with
  | _ g ih =>
    have hcallees : ∃ K, ∀ f, m.Calls g f → ∀ t, Built m w t → (t.cost (.entry f)).2 ≤ K := by
      refine exists_bound_of_calls
        (fun f K K' hle hK t ht => (hK t ht).trans hle) fun f hf => ?_
      obtain ⟨B, hB⟩ := ih f hf
      exact ⟨B, fun t ht => hB t ht (.entry f) rfl⟩
    obtain ⟨K, hK⟩ := hcallees
    refine ⟨(w.memory + w.instruction + 1 + K) *
      ∑ j ∈ m.insts.toFinset with j.fn = g, (2 + m.distance j), fun t ht y hy => ?_⟩
    refine (ht.cost_le_visits hK y hy).trans (Nat.mul_le_mul_left _ (Finset.sum_le_sum ?_))
    intro j hj
    exact ht.count_le hm ((Finset.mem_filter.1 hj).2.trans hy.symm)

/-! ### One round -/

lemma lex_le_of_acts (h : Acts m w i t t') (hy : m.handling y = .plain) :
    toLex (t.cost y) ≤ toLex (t'.cost y) := by
  obtain hs | ⟨cost, path, hw, rfl⟩ := h.cases
  · rw [hs.1]
  · by_cases hyi : y = i
    · subst hyi
      rw [cost_record_self]
      cases hw with
      | plain _ _ _ himp => exact himp.le
      | direct hi _ _ => rw [hy] at hi; exact Handling.noConfusion hi
      | through hi _ _ _ _ _ => rw [hy] at hi; exact Handling.noConfusion hi
      | blocked hi _ _ _ _ => rw [hy] at hi; exact Handling.noConfusion hi
    · rw [cost_record_of_ne hyi]

lemma lex_le_of_chain (h : ReflTransGen (Acts m w i) t t') (hy : m.handling y = .plain) :
    toLex (t.cost y) ≤ toLex (t'.cost y) := by
  induction h with
  | refl => exact le_rfl
  | tail _ hact ih => exact ih.trans (lex_le_of_acts hact hy)

variable {s s' : CostMapState}

/-- The cost of a plain instruction only rises. -/
lemma Step.lex_le (h : Step m w s s') (hy : m.handling y = .plain) :
    toLex (s.tables.cost y) ≤ toLex (s'.tables.cost y) := by
  obtain ⟨i, order, changed, -, horder, hvisit, -⟩ := h.inv
  exact lex_le_of_chain (visit_spec horder hvisit).1 hy

/-- The cost of a call changes only to the one that its callee and its successor give. -/
lemma Step.cost_call (h : Step m w s s') (hc : m.handling c = .direct f)
    (hx : x ∈ m.successors c) :
    s'.tables.cost c = s.tables.cost c ∨ s'.tables.cost c = s.tables.callCost f x := by
  obtain ⟨i, order, changed, -, horder, hvisit, -⟩ := h.inv
  by_cases hci : c = i
  · subst hci
    simp only [CostTables.visit, hc] at hvisit
    exact Or.inr (visitCall_spec (w := w) hc hx hvisit).2.1
  · exact Or.inl (frame_of_acts (visit_spec horder hvisit).1 hci).1

/-- A path is only taken back together with a change of the cost. -/
lemma Step.count_self_pos (h : Step m w s s') (hy : s'.tables.cost y = s.tables.cost y)
    (hpos : 0 < (s.tables.paths y).count y) : 0 < (s'.tables.paths y).count y := by
  obtain ⟨i, order, changed, -, horder, hvisit, -⟩ := h.inv
  obtain ⟨hchain, hchanged⟩ := visit_spec horder hvisit
  by_cases hyi : y = i
  · subst hyi
    obtain ⟨-, hsame⟩ | ⟨-, hne⟩ := hchanged
    · rw [hsame.2]
      exact hpos
    · exact absurd hy hne
  · rw [(frame_of_acts hchain hyi).2]
    exact hpos

lemma mem_insts_of_cost_ne (h : ReflTransGen (Acts m w i) t t') (hne : t'.cost i ≠ t.cost i) :
    i ∈ m.insts := by
  by_contra hi
  refine hne ?_
  induction h with
  | refl => rfl
  | tail _ hact ih =>
    obtain hs | ⟨cost, path, hw, rfl⟩ := hact.cases
    · rw [hs.1]
      exact ih fun h => hne (by rw [hs.1, h])
    · exact absurd hw.mem_insts hi

/-- A round changes a cost, or it makes the worklist smaller. -/
lemma Step.cost_ne_or_card_lt (h : Step m w s s') :
    (∃ i ∈ m.insts.toFinset, s'.tables.cost i ≠ s.tables.cost i) ∨
      s'.worklist.card < s.worklist.card := by
  obtain ⟨i, order, changed, hi, horder, hvisit, hworklist⟩ := h.inv
  obtain ⟨hchain, ⟨rfl, -⟩ | ⟨-, hne⟩⟩ := visit_spec horder hvisit
  · right
    have heq : s'.worklist = s.worklist.erase i := by simpa using hworklist
    rw [heq]
    exact Finset.card_erase_lt_of_mem hi
  · exact Or.inl ⟨i, List.mem_toFinset.2 (mem_insts_of_cost_ne hchain hne), hne⟩

/-! ### Runs without end -/

section Run

variable {run : ℕ → CostMapState} (hinit : run 0 = init m)
  (hstep : ∀ n, Step m w (run n) (run (n + 1)))

include hinit hstep

lemma reachable_run (n : ℕ) : Reachable m w (run n) := by
  induction n with
  | zero => rw [hinit]; exact .refl
  | succ n ih => exact ih.tail (hstep n)

/-- The pairs of a flag and a bounded cost in lexicographic order, as numbers. -/
lemma eventuallyConst_of_plain (hm : m.Acyclic) (hy : m.handling y = .plain) :
    EventuallyConst (fun n => (run n).tables.cost y) atTop := by
  obtain ⟨B, hB⟩ := exists_cost_le hm w y.fn
  have hle : ∀ n, ((run n).tables.cost y).2 ≤ B :=
    fun n => hB _ (reachable_run hinit hstep n).built y rfl
  let number : Bool × ℕ → ℕ := fun c => (if c.1 then B + 1 else 0) + c.2
  have hnumber : ∀ a b : Bool × ℕ, a.2 ≤ B → toLex a ≤ toLex b → number a ≤ number b := by
    intro a b ha hab
    obtain hlt | ⟨heq, hle⟩ := Prod.Lex.toLex_le_toLex.1 hab
    · obtain ⟨ha', hb'⟩ := Bool.lt_iff.1 hlt
      simp only [number, ha', hb', if_true, Bool.false_eq_true, if_false]
      omega
    · simp only [number, heq]
      omega
  have hinj : ∀ a b : Bool × ℕ, a.2 ≤ B → b.2 ≤ B → number a = number b → a = b := by
    rintro ⟨a₁, a₂⟩ ⟨b₁, b₂⟩ ha hb hab
    cases a₁ <;> cases b₁ <;> simp [number] at ha hb hab ⊢ <;> omega
  have hmono : Monotone fun n => number ((run n).tables.cost y) :=
    monotone_nat_of_le_succ fun n => hnumber _ _ (hle n) ((hstep n).lex_le hy)
  have hbound : ∀ n, number ((run n).tables.cost y) ≤ 2 * B + 1 := by
    intro n
    have := hle n
    simp only [number]
    split_ifs <;> omega
  obtain ⟨N, hN⟩ :=
    Filter.eventuallyConst_atTop.1 (WorklistRun.eventuallyConst_of_monotone hmono hbound)
  exact Filter.eventuallyConst_atTop.2 ⟨N, fun n hn => hinj _ _ (hle n) (hle N) (hN n hn)⟩

open Classical in
/-- The cost of a call is eventually constant if the costs that it is computed from are. -/
lemma eventuallyConst_of_call (hc : m.handling c = .direct f) (hx : x ∈ m.successors c)
    (he : EventuallyConst (fun n => (run n).tables.cost (.entry f)) atTop)
    (hcx : EventuallyConst (fun n => (run n).tables.cost x) atTop) :
    EventuallyConst (fun n => (run n).tables.cost c) atTop := by
  -- whether there is a path changes only together with the cost
  have hpath : ∀ y, EventuallyConst (fun n => (run n).tables.cost y) atTop →
      EventuallyConst (fun n => 0 < ((run n).tables.paths y).count y) atTop := by
    intro y hy
    refine WorklistRun.eventuallyConst_of_kept ?_
    filter_upwards [WorklistRun.eventually_succ_eq hy] with n hn
    exact (hstep n).count_self_pos hn
  have hconst : EventuallyConst (fun n => (run n).tables.callCost f x) atTop := by
    have hinputs := (he.prodMk (hpath _ he)).prodMk (hcx.prodMk (hpath _ hcx))
    refine (hinputs.comp fun v =>
      if v.1.1.1 then (true, v.1.1.2 + 1)
      else if v.1.2 ∧ v.2.2 then (v.2.1.1, 1 + v.1.1.2 + v.2.1.2) else (v.2.1.1, 0)).congr ?_
    refine .of_forall fun n => ?_
    have hbuilt := (reachable_run hinit hstep n).built
    simp only [Function.comp_apply, callCost, hbuilt.keys_entry_nonempty_iff,
      hbuilt.keys_successor_nonempty_iff hc hx]
  obtain ⟨N, hN⟩ := Filter.eventuallyConst_atTop.1 hconst
  refine WorklistRun.eventuallyConst_of_eq (v := (run N).tables.callCost f x) ?_
  filter_upwards [Filter.eventually_ge_atTop N] with n hn
  rw [← hN n hn]
  exact (hstep n).cost_call hc hx

/-- Every cost is eventually constant: along the call graph, and in a block from its end. -/
lemma eventuallyConst_cost (hm : m.Acyclic) (g : ℕ) :
    ∀ y, y.fn = g → EventuallyConst (fun n => (run n).tables.cost y) atTop := by
  induction g using hm.wellFounded.induction with
  | _ g ih =>
    intro y hy
    induction hd : m.distance y using Nat.strong_induction_on generalizing y with
    | _ d ihd =>
      cases hkind : m.handling y with
      | target =>
        refine Filter.eventuallyConst_atTop.2 ⟨0, fun n _ => ?_⟩
        rw [(reachable_run hinit hstep n).built.cost_of_target hkind,
          (reachable_run hinit hstep 0).built.cost_of_target hkind]
      | plain => exact eventuallyConst_of_plain hinit hstep hm hkind
      | direct f =>
        obtain ⟨x, hx⟩ := exists_successor_of_direct hkind
        have hdist := distance_of_direct hkind hx
        refine eventuallyConst_of_call hinit hstep hkind hx ?_ ?_
        · exact ih f (hy ▸ calls_of_direct hkind) (.entry f) rfl
        · exact ihd (m.distance x) (by omega) x ((fn_of_mem_successors hx).trans hy) rfl

end Run

/-- The assertions hold in every round. -/
lemma visit_isSome (hm : m.Acyclic) (ht : Built m w t) (order : List Instruction) :
    (visit m w order i t).isSome := by
  cases hi : m.handling i with
  | target => simp only [visit, hi, Option.isSome_some]
  | plain => simp only [visit, hi, Option.isSome_some]
  | direct f =>
    simp only [visit, hi]
    exact (visitCall_isSome hi).2 (ht.notMem_keys_entry hm hi rfl)

/-- The loop ends in every order, and its assertions hold in every round. -/
theorem loop_ends (hm : m.Acyclic) (w : InstructionCosts) :
    (¬ ∃ run : ℕ → CostMapState, run 0 = init m ∧ ∀ n, Step m w (run n) (run (n + 1))) ∧
      ∀ s, Reachable m w s → ∀ i ∈ s.worklist, ∀ order, order.Perm (m.successors i) →
        (visit m w order i s.tables).isSome := by
  constructor
  · rintro ⟨run, hinit, hstep⟩
    refine WorklistRun.not_eventuallyConst (fun n => (run n).worklist)
      (fun n i => (run n).tables.cost i) (fun n => (hstep n).cost_ne_or_card_lt) ?_
    intro i _
    exact eventuallyConst_cost hinit hstep hm i.fn i rfl
  · intro s hs i _ order _
    exact visit_isSome hm hs.built order

/-- A function with a loop that calls `castan_loop` and a function that returns. -/
def serverLoop : LlvmModule where
  functions :=
    [[], [⟨[.load], []⟩],
      [⟨[.other], [1]⟩, ⟨[.call (some 0), .call (some 1), .store], [1, 2]⟩, ⟨[], []⟩]]
  castanLoop := ⟨0, by decide⟩
  targets_valid := by decide

theorem loop_ends_serverLoop : ¬ ∃ run : ℕ → CostMapState,
      run 0 = init serverLoop ∧ ∀ n, Step serverLoop ⟨97, 5⟩ (run n) (run (n + 1)) :=
  (loop_ends (acyclic_of_lt (by decide)) ⟨97, 5⟩).1

end CostMapState

end Castan
