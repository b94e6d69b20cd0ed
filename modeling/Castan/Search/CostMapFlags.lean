/-
# The flags of the cost map

The flag of an instruction says that a call of `castan_loop` can be reached from it.  Flags are
never taken back, and an update that the loop skips, since the instruction is already twice on the
path of its successor, cannot set one.  We show that off the worklist every instruction is in
agreement with what it depends on, so that the flags are exact when the worklist is empty.
-/
import Castan.Search.CostMapPaths

namespace Castan

open Relation (ReflTransGen TransGen)

open CostMapState CostTables LlvmModule

variable {m : LlvmModule} {w : InstructionCosts} {t t' : CostTables} {f : ℕ}
  {c i j q x y : Instruction} {cost : Bool × ℕ} {path : CountMap Instruction}

namespace CostTables

/-- A flagged call has a flagged callee or a flagged successor. -/
def CallsJustified (m : LlvmModule) (t : CostTables) : Prop :=
  ∀ c f, m.handling c = .direct f → (t.cost c).1 = true →
    (t.cost (.entry f)).1 = true ∨ ∃ x ∈ m.successors c, (t.cost x).1 = true

/-- A recorded cost does not take a flag back. -/
lemma Writes.flag_mono (h : Writes m w t i cost path) (hcalls : t.CallsJustified m)
    (hi : (t.cost i).1 = true) : cost.1 = true := by
  cases h with
  | plain _ _ _ himp =>
    rw [improves_iff, if_pos hi] at himp
    exact himp.1
  | direct _ _ _ => rfl
  | @through f x hdirect hx he _ _ _ =>
    obtain he' | ⟨x', hx', hflag⟩ := hcalls i f hdirect hi
    · rw [he] at he'
      exact Bool.noConfusion he'
    · rw [successors_of_direct hdirect, List.mem_singleton] at hx hx'
      rw [hx, ← hx']
      exact hflag
  | @blocked f x hdirect hx he _ _ =>
    obtain he' | ⟨x', hx', hflag⟩ := hcalls i f hdirect hi
    · rw [he] at he'
      exact Bool.noConfusion he'
    · rw [successors_of_direct hdirect, List.mem_singleton] at hx hx'
      rw [hx, ← hx']
      exact hflag

lemma Writes.flag_record (h : Writes m w t i cost path) (hcalls : t.CallsJustified m)
    (hy : (t.cost y).1 = true) : ((t.record i cost path).cost y).1 = true := by
  by_cases hyi : y = i
  · subst hyi
    rw [cost_record_self]
    exact h.flag_mono hcalls hy
  · rw [cost_record_of_ne hyi]
    exact hy

end CostTables

namespace CostMapState.Built

lemma callsJustified (h : Built m w t) : t.CallsJustified m := by
  refine h.induct ?_ ?_ ?_
  · intro c f hc hflag
    rw [cost_init, if_neg (by rw [hc]; exact Handling.noConfusion)] at hflag
    split at hflag
    · exact Bool.noConfusion hflag
    · exact Bool.noConfusion hflag
  · intro t t' hs ih c f hc hflag
    simp only [hs.1] at hflag ⊢
    exact ih c f hc hflag
  · intro t i cost path _ hw ih c f hc hflag
    by_cases hci : c = i
    · subst hci
      rw [cost_record_self] at hflag
      -- a flag that the recorded cost copies is there afterwards too, also in the cost itself
      have hcopied : ∀ y, (t.cost y).1 = true → ((t.record c cost path).cost y).1 = true :=
        fun y => hw.flag_record ih
      cases hw with
      | plain hi _ _ _ =>
        rw [hc] at hi
        exact Handling.noConfusion hi
      | direct hi he _ =>
        rw [hc] at hi
        obtain rfl := Handling.direct.inj hi
        exact Or.inl (hcopied _ he)
      | through _ hx _ _ _ _ => exact Or.inr ⟨_, hx, hcopied _ hflag⟩
      | blocked _ hx _ _ _ => exact Or.inr ⟨_, hx, hcopied _ hflag⟩
    · rw [cost_record_of_ne hci] at hflag
      obtain he | ⟨x, hx, hxflag⟩ := ih c f hc hflag
      · exact Or.inl (hw.flag_record ih he)
      · exact Or.inr ⟨x, hx, hw.flag_record ih hxflag⟩

/-- The plain instructions on the path of a flagged instruction are flagged. -/
lemma flag_of_path (h : Built m w t) (hm : m.Acyclic) : ∀ y, (t.cost y).1 = true →
    ∀ j, j.fn = y.fn → m.handling j = .plain → 0 < (t.paths y).count j → (t.cost j).1 = true := by
  refine h.induct ?_ ?_ ?_
  · intro y hy j _ hj hpos
    rw [count_init] at hpos
    split at hpos
    · next hjy => rw [hjy.2]; exact hy
    · exact absurd hpos (Nat.lt_irrefl 0)
  · intro t t' hs ih y hy j hfn hj hpos
    rw [hs.1] at hy ⊢
    rw [hs.2] at hpos
    exact ih y hy j hfn hj hpos
  · intro t i cost path hbuilt hw ih y hy j hfn hj hpos
    by_cases hyi : y = i
    · subst hyi
      by_cases hjy : j = y
      · rw [hjy]
        exact hy
      rw [paths_record_self] at hpos
      rw [cost_record_self] at hy
      rw [cost_record_of_ne hjy]
      cases hw with
      | @plain x _ hx _ _ =>
        rw [CountMap.count_add_of_ne _ _ _ _ hjy] at hpos
        exact ih x hy j (hfn.trans (fn_of_mem_successors hx).symm) hj hpos
      | direct hi _ _ =>
        rw [CountMap.count_add_of_ne _ _ _ _ hjy, hbuilt.count_entry hm hi hfn] at hpos
        exact absurd hpos (Nat.lt_irrefl 0)
      | @through f x hi hx _ _ _ _ =>
        rw [CountMap.count_addAll, CountMap.count_addAll, CountMap.count_add_of_ne _ _ _ _ hjy,
          hbuilt.count_entry hm hi hfn, CountMap.count_empty, Nat.zero_add] at hpos
        exact ih x hy j (hfn.trans (fn_of_mem_successors hx).symm) hj hpos
      | blocked _ _ _ _ _ => exact absurd hpos (Nat.lt_irrefl 0)
    · rw [cost_record_of_ne hyi] at hy
      rw [paths_record_of_ne hyi] at hpos
      exact hw.flag_record hbuilt.callsJustified (ih y hy j hfn hj hpos)

/-- A flag is never set without a reason. -/
lemma reaches_of_flag (h : Built m w t) : ∀ y, (t.cost y).1 = true → m.Reaches y := by
  refine h.induct ?_ ?_ ?_
  · intro y hy
    rw [cost_init] at hy
    split_ifs at hy with ht
    exact .of_target ht
  · intro t t' hs ih y hy
    rw [hs.1] at hy
    exact ih y hy
  · intro t i cost path _ hw ih y hy
    by_cases hyi : y = i
    · subst hyi
      rw [cost_record_self] at hy
      cases hw with
      | plain _ hx _ _ => exact .of_goes (Or.inl hx) (ih _ hy)
      | direct hi he _ =>
        exact .of_goes ((goes_iff_of_direct hi).2 (Or.inr rfl)) (ih _ he)
      | through _ hx _ _ _ _ => exact .of_goes (Or.inl hx) (ih _ hy)
      | blocked _ hx _ _ _ => exact .of_goes (Or.inl hx) (ih _ hy)
    · rw [cost_record_of_ne hyi] at hy
      exact ih y hy

end CostMapState.Built

namespace CostTables

/-- Actions of a visit of another instruction leave the continuation cost of a call alone. -/
lemma successorCosts_of_acts (h : ReflTransGen (Acts m w i) t t') (hy : y ≠ i) :
    t'.successorCosts y = t.successorCosts y := by
  induction h with
  | refl => rfl
  | tail _ hact ih =>
    rw [← ih]
    cases hact with
    | touch _ => rfl
    | touchPath _ _ => rfl
    | recordSuccessor _ _ => simp [recordSuccessor, hy]
    | record _ => rfl

/-- Entries are never removed. -/
lemma isSome_of_acts (h : ReflTransGen (Acts m w i) t t') (hy : (t.costs y).isSome) :
    (t'.costs y).isSome := by
  induction h with
  | refl => exact hy
  | tail _ hact ih =>
    have hupdate : ∀ (u : CostTables) (z : Instruction) (v : Bool × ℕ), (u.costs y).isSome →
        (Function.update u.costs z (some v) y).isSome := by
      intro u z v hu
      by_cases hyz : y = z
      · rw [hyz, Function.update_self]
        rfl
      · rw [Function.update_of_ne hyz]
        exact hu
    cases hact with
    | touch x => exact hupdate _ x _ ih
    | touchPath _ _ => exact ih
    | recordSuccessor _ _ => exact ih
    | record _ => exact hupdate _ i _ ih

/-- The instructions that the cost of `i` is computed from. -/
def DependsOn (m : LlvmModule) (i y : Instruction) : Prop :=
  y ∈ m.successors i ∨ ∃ f, m.handling i = .direct f ∧ y = .entry f

lemma DependsOn.mem_dependents (h : DependsOn m i y) : i ∈ m.dependents y := by
  obtain h | ⟨f, hf, rfl⟩ := h
  · exact mem_dependents_of_mem_successors h
  · exact mem_dependents_entry hf

/-- A call is neither its own successor nor the first instruction of its callee. -/
lemma DependsOn.ne_of_direct (h : DependsOn m i y) (hm : m.Acyclic)
    (hi : m.handling i = .direct f) : y ≠ i := by
  rintro rfl
  obtain hy | ⟨g, hg, heq⟩ := h
  · have := distance_of_direct hi hy
    omega
  · have hcalls := calls_of_direct hg
    rw [heq] at hcalls
    exact hm g (.single hcalls)

/-- The values of `i`, and those that its cost is computed from, are the same in both tables. -/
structure Leaves (m : LlvmModule) (t t' : CostTables) (i : Instruction) : Prop where
  cost : t'.cost i = t.cost i
  successorCosts : t'.successorCosts i = t.successorCosts i
  inputs : ∀ y, DependsOn m i y →
    t'.cost y = t.cost y ∧ ∀ j, (t'.paths y).count j = (t.paths y).count j
  entries : ∀ y, (t.costs y).isSome → (t'.costs y).isSome

/-- What holds of an instruction whose visit would not change anything.  A plain instruction is
not visited for the sake of a successor without a cost. -/
structure Agrees (m : LlvmModule) (w : InstructionCosts) (t : CostTables) (i : Instruction) :
    Prop where
  plain : m.handling i = .plain → ∀ x ∈ m.successors i, x ≠ i → t.cost x ≠ (false, 0) →
    t.Settled m w i x
  direct : ∀ f, m.handling i = .direct f → ∀ x ∈ m.successors i,
    t.cost i = t.callCost f x ∧
      ((t.cost (.entry f)).1 = false → 0 < (t.paths (.entry f)).count (.entry f) →
        0 < (t.paths x).count x → t.successorCosts i = some (t.cost x).2)

lemma callCost_congr (ht : Built m w t) (ht' : Built m w t') (hi : m.handling i = .direct f)
    (hx : x ∈ m.successors i)
    (hsame : ∀ y, DependsOn m i y →
      t'.cost y = t.cost y ∧ ∀ j, (t'.paths y).count j = (t.paths y).count j) :
    t'.callCost f x = t.callCost f x := by
  obtain ⟨hce, hpe⟩ := hsame (.entry f) (Or.inr ⟨f, hi, rfl⟩)
  obtain ⟨hcx, hpx⟩ := hsame x (Or.inl hx)
  simp only [callCost, hce, hcx, ht.keys_entry_nonempty_iff, ht'.keys_entry_nonempty_iff,
    ht.keys_successor_nonempty_iff hi hx, ht'.keys_successor_nonempty_iff hi hx, hpe, hpx]

/-- An instruction keeps agreeing as long as it and what it depends on keep their values. -/
lemma Agrees.congr (h : t.Agrees m w i) (ht : Built m w t) (ht' : Built m w t')
    (hleaves : Leaves m t t' i) : t'.Agrees m w i where
  plain := by
    intro hplain x hx hne hcost
    obtain ⟨hcx, hpx⟩ := hleaves.inputs x (Or.inl hx)
    rw [hcx] at hcost
    have hsettled := h.plain hplain x hx hne hcost
    rw [Settled, Improves] at hsettled ⊢
    rw [hpx, hcx, hleaves.cost]
    exact hsettled
  direct := by
    intro f hf x hx
    obtain ⟨hce, hpe⟩ := hleaves.inputs (.entry f) (Or.inr ⟨f, hf, rfl⟩)
    obtain ⟨hcx, hpx⟩ := hleaves.inputs x (Or.inl hx)
    rw [callCost_congr ht ht' hf hx hleaves.inputs, hleaves.cost, hleaves.successorCosts, hce,
      hpe, hpx, hcx]
    exact h.direct f hf x hx

/-- The visited instruction agrees after its visit. -/
lemma agrees_of_visit {order : List Instruction} {changed : Bool} (ht : Built m w t)
    (hm : m.Acyclic) (horder : order.Perm (m.successors i))
    (h : visit m w order i t = some (t', changed)) : t'.Agrees m w i where
  plain := fun hplain x hx hne _ => settled_of_visit hplain horder h hx hne
  direct := by
    intro f hf x hx
    have hchain := (visit_spec horder h).1
    simp only [visit, hf] at h
    obtain ⟨-, hcost, -, hsucc⟩ := visitCall_spec (w := w) hf hx h
    have hsame : ∀ y, DependsOn m i y →
        t'.cost y = t.cost y ∧ ∀ j, (t'.paths y).count j = (t.paths y).count j :=
      fun y hy => frame_of_acts hchain (hy.ne_of_direct hm hf)
    have ht' := ht.of_acts hchain
    refine ⟨?_, ?_⟩
    · rw [hcost, callCost_congr ht ht' hf hx hsame]
    · obtain ⟨hce, hpe⟩ := hsame (.entry f) (Or.inr ⟨f, hf, rfl⟩)
      obtain ⟨hcx, hpx⟩ := hsame x (Or.inl hx)
      rw [hce, hpe, hpx, hcx, ← ht.keys_entry_nonempty_iff, ← ht.keys_successor_nonempty_iff hf hx]
      exact hsucc

end CostTables

namespace CostMapState

variable {s s' : CostMapState}

lemma cost_init_of_not_base (hy : ¬ m.Base y) : (init m).tables.cost y = (false, 0) := by
  rw [cost_init, if_neg (fun ht => hy (Or.inl ht)), if_neg hy]

/-- Off the worklist nothing depends on the instructions that the loop starts from. -/
lemma not_base_of_dependsOn (hi : i ∉ (init m).worklist) (hy : DependsOn m i y) : ¬ m.Base y :=
  fun hb => hi (dependents_subset_init hb hy.mem_dependents)

lemma agrees_init (hi : i ∉ (init m).worklist) : (init m).tables.Agrees m w i := by
  have hcost : ∀ y, DependsOn m i y → (init m).tables.cost y = (false, 0) :=
    fun y hy => cost_init_of_not_base (not_base_of_dependsOn hi hy)
  refine ⟨?_, ?_⟩
  · intro _ x hx _ hne
    exact absurd (hcost x (Or.inl hx)) hne
  · intro f hf x hx
    have he : ¬ m.Base (.entry f) := not_base_of_dependsOn hi (Or.inr ⟨f, hf, rfl⟩)
    have hi' : ¬ m.Base i := by
      rintro (ht | ⟨-, hnil⟩)
      · rw [hf] at ht
        exact Handling.noConfusion ht
      · rw [hnil] at hx
        exact absurd hx List.not_mem_nil
    refine ⟨?_, ?_⟩
    · rw [cost_init_of_not_base hi', callCost, cost_init_of_not_base he, hcost x (Or.inl hx),
        keys_init, if_neg he]
      simp
    · intro _ hpos
      rw [count_init, if_neg (fun h => he h.1)] at hpos
      exact absurd hpos (Nat.lt_irrefl 0)

/-- A property holds of all instructions off the worklist if it holds there before the loop, a
visit establishes it, and it is kept as long as the instruction and its inputs are left alone. -/
lemma Reachable.off_worklist {Q : CostTables → Instruction → Prop} (h : Reachable m w s)
    (hinit : ∀ i, i ∉ (init m).worklist → Q (init m).tables i)
    (hvisit : ∀ t t' i order changed, Built m w t → order.Perm (m.successors i) →
      visit m w order i t = some (t', changed) → Q t' i)
    (hkeep : ∀ t t' i, Built m w t → Built m w t' → Leaves m t t' i → Q t i → Q t' i) :
    ∀ i, i ∉ s.worklist → Q s.tables i := by
  induction h with
  | refl => exact hinit
  | tail hreach hstep ih =>
    have hbuilt := Reachable.built hreach
    obtain ⟨i₀, order, changed, -, horder, hvis, hworklist⟩ := hstep.inv
    obtain ⟨hchain, hchanged⟩ := visit_spec horder hvis
    intro i hi
    rw [hworklist, Finset.mem_union, Finset.mem_erase, not_or, not_and] at hi
    by_cases hii : i = i₀
    · subst hii
      exact hvisit _ _ i order changed hbuilt horder hvis
    · refine hkeep _ _ i hbuilt (hbuilt.of_acts hchain) ?_ (ih i (hi.1 hii))
      refine ⟨(frame_of_acts hchain hii).1, successorCosts_of_acts hchain hii, fun y hy => ?_,
        fun y => isSome_of_acts hchain⟩
      obtain ⟨-, hsame⟩ | ⟨rfl, -⟩ := hchanged
      · exact ⟨hsame.1 y, hsame.2 y⟩
      · -- a changed instruction has put its dependents on the worklist
        refine frame_of_acts hchain ?_
        rintro rfl
        exact hi.2 hy.mem_dependents

/-- Off the worklist every instruction agrees with what it depends on. -/
lemma Reachable.agrees (h : Reachable m w s) (hm : m.Acyclic) :
    ∀ i, i ∉ s.worklist → s.tables.Agrees m w i :=
  h.off_worklist (fun _ hi => agrees_init hi)
    (fun _ _ _ _ _ ht horder hvisit => agrees_of_visit ht hm horder hvisit)
    (fun _ _ _ ht ht' hleaves hagrees => hagrees.congr ht ht' hleaves)

/-- At the end the flags are closed under going backwards. -/
lemma Ends.flag_of_goes (h : Ends m w s) (hm : m.Acyclic) (hgoes : m.Goes i j)
    (hj : (s.tables.cost j).1 = true) : (s.tables.cost i).1 = true := by
  have hbuilt := h.1.built
  have hagrees := h.1.agrees hm i (by rw [h.2]; exact Finset.notMem_empty i)
  cases hi : m.handling i with
  | target => rw [hbuilt.cost_of_target hi]
  | plain =>
    have hx := (goes_iff_of_plain hi).1 hgoes
    by_cases hij : j = i
    · rw [← hij]
      exact hj
    have hcost : s.tables.cost j ≠ (false, 0) := by
      intro heq
      rw [heq] at hj
      exact Bool.noConfusion hj
    obtain htwo | hno := hagrees.plain hi j hx hij hcost
    · exact hbuilt.flag_of_path hm j hj i (fn_of_mem_successors hx).symm hi (by omega)
    · by_contra hflag
      refine hno (improves_iff.2 ?_)
      rw [if_neg hflag]
      exact Or.inl hj
  | direct f =>
    obtain ⟨x, hx⟩ := exists_successor_of_direct hi
    rw [(hagrees.direct f hi x hx).1, callCost]
    split_ifs with he
    · rfl
    all_goals
      obtain hj' | rfl := (goes_iff_of_direct hi).1 hgoes
      · rw [successors_of_direct hi, List.mem_singleton] at hj' hx
        rw [hx, ← hj']
        exact hj
      · exact absurd hj he

lemma Ends.flag_of_reaches (h : Ends m w s) (hm : m.Acyclic) (hi : m.Reaches i) :
    (s.tables.cost i).1 = true := by
  obtain ⟨c, hc, hic⟩ := hi
  have htarget : (s.tables.cost c).1 = true := by
    rw [h.1.built.cost_of_target (handling_eq_target.2 hc)]
  induction hic using ReflTransGen.head_induction_on with
  | refl => exact htarget
  | head hgoes _ ih => exact h.flag_of_goes hm hgoes ih

/-- When the constructor ends, the flag of an instruction says whether a call of `castan_loop`
can be reached from it. -/
theorem flag_iff_reaches (hm : m.Acyclic) (h : Ends m w s) (i : Instruction) :
    (s.tables.cost i).1 = true ↔ m.Reaches i :=
  ⟨h.1.built.reaches_of_flag i, h.flag_of_reaches hm⟩

/-- A call of a function that returns, before a call of `castan_loop`. -/
def callThenLoop : LlvmModule where
  functions := [[], [⟨[], []⟩], [⟨[.call (some 1), .call (some 0)], []⟩]]
  castanLoop := ⟨0, by decide⟩
  targets_valid := by decide

lemma acyclic_callThenLoop : callThenLoop.Acyclic := acyclic_of_lt (by decide)

/-- The first call gets its cost and its flag from what follows it. -/
lemma ends_callThenLoop : ∃ s, Ends callThenLoop w s ∧ s.tables.cost ⟨2, 0, 0⟩ = (true, 3) ∧
    s.tables.cost (.entry 1) = (false, 1) ∧ s.tables.cost ⟨2, 0, 1⟩ = (true, 1) := by
  obtain ⟨s, hs, hempty, hcosts⟩ : ∃ s,
      drain callThenLoop w [⟨2, 0, 1⟩, ⟨2, 0, 0⟩] = some s ∧ s.worklist = ∅ ∧
      s.tables.cost ⟨2, 0, 0⟩ = (true, 3) ∧ s.tables.cost (.entry 1) = (false, 1) ∧
      s.tables.cost ⟨2, 0, 1⟩ = (true, 1) := ⟨_, rfl, by decide, rfl, rfl, rfl⟩
  exact ⟨s, ⟨reachable_of_drain hs, hempty⟩, hcosts⟩

theorem flag_iff_reaches_callThenLoop : ∃ s, Ends callThenLoop ⟨0, 0⟩ s ∧
    (callThenLoop.Reaches ⟨2, 0, 0⟩ ∧ ¬ callThenLoop.Reaches (.entry 1)) := by
  obtain ⟨s, hends, hcost, hentry, -⟩ := ends_callThenLoop
  refine ⟨s, hends, (flag_iff_reaches acyclic_callThenLoop hends _).1 (by rw [hcost]), ?_⟩
  rw [← flag_iff_reaches acyclic_callThenLoop hends, hentry]
  exact Bool.false_ne_true

end CostMapState

end Castan
