/-
# The entries of the cost map

`getPriority` asserts that the program counter of a state has an entry in `costs`.  The constructor
creates entries for the instructions that it starts from, for those that it visits, and for those
that it reads on a visit.  We say which instructions these are in every order of the worklist.
-/
import Castan.Search.CastanSearcher
import Castan.Search.CostMapResult

namespace Castan

open Relation (ReflTransGen)

open CostTables CostMapState

variable {m : LlvmModule} {w : InstructionCosts} {t t' : CostTables} {f : ℕ}
  {c i j q x y : Instruction} {cost : Bool × ℕ} {path : CountMap Instruction} {s : CostMapState}

/-- The instructions whose cost changes during the loop or is set before it. -/
def LlvmModule.Active (m : LlvmModule) (i : Instruction) : Prop := m.HasPath i ∨ m.Reaches i

/-- The instructions that get an entry in every order of the worklist.  A call whose callee
reaches `castan_loop` may be visited only after the callee was flagged, and does not read the cost
of its successor then. -/
inductive LlvmModule.Entered (m : LlvmModule) : Instruction → Prop
  | active {i : Instruction} (hi : m.Active i) : Entered m i
  | visited {c x : Instruction} {f : ℕ} (hc : m.handling c = .direct f)
      (hx : x ∈ m.successors c) (h : m.Active (.entry f) ∨ m.Active x) : Entered m c
  | callee {c x : Instruction} {f : ℕ} (hc : m.handling c = .direct f)
      (hx : x ∈ m.successors c) (h : m.Active x) : Entered m (.entry f)
  | continued {c x : Instruction} {f : ℕ} (hc : m.handling c = .direct f)
      (hx : x ∈ m.successors c) (h : m.Active (.entry f)) (hreach : ¬ m.Reaches (.entry f)) :
      Entered m x
  | branch {i x y : Instruction} (hi : m.handling i = .plain) (hx : x ∈ m.successors i)
      (hy : y ∈ m.successors i) (h : m.Active y) : Entered m x

namespace CostTables

/-! ### Entries that a visit creates -/

lemma isSome_of_cost_ne (h : t.cost y ≠ (false, 0)) : (t.costs y).isSome := by
  rw [Option.isSome_iff_ne_none]
  intro hnone
  rw [CostTables.cost, hnone] at h
  exact h rfl

lemma isSome_touch_self : ((t.touch x).costs x).isSome := by
  simp [touch]

lemma isSome_touch (h : (t.costs y).isSome) : ((t.touch x).costs y).isSome := by
  by_cases hyx : y = x
  · rw [hyx]
    exact isSome_touch_self
  · simpa [touch, hyx] using h

lemma isSome_record (h : (t.costs y).isSome) : ((t.record i cost path).costs y).isSome := by
  by_cases hyi : y = i
  · simp [record, hyi]
  · simpa [record, hyi] using h

lemma isSome_assign (h : ((t.touch i).costs y).isSome) :
    ((t.assign i cost path).1.costs y).isSome := by
  rw [assign]
  split_ifs
  · exact h
  · exact isSome_record h

/-- A visited call has read its own cost and the one of its callee, and that of its successor
unless the callee has a flag. -/
lemma isSome_visitCall {r : CostTables × Bool} (hi : m.handling i = .direct f)
    (hx : x ∈ m.successors i) (hr : visitCall m f i t = some r) :
    (r.1.costs i).isSome ∧ (r.1.costs (.entry f)).isSome ∧
      ((t.cost (.entry f)).1 = false → (r.1.costs x).isSome) := by
  have hsucc : m.successors i = [x] := by
    rw [LlvmModule.successors_of_direct hi, List.mem_singleton] at hx
    rw [LlvmModule.successors_of_direct hi, hx]
  have hkey : i ∉ (t.paths (.entry f)).keys := (visitCall_isSome hi).1 (by rw [hr]; rfl)
  rw [visitCall_eq hsucc hkey, Option.some.injEq] at hr
  have hentry : ((t.touch (.entry f)).costs (.entry f)).isSome := isSome_touch_self
  have hboth : (((t.touch (.entry f)).touch x).costs x).isSome := isSome_touch_self
  split_ifs at hr with h₁ h₂
  · subst hr
    refine ⟨isSome_assign isSome_touch_self, isSome_assign (isSome_touch hentry), ?_⟩
    intro hfalse
    rw [h₁] at hfalse
    exact Bool.noConfusion hfalse
  · subst hr
    exact ⟨isSome_assign isSome_touch_self, isSome_assign (isSome_touch (isSome_touch hentry)),
      fun _ => isSome_assign (isSome_touch hboth)⟩
  · subst hr
    exact ⟨isSome_assign isSome_touch_self, isSome_assign (isSome_touch (isSome_touch hentry)),
      fun _ => isSome_assign (isSome_touch hboth)⟩

lemma isSome_of_count (ht : Built m w t) (h : 0 < (t.paths y).count j) : (t.costs y).isSome :=
  isSome_of_cost_ne (ht.cost_ne_of_count_self y (ht.count_self_pos y j h))

lemma isSome_relax {u : CostTables × Bool} (hu : Built m w u.1) :
    ((relax (w.of (m.opcode? i)) i u x).1.costs x).isSome := by
  by_cases hcount : (u.1.paths x).count i ≤ 1
  · rw [relax_eq u hcount]
    dsimp only
    split_ifs
    · exact isSome_record isSome_touch_self
    · exact isSome_touch_self
  · -- the path that stops the update belongs to an entry
    have hc : ¬ ((u.1.touchPath i x).paths x).count i ≤ 1 := by
      rw [count_touchPath]
      exact hcount
    simp only [relax, hc, if_false]
    have hpos : 0 < (u.1.paths x).count i := by omega
    show (u.1.costs x).isSome
    exact isSome_of_count hu hpos

/-- A visited plain instruction has read the costs of its successors. -/
lemma isSome_foldl_relax (hi : m.handling i = .plain) (order : List Instruction)
    (horder : ∀ x ∈ order, x ∈ m.successors i) (u : CostTables × Bool) (hu : Built m w u.1) :
    ∀ x ∈ order, ((order.foldl (relax (w.of (m.opcode? i)) i) u).1.costs x).isSome := by
  induction order generalizing u with
  | nil => simp
  | cons a order ih =>
    intro x hx
    have hchain := (relax_spec (w := w) hi (horder a List.mem_cons_self) u).1
    have horder' : ∀ x ∈ order, x ∈ m.successors i :=
      fun x hx => horder x (List.mem_cons_of_mem a hx)
    rw [List.foldl_cons]
    obtain rfl | hx := List.mem_cons.1 hx
    · exact isSome_of_acts (foldl_relax_spec (w := w) hi order horder' _).1 (isSome_relax hu)
    · exact ih horder' _ (hu.of_acts hchain) x hx

/-- The entries that an instruction has created once something that it depends on has a cost. -/
structure HasRead (m : LlvmModule) (t : CostTables) (i : Instruction) : Prop where
  plain : m.handling i = .plain → ∀ y ∈ m.successors i, t.cost y ≠ (false, 0) →
    ∀ x ∈ m.successors i, (t.costs x).isSome
  direct : ∀ f, m.handling i = .direct f → ∀ x ∈ m.successors i,
    t.cost (.entry f) ≠ (false, 0) ∨ t.cost x ≠ (false, 0) →
    (t.costs i).isSome ∧ (t.costs (.entry f)).isSome ∧
      ((t.cost (.entry f)).1 = false → (t.costs x).isSome)

lemma HasRead.congr (h : HasRead m t i) (hleaves : Leaves m t t' i) : HasRead m t' i where
  plain := by
    intro hi y hy hcost x hx
    rw [(hleaves.inputs y (Or.inl hy)).1] at hcost
    exact hleaves.entries x (h.plain hi y hy hcost x hx)
  direct := by
    intro f hf x hx hcost
    have he := (hleaves.inputs (.entry f) (Or.inr ⟨f, hf, rfl⟩)).1
    rw [he, (hleaves.inputs x (Or.inl hx)).1] at hcost
    obtain ⟨h₁, h₂, h₃⟩ := h.direct f hf x hx hcost
    refine ⟨hleaves.entries i h₁, hleaves.entries _ h₂, ?_⟩
    rw [he]
    exact fun hflag => hleaves.entries x (h₃ hflag)

lemma hasRead_of_visit {order : List Instruction} {changed : Bool} (ht : Built m w t)
    (hm : m.Acyclic) (horder : order.Perm (m.successors i))
    (h : visit m w order i t = some (t', changed)) : HasRead m t' i where
  plain := by
    intro hi y _ _ x hx
    simp only [visit, hi, Option.some.injEq] at h
    have := isSome_foldl_relax hi order (fun x hx => horder.mem_iff.1 hx) (t, false) ht x
      (horder.mem_iff.2 hx)
    rw [h] at this
    exact this
  direct := by
    intro f hf x hx _
    have hchain := (visit_spec horder h).1
    simp only [visit, hf] at h
    obtain ⟨h₁, h₂, h₃⟩ := isSome_visitCall hf hx h
    refine ⟨h₁, h₂, ?_⟩
    have hentry : DependsOn m i (.entry f) := Or.inr ⟨f, hf, rfl⟩
    rw [(frame_of_acts hchain (hentry.ne_of_direct hm hf)).1]
    exact h₃

end CostTables

namespace CostMapState

lemma Reachable.hasRead (h : Reachable m w s) (hm : m.Acyclic) :
    ∀ i, i ∉ s.worklist → s.tables.HasRead m i := by
  refine h.off_worklist ?_ ?_ ?_
  · intro i hi
    have hcost : ∀ y, DependsOn m i y → (init m).tables.cost y = (false, 0) :=
      fun y hy => cost_init_of_not_base (not_base_of_dependsOn hi hy)
    refine ⟨fun _ y hy hne => absurd (hcost y (Or.inl hy)) hne, fun f hf x hx hne => ?_⟩
    obtain hne | hne := hne
    · exact absurd (hcost _ (Or.inr ⟨f, hf, rfl⟩)) hne
    · exact absurd (hcost x (Or.inl hx)) hne
  · intro t t' i order changed ht horder hvisit
    exact hasRead_of_visit ht hm horder hvisit
  · intro t t' i _ _ hleaves hread
    exact hread.congr hleaves

lemma Ends.cost_ne_of_active (h : Ends m w s) (hm : m.Acyclic) (hi : m.Active i) :
    s.tables.cost i ≠ (false, 0) := by
  obtain hpath | hreach := hi
  · exact h.1.built.cost_ne_of_count_self i (h.count_of_hasPath hm hpath)
  · intro heq
    have hflag := h.flag_of_reaches hm hreach
    rw [heq] at hflag
    exact Bool.noConfusion hflag

lemma Ends.isSome_of_entered (h : Ends m w s) (hm : m.Acyclic) (hi : m.Entered i) :
    (s.tables.costs i).isSome := by
  have hread : ∀ i, s.tables.HasRead m i :=
    fun i => h.1.hasRead hm i (by rw [h.2]; exact Finset.notMem_empty i)
  cases hi with
  | active hi => exact isSome_of_cost_ne (h.cost_ne_of_active hm hi)
  | visited hc hx hactive =>
    have hcost := hactive.imp (h.cost_ne_of_active hm) (h.cost_ne_of_active hm)
    exact ((hread i).direct _ hc _ hx hcost).1
  | callee hc hx hactive =>
    exact ((hread _).direct _ hc _ hx (Or.inr (h.cost_ne_of_active hm hactive))).2.1
  | continued hc hx hactive hreach =>
    refine ((hread _).direct _ hc i hx (Or.inl (h.cost_ne_of_active hm hactive))).2.2 ?_
    exact Bool.eq_false_iff.2 fun hflag => hreach (h.1.built.reaches_of_flag _ hflag)
  | branch hi hx hy hactive =>
    exact (hread _).plain hi _ hy (h.cost_ne_of_active hm hactive) i hx

end CostMapState

/-- The maps that the searcher keeps, with numbers of another type. -/
def CostTables.costMap {D : Type} (ofNat : ℕ → D) (t : CostTables) : CostMap Instruction D where
  costs i := (t.costs i).map fun c => (c.1, ofNat c.2)
  successorCosts i := (t.successorCosts i).map ofNat

lemma CostMap.getPriority_ne_missingCost {D : Type} [PriorityNumber D]
    {cm : CostMap Instruction D} {state : StateView Instruction D}
    (h : (cm.costs state.pc).isSome) : cm.getPriority state ≠ .error .missingCost := by
  have hsome : ¬ (cm.costs state.pc).isNone := by
    rw [Option.isNone_iff_eq_none]
    exact Option.isSome_iff_ne_none.1 h
  rw [getPriority, if_neg hsome]
  split_ifs <;> simp

/-- If the constructor enters every instruction, the assertion of `getPriority` holds for states
at every instruction. -/
theorem getPriority_asserts (hm : m.Acyclic) (h : Ends m w s) (hall : ∀ i ∈ m.insts, m.Entered i) :
    (∀ i ∈ m.insts, (s.tables.costs i).isSome) ∧
      ∀ (D : Type) [PriorityNumber D] (ofNat : ℕ → D) (state : StateView Instruction D),
        state.pc ∈ m.insts → (s.tables.costMap ofNat).getPriority state ≠ .error .missingCost := by
  have hsome : ∀ i ∈ m.insts, (s.tables.costs i).isSome :=
    fun i hi => h.isSome_of_entered hm (hall i hi)
  refine ⟨hsome, fun D _ ofNat state hpc => CostMap.getPriority_ne_missingCost ?_⟩
  rw [costMap, Option.isSome_map]
  exact hsome state.pc hpc

theorem getPriority_asserts_callThenLoop : ∃ s, Ends callThenLoop ⟨0, 0⟩ s ∧
    ∀ i ∈ callThenLoop.insts, (s.tables.costs i).isSome := by
  obtain ⟨s, hends, -⟩ := ends_callThenLoop
  refine ⟨s, hends, (getPriority_asserts acyclic_callThenLoop hends fun i hi => ?_).1⟩
  have hall : ∀ i ∈ callThenLoop.insts, callThenLoop.handling i = .target ∨
      callThenLoop.successors i = [] ∨ i = ⟨2, 0, 0⟩ := by decide
  have hexit : callThenLoop.HasPath (.entry 1) := .base (Or.inr ⟨by decide, by decide⟩)
  obtain ht | he | rfl := hall i hi
  · exact .active (Or.inl (.base (Or.inl ht)))
  · exact .active (Or.inl (.base (Or.inr ⟨hi, he⟩)))
  · exact .active (Or.inl (.through (by decide) (x := ⟨2, 0, 1⟩) (by decide) hexit
      (.base (Or.inl (by decide)))))

/-- A function that calls `castan_loop`, and then a function with an endless loop. -/
def callThenSpin : LlvmModule where
  functions :=
    [[], [⟨[], [1]⟩, ⟨[.load], [1]⟩], [⟨[.call (some 0), .call (some 1)], []⟩]]
  castanLoop := ⟨0, by decide⟩
  targets_valid := by decide

/-- A state in the endless loop fails the assertion. -/
theorem getPriority_fails : ∃ s, Ends callThenSpin sourceCosts s ∧ callThenSpin.Acyclic ∧
    ⟨1, 1, 0⟩ ∈ callThenSpin.insts ∧ s.tables.costs ⟨1, 1, 0⟩ = none ∧
    ∀ (D : Type) [PriorityNumber D] (ofNat : ℕ → D) (state : StateView Instruction D),
      state.pc = ⟨1, 1, 0⟩ → state.numIterations ≠ 0 →
        (s.tables.costMap ofNat).getPriority state = .error .missingCost := by
  rw [sourceCosts_eq]
  obtain ⟨s, hs, hempty, hnone⟩ : ∃ s,
      drain callThenSpin ⟨0, 0⟩ [⟨2, 0, 1⟩] = some s ∧ s.worklist = ∅ ∧
      s.tables.costs ⟨1, 1, 0⟩ = none := ⟨_, rfl, by decide, rfl⟩
  refine ⟨s, ⟨reachable_of_drain hs, hempty⟩, LlvmModule.acyclic_of_lt (by decide), by decide,
    hnone, fun D _ ofNat state hpc hiter => ?_⟩
  have hmissing : ((s.tables.costMap ofNat).costs state.pc).isNone := by
    rw [hpc]
    simp only [costMap, hnone, Option.map_none, Option.isNone_none]
  rw [CostMap.getPriority, if_neg hiter, if_pos hmissing]

end Castan
