/-
# Symbolic switches

The `Switch` case of `Executor::executeInstruction`.  The feasible cases are grouped by the block
they lead to, the default is what no case matches, and the state is split into one state for each
block.  The default is given up if its block is also the target of a feasible case, so a switch
loses no path unless that happens.
-/
import Castan.Core.Fork

namespace Castan

open List

/-- A switch over values of one width; the cases have their blocks. -/
structure SwitchInst (B : Type) where
  parent : B
  cases : List (APInt × B)
  defaultDest : B

/-- The block a state continues in, and the one it comes from. -/
structure Location (B : Type) where
  block : B
  incoming : B

variable {B : Type}

/-- `Executor::transferToBasicBlock` -/
def transferToBasicBlock (dst src : B) (state : ExecutionState (Location B)) :
    ExecutionState (Location B) :=
  { state with rest := ⟨dst, src⟩ }

/-- The successor that `findCaseValue` selects. -/
def SwitchInst.successor (si : SwitchInst B) (v : APInt) : B :=
  ((si.cases.find? fun c => c.1 = v).map Prod.snd).getD si.defaultDest

/-! ### The groups -/

/-- The order of `Expr::compare` on constants: hash, width and value. -/
def caseLe (hash : APInt → ℕ) (c d : APInt × B) : Bool :=
  hash c.1 < hash d.1 || hash c.1 == hash d.1 &&
    (c.1.width < d.1.width || c.1.width == d.1.width && c.1.toNat ≤ d.1.toNat)

/-- The map `expressionOrder`: the first case of each value, in the order of the values. -/
def expressionOrder (hash : APInt → ℕ) (cases : List (APInt × B)) : List (APInt × B) :=
  (cases.foldl (fun m c => if m.any fun d => d.1 = c.1 then m else m ++ [c]) []).mergeSort
    (caseLe hash)

/-- The variables of the loop over the cases. -/
structure SwitchTargets (B : Type) where
  bbOrder : List B
  branchTargets : B → Option Expr
  defaultValue : Expr

namespace Executor

variable (executor : Executor)

/-- `Executor::toUnique` -/
def toUnique (constraints : List Expr) (e : Expr) : Expr :=
  match e.constant?, executor.timing.getValue constraints e with
  | none, some value =>
    match executor.timing.mustBeTrue constraints
        (EqExpr.create executor.timing.opts e (.const value)) with
    | some true => .const value
    | _ => e
  | _, _ => e

section Groups

variable [DecidableEq B] (constraints : List Expr) (cond : Expr)

/-- One iteration of the loop over the cases. -/
def addCase (t : SwitchTargets B) (c : APInt × B) : Option (SwitchTargets B) :=
  let o := executor.timing.opts
  let caseMatch := EqExpr.create o cond (.const c.1)
  let t := { t with defaultValue := AndExpr.create t.defaultValue (caseMatch.createIsZero o) }
  (executor.timing.mayBeTrue constraints caseMatch).map fun result =>
    if result then
      -- the group starts as the constant false
      let old := (t.branchTargets c.2).getD (.const (.bool false))
      { t with
        branchTargets := Function.update t.branchTargets c.2 (some (OrExpr.create caseMatch old))
        bbOrder := if (t.branchTargets c.2).isNone then t.bbOrder ++ [c.2] else t.bbOrder }
    else t

/-- The default, which is not added to a group that exists. -/
def addDefault (defaultDest : B) (t : SwitchTargets B) : Option (SwitchTargets B) :=
  (executor.timing.mayBeTrue constraints t.defaultValue).map fun res =>
    if res && (t.branchTargets defaultDest).isNone then
      { t with
        branchTargets := Function.update t.branchTargets defaultDest (some t.defaultValue)
        bbOrder := t.bbOrder ++ [defaultDest] }
    else t

/-- The groups of a switch. -/
def switchTargets (hash : APInt → ℕ) (si : SwitchInst B) : Option (SwitchTargets B) :=
  ((expressionOrder hash si.cases).foldlM (executor.addCase constraints cond)
    ⟨[], fun _ => none, .const (.bool true)⟩).bind (executor.addDefault constraints si.defaultDest)

/-- The `Switch` case of `executeInstruction`, with `none` for a failed assertion. -/
def executeSwitch (hash : APInt → ℕ) (picks : ℕ → ℕ) (si : SwitchInst B)
    (state : ExecutionState (Location B)) : Option (List (ExecutionState (Location B))) :=
  let cond := executor.toUnique state.constraints cond
  match cond.constant? with
  | some c =>
    if c.width ≤ 64 then some [transferToBasicBlock (si.successor c) si.parent state] else none
  | none =>
    (executor.switchTargets state.constraints cond hash si).bind fun t =>
      (t.bbOrder.mapM t.branchTargets).bind fun conditions =>
        (executor.branch picks state conditions).map fun branches =>
          List.zipWith (fun b es => transferToBasicBlock b si.parent es) t.bbOrder branches

end Groups

end Executor

/-! ### What a group stands for -/

section Spec

variable {executor : Executor} {S : Valuation → Prop} {x : Valuation → APInt} {w : ℕ}
  {cs : List Expr} {cond : Expr}

/-- Some assignment of the path matches the case. -/
def Feasible (S : Valuation → Prop) (x : Valuation → APInt) (c : APInt × B) : Prop :=
  ∃ ρ, S ρ ∧ x ρ = c.1

/-- What the loop has collected after the cases `done`. -/
structure Collected (o : Opts) (S : Valuation → Prop) (x : Valuation → APInt)
    (done : List (APInt × B)) (t : SwitchTargets B) : Prop where
  defaultValue : Tests o S t.defaultValue fun ρ => ∀ c ∈ done, x ρ ≠ c.1
  nodup : t.bbOrder.Nodup
  mem_bbOrder : ∀ b, b ∈ t.bbOrder ↔ ∃ c ∈ done, c.2 = b ∧ Feasible S x c
  target : ∀ b ∈ t.bbOrder, ∃ e, t.branchTargets b = some e ∧
    Tests o S e fun ρ => ∃ c ∈ done, c.2 = b ∧ x ρ = c.1
  absent : ∀ b ∉ t.bbOrder, t.branchTargets b = none

lemma expressionOrder_perm (hash : APInt → ℕ) {cases : List (APInt × B)}
    (hcases : (cases.map Prod.fst).Nodup) : (expressionOrder hash cases).Perm cases := by
  have hfold : ∀ (rest m : List (APInt × B)), ((m ++ rest).map Prod.fst).Nodup →
      rest.foldl (fun m c => if m.any fun d => d.1 = c.1 then m else m ++ [c]) m = m ++ rest := by
    intro rest
    induction rest with
    | nil => simp
    | cons c rest ih =>
      intro m hm
      have hnew : ¬ (m.any fun d => d.1 = c.1) = true := by
        simp only [any_eq_true, decide_eq_true_iff, not_exists, not_and]
        intro d hd heq
        rw [map_append, nodup_append] at hm
        exact hm.2.2 d.1 (mem_map_of_mem hd) c.1 (by simp) heq
      rw [foldl_cons, if_neg hnew, ih _ (by simpa using hm)]
      simp
  rw [expressionOrder, hfold cases [] (by simpa using hcases)]
  exact mergeSort_perm _ _

lemma Collected.start (o : Opts) (S : Valuation → Prop) (x : Valuation → APInt) :
    Collected (B := B) o S x [] ⟨[], fun _ => none, .const (.bool true)⟩ where
  defaultValue := (Tests.bool true).congr fun _ _ => by simp
  nodup := nodup_nil
  mem_bbOrder := by simp
  target := by simp
  absent := by simp

section Case

variable {done : List (APInt × B)} {t : SwitchTargets B} {c : APInt × B} {o : Opts}
  {e defaultValue : Expr}

/-- The group of the block of a feasible case. -/
lemma Collected.tests_or (h : Collected o S x done t) (hmatch : Tests o S e fun ρ => x ρ = c.1) :
    Tests o S (OrExpr.create e ((t.branchTargets c.2).getD (.const (.bool false))))
      fun ρ => ∃ d ∈ c :: done, d.2 = c.2 ∧ x ρ = d.1 := by
  by_cases hmem : c.2 ∈ t.bbOrder
  · obtain ⟨old, hold, htests⟩ := h.target _ hmem
    rw [hold]
    exact (hmatch.or htests).congr fun ρ _ => by simp
  · rw [h.absent _ hmem]
    refine (hmatch.or (Tests.bool false)).congr fun ρ hρ => ?_
    have hnone : ∀ d ∈ done, d.2 = c.2 → x ρ ≠ d.1 := fun d hd hdc heq =>
      hmem ((h.mem_bbOrder _).2 ⟨d, hd, hdc, ρ, hρ, heq⟩)
    simp only [Bool.false_eq_true, or_false, mem_cons, exists_eq_or_imp, true_and]
    exact ⟨Or.inl, fun hor => hor.resolve_right fun ⟨d, hd, hdc, heq⟩ => hnone d hd hdc heq⟩

/-- A case that is not feasible only cuts the default. -/
lemma Collected.infeasible (h : Collected o S x done t) (hdefault : Tests o S defaultValue
    fun ρ => ∀ d ∈ c :: done, x ρ ≠ d.1) (hc : ¬ Feasible S x c) :
    Collected o S x (c :: done) { t with defaultValue } where
  defaultValue := hdefault
  nodup := h.nodup
  mem_bbOrder b := by simp [h.mem_bbOrder, hc]
  target b hb := by
    obtain ⟨e, he, htests⟩ := h.target b hb
    refine ⟨e, he, htests.congr fun ρ hρ => ?_⟩
    have hne : x ρ ≠ c.1 := fun heq => hc ⟨ρ, hρ, heq⟩
    simp [hne]
  absent := h.absent

variable [DecidableEq B]

/-- A feasible case joins the group of its block. -/
lemma Collected.feasible (h : Collected o S x done t)
    (hmatch : Tests o S e fun ρ => x ρ = c.1) (hdefault : Tests o S defaultValue
      fun ρ => ∀ d ∈ c :: done, x ρ ≠ d.1) (hc : Feasible S x c) :
    Collected o S x (c :: done)
      ⟨if (t.branchTargets c.2).isNone then t.bbOrder ++ [c.2] else t.bbOrder,
        Function.update t.branchTargets c.2
          (some (OrExpr.create e ((t.branchTargets c.2).getD (.const (.bool false))))),
        defaultValue⟩ := by
  have hnone : (t.branchTargets c.2).isNone = true ↔ c.2 ∉ t.bbOrder := by
    constructor
    · intro hisNone hmem
      obtain ⟨old, hold, -⟩ := h.target _ hmem
      rw [hold] at hisNone
      exact absurd hisNone (by simp)
    · intro hmem
      rw [h.absent _ hmem]
      rfl
  have hmem : ∀ b, b ∈ (if (t.branchTargets c.2).isNone then t.bbOrder ++ [c.2] else t.bbOrder) ↔
      b = c.2 ∨ b ∈ t.bbOrder := by
    intro b
    by_cases hin : c.2 ∈ t.bbOrder
    · rw [if_neg fun hisNone => hnone.1 hisNone hin]
      exact ⟨Or.inr, fun hb => hb.elim (fun heq => heq ▸ hin) id⟩
    · rw [if_pos (hnone.2 hin), mem_append, mem_singleton, or_comm]
  refine ⟨hdefault, ?_, fun b => ?_, fun b hb => ?_, fun b hb => ?_⟩
  · by_cases hin : c.2 ∈ t.bbOrder
    · rw [if_neg fun hisNone => hnone.1 hisNone hin]
      exact h.nodup
    · rw [if_pos (hnone.2 hin)]
      exact h.nodup.append (by simp) (by simpa using hin)
  · rw [hmem, h.mem_bbOrder]
    simp only [mem_cons, exists_eq_or_imp, hc, and_true, @eq_comm _ b]
  · by_cases hbc : b = c.2
    · subst hbc
      exact ⟨_, Function.update_self .., h.tests_or hmatch⟩
    · obtain ⟨old, hold, htests⟩ := h.target b (((hmem b).1 hb).resolve_left hbc)
      refine ⟨old, (Function.update_of_ne hbc ..).trans hold, htests.congr fun ρ _ => ?_⟩
      simp [Ne.symm hbc]
  · have hb' := mt (hmem b).2 hb
    push Not at hb'
    exact (Function.update_of_ne hb'.1 ..).trans (h.absent b hb'.2)

end Case

section Exact

variable [DecidableEq B] {done : List (APInt × B)} {t : SwitchTargets B} {c : APInt × B}
  (hexact : executor.timing.solver.AlwaysExact) (hpath : Decides executor.timing.opts cs S)
  (hsat : ∃ ρ, S ρ) (hcond : Computes executor.timing.opts S cond w x)

include hexact hpath hsat hcond

lemma addCase_spec (h : Collected executor.timing.opts S x done t) (hc : c.1.width = w) :
    ∃ t', executor.addCase cs cond t c = some t' ∧
      Collected executor.timing.opts S x (c :: done) t' := by
  have hpos : 0 < c.1.width := by
    rw [hc, ← hcond.ofWidth.width_eq]
    exact hcond.ofWidth.typed.width_pos
  have hmatch : Tests executor.timing.opts S
      (EqExpr.create executor.timing.opts cond (.const c.1)) fun ρ => x ρ = c.1 :=
    Tests.eq hcond (hc ▸ Computes.const hpos)
  have hdefault := (h.defaultValue.and hmatch.createIsZero).congr
    (Q := fun ρ => ∀ d ∈ c :: done, x ρ ≠ d.1) fun ρ _ => by simp [and_comm]
  obtain ⟨result, hmay, hiff⟩ := TimingSolver.mayBeTrue_spec hexact hpath hsat hmatch
  rw [Executor.addCase, hmay]
  cases result with
  | true => exact ⟨_, rfl, h.feasible hmatch hdefault (hiff.1 rfl)⟩
  | false => exact ⟨_, rfl, h.infeasible hdefault (mt hiff.2 Bool.false_ne_true)⟩

lemma addCases_spec (cases : List (APInt × B)) (hcases : ∀ c ∈ cases, c.1.width = w)
    (h : Collected executor.timing.opts S x done t) :
    ∃ t', cases.foldlM (executor.addCase cs cond) t = some t' ∧
      Collected executor.timing.opts S x (cases.reverse ++ done) t' := by
  induction cases generalizing done t with
  | nil => exact ⟨t, rfl, h⟩
  | cons c cases ih =>
    obtain ⟨t₁, hstep, h₁⟩ := addCase_spec hexact hpath hsat hcond h (hcases c (by simp))
    obtain ⟨t₂, hrun, h₂⟩ := ih (fun d hd => hcases d (mem_cons_of_mem _ hd)) h₁
    refine ⟨t₂, ?_, by simpa using h₂⟩
    rw [foldlM_cons, hstep]
    exact hrun

end Exact

/-! ### The states of a switch -/

variable {si : SwitchInst B}

/-- Some feasible case leads to the block of the default. -/
def SwitchInst.DefaultShared (si : SwitchInst B) (S : Valuation → Prop) (x : Valuation → APInt) :
    Prop :=
  ∃ c ∈ si.cases, c.2 = si.defaultDest ∧ Feasible S x c

/-- The assignments that go to the block `b`. -/
def SwitchInst.Group (si : SwitchInst B) (S : Valuation → Prop) (x : Valuation → APInt) (b : B)
    (ρ : Valuation) : Prop :=
  (∃ c ∈ si.cases, c.2 = b ∧ x ρ = c.1) ∨
    b = si.defaultDest ∧ ¬ si.DefaultShared S x ∧ ∀ c ∈ si.cases, x ρ ≠ c.1

/-- The groups of a switch: the blocks that are reached, each with its condition. -/
structure Grouped (o : Opts) (S : Valuation → Prop) (x : Valuation → APInt) (si : SwitchInst B)
    (t : SwitchTargets B) : Prop where
  nodup : t.bbOrder.Nodup
  mem_bbOrder : ∀ b, b ∈ t.bbOrder ↔ ∃ ρ, S ρ ∧ si.Group S x b ρ
  target : ∀ b ∈ t.bbOrder, ∃ e, t.branchTargets b = some e ∧ Tests o S e (si.Group S x b)

section Default

variable {t : SwitchTargets B} {o : Opts} {done : List (APInt × B)}

lemma Collected.defaultShared_iff (h : Collected o S x done t) (hdone : done.Perm si.cases) :
    si.defaultDest ∈ t.bbOrder ↔ si.DefaultShared S x := by
  rw [h.mem_bbOrder, SwitchInst.DefaultShared]
  simp only [hdone.mem_iff]

/-- A block that is not the target of the default. -/
lemma Collected.group_iff (h : Collected o S x done t) (hdone : done.Perm si.cases) {b : B}
    (hb : b ∈ t.bbOrder) (ρ : Valuation) :
    si.Group S x b ρ ↔ ∃ c ∈ done, c.2 = b ∧ x ρ = c.1 := by
  simp only [SwitchInst.Group, hdone.mem_iff]
  refine or_iff_left ?_
  rintro ⟨rfl, hnot, -⟩
  exact hnot ((h.defaultShared_iff hdone).1 hb)

/-- The default is not feasible, or its block has a group already. -/
lemma Collected.grouped (h : Collected o S x done t) (hdone : done.Perm si.cases)
    (hdefault : (∃ ρ, S ρ ∧ ∀ c ∈ done, x ρ ≠ c.1) → si.defaultDest ∈ t.bbOrder) :
    Grouped o S x si t where
  nodup := h.nodup
  mem_bbOrder b := by
    constructor
    · intro hb
      obtain ⟨c, hc, hcb, ρ, hρ, heq⟩ := (h.mem_bbOrder b).1 hb
      exact ⟨ρ, hρ, (h.group_iff hdone hb ρ).2 ⟨c, hc, hcb, heq⟩⟩
    · rintro ⟨ρ, hρ, ⟨c, hc, hcb, heq⟩ | ⟨rfl, -, hall⟩⟩
      · exact (h.mem_bbOrder b).2 ⟨c, hdone.mem_iff.2 hc, hcb, ρ, hρ, heq⟩
      · exact hdefault ⟨ρ, hρ, fun c hc => hall c (hdone.mem_iff.1 hc)⟩
  target b hb := by
    obtain ⟨e, he, htests⟩ := h.target b hb
    exact ⟨e, he, htests.congr fun ρ _ => (h.group_iff hdone hb ρ).symm⟩

/-- The default gets a group of its own. -/
lemma Collected.grouped_default [DecidableEq B] (h : Collected o S x done t)
    (hdone : done.Perm si.cases) (hdefault : ∃ ρ, S ρ ∧ ∀ c ∈ done, x ρ ≠ c.1)
    (hnew : si.defaultDest ∉ t.bbOrder) :
    Grouped o S x si { t with
        branchTargets := Function.update t.branchTargets si.defaultDest (some t.defaultValue)
        bbOrder := t.bbOrder ++ [si.defaultDest] } := by
  have hshared : ¬ si.DefaultShared S x := mt (h.defaultShared_iff hdone).2 hnew
  have hgroup : ∀ ρ, S ρ → (si.Group S x si.defaultDest ρ ↔ ∀ c ∈ done, x ρ ≠ c.1) := by
    intro ρ hρ
    constructor
    · rintro (⟨c, hc, hcb, heq⟩ | ⟨-, -, hall⟩)
      · exact absurd ⟨c, hc, hcb, ρ, hρ, heq⟩ hshared
      · exact fun c hc => hall c (hdone.mem_iff.1 hc)
    · exact fun hall => Or.inr ⟨rfl, hshared, fun c hc => hall c (hdone.mem_iff.2 hc)⟩
  refine ⟨h.nodup.append (by simp) (by simpa using hnew), fun b => ?_, fun b hb => ?_⟩
  · rw [mem_append, mem_singleton]
    constructor
    · rintro (hb | rfl)
      · obtain ⟨c, hc, hcb, ρ, hρ, heq⟩ := (h.mem_bbOrder b).1 hb
        exact ⟨ρ, hρ, (h.group_iff hdone hb ρ).2 ⟨c, hc, hcb, heq⟩⟩
      · obtain ⟨ρ, hρ, hall⟩ := hdefault
        exact ⟨ρ, hρ, (hgroup ρ hρ).2 hall⟩
    · rintro ⟨ρ, hρ, ⟨c, hc, hcb, heq⟩ | ⟨rfl, -, -⟩⟩
      · exact Or.inl ((h.mem_bbOrder b).2 ⟨c, hdone.mem_iff.2 hc, hcb, ρ, hρ, heq⟩)
      · exact Or.inr rfl
  · by_cases hbd : b = si.defaultDest
    · subst hbd
      exact ⟨_, Function.update_self .., h.defaultValue.congr fun ρ hρ => (hgroup ρ hρ).symm⟩
    · have hb' : b ∈ t.bbOrder := by simpa [hbd] using hb
      obtain ⟨e, he, htests⟩ := h.target b hb'
      exact ⟨e, (Function.update_of_ne hbd ..).trans he,
        htests.congr fun ρ _ => (h.group_iff hdone hb' ρ).symm⟩

end Default

section Exact

variable [DecidableEq B] (hexact : executor.timing.solver.AlwaysExact)
  (hpath : Decides executor.timing.opts cs S) (hsat : ∃ ρ, S ρ)

include hexact hpath hsat

lemma addDefault_spec {t : SwitchTargets B} {done : List (APInt × B)}
    (h : Collected executor.timing.opts S x done t) (hdone : done.Perm si.cases) :
    ∃ t', executor.addDefault cs si.defaultDest t = some t' ∧
      Grouped executor.timing.opts S x si t' := by
  obtain ⟨res, hmay, hiff⟩ := TimingSolver.mayBeTrue_spec hexact hpath hsat h.defaultValue
  rw [Executor.addDefault, hmay]
  by_cases hin : si.defaultDest ∈ t.bbOrder
  · obtain ⟨e, he, -⟩ := h.target _ hin
    exact ⟨t, congrArg some (if_neg (by simp [he])), h.grouped hdone fun _ => hin⟩
  · cases res with
    | true =>
      exact ⟨_, congrArg some (if_pos (by simp [h.absent _ hin])),
        h.grouped_default hdone (hiff.1 rfl) hin⟩
    | false =>
      exact ⟨t, rfl, h.grouped hdone fun hfeasible =>
        absurd (hiff.2 hfeasible) Bool.false_ne_true⟩

lemma switchTargets_spec (hcond : Computes executor.timing.opts S cond w x) (hash : APInt → ℕ)
    (hwidth : ∀ c ∈ si.cases, c.1.width = w) (hcases : (si.cases.map Prod.fst).Nodup) :
    ∃ t, executor.switchTargets cs cond hash si = some t ∧
      Grouped executor.timing.opts S x si t := by
  have hperm := expressionOrder_perm hash hcases
  obtain ⟨t, hrun, ht⟩ := addCases_spec hexact hpath hsat hcond (expressionOrder hash si.cases)
    (fun c hc => hwidth c (hperm.mem_iff.1 hc)) (Collected.start _ S x)
  rw [append_nil] at ht
  obtain ⟨t', hdefault, ht'⟩ := addDefault_spec hexact hpath hsat ht ((reverse_perm _).trans hperm)
  exact ⟨t', by rw [Executor.switchTargets, hrun]; exact hdefault, ht'⟩

omit [DecidableEq B] in
/-- An expression with two values is left alone. -/
lemma toUnique_eq_self (hcond : Computes executor.timing.opts S cond w x)
    (hunique : ¬ ∃ v, ∀ ρ, S ρ → x ρ = v) :
    executor.toUnique cs cond = cond ∧ cond.constant? = none := by
  have hconst : cond.constant? = none := by
    by_contra hne
    obtain ⟨c, hc⟩ := Option.ne_none_iff_exists'.1 hne
    obtain rfl := Expr.constant?_eq_some.1 hc
    exact hunique ⟨c, fun ρ hρ => (hcond.hasValue ρ hρ).eval_eq.symm⟩
  refine ⟨?_, hconst⟩
  obtain ⟨v, hv, σ, hσ, hxσ⟩ := TimingSolver.getValue_spec hexact hpath hsat hcond
  have hpos : 0 < v.width := by
    rw [← hxσ, ← (hcond.hasValue σ hσ).ofWidth.width_eq]
    exact hcond.ofWidth.typed.width_pos
  have hvw : v.width = w := hxσ ▸ hcond.width_eq hσ
  obtain ⟨res, hmust, hiff⟩ := TimingSolver.mustBeTrue_spec hexact hpath hsat
    (Tests.eq hcond (hvw ▸ Computes.const hpos))
  have hres : res = false := by
    rw [← Bool.not_eq_true, hiff]
    exact fun hall => hunique ⟨v, hall⟩
  rw [Executor.toUnique, hconst, hv]
  simp only [hmust, hres]

end Exact

/-- The states that a switch leaves: one for each block that is reached. -/
structure SwitchStates (o : Opts) (S : Valuation → Prop) (x : Valuation → APInt)
    (si : SwitchInst B) (order : List B) (states : List (ExecutionState (Location B))) : Prop where
  nodup : order.Nodup
  mem_order : ∀ b, b ∈ order ↔ ∃ ρ, S ρ ∧ si.Group S x b ρ
  states : List.Forall₂ (fun (s : ExecutionState (Location B)) b =>
    Decides o s.constraints (fun ρ => S ρ ∧ si.Group S x b ρ) ∧ s.rest = ⟨b, si.parent⟩)
      states order

theorem executeSwitch_spec [DecidableEq B] (hexact : executor.timing.solver.AlwaysExact)
    {state : ExecutionState (Location B)}
    (hpath : Decides executor.timing.opts state.constraints S) (hsat : ∃ ρ, S ρ)
    (hcond : Computes executor.timing.opts S cond w x) (hunique : ¬ ∃ v, ∀ ρ, S ρ → x ρ = v)
    (hash : APInt → ℕ) (picks : ℕ → ℕ) (hwidth : ∀ c ∈ si.cases, c.1.width = w)
    (hcases : (si.cases.map Prod.fst).Nodup) :
    ∃ states order, executor.executeSwitch cond hash picks si state = some states ∧
      SwitchStates executor.timing.opts S x si order states := by
  obtain ⟨hself, hconst⟩ := toUnique_eq_self hexact hpath hsat hcond hunique
  obtain ⟨t, htargets, ht⟩ := switchTargets_spec hexact hpath hsat hcond hash hwidth hcases
  obtain ⟨conditions, hconditions, htests⟩ := Aligned.mapM_eq_some
    (R := fun e P => Tests executor.timing.opts S e P ∧ ∃ ρ, S ρ ∧ P ρ)
    (g := si.Group S x) t.bbOrder (by
      intro b hb
      obtain ⟨e, he, htests⟩ := ht.target b hb
      exact ⟨e, he, htests, (ht.mem_bbOrder b).1 hb⟩)
  -- some block is reached
  have hne : conditions ≠ [] := by
    rintro rfl
    obtain ⟨ρ, hρ⟩ := hsat
    have hempty : t.bbOrder = [] := by simpa using htests
    have hnone : ∀ b, ¬ si.Group S x b ρ := fun b hb => by
      simpa [hempty] using (ht.mem_bbOrder b).2 ⟨ρ, hρ, hb⟩
    have hall : ∀ c ∈ si.cases, x ρ ≠ c.1 := fun c hc heq =>
      hnone c.2 (Or.inl ⟨c, hc, rfl, heq⟩)
    refine hnone si.defaultDest (Or.inr ⟨rfl, ?_, hall⟩)
    rintro ⟨c, hc, -, σ, hσ, heq⟩
    simpa [hempty] using (ht.mem_bbOrder c.2).2 ⟨σ, hσ, Or.inl ⟨c, hc, rfl, heq⟩⟩
  obtain ⟨branches, hbranch, hstates⟩ := Executor.branch_spec picks hpath hne htests
  refine ⟨List.zipWith (fun b es => transferToBasicBlock b si.parent es) t.bbOrder branches,
    t.bbOrder, ?_, ht.nodup, ht.mem_bbOrder, ?_⟩
  · rw [Executor.executeSwitch, hself]
    simp only [hconst, htargets, hconditions, hbranch, Option.bind_some, Option.map_some]
  · rw [List.forall₂_map_right_iff] at hstates
    clear hbranch hconditions htests ht htargets
    generalize t.bbOrder = order at hstates ⊢
    induction hstates with
    | nil => exact .nil
    | cons hs _ ih => exact .cons ⟨hs.1, rfl⟩ ih

/-! ### The successor -/

lemma SwitchInst.successor_case (hcases : (si.cases.map Prod.fst).Nodup) {c : APInt × B}
    (hc : c ∈ si.cases) : si.successor c.1 = c.2 := by
  obtain ⟨d, hd⟩ := Option.isSome_iff_exists.1
    (List.find?_isSome (p := fun d : APInt × B => d.1 = c.1) |>.2 ⟨c, hc, by simp⟩)
  have hdc : d = c := by
    refine inj_on_of_nodup_map hcases (mem_of_find?_eq_some hd) hc ?_
    simpa using List.find?_some hd
  rw [SwitchInst.successor, hd, hdc]
  rfl

lemma SwitchInst.successor_default {v : APInt} (h : ∀ c ∈ si.cases, v ≠ c.1) :
    si.successor v = si.defaultDest := by
  rw [SwitchInst.successor, List.find?_eq_none.2]
  · rfl
  · exact fun c hc heq => h c hc (by simpa using (of_decide_eq_true heq).symm)

/-- An assignment is in no group but that of its successor. -/
lemma SwitchInst.group_successor (hcases : (si.cases.map Prod.fst).Nodup) {b : B} {ρ : Valuation}
    (h : si.Group S x b ρ) : b = si.successor (x ρ) := by
  rcases h with ⟨c, hc, rfl, heq⟩ | ⟨rfl, -, hall⟩
  · rw [heq, si.successor_case hcases hc]
  · rw [si.successor_default hall]

/-- The default can be taken, and so can a case with the same block. -/
def SwitchInst.LosesDefault (si : SwitchInst B) (S : Valuation → Prop) (x : Valuation → APInt) :
    Prop :=
  (∃ ρ, S ρ ∧ ∀ c ∈ si.cases, x ρ ≠ c.1) ∧ si.DefaultShared S x

lemma SwitchInst.group_of_not_loses (hcases : (si.cases.map Prod.fst).Nodup)
    (h : ¬ si.LosesDefault S x) {ρ : Valuation} (hρ : S ρ) :
    si.Group S x (si.successor (x ρ)) ρ := by
  by_cases hall : ∀ c ∈ si.cases, x ρ ≠ c.1
  · rw [si.successor_default hall]
    exact Or.inr ⟨rfl, fun hshared => h ⟨⟨ρ, hρ, hall⟩, hshared⟩, hall⟩
  · push Not at hall
    obtain ⟨c, hc, heq⟩ := hall
    rw [heq]
    exact Or.inl ⟨c, hc, (si.successor_case hcases hc).symm, heq⟩

/-- The assignments of a lost default are in no group. -/
lemma SwitchInst.not_group (h : si.DefaultShared S x) {ρ : Valuation}
    (hall : ∀ c ∈ si.cases, x ρ ≠ c.1) (b : B) : ¬ si.Group S x b ρ := by
  rintro (⟨c, hc, -, heq⟩ | ⟨-, hnot, -⟩)
  · exact hall c hc heq
  · exact hnot h

namespace SwitchStates

variable {o : Opts} {order : List B} {states : List (ExecutionState (Location B))}

theorem dispatches (h : SwitchStates o S x si order states)
    (hcases : (si.cases.map Prod.fst).Nodup) (hlost : ¬ si.LosesDefault S x) :
    Dispatches S (fun ρ s => s.rest.block = si.successor (x ρ)) states := by
  refine .of_aligned h.states (fun hs => hs.1.holds_iff) ?_ fun ρ hρ => ?_
  · refine h.nodup.imp fun {b c} hne ρ hbc => hne ?_
    rw [si.group_successor hcases hbc.1, si.group_successor hcases hbc.2]
  · have hgroup := si.group_of_not_loses hcases hlost hρ
    exact ⟨_, (h.mem_order _).2 ⟨ρ, hρ, hgroup⟩, hgroup, fun s hs => by rw [hs.2]⟩

/-- The assignments of a lost default satisfy the constraints of no state. -/
theorem not_admits (h : SwitchStates o S x si order states) (hshared : si.DefaultShared S x)
    {ρ : Valuation} (hall : ∀ c ∈ si.cases, x ρ ≠ c.1) : ∀ s ∈ states, ¬ s.Admits ρ := by
  intro s hs hρ
  obtain ⟨b, -, hdec, -⟩ := Aligned.exists_right h.states hs
  exact si.not_group hshared hall b ((hdec.holds_iff ρ).1 hρ).2

end SwitchStates

end Spec

/-- A symbolic switch sends every assignment of the path to exactly one state, which continues in
the block the switch selects, unless the default and a case with the block of the default can
both be taken. -/
theorem executeSwitch_dispatches_iff [DecidableEq B] (executor : Executor)
    (hexact : executor.timing.solver.AlwaysExact) (hash : APInt → ℕ) (picks : ℕ → ℕ)
    (si : SwitchInst B) (hcases : (si.cases.map Prod.fst).Nodup) (cond : Expr) (w : ℕ)
    (hcond : cond.OfWidth w) (hwidth : ∀ c ∈ si.cases, c.1.width = w)
    (state : ExecutionState (Location B))
    (hpath : Decides executor.timing.opts state.constraints state.Admits)
    (hsat : ∃ ρ, state.Admits ρ)
    (hdefined : ∀ ρ, state.Admits ρ → cond.Defined executor.timing.opts ρ)
    (hunique : ¬ ∃ v, ∀ ρ, state.Admits ρ → cond.eval ρ = v) :
    (∃ states, executor.executeSwitch cond hash picks si state = some states ∧
      Dispatches state.Admits (fun ρ s => s.rest.block = si.successor (cond.eval ρ)) states) ↔
    ¬ si.LosesDefault state.Admits fun ρ => cond.eval ρ := by
  obtain ⟨states, order, hrun, hstates⟩ := executeSwitch_spec hexact hpath hsat
    (.of_defined hcond hdefined) hunique hash picks hwidth hcases
  rw [hrun]
  constructor
  · rintro ⟨_, heq, hdispatch⟩ ⟨⟨ρ, hρ, hall⟩, hshared⟩
    obtain rfl := Option.some.inj heq
    obtain ⟨s, hs, hadmits, -⟩ := hdispatch.covered ρ hρ
    exact hstates.not_admits hshared hall s hs hadmits
  · exact fun hlost => ⟨states, rfl, hstates.dispatches hcases hlost⟩

/-! ### Examples -/

section Example

open ConstraintManager (byteX)

/-- A switch on a byte with a case 1 and a case 2. -/
def twoCases (first second defaultDest : ℕ) : SwitchInst ℕ :=
  ⟨0, [(.ofNat 8 1, first), (.ofNat 8 2, second)], defaultDest⟩

/-- A state before a switch. -/
def entry : ExecutionState (Location ℕ) := .unconstrained ⟨0, 0⟩

lemma entry_admits (ρ : Valuation) : entry.Admits ρ := ExecutionState.unconstrained_admits _ ρ

lemma byteX_not_unique : ¬ ∃ v, ∀ ρ, entry.Admits ρ → byteX.eval ρ = v := by
  rintro ⟨v, hv⟩
  have h0 := hv (fun _ _ => 0) (entry_admits _)
  have h1 := hv (fun _ _ => 1) (entry_admits _)
  rw [byteX_eval] at h0 h1
  exact absurd (h0.trans h1.symm) (by decide)

lemma twoCases_nodup (first second defaultDest : ℕ) :
    ((twoCases first second defaultDest).cases.map Prod.fst).Nodup := by
  simp only [twoCases, List.map]
  decide

lemma twoCases_width (first second defaultDest : ℕ) :
    ∀ c ∈ (twoCases first second defaultDest).cases, c.1.width = 8 := by
  simp [twoCases]

/-- Two cases share a block, and the default has its own. -/
theorem executeSwitch_dispatches_sharedCases : ∃ states,
      plainExecutor.executeSwitch byteX APInt.toNat id (twoCases 1 1 2) entry = some states ∧
      Dispatches entry.Admits
        (fun ρ s => s.rest.block = (twoCases 1 1 2).successor (byteX.eval ρ)) states := by
  refine (executeSwitch_dispatches_iff plainExecutor plainExecutor_unlimited.exact APInt.toNat id
    (twoCases 1 1 2) (twoCases_nodup ..) byteX 8 byteX_ofWidth (twoCases_width 1 1 2) entry
    (ExecutionState.unconstrained_path ..) ⟨fun _ _ => 0, entry_admits _⟩
    (fun ρ _ => byteX_defined _ ρ) byteX_not_unique).2 ?_
  rintro ⟨-, c, hc, hdefault, -⟩
  rcases mem_pair.1 hc with rfl | rfl <;> exact absurd hdefault (by decide)

/-- The case 2 leads to the block of the default.  Then no state follows the assignment 5. -/
theorem executeSwitch_sharedDefault : ∃ states,
      plainExecutor.executeSwitch byteX APInt.toNat id (twoCases 1 3 3) entry = some states ∧
      entry.Admits (fun _ _ => 5) ∧ ∀ s ∈ states, ¬ s.Admits fun _ _ => 5 := by
  obtain ⟨states, order, hrun, hstates⟩ := executeSwitch_spec plainExecutor_unlimited.exact
    (ExecutionState.unconstrained_path ..) ⟨fun _ _ => 0, entry_admits _⟩
    (.of_defined byteX_ofWidth fun ρ _ => byteX_defined _ ρ) byteX_not_unique APInt.toNat id
    (twoCases_width 1 3 3) (twoCases_nodup 1 3 3)
  refine ⟨states, hrun, entry_admits _, hstates.not_admits ?_ ?_⟩
  · exact ⟨(.ofNat 8 2, 3), by simp [twoCases], rfl, fun _ _ => 2, entry_admits _, byteX_eval 2⟩
  · simp only [byteX_eval, twoCases]
    decide

end Example

end Castan
