/-
# Splitting a state

`Executor::fork` splits a state in two on a Boolean expression, `Executor::branch` in several on
a list of them.  Each resulting state follows the assignments of the old one under which its
condition is true; everything else is copied.
-/
import Castan.Core.TimingSolver
import Castan.Lib.Aligned

namespace Castan

open List

variable {S : Valuation → Prop}

/-- The parts of an `ExecutionState` that a split reads or changes, and the rest. -/
structure ExecutionState (α : Type) where
  constraints : List Expr
  depth : ℕ
  rest : α

variable {α : Type}

namespace ExecutionState

/-- `ExecutionState::branch`: the state and its copy. -/
def branch (state : ExecutionState α) : ExecutionState α × ExecutionState α :=
  ({ state with depth := state.depth + 1 }, { state with depth := state.depth + 1 })

/-- The assignments that satisfy the constraints. -/
def Admits (state : ExecutionState α) (ρ : Valuation) : Prop := ∀ c ∈ state.constraints, c.Holds ρ

end ExecutionState

/-- The solver and what limits the forks; there are no seeds, no replay and no cap on the number
of forks. -/
structure Executor where
  timing : TimingSolver
  /-- The memory limit or a flag forbids forking. -/
  inhibitForking : Bool
  /-- `theRNG.getBool()` -/
  coin : Bool
  /-- `MaxDepth`, zero for no limit. -/
  maxDepth : ℕ

namespace Executor

variable (executor : Executor)

/-- `Executor::addConstraint`, with `none` for the fatal error and a failed assertion. -/
def addConstraint (state : ExecutionState α) (condition : Expr) : Option (ExecutionState α) :=
  match condition.constant? with
  | some c => if c.isTrue then some state else none
  | none => (ConstraintManager.addConstraint executor.timing.opts state.constraints condition).map
      fun constraints => { state with constraints }

/-- `Executor::fork`: the states in which the condition is true and false.  The current state
object is the first one if there is one, and the second one otherwise. -/
def fork (current : ExecutionState α) (condition : Expr) :
    Option (Option (ExecutionState α) × Option (ExecutionState α)) :=
  let isZero := condition.createIsZero executor.timing.opts
  match executor.timing.evaluate current.constraints condition with
  | none => some (none, none)
  | some .isTrue => some (some current, none)
  | some .isFalse => some (none, some current)
  | some .unknown =>
    if executor.inhibitForking then
      if executor.coin then
        (executor.addConstraint current condition).map fun state => (some state, none)
      else (executor.addConstraint current isZero).map fun state => (none, some state)
    else
      let (trueState, falseState) := current.branch
      (executor.addConstraint trueState condition).bind fun trueState =>
        (executor.addConstraint falseState isZero).map fun falseState =>
          if executor.maxDepth ≠ 0 ∧ executor.maxDepth ≤ trueState.depth then (none, none)
          else (some trueState, some falseState)

/-- The copies that `Executor::branch` makes: the `i`-th one is of a state picked at random. -/
def branchCopies (picks : ℕ → ℕ) (state : ExecutionState α) : ℕ → List (ExecutionState α)
  | 0 => [state]
  | i + 1 =>
    let result := branchCopies picks state i
    match result[picks i % (i + 1)]? with
    | none => result
    | some es => result.set (picks i % (i + 1)) es.branch.1 ++ [es.branch.2]

/-- `Executor::branch`: one state for each condition, with `none` for a failed assertion. -/
def branch (picks : ℕ → ℕ) (state : ExecutionState α) (conditions : List Expr) :
    Option (List (ExecutionState α)) :=
  if conditions = [] then none
  else ((branchCopies picks state (conditions.length - 1)).zip conditions).mapM fun p =>
    executor.addConstraint p.1 p.2

/-- An exact solver, and no limits on the forks. -/
structure Unlimited : Prop where
  exact : executor.timing.solver.AlwaysExact
  inhibitForking : executor.inhibitForking = false
  maxDepth : executor.maxDepth = 0

variable {executor} {S P : Valuation → Prop} {state : ExecutionState α} {e : Expr}

/-! ### One condition -/

lemma addConstraint_spec (state : ExecutionState α)
    (hpath : Decides executor.timing.opts state.constraints S)
    (he : Tests executor.timing.opts S e P) (hsat : ∃ ρ, S ρ ∧ P ρ) :
    ∃ constraints, executor.addConstraint state e = some { state with constraints } ∧
      Decides executor.timing.opts constraints fun ρ => S ρ ∧ P ρ := by
  obtain ⟨σ, hσ, hPσ⟩ := hsat
  have hiff : ∀ ρ, S ρ ∧ e.Holds ρ ↔ S ρ ∧ P ρ := fun ρ =>
    and_congr_right fun hρ => he.holds_iff ρ hρ
  unfold addConstraint
  rcases hc : e.constant? with _ | c
  · obtain ⟨cs', hadd, hcs'⟩ := hpath.addConstraint he.isConstraint he.defined
      ⟨σ, (hiff σ).2 ⟨hσ, hPσ⟩⟩
    exact ⟨cs', by rw [hadd]; rfl, hcs'.congr hiff⟩
  · -- a constant that is true somewhere is true everywhere
    obtain rfl := Expr.constant?_eq_some.1 hc
    have htrue : c.isTrue = true := (he.isTrue_iff hσ).2 hPσ
    refine ⟨state.constraints, if_pos htrue, hpath.congr fun ρ => ?_⟩
    exact ⟨fun hρ => ⟨hρ, (he.isTrue_iff hρ).1 htrue⟩, And.left⟩

/-- What a split leaves for the assignments in `S` with `P`: a state that follows them, or nothing
if there are none. -/
def Side (o : Opts) (S P : Valuation → Prop) (state : ExecutionState α) :
    Option (ExecutionState α) → Prop
  | none => ∀ ρ, S ρ → ¬ P ρ
  | some state' => (∃ ρ, S ρ ∧ P ρ) ∧ Decides o state'.constraints (fun ρ => S ρ ∧ P ρ) ∧
      state'.rest = state.rest

theorem fork_spec (hexec : executor.Unlimited)
    (hpath : Decides executor.timing.opts state.constraints S) (hsat : ∃ ρ, S ρ)
    (he : Tests executor.timing.opts S e P) :
    ∃ trueState falseState, executor.fork state e = some (trueState, falseState) ∧
      Side executor.timing.opts S P state trueState ∧
      Side executor.timing.opts S (fun ρ => ¬ P ρ) state falseState := by
  obtain ⟨result, heval, hverdict⟩ := TimingSolver.evaluate_spec hexec.exact hpath hsat he
  unfold fork
  rw [heval]
  cases result with
  | isTrue =>
    obtain ⟨σ, hσ⟩ := hsat
    refine ⟨some state, none, rfl, ⟨⟨σ, hσ, hverdict σ hσ⟩, hpath.congr fun ρ => ?_, rfl⟩, ?_⟩
    · exact ⟨fun hρ => ⟨hρ, hverdict ρ hρ⟩, And.left⟩
    · exact fun ρ hρ hnot => hnot (hverdict ρ hρ)
  | isFalse =>
    obtain ⟨σ, hσ⟩ := hsat
    refine ⟨none, some state, rfl, hverdict, ⟨σ, hσ, hverdict σ hσ⟩, hpath.congr fun ρ => ?_, rfl⟩
    exact ⟨fun hρ => ⟨hρ, hverdict ρ hρ⟩, And.left⟩
  | unknown =>
    obtain ⟨hmay, hmay'⟩ := hverdict
    obtain ⟨cs, hadd, hcs⟩ := addConstraint_spec state.branch.1 hpath he hmay
    obtain ⟨cs', hadd', hcs'⟩ :=
      addConstraint_spec state.branch.2 hpath he.createIsZero hmay'
    refine ⟨some { state.branch.1 with constraints := cs },
      some { state.branch.2 with constraints := cs' }, ?_, ⟨hmay, hcs, rfl⟩, hmay', hcs', rfl⟩
    simp [hexec.inhibitForking, hexec.maxDepth, hadd, hadd']

/-! ### Several conditions -/

lemma branchCopies_spec (picks : ℕ → ℕ) (state : ExecutionState α) (n : ℕ) :
    (branchCopies picks state n).length = n + 1 ∧ ∀ s ∈ branchCopies picks state n,
        s.constraints = state.constraints ∧ s.rest = state.rest := by
  induction n with
  | zero => simp [branchCopies]
  | succ n ih =>
    obtain ⟨hlength, hcopy⟩ := ih
    have hlt : picks n % (n + 1) < (branchCopies picks state n).length := by
      rw [hlength]
      exact Nat.mod_lt _ (Nat.succ_pos n)
    have hes := hcopy _ (getElem_mem hlt)
    rw [branchCopies, List.getElem?_eq_getElem hlt]
    refine ⟨by simp [hlength], fun s hs => ?_⟩
    rcases mem_append.1 hs with hs | hs
    · rcases mem_or_eq_of_mem_set hs with hs | rfl
      · exact hcopy s hs
      · exact hes
    · rw [mem_singleton.1 hs]
      exact hes

/-- Each resulting state follows the assignments of its condition. -/
theorem branch_spec (picks : ℕ → ℕ) (hpath : Decides executor.timing.opts state.constraints S)
    {conditions : List Expr} {parts : List (Valuation → Prop)} (hne : conditions ≠ [])
    (htests : List.Forall₂ (fun e P => Tests executor.timing.opts S e P ∧ ∃ ρ, S ρ ∧ P ρ)
      conditions parts) :
    ∃ states, executor.branch picks state conditions = some states ∧
      List.Forall₂ (fun (s : ExecutionState α) P =>
        Decides executor.timing.opts s.constraints (fun ρ => S ρ ∧ P ρ) ∧ s.rest = state.rest)
        states parts := by
  obtain ⟨hlength, hcopy⟩ := branchCopies_spec picks state (conditions.length - 1)
  rw [Nat.sub_add_cancel (length_pos_iff.2 hne)] at hlength
  unfold branch
  rw [if_neg hne]
  generalize branchCopies picks state (conditions.length - 1) = copies at hlength hcopy
  -- one copy and one condition after the other
  clear hne
  induction htests generalizing copies with
  | nil => exact ⟨[], by simp, .nil⟩
  | @cons e P es Ps he _ ih =>
    obtain ⟨s, copies, rfl⟩ := exists_cons_of_length_eq_add_one hlength
    obtain ⟨hcs, hrest⟩ := hcopy s (by simp)
    obtain ⟨cs, hadd, hdec⟩ := addConstraint_spec s (hcs ▸ hpath) he.1 he.2
    obtain ⟨states, hmap, hall⟩ := ih copies (by simpa using hlength)
      fun s hs => hcopy s (mem_cons_of_mem _ hs)
    exact ⟨{ s with constraints := cs } :: states, by simp [hadd, hmap], .cons ⟨hdec, hrest⟩ hall⟩

end Executor

/-! ### Partitions of the assignments -/

/-- Every assignment in `S` satisfies the constraints of exactly one of the states, and that state
is as `Q` says; no other assignment satisfies the constraints of a state. -/
structure Dispatches (S : Valuation → Prop) (Q : Valuation → ExecutionState α → Prop)
    (states : List (ExecutionState α)) : Prop where
  within : ∀ s ∈ states, ∀ ρ, s.Admits ρ → S ρ
  apart : states.Pairwise fun s t => ∀ ρ, ¬ (s.Admits ρ ∧ t.Admits ρ)
  covered : ∀ ρ, S ρ → ∃ s ∈ states, s.Admits ρ ∧ Q ρ s

/-- States that are aligned with labels, each of which stands for a part of the assignments. -/
lemma Dispatches.of_aligned {β : Type}
    {Q : Valuation → ExecutionState α → Prop} {R : ExecutionState α → β → Prop}
    {part : β → Valuation → Prop} {states : List (ExecutionState α)} {labels : List β}
    (hstates : List.Forall₂ R states labels)
    (hadmits : ∀ {s b}, R s b → ∀ ρ, s.Admits ρ ↔ S ρ ∧ part b ρ)
    (hapart : labels.Pairwise fun b c => ∀ ρ, ¬ (part b ρ ∧ part c ρ))
    (hcovered : ∀ ρ, S ρ → ∃ b ∈ labels, part b ρ ∧ ∀ s, R s b → Q ρ s) :
    Dispatches S Q states where
  within s hs ρ hρ := by
    obtain ⟨b, -, hR⟩ := Aligned.exists_right hstates hs
    exact ((hadmits hR ρ).1 hρ).1
  apart := Aligned.pairwise hstates hapart fun hR hR' hnot ρ ⟨hρ, hρ'⟩ =>
    hnot ρ ⟨((hadmits hR ρ).1 hρ).2, ((hadmits hR' ρ).1 hρ').2⟩
  covered ρ hρ := by
    obtain ⟨b, hb, hpart, hQ⟩ := hcovered ρ hρ
    obtain ⟨s, hs, hR⟩ := Aligned.exists_left hstates hb
    exact ⟨s, hs, (hadmits hR ρ).2 ⟨hρ, hpart⟩, hQ s hR⟩

/-- A state that follows all the assignments. -/
lemma Dispatches.singleton {o : Opts}
    {Q : Valuation → ExecutionState α → Prop} {s : ExecutionState α}
    (hs : Decides o s.constraints S) (hQ : ∀ ρ, S ρ → Q ρ s) : Dispatches S Q [s] where
  within t ht ρ hρ := by
    rw [mem_singleton.1 ht] at hρ
    exact (hs.holds_iff ρ).1 hρ
  apart := pairwise_singleton _ _
  covered ρ hρ := ⟨s, mem_singleton_self s, (hs.holds_iff ρ).2 hρ, hQ ρ hρ⟩

lemma Dispatches.nil {Q : Valuation → ExecutionState α → Prop}
    (h : ∀ ρ, ¬ S ρ) : Dispatches S Q [] where
  within _ hs := absurd hs not_mem_nil
  apart := .nil
  covered ρ hρ := absurd hρ (h ρ)

/-- The states of the assignments with `P` and those of the others. -/
lemma Dispatches.append {P : Valuation → Prop} {Q : Valuation → ExecutionState α → Prop}
    {l l' : List (ExecutionState α)} (h : Dispatches (fun ρ => S ρ ∧ P ρ) Q l)
    (h' : Dispatches (fun ρ => S ρ ∧ ¬ P ρ) Q l') : Dispatches S Q (l ++ l') where
  within s hs ρ hρ := by
    rcases mem_append.1 hs with hs | hs
    · exact (h.within s hs ρ hρ).1
    · exact (h'.within s hs ρ hρ).1
  apart := by
    refine pairwise_append.2 ⟨h.apart, h'.apart, fun s hs t ht ρ hρ => ?_⟩
    exact (h'.within t ht ρ hρ.2).2 (h.within s hs ρ hρ.1).2
  covered ρ hρ := by
    by_cases hP : P ρ
    · obtain ⟨s, hs, hadmits, hQ⟩ := h.covered ρ ⟨hρ, hP⟩
      exact ⟨s, mem_append_left _ hs, hadmits, hQ⟩
    · obtain ⟨s, hs, hadmits, hQ⟩ := h'.covered ρ ⟨hρ, hP⟩
      exact ⟨s, mem_append_right _ hs, hadmits, hQ⟩

/-- An assignment is followed by one state. -/
lemma Dispatches.eq_of_admits {Q : Valuation → ExecutionState α → Prop}
    {l : List (ExecutionState α)} (h : Dispatches S Q l) {s t : ExecutionState α} (hs : s ∈ l)
    (ht : t ∈ l) {ρ : Valuation} (hsρ : s.Admits ρ) (htρ : t.Admits ρ) : s = t := by
  obtain ⟨i, hi, rfl⟩ := getElem_of_mem hs
  obtain ⟨j, hj, rfl⟩ := getElem_of_mem ht
  have hpair := pairwise_iff_getElem.1 h.apart
  rcases lt_trichotomy i j with hlt | rfl | hgt
  · exact absurd ⟨hsρ, htρ⟩ (hpair i j hi hj hlt ρ)
  · rfl
  · exact absurd ⟨htρ, hsρ⟩ (hpair j i hj hi hgt ρ)

/-- If what is known of the states decides another property, that property is one of the
assignments. -/
lemma Dispatches.iff_forall {F : Valuation → Prop} {Q Q' : Valuation → ExecutionState α → Prop}
    {l : List (ExecutionState α)} (h : Dispatches S Q l)
    (hQ : ∀ ρ s, Q ρ s → (Q' ρ s ↔ F ρ)) : Dispatches S Q' l ↔ ∀ ρ, S ρ → F ρ := by
  constructor
  · intro h' ρ hρ
    obtain ⟨s, hs, hsρ, hQs⟩ := h.covered ρ hρ
    obtain ⟨t, ht, htρ, hQt⟩ := h'.covered ρ hρ
    obtain rfl := h.eq_of_admits hs ht hsρ htρ
    exact (hQ ρ s hQs).1 hQt
  · intro hF
    refine ⟨h.within, h.apart, fun ρ hρ => ?_⟩
    obtain ⟨s, hs, hsρ, hQs⟩ := h.covered ρ hρ
    exact ⟨s, hs, hsρ, (hQ ρ s hQs).2 (hF ρ hρ)⟩

/-! ### A state and an executor for examples -/

section Example

open ConstraintManager (byteX byteX_typed)

/-- A state without constraints. -/
def ExecutionState.unconstrained (rest : α) : ExecutionState α := ⟨[], 0, rest⟩

lemma ExecutionState.unconstrained_admits (rest : α) (ρ : Valuation) :
    (unconstrained rest).Admits ρ := by
  simp [unconstrained, Admits]

lemma ExecutionState.unconstrained_path (o : Opts) (rest : α) :
    Decides o (unconstrained rest).constraints (unconstrained rest).Admits where
  isConstraint := by simp [unconstrained]
  allTrue _ _ := by simp [unconstrained, AllTrue]
  someFalse ρ hρ := absurd (unconstrained_admits rest ρ) hρ

/-- An executor without limits, whose solver prefers zeros. -/
noncomputable def plainExecutor : Executor :=
  ⟨⟨⟨true, true⟩, .preferring fun _ _ => 0, true⟩, false, true, 0⟩

lemma plainExecutor_unlimited : plainExecutor.Unlimited :=
  ⟨SolverImpl.preferring_exact _, rfl, rfl⟩

lemma byteX_ofWidth : byteX.OfWidth 8 := ⟨byteX_typed, ⟨trivial, trivial⟩, rfl⟩

lemma byteX_defined (o : Opts) (ρ : Valuation) : byteX.Defined o ρ := fun _ =>
  ⟨trivial, trivial, fun h => by simp [KArray.bytes, KArray.isSymbolicArray] at h⟩

lemma byteX_eval (n : ℕ) : byteX.eval (fun _ _ => n) = .ofNat 8 n := rfl

/-- A pointer that is a byte. -/
def pointerX : Expr := .zExt byteX 64

lemma pointerX_ofWidth : pointerX.OfWidth 64 :=
  ⟨⟨byteX_ofWidth.typed, by decide⟩, ⟨byteX_ofWidth.canon, rfl⟩, rfl⟩

lemma pointerX_defined (o : Opts) (ρ : Valuation) : pointerX.Defined o ρ := byteX_defined o ρ

lemma pointerX_lt (ρ : Valuation) : (pointerX.eval ρ).toNat < 2 ^ 8 := by
  have hbyte : (byteX.eval ρ).toNat < 2 ^ 8 := by
    have hwidth := Expr.eval_width ρ byteX_ofWidth.typed
    exact (hwidth.trans byteX_ofWidth.width_eq) ▸ APInt.toNat_lt _
  rwa [pointerX, Expr.eval, APInt.zExt_eq_ofNat, APInt.toNat_ofNat (by omega)]

end Example

end Castan
