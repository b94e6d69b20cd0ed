/-
# Indirect calls

The loop of the `Call` case of `Executor::executeInstruction` over the values of a function
pointer.  Each round asks for a value, splits it off the state that is left and enters the
function if there is one.  For the first value that is not a function the loop terminates the
state object it started with, which is the state of that value in the first round only.
-/
import Castan.Core.Fork

namespace Castan

open Executor List

/-- Where a call has led a state: the function it has entered and the error it was terminated
with. -/
structure CallStatus where
  entered : Option ℕ
  error : Option String
deriving DecidableEq

namespace CallStatus

/-- Before the call. -/
def running : CallStatus := ⟨none, none⟩

end CallStatus

/-- `Executor::executeCall`, up to the entry of the function. -/
def executeCall (addr : ℕ) (state : ExecutionState CallStatus) : ExecutionState CallStatus :=
  { state with rest := { state.rest with entered := some addr } }

/-- `Executor::terminateStateOnExecError` -/
def terminateStateOnExecError (message : String) (state : ExecutionState CallStatus) :
    ExecutionState CallStatus :=
  { state with rest := { state.rest with error := some message } }

/-- The variables of the loop.  The objects are numbered in the order of their creation: the
object 0 is `state`. -/
structure CallLoop where
  objects : List (ExecutionState CallStatus)
  free : ℕ
  hasInvalid : Bool

namespace Executor

variable (executor : Executor) (legalFunctions : ℕ → Bool) (v : Expr)

/-- What a round does with the value it has split off. -/
def resolveCall (value : APInt) (loop : CallLoop) : CallLoop :=
  if legalFunctions value.toNat then
    { loop with objects := loop.objects.modify loop.free (executeCall value.toNat) }
  else if loop.hasInvalid then loop
  else
    { loop with
      objects := loop.objects.modify 0 (terminateStateOnExecError "invalid function pointer")
      hasInvalid := true }

/-- The loop after a round that has split off a value, and whether there is another round. -/
def advanceCall (value : APInt) (loop : CallLoop) (trueState : ExecutionState CallStatus) :
    Option (ExecutionState CallStatus) → CallLoop × Bool :=
  let loop := resolveCall legalFunctions value
    { loop with objects := loop.objects.set loop.free trueState }
  fun
  | none => (loop, false)
  | some falseState =>
    ({ loop with objects := loop.objects ++ [falseState], free := loop.objects.length }, true)

/-- One round.  The result is `none` for a failed assertion. -/
def callStep (loop : CallLoop) : Option (CallLoop × Bool) :=
  loop.objects[loop.free]?.bind fun free =>
    (executor.timing.getValue free.constraints v).bind fun value =>
      (executor.fork free (EqExpr.create executor.timing.opts v (.const value))).bind fun res =>
        match res with
        | (some trueState, falseState) =>
          if 64 < value.width then none
          else some (advanceCall legalFunctions value loop trueState falseState)
        | (none, some falseState) =>
          some ({ loop with objects := loop.objects.set loop.free falseState }, true)
        | (none, none) => some (loop, false)

/-- The loop, for at most the given number of rounds. -/
def callLoop : ℕ → CallLoop → Option (List (ExecutionState CallStatus))
  | 0, _ => none
  | rounds + 1, loop =>
    (executor.callStep legalFunctions v loop).bind fun next =>
      if next.2 then callLoop rounds next.1 else some next.1.objects

/-- The states that an indirect call leaves. -/
def executeIndirectCall (rounds : ℕ) (state : ExecutionState CallStatus) :
    Option (List (ExecutionState CallStatus)) :=
  executor.callLoop legalFunctions v rounds ⟨[state], 0, false⟩

end Executor

/-! ### The objects of the loop -/

section Spec

variable {executor : Executor} {legalFunctions : ℕ → Bool} {v : Expr} {S : Valuation → Prop}
  {x : Valuation → APInt} {done : List APInt} {loop : CallLoop} {o : Opts}

/-- The status of the object `i`, which has the value `u`. -/
def CallStatus.ofValue (legalFunctions : ℕ → Bool) (hasInvalid : Bool) (i : ℕ) (u : APInt) :
    CallStatus :=
  ⟨if legalFunctions u.toNat then some u.toNat else none,
    if i = 0 ∧ hasInvalid = true then some "invalid function pointer" else none⟩

/-- The object `i` follows the assignments with the value `done[i]`. -/
def Resolved (o : Opts) (S : Valuation → Prop) (x : Valuation → APInt) (legalFunctions : ℕ → Bool)
    (hasInvalid : Bool) (objects : List (ExecutionState CallStatus)) (done : List APInt) : Prop :=
  ∀ i (s : ExecutionState CallStatus) u, objects[i]? = some s → done[i]? = some u →
    Decides o s.constraints (fun ρ => S ρ ∧ x ρ = u) ∧
      s.rest = .ofValue legalFunctions hasInvalid i u

/-- The loop has dealt with the values `done`. -/
structure CallInv (o : Opts) (S : Valuation → Prop) (x : Valuation → APInt)
    (legalFunctions : ℕ → Bool) (done : List APInt) (loop : CallLoop) : Prop where
  nodup : done.Nodup
  feasible : ∀ u ∈ done, ∃ ρ, S ρ ∧ x ρ = u
  length_eq : loop.objects.length = done.length + 1
  free_eq : loop.free = done.length
  hasInvalid : loop.hasInvalid = done.any fun u => !legalFunctions u.toNat
  resolved : Resolved o S x legalFunctions loop.hasInvalid loop.objects done
  free_ok : ∀ s, loop.objects[loop.free]? = some s →
    Decides o s.constraints (fun ρ => S ρ ∧ x ρ ∉ done) ∧ s.rest = .running
  sat : ∃ ρ, S ρ ∧ x ρ ∉ done

lemma resolveCall_hasInvalid (value : APInt) :
    (resolveCall legalFunctions value loop).hasInvalid =
      (loop.hasInvalid || !legalFunctions value.toNat) := by
  unfold resolveCall
  split_ifs with h h' <;> simp_all

@[simp] lemma resolveCall_length (value : APInt) :
    (resolveCall legalFunctions value loop).objects.length = loop.objects.length := by
  unfold resolveCall
  split_ifs <;> simp

/-- What a round does to the status of the object `i`. -/
def CallStatus.resolve (legalFunctions : ℕ → Bool) (value : APInt) (loop : CallLoop) (i : ℕ)
    (status : CallStatus) : CallStatus :=
  if legalFunctions value.toNat then
    if i = loop.free then { status with entered := some value.toNat } else status
  else if loop.hasInvalid = false ∧ i = 0 then
    { status with error := some "invalid function pointer" }
  else status

lemma resolveCall_getElem? (value : APInt) (i : ℕ) :
    (resolveCall legalFunctions value loop).objects[i]? = loop.objects[i]?.map fun s =>
        { s with rest := CallStatus.resolve legalFunctions value loop i s.rest } := by
  unfold resolveCall CallStatus.resolve
  by_cases hlegal : legalFunctions value.toNat = true
  · rw [if_pos hlegal, getElem?_modify]
    congr 1
    funext s
    by_cases hi : i = loop.free
    · simp [hlegal, hi, executeCall]
    · simp [hlegal, hi, Ne.symm hi]
  · by_cases hinvalid : loop.hasInvalid = true
    · simp [hlegal, hinvalid]
    · rw [if_neg hlegal, if_neg hinvalid, getElem?_modify]
      congr 1
      funext s
      by_cases hi : i = 0
      · simp [hlegal, hinvalid, hi, terminateStateOnExecError]
      · simp [hlegal, hi, Ne.symm hi]

/-- The value that was split off joins the others. -/
lemma resolveCall_resolved (h : CallInv o S x legalFunctions done loop) (u : APInt)
    {trueState : ExecutionState CallStatus}
    (htrue : Decides o trueState.constraints fun ρ => S ρ ∧ x ρ = u)
    (hrest : trueState.rest = .running) :
    Resolved o S x legalFunctions (loop.hasInvalid || !legalFunctions u.toNat)
      (resolveCall legalFunctions u
        { loop with objects := loop.objects.set loop.free trueState }).objects (done ++ [u]) := by
  intro i s u' hs hu'
  rw [resolveCall_getElem?, Option.map_eq_some_iff] at hs
  obtain ⟨s₀, hs₀, rfl⟩ := hs
  have hlt := (List.getElem?_eq_some_iff.1 hu').1
  rw [length_append, length_singleton] at hlt
  by_cases hi : i = loop.free
  · -- the state of the new value
    subst hi
    rw [getElem?_set_self (by rw [h.length_eq, h.free_eq]; omega)] at hs₀
    obtain rfl := Option.some.inj hs₀
    rw [h.free_eq, getElem?_concat_length] at hu'
    obtain rfl := Option.some.inj hu'
    refine ⟨htrue, ?_⟩
    have hzero : loop.free = 0 → loop.hasInvalid = false := fun h0 => by
      rw [h.hasInvalid, eq_nil_of_length_eq_zero (h.free_eq.symm.trans h0)]
      rfl
    rw [hrest]
    by_cases h0 : loop.free = 0
    · cases hlegal : legalFunctions u.toNat <;>
        simp [CallStatus.resolve, CallStatus.ofValue, CallStatus.running, hlegal, h0, hzero h0]
    · cases hlegal : legalFunctions u.toNat <;>
        simp [CallStatus.resolve, CallStatus.ofValue, CallStatus.running, hlegal, h0]
  · -- a state of an earlier value
    rw [getElem?_set_ne (Ne.symm hi)] at hs₀
    rw [getElem?_append_left (by rw [h.free_eq] at hi; omega)] at hu'
    obtain ⟨hdec, hstatus⟩ := h.resolved i s₀ u' hs₀ hu'
    refine ⟨hdec, ?_⟩
    rw [hstatus]
    by_cases hlegal : legalFunctions u.toNat = true
    · simp [CallStatus.resolve, CallStatus.ofValue, hlegal, hi]
    · by_cases h0 : i = 0
      · cases loop.hasInvalid <;> simp [CallStatus.resolve, CallStatus.ofValue, hlegal, h0]
      · simp [CallStatus.resolve, CallStatus.ofValue, hlegal, h0]

/-- The loop has come to its end: every value has its object. -/
structure CallEnd (o : Opts) (S : Valuation → Prop) (x : Valuation → APInt)
    (legalFunctions : ℕ → Bool) (done : List APInt) (objects : List (ExecutionState CallStatus)) :
    Prop where
  nodup : done.Nodup
  feasible : ∀ u ∈ done, ∃ ρ, S ρ ∧ x ρ = u
  length_eq : objects.length = done.length
  resolved : Resolved o S x legalFunctions (done.any fun u => !legalFunctions u.toNat) objects done
  covered : ∀ ρ, S ρ → x ρ ∈ done

section Advance

variable (h : CallInv o S x legalFunctions done loop) {u : APInt} (hu : u ∉ done)
  (hfeasible : ∃ ρ, S ρ ∧ x ρ = u) {trueState : ExecutionState CallStatus}
  (htrue : Decides o trueState.constraints fun ρ => S ρ ∧ x ρ = u)
  (hrest : trueState.rest = .running)

include h hu hfeasible htrue hrest

/-- All other assignments have been dealt with. -/
lemma advanceCall_none (hall : ∀ ρ, S ρ → x ρ ∉ done → x ρ = u) :
    CallEnd o S x legalFunctions (done ++ [u])
      (advanceCall legalFunctions u loop trueState none).1.objects where
  nodup := h.nodup.append (by simp) (by simpa using hu)
  feasible := forall_mem_append.2 ⟨h.feasible, forall_mem_singleton.2 hfeasible⟩
  length_eq := by
    rw [advanceCall, resolveCall_length]
    simp [h.length_eq]
  resolved := by
    have hany : ((done ++ [u]).any fun u => !legalFunctions u.toNat) =
        (loop.hasInvalid || !legalFunctions u.toNat) := by
      rw [h.hasInvalid]
      simp
    rw [hany]
    exact resolveCall_resolved h u htrue hrest
  covered ρ hρ := by
    by_cases hmem : x ρ ∈ done
    · exact mem_append_left _ hmem
    · exact mem_append_right _ (by simpa using hall ρ hρ hmem)

/-- There are other assignments. -/
lemma advanceCall_some {falseState : ExecutionState CallStatus}
    (hfalse : Decides o falseState.constraints fun ρ => S ρ ∧ x ρ ∉ done ++ [u])
    (hrest' : falseState.rest = .running) (hsat : ∃ ρ, S ρ ∧ x ρ ∉ done ++ [u]) :
    CallInv o S x legalFunctions (done ++ [u])
      (advanceCall legalFunctions u loop trueState (some falseState)).1 where
  nodup := h.nodup.append (by simp) (by simpa using hu)
  feasible := forall_mem_append.2 ⟨h.feasible, forall_mem_singleton.2 hfeasible⟩
  length_eq := by simp [advanceCall, h.length_eq]
  free_eq := by simp [advanceCall, h.length_eq]
  hasInvalid := by
    simp only [advanceCall, resolveCall_hasInvalid, h.hasInvalid]
    simp
  resolved := by
    intro i s u' hs hu'
    have hi := (List.getElem?_eq_some_iff.1 hu').1
    simp only [advanceCall, resolveCall_hasInvalid] at hs ⊢
    rw [getElem?_append_left (by simpa [h.length_eq] using hi)] at hs
    exact resolveCall_resolved h u htrue hrest i s u' hs hu'
  free_ok s hs := by
    simp only [advanceCall, getElem?_concat_length] at hs
    obtain rfl := Option.some.inj hs
    exact ⟨hfalse, hrest'⟩
  sat := hsat

end Advance

section Exact

variable {w : ℕ} (hexec : executor.Unlimited) (hv : Computes executor.timing.opts S v w x)
  (hw : w ≤ 64)

include hexec hv hw

/-- One round deals with one more value. -/
theorem callStep_spec (h : CallInv executor.timing.opts S x legalFunctions done loop) :
    ∃ s u next again, loop.objects[loop.free]? = some s ∧
      executor.timing.getValue s.constraints v = some u ∧
      executor.callStep legalFunctions v loop = some (next, again) ∧
      u ∉ done ∧ (∃ ρ, S ρ ∧ x ρ = u) ∧
      if again then CallInv executor.timing.opts S x legalFunctions (done ++ [u]) next
      else CallEnd executor.timing.opts S x legalFunctions (done ++ [u]) next.objects := by
  have hlt : loop.free < loop.objects.length := by
    rw [h.length_eq, h.free_eq]
    exact Nat.lt_succ_self _
  have hget := getElem?_eq_getElem hlt
  obtain ⟨hfree, hrest⟩ := h.free_ok _ hget
  have hvfree := hv.mono (T := fun ρ => S ρ ∧ x ρ ∉ done) fun ρ hρ => hρ.1
  obtain ⟨u, hvalue, σ, ⟨hσ, hnew⟩, rfl⟩ :=
    TimingSolver.getValue_spec hexec.exact hfree h.sat hvfree
  have hwidth : (x σ).width = w := hv.width_eq hσ
  have hpos : 0 < (x σ).width := by
    rw [hwidth, ← hv.ofWidth.width_eq]
    exact hv.ofWidth.typed.width_pos
  have htests := Tests.eq hvfree (hwidth ▸ Computes.const (o := executor.timing.opts) hpos)
  obtain ⟨trueState, falseState, hfork, htrue, hfalse⟩ :=
    fork_spec hexec hfree h.sat htests
  -- the value is possible, so there is a state for it
  cases trueState with
  | none => exact absurd rfl (htrue σ ⟨hσ, hnew⟩)
  | some trueState =>
    have hstep : executor.callStep legalFunctions v loop =
        some (advanceCall legalFunctions (x σ) loop trueState falseState) := by
      rw [callStep, hget, Option.bind_some, hvalue, Option.bind_some, hfork]
      exact if_neg (by omega)
    obtain ⟨-, htrue, htrueRest⟩ := htrue
    replace htrue : Decides executor.timing.opts trueState.constraints fun ρ => S ρ ∧ x ρ = x σ :=
      htrue.congr fun ρ => ⟨fun hρ => ⟨hρ.1.1, hρ.2⟩, fun hρ => ⟨⟨hρ.1, hρ.2 ▸ hnew⟩, hρ.2⟩⟩
    refine ⟨_, x σ, _, _, hget, hvalue, hstep, hnew, ⟨σ, hσ, rfl⟩, ?_⟩
    cases falseState with
    | none =>
      exact advanceCall_none h hnew ⟨σ, hσ, rfl⟩ htrue (htrueRest.trans hrest) fun ρ hρ hmem =>
        not_not.1 (hfalse ρ ⟨hρ, hmem⟩)
    | some falseState =>
      obtain ⟨⟨τ, hτ⟩, hfalse, hfalseRest⟩ := hfalse
      have hiff : ∀ ρ, (S ρ ∧ x ρ ∉ done) ∧ ¬ x ρ = x σ ↔ S ρ ∧ x ρ ∉ done ++ [x σ] := by
        simp [and_assoc]
      exact advanceCall_some h hnew ⟨σ, hσ, rfl⟩ htrue (htrueRest.trans hrest) (hfalse.congr hiff)
        (hfalseRest.trans hrest) ⟨τ, (hiff τ).1 hτ⟩

/-- The loop ends when every value has had its round. -/
theorem callLoop_spec (values : Finset APInt) (hvalues : ∀ ρ, S ρ → x ρ ∈ values) (rounds : ℕ)
    (hrounds : values.card ≤ rounds + done.length)
    (h : CallInv executor.timing.opts S x legalFunctions done loop) :
    ∃ objects done', executor.callLoop legalFunctions v rounds loop = some objects ∧
      CallEnd executor.timing.opts S x legalFunctions (done ++ done') objects ∧
      ∃ s u, loop.objects[loop.free]? = some s ∧
        executor.timing.getValue s.constraints v = some u ∧ done'.head? = some u := by
  induction rounds generalizing done loop with
  | zero =>
    -- all values are done, but one assignment is left
    obtain ⟨σ, hσ, hnew⟩ := h.sat
    have hcard := Finset.card_le_card (s := insert (x σ) done.toFinset) (t := values) (by
      intro u hu
      rcases Finset.mem_insert.1 hu with rfl | hu
      · exact hvalues σ hσ
      · obtain ⟨ρ, hρ, rfl⟩ := h.feasible u (mem_toFinset.1 hu)
        exact hvalues ρ hρ)
    rw [Finset.card_insert_of_notMem (by simpa using hnew), toFinset_card_of_nodup h.nodup]
      at hcard
    omega
  | succ rounds ih =>
    obtain ⟨s, u, next, again, hs, hu, hstep, -, -, hnext⟩ :=
      callStep_spec hexec hv hw h
    cases again with
    | false =>
      exact ⟨next.objects, [u], by simp [callLoop, hstep], hnext, s, u, hs, hu, rfl⟩
    | true =>
      obtain ⟨objects, done', hrun, hend, -⟩ := ih (by simp; omega) hnext
      refine ⟨objects, u :: done', by simpa [callLoop, hstep] using hrun, ?_, s, u, hs, hu,
        rfl⟩
      simpa using hend

end Exact

/-! ### The states that are left -/

/-- A state with the value `u` is where it should be. -/
def CallStatus.Right (legalFunctions : ℕ → Bool) (u : APInt) (status : CallStatus) : Prop :=
  if legalFunctions u.toNat then status = ⟨some u.toNat, none⟩
  else status.error = some "invalid function pointer"

variable {objects : List (ExecutionState CallStatus)}

lemma CallEnd.admits (h : CallEnd o S x legalFunctions done objects)
    {s : ExecutionState CallStatus} (hs : s ∈ objects) {ρ : Valuation} (hρ : s.Admits ρ) :
    ∃ i, done[i]? = some (x ρ) ∧
      s.rest = .ofValue legalFunctions (done.any fun u => !legalFunctions u.toNat) i (x ρ) := by
  obtain ⟨i, hi, rfl⟩ := getElem_of_mem hs
  have hget := getElem?_eq_getElem (h.length_eq ▸ hi : i < done.length)
  obtain ⟨hdec, hrest⟩ := h.resolved i _ _ (getElem?_eq_getElem hi) hget
  obtain ⟨-, heq⟩ := (hdec.holds_iff ρ).1 hρ
  exact ⟨i, heq ▸ hget, heq ▸ hrest⟩

lemma CallStatus.right_ofValue {i : ℕ} {u : APInt} (hu : done[i]? = some u)
    (hlegal : ∀ j w, done[j]? = some w → j ≠ 0 → legalFunctions w.toNat = true) :
    (CallStatus.ofValue legalFunctions (done.any fun u => !legalFunctions u.toNat) i u).Right
      legalFunctions u := by
  unfold CallStatus.Right CallStatus.ofValue
  by_cases hfun : legalFunctions u.toNat = true
  · -- the object 0 is only terminated if its own value is not a function
    rw [if_pos hfun, if_pos hfun, if_neg]
    rintro ⟨rfl, hany⟩
    obtain ⟨w, hw, hwfun⟩ := any_eq_true.1 hany
    obtain ⟨j, hj⟩ := getElem?_of_mem hw
    by_cases hj0 : j = 0
    · obtain rfl : u = w := Option.some.inj (hu.symm.trans (hj0 ▸ hj))
      simp [hfun] at hwfun
    · simp [hlegal j w hj hj0] at hwfun
  · have hi : i = 0 := by
      by_contra hi
      exact hfun (hlegal i u hu hi)
    have hany : (done.any fun u => !legalFunctions u.toNat) = true :=
      any_eq_true.2 ⟨u, mem_of_getElem? hu, by simpa using hfun⟩
    rw [if_neg hfun]
    exact if_pos ⟨hi, hany⟩

lemma CallEnd.exists_admits (h : CallEnd o S x legalFunctions done objects) {ρ : Valuation}
    (hρ : S ρ) : ∃ s ∈ objects, s.Admits ρ := by
  obtain ⟨i, hi⟩ := getElem?_of_mem (h.covered ρ hρ)
  have hlt : i < objects.length := by
    rw [h.length_eq]
    exact (List.getElem?_eq_some_iff.1 hi).1
  obtain ⟨hdec, -⟩ := h.resolved i _ _ (getElem?_eq_getElem hlt) hi
  exact ⟨_, getElem_mem hlt, (hdec.holds_iff ρ).2 ⟨hρ, rfl⟩⟩

lemma CallEnd.index_unique (h : CallEnd o S x legalFunctions done objects) {i j : ℕ} {u : APInt}
    (hi : done[i]? = some u) (hj : done[j]? = some u) : i = j := by
  obtain ⟨hlt, hget⟩ := List.getElem?_eq_some_iff.1 hi
  obtain ⟨hlt', hget'⟩ := List.getElem?_eq_some_iff.1 hj
  exact h.nodup.getElem_inj_iff.1 (hget.trans hget'.symm)

/-- All values but the first are functions. -/
theorem CallEnd.dispatches (h : CallEnd o S x legalFunctions done objects)
    (hlegal : ∀ i u, done[i]? = some u → i ≠ 0 → legalFunctions u.toNat = true) :
    Dispatches S (fun ρ s => s.rest.Right legalFunctions (x ρ)) objects := by
  have haligned : List.Forall₂ (fun (s : ExecutionState CallStatus) u =>
      Decides o s.constraints (fun ρ => S ρ ∧ x ρ = u) ∧ s.rest.Right legalFunctions u)
      objects done := by
    refine forall₂_iff_get.2 ⟨h.length_eq, fun i hi hi' => ?_⟩
    have hget := getElem?_eq_getElem hi'
    obtain ⟨hdec, hrest⟩ := h.resolved i _ _ (getElem?_eq_getElem hi) hget
    exact ⟨hdec, hrest ▸ CallStatus.right_ofValue hget hlegal⟩
  refine .of_aligned haligned (fun hs => hs.1.holds_iff) ?_ fun ρ hρ => ?_
  · exact h.nodup.imp fun {u w} hne ρ huw => hne (huw.1.symm.trans huw.2)
  · exact ⟨x ρ, h.covered ρ hρ, rfl, fun s hs => hs.2⟩

/-- Another value than the first one is not a function: its state keeps running. -/
theorem CallEnd.not_right (h : CallEnd o S x legalFunctions done objects) {u : APInt}
    (hhead : done.head? ≠ some u) (hu : legalFunctions u.toNat = false)
    {s : ExecutionState CallStatus} (hs : s ∈ objects) {ρ : Valuation} (hρ : s.Admits ρ)
    (hxρ : x ρ = u) : s.rest = .running := by
  obtain ⟨i, hi, hrest⟩ := h.admits hs hρ
  rw [hxρ] at hi hrest
  have hi0 : i ≠ 0 := by
    rintro rfl
    exact hhead (by rw [head?_eq_getElem?, hi])
  simp [hrest, CallStatus.ofValue, CallStatus.running, hu, hi0]

end Spec

/-- The values of an expression are finitely many. -/
lemma exists_values {S : Valuation → Prop} {x : Valuation → APInt} {w : ℕ}
    (hx : ∀ ρ, S ρ → (x ρ).width = w) : ∃ values : Finset APInt, ∀ ρ, S ρ → x ρ ∈ values := by
  refine ⟨Finset.univ.image fun bits : BitVec w => ⟨w, bits⟩, fun ρ hρ => ?_⟩
  obtain rfl := hx ρ hρ
  exact Finset.mem_image.2 ⟨(x ρ).bits, Finset.mem_univ _, rfl⟩

theorem executeIndirectCall_spec {executor : Executor} (hexec : executor.Unlimited)
    (legalFunctions : ℕ → Bool) {v : Expr} {state : ExecutionState CallStatus}
    {S : Valuation → Prop} {x : Valuation → APInt} {w : ℕ}
    (hv : Computes executor.timing.opts S v w x) (hw : w ≤ 64)
    (hpath : Decides executor.timing.opts state.constraints S) (hsat : ∃ ρ, S ρ)
    (hrest : state.rest = .running) :
    ∃ n, ∀ rounds ≥ n, ∃ objects done,
      executor.executeIndirectCall legalFunctions v rounds state = some objects ∧
      CallEnd executor.timing.opts S x legalFunctions done objects ∧
      done.head? = executor.timing.getValue state.constraints v := by
  obtain ⟨values, hvalues⟩ := exists_values fun ρ hρ => hv.width_eq hρ
  refine ⟨values.card, fun rounds hrounds => ?_⟩
  have hstart : CallInv executor.timing.opts S x legalFunctions [] ⟨[state], 0, false⟩ := by
    refine ⟨.nil, by simp, rfl, rfl, rfl, ?_, ?_, by simpa using hsat⟩
    · intro i s u _ hu
      simp at hu
    · intro s hs
      obtain rfl : state = s := by simpa using hs
      exact ⟨hpath.congr (by simp), hrest⟩
  obtain ⟨objects, done, hrun, hend, s, u, hs, hu, hhead⟩ :=
    callLoop_spec hexec hv hw values hvalues rounds (by simpa using hrounds) hstart
  obtain rfl : state = s := by simpa using hs
  exact ⟨objects, done, hrun, by simpa using hend, hhead.trans hu.symm⟩

/-- With every exact solver, the loop ends and sends each assignment to a state of its own that
has entered the function or has been terminated, iff all values of the pointer are functions or
there is only one. -/
theorem executeIndirectCall_dispatches_iff (o : Opts) (legalFunctions : ℕ → Bool) (v : Expr)
    (w : ℕ) (hv : v.OfWidth w) (hw : w ≤ 64) (state : ExecutionState CallStatus)
    (hrest : state.rest = .running) (hpath : Decides o state.constraints state.Admits)
    (hsat : ∃ ρ, state.Admits ρ) (hdefined : ∀ ρ, state.Admits ρ → v.Defined o ρ) :
    (∀ executor : Executor, executor.Unlimited → executor.timing.opts = o →
      ∃ n, ∀ rounds ≥ n, ∃ states,
        executor.executeIndirectCall legalFunctions v rounds state = some states ∧
        Dispatches state.Admits (fun ρ s => s.rest.Right legalFunctions (v.eval ρ)) states) ↔
    (∀ ρ, state.Admits ρ → legalFunctions (v.eval ρ).toNat = true) ∨
      ∃ u, ∀ ρ, state.Admits ρ → v.eval ρ = u := by
  have hcomputes : Computes o state.Admits v w fun ρ => v.eval ρ := .of_defined hv hdefined
  constructor
  · intro hall
    by_contra hnot
    push Not at hnot
    obtain ⟨⟨ρ, hρ, hinvalid⟩, hother⟩ := hnot
    obtain ⟨σ, hσ, hne⟩ := hother (v.eval ρ)
    -- a solver that gives another value first
    let executor : Executor := ⟨⟨o, .preferring σ, true⟩, false, true, 0⟩
    have hexec : executor.Unlimited := ⟨SolverImpl.preferring_exact σ, rfl, rfl⟩
    obtain ⟨n, hn⟩ := hall executor hexec rfl
    obtain ⟨n', hn'⟩ := executeIndirectCall_spec hexec legalFunctions hcomputes hw hpath hsat hrest
    obtain ⟨states, hrun, hdispatch⟩ := hn (max n n') (le_max_left _ _)
    obtain ⟨objects, done, hrun', hend, hhead⟩ := hn' (max n n') (le_max_right _ _)
    obtain rfl : states = objects := Option.some.inj (hrun.symm.trans hrun')
    obtain ⟨s, hs, hadmits, hright⟩ := hdispatch.covered ρ hρ
    have hfirst : done.head? ≠ some (v.eval ρ) := by
      rw [hhead, TimingSolver.getValue_preferring rfl hpath hcomputes hσ]
      exact fun heq => hne (Option.some.inj heq)
    have hrunning := hend.not_right hfirst (Bool.eq_false_iff.2 hinvalid) hs hadmits rfl
    rw [CallStatus.Right, if_neg hinvalid, hrunning] at hright
    exact absurd hright (by simp [CallStatus.running])
  · rintro hcond executor hexec rfl
    obtain ⟨n, hn⟩ := executeIndirectCall_spec hexec legalFunctions hcomputes hw hpath hsat hrest
    refine ⟨n, fun rounds hrounds => ?_⟩
    obtain ⟨objects, done, hrun, hend, -⟩ := hn rounds hrounds
    refine ⟨objects, hrun, hend.dispatches fun i u hu hi => ?_⟩
    obtain ⟨ρ, hρ, rfl⟩ := hend.feasible u (mem_of_getElem? hu)
    rcases hcond with hlegal | ⟨u, hunique⟩
    · exact hlegal ρ hρ
    · -- the only value stands at the position 0
      have hpos : 0 < done.length := Nat.zero_lt_of_lt (List.getElem?_eq_some_iff.1 hu).1
      have h0 := getElem?_eq_getElem hpos
      obtain ⟨τ, hτ, hval⟩ := hend.feasible _ (mem_of_getElem? h0)
      rw [← hval, hunique τ hτ, ← hunique ρ hρ] at h0
      exact absurd (hend.index_unique hu h0) hi

/-! ### Examples -/

section Example

/-- A state before an indirect call. -/
def beforeCall : ExecutionState CallStatus := .unconstrained .running

/-- A pointer into the text segment. -/
def functionX : Expr := .bin .add (.const (.ofNat 64 0x400000)) pointerX

lemma functionX_ofWidth : functionX.OfWidth 64 :=
  ⟨⟨Nat.succ_pos 63, pointerX_ofWidth.typed, pointerX_ofWidth.width_eq.symm⟩,
    ⟨trivial, pointerX_ofWidth.canon, rfl⟩, rfl⟩

lemma functionX_defined (o : Opts) (ρ : Valuation) : functionX.Defined o ρ :=
  fun ho => ⟨trivial, pointerX_defined o ρ ho⟩

lemma toNat_functionX (ρ : Valuation) :
    (functionX.eval ρ).toNat = 0x400000 + (pointerX.eval ρ).toNat := by
  have hlt := pointerX_lt ρ
  have hptr : pointerX.eval ρ = .ofNat 64 (pointerX.eval ρ).toNat :=
    APInt.eq_ofNat_toNat (pointerX.eval ρ)
  generalize (pointerX.eval ρ).toNat = n at hlt hptr
  have heval : functionX.eval ρ = .ofNat 64 (0x400000 + n) := by
    rw [functionX, Expr.eval, hptr, show APInt.ofNat 64 (0x400000 + n) =
      ⟨64, BitVec.ofNat 64 0x400000 + BitVec.ofNat 64 n⟩ from
        congrArg (APInt.mk 64) (BitVec.ofNat_add ..)]
    exact BinKind.fold_mk .add (BitVec.ofNat 64 0x400000) (BitVec.ofNat 64 n)
  rw [heval, APInt.toNat_ofNat (by omega)]

/-- There is a function at each of 256 addresses. -/
theorem executeIndirectCall_dispatches_bytes : ∃ n, ∀ rounds ≥ n, ∃ states,
      plainExecutor.executeIndirectCall (fun addr => 0x400000 ≤ addr ∧ addr < 0x400100) functionX
        rounds beforeCall = some states ∧
      Dispatches beforeCall.Admits (fun ρ s => s.rest.Right
        (fun addr => 0x400000 ≤ addr ∧ addr < 0x400100) (functionX.eval ρ)) states := by
  refine (executeIndirectCall_dispatches_iff ⟨true, true⟩
    (fun addr => 0x400000 ≤ addr ∧ addr < 0x400100) functionX 64 functionX_ofWidth le_rfl beforeCall
    rfl (ExecutionState.unconstrained_path ..)
    ⟨fun _ _ => 0, ExecutionState.unconstrained_admits _ _⟩ fun ρ _ => functionX_defined _ ρ).2
    (Or.inl fun ρ _ => ?_) plainExecutor plainExecutor_unlimited rfl
  have hlt := pointerX_lt ρ
  exact decide_eq_true (by rw [toNat_functionX]; omega)

/-- The only function is at the address that is the first answer of the solver.  The loop
terminates the state that has entered it, and the states of the other values keep running. -/
theorem executeIndirectCall_oneFunction : ∃ n, ∀ rounds ≥ n, ∃ states,
      plainExecutor.executeIndirectCall (fun addr => addr = 0x400000) functionX rounds beforeCall =
        some states ∧
      (∃ s ∈ states, (s.Admits fun _ _ => 0) ∧
        s.rest = ⟨some 0x400000, some "invalid function pointer"⟩) ∧
      ∃ s ∈ states, (s.Admits fun _ _ => 1) ∧ s.rest = .running := by
  have hcomputes : Computes plainExecutor.timing.opts beforeCall.Admits functionX 64
      fun ρ => functionX.eval ρ :=
    .of_defined functionX_ofWidth fun ρ _ => functionX_defined _ ρ
  have hadmits : ∀ ρ, beforeCall.Admits ρ := ExecutionState.unconstrained_admits _
  have hpath := ExecutionState.unconstrained_path plainExecutor.timing.opts CallStatus.running
  obtain ⟨n, hn⟩ := executeIndirectCall_spec plainExecutor_unlimited (fun addr => addr = 0x400000)
    hcomputes le_rfl hpath ⟨_, hadmits fun _ _ => 0⟩ rfl
  refine ⟨n, fun rounds hrounds => ?_⟩
  obtain ⟨objects, done, hrun, hend, hhead⟩ := hn rounds hrounds
  rw [TimingSolver.getValue_preferring rfl hpath hcomputes (hadmits _),
    head?_eq_getElem?] at hhead
  have hone := hend.covered (fun _ _ => 1) (hadmits _)
  obtain ⟨s, hs, hadm⟩ := hend.exists_admits (hadmits fun _ _ => 0)
  obtain ⟨t, ht, hadm'⟩ := hend.exists_admits (hadmits fun _ _ => 1)
  refine ⟨objects, hrun, ⟨s, hs, hadm, ?_⟩, t, ht, hadm', ?_⟩
  · obtain ⟨i, hi, hrest⟩ := hend.admits hs hadm
    have hi0 : i = 0 := hend.index_unique hi hhead
    have hany : (done.any fun u => !decide (u.toNat = 0x400000)) = true :=
      any_eq_true.2 ⟨_, hone, rfl⟩
    rw [hrest, hany, hi0]
    rfl
  · refine hend.not_right (u := functionX.eval fun _ _ => 1) ?_ rfl ht hadm' rfl
    rw [head?_eq_getElem?, hhead]
    exact fun heq => absurd (Option.some.inj heq) (by decide)

end Example

end Castan
