/-
# The directed searcher

`CastanSearcher` keeps the live states in an ordered set of pairs of a priority and a state
(`lib/CASTAN/CastanSearcher.cpp`).  The priority of a state changes while the state executes,
so that `update` finds the entry of the current state by a scan, erases it by its value and
inserts the state again.  We model the set, the cost map with its reading accesses that insert
defaults, and the assertions, and show what the set holds after every sequence of updates.
-/
import Castan.Lib.PriorityIndex

namespace Castan

open List

/-- The operations on numbers that priorities are computed with.  Numbers are linearly ordered:
there is no NaN. -/
class PriorityNumber (D : Type) extends LinearOrder D, Add D, Zero D where
  infinity : D
  divNat : D → ℕ → D

/-- The maps `costs` and `successorCosts`. -/
structure CostMap (Inst D : Type) where
  costs : Inst → Option (Bool × D)
  successorCosts : Inst → Option D

/-- What `getPriority` reads of an `ExecutionState`: the callers of the frames from the bottom of
the stack to its top, and the counters of its cache model. -/
structure StateView (Inst D : Type) where
  pc : Inst
  stack : List (Option Inst)
  numIterations : ℕ
  totalTime : D

/-- The assertions of the searcher. -/
inductive SearcherError where
  | missingCost
  | invalidCurrentState
  | invalidStateRemoved
  deriving DecidableEq, Repr

variable {Inst D S : Type} [DecidableEq Inst] [PriorityNumber D] [LinearOrder S]

namespace CostMap

/-- The value of `costs[i]`. -/
def cost (m : CostMap Inst D) (i : Inst) : Bool × D := (m.costs i).getD (false, 0)

/-- The value of `successorCosts[i]`. -/
def successorCost (m : CostMap Inst D) (i : Inst) : D := (m.successorCosts i).getD 0

/-- The map after `costs[i]` was read, which inserts a default for a missing key. -/
def touchCost (m : CostMap Inst D) (i : Inst) : CostMap Inst D :=
  { m with costs := Function.update m.costs i (some (m.cost i)) }

/-- The map after `successorCosts[i]` was read. -/
def touchSuccessor (m : CostMap Inst D) (i : Inst) : CostMap Inst D :=
  { m with successorCosts := Function.update m.successorCosts i (some (m.successorCost i)) }

/-- The loop of `getPriority` over the frames from the top of the stack. -/
def addCallers (m : CostMap Inst D) (result : D) : List (Option Inst) → D × CostMap Inst D
  | [] => (result, m)
  | none :: _ => (result, m)
  | some caller :: frames =>
    let result := result + m.successorCost caller
    let m := (m.touchSuccessor caller).touchCost caller
    if (m.cost caller).1 then (result, m) else m.addCallers result frames

def getPriority (m : CostMap Inst D) (state : StateView Inst D) :
    Except SearcherError (List D × CostMap Inst D) :=
  if state.numIterations = 0 then
    .ok ([PriorityNumber.infinity, 0, 0], m)
  else if (m.costs state.pc).isNone then
    .error .missingCost
  else
    let result := state.totalTime + (m.cost state.pc).2
    let (result, m) :=
      if (m.cost state.pc).1 then (result, m) else m.addCallers result state.stack.reverse
    .ok ([PriorityNumber.divNat result state.numIterations, state.totalTime], m)

end CostMap

/-- The fields of the searcher. -/
structure CastanSearcher (Inst D S : Type) where
  states : List (List D × S)
  costMap : CostMap Inst D

/-- A call of `update`, with the contents of the states at the time of the call. -/
structure UpdateCall (Inst D S : Type) where
  heap : S → StateView Inst D
  current : Option S
  addedStates : List S
  removedStates : List S

namespace CastanSearcher

variable (s : CastanSearcher Inst D S)

/-- A searcher before the first update, with the cost map of the constructor. -/
def empty (m : CostMap Inst D) : CastanSearcher Inst D S := ⟨[], m⟩

/-- `states.insert(std::make_pair(getPriority(st), st))` -/
def insertState (heap : S → StateView Inst D) (st : S) :
    Except SearcherError (CastanSearcher Inst D S) := do
  let (p, m) ← s.costMap.getPriority (heap st)
  return ⟨PriorityIndex.insert (p, st) s.states, m⟩

/-- The first part of `update`: the current state gets a new priority. -/
def updateCurrent (heap : S → StateView Inst D) :
    Option S → Except SearcherError (CastanSearcher Inst D S)
  | none => .ok s
  | some current =>
    match PriorityIndex.find current s.states with
    | none => .error .invalidCurrentState
    | some e => { s with states := PriorityIndex.erase e s.states }.insertState heap current

def removeState (st : S) : Except SearcherError (CastanSearcher Inst D S) :=
  match PriorityIndex.find st s.states with
  | none => .error .invalidStateRemoved
  | some e => .ok { s with states := PriorityIndex.erase e s.states }

def update (c : UpdateCall Inst D S) : Except SearcherError (CastanSearcher Inst D S) := do
  let s ← s.updateCurrent c.heap c.current
  let s ← c.addedStates.foldlM (fun s st => s.insertState c.heap st) s
  c.removedStates.foldlM removeState s

def run (calls : List (UpdateCall Inst D S)) : Except SearcherError (CastanSearcher Inst D S) :=
  calls.foldlM update s

/-- There is no result for an empty set: `rbegin` is then not dereferenceable. -/
def selectState : Option S := s.states.getLast?.map Prod.snd

end CastanSearcher

/-! ### Reading the cost map -/

namespace CostMap

/-- Same values, and possibly more keys. -/
structure Extends (m m' : CostMap Inst D) : Prop where
  cost : ∀ i, m'.cost i = m.cost i
  successorCost : ∀ i, m'.successorCost i = m.successorCost i
  isSome : ∀ i, (m.costs i).isSome → (m'.costs i).isSome

variable {m m' m'' : CostMap Inst D}

omit [DecidableEq Inst] in
lemma Extends.refl (m : CostMap Inst D) : m.Extends m :=
  ⟨fun _ => rfl, fun _ => rfl, fun _ h => h⟩

omit [DecidableEq Inst] in
lemma Extends.trans (h : m.Extends m') (h' : m'.Extends m'') : m.Extends m'' :=
  ⟨fun i => (h'.cost i).trans (h.cost i), fun i => (h'.successorCost i).trans (h.successorCost i),
    fun i hi => h'.isSome i (h.isSome i hi)⟩

lemma extends_touchCost (m : CostMap Inst D) (i : Inst) : m.Extends (m.touchCost i) := by
  refine ⟨fun j => ?_, fun _ => rfl, fun j hj => ?_⟩
  · by_cases hji : j = i
    · subst hji
      simp [touchCost, CostMap.cost]
    · simp [touchCost, CostMap.cost, hji]
  · by_cases hji : j = i
    · subst hji
      simp [touchCost]
    · simpa [touchCost, hji] using hj

lemma extends_touchSuccessor (m : CostMap Inst D) (i : Inst) : m.Extends (m.touchSuccessor i) := by
  refine ⟨fun _ => rfl, fun j => ?_, fun _ hj => hj⟩
  by_cases hji : j = i
  · subst hji
    simp [touchSuccessor, CostMap.successorCost]
  · simp [touchSuccessor, CostMap.successorCost, hji]

lemma extends_touch (m : CostMap Inst D) (i : Inst) :
    m.Extends ((m.touchSuccessor i).touchCost i) :=
  (m.extends_touchSuccessor i).trans (extends_touchCost _ i)

lemma extends_addCallers (m : CostMap Inst D) (result : D) (frames : List (Option Inst)) :
    m.Extends (m.addCallers result frames).2 := by
  induction frames generalizing m result with
  | nil => exact .refl m
  | cons frame frames ih =>
    cases frame with
    | none => exact .refl m
    | some caller =>
      simp only [addCallers]
      split
      · exact m.extends_touch caller
      · exact (m.extends_touch caller).trans (ih _ _)

lemma Extends.addCallers (h : m.Extends m') (result : D) (frames : List (Option Inst)) :
    (m'.addCallers result frames).1 = (m.addCallers result frames).1 := by
  induction frames generalizing m m' result with
  | nil => rfl
  | cons frame frames ih =>
    cases frame with
    | none => rfl
    | some caller =>
      have htouch : ((m.touchSuccessor caller).touchCost caller).Extends
          ((m'.touchSuccessor caller).touchCost caller) := by
        refine ⟨fun i => ?_, fun i => ?_, fun i hi => ?_⟩
        · rw [(m'.extends_touch caller).cost, (m.extends_touch caller).cost, h.cost]
        · rw [(m'.extends_touch caller).successorCost, (m.extends_touch caller).successorCost,
            h.successorCost]
        · by_cases hic : i = caller
          · subst hic
            simp [touchCost]
          · have hi : (m.costs i).isSome := by simpa [touchCost, touchSuccessor, hic] using hi
            exact (m'.extends_touch caller).isSome i (h.isSome i hi)
      simp only [CostMap.addCallers, htouch.cost, h.successorCost]
      split
      · rfl
      · exact ih htouch _

/-- The value of `getPriority`: it does not depend on the defaults that earlier calls inserted. -/
def priority (m : CostMap Inst D) (state : StateView Inst D) : List D :=
  if state.numIterations = 0 then
    [PriorityNumber.infinity, 0, 0]
  else
    let result := state.totalTime + (m.cost state.pc).2
    let result := if (m.cost state.pc).1 then result
      else (m.addCallers result state.stack.reverse).1
    [PriorityNumber.divNat result state.numIterations, state.totalTime]

/-- `getPriority` fails only on a missing instruction. -/
lemma getPriority_ok (m : CostMap Inst D) {state : StateView Inst D}
    (hpc : (m.costs state.pc).isSome) :
    ∃ m', m.getPriority state = .ok (m.priority state, m') ∧ m.Extends m' := by
  simp only [getPriority, priority]
  split
  · exact ⟨m, rfl, .refl m⟩
  · rw [if_neg (by simpa using Option.isSome_iff_ne_none.mp hpc)]
    split
    · exact ⟨m, rfl, .refl m⟩
    · exact ⟨_, rfl, m.extends_addCallers _ _⟩

lemma Extends.priority (h : m.Extends m') (state : StateView Inst D) :
    m'.priority state = m.priority state := by
  simp only [CostMap.priority, h.cost, h.addCallers]

end CostMap

/-! ### The protocol of the executor -/

namespace UpdateCall

/-- The states whose priority the call computes. -/
def touched (c : UpdateCall Inst D S) : List S := c.current.toList ++ c.addedStates

/-- The live states after a call. -/
def liveAfter (live : Finset S) (c : UpdateCall Inst D S) : Finset S :=
  (live ∪ c.addedStates.toFinset) \ c.removedStates.toFinset

/-- The current state is live, the added states are new, and the removed ones are live or just
added, each removed once. -/
structure Allowed (live : Finset S) (c : UpdateCall Inst D S) : Prop where
  current : ∀ st ∈ c.current, st ∈ live
  nodup_added : c.addedStates.Nodup
  added : ∀ st ∈ c.addedStates, st ∉ live
  nodup_removed : c.removedStates.Nodup
  removed : ∀ st ∈ c.removedStates, st ∈ live ∨ st ∈ c.addedStates

/-- The live states after a sequence of calls. -/
def live (calls : List (UpdateCall Inst D S)) : Finset S := calls.foldl liveAfter ∅

/-- Every call is allowed when it is made. -/
def Protocol (calls : List (UpdateCall Inst D S)) : Prop :=
  ∀ before c after, calls = before ++ c :: after → c.Allowed (live before)

/-- The priority of a state at the last call in which it was current or added. -/
def lastPriority (m : CostMap Inst D) (calls : List (UpdateCall Inst D S)) (st : S) :
    Option (List D) :=
  (calls.reverse.find? fun c => st ∈ c.touched).map fun c => m.priority (c.heap st)

variable {m : CostMap Inst D} {calls : List (UpdateCall Inst D S)} {c : UpdateCall Inst D S}

omit [DecidableEq Inst] [PriorityNumber D] in
lemma live_concat : live (calls ++ [c]) = c.liveAfter (live calls) := by
  simp [live]

lemma lastPriority_concat (st : S) : lastPriority m (calls ++ [c]) st =
    if st ∈ c.touched then some (m.priority (c.heap st)) else lastPriority m calls st := by
  simp only [lastPriority, reverse_append, reverse_cons, reverse_nil,
    nil_append, cons_append, find?_cons]
  by_cases hst : st ∈ c.touched <;> simp [hst]

omit [DecidableEq Inst] [PriorityNumber D] in
lemma protocol_nil : Protocol ([] : List (UpdateCall Inst D S)) := by
  intro before c after h
  exact absurd h (by simp)

omit [DecidableEq Inst] [PriorityNumber D] in
lemma protocol_concat : Protocol (calls ++ [c]) ↔ Protocol calls ∧ c.Allowed (live calls) := by
  constructor
  · intro h
    refine ⟨fun before c' after hcalls => ?_, h calls c [] rfl⟩
    exact h before c' (after ++ [c]) (by rw [hcalls]; simp)
  · rintro ⟨h, hc⟩ before c' after hcalls
    -- the call is the last one or a call of the shorter sequence
    rcases eq_nil_or_concat' after with rfl | ⟨after, c'', rfl⟩
    · obtain ⟨rfl, hcc⟩ := append_inj' hcalls rfl
      obtain rfl := singleton_inj.mp hcc
      exact hc
    · rw [← cons_append, ← append_assoc] at hcalls
      exact h before c' after (append_inj' hcalls rfl).1

end UpdateCall

/-! ### What the searcher tracks -/

namespace CastanSearcher

open UpdateCall

/-- The set of states stands for the partial map `f`, and the cost map has the values of `m`. -/
structure Tracks (m : CostMap Inst D) (s : CastanSearcher Inst D S) (f : S → Option (List D)) :
    Prop where
  costMap : m.Extends s.costMap
  index : PriorityIndex.Represents s.states f

variable {m : CostMap Inst D} {s : CastanSearcher Inst D S} {f : S → Option (List D)}
  {heap : S → StateView Inst D} {st : S}

lemma insertState_tracks (h : Tracks m s f) (hst : f st = none)
    (hpc : (m.costs (heap st).pc).isSome) : ∃ s', s.insertState heap st = .ok s' ∧
      Tracks m s' (Function.update f st (some (m.priority (heap st)))) := by
  obtain ⟨m', hget, hext⟩ := s.costMap.getPriority_ok (h.costMap.isSome _ hpc)
  rw [h.costMap.priority] at hget
  refine ⟨⟨_, m'⟩, ?_, h.costMap.trans hext, h.index.insert hst _⟩
  rw [insertState, hget]
  rfl

omit [DecidableEq Inst] in
lemma removeState_tracks (h : Tracks m s f) (hst : (f st).isSome) :
    ∃ s', s.removeState st = .ok s' ∧ Tracks m s' (Function.update f st none) := by
  obtain ⟨p, hp⟩ := Option.isSome_iff_exists.mp hst
  refine ⟨{ s with states := PriorityIndex.erase (p, st) s.states }, ?_, h.costMap,
    h.index.erase hp⟩
  rw [removeState, h.index.find_eq hp]

lemma updateCurrent_tracks (h : Tracks m s f) {current : Option S}
    (hlive : ∀ st ∈ current, (f st).isSome)
    (hpc : ∀ st ∈ current, (m.costs (heap st).pc).isSome) :
    ∃ s', s.updateCurrent heap current = .ok s' ∧
      Tracks m s' fun st => if st ∈ current then some (m.priority (heap st)) else f st := by
  cases current with
  | none => exact ⟨s, rfl, by simpa using h⟩
  | some a =>
    obtain ⟨p, hp⟩ := Option.isSome_iff_exists.mp (hlive a rfl)
    have herase : Tracks m { s with states := PriorityIndex.erase (p, a) s.states }
        (Function.update f a none) := ⟨h.costMap, h.index.erase hp⟩
    obtain ⟨s', hs', h'⟩ := insertState_tracks herase (Function.update_self ..) (hpc a rfl)
    refine ⟨s', ?_, ?_⟩
    · rw [updateCurrent, h.index.find_eq hp]
      exact hs'
    · convert h' using 1
      funext st
      by_cases hst : st = a
      · subst hst
        simp
      · simp [hst, Ne.symm hst]

/-- The loop over the added states. -/
lemma addStates_tracks (h : Tracks m s f) {added : List S} (hnodup : added.Nodup)
    (hnew : ∀ st ∈ added, f st = none) (hpc : ∀ st ∈ added, (m.costs (heap st).pc).isSome) :
    ∃ s', added.foldlM (fun s st => s.insertState heap st) s = .ok s' ∧
      Tracks m s' fun st => if st ∈ added then some (m.priority (heap st)) else f st := by
  induction added generalizing s f with
  | nil => exact ⟨s, rfl, by simpa using h⟩
  | cons a added ih =>
    obtain ⟨ha, hnodup⟩ := nodup_cons.mp hnodup
    obtain ⟨s₁, hs₁, h₁⟩ := insertState_tracks h (hnew a (by simp)) (hpc a (by simp))
    have hnew₁ : ∀ st ∈ added, Function.update f a (some (m.priority (heap a))) st = none := by
      intro st hst
      rw [Function.update_of_ne (ne_of_mem_of_not_mem hst ha)]
      exact hnew st (mem_cons_of_mem a hst)
    obtain ⟨s₂, hs₂, h₂⟩ := ih h₁ hnodup hnew₁ fun st hst => hpc st (mem_cons_of_mem a hst)
    refine ⟨s₂, ?_, ?_⟩
    · rw [foldlM_cons, hs₁]
      exact hs₂
    · convert h₂ using 1
      funext st
      by_cases hst : st = a
      · subst hst
        simp [ha]
      · simp [hst]

omit [DecidableEq Inst] in
/-- The loop over the removed states. -/
lemma removeStates_tracks (h : Tracks m s f) {removed : List S} (hnodup : removed.Nodup)
    (hlive : ∀ st ∈ removed, (f st).isSome) :
    ∃ s', removed.foldlM removeState s = .ok s' ∧
      Tracks m s' fun st => if st ∈ removed then none else f st := by
  induction removed generalizing s f with
  | nil => exact ⟨s, rfl, by simpa using h⟩
  | cons a removed ih =>
    obtain ⟨ha, hnodup⟩ := nodup_cons.mp hnodup
    obtain ⟨s₁, hs₁, h₁⟩ := removeState_tracks h (hlive a (by simp))
    have hlive₁ : ∀ st ∈ removed, (Function.update f a none st).isSome := by
      intro st hst
      rw [Function.update_of_ne (ne_of_mem_of_not_mem hst ha)]
      exact hlive st (mem_cons_of_mem a hst)
    obtain ⟨s₂, hs₂, h₂⟩ := ih h₁ hnodup hlive₁
    refine ⟨s₂, ?_, ?_⟩
    · rw [foldlM_cons, hs₁]
      exact hs₂
    · convert h₂ using 1
      funext st
      by_cases hst : st = a
      · subst hst
        simp
      · simp [hst]

/-- The partial map after a sequence of calls: the live states with their last priorities. -/
def stored (m : CostMap Inst D) (calls : List (UpdateCall Inst D S)) (st : S) : Option (List D) :=
  if st ∈ live calls then lastPriority m calls st else none

/-- One update. -/
lemma update_tracks {calls : List (UpdateCall Inst D S)} {c : UpdateCall Inst D S}
    (h : Tracks m s (stored m calls)) (hstored : ∀ st ∈ live calls, (stored m calls st).isSome)
    (hallowed : c.Allowed (live calls))
    (hpc : ∀ st ∈ c.touched, (m.costs (c.heap st).pc).isSome) :
    ∃ s', s.update c = .ok s' ∧ Tracks m s' (stored m (calls ++ [c])) ∧
      ∀ st ∈ live (calls ++ [c]), (stored m (calls ++ [c]) st).isSome := by
  have hcurrent : ∀ st ∈ c.current, st ∈ c.touched := fun st hst => by
    simpa [touched] using Or.inl hst
  have hadded : ∀ st ∈ c.addedStates, st ∈ c.touched := fun st hst => by
    simpa [touched] using Or.inr hst
  obtain ⟨s₁, hs₁, h₁⟩ := updateCurrent_tracks h
    (fun st hst => hstored st (hallowed.current st hst)) fun st hst => hpc st (hcurrent st hst)
  have hnew : ∀ st ∈ c.addedStates,
      (if st ∈ c.current then some (m.priority (c.heap st)) else stored m calls st) = none := by
    intro st hst
    have hdead := hallowed.added st hst
    rw [if_neg fun hcur => hdead (hallowed.current st hcur), stored, if_neg hdead]
  obtain ⟨s₂, hs₂, h₂⟩ := addStates_tracks h₁ hallowed.nodup_added hnew
    fun st hst => hpc st (hadded st hst)
  have hlive : ∀ st ∈ live calls ∪ c.addedStates.toFinset,
      (if st ∈ c.addedStates then some (m.priority (c.heap st)) else
        if st ∈ c.current then some (m.priority (c.heap st)) else stored m calls st).isSome := by
    intro st hst
    split
    · rfl
    · next hst' =>
      have hst : st ∈ live calls := by simpa [hst'] using hst
      split
      · rfl
      · exact hstored st hst
  obtain ⟨s₃, hs₃, h₃⟩ := removeStates_tracks h₂ hallowed.nodup_removed fun st hst =>
    hlive st (by simpa using hallowed.removed st hst)
  -- the map that the three loops leave is the one of the longer sequence
  have hmap : (fun st => if st ∈ c.removedStates then none else
      if st ∈ c.addedStates then some (m.priority (c.heap st)) else
        if st ∈ c.current then some (m.priority (c.heap st)) else stored m calls st) =
      stored m (calls ++ [c]) := by
    funext st
    simp only [stored, live_concat, liveAfter, lastPriority_concat, touched, Finset.mem_sdiff,
      Finset.mem_union, mem_toFinset, mem_append, Option.mem_toList]
    have hcur := hallowed.current st
    by_cases hrem : st ∈ c.removedStates <;> by_cases hadd : st ∈ c.addedStates <;>
      by_cases hc : st ∈ c.current <;> simp_all
  refine ⟨s₃, ?_, hmap ▸ h₃, fun st hst => ?_⟩
  · simp only [update, hs₁, hs₂, hs₃, bind, Except.bind]
  · rw [live_concat, liveAfter, Finset.mem_sdiff, mem_toFinset] at hst
    rw [← hmap]
    simpa [hst.2] using hlive st hst.1

/-- A run of allowed calls. -/
lemma run_tracks (m : CostMap Inst D) (calls : List (UpdateCall Inst D S))
    (hprotocol : Protocol calls)
    (hpc : ∀ c ∈ calls, ∀ st ∈ c.touched, (m.costs (c.heap st).pc).isSome) :
    ∃ s, (empty m).run calls = .ok s ∧ Tracks m s (stored m calls) ∧
      ∀ st ∈ live calls, (stored m calls st).isSome := by
  induction calls using reverseRecOn with
  | nil =>
    have hnone : stored m ([] : List (UpdateCall Inst D S)) = fun _ => none := by
      funext st
      simp [stored, live]
    exact ⟨empty m, rfl, ⟨.refl m, hnone ▸ PriorityIndex.represents_nil⟩, by simp [live]⟩
  | append_singleton calls c ih =>
    obtain ⟨hinit, hallowed⟩ := protocol_concat.mp hprotocol
    obtain ⟨s, hs, h, hstored⟩ := ih hinit fun c hc => hpc c (by simp [hc])
    obtain ⟨s', hs', h'⟩ := update_tracks h hstored hallowed (hpc c (by simp))
    refine ⟨s', ?_, h'⟩
    rw [run] at hs ⊢
    rw [foldlM_append, hs]
    show s.update c >>= pure = .ok s'
    rw [bind_pure, hs']

/-- For every sequence of calls that follows the protocol no assertion fails, the set holds every
live state exactly once with its last priority, and a live state of maximal priority is
selected. -/
theorem run_tracks_live (m : CostMap Inst D) (calls : List (UpdateCall Inst D S))
    (hprotocol : Protocol calls)
    (hpc : ∀ c ∈ calls, ∀ st ∈ c.touched, (m.costs (c.heap st).pc).isSome) :
    ∃ s, (empty m).run calls = .ok s ∧
      (s.states.map Prod.snd).Nodup ∧ (∀ st, st ∈ s.states.map Prod.snd ↔ st ∈ live calls) ∧
      (∀ p st, (p, st) ∈ s.states → lastPriority m calls st = some p) ∧
      ((live calls).Nonempty → ∃ p st, s.selectState = some st ∧ st ∈ live calls ∧
        (p, st) ∈ s.states ∧ ∀ e ∈ s.states, e.1 ≤ p) := by
  obtain ⟨s, hs, h, hstored⟩ := run_tracks m calls hprotocol hpc
  have hmem : ∀ p st, (p, st) ∈ s.states → st ∈ live calls ∧ lastPriority m calls st = some p := by
    intro p st he
    have hp := (h.index.mem_iff p st).mp he
    rw [stored] at hp
    split at hp
    · next hlive => exact ⟨hlive, hp⟩
    · exact absurd hp (by simp)
  have hitems : ∀ st, st ∈ s.states.map Prod.snd ↔ st ∈ live calls := by
    intro st
    constructor
    · intro hst
      obtain ⟨⟨p, st'⟩, he, rfl⟩ := mem_map.mp hst
      exact (hmem p st' he).1
    · intro hst
      obtain ⟨p, hp⟩ := Option.isSome_iff_exists.mp (hstored st hst)
      exact mem_map.mpr ⟨(p, st), (h.index.mem_iff p st).mpr hp, rfl⟩
  refine ⟨s, hs, h.index.nodup_items, hitems, fun p st he => (hmem p st he).2, ?_⟩
  rintro ⟨st₀, hst₀⟩
  obtain ⟨e₀, he₀, -⟩ := mem_map.mp ((hitems st₀).mpr hst₀)
  obtain ⟨⟨p, st⟩, hlast⟩ := Option.isSome_iff_exists.mp
    (getLast?_isSome.mpr (ne_nil_of_mem he₀))
  have hlast_mem : (p, st) ∈ s.states := mem_of_getLast? hlast
  exact ⟨p, st, by rw [selectState, hlast]; rfl, (hmem p st hlast_mem).1, hlast_mem,
    (h.index.getLast hlast).2⟩

/-- Rational numbers with an infinity. -/
instance : PriorityNumber (WithTop ℚ) where
  infinity := ⊤
  divNat x n := x.map fun q => q / n

/-- A state at instruction 0 that has seen one iteration. -/
def oneIteration (totalTime : ℚ) : StateView (Fin 1) (WithTop ℚ) := ⟨0, [none], 1, totalTime⟩

/-- The state 0 is added, forks the state 1 and exits. -/
def forkAndExit : List (UpdateCall (Fin 1) (WithTop ℚ) ℕ) :=
  [⟨fun _ => oneIteration 1, none, [0], []⟩] ++ [⟨fun _ => oneIteration 2, some 0, [1], [0]⟩]

lemma forkAndExit_protocol : Protocol forkAndExit := by
  refine protocol_concat.mpr ⟨?_, ?_⟩
  · show Protocol ([] ++ [_])
    refine protocol_concat.mpr ⟨protocol_nil, ?_⟩
    exact ⟨by simp, by simp, by simp [live], by simp, by simp⟩
  · exact ⟨by simp [live, liveAfter], by simp, by simp [live, liveAfter], by simp,
      by simp [live, liveAfter]⟩

theorem run_tracks_live_forkAndExit :
    Protocol forkAndExit ∧ ∃ s, (empty ⟨fun _ => some (true, 1), fun _ => none⟩).run forkAndExit =
      .ok s ∧ s.selectState = some 1 := by
  obtain ⟨s, hs, -, -, -, hselect⟩ := run_tracks_live ⟨fun _ => some (true, 1), fun _ => none⟩
    forkAndExit forkAndExit_protocol (fun _ _ _ _ => rfl)
  have hlive : live forkAndExit = {1} := by decide +kernel
  obtain ⟨p, st, hst, hmem, -⟩ := hselect (hlive ▸ Finset.singleton_nonempty 1)
  rw [hlive, Finset.mem_singleton] at hmem
  exact ⟨forkAndExit_protocol, s, hs, hmem ▸ hst⟩

end CastanSearcher

end Castan
