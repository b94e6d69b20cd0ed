/-
# Initial values from independent factors

`IndependentSolver::computeInitialValues` solves the factors of a query one by one and overlays
their answers.  A factor without arrays is skipped, so that an expression over constant arrays
alone is never decided.
-/
import Castan.Solver.IndependentFactors

namespace Castan

open List

/-- A further computation on the answer. -/
def Outcome.bind {α β : Type} (x : Outcome α) (f : α → Outcome β) : Outcome β :=
  match x with
  | failure => failure
  | assertion => assertion
  | success a => f a

namespace IndependentSolver

open IndependentElementSet

/-! ### The computation -/

/-- `calculateArrayReferences`: a set of arrays in the order of their addresses. -/
def calculateArrayReferences (ie : IndependentElementSet) : List KArray :=
  (ie.elements.keys ++ ie.wholeObjects).dedup.insertionSort fun a b => a.addr ≤ b.addr

/-- The bytes of arrays, `std::map<const Array *, std::vector<unsigned char>>`. -/
abbrev RetMap := AList fun _ : KArray => List (BitVec 8)

/-- The loop that places the answers for single elements. -/
def overlay (ds : Finset ℕ) (old new : List (BitVec 8)) : List (BitVec 8) :=
  (ds.sort (· ≤ ·)).foldl (fun bytes index => bytes.set index (new.getD index 0)) old

/-- The answer for one array of a factor. -/
def record (it : IndependentElementSet) (retMap : RetMap) (array : KArray)
    (tempValues : List (BitVec 8)) : Outcome RetMap :=
  match retMap.lookup array with
  | some old =>
      if old.length = tempValues.length then
        .success (retMap.insert array (overlay ((it.elements.lookup array).getD ∅) old tempValues))
      else .assertion
  | none => .success (retMap.insert array tempValues)

/-- The answers for the arrays of a factor. -/
def recordAll (it : IndependentElementSet) : RetMap → List (KArray × List (BitVec 8)) →
    Outcome RetMap
  | retMap, [] => .success retMap
  | retMap, answer :: answers =>
      (record it retMap answer.1 answer.2).bind fun retMap => recordAll it retMap answers

/-- The loop over the factors, `none` once one has no solution. -/
def solveFactors (solver : SolverImpl) : List IndependentElementSet → RetMap →
    Outcome (Option RetMap)
  | [], retMap => .success (some retMap)
  | it :: factors, retMap =>
      let arraysInFactor := calculateArrayReferences it
      if it.exprs = [] then .assertion
      else if arraysInFactor = [] then solveFactors solver factors retMap
      else
        match solver.computeInitialValues ⟨it.exprs, .const (.bool false)⟩ arraysInFactor with
        | none => .failure
        | some none => .success none
        | some (some tempValues) =>
            if tempValues.length = arraysInFactor.length then
              (recordAll it retMap (arraysInFactor.zip tempValues)).bind
                (solveFactors solver factors)
            else .assertion

/-- The values of the requested arrays, zeros for one that no factor reads. -/
def requested (objects : List KArray) (retMap : RetMap) : List (List (BitVec 8)) :=
  objects.map fun arr => (retMap.lookup arr).getD (List.replicate arr.size 0)

/-- The assignment that is checked in the end: the requested arrays and, behind them, the other
arrays of the factors. -/
def createdPoint (objects : List KArray) (retMap : RetMap) : Assignment :=
  ⟨retMap.entries.foldl (fun bs entry => Assignment.insertBinding entry.1 entry.2 bs)
    (Assignment.ofObjects objects (requested objects retMap)).bindings⟩

/-- `assertCreatedPointEvaluatesToTrue`, false also where an evaluation is no constant. -/
def assertCreatedPointEvaluatesToTrue (o : Opts) (query : Query) (assign : Assignment) : Bool :=
  query.constraints.all (fun c =>
      (assign.evaluateFree o c).constant?.any fun value => !value.isFalse) &&
    (assign.evaluateFree o (query.expr.createIsZero o)).constant?.any APInt.isTrue

/-- `IndependentSolver::computeInitialValues`, with `none` if there is no solution. -/
def computeInitialValues (o : Opts) (solver : SolverImpl) (query : Query)
    (objects : List KArray) : Outcome (Option (List (List (BitVec 8)))) :=
  match getAllIndependentConstraintsSets o query with
  | none => .assertion
  | some factors =>
      (solveFactors solver factors ∅).bind fun solution =>
        match solution with
        | none => .success none
        | some retMap =>
            if assertCreatedPointEvaluatesToTrue o query (createdPoint objects retMap) then
              .success (some (requested objects retMap))
            else .assertion

/-! ### Arrays and bytes -/

lemma mem_calculateArrayReferences {f : IndependentElementSet} (h : f.Shape) {array : KArray} :
    array ∈ calculateArrayReferences f ↔ ∃ i, f.Has array i := by
  rw [calculateArrayReferences, mem_insertionSort, mem_dedup, mem_append]
  constructor
  · rintro (hkey | hwhole)
    · obtain ⟨dis, hdis⟩ := Option.isSome_iff_exists.1 (AList.lookup_isSome.2 hkey)
      exact h.has_of_lookup hdis
    · exact ⟨0, Or.inl hwhole⟩
  · rintro ⟨i, hwhole | ⟨dis, hdis, -⟩⟩
    · exact Or.inr hwhole
    · exact Or.inl (AList.lookup_isSome.1 (by rw [hdis]; rfl))

lemma nodup_calculateArrayReferences (f : IndependentElementSet) :
    (calculateArrayReferences f).Nodup :=
  ((perm_insertionSort _ _).nodup_iff).2 (nodup_dedup _)

lemma calculateArrayReferences_eq_nil {f : IndependentElementSet} (h : f.Shape) :
    calculateArrayReferences f = [] ↔ ¬ f.Tracked := by
  rw [eq_nil_iff_forall_not_mem, Tracked, not_exists]
  exact forall_congr' fun array => (mem_calculateArrayReferences h).not

/-- The byte of a cell. -/
def RetMap.byte? (retMap : RetMap) (array : KArray) (i : ℕ) : Option (BitVec 8) :=
  (retMap.lookup array).bind (·[i]?)

lemma overlay_getElem? (ds : Finset ℕ) (old new : List (BitVec 8)) (i : ℕ) :
    (overlay ds old new)[i]? =
      if i ∈ ds ∧ i < old.length then some (new.getD i 0) else old[i]? := by
  have hfold : ∀ (is : List ℕ) (bytes : List (BitVec 8)),
      (is.foldl (fun bytes index => bytes.set index (new.getD index 0)) bytes)[i]? =
        if i ∈ is ∧ i < bytes.length then some (new.getD i 0) else bytes[i]? := by
    intro is
    induction is with
    | nil => simp
    | cons index is ih =>
      intro bytes
      rw [foldl_cons, ih, length_set, List.getElem?_set]
      grind
  rw [overlay, hfold]
  simp

lemma overlay_length (ds : Finset ℕ) (old new : List (BitVec 8)) :
    (overlay ds old new).length = old.length := by
  have hfold : ∀ (is : List ℕ) (bytes : List (BitVec 8)),
      (is.foldl (fun bytes index => bytes.set index (new.getD index 0)) bytes).length =
        bytes.length := by
    intro is
    induction is with
    | nil => exact fun bytes => rfl
    | cons index is ih => exact fun bytes => (ih _).trans (length_set ..)
  exact hfold _ old

/-- Every array has as many bytes as cells. -/
def RetMap.Sized (retMap : RetMap) : Prop :=
  ∀ array bytes, retMap.lookup array = some bytes → bytes.length = array.size

lemma RetMap.byte?_insert (retMap : RetMap) (array : KArray) (bytes : List (BitVec 8))
    (x : KArray) (i : ℕ) :
    RetMap.byte? (retMap.insert array bytes) x i =
      if x = array then bytes[i]? else retMap.byte? x i := by
  rw [byte?]
  split
  · next h =>
    subst h
    rw [AList.lookup_insert, Option.bind_some]
  · next h => rw [AList.lookup_insert_ne h, byte?]

lemma RetMap.Sized.insert {retMap : RetMap} (h : retMap.Sized) {array : KArray}
    {bytes : List (BitVec 8)} (hbytes : bytes.length = array.size) :
    RetMap.Sized (retMap.insert array bytes) := by
  intro x bytes' hlookup
  rcases eq_or_ne x array with rfl | hne
  · rw [AList.lookup_insert] at hlookup
    exact Option.some.inj hlookup ▸ hbytes
  · rw [AList.lookup_insert_ne hne] at hlookup
    exact h x bytes' hlookup

/-- The bytes are the contents of the array under the valuation. -/
structure Contents (ρ : Valuation) (array : KArray) (bytes : List (BitVec 8)) : Prop where
  length_eq : bytes.length = array.size
  cells : ∀ i b, bytes[i]? = some b → ρ array i = b.toNat

/-! ### The answers of a factor -/

/-- The answers for the arrays of the factor `f` have been taken from the valuation. -/
structure Recorded (f : IndependentElementSet) (ρ : Valuation) (arrays : List KArray)
    (retMap retMap' : RetMap) : Prop where
  sized : retMap'.Sized
  mem_iff : ∀ x, x ∈ retMap' ↔ x ∈ retMap ∨ x ∈ arrays
  /-- A byte is an older one or from the valuation. -/
  origin : ∀ x i b, retMap'.byte? x i = some b → retMap.byte? x i = some b ∨ ρ x i = b.toNat
  /-- The cells of the factor are from the valuation. -/
  own : ∀ x ∈ arrays, ∀ i b, f.Has x i → retMap'.byte? x i = some b → ρ x i = b.toNat
  /-- The other cells of an array that was there are the older ones. -/
  older : ∀ x ∈ retMap, ∀ i, (x ∈ arrays → ¬ f.Has x i) → retMap'.byte? x i = retMap.byte? x i

variable {f : IndependentElementSet} {ρ : Valuation} {retMap : RetMap}

lemma Recorded.cons {x : KArray} {xs : List KArray} {retMap' retMap'' : RetMap}
    (h : Recorded f ρ [x] retMap retMap') (h' : Recorded f ρ xs retMap' retMap'') (hx : x ∉ xs) :
    Recorded f ρ (x :: xs) retMap retMap'' := by
  have hmem : ∀ y, y ∈ retMap → y ∈ retMap' := fun y hy => (h.mem_iff y).2 (Or.inl hy)
  have hx' : x ∈ retMap' := (h.mem_iff x).2 (Or.inr (mem_singleton.2 rfl))
  refine ⟨h'.sized, fun y => ?_, fun y i b hb => ?_, fun y hy i b hhas hb => ?_,
    fun y hy i hnot => ?_⟩
  · rw [h'.mem_iff, h.mem_iff, mem_singleton, mem_cons, or_assoc]
  · rcases h'.origin y i b hb with hold | hnew
    · exact h.origin y i b hold
    · exact Or.inr hnew
  · rcases mem_cons.1 hy with rfl | hy
    · rw [h'.older y hx' i fun hmem => absurd hmem hx] at hb
      exact h.own y (mem_singleton.2 rfl) i b hhas hb
    · exact h'.own y hy i b hhas hb
  · rw [h'.older y (hmem y hy) i fun hin => hnot (mem_cons_of_mem _ hin)]
    refine h.older y hy i fun hin => hnot ?_
    rw [mem_singleton.1 hin]
    exact mem_cons_self ..

lemma record_spec (hret : retMap.Sized) {x : KArray} {bytes : List (BitVec 8)}
    (hbytes : Contents ρ x bytes) (hnew : x ∈ retMap → x ∉ f.wholeObjects) :
    ∃ retMap', record f retMap x bytes = .success retMap' ∧ Recorded f ρ [x] retMap retMap' := by
  rw [record]
  cases hlookup : retMap.lookup x with
  | none =>
    have hnone : x ∉ retMap := AList.lookup_eq_none.1 hlookup
    refine ⟨_, rfl, hret.insert hbytes.length_eq, fun y => ?_, fun y i b hb => ?_,
      fun y hy i b _ hb => ?_, fun y hy i _ => ?_⟩
    · rw [AList.mem_insert, mem_singleton, or_comm]
    · rw [RetMap.byte?_insert] at hb
      split at hb
      · next h => exact Or.inr (h ▸ hbytes.cells i b hb)
      · exact Or.inl hb
    · rw [RetMap.byte?_insert, if_pos (mem_singleton.1 hy)] at hb
      rw [mem_singleton.1 hy]
      exact hbytes.cells i b hb
    · rw [RetMap.byte?_insert, if_neg]
      rintro rfl
      exact hnone hy
  | some old =>
    have hlen : old.length = bytes.length := (hret x old hlookup).trans hbytes.length_eq.symm
    have hold : ∀ i, retMap.byte? x i = old[i]? := fun i => by
      rw [RetMap.byte?, hlookup, Option.bind_some]
    have hmem : x ∈ retMap := AList.lookup_isSome.1 (by rw [hlookup]; rfl)
    -- the cells of the factor in an array that was there are its single elements
    have hcells : ∀ i, f.Has x i ↔ i ∈ (f.elements.lookup x).getD ∅ := by
      intro i
      rw [Has, or_iff_right (hnew hmem)]
      cases f.elements.lookup x <;> simp
    have hown : ∀ i, f.Has x i →
        (overlay ((f.elements.lookup x).getD ∅) old bytes)[i]? = bytes[i]? := by
      intro i hhas
      rw [overlay_getElem?]
      by_cases hlt : i < bytes.length
      · rw [if_pos ⟨(hcells i).1 hhas, hlen ▸ hlt⟩, getD_eq_getElem?_getD,
          List.getElem?_eq_getElem hlt, Option.getD_some]
      · rw [if_neg fun h => hlt (hlen ▸ h.2), List.getElem?_eq_none (by omega),
          List.getElem?_eq_none (by omega)]
    have hother : ∀ i, ¬ f.Has x i →
        (overlay ((f.elements.lookup x).getD ∅) old bytes)[i]? = old[i]? := by
      intro i hhas
      rw [overlay_getElem?, if_neg fun h => hhas ((hcells i).2 h.1)]
    refine ⟨_, if_pos hlen, hret.insert ((overlay_length ..).trans (hret x old hlookup)),
      fun y => ?_, fun y i b hb => ?_, fun y hy i b hhas hb => ?_, fun y hy i hnot => ?_⟩
    · rw [AList.mem_insert, mem_singleton, or_comm]
    · rw [RetMap.byte?_insert] at hb
      split at hb
      · next h =>
        subst h
        by_cases hhas : f.Has y i
        · exact Or.inr (hbytes.cells i b (hown i hhas ▸ hb))
        · exact Or.inl (by rw [hold, ← hother i hhas, hb])
      · exact Or.inl hb
    · obtain rfl := mem_singleton.1 hy
      rw [RetMap.byte?_insert, if_pos rfl, hown i hhas] at hb
      exact hbytes.cells i b hb
    · rw [RetMap.byte?_insert]
      split
      · next h =>
        subst h
        rw [hother i (hnot (mem_singleton.2 rfl)), hold]
      · rfl

lemma recordAll_spec {arrays : List KArray} {values : List (List (BitVec 8))}
    (hvalues : List.Forall₂ (Contents ρ) arrays values) (hnodup : arrays.Nodup)
    (hret : retMap.Sized) (hnew : ∀ x ∈ arrays, x ∈ retMap → x ∉ f.wholeObjects) :
    ∃ retMap', recordAll f retMap (arrays.zip values) = .success retMap' ∧
      Recorded f ρ arrays retMap retMap' := by
  induction hvalues generalizing retMap with
  | nil =>
    exact ⟨retMap, rfl, hret, by simp, fun x i b hb => Or.inl hb, nofun, fun _ _ _ _ => rfl⟩
  | @cons x bytes arrays values hbytes _ ih =>
    obtain ⟨hx, hnodup⟩ := nodup_cons.1 hnodup
    obtain ⟨retMap₁, hrec, hspec⟩ :=
      record_spec hret hbytes (hnew x (mem_cons_self ..))
    obtain ⟨retMap₂, hrec', hspec'⟩ := ih hnodup hspec.sized fun y hy hmem => by
      rcases (hspec.mem_iff y).1 hmem with hold | hxy
      · exact hnew y (mem_cons_of_mem _ hy) hold
      · exact absurd (mem_singleton.1 hxy ▸ hy) hx
    refine ⟨retMap₂, ?_, hspec.cons hspec' hx⟩
    rw [zip_cons_cons, recordAll, hrec]
    exact hrec'

end IndependentSolver

/-! ### The wrapped solver -/

/-- `computeInitialValues` of the solver does not fail, is right about there being a solution, and
returns the contents of the arrays in one. -/
def SolverImpl.SolvesInitialValues (solver : SolverImpl) : Prop :=
  ∀ (q : Query) (objects : List KArray), (∀ c ∈ q.constraints, c.IsConstraint ∧ c.Indexable) →
    q.expr.IsConstraint → q.expr.Indexable → (∀ array ∈ objects, array.range = 8) →
    (¬ ∃ ρ, q.FalsifiedBy ρ) ∧ solver.computeInitialValues q objects = some none ∨
      ∃ values ρ, solver.computeInitialValues q objects = some (some values) ∧ q.FalsifiedBy ρ ∧
        List.Forall₂ (IndependentSolver.Contents ρ) objects values

namespace IndependentSolver

open IndependentElementSet

variable {f : IndependentElementSet} {ρ : Valuation} {retMap retMap' : RetMap}

/-- Every expression of the factor holds. -/
def SolvedBy (f : IndependentElementSet) (ρ : Valuation) : Prop := ∀ e ∈ f.exprs, e.Holds ρ

/-- The solver is right about a factor, with a valuation in `G` if there is a solution. -/
def Answered (solver : SolverImpl) (G : Valuation → Prop) (f : IndependentElementSet) : Prop :=
  (¬ ∃ ρ, SolvedBy f ρ) ∧ solver.computeInitialValues ⟨f.exprs, .const (.bool false)⟩
      (calculateArrayReferences f) = some none ∨
    ∃ values ρ, solver.computeInitialValues ⟨f.exprs, .const (.bool false)⟩
      (calculateArrayReferences f) = some (some values) ∧ G ρ ∧ SolvedBy f ρ ∧
        List.Forall₂ (Contents ρ) (calculateArrayReferences f) values

/-- Some factors with their solutions, and the bytes recorded for them. -/
structure Solved (done : List (IndependentElementSet × Valuation)) (retMap : RetMap) : Prop where
  solvedBy : ∀ d ∈ done, SolvedBy d.1 d.2
  separate : done.Pairwise fun d d' => d.1.Separate d'.1
  sized : retMap.Sized
  mem_iff : ∀ x, x ∈ retMap ↔ ∃ d ∈ done, ∃ i, d.1.Has x i
  cells : ∀ d ∈ done, ∀ x i b, d.1.Has x i → retMap.byte? x i = some b → d.2 x i = b.toNat
  origin : ∀ x i b, retMap.byte? x i = some b → ∃ d ∈ done, d.2 x i = b.toNat

lemma Solved.record {done : List (IndependentElementSet × Valuation)} (h : Solved done retMap)
    (hf : f.Shape) (hsolved : SolvedBy f ρ) (hsep : ∀ d ∈ done, d.1.Separate f)
    (hrec : Recorded f ρ (calculateArrayReferences f) retMap retMap') :
    Solved ((f, ρ) :: done) retMap' := by
  have hmem : ∀ x, x ∈ calculateArrayReferences f ↔ ∃ i, f.Has x i :=
    fun x => mem_calculateArrayReferences hf
  refine ⟨forall_mem_cons.2 ⟨hsolved, h.solvedBy⟩, pairwise_cons.2
    ⟨fun d hd x i hi hi' => hsep d hd x i hi' hi, h.separate⟩, hrec.sized, fun x => ?_, ?_, ?_⟩
  · rw [hrec.mem_iff, hmem, h.mem_iff, exists_mem_cons_iff, or_comm]
  · refine forall_mem_cons.2 ⟨fun x i b hhas hb => ?_, fun d hd x i b hhas hb => ?_⟩
    · exact hrec.own x ((hmem x).2 ⟨i, hhas⟩) i b hhas hb
    · rw [hrec.older x ((h.mem_iff x).2 ⟨d, hd, i, hhas⟩) i fun _ => hsep d hd x i hhas] at hb
      exact h.cells d hd x i b hhas hb
  · intro x i b hb
    rcases hrec.origin x i b hb with hold | hnew
    · obtain ⟨d, hd, heq⟩ := h.origin x i b hold
      exact ⟨d, mem_cons_of_mem _ hd, heq⟩
    · exact ⟨(f, ρ), mem_cons_self .., hnew⟩

/-- The loop over `factors` has gone on from `done` to `done'`. -/
structure Collected (G : Valuation → Prop) (factors : List IndependentElementSet)
    (done done' : List (IndependentElementSet × Valuation)) (retMap : RetMap) : Prop where
  solved : Solved done' retMap
  good : ∀ d ∈ done', G d.2
  keeps : ∀ d ∈ done, d ∈ done'
  origin : ∀ d ∈ done', d ∈ done ∨ d.1 ∈ factors
  covers : ∀ f ∈ factors, f.Tracked → ∃ ρ, (f, ρ) ∈ done'

section Loop

variable {solver : SolverImpl} {G : Valuation → Prop} {factors : List IndependentElementSet}

lemma solveFactors_untracked (hf : f.IsFactor) (h : ¬ f.Tracked) :
    solveFactors solver (f :: factors) retMap = solveFactors solver factors retMap := by
  rw [solveFactors, if_neg hf.nonempty, if_pos ((calculateArrayReferences_eq_nil hf.shape).2 h)]

lemma solveFactors_unsolved (hf : f.IsFactor) (h : f.Tracked)
    (hcall : solver.computeInitialValues ⟨f.exprs, .const (.bool false)⟩
      (calculateArrayReferences f) = some none) :
    solveFactors solver (f :: factors) retMap = .success none := by
  have hne := (calculateArrayReferences_eq_nil hf.shape).not.2 (not_not.2 h)
  rw [solveFactors, if_neg hf.nonempty, if_neg hne, hcall]

lemma solveFactors_solved (hf : f.IsFactor) (h : f.Tracked) {values : List (List (BitVec 8))}
    (hcall : solver.computeInitialValues ⟨f.exprs, .const (.bool false)⟩
      (calculateArrayReferences f) = some (some values))
    (hlen : values.length = (calculateArrayReferences f).length)
    (hrec : recordAll f retMap ((calculateArrayReferences f).zip values) = .success retMap') :
    solveFactors solver (f :: factors) retMap = solveFactors solver factors retMap' := by
  have hne := (calculateArrayReferences_eq_nil hf.shape).not.2 (not_not.2 h)
  simp only [solveFactors, if_neg hf.nonempty, if_neg hne, hcall, if_pos hlen, hrec]
  rfl

/-- The loop over the factors stops at one without a solution, or collects a solution of each that
reads an array. -/
lemma solveFactors_spec (factors : List IndependentElementSet)
    (hfactors : ∀ f ∈ factors, f.IsFactor) (hsep : factors.Pairwise Separate)
    (hanswer : ∀ f ∈ factors, f.Tracked → Answered solver G f)
    {done : List (IndependentElementSet × Valuation)} (hdone : Solved done retMap)
    (hgood : ∀ d ∈ done, G d.2) (hsep' : ∀ d ∈ done, ∀ f ∈ factors, d.1.Separate f) :
    (solveFactors solver factors retMap = .success none ∧
      ∃ f ∈ factors, f.Tracked ∧ ¬ ∃ ρ, SolvedBy f ρ) ∨
    ∃ retMap' done', solveFactors solver factors retMap = .success (some retMap') ∧
      Collected G factors done done' retMap' := by
  induction factors generalizing retMap done with
  | nil =>
    exact Or.inr ⟨retMap, done, rfl, hdone, hgood, fun _ h => h, fun _ h => Or.inl h, nofun⟩
  | cons f factors ih =>
    obtain ⟨hf, hfactors⟩ := forall_mem_cons.1 hfactors
    obtain ⟨hfsep, hsep⟩ := pairwise_cons.1 hsep
    obtain ⟨hfanswer, hanswer⟩ := forall_mem_cons.1 hanswer
    have hrest : ∀ d ∈ done, ∀ g ∈ factors, d.1.Separate g :=
      fun d hd g hg => hsep' d hd g (mem_cons_of_mem _ hg)
    by_cases htracked : f.Tracked
    · rcases hfanswer htracked with ⟨hnone, hcall⟩ | ⟨values, ρ, hcall, hG, hsolved, hvalues⟩
      · exact Or.inl ⟨solveFactors_unsolved hf htracked hcall, f, mem_cons_self .., htracked,
          hnone⟩
      · have hfd : ∀ d ∈ done, d.1.Separate f := fun d hd => hsep' d hd f (mem_cons_self ..)
        obtain ⟨retMap₁, hrec, hspec⟩ := recordAll_spec (f := f) hvalues
          (nodup_calculateArrayReferences f) hdone.sized fun x _ hx hwhole => by
            obtain ⟨d, hd, i, hi⟩ := (hdone.mem_iff x).1 hx
            exact hfd d hd x i hi (Or.inl hwhole)
        rw [solveFactors_solved hf htracked hcall hvalues.length_eq.symm hrec]
        rcases ih hfactors hsep hanswer (hdone.record hf.shape hsolved hfd hspec)
          (forall_mem_cons.2 ⟨hG, hgood⟩) (forall_mem_cons.2 ⟨hfsep, hrest⟩) with
          ⟨hrun, g, hg, hun⟩ | ⟨retMap', done', hrun, hcol⟩
        · exact Or.inl ⟨hrun, g, mem_cons_of_mem _ hg, hun⟩
        · refine Or.inr ⟨retMap', done', hrun, hcol.solved, hcol.good,
            fun d hd => hcol.keeps d (mem_cons_of_mem _ hd), fun d hd => ?_,
            forall_mem_cons.2 ⟨fun _ => ⟨ρ, hcol.keeps _ (mem_cons_self ..)⟩, hcol.covers⟩⟩
          rcases hcol.origin d hd with hold | hnew
          · rcases mem_cons.1 hold with rfl | hold
            · exact Or.inr (mem_cons_self ..)
            · exact Or.inl hold
          · exact Or.inr (mem_cons_of_mem _ hnew)
    · rw [solveFactors_untracked hf htracked]
      rcases ih hfactors hsep hanswer hdone hgood hrest with
        ⟨hrun, g, hg, hun⟩ | ⟨retMap', done', hrun, hcol⟩
      · exact Or.inl ⟨hrun, g, mem_cons_of_mem _ hg, hun⟩
      · exact Or.inr ⟨retMap', done', hrun, hcol.solved, hcol.good, hcol.keeps,
          fun d hd => (hcol.origin d hd).imp_right (mem_cons_of_mem _),
          forall_mem_cons.2 ⟨fun h => absurd h htracked, hcol.covers⟩⟩

end Loop

end IndependentSolver

end Castan
