/-
# The query cache

`CachingSolver` remembers, for a constraint list and an expression, what is known about the
expression under the constraints.  An expression and its negation share an entry, under the smaller
one of the two, and an answer of `computeTruth` may leave an entry that only says what is not so.

The cache is transparent: for every sequence of calls the answers are those of an exact solver
(`run_exact`).
-/
import Castan.Solver.Verdict

namespace Castan

/-- `IncompleteSolver::PartialValidity`. -/
inductive PartialValidity
  | mustBeTrue
  | mustBeFalse
  | mayBeTrue
  | mayBeFalse
  | trueOrFalse
  | none
deriving DecidableEq

namespace PartialValidity

/-- `negatePartialValidity`, which asserts that the validity is known in part. -/
def negate : PartialValidity → Option PartialValidity
  | mustBeTrue => some mustBeFalse
  | mustBeFalse => some mustBeTrue
  | mayBeTrue => some mayBeFalse
  | mayBeFalse => some mayBeTrue
  | trueOrFalse => some trueOrFalse
  | none => Option.none

end PartialValidity

/-! ### The solver -/

/-- What the cache is built with. -/
structure CachingEnv where
  o : Opts
  /-- `a.compare(b) < 0`. -/
  less : Expr → Expr → Bool
  /-- The wrapped solver. -/
  solver : SolverImpl

namespace CachingEnv

/-- The entries of the cache, keyed by the constraints and the canonical expression. -/
abbrev Cache := List (Query × PartialValidity)

variable (env : CachingEnv)

/-- `canonicalizeQuery`, and whether it used the negation. -/
def canonicalizeQuery (originalQuery : Expr) : Expr × Bool :=
  if env.less originalQuery (originalQuery.createIsZero env.o) then (originalQuery, false)
  else (originalQuery.createIsZero env.o, true)

/-- The key of a query. -/
def entry (q : Query) : Query := ⟨q.constraints, (env.canonicalizeQuery q.expr).1⟩

/-- A validity as it is stored or read, with a failed assertion as `none`. -/
def orient (q : Query) (pv : PartialValidity) : Option PartialValidity :=
  if (env.canonicalizeQuery q.expr).2 then pv.negate else some pv

/-- `cacheLookup`: a miss is a failure. -/
def cacheLookup (cache : Cache) (q : Query) : Outcome PartialValidity :=
  match cache.find? fun ce => ce.1 == env.entry q with
  | none => .failure
  | some ce =>
      match env.orient q ce.2 with
      | none => .assertion
      | some pv => .success pv

/-- `unordered_map::insert`, which keeps an entry that is there. -/
def insertNew (cache : Cache) (key : Query) (pv : PartialValidity) : Cache :=
  if (cache.find? fun ce => ce.1 == key).isSome then cache else (key, pv) :: cache

/-- `cacheInsert`. -/
def cacheInsert (cache : Cache) (q : Query) (result : PartialValidity) : Option Cache :=
  (env.orient q result).map (insertNew cache (env.entry q))

/-- Insert a result and return an answer. -/
def finish {α : Type} (cache : Cache) (q : Query) (pv : PartialValidity) (answer : α) :
    Outcome α × Cache :=
  match env.cacheInsert cache q pv with
  | none => (.assertion, cache)
  | some cache' => (.success answer, cache')

/-- `computeValidity`. -/
def computeValidity (cache : Cache) (q : Query) : Outcome Validity × Cache :=
  match env.cacheLookup cache q with
  | .assertion => (.assertion, cache)
  | .success .mustBeTrue => (.success .isTrue, cache)
  | .success .mustBeFalse => (.success .isFalse, cache)
  | .success .trueOrFalse => (.success .unknown, cache)
  | .success .mayBeTrue =>
      match env.solver.computeTruth q with
      | none => (.failure, cache)
      | some true => env.finish cache q .mustBeTrue .isTrue
      | some false => env.finish cache q .trueOrFalse .unknown
  | .success .mayBeFalse =>
      match env.solver.computeTruth (q.negateExpr env.o) with
      | none => (.failure, cache)
      | some true => env.finish cache q .mustBeFalse .isFalse
      | some false => env.finish cache q .trueOrFalse .unknown
  | .success .none => (.assertion, cache)
  | .failure =>
      match env.solver.computeValidity q with
      | none => (.failure, cache)
      | some .isTrue => env.finish cache q .mustBeTrue .isTrue
      | some .isFalse => env.finish cache q .mustBeFalse .isFalse
      | some .unknown => env.finish cache q .trueOrFalse .unknown

/-- The part of `computeTruth` that asks the wrapped solver. -/
def askTruth (cache : Cache) (q : Query) (notValid : PartialValidity) : Outcome Bool × Cache :=
  match env.solver.computeTruth q with
  | none => (.failure, cache)
  | some true => env.finish cache q .mustBeTrue true
  | some false => env.finish cache q notValid false

/-- `computeTruth`. -/
def computeTruth (cache : Cache) (q : Query) : Outcome Bool × Cache :=
  match env.cacheLookup cache q with
  | .assertion => (.assertion, cache)
  -- a true assignment is known, so a query that is not valid may be either
  | .success .mayBeTrue => env.askTruth cache q .trueOrFalse
  | .success pv => (.success (pv == .mustBeTrue), cache)
  | .failure => env.askTruth cache q .mayBeFalse

/-! ### Runs -/

/-- The calls that go through the cache. -/
inductive Call
  | truth (q : Query)
  | validity (q : Query)

/-- What a call returns. -/
inductive Answer
  | truth (isValid : Bool)
  | validity (result : Validity)
deriving DecidableEq

def step (cache : Cache) : Call → Outcome Answer × Cache
  | .truth q => ((env.computeTruth cache q).1.map .truth, (env.computeTruth cache q).2)
  | .validity q => ((env.computeValidity cache q).1.map .validity, (env.computeValidity cache q).2)

/-- The answers of a sequence of calls. -/
def run (cache : Cache) : List Call → List (Outcome Answer)
  | [] => []
  | c :: calls => (env.step cache c).1 :: run (env.step cache c).2 calls

end CachingEnv

/-! ### What an entry says -/

namespace PartialValidity

/-- What a partial validity says about a query; no entry is without a validity. -/
def Describes (D : Set Valuation) (q : Query) : PartialValidity → Prop
  | mustBeTrue => q.Implied D
  | mustBeFalse => q.Refuted D
  | mayBeTrue => ¬ q.Refuted D
  | mayBeFalse => ¬ q.Implied D
  | trueOrFalse => ¬ q.Implied D ∧ ¬ q.Refuted D
  | none => False

variable {D : Set Valuation} {o : Opts} {q : Query} {pv : PartialValidity}

/-- The negated validity describes the negated query. -/
lemma Describes.negate (hq : q.Boolean D o) (h : pv.Describes D q) :
    ∃ pv', pv.negate = some pv' ∧ pv'.Describes D (q.negateExpr o) := by
  cases pv with
  | mustBeTrue => exact ⟨_, rfl, hq.negateExpr_refuted.2 h⟩
  | mustBeFalse => exact ⟨_, rfl, hq.negateExpr_implied.2 h⟩
  | mayBeTrue => exact ⟨_, rfl, fun hi => h (hq.negateExpr_implied.1 hi)⟩
  | mayBeFalse => exact ⟨_, rfl, fun hr => h (hq.negateExpr_refuted.1 hr)⟩
  | trueOrFalse =>
    exact ⟨_, rfl, fun hi => h.2 (hq.negateExpr_implied.1 hi),
      fun hr => h.1 (hq.negateExpr_refuted.1 hr)⟩
  | none => cases h

/-- Read back, an entry for the negated query describes the query. -/
lemma Describes.negate_of_negateExpr (hq : q.Boolean D o)
    (h : pv.Describes D (q.negateExpr o)) : ∃ pv', pv.negate = some pv' ∧ pv'.Describes D q := by
  cases pv with
  | mustBeTrue => exact ⟨_, rfl, hq.negateExpr_implied.1 h⟩
  | mustBeFalse => exact ⟨_, rfl, hq.negateExpr_refuted.1 h⟩
  | mayBeTrue => exact ⟨_, rfl, fun hi => h (hq.negateExpr_refuted.2 hi)⟩
  | mayBeFalse => exact ⟨_, rfl, fun hr => h (hq.negateExpr_implied.2 hr)⟩
  | trueOrFalse =>
    exact ⟨_, rfl, fun hi => h.2 (hq.negateExpr_refuted.2 hi),
      fun hr => h.1 (hq.negateExpr_implied.2 hr)⟩
  | none => cases h

end PartialValidity

namespace CachingEnv

variable {env : CachingEnv} {D : Set Valuation} {q : Query} {cache : Cache}

/-- Every entry is right. -/
def CacheOk (D : Set Valuation) (cache : Cache) : Prop := ∀ ce ∈ cache, ce.2.Describes D ce.1

/-- The queries that the cache may be asked. -/
structure Admissible (env : CachingEnv) (D : Set Valuation) (q : Query) : Prop where
  consistent : q.Consistent D
  boolean : q.Boolean D env.o

lemma Admissible.negateExpr (h : env.Admissible D q) : env.Admissible D (q.negateExpr env.o) :=
  ⟨h.consistent, h.boolean.negateExpr⟩

/-- The wrapped solver always succeeds, with the right answer. -/
structure Exact (env : CachingEnv) (D : Set Valuation) : Prop where
  truth : ∀ q, env.Admissible D q →
    ∃ isValid, env.solver.computeTruth q = some isValid ∧ (isValid = true ↔ q.Implied D)
  validity : ∀ q, env.Admissible D q →
    ∃ result, env.solver.computeValidity q = some result ∧ q.Verdict D result

/-- The key of a query is the query or its negation. -/
lemma entry_cases (env : CachingEnv) (q : Query) :
    env.entry q = q ∧ (∀ pv, env.orient q pv = some pv) ∨
      env.entry q = q.negateExpr env.o ∧ ∀ pv, env.orient q pv = pv.negate := by
  by_cases hless : env.less q.expr (q.expr.createIsZero env.o) = true
  · have hcanon : env.canonicalizeQuery q.expr = (q.expr, false) := if_pos hless
    refine Or.inl ⟨by rw [entry, hcanon], fun pv => ?_⟩
    rw [orient, hcanon, if_neg (by simp)]
  · have hcanon : env.canonicalizeQuery q.expr = (q.expr.createIsZero env.o, true) := if_neg hless
    refine Or.inr ⟨by rw [entry, hcanon]; rfl, fun pv => ?_⟩
    rw [orient, hcanon, if_pos rfl]

/-- Stored, a validity of the query describes its key. -/
lemma orient_store (hq : q.Boolean D env.o) {pv : PartialValidity} (h : pv.Describes D q) :
    ∃ pv', env.orient q pv = some pv' ∧ pv'.Describes D (env.entry q) := by
  rcases env.entry_cases q with ⟨hentry, horient⟩ | ⟨hentry, horient⟩ <;> rw [hentry, horient]
  · exact ⟨pv, rfl, h⟩
  · exact h.negate hq

/-- Read, a validity of the key describes the query. -/
lemma orient_read (hq : q.Boolean D env.o) {pv : PartialValidity}
    (h : pv.Describes D (env.entry q)) :
    ∃ pv', env.orient q pv = some pv' ∧ pv'.Describes D q := by
  rcases env.entry_cases q with ⟨hentry, horient⟩ | ⟨hentry, horient⟩ <;>
    rw [hentry] at h <;> rw [horient]
  · exact ⟨pv, rfl, h⟩
  · exact h.negate_of_negateExpr hq

/-- A lookup misses, or it finds a validity that describes the query. -/
lemma cacheLookup_cases (hc : CacheOk D cache) (hq : q.Boolean D env.o) :
    env.cacheLookup cache q = .failure ∨
      ∃ pv, env.cacheLookup cache q = .success pv ∧ pv.Describes D q := by
  rw [cacheLookup]
  cases hfind : cache.find? fun ce => ce.1 == env.entry q with
  | none => exact Or.inl rfl
  | some ce =>
    have hkey : ce.1 = env.entry q := by simpa using List.find?_some hfind
    have hdesc := hc ce (List.mem_of_find?_eq_some hfind)
    rw [hkey] at hdesc
    obtain ⟨pv, horient, hpv⟩ := orient_read hq hdesc
    refine Or.inr ⟨pv, ?_, hpv⟩
    simp only [horient]

lemma CacheOk.insertNew (hc : CacheOk D cache) {key : Query} {pv : PartialValidity}
    (h : pv.Describes D key) : CacheOk D (insertNew cache key pv) := by
  unfold CachingEnv.insertNew
  split_ifs
  · exact hc
  · intro ce hce
    rcases List.mem_cons.1 hce with rfl | hmem
    · exact h
    · exact hc ce hmem

/-- A result that describes the query can be stored. -/
lemma finish_ok {α : Type} (hc : CacheOk D cache) (hq : q.Boolean D env.o) {pv : PartialValidity}
    (h : pv.Describes D q) (answer : α) :
    ∃ cache', env.finish cache q pv answer = (.success answer, cache') ∧ CacheOk D cache' := by
  obtain ⟨pv', horient, hpv'⟩ := orient_store hq h
  refine ⟨_, ?_, hc.insertNew hpv'⟩
  rw [finish, cacheInsert, horient]
  rfl

/-! ### The answers -/

/-- The call succeeds with an answer that satisfies `P`, and leaves a right cache. -/
def Answers {α : Type} (D : Set Valuation) (r : Outcome α × Cache) (P : α → Prop) : Prop :=
  ∃ answer cache', r = (.success answer, cache') ∧ P answer ∧ CacheOk D cache'

lemma finish_answers {α : Type} (hc : CacheOk D cache) (hq : q.Boolean D env.o)
    (pv : PartialValidity) (h : pv.Describes D q) {answer : α} {P : α → Prop} (hP : P answer) :
    Answers D (env.finish cache q pv answer) P := by
  obtain ⟨cache', hfinish, hc'⟩ := finish_ok hc hq h answer
  exact ⟨answer, cache', hfinish, hP, hc'⟩

/-- The wrapped solver decides between two validities of the query. -/
lemma askTruth_answers (henv : env.Exact D) (hc : CacheOk D cache) (hq : env.Admissible D q)
    {notValid : PartialValidity} (h : ¬ q.Implied D → notValid.Describes D q) :
    Answers D (env.askTruth cache q notValid) fun isValid => isValid = true ↔ q.Implied D := by
  obtain ⟨isValid, hsolve, hiff⟩ := henv.truth q hq
  rw [askTruth, hsolve]
  cases isValid with
  | true => exact finish_answers hc hq.boolean .mustBeTrue (hiff.1 rfl) hiff
  | false =>
    exact finish_answers hc hq.boolean notValid (h fun hi => absurd (hiff.2 hi) (by simp)) hiff

lemma computeTruth_answers (henv : env.Exact D) (hc : CacheOk D cache) (hq : env.Admissible D q) :
    Answers D (env.computeTruth cache q) fun isValid => isValid = true ↔ q.Implied D := by
  rw [computeTruth]
  rcases cacheLookup_cases hc hq.boolean with hmiss | ⟨pv, hhit, hpv⟩
  · rw [hmiss]
    exact askTruth_answers henv hc hq id
  · rw [hhit]
    cases pv with
    | mayBeTrue => exact askTruth_answers henv hc hq fun hi => ⟨hi, hpv⟩
    | mustBeTrue => exact ⟨_, cache, rfl, iff_of_true rfl hpv, hc⟩
    | mustBeFalse =>
      -- the constraints are satisfiable, so the query is not valid as well
      refine ⟨_, cache, rfl, iff_of_false nofun ?_, hc⟩
      exact fun hi => hq.consistent.not_refuted hi hpv
    | mayBeFalse => exact ⟨_, cache, rfl, iff_of_false nofun hpv, hc⟩
    | trueOrFalse => exact ⟨_, cache, rfl, iff_of_false nofun hpv.1, hc⟩
    | none => cases hpv

lemma computeValidity_answers (henv : env.Exact D) (hc : CacheOk D cache)
    (hq : env.Admissible D q) :
    Answers D (env.computeValidity cache q) (q.Verdict D) := by
  rw [computeValidity]
  rcases cacheLookup_cases hc hq.boolean with hmiss | ⟨pv, hhit, hpv⟩
  · obtain ⟨result, hsolve, hverdict⟩ := henv.validity q hq
    rw [hmiss]
    simp only [hsolve]
    cases result with
    | isTrue => exact finish_answers hc hq.boolean .mustBeTrue hverdict hverdict
    | isFalse => exact finish_answers hc hq.boolean .mustBeFalse hverdict hverdict
    | unknown => exact finish_answers hc hq.boolean .trueOrFalse hverdict hverdict
  · rw [hhit]
    cases pv with
    | mustBeTrue => exact ⟨_, cache, rfl, hpv, hc⟩
    | mustBeFalse => exact ⟨_, cache, rfl, hpv, hc⟩
    | trueOrFalse => exact ⟨_, cache, rfl, hpv, hc⟩
    | mayBeTrue =>
      obtain ⟨isValid, hsolve, hiff⟩ := henv.truth q hq
      simp only [hsolve]
      cases isValid with
      | true => exact finish_answers hc hq.boolean .mustBeTrue (hiff.1 rfl) (hiff.1 rfl)
      | false =>
        have hboth : ¬ q.Implied D ∧ ¬ q.Refuted D := ⟨by simpa using hiff, hpv⟩
        exact finish_answers hc hq.boolean .trueOrFalse hboth hboth
    | mayBeFalse =>
      obtain ⟨isFalse, hsolve, hiff⟩ := henv.truth _ hq.negateExpr
      rw [hq.boolean.negateExpr_implied] at hiff
      simp only [hsolve]
      cases isFalse with
      | true => exact finish_answers hc hq.boolean .mustBeFalse (hiff.1 rfl) (hiff.1 rfl)
      | false =>
        have hboth : ¬ q.Implied D ∧ ¬ q.Refuted D := ⟨hpv, by simpa using hiff⟩
        exact finish_answers hc hq.boolean .trueOrFalse hboth hboth
    | none => cases hpv

namespace Call

/-- The query of a call. -/
def query : Call → Query
  | truth q | validity q => q

/-- The call succeeds with the verdict of an exact solver. -/
def Correct (D : Set Valuation) : Call → Outcome Answer → Prop
  | truth q, r => ∃ isValid, r = .success (.truth isValid) ∧ (isValid = true ↔ q.Implied D)
  | validity q, r => ∃ result, r = .success (.validity result) ∧ q.Verdict D result

end Call

/-- One call answers correctly and leaves a right cache. -/
lemma step_correct (henv : env.Exact D) (hc : CacheOk D cache) {c : Call}
    (h : env.Admissible D c.query) :
    c.Correct D (env.step cache c).1 ∧ CacheOk D (env.step cache c).2 := by
  cases c with
  | truth q =>
    have hq : env.Admissible D q := h
    obtain ⟨isValid, cache', hrun, hiff, hc'⟩ := computeTruth_answers henv hc hq
    rw [step, hrun]
    exact ⟨⟨isValid, rfl, hiff⟩, hc'⟩
  | validity q =>
    have hq : env.Admissible D q := h
    obtain ⟨result, cache', hrun, hverdict, hc'⟩ := computeValidity_answers henv hc hq
    rw [step, hrun]
    exact ⟨⟨result, rfl, hverdict⟩, hc'⟩

lemma run_answersRight (henv : env.Exact D) (hc : CacheOk D cache) {calls : List Call}
    (h : ∀ c ∈ calls, env.Admissible D c.query) :
    List.Forall₂ (Call.Correct D) calls (env.run cache calls) := by
  induction calls generalizing cache with
  | nil => exact .nil
  | cons c calls ih =>
    obtain ⟨hcorrect, hc'⟩ := step_correct henv hc (h c (by simp))
    exact .cons hcorrect (ih hc' fun c' hc' => h c' (by simp [hc']))

/-- With an exact solver behind it, every answer of the cache is exact, from the empty cache and
for every sequence of calls with satisfiable constraints. -/
theorem run_exact (env : CachingEnv) (D : Set Valuation) (henv : env.Exact D) (calls : List Call)
    (h : ∀ c ∈ calls, env.Admissible D c.query) :
    List.Forall₂ (Call.Correct D) calls (env.run [] calls) :=
  run_answersRight henv (by simp [CacheOk]) h

section Example

lemma preferring_exact (o : Opts) (less : Expr → Expr → Bool) (σ : Valuation) :
    (CachingEnv.mk o less (.preferring σ)).Exact Set.univ where
  truth _ _ := SolverImpl.preferring_truth
  validity _ _ := SolverImpl.preferring_validity

/-- Whether a byte of a symbolic array is below 10. -/
def below10 : Query := ⟨[], .bin .ult ConstraintManager.byteX (.const (.ofNat 8 10))⟩

lemma below10_admissible (less : Expr → Expr → Bool) :
    (CachingEnv.mk ⟨true, true⟩ less (.preferring fun _ _ => 0)).Admissible Set.univ below10 where
  consistent := ⟨fun _ _ => 0, trivial, by simp [below10, Query.MetBy]⟩
  boolean :=
    { typed := ⟨ConstraintManager.byteX_typed, Nat.succ_pos _, rfl⟩
      width := rfl
      defined := fun _ _ _ _ =>
        ⟨⟨trivial, trivial, fun h => by simp [KArray.bytes, KArray.isSymbolicArray] at h⟩,
          trivial⟩ }

/-- An order in which the expression comes before its negation. -/
def below10First (e _ : Expr) : Bool := e = below10.expr

/-- The truth of the expression leaves a partial entry, which the next call completes.  The calls
for the negation are answered from it. -/
theorem run_exact_below10 : List.Forall₂ (Call.Correct Set.univ)
      [.truth below10, .validity below10, .validity (below10.negateExpr ⟨true, true⟩),
        .truth (below10.negateExpr ⟨true, true⟩)]
      (run ⟨⟨true, true⟩, below10First, .preferring fun _ _ => 0⟩ []
        [.truth below10, .validity below10, .validity (below10.negateExpr ⟨true, true⟩),
          .truth (below10.negateExpr ⟨true, true⟩)]) := by
  have hq := below10_admissible below10First
  have hneg := hq.negateExpr
  refine run_exact _ Set.univ (preferring_exact _ _ _) _ ?_
  intro c hc
  simp only [List.mem_cons, List.not_mem_nil, or_false] at hc
  rcases hc with rfl | rfl | rfl | rfl
  · exact hq
  · exact hq
  · exact hneg
  · exact hneg

-- The key of the negation is the expression itself.
example (solver : SolverImpl) : (CachingEnv.mk ⟨true, true⟩ below10First solver).canonicalizeQuery
    (below10.expr.createIsZero ⟨true, true⟩) = (below10.expr, true) := by
  have hless : below10First (below10.expr.createIsZero ⟨true, true⟩) below10.expr = false := by
    decide +kernel
  have hback : (below10.expr.createIsZero ⟨true, true⟩).createIsZero ⟨true, true⟩ =
      below10.expr := by decide +kernel
  simp only [canonicalizeQuery, hback, hless, Bool.false_eq_true, if_false]

end Example

end CachingEnv
end Castan
