/-
# When the counterexample cache is transparent

For every history of calls with satisfiable constraints we say which call succeeds with the right
answer: the ones that meet no null result in the cache.
-/
import Castan.Solver.CexCachingSound

namespace Castan

namespace CexEnv

/-! ### The calls and their answers -/

namespace Call

/-- The query that a call is made with. -/
def query : Call → Query
  | truth q | validity q | value q | initialValues q _ => q

/-- The queries for which a call may look for an assignment. -/
def queries (o : Opts) : Call → List Query
  | truth q | initialValues q _ => [q]
  | validity q => [q.withFalse, q, q.negateExpr o]
  | value q => [q.withFalse]

/-- The expression of a query is a Boolean, except for a value. -/
def WF (o : Opts) : Call → Prop
  | truth q | initialValues q _ => q.WF o ∧ q.expr.width = 1
  | validity q => q.WF o ∧ q.expr.width = 1 ∧ q.Evaluable
  | value q => q.WF o ∧ q.Evaluable

/-- The verdicts that an exact solver gives. -/
def Correct : Call → Answer → Prop
  | truth q, .truth isValid => isValid = true ↔ q.Valid
  | validity q, .validity .isTrue => q.Valid
  | validity q, .validity .isFalse => ∀ a, q.Meets a → ¬ q.expr.Holds a.valuation
  | validity q, .validity .unknown =>
      (∃ a, q.Refutes a) ∧ ∃ a, q.Meets a ∧ q.expr.Holds a.valuation
  | value q, .value v => ∃ a, q.Meets a ∧ v = q.expr.eval a.valuation
  | initialValues q _, .initialValues none => q.Valid
  | initialValues q objects, .initialValues (some values) =>
      ∃ a, q.Refutes a ∧ values = objects.map (initialValuesOf a)
  | _, _ => False

end Call

lemma validity_queries_iff {P : Query → Prop} {o : Opts} {q : Query} :
    (∀ q' ∈ (Call.validity q).queries o, P q') ↔ P q.withFalse ∧ P q ∧ P (q.negateExpr o) := by
  simp [Call.queries]

/-- The call succeeds with the right answer. -/
def Transparent (c : Call) (r : Outcome Answer) : Prop := ∃ ans, r = .success ans ∧ c.Correct ans

lemma not_transparent_failure (c : Call) : ¬ Transparent c .failure := by
  rintro ⟨ans, h, -⟩
  cases h

section Calls

variable [LinearOrder Expr] {env : CexEnv} {s : CexState} {q : Query}

/-- What a call does: it keeps the cache right, and it is transparent unless one of its queries
has a null result in the cache. -/
structure Answers (env : CexEnv) (s : CexState) (c : Call) (r : Outcome Answer × CexState) :
    Prop where
  ok : CacheOk r.2
  transparent_iff : Transparent c r.1 ↔ ∀ q ∈ c.queries env.o, ¬ env.NullHit s q

lemma truth_answers (hexp : env.opts.cexCacheExperimental = false) (hs : CacheOk s)
    (hq : q.WF env.o) (hw : q.expr.width = 1) (hex : env.ExactOn q) :
    env.Answers s (.truth q) (env.step s (.truth q)) := by
  have hg := getAssignment_gets hs hq hw hex
  rw [step, computeTruth, if_neg (by simp [hexp])]
  rcases hr : env.getAssignment s q with ⟨_ | _ | a, s'⟩ <;> rw [hr] at hg <;>
    refine ⟨hg.ok, ?_⟩ <;> simp only [Call.queries, List.forall_mem_singleton]
  · exact iff_of_false (not_transparent_failure _) (not_not_intro (hg.fails_iff.mp rfl))
  · refine iff_of_true ⟨_, rfl, ?_⟩ fun h => nomatch hg.fails_iff.mpr h
    exact iff_of_true rfl (hg.valid rfl)
  · refine iff_of_true ⟨_, rfl, ?_⟩ fun h => nomatch hg.fails_iff.mpr h
    exact iff_of_false (by simp) fun h => Query.valid_iff.mp h a (hg.refutes a rfl)

lemma initialValues_answers (hs : CacheOk s) (hq : q.WF env.o) (hw : q.expr.width = 1)
    (hex : env.ExactOn q) (objects : List KArray) :
    env.Answers s (.initialValues q objects) (env.step s (.initialValues q objects)) := by
  have hg := getAssignment_gets hs hq hw hex
  rw [step, computeInitialValues]
  rcases hr : env.getAssignment s q with ⟨_ | _ | a, s'⟩ <;> rw [hr] at hg <;>
    refine ⟨hg.ok, ?_⟩ <;> simp only [Call.queries, List.forall_mem_singleton]
  · exact iff_of_false (not_transparent_failure _) (not_not_intro (hg.fails_iff.mp rfl))
  · exact iff_of_true ⟨_, rfl, hg.valid rfl⟩ fun h => nomatch hg.fails_iff.mpr h
  · exact iff_of_true ⟨_, rfl, a, hg.refutes a rfl, rfl⟩ fun h => nomatch hg.fails_iff.mpr h

lemma not_nullHit_withFalse (hs : CacheOk s) (hsat : q.Satisfiable) :
    ¬ env.NullHit s q.withFalse :=
  fun h => hs.not_satisfiable (nullHit_withFalse.mp h) hsat

lemma value_answers (hs : CacheOk s) (hq : q.WF env.o) (hev : q.Evaluable)
    (hsat : q.Satisfiable) (hex : env.ExactOn q.withFalse) :
    env.Answers s (.value q) (env.step s (.value q)) := by
  have hspec := computeValue_spec hs hq hev hex
  rw [step]
  refine ⟨hspec.ok, iff_of_true ?_ ?_⟩
  · rcases hr : env.computeValue s q with ⟨_ | _ | v, s'⟩ <;> rw [hr] at hspec
    · exact absurd hsat (hs.not_satisfiable (hspec.failure rfl))
    · exact absurd hsat (hspec.assertion rfl)
    · exact ⟨_, rfl, hspec.success v rfl⟩
  · simpa only [Call.queries, List.forall_mem_singleton] using not_nullHit_withFalse hs hsat

lemma nullHit_congr {s' : CexState} (h : ∀ S, NullSubset s' S ↔ NullSubset s S)
    (env : CexEnv) (q : Query) : env.NullHit s' q ↔ env.NullHit s q :=
  or_congr_right (h _)

lemma validity_answers (hs : CacheOk s) (hq : q.WF env.o) (hw : q.expr.width = 1)
    (hev : q.Evaluable) (hsat : q.Satisfiable) (hex₀ : env.ExactOn q.withFalse)
    (hex : env.ExactOn q) (hex₁ : env.ExactOn (q.negateExpr env.o)) :
    env.Answers s (.validity q) (env.step s (.validity q)) := by
  have hg := getAssignment_gets hs hq.withFalse rfl hex₀
  have hw₁ : (q.negateExpr env.o).expr.width = 1 := Expr.createIsZero_width hq.expr.typed
  have hmiss : ¬ env.NullHit s q.withFalse := not_nullHit_withFalse hs hsat
  rw [step, computeValidity]
  rcases hr : env.getAssignment s q.withFalse with ⟨_ | _ | a, s₀⟩ <;> rw [hr] at hg
  · exact absurd (hg.fails_iff.mp rfl) hmiss
  · exact absurd hsat (Query.withFalse_valid_iff.mp (hg.valid rfl))
  have ha : q.Meets a := Query.withFalse_refutes_iff.mp (hg.refutes a rfl)
  have hnull := nullHit_congr (hg.nullSubset_iff a rfl) env
  simp only [Query.constant_evaluate hq hev ha]
  by_cases htrue : q.expr.Holds a.valuation
  · -- the negated query is refuted by the assignment, so it is no null hit
    have hneg : ¬ env.NullHit s (q.negateExpr env.o) := fun h =>
      Query.valid_iff.mp (h.valid hs hq.negateExpr hw₁) a
        ((Query.negateExpr_refutes_iff hq hw a).mpr ⟨ha, htrue⟩)
    rw [if_pos (APInt.isTrue_iff.mpr htrue)]
    have hg₁ := getAssignment_gets hg.ok hq hw hex
    rcases hr₁ : env.getAssignment s₀ q with ⟨_ | _ | b, s₁⟩ <;> rw [hr₁] at hg₁ <;>
      refine ⟨hg₁.ok, ?_⟩ <;> rw [validity_queries_iff]
    · refine iff_of_false (not_transparent_failure _) fun h => h.2.1 ?_
      exact (hnull q).mp (hg₁.fails_iff.mp rfl)
    · refine iff_of_true ⟨_, rfl, hg₁.valid rfl⟩ ⟨hmiss, fun h => ?_, hneg⟩
      exact nomatch hg₁.fails_iff.mpr ((hnull q).mpr h)
    · refine iff_of_true ⟨_, rfl, ⟨b, hg₁.refutes b rfl⟩, a, ha, htrue⟩ ⟨hmiss, fun h => ?_, hneg⟩
      exact nomatch hg₁.fails_iff.mpr ((hnull q).mpr h)
  · have hpos : ¬ env.NullHit s q := fun h => htrue (h.valid hs hq hw a ha)
    rw [if_neg fun h => htrue (APInt.isTrue_iff.mp h)]
    have hg₁ := getAssignment_gets hg.ok hq.negateExpr hw₁ hex₁
    rcases hr₁ : env.getAssignment s₀ (q.negateExpr env.o) with ⟨_ | _ | b, s₁⟩ <;>
      rw [hr₁] at hg₁ <;> refine ⟨hg₁.ok, ?_⟩ <;> rw [validity_queries_iff]
    · refine iff_of_false (not_transparent_failure _) fun h => h.2.2 ?_
      exact (hnull _).mp (hg₁.fails_iff.mp rfl)
    · refine iff_of_true ⟨_, rfl, fun b hb hholds => ?_⟩ ⟨hmiss, hpos, fun h => ?_⟩
      · exact Query.valid_iff.mp (hg₁.valid rfl) b
          ((Query.negateExpr_refutes_iff hq hw b).mpr ⟨hb, hholds⟩)
      · exact nomatch hg₁.fails_iff.mpr ((hnull _).mpr h)
    · refine iff_of_true ⟨_, rfl, ⟨a, ha, htrue⟩, b, ?_⟩ ⟨hmiss, hpos, fun h => ?_⟩
      · exact (Query.negateExpr_refutes_iff hq hw b).mp (hg₁.refutes b rfl)
      · exact nomatch hg₁.fails_iff.mpr ((hnull _).mpr h)

/-! ### Histories -/

/-- What is assumed of a call: its query is well formed, its constraints are satisfiable, and the
wrapped solver is exact on the queries that the call may ask. -/
structure Admissible (env : CexEnv) (c : Call) : Prop where
  wf : c.WF env.o
  satisfiable : c.query.Satisfiable
  exact : ∀ q ∈ c.queries env.o, env.ExactOn q

lemma step_answers (hexp : env.opts.cexCacheExperimental = false) (hs : CacheOk s) {c : Call}
    (hc : env.Admissible c) : env.Answers s c (env.step s c) := by
  obtain ⟨hwf, hsat, hex⟩ := hc
  cases c with
  | truth q => exact truth_answers hexp hs hwf.1 hwf.2 (hex q (by simp [Call.queries]))
  | validity q =>
    obtain ⟨hex₀, hex₁, hex₂⟩ := validity_queries_iff.mp hex
    exact validity_answers hs hwf.1 hwf.2.1 hwf.2.2 hsat hex₀ hex₁ hex₂
  | value q => exact value_answers hs hwf.1 hwf.2 hsat (hex _ (by simp [Call.queries]))
  | initialValues q objects =>
    exact initialValues_answers hs hwf.1 hwf.2 (hex q (by simp [Call.queries])) objects

lemma run_ok (hexp : env.opts.cexCacheExperimental = false) {calls : List Call}
    (hcalls : ∀ c ∈ calls, env.Admissible c) : CacheOk (env.run calls) :=
  List.foldlRecOn calls _ initial_ok fun _ hs c hc => (step_answers hexp hs (hcalls c hc)).ok

/-- After any history of calls, a call succeeds with the verdict of an exact solver if and only
if none of its queries has a null result in the cache. -/
theorem step_transparent_iff (env : CexEnv) (hexp : env.opts.cexCacheExperimental = false)
    (history : List Call) (c : Call) (h : ∀ c' ∈ history ++ [c], env.Admissible c') :
    Transparent c (env.step (env.run history) c).1 ↔
      ∀ q ∈ c.queries env.o, ¬ env.NullHit (env.run history) q :=
  (step_answers hexp (run_ok hexp fun c' hc' => h c' (List.mem_append_left _ hc'))
    (h c (by simp))).transparent_iff

end Calls

section Example

attribute [local instance] exprOrder

/-- The byte is at most 255, which is always so. -/
def atMost255 : Query := ⟨[], compareX .ule 255⟩

lemma atMost255_valid : atMost255.Valid := by
  intro a _
  obtain ⟨x, hx⟩ := compareX_eval .ule 255 a.valuation
  rw [atMost255, Expr.Holds, hx, BinKind.op, APInt.bool_inj, BitVec.ule, decide_eq_true_iff]
  exact Nat.le_of_lt_succ x.isLt

lemma atMost255_wf (o : Opts) : atMost255.WF o := ⟨by simp [atMost255], compareX_regular o .ule 255⟩

lemma atMost255_admissible {env : CexEnv}
    (h : ∀ objects, env.solve atMost255 objects = some none) :
    env.Admissible (.truth atMost255) where
  wf := ⟨atMost255_wf _, rfl⟩
  satisfiable := ⟨⟨[]⟩, by simp [Call.query, atMost255, Query.Meets]⟩
  exact q hq := by
    rw [List.mem_singleton.mp hq]
    exact Or.inl ⟨h _, atMost255_valid⟩

/-- The same valid query again is answered by a failure. -/
theorem computeTruth_repeated :
    (constantSolver none).Admissible (.truth atMost255) ∧ atMost255.Valid ∧
      ((constantSolver none).step ((constantSolver none).run [.truth atMost255])
        (.truth atMost255)).1 = .failure := by
  refine ⟨atMost255_admissible fun _ => rfl, atMost255_valid, ?_⟩
  set env := constantSolver none
  have hexact : env.ExactOn atMost255 := Or.inl ⟨rfl, atMost255_valid⟩
  have hstate : env.run [.truth atMost255] = (env.getAssignment initial atMost255).2 := by
    show (env.computeTruth initial atMost255).2 = _
    rw [computeTruth, if_neg (by simp [env, constantSolver])]
    rcases env.getAssignment initial atMost255 with ⟨_ | _, _⟩ <;> rfl
  have hg := getAssignment_gets initial_ok (atMost255_wf _) rfl hexact
  have hhit := nullHit_of_valid initial_ok (atMost255_wf _) rfl hexact atMost255_valid
  have hg' := getAssignment_gets hg.ok (atMost255_wf _) rfl hexact
  rw [hstate, step, computeTruth, if_neg (by simp [env, constantSolver])]
  rcases hr : env.getAssignment (env.getAssignment initial atMost255).2 atMost255 with ⟨r, s⟩
  rw [hr] at hg'
  obtain rfl : r = none := hg'.fails_iff.mpr hhit
  rfl

/-- The byte is zero. -/
def isZeroX : Query := ⟨[], compareX .ult 1⟩

/-- A solver for the two queries. -/
def twoQueries : CexEnv :=
  ⟨⟨true, true⟩, ⟨false, false, false⟩, fun q _ =>
    some (if q = atMost255 then none else some [[3, 0, 0, 0]])⟩

lemma sort_key_isZeroX : ((twoQueries.key isZeroX).sort (· ≤ ·)) =
    [(compareX .ult 1).createIsZero twoQueries.o] :=
  Finset.sort_singleton (· ≤ ·) _

lemma isZeroX_wf (o : Opts) : isZeroX.WF o := ⟨by simp [isZeroX], compareX_regular o .ult 1⟩

lemma isZeroX_refutes : isZeroX.Refutes (.ofObjects [.bytes 0 "x" 4] [[3, 0, 0, 0]]) :=
  ⟨by simp [isZeroX, Query.Meets], by decide⟩

lemma isZeroX_admissible : twoQueries.Admissible (.truth isZeroX) where
  wf := ⟨isZeroX_wf _, rfl⟩
  satisfiable := ⟨⟨[]⟩, by simp [Call.query, isZeroX, Query.Meets]⟩
  exact q hq := by
    rw [List.mem_singleton.mp hq, ExactOn, sort_key_isZeroX]
    exact Or.inr ⟨[[3, 0, 0, 0]], by decide, isZeroX_refutes⟩

/-- A query that has nothing to do with the unsatisfiable set in the cache is answered. -/
theorem step_transparent_isZeroX : Transparent (.truth isZeroX)
      (twoQueries.step (twoQueries.run [.truth atMost255]) (.truth isZeroX)).1 := by
  have hadm : twoQueries.Admissible (.truth atMost255) :=
    atMost255_admissible fun _ => by simp [twoQueries]
  have hok : CacheOk (twoQueries.run [.truth atMost255]) :=
    run_ok rfl (List.forall_mem_singleton.mpr hadm)
  refine (step_transparent_iff twoQueries rfl [.truth atMost255] (.truth isZeroX)
    fun c hc => ?_).mpr fun q hq => ?_
  · rcases List.mem_pair.mp hc with rfl | rfl
    · exact hadm
    · exact isZeroX_admissible
  · rw [List.mem_singleton.mp hq]
    intro hhit
    exact Query.valid_iff.mp (hhit.valid hok (isZeroX_wf _) rfl) _ isZeroX_refutes

end Example

end CexEnv

end Castan
