/-
# The answers of the counterexample cache

Whatever the cache holds is right, so it never gives a wrong verdict.  It is not transparent all
the same: a null result that is found in the cache is returned as a failure.  We say exactly which
calls fail, for every history of calls, and when `computeValue` is a test of feasibility.
-/
import Castan.Solver.CexCaching

namespace Castan

open Castan.Expr List MapOfSets

variable {q : Query} {a : Assignment}

/-! ### What a query asks -/

/-- An expression that may be evaluated under any assignment. -/
structure Expr.Regular (o : Opts) (e : Expr) : Prop where
  typed : e.Typed
  canon : e.Canon
  indexable : e.Indexable
  defined : ∀ a : Assignment, e.Defined o a.valuation

namespace Query

structure WF (o : Opts) (q : Query) : Prop where
  constraints : ∀ c ∈ q.constraints, c.Regular o ∧ c.width = 1
  expr : q.expr.Regular o

/-- The assignment satisfies the constraints. -/
def Meets (q : Query) (a : Assignment) : Prop := ∀ c ∈ q.constraints, c.Holds a.valuation

def Satisfiable (q : Query) : Prop := ∃ a, q.Meets a

/-- The assignment satisfies the constraints and not the expression. -/
def Refutes (q : Query) (a : Assignment) : Prop := q.Meets a ∧ ¬ q.expr.Holds a.valuation

/-- The constraints imply the expression. -/
def Valid (q : Query) : Prop := ∀ a, q.Meets a → q.expr.Holds a.valuation

/-- Under the constraints, no division by zero comes in the way of evaluating the expression. -/
def Evaluable (q : Query) : Prop := ∀ a, q.Meets a → q.expr.Evaluable a.valuation

variable {o : Opts} {q : Query}

lemma valid_iff : q.Valid ↔ ∀ a, ¬ q.Refutes a :=
  forall_congr' fun a => by rw [Refutes, not_and, not_not]

end Query

section Negation

variable {o : Opts} {e : Expr}

lemma Expr.Regular.createIsZero (h : e.Regular o) : (e.createIsZero o).Regular o where
  typed := (createIsZero_refines (o := o) h.typed).typed
  canon := createIsZero_canon h.canon
  indexable := createIsZero_indexable h.canon h.indexable
  defined a hopt := (createIsZero_refines (o := o) h.typed).inRange _
    ⟨h.defined a hopt, trivial⟩

lemma Expr.createIsZero_width (h : e.Typed) : (e.createIsZero o).width = 1 :=
  (createIsZero_refines (o := o) h).width_eq

lemma Expr.createIsZero_holds_iff (h : e.Regular o) (hw : e.width = 1) (a : Assignment) :
    (e.createIsZero o).Holds a.valuation ↔ ¬ e.Holds a.valuation := by
  have href := createIsZero_refines (o := o) h.typed
  have htyped : (bin .eq e (.const (.ofNat e.width 0))).Typed :=
    ⟨h.typed, by simp [Expr.Typed, hw], by simp [width]⟩
  rw [Expr.Holds, href.eval_eq _ fun ho => ⟨h.defined a ho, trivial⟩, eval_eq_bin _ htyped,
    APInt.bool_inj, decide_eq_true_iff, not_holds_iff h.typed hw, eval, hw]
  rfl

lemma Query.WF.negateExpr (h : q.WF o) : (q.negateExpr o).WF o :=
  ⟨h.constraints, h.expr.createIsZero⟩

lemma Query.WF.withFalse (h : q.WF o) : q.withFalse.WF o :=
  ⟨h.constraints, Nat.one_pos, trivial, trivial, fun _ _ => trivial⟩

lemma Query.negateExpr_refutes_iff (h : q.WF o) (hw : q.expr.width = 1) (a : Assignment) :
    (q.negateExpr o).Refutes a ↔ q.Meets a ∧ q.expr.Holds a.valuation := by
  rw [Refutes, negateExpr, createIsZero_holds_iff h.expr hw, not_not]
  rfl

lemma Query.withFalse_refutes_iff : q.withFalse.Refutes a ↔ q.Meets a := by
  refine ⟨fun h => h.1, fun h => ⟨h, fun hf => ?_⟩⟩
  exact absurd (APInt.bool_inj.mp hf) (by decide)

lemma Query.withFalse_valid_iff : q.withFalse.Valid ↔ ¬ q.Satisfiable := by
  rw [valid_iff, Satisfiable, not_exists]
  exact forall_congr' fun a => not_congr withFalse_refutes_iff

lemma Query.constant_evaluate (hq : q.WF o) (hev : q.Evaluable)
    (ha : q.Meets a) : (a.evaluate o q.expr).constant? = some (q.expr.eval a.valuation) := by
  rw [Assignment.evaluate_eq hq.expr.typed hq.expr.indexable (hev a ha), constant?_const]

end Negation

namespace CexEnv

variable {env : CexEnv} {q : Query}

/-! ### The key of a query -/

/-- The negated expression is constantly false, so that the query is answered at once. -/
def Trivial (env : CexEnv) (q : Query) : Prop :=
  (q.expr.createIsZero env.o).constant?.any APInt.isFalse = true

lemma Trivial.valid (h : env.Trivial q) (hq : q.WF env.o) (hw : q.expr.width = 1) : q.Valid := by
  rw [Trivial, Option.any_eq_true] at h
  obtain ⟨c, hc, hfalse⟩ := h
  intro a _
  by_contra hnot
  have hholds := (createIsZero_holds_iff hq.expr hw a).mpr hnot
  rw [constant?_eq_some.mp hc, Expr.Holds, eval, APInt.isFalse_iff.mp hfalse,
    APInt.bool_inj] at hholds
  exact absurd hholds (by decide)

lemma mem_key {e : Expr} (h : e ∈ env.key q) :
    e ∈ q.constraints ∨ e = q.expr.createIsZero env.o := by
  rw [key] at h
  split_ifs at h
  · exact Or.inl (mem_toFinset.mp h)
  · rcases Finset.mem_insert.mp h with rfl | hmem
    · exact Or.inr rfl
    · exact Or.inl (mem_toFinset.mp hmem)

lemma key_regular (hq : q.WF env.o) : ∀ e ∈ env.key q, e.Regular env.o ∧ e.width = 1 := by
  intro e he
  rcases mem_key he with hmem | rfl
  · exact hq.constraints e hmem
  · exact ⟨hq.expr.createIsZero, createIsZero_width hq.expr.typed⟩

/-- The assignments of the key are those that refute the query. -/
lemma key_holds_iff (hq : q.WF env.o) (hw : q.expr.width = 1) (ht : ¬ env.Trivial q)
    (a : Assignment) : (∀ e ∈ env.key q, e.Holds a.valuation) ↔ q.Refutes a := by
  have hneg := createIsZero_holds_iff hq.expr hw a
  rw [Query.Refutes, ← hneg, key]
  split_ifs with hconst
  · -- the constant is true, as it is not false
    obtain ⟨c, hc⟩ := isConst_iff.mp hconst
    have hwc : c.width = 1 := by
      have := createIsZero_width (o := env.o) hq.expr.typed
      rwa [hc] at this
    have hnf : c.isFalse = false := by
      rw [Trivial, hc] at ht
      simpa using ht
    have htrue : (q.expr.createIsZero env.o).Holds a.valuation := by
      rw [hc, Expr.Holds, eval]
      exact APInt.isTrue_of_not_isFalse hwc hnf
    simp only [mem_toFinset]
    exact ⟨fun h => ⟨h, htrue⟩, fun h => h.1⟩
  · simp only [Finset.mem_insert, mem_toFinset, forall_eq_or_imp]
    exact and_comm

lemma key_withFalse : env.key q.withFalse = q.constraints.toFinset := by
  rw [key]
  exact if_pos rfl

lemma not_trivial_withFalse : ¬ env.Trivial q.withFalse := by
  rw [Trivial]
  exact Bool.not_eq_true _ ▸ rfl

/-! ### The cache -/

section Cache

variable [LinearOrder Expr] {s : CexState}

/-- The cache holds unsatisfiable sets, and assignments that satisfy their sets. -/
structure CacheOk (s : CexState) : Prop where
  unsat : ∀ T, s.cache.lookup T = some none → ∀ a : Assignment, ¬ ∀ e ∈ T, e.Holds a.valuation
  sat : ∀ T a, s.cache.lookup T = some (some a) → ∀ e ∈ T, e.Holds a.valuation

/-- Some subset of the set is known to be unsatisfiable. -/
def NullSubset (s : CexState) (S : Finset Expr) : Prop := ∃ T ⊆ S, s.cache.lookup T = some none

lemma CacheOk.not_holds (hs : CacheOk s) {S : Finset Expr} (h : NullSubset s S) (a : Assignment) :
    ¬ ∀ e ∈ S, e.Holds a.valuation := by
  obtain ⟨T, hsub, hT⟩ := h
  exact fun hall => hs.unsat T hT a fun e he => hall e (hsub he)

/-- What a result for a set rests on. -/
def Supported (s : CexState) (S : Finset Expr) : Option Assignment → Prop
  | none => NullSubset s S
  | some a => ∀ e ∈ S, e.Holds a.valuation

section Search

variable {S : Finset Expr} {r : Option Assignment}

lemma supported_of_superset (hs : CacheOk s) {b : Bool}
    (h : (if b then s.cache.findSuperset S fun r => r.isSome else none) = some r) :
    Supported s S r := by
  rw [Option.ite_none_right_eq_some] at h
  obtain ⟨T, hsub, hT, hsome⟩ := exists_of_findSuperset h.2
  obtain ⟨a, rfl⟩ := Option.isSome_iff_exists.mp hsome
  exact fun e he => hs.sat T a hT e (hsub he)

lemma holds_of_satisfies (hS : ∀ e ∈ S, e.Regular env.o ∧ e.width = 1)
    (h : a.satisfies env.o (S.sort (· ≤ ·)) = true) : ∀ e ∈ S, e.Holds a.valuation := by
  have hsort : ∀ {e}, e ∈ S.sort (· ≤ ·) ↔ e ∈ S := Finset.mem_sort _
  have hall := Assignment.holds_of_satisfies h fun e he => by
    obtain ⟨hreg, hw⟩ := hS e (hsort.mp he)
    exact ⟨⟨hreg.typed, hreg.canon, hw⟩, hreg.indexable, hreg.defined a⟩
  exact fun e he => hall e (hsort.mpr he)

lemma supported_of_subset (hS : ∀ e ∈ S, e.Regular env.o ∧ e.width = 1)
    {p : Option Assignment → Bool}
    (hp : ∀ a, p (some a) = true → a.satisfies env.o (S.sort (· ≤ ·)) = true)
    (h : s.cache.findSubset S p = some r) : Supported s S r := by
  obtain ⟨T, hsub, hT, hpr⟩ := exists_of_findSubset h
  cases r with
  | none => exact ⟨T, hsub, hT⟩
  | some a => exact holds_of_satisfies hS (hp a hpr)

/-- What the search finds is right. -/
lemma searchForAssignment_supported (hs : CacheOk s)
    (hS : ∀ e ∈ S, e.Regular env.o ∧ e.width = 1) (h : env.searchForAssignment s S = some r) :
    Supported s S r := by
  rw [searchForAssignment] at h
  split at h
  · next r' hlook =>
    obtain rfl := Option.some.inj h
    cases r' with
    | none => exact ⟨S, Finset.Subset.rfl, hlook⟩
    | some a => exact hs.sat S a hlook
  · split at h
    · split at h
      · next r' hor =>
        obtain rfl := Option.some.inj h
        rcases Option.or_eq_some_iff.mp hor with hfound | ⟨-, hfound⟩
        · exact supported_of_superset hs hfound
        · exact supported_of_subset hS (fun a ha => by simp at ha) hfound
      · obtain ⟨a, ha, rfl⟩ := Option.map_eq_some_iff.mp h
        have hsat := List.find?_some ha
        exact holds_of_satisfies hS hsat
    · rcases Option.or_eq_some_iff.mp h with hfound | ⟨-, hfound⟩
      · exact supported_of_superset hs hfound
      · exact supported_of_subset hS (fun a ha => ha) hfound

/-- A set with an unsatisfiable subset in the cache is found to be unsatisfiable. -/
lemma searchForAssignment_null (hs : CacheOk s)
    (hS : ∀ e ∈ S, e.Regular env.o ∧ e.width = 1) (h : NullSubset s S) :
    env.searchForAssignment s S = some none := by
  have hne : env.searchForAssignment s S ≠ none := by
    obtain ⟨T, hsub, hT⟩ := h
    rw [searchForAssignment]
    split
    · exact Option.some_ne_none _
    · split
      · split
        · exact Option.some_ne_none _
        · next hor =>
          exact absurd (Option.or_eq_none_iff.mp hor).2 (findSubset_ne_none hsub hT rfl)
      · intro hor
        exact absurd (Option.or_eq_none_iff.mp hor).2 (findSubset_ne_none hsub hT rfl)
  obtain ⟨r, hr⟩ := Option.ne_none_iff_exists'.mp hne
  cases r with
  | none => exact hr
  | some a =>
    exact absurd (searchForAssignment_supported hs hS hr) (hs.not_holds h a)

end Search

/-! ### Getting an assignment -/

/-- The query has a null result before the solver is asked. -/
def NullHit (env : CexEnv) (s : CexState) (q : Query) : Prop :=
  env.Trivial q ∨ NullSubset s (env.key q)

/-- The wrapped solver succeeds on the query, reports a solution exactly if there is one, and
returns values that solve the query. -/
def ExactOn (env : CexEnv) (q : Query) : Prop :=
  let objects := findSymbolicObjects ((env.key q).sort (· ≤ ·))
  env.solve q objects = some none ∧ q.Valid ∨
    ∃ values, env.solve q objects = some (some values) ∧ q.Refutes (.ofObjects objects values)

lemma nullHit_iff (hs : CacheOk s) (hq : q.WF env.o) :
    env.lookupAssignment s q = some none ↔ env.NullHit s q := by
  rw [lookupAssignment]
  split_ifs with ht
  · exact iff_of_true rfl (Or.inl ht)
  · refine ⟨fun h => Or.inr (searchForAssignment_supported hs (key_regular hq) h), ?_⟩
    rintro (htriv | hnull)
    · exact absurd htriv ht
    · exact searchForAssignment_null hs (key_regular hq) hnull

lemma refutes_of_lookup (hs : CacheOk s) (hq : q.WF env.o) (hw : q.expr.width = 1)
    (h : env.lookupAssignment s q = some (some a)) : q.Refutes a := by
  rw [lookupAssignment] at h
  split_ifs at h with ht
  · cases h
  · exact (key_holds_iff hq hw ht a).mp (searchForAssignment_supported hs (key_regular hq) h)

lemma NullHit.valid (h : env.NullHit s q) (hs : CacheOk s) (hq : q.WF env.o)
    (hw : q.expr.width = 1) : q.Valid := by
  by_cases ht : env.Trivial q
  · exact ht.valid hq hw
  · refine Query.valid_iff.mpr fun a ha => ?_
    exact hs.not_holds (h.resolve_left ht) a ((key_holds_iff hq hw ht a).mpr ha)

section Insert

variable {S : Finset Expr} {table : List Assignment}

lemma CacheOk.insert_none (hs : CacheOk s) (h : ∀ a : Assignment, ¬ ∀ e ∈ S, e.Holds a.valuation) :
    CacheOk ⟨s.cache.insert S none, table⟩ where
  unsat T hT := by
    rw [lookup_insert] at hT
    split_ifs at hT with heq
    · exact heq ▸ h
    · exact hs.unsat T hT
  sat T a hT := by
    rw [lookup_insert] at hT
    split_ifs at hT with heq
    · cases hT
    · exact hs.sat T a hT

lemma CacheOk.insert_some (hs : CacheOk s) (h : ∀ e ∈ S, e.Holds a.valuation) :
    CacheOk ⟨s.cache.insert S (some a), table⟩ where
  unsat T hT := by
    rw [lookup_insert] at hT
    split_ifs at hT with heq
    · cases hT
    · exact hs.unsat T hT
  sat T b hT := by
    rw [lookup_insert] at hT
    split_ifs at hT with heq
    · obtain rfl : a = b := by simpa using hT
      exact heq ▸ h
    · exact hs.sat T b hT

/-- A new assignment does not change which sets are known to be unsatisfiable. -/
lemma nullSubset_insert_some (h : s.cache.lookup S ≠ some none) (S' : Finset Expr) :
    NullSubset ⟨s.cache.insert S (some a), table⟩ S' ↔ NullSubset s S' := by
  refine exists_congr fun T => and_congr_right fun _ => ?_
  show (s.cache.insert S (some a)).lookup T = some none ↔ _
  rw [lookup_insert]
  split_ifs with heq
  · subst heq
    exact iff_of_false (by simp) h
  · exact Iff.rfl

end Insert

/-- What `getAssignment` does with a query. -/
structure Gets (env : CexEnv) (s : CexState) (q : Query)
    (r : Option (Option Assignment) × CexState) : Prop where
  ok : CacheOk r.2
  fails_iff : r.1 = none ↔ env.NullHit s q
  valid : r.1 = some none → q.Valid
  refutes : ∀ a, r.1 = some (some a) → q.Refutes a
  /-- An assignment leaves the unsatisfiable sets as they are. -/
  nullSubset_iff : ∀ a, r.1 = some (some a) → ∀ S, NullSubset r.2 S ↔ NullSubset s S

/-- A null result that was looked up is a failure, and everything else is right. -/
theorem getAssignment_gets (hs : CacheOk s) (hq : q.WF env.o) (hw : q.expr.width = 1)
    (hex : env.ExactOn q) : env.Gets s q (env.getAssignment s q) := by
  have hnull : env.lookupAssignment s q = some none ↔ env.NullHit s q := nullHit_iff hs hq
  rw [getAssignment]
  split
  · next r hlook =>
    rw [hlook] at hnull
    cases r with
    | none => exact ⟨hs, iff_of_true rfl (hnull.mp rfl), by simp, by simp, by simp⟩
    | some a =>
      refine ⟨hs, iff_of_false (by simp) (fun h => by simpa using hnull.mpr h), by simp, ?_, ?_⟩
      · intro b hb
        obtain rfl : a = b := by simpa using hb
        exact refutes_of_lookup hs hq hw hlook
      · exact fun _ _ _ => Iff.rfl
  · next hlook =>
    rw [hlook] at hnull
    have hmiss : ¬ env.NullHit s q := fun h => by simpa using hnull.mpr h
    have ht : ¬ env.Trivial q := fun h => hmiss (Or.inl h)
    have hkey : s.cache.lookup (env.key q) ≠ some none :=
      fun h => hmiss (Or.inr ⟨_, Finset.Subset.rfl, h⟩)
    rcases hex with ⟨hsolve, hvalid⟩ | ⟨values, hsolve, href⟩
    · simp only [hsolve]
      refine ⟨hs.insert_none fun a ha => ?_, iff_of_false (by simp) hmiss, fun _ => hvalid,
        by simp, by simp⟩
      exact Query.valid_iff.mp hvalid a ((key_holds_iff hq hw ht a).mp ha)
    · simp only [hsolve, Assignment.memoize_snd]
      refine ⟨hs.insert_some ((key_holds_iff hq hw ht _).mpr href), iff_of_false (by simp) hmiss,
        by simp, ?_, fun _ _ => nullSubset_insert_some hkey⟩
      intro b hb
      obtain rfl : _ = b := by simpa using hb
      exact href

/-- A valid query has a null result once it was asked. -/
lemma nullHit_of_valid (hs : CacheOk s) (hq : q.WF env.o) (hw : q.expr.width = 1)
    (hex : env.ExactOn q) (hvalid : q.Valid) : env.NullHit (env.getAssignment s q).2 q := by
  have hno := Query.valid_iff.mp hvalid
  rw [getAssignment]
  split
  · next r hlook =>
    cases r with
    | none => exact (nullHit_iff hs hq).mp hlook
    | some a => exact absurd (refutes_of_lookup hs hq hw hlook) (hno a)
  · rcases hex with ⟨hsolve, -⟩ | ⟨values, -, href⟩
    · simp only [hsolve]
      refine Or.inr ⟨env.key q, Finset.Subset.rfl, ?_⟩
      show (s.cache.insert (env.key q) none).lookup (env.key q) = some none
      rw [lookup_insert, if_pos rfl]
    · exact absurd href (hno _)

/-! ### Values -/

lemma nullHit_withFalse : env.NullHit s q.withFalse ↔ NullSubset s q.constraints.toFinset := by
  rw [NullHit, key_withFalse]
  exact or_iff_right not_trivial_withFalse

lemma CacheOk.not_satisfiable (hs : CacheOk s) (h : NullSubset s q.constraints.toFinset) :
    ¬ q.Satisfiable := by
  rintro ⟨a, ha⟩
  exact hs.not_holds h a fun e he => ha e (mem_toFinset.mp he)

/-- How `computeValue` ends: it fails on a null result from the cache, and a null result from the
solver runs into the assertion. -/
structure ValueSpec (s : CexState) (q : Query) (r : Outcome APInt × CexState) : Prop where
  ok : CacheOk r.2
  failure : r.1 = .failure → NullSubset s q.constraints.toFinset
  assertion : r.1 = .assertion → ¬ q.Satisfiable
  success : ∀ v, r.1 = .success v → ∃ a, q.Meets a ∧ v = q.expr.eval a.valuation
  nullSubset_iff : ∀ v, r.1 = .success v → ∀ S, NullSubset r.2 S ↔ NullSubset s S

lemma computeValue_spec (hs : CacheOk s) (hq : q.WF env.o) (hev : q.Evaluable)
    (hex : env.ExactOn q.withFalse) : ValueSpec s q (env.computeValue s q) := by
  have hg := getAssignment_gets hs hq.withFalse rfl hex
  rcases hr : env.getAssignment s q.withFalse with ⟨_ | _ | a, s'⟩ <;>
    rw [hr] at hg <;> rw [computeValue, hr]
  · refine ⟨hg.ok, fun _ => nullHit_withFalse.mp (hg.fails_iff.mp rfl), ?_, ?_, ?_⟩ <;> simp
  · refine ⟨hg.ok, ?_, fun _ => Query.withFalse_valid_iff.mp (hg.valid rfl), ?_, ?_⟩ <;> simp
  · have ha : q.Meets a := Query.withFalse_refutes_iff.mp (hg.refutes a rfl)
    simp only [Query.constant_evaluate hq hev ha]
    refine ⟨hg.ok, by simp, by simp, fun v hv => ⟨a, ha, ?_⟩, fun _ _ => hg.nullSubset_iff a rfl⟩
    exact (Outcome.success.inj hv).symm

/-! ### Feasibility by `computeValue` -/

/-- The answer of a test of feasibility: a failure for an unsatisfiable list of constraints, and
otherwise a value of the expression. -/
def FeasibilityAnswer (q : Query) : Outcome APInt → Prop
  | .failure => ¬ q.Satisfiable
  | .assertion => False
  | .success v => ∃ a, q.Meets a ∧ v = q.expr.eval a.valuation

lemma feasibilityAnswer_of_satisfiable {r : Outcome APInt × CexState} (h : ValueSpec s q r)
    (hs : CacheOk s) (hsat : q.Satisfiable) : FeasibilityAnswer q r.1 := by
  cases hr : r.1 with
  | failure => exact hs.not_satisfiable (h.failure hr)
  | assertion => exact h.assertion hr hsat
  | success v => exact h.success v hr

/-- As long as no set is known to be unsatisfiable, the test answers rightly only for satisfiable
constraints, and nothing becomes known. -/
lemma satisfiable_of_feasibilityAnswer {r : Outcome APInt × CexState} (h : ValueSpec s q r)
    (hnull : ∀ S, ¬ NullSubset s S) (hans : FeasibilityAnswer q r.1) :
    q.Satisfiable ∧ ∀ S, ¬ NullSubset r.2 S := by
  cases hr : r.1 with
  | failure => exact absurd (h.failure hr) (hnull _)
  | assertion => rw [hr] at hans; exact hans.elim
  | success v =>
    obtain ⟨a, ha, -⟩ := h.success v hr
    exact ⟨⟨a, ha⟩, fun S hS => hnull S ((h.nullSubset_iff v hr S).mp hS)⟩

/-- The state after a sequence of calls of `computeValue`. -/
def valueRun (env : CexEnv) (qs : List Query) : CexState := env.run (qs.map .value)

lemma run_concat (calls : List Call) (c : Call) :
    env.run (calls ++ [c]) = (env.step (env.run calls) c).2 := by
  rw [run, run, foldl_concat]

lemma valueRun_concat (qs : List Query) :
    env.valueRun (qs ++ [q]) = (env.computeValue (env.valueRun qs) q).2 := by
  rw [valueRun, map_append, map_singleton, run_concat]
  rfl

lemma initial_ok : CacheOk initial where
  unsat T hT := by simp [initial, lookup_empty] at hT
  sat T a hT := by simp [initial, lookup_empty] at hT

lemma not_nullSubset_initial (S : Finset Expr) : ¬ NullSubset initial S := by
  rintro ⟨T, -, hT⟩
  simp [initial, lookup_empty] at hT

section Feasibility

variable {qs : List Query}
  (hwf : ∀ q ∈ qs, q.WF env.o ∧ q.Evaluable) (hex : ∀ q ∈ qs, env.ExactOn q.withFalse)

include hwf hex

lemma valueRun_ok {pre post : List Query} (h : qs = pre ++ post) : CacheOk (env.valueRun pre) := by
  induction pre using List.reverseRecOn generalizing post with
  | nil => exact initial_ok
  | append_singleton pre q ih =>
    have hq : q ∈ qs := by simp [h]
    rw [valueRun_concat]
    exact (computeValue_spec (ih (by simpa using h)) (hwf q hq).1 (hwf q hq).2 (hex q hq)).ok

end Feasibility

/-- `computeValue` is a test of feasibility exactly for the sequences of calls in which every list
of constraints is satisfiable. -/
theorem computeValue_feasibility_iff (env : CexEnv) (qs : List Query)
    (hwf : ∀ q ∈ qs, q.WF env.o ∧ q.Evaluable) (hex : ∀ q ∈ qs, env.ExactOn q.withFalse) :
    (∀ pre q post, qs = pre ++ q :: post →
      FeasibilityAnswer q (env.computeValue (env.valueRun pre) q).1) ↔
    ∀ q ∈ qs, q.Satisfiable := by
  have hspec : ∀ pre q post, qs = pre ++ q :: post →
      ValueSpec (env.valueRun pre) q (env.computeValue (env.valueRun pre) q) := by
    intro pre q post h
    have hq : q ∈ qs := by simp [h]
    exact computeValue_spec (valueRun_ok hwf hex h) (hwf q hq).1 (hwf q hq).2 (hex q hq)
  constructor
  · intro hans
    -- up to the first unsatisfiable list nothing is known to be unsatisfiable
    have hpre : ∀ pre post, qs = pre ++ post →
        (∀ q ∈ pre, q.Satisfiable) ∧ ∀ S, ¬ NullSubset (env.valueRun pre) S := by
      intro pre
      induction pre using List.reverseRecOn with
      | nil => exact fun _ _ => ⟨by simp, not_nullSubset_initial⟩
      | append_singleton pre q ih =>
        intro post h
        replace h : qs = pre ++ q :: post := by simpa using h
        obtain ⟨hsat, hnull⟩ := ih (q :: post) h
        obtain ⟨hq, hnull'⟩ :=
          satisfiable_of_feasibilityAnswer (hspec pre q post h) hnull (hans pre q post h)
        rw [valueRun_concat]
        refine ⟨fun q' hq' => ?_, hnull'⟩
        rcases mem_append.mp hq' with hmem | hmem
        · exact hsat q' hmem
        · rwa [mem_singleton.mp hmem]
    exact (hpre qs [] (by simp)).1
  · intro hsat pre q post h
    exact feasibilityAnswer_of_satisfiable (hspec pre q post h) (valueRun_ok hwf hex h)
      (hsat q (by simp [h]))

end Cache

section Example

open ConstraintManager

/-- Some order of expressions. -/
noncomputable local instance exprOrder : LinearOrder Expr :=
  @linearOrderOfSTO _ WellOrderingRel _ (Classical.decRel _)

lemma byteX_regular (o : Opts) : byteX.Regular o where
  typed := byteX_typed
  canon := ⟨trivial, trivial⟩
  indexable := ⟨le_rfl, trivial, trivial⟩
  defined _ _ := ⟨trivial, trivial, fun h => by simp [KArray.bytes, KArray.isSymbolicArray] at h⟩

/-- A comparison of the byte with a constant. -/
def compareX (k : BinKind) (n : ℕ) : Expr := .bin k byteX (.const (.ofNat 8 n))

lemma compareX_regular (o : Opts) (k : BinKind) (n : ℕ) : (compareX k n).Regular o where
  typed := ⟨byteX_typed, Nat.succ_pos _, rfl⟩
  canon := ⟨(byteX_regular o).canon, trivial, rfl⟩
  indexable := ⟨(byteX_regular o).indexable, trivial⟩
  defined a ho := ⟨(byteX_regular o).defined a ho, trivial⟩

lemma compareX_eval (k : BinKind) (n : ℕ) (ρ : Valuation) :
    ∃ x, (compareX k n).eval ρ = k.op x (BitVec.ofNat 8 n) := by
  obtain ⟨x, hx⟩ := exists_eval_eq byteX_typed (w := 8) rfl ρ
  exact ⟨x, by rw [compareX, eval_bin, hx, eval, APInt.ofNat, BinKind.fold_mk]⟩

/-- The byte below a bound. -/
def belowBound (n : ℕ) : Query := ⟨[compareX .ult n], byteX⟩

/-- The value that the wrapped solver returns for every query, if it finds one. -/
def constantSolver (r : Option (List (List (BitVec 8)))) : CexEnv :=
  ⟨⟨true, true⟩, ⟨false, false, false⟩, fun _ _ => some r⟩

lemma belowBound_wf (n : ℕ) (o : Opts) : (belowBound n).WF o ∧ (belowBound n).Evaluable := by
  refine ⟨⟨fun c hc => ?_, byteX_regular o⟩, fun _ _ => ⟨trivial, trivial⟩⟩
  rw [mem_singleton.mp hc]
  exact ⟨compareX_regular o .ult n, rfl⟩

lemma not_satisfiable_belowBound_zero : ¬ (belowBound 0).Satisfiable := by
  rintro ⟨a, ha⟩
  have h := ha _ (mem_singleton.mpr rfl)
  obtain ⟨x, hx⟩ := compareX_eval .ult 0 a.valuation
  rw [Expr.Holds, hx, BinKind.op, APInt.bool_inj, BitVec.ult] at h
  simp at h

/-- The assertion is reached when the unsatisfiable list is seen for the first time. -/
theorem computeValue_belowBound_zero :
    (belowBound 0).WF (constantSolver none).o ∧ (belowBound 0).Evaluable ∧
      (constantSolver none).ExactOn (belowBound 0).withFalse ∧ ¬ (belowBound 0).Satisfiable ∧
      ((constantSolver none).computeValue initial (belowBound 0)).1 = .assertion := by
  obtain ⟨hwf, hev⟩ := belowBound_wf 0 (constantSolver none).o
  have hunsat := not_satisfiable_belowBound_zero
  have hex : (constantSolver none).ExactOn (belowBound 0).withFalse :=
    Or.inl ⟨rfl, Query.withFalse_valid_iff.mpr hunsat⟩
  have hspec := computeValue_spec initial_ok hwf hev hex
  refine ⟨hwf, hev, hex, hunsat, ?_⟩
  cases hr : ((constantSolver none).computeValue initial (belowBound 0)).1 with
  | failure => exact absurd (hspec.failure hr) (not_nullSubset_initial _)
  | assertion => rfl
  | success v =>
    obtain ⟨a, ha, -⟩ := hspec.success v hr
    exact absurd ⟨a, ha⟩ hunsat

lemma belowBound_exactOn :
    (constantSolver (some [[3, 0, 0, 0]])).ExactOn (belowBound 10).withFalse := by
  rw [ExactOn, key_withFalse]
  refine Or.inr ⟨_, rfl, Query.withFalse_refutes_iff.mpr fun c hc => ?_⟩
  rw [mem_singleton.mp hc]
  have hsort : (belowBound 10).constraints.toFinset.sort (· ≤ ·) = [compareX .ult 10] :=
    Finset.sort_singleton (· ≤ ·) _
  rw [hsort]
  decide

/-- The second call finds the assignment of the first one in the cache. -/
theorem computeValue_feasibility_belowBound :
    let env := constantSolver (some [[3, 0, 0, 0]])
    FeasibilityAnswer (belowBound 10) (env.computeValue initial (belowBound 10)).1 ∧
      FeasibilityAnswer (belowBound 10)
        (env.computeValue (env.valueRun [belowBound 10]) (belowBound 10)).1 := by
  have hsat : (belowBound 10).Satisfiable := by
    refine ⟨⟨[]⟩, fun c hc => ?_⟩
    rw [mem_singleton.mp hc]
    decide
  have hans := (computeValue_feasibility_iff (constantSolver (some [[3, 0, 0, 0]]))
    (replicate 2 (belowBound 10)) (fun q hq => ?_) fun q hq => ?_).mpr fun q hq => ?_
  · exact ⟨hans [] (belowBound 10) [belowBound 10] rfl,
      hans [belowBound 10] (belowBound 10) [] rfl⟩
  all_goals rw [eq_of_mem_replicate hq]
  · exact belowBound_wf 10 _
  · exact belowBound_exactOn
  · exact hsat

end Example

end CexEnv

end Castan
