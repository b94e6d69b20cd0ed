/-
# Constraint independence

`IndependentSolver` passes on to the wrapped solver only the constraints that are connected to the
query expression through the array cells they read.  An `IndependentElementSet` tracks those
cells: single elements for constant indices, a whole array once it is read at a symbolic index.
Dropping the other constraints changes no verdict if the constraints can be satisfied.
-/
import Castan.Expr.FindReads
import Castan.Solver.Verdict
import Mathlib.Data.List.AList

namespace Castan

open List

/-- `IndependentElementSet`. -/
structure IndependentElementSet where
  /-- The single elements that are read, `std::map<const Array *, DenseSet<unsigned>>`. -/
  elements : AList fun _ : KArray => Finset ℕ
  /-- The arrays that are read at a symbolic index. -/
  wholeObjects : List KArray
  /-- The expressions of the set. -/
  exprs : List Expr
deriving DecidableEq

namespace IndependentElementSet

/-! ### The operations -/

/-- One read, in the constructor from an expression. -/
def track (s : IndependentElementSet) (re : ReadNode) : IndependentElementSet :=
  -- reads of a constant array do not alias
  if re.root.isSymbolicArray = false ∧ re.head = .null then s
  else if re.root ∈ s.wholeObjects then s
  else
    match re.index.constant? with
    | some c =>
        let dis := (s.elements.lookup re.root).getD ∅
        { s with elements := s.elements.insert re.root (insert (c.toNat % 2 ^ 32) dis) }
    | none =>
        { s with
          elements := s.elements.erase re.root
          wholeObjects := re.root :: s.wholeObjects }

/-- The constructor from an expression. -/
def ofExpr (e : Expr) : IndependentElementSet := (findReads e).foldl track ⟨∅, [], [e]⟩

/-- `intersects`. -/
def intersects (s b : IndependentElementSet) : Bool :=
  s.wholeObjects.any (fun array =>
      b.wholeObjects.contains array || (b.elements.lookup array).isSome) ||
    s.elements.entries.any fun entry =>
      b.wholeObjects.contains entry.1 ||
        (b.elements.lookup entry.1).any fun dis => decide (∃ i ∈ entry.2, i ∈ dis)

/-- A whole object of the other set, in `add`. -/
def addWhole (s : IndependentElementSet × Bool) (array : KArray) : IndependentElementSet × Bool :=
  if (s.1.elements.lookup array).isSome then
    ({ s.1 with
        elements := s.1.elements.erase array
        wholeObjects := array :: s.1.wholeObjects }, true)
  else if array ∈ s.1.wholeObjects then s
  else ({ s.1 with wholeObjects := array :: s.1.wholeObjects }, true)

/-- The elements of the other set in one array, in `add`. -/
def addElements (s : IndependentElementSet × Bool) (entry : Sigma fun _ : KArray => Finset ℕ) :
    IndependentElementSet × Bool :=
  if entry.1 ∈ s.1.wholeObjects then s
  else
    match s.1.elements.lookup entry.1 with
    | none => ({ s.1 with elements := s.1.elements.insert entry.1 entry.2 }, true)
    | some dis =>
        ({ s.1 with elements := s.1.elements.insert entry.1 (dis ∪ entry.2) },
          s.2 || decide ¬ entry.2 ⊆ dis)

/-- `add`, with whether the set has changed. -/
def add (s b : IndependentElementSet) : IndependentElementSet × Bool :=
  b.elements.entries.foldl addElements
    (b.wholeObjects.foldl addWhole ({ s with exprs := s.exprs ++ b.exprs }, false))

end IndependentElementSet

namespace IndependentSolver

/-! ### The constraints connected to an expression -/

/-- The result of one pass over the worklist. -/
structure Pass where
  eltsClosure : IndependentElementSet
  /-- The constraints that were added to the closure. -/
  result : List Expr
  newWorklist : List (Expr × IndependentElementSet)
  modified : Bool

/-- One pass of the loop of `getIndependentConstraints`. -/
def pass : List (Expr × IndependentElementSet) → IndependentElementSet → Pass
  | [], eltsClosure => ⟨eltsClosure, [], [], false⟩
  | it :: worklist, eltsClosure =>
      if it.2.intersects eltsClosure then
        let added := eltsClosure.add it.2
        let p := pass worklist added.1
        { p with result := it.1 :: p.result, modified := added.2 || p.modified }
      else
        let p := pass worklist eltsClosure
        { p with newWorklist := it :: p.newWorklist }

lemma pass_length (worklist : List (Expr × IndependentElementSet))
    (eltsClosure : IndependentElementSet) :
    (pass worklist eltsClosure).newWorklist.length ≤ worklist.length ∧
      ((pass worklist eltsClosure).modified = true →
        (pass worklist eltsClosure).newWorklist.length < worklist.length) := by
  induction worklist generalizing eltsClosure with
  | nil => exact ⟨le_rfl, nofun⟩
  | cons it worklist ih =>
    rw [pass]
    split
    · have hrest := (ih (eltsClosure.add it.2).1).1
      exact ⟨hrest.trans (Nat.le_succ _), fun _ => Nat.lt_succ_of_le hrest⟩
    · obtain ⟨hle, hlt⟩ := ih eltsClosure
      exact ⟨Nat.succ_le_succ hle, fun h => Nat.succ_lt_succ (hlt h)⟩

/-- The loop of `getIndependentConstraints`. -/
def close (worklist : List (Expr × IndependentElementSet)) (eltsClosure : IndependentElementSet)
    (result : List Expr) : IndependentElementSet × List Expr :=
  let p := pass worklist eltsClosure
  if _h : p.modified = true then close p.newWorklist p.eltsClosure (result ++ p.result)
  else (p.eltsClosure, result ++ p.result)
termination_by worklist.length
decreasing_by exact (pass_length worklist eltsClosure).2 _h

/-- `getIndependentConstraints`, with the elements of the closure. -/
def getIndependentConstraints (query : Query) : IndependentElementSet × List Expr :=
  close (query.constraints.map fun c => (c, .ofExpr c)) (.ofExpr query.expr) []

/-- The query that is passed on. -/
def required (query : Query) : Query := ⟨(getIndependentConstraints query).2, query.expr⟩

/-- `IndependentSolver::computeTruth`. -/
def computeTruth (solver : SolverImpl) (query : Query) : Option Bool :=
  solver.computeTruth (required query)

/-- `IndependentSolver::computeValidity`. -/
def computeValidity (solver : SolverImpl) (query : Query) : Option Validity :=
  solver.computeValidity (required query)

/-- `IndependentSolver::computeValue`. -/
def computeValue (solver : SolverImpl) (query : Query) : Option APInt :=
  solver.computeValue (required query)

end IndependentSolver

namespace IndependentElementSet

/-! ### The cells of a set -/

/-- The set has the cell `i` of the array. -/
def Has (s : IndependentElementSet) (array : KArray) (i : ℕ) : Prop :=
  array ∈ s.wholeObjects ∨ ∃ dis, s.elements.lookup array = some dis ∧ i ∈ dis

/-- No cell is in both sets. -/
def Separate (s b : IndependentElementSet) : Prop := ∀ array i, s.Has array i → ¬ b.Has array i

/-- The wider set has the cells of the other. -/
def Within (s b : IndependentElementSet) : Prop := ∀ array i, s.Has array i → b.Has array i

variable {s b : IndependentElementSet} {array : KArray} {i : ℕ}

lemma mem_entries_of_lookup {dis : Finset ℕ} (h : s.elements.lookup array = some dis) :
    (⟨array, dis⟩ : Sigma fun _ : KArray => Finset ℕ) ∈ s.elements.entries :=
  AList.mem_lookup_iff.1 h

lemma lookup_of_mem_entries {entry : Sigma fun _ : KArray => Finset ℕ}
    (h : entry ∈ s.elements.entries) : s.elements.lookup entry.1 = some entry.2 :=
  AList.mem_lookup_iff.2 h

/-- Sets that do not intersect have no cell in common. -/
lemma separate_of_intersects (h : s.intersects b = false) : s.Separate b := by
  simp only [intersects, Bool.or_eq_false_iff, any_eq_false, Bool.or_eq_true,
    contains_iff_mem, not_or] at h
  obtain ⟨hwhole, helements⟩ := h
  rintro array i (hs | ⟨dis, hs, hi⟩) (hb | ⟨dis', hb, hi'⟩)
  · exact (hwhole array hs).1 hb
  · exact (hwhole array hs).2 (by rw [hb]; rfl)
  · exact (helements _ (mem_entries_of_lookup hs)).1 hb
  · refine (helements _ (mem_entries_of_lookup hs)).2 ?_
    rw [hb, Option.any_some, decide_eq_true_iff]
    exact ⟨i, hi, hi'⟩

/-- An array becomes a whole object. -/
lemma has_collapse (elements : AList fun _ : KArray => Finset ℕ)
    (h : ∀ x, x ≠ array → elements.lookup x = s.elements.lookup x) (x : KArray) (i : ℕ) :
    Has { s with elements, wholeObjects := array :: s.wholeObjects } x i ↔
      s.Has x i ∨ x = array := by
  rcases eq_or_ne x array with rfl | hne
  · simp [Has]
  · simp [Has, hne, h x hne]

/-- An array gets the further elements `new`. -/
lemma has_insert {dis : Finset ℕ} (new : Finset ℕ)
    (h : ∀ i, i ∈ dis ↔ i ∈ (s.elements.lookup array).getD ∅ ∨ i ∈ new) (x : KArray) (i : ℕ) :
    Has { s with elements := s.elements.insert array dis } x i ↔
      s.Has x i ∨ (x = array ∧ i ∈ new) := by
  rcases eq_or_ne x array with rfl | hne
  · have hold : (∃ old, s.elements.lookup x = some old ∧ i ∈ old) ↔
        i ∈ (s.elements.lookup x).getD ∅ := by
      cases s.elements.lookup x <;> simp
    simp only [Has, AList.lookup_insert, Option.some.injEq, exists_eq_left', true_and, or_assoc,
      hold, h i]
  · simp [Has, hne, AList.lookup_insert_ne hne]

/-- What an operation does that adds the cells `X`: the flag tells whether there was a new one. -/
structure Adds (X : KArray → ℕ → Prop) (s s' : IndependentElementSet × Bool) : Prop where
  has_iff : ∀ array i, s'.1.Has array i ↔ s.1.Has array i ∨ X array i
  same : s'.2 = false → s.2 = false ∧ ∀ array i, X array i → s.1.Has array i
  exprs : s'.1.exprs = s.1.exprs

lemma Adds.trans {X Y : KArray → ℕ → Prop} {s₁ s₂ s₃ : IndependentElementSet × Bool}
    (h : Adds X s₁ s₂) (h' : Adds Y s₂ s₃) : Adds (fun array i => X array i ∨ Y array i) s₁ s₃ := by
  refine ⟨fun array i => ?_, fun hsame => ?_, h'.exprs.trans h.exprs⟩
  · rw [h'.has_iff, h.has_iff, or_assoc]
  · obtain ⟨hflag, hY⟩ := h'.same hsame
    obtain ⟨hflag', hX⟩ := h.same hflag
    refine ⟨hflag', fun array i hXY => ?_⟩
    rcases hXY with hx | hy
    · exact hX array i hx
    · exact ((h.has_iff array i).1 (hY array i hy)).elim id (hX array i)

lemma addWhole_adds (s : IndependentElementSet × Bool) (array : KArray) :
    Adds (fun x _ => x = array) s (addWhole s array) := by
  rw [addWhole]
  split
  · exact ⟨has_collapse _ fun x hne => AList.lookup_erase_ne hne, nofun, rfl⟩
  · split
    · next hmem =>
      refine ⟨fun x i => (or_iff_left_of_imp ?_).symm, fun hflag => ⟨hflag, ?_⟩, rfl⟩
      · rintro rfl
        exact Or.inl hmem
      · rintro x i rfl
        exact Or.inl hmem
    · exact ⟨has_collapse _ fun x _ => rfl, nofun, rfl⟩

lemma addElements_adds (s : IndependentElementSet × Bool)
    (entry : Sigma fun _ : KArray => Finset ℕ) :
    Adds (fun x i => x = entry.1 ∧ i ∈ entry.2) s (addElements s entry) := by
  rw [addElements]
  split
  · next hmem =>
    refine ⟨fun x i => (or_iff_left_of_imp ?_).symm, fun hflag => ⟨hflag, ?_⟩, rfl⟩
    · rintro ⟨rfl, -⟩
      exact Or.inl hmem
    · rintro x i ⟨rfl, -⟩
      exact Or.inl hmem
  · split
    · next hnone =>
      exact ⟨has_insert _ (by simp [hnone]), nofun, rfl⟩
    · next dis hsome =>
      refine ⟨has_insert _ (by simp [hsome]), fun hflag => ?_, rfl⟩
      rw [Bool.or_eq_false_iff, decide_eq_false_iff_not, not_not] at hflag
      refine ⟨hflag.1, ?_⟩
      rintro x i ⟨rfl, hi⟩
      exact Or.inr ⟨dis, hsome, hflag.2 hi⟩

lemma foldl_adds {α : Type} {f : IndependentElementSet × Bool → α → IndependentElementSet × Bool}
    {X : α → KArray → ℕ → Prop} (hf : ∀ s x, Adds (X x) s (f s x)) (xs : List α)
    (s : IndependentElementSet × Bool) :
    Adds (fun array i => ∃ x ∈ xs, X x array i) s (xs.foldl f s) := by
  induction xs generalizing s with
  | nil => exact ⟨by simp, fun h => ⟨h, by simp⟩, rfl⟩
  | cons x xs ih =>
    simpa only [exists_mem_cons_iff, foldl_cons] using (hf s x).trans (ih (f s x))

/-- `add` adds the cells of the other set, and tells whether there was a new one. -/
theorem add_adds (s b : IndependentElementSet) :
    Adds b.Has ({ s with exprs := s.exprs ++ b.exprs }, false) (s.add b) := by
  have hfold := (foldl_adds addWhole_adds b.wholeObjects
    ({ s with exprs := s.exprs ++ b.exprs }, false)).trans
      (foldl_adds addElements_adds b.elements.entries _)
  have hcells : (fun x i => (∃ array ∈ b.wholeObjects, x = array) ∨
      ∃ entry ∈ b.elements.entries, x = entry.1 ∧ i ∈ entry.2) = b.Has := by
    ext x i
    refine or_congr (by simp) ⟨?_, ?_⟩
    · rintro ⟨entry, hentry, rfl, hi⟩
      exact ⟨entry.2, lookup_of_mem_entries hentry, hi⟩
    · rintro ⟨dis, hdis, hi⟩
      exact ⟨⟨x, dis⟩, mem_entries_of_lookup hdis, rfl, hi⟩
  rwa [hcells] at hfold

lemma add_has_iff (s b : IndependentElementSet) (array : KArray) (i : ℕ) :
    (s.add b).1.Has array i ↔ s.Has array i ∨ b.Has array i := (add_adds s b).has_iff array i

lemma add_within_of_same (h : (s.add b).2 = false) : b.Within s := ((add_adds s b).same h).2

/-! ### The cells of an expression -/

/-- A read is of the cell: one of a constant array without updates is of none, and one with a
symbolic index of all. -/
def Tracks (re : ReadNode) (array : KArray) (i : ℕ) : Prop :=
  ¬ (re.root.isSymbolicArray = false ∧ re.head = .null) ∧ array = re.root ∧
    ∀ c, re.index.constant? = some c → i = c.toNat % 2 ^ 32

lemma track_has_iff (s : IndependentElementSet) (re : ReadNode) (array : KArray) (i : ℕ) :
    (s.track re).Has array i ↔ s.Has array i ∨ Tracks re array i := by
  rw [track]
  split
  · next hconst => simp [Tracks, hconst]
  · next hconst =>
    split
    · next hmem =>
      refine (or_iff_left_of_imp ?_).symm
      rintro ⟨-, rfl, -⟩
      exact Or.inl hmem
    · split
      · next c hc =>
        rw [has_insert {c.toNat % 2 ^ 32} (by simp [or_comm])]
        simp [Tracks, hconst, hc]
      · next hc =>
        rw [has_collapse _ fun x hne => AList.lookup_erase_ne hne]
        simp [Tracks, hconst, hc]

lemma foldl_track_has_iff (reads : List ReadNode) (s : IndependentElementSet) :
    (reads.foldl track s).Has array i ↔ s.Has array i ∨ ∃ re ∈ reads, Tracks re array i := by
  induction reads generalizing s with
  | nil => simp
  | cons re reads ih =>
    rw [foldl_cons, ih, track_has_iff, or_assoc, exists_mem_cons_iff]

lemma ofExpr_has_iff (e : Expr) :
    (ofExpr e).Has array i ↔ ∃ re ∈ findReads e, Tracks re array i := by
  rw [ofExpr, foldl_track_has_iff, or_iff_right]
  rintro (hmem | ⟨dis, hdis, -⟩)
  · exact nomatch hmem
  · exact nomatch hdis

/-- The value of an expression depends on its tracked cells of symbolic arrays, and on constant
arrays at most outside their bounds. -/
theorem eval_eq_of_agree {ρ τ : Valuation} {e : Expr} (ht : e.Typed) (hi : e.Indexable)
    (hcells : ∀ array i, array.isSymbolicArray = true → (ofExpr e).Has array i →
      ρ array i = τ array i)
    (hconst : e.InRange ρ ∨ ∀ array, array.isSymbolicArray = false → ρ array = τ array) :
    e.eval ρ = e.eval τ := by
  refine eval_eq_of_findReads fun re hre => ?_
  have htyped : re.toExpr.Typed := findReads_forall (fun _ h => h.inner) ht re hre
  have hindexable : re.toExpr.Indexable := findReads_forall (fun _ h => h.inner) hi re hre
  cases hsym : re.root.isSymbolicArray with
  | true =>
    have hhas : (ofExpr e).Has re.root (re.index.eval ρ).toNat := by
      refine (ofExpr_has_iff e).2 ⟨re, hre, by simp [hsym], rfl, fun c hc => ?_⟩
      -- a constant index is at most 32 bits wide
      have hindex : re.index = .const c := Expr.constant?_eq_some.1 hc
      have hwidth : c.width = re.root.domain := by
        have hw := htyped.2.2.1
        rwa [hindex] at hw
      have hlt : c.toNat < 2 ^ 32 :=
        c.toNat_lt.trans_le (Nat.pow_le_pow_right (by decide) (hwidth ▸ hindexable.1))
      rw [hindex, Expr.eval, Nat.mod_eq_of_lt hlt]
    rw [ReadNode.Agrees, KArray.initialValue, KArray.initialValue, hcells _ _ hsym hhas]
  | false =>
    rcases hconst with hrange | heq
    · have hre' : re.toExpr.InRange ρ := findReads_forall (fun _ h => h.inner) hrange re hre
      have hlt : (re.index.eval ρ).toNat < re.root.constantValues.length := by
        rw [htyped.1.size_eq hsym]
        exact hre'.2.2 hsym
      rw [ReadNode.Agrees, KArray.initialValue, KArray.initialValue,
        List.getElem?_eq_getElem hlt, Option.getD_some, Option.getD_some]
    · rw [ReadNode.Agrees, KArray.initialValue, KArray.initialValue, heq _ hsym]

end IndependentElementSet

/-! ### The closure -/

namespace IndependentSolver

open IndependentElementSet

/-- What one pass does. -/
structure PassSpec (worklist : List (Expr × IndependentElementSet))
    (eltsClosure : IndependentElementSet) (p : Pass) : Prop where
  grows : eltsClosure.Within p.eltsClosure
  result : ∀ x ∈ p.result, ∃ it ∈ worklist, it.1 = x ∧ it.2.Within p.eltsClosure
  covers : ∀ it ∈ worklist, it.1 ∈ p.result ∨ it ∈ p.newWorklist
  rest : ∀ it ∈ p.newWorklist, it ∈ worklist
  /-- A pass that has not changed the closure has compared the rest with all of it. -/
  same : p.modified = false → p.eltsClosure.Within eltsClosure ∧
    ∀ it ∈ p.newWorklist, it.2.Separate p.eltsClosure

lemma pass_spec (worklist : List (Expr × IndependentElementSet))
    (eltsClosure : IndependentElementSet) :
    PassSpec worklist eltsClosure (pass worklist eltsClosure) := by
  induction worklist generalizing eltsClosure with
  | nil => exact ⟨fun _ _ h => h, nofun, nofun, nofun, fun _ => ⟨fun _ _ h => h, nofun⟩⟩
  | cons it worklist ih =>
    rw [pass]
    split
    · obtain ⟨hgrows, hresult, hcovers, hrest, hsame⟩ := ih (eltsClosure.add it.2).1
      refine ⟨fun x i h => hgrows x i ((add_has_iff _ _ x i).2 (Or.inl h)), ?_, ?_, ?_, ?_⟩
      · intro x hx
        rcases mem_cons.1 hx with rfl | hx
        · exact ⟨it, mem_cons_self .., rfl,
            fun x i h => hgrows x i ((add_has_iff _ _ x i).2 (Or.inr h))⟩
        · obtain ⟨it', hit', hx'⟩ := hresult x hx
          exact ⟨it', mem_cons_of_mem _ hit', hx'⟩
      · intro it' hit'
        rcases mem_cons.1 hit' with rfl | hit'
        · exact Or.inl (mem_cons_self ..)
        · exact (hcovers it' hit').imp_left (mem_cons_of_mem _)
      · exact fun it' hit' => mem_cons_of_mem _ (hrest it' hit')
      · intro hmod
        obtain ⟨hadd, hmod'⟩ := Bool.or_eq_false_iff.1 hmod
        obtain ⟨hwithin, hsep⟩ := hsame hmod'
        refine ⟨fun x i h => ?_, hsep⟩
        rcases (add_has_iff _ _ x i).1 (hwithin x i h) with hold | hnew
        · exact hold
        · exact add_within_of_same hadd x i hnew
    · next hnot =>
      obtain ⟨hgrows, hresult, hcovers, hrest, hsame⟩ := ih eltsClosure
      refine ⟨hgrows, ?_, ?_, ?_, ?_⟩
      · intro x hx
        obtain ⟨it', hit', hx'⟩ := hresult x hx
        exact ⟨it', mem_cons_of_mem _ hit', hx'⟩
      · intro it' hit'
        rcases mem_cons.1 hit' with rfl | hit'
        · exact Or.inr (mem_cons_self ..)
        · exact (hcovers it' hit').imp_right (mem_cons_of_mem _)
      · exact forall_mem_cons.2 ⟨mem_cons_self ..,
          fun it' hit' => mem_cons_of_mem _ (hrest it' hit')⟩
      · intro hmod
        obtain ⟨hwithin, hsep⟩ := hsame hmod
        refine ⟨hwithin, forall_mem_cons.2 ⟨fun x i h h' => ?_, hsep⟩⟩
        exact separate_of_intersects (by simpa using hnot) x i h (hwithin x i h')

/-- What the loop returns. -/
structure CloseSpec (worklist : List (Expr × IndependentElementSet))
    (eltsClosure : IndependentElementSet) (result : List Expr)
    (out : IndependentElementSet × List Expr) : Prop where
  grows : eltsClosure.Within out.1
  origin : ∀ x ∈ out.2, x ∈ result ∨ ∃ it ∈ worklist, it.1 = x ∧ it.2.Within out.1
  keeps : ∀ x ∈ result, x ∈ out.2
  covers : ∀ it ∈ worklist, it.1 ∈ out.2 ∨ it.2.Separate out.1

lemma close_spec (worklist : List (Expr × IndependentElementSet))
    (eltsClosure : IndependentElementSet) (result : List Expr) :
    CloseSpec worklist eltsClosure result (close worklist eltsClosure result) := by
  fun_induction close worklist eltsClosure result with
  | case1 worklist eltsClosure result p hmod ih =>
    have hpass := pass_spec worklist eltsClosure
    refine ⟨fun x i h => ih.grows x i (hpass.grows x i h), ?_, ?_, ?_⟩
    · intro x hx
      rcases ih.origin x hx with hmem | ⟨it, hit, heq, hwithin⟩
      · refine (mem_append.1 hmem).imp_right fun hnew => ?_
        obtain ⟨it, hit, heq, hwithin⟩ := hpass.result x hnew
        exact ⟨it, hit, heq, fun y i h => ih.grows y i (hwithin y i h)⟩
      · exact Or.inr ⟨it, hpass.rest it hit, heq, hwithin⟩
    · exact fun x hx => ih.keeps x (mem_append_left _ hx)
    · intro it hit
      rcases hpass.covers it hit with hnew | hrest
      · exact Or.inl (ih.keeps _ (mem_append_right _ hnew))
      · exact ih.covers it hrest
  | case2 worklist eltsClosure result p hmod =>
    have hpass := pass_spec worklist eltsClosure
    refine ⟨hpass.grows, ?_, fun x hx => mem_append_left _ hx, ?_⟩
    · exact fun x hx => (mem_append.1 hx).imp_right (hpass.result x)
    · intro it hit
      rcases hpass.covers it hit with hnew | hrest
      · exact Or.inl (mem_append_right _ hnew)
      · exact Or.inr ((hpass.same (by simpa using hmod)).2 it hrest)

lemma getIndependentConstraints_spec (q : Query) :
    CloseSpec (q.constraints.map fun c => (c, .ofExpr c)) (.ofExpr q.expr) []
      (getIndependentConstraints q) := close_spec _ _ _

lemma mem_required {q : Query} {c : Expr} (h : c ∈ (required q).constraints) :
    c ∈ q.constraints ∧ (ofExpr c).Within (getIndependentConstraints q).1 := by
  rcases (getIndependentConstraints_spec q).origin c h with hnil | ⟨it, hit, rfl, hwithin⟩
  · exact nomatch hnil
  · obtain ⟨c, hc, rfl⟩ := mem_map.1 hit
    exact ⟨hc, hwithin⟩

lemma separate_of_not_required {q : Query} {c : Expr} (hc : c ∈ q.constraints)
    (h : c ∉ (required q).constraints) :
    (ofExpr c).Separate (getIndependentConstraints q).1 := by
  have hmem : (c, ofExpr c) ∈ q.constraints.map fun c => (c, ofExpr c) :=
    mem_map.2 ⟨c, hc, rfl⟩
  exact ((getIndependentConstraints_spec q).covers _ hmem).resolve_left h

end IndependentSolver

/-! ### Exactness -/

/-- Boolean constraints and an expression over arrays with indices of at most 32 bits. -/
structure Query.WellTyped (q : Query) : Prop where
  constraints : ∀ c ∈ q.constraints, c.Typed ∧ c.width = 1 ∧ c.Indexable
  typed : q.expr.Typed
  indexable : q.expr.Indexable

/-- The solver answers every query with satisfiable constraints, and rightly. -/
structure SolverImpl.Exact (solver : SolverImpl) : Prop where
  truth : ∀ q : Query, q.WellTyped → q.expr.width = 1 → q.Consistent Set.univ →
    ∃ isValid, solver.computeTruth q = some isValid ∧ (isValid = true ↔ q.Implied Set.univ)
  validity : ∀ q : Query, q.WellTyped → q.expr.width = 1 → q.Consistent Set.univ →
    ∃ result, solver.computeValidity q = some result ∧ q.Verdict Set.univ result
  value : ∀ q : Query, q.WellTyped → q.Consistent Set.univ →
    ∃ v, solver.computeValue q = some v ∧ ∃ ρ, q.MetBy ρ ∧ q.expr.eval ρ = v

namespace IndependentSolver

open IndependentElementSet

variable {q : Query} {σ ρ : Valuation}

open Classical in
/-- The valuation that takes the cells of the constraints that are not required from `σ` and the
others from `ρ`. -/
noncomputable def merge (q : Query) (σ ρ : Valuation) : Valuation := fun array i =>
  if array.isSymbolicArray = true ∧
      ∃ c ∈ q.constraints, c ∉ (required q).constraints ∧ (ofExpr c).Has array i then σ array i
  else ρ array i

lemma merge_const {array : KArray} (h : array.isSymbolicArray = false) :
    merge q σ ρ array = ρ array := by
  ext i
  rw [merge, if_neg (by simp [h])]

/-- On what the closure reads, the merged valuation is `ρ`. -/
lemma eval_merge_of_within {e : Expr} (ht : e.Typed) (hi : e.Indexable)
    (h : (ofExpr e).Within (getIndependentConstraints q).1) :
    e.eval (merge q σ ρ) = e.eval ρ := by
  refine eval_eq_of_agree ht hi (fun array i _ hhas => ?_) (Or.inr fun array => merge_const)
  refine if_neg ?_
  rintro ⟨-, c, hc, hnot, hhas'⟩
  exact separate_of_not_required hc hnot array i hhas' (h array i hhas)

/-- On the constraints that are not required, it is `σ`. -/
lemma eval_merge_of_not_required {c : Expr} (ht : c.Typed) (hi : c.Indexable)
    (hc : c ∈ q.constraints) (hnot : c ∉ (required q).constraints) (hrange : c.InRange σ) :
    c.eval (merge q σ ρ) = c.eval σ := by
  refine (eval_eq_of_agree ht hi (fun array i hsym hhas => ?_) (Or.inl hrange)).symm
  exact (if_pos ⟨hsym, c, hc, hnot, hhas⟩).symm

/-- A valuation of the required constraints extends to all constraints, with the same value of the
expression. -/
lemma exists_metBy (hq : q.WellTyped) (hσ : q.MetBy σ) (hrange : ∀ c ∈ q.constraints, c.InRange σ)
    (hρ : (required q).MetBy ρ) : ∃ τ, q.MetBy τ ∧ q.expr.eval τ = q.expr.eval ρ := by
  refine ⟨merge q σ ρ, fun c hc => ?_, ?_⟩
  · obtain ⟨ht, -, hi⟩ := hq.constraints c hc
    by_cases hreq : c ∈ (required q).constraints
    · rw [Expr.Holds, eval_merge_of_within ht hi (mem_required hreq).2]
      exact hρ c hreq
    · rw [Expr.Holds, eval_merge_of_not_required ht hi hc hreq (hrange c hc)]
      exact hσ c hc
  · exact eval_merge_of_within hq.typed hq.indexable (getIndependentConstraints_spec q).grows

lemma required_metBy (h : q.MetBy ρ) : (required q).MetBy ρ := fun c hc => h c (mem_required hc).1

lemma required_wellTyped (h : q.WellTyped) : (required q).WellTyped :=
  ⟨fun c hc => h.constraints c (mem_required hc).1, h.typed, h.indexable⟩

/-- What the expression can be under the required constraints it can be under all. -/
lemma forall_required_iff (hq : q.WellTyped) (hσ : q.MetBy σ)
    (hrange : ∀ c ∈ q.constraints, c.InRange σ) (P : APInt → Prop) :
    (∀ ρ ∈ Set.univ, (required q).MetBy ρ → P (q.expr.eval ρ)) ↔
      ∀ ρ ∈ Set.univ, q.MetBy ρ → P (q.expr.eval ρ) := by
  constructor
  · intro h ρ hρ hmet
    exact h ρ hρ (required_metBy hmet)
  · intro h ρ hρ hmet
    obtain ⟨τ, hτ, heq⟩ := exists_metBy hq hσ hrange hmet
    exact heq ▸ h τ trivial hτ

/-- Although only the constraints connected to the expression are passed on, the answers are those
to the full query. -/
theorem answers_full_query (solver : SolverImpl) (hsolver : solver.Exact) (q : Query)
    (hq : q.WellTyped) (hsat : ∃ σ, q.MetBy σ ∧ ∀ c ∈ q.constraints, c.InRange σ) :
    (q.expr.width = 1 → ∃ isValid, computeTruth solver q = some isValid ∧
      (isValid = true ↔ q.Implied Set.univ)) ∧
    (q.expr.width = 1 → ∃ result, computeValidity solver q = some result ∧
      q.Verdict Set.univ result) ∧
    ∃ v, computeValue solver q = some v ∧ ∃ ρ, q.MetBy ρ ∧ q.expr.eval ρ = v := by
  obtain ⟨σ, hσ, hrange⟩ := hsat
  have htyped := required_wellTyped hq
  have hcons : (required q).Consistent Set.univ := ⟨σ, trivial, required_metBy hσ⟩
  have himplied : (required q).Implied Set.univ ↔ q.Implied Set.univ :=
    forall_required_iff hq hσ hrange fun v => v = APInt.bool true
  have hrefuted : (required q).Refuted Set.univ ↔ q.Refuted Set.univ :=
    forall_required_iff hq hσ hrange fun v => ¬ v = APInt.bool true
  refine ⟨fun hw => ?_, fun hw => ?_, ?_⟩
  · obtain ⟨isValid, hcompute, hiff⟩ := hsolver.truth _ htyped hw hcons
    exact ⟨isValid, hcompute, hiff.trans himplied⟩
  · obtain ⟨result, hcompute, hverdict⟩ := hsolver.validity _ htyped hw hcons
    refine ⟨result, hcompute, ?_⟩
    cases result with
    | isTrue => exact himplied.1 hverdict
    | isFalse => exact hrefuted.1 hverdict
    | unknown => exact ⟨himplied.not.1 hverdict.1, hrefuted.not.1 hverdict.2⟩
  · obtain ⟨v, hcompute, ρ, hmet, hv⟩ := hsolver.value _ htyped hcons
    obtain ⟨τ, hτ, heq⟩ := exists_metBy hq hσ hrange hmet
    exact ⟨v, hcompute, τ, hτ, heq.trans hv⟩

/-! ### Example -/

lemma preferring_exact (σ : Valuation) : (SolverImpl.preferring σ).Exact where
  truth _ _ _ _ := SolverImpl.preferring_truth
  validity _ _ _ _ := SolverImpl.preferring_validity
  value _ _ := SolverImpl.preferring_value

/-- The byte of an array of one byte is below `n`. -/
def byteBelow (addr n : ℕ) : Expr :=
  .bin .ult (.read (.bytes addr "x" 1) .null (.const (.ofNat 32 0))) (.const (.ofNat 8 n))

/-- A constraint on the array of the expression and one on another array. -/
def twoArrays : Query := ⟨[byteBelow 1 10, byteBelow 2 7], byteBelow 1 20⟩

/-- The constraint on the other array is dropped. -/
example : (required twoArrays).constraints = [byteBelow 1 10] := by decide +kernel

lemma byteBelow_typed (addr n : ℕ) : (byteBelow addr n).Typed :=
  ⟨⟨KArray.bytes_wf addr "x" (by decide), Nat.succ_pos _, rfl, trivial⟩, Nat.succ_pos _, rfl⟩

lemma byteBelow_indexable (addr n : ℕ) : (byteBelow addr n).Indexable :=
  ⟨⟨le_rfl, trivial, trivial⟩, trivial⟩

lemma byteBelow_inRange (addr n : ℕ) (ρ : Valuation) : (byteBelow addr n).InRange ρ :=
  ⟨⟨trivial, trivial, fun h => by simp [KArray.bytes, KArray.isSymbolicArray] at h⟩, trivial⟩

lemma twoArrays_wellTyped : twoArrays.WellTyped where
  constraints := by
    simp only [twoArrays, forall_mem_cons]
    exact ⟨⟨byteBelow_typed 1 10, rfl, byteBelow_indexable 1 10⟩,
      ⟨byteBelow_typed 2 7, rfl, byteBelow_indexable 2 7⟩, nofun⟩
  typed := byteBelow_typed 1 20
  indexable := byteBelow_indexable 1 20

lemma twoArrays_met : twoArrays.MetBy fun _ _ => 3 := by
  simp only [Query.MetBy, twoArrays, forall_mem_cons]
  exact ⟨by decide, by decide, nofun⟩

theorem answers_full_query_twoArrays :
    (∃ isValid, computeTruth (.preferring fun _ _ => 0) twoArrays = some isValid ∧
      (isValid = true ↔ twoArrays.Implied Set.univ)) ∧
    (∃ result, computeValidity (.preferring fun _ _ => 0) twoArrays = some result ∧
      twoArrays.Verdict Set.univ result) ∧
    ∃ v, computeValue (.preferring fun _ _ => 0) twoArrays = some v ∧
      ∃ ρ, twoArrays.MetBy ρ ∧ twoArrays.expr.eval ρ = v := by
  obtain ⟨htruth, hvalidity, hvalue⟩ := answers_full_query _ (preferring_exact fun _ _ => 0)
    twoArrays twoArrays_wellTyped ⟨_, twoArrays_met, by
      simp only [twoArrays, forall_mem_cons]
      exact ⟨byteBelow_inRange 1 10 _, byteBelow_inRange 2 7 _, nofun⟩⟩
  exact ⟨htruth rfl, hvalidity rfl, hvalue⟩

end IndependentSolver

end Castan
