/-
# Independent factors

`getAllIndependentConstraintsSets` splits the constraints and the negated expression of a query
into factors that share no array cell, by sweeping over the factors until nothing is merged any
more.
-/
import Castan.Solver.Independent

namespace Castan

open List

variable {array : KArray} {e : Expr}

namespace IndependentSolver

open IndependentElementSet

/-! ### The sweeps -/

/-- The result of comparing one factor with those behind it. -/
structure Sweep where
  current : IndependentElementSet
  /-- The factors that are separate from `current`. -/
  keep : List IndependentElementSet
  modified : Bool

/-- The inner loop. -/
def sweep (current : IndependentElementSet) : List IndependentElementSet → Sweep
  | [] => ⟨current, [], false⟩
  | compare :: factors =>
      if current.intersects compare then
        let added := current.add compare
        let r := sweep added.1 factors
        { r with modified := added.2 || r.modified }
      else
        let r := sweep current factors
        { r with keep := compare :: r.keep }

lemma sweep_length (current : IndependentElementSet) (factors : List IndependentElementSet) :
    (sweep current factors).keep.length ≤ factors.length ∧
      ((sweep current factors).modified = true →
        (sweep current factors).keep.length < factors.length) := by
  induction factors generalizing current with
  | nil => exact ⟨le_rfl, nofun⟩
  | cons compare factors ih =>
    rw [sweep]
    split
    · have hrest := (ih (current.add compare).1).1
      exact ⟨hrest.trans (Nat.le_succ _), fun _ => Nat.lt_succ_of_le hrest⟩
    · obtain ⟨hle, hlt⟩ := ih current
      exact ⟨Nat.succ_le_succ hle, fun h => Nat.succ_lt_succ (hlt h)⟩

/-- The loop that fills `done`, and whether a factor has changed. -/
def sweepAll : List IndependentElementSet → List IndependentElementSet × Bool
  | [] => ([], false)
  | current :: factors =>
      let r := sweep current factors
      let rest := sweepAll r.keep
      (r.current :: rest.1, r.modified || rest.2)
termination_by factors => factors.length
decreasing_by exact Nat.lt_succ_of_le (sweep_length current factors).1

lemma sweepAll_length (factors : List IndependentElementSet) :
    (sweepAll factors).1.length ≤ factors.length ∧
      ((sweepAll factors).2 = true → (sweepAll factors).1.length < factors.length) := by
  fun_induction sweepAll factors with
  | case1 => exact ⟨le_rfl, nofun⟩
  | case2 current factors r rest ih =>
    have hkeep : r.keep.length ≤ factors.length := (sweep_length current factors).1
    have hrest : rest.1.length ≤ r.keep.length := ih.1
    simp only [length_cons, Bool.or_eq_true]
    refine ⟨by omega, ?_⟩
    rintro (hmod | hmod)
    · have hlt : r.keep.length < factors.length := (sweep_length current factors).2 hmod
      omega
    · have hlt : rest.1.length < r.keep.length := ih.2 hmod
      omega

/-- The outer loop. -/
def mergeFactors (factors : List IndependentElementSet) : List IndependentElementSet :=
  let done := sweepAll factors
  if _h : done.2 = true then mergeFactors done.1 else done.1
termination_by factors.length
decreasing_by exact (sweepAll_length factors).2 _h

/-- The expressions that are split: the negated expression, unless it is constant, and the
constraints. -/
def splitExprs (o : Opts) (query : Query) : List Expr :=
  if query.expr.isConst then query.constraints
  else query.expr.createIsZero o :: query.constraints

/-- `getAllIndependentConstraintsSets`, past its assertion. -/
def factors (o : Opts) (query : Query) : List IndependentElementSet :=
  mergeFactors ((splitExprs o query).map .ofExpr)

/-- `getAllIndependentConstraintsSets`, which asserts that a constant expression is false. -/
def getAllIndependentConstraintsSets (o : Opts) (query : Query) :
    Option (List IndependentElementSet) :=
  if query.expr.constant?.any (fun c => !c.isFalse) then none else some (factors o query)

end IndependentSolver

/-! ### Well-formed sets -/

namespace IndependentElementSet

variable {s b : IndependentElementSet}

/-- The elements are inside the bounds of arrays of bytes, and no array is also a whole object. -/
structure Shape (s : IndependentElementSet) : Prop where
  elements : ∀ array dis, s.elements.lookup array = some dis →
    (dis.Nonempty ∧ ∀ i ∈ dis, i < array.size) ∧ array ∉ s.wholeObjects ∧ array.range = 8
  whole : ∀ array ∈ s.wholeObjects, array.range = 8

lemma Shape.insert (h : s.Shape) {dis : Finset ℕ}
    (hdis : dis.Nonempty ∧ ∀ i ∈ dis, i < array.size) (hwhole : array ∉ s.wholeObjects)
    (hrange : array.range = 8) :
    Shape { s with elements := s.elements.insert array dis } := by
  refine ⟨fun x dis' hlookup => ?_, h.whole⟩
  rcases eq_or_ne x array with rfl | hne
  · rw [AList.lookup_insert] at hlookup
    exact Option.some.inj hlookup ▸ ⟨hdis, hwhole, hrange⟩
  · rw [AList.lookup_insert_ne hne] at hlookup
    exact h.elements x dis' hlookup

lemma Shape.collapse (h : s.Shape) (hrange : array.range = 8)
    (elements : AList fun _ : KArray => Finset ℕ)
    (hother : ∀ x, x ≠ array → elements.lookup x = s.elements.lookup x)
    (hnone : elements.lookup array = none) :
    Shape { s with elements, wholeObjects := array :: s.wholeObjects } := by
  refine ⟨fun x dis hlookup => ?_, forall_mem_cons.2 ⟨hrange, h.whole⟩⟩
  have hne : x ≠ array := by
    rintro rfl
    rw [hnone] at hlookup
    exact nomatch hlookup
  rw [hother x hne] at hlookup
  obtain ⟨hdis, hwhole, hx⟩ := h.elements x dis hlookup
  exact ⟨hdis, by simp [hne, hwhole], hx⟩

/-- The array of a read has bytes, and a constant index is inside its bounds. -/
def InBounds (re : ReadNode) : Prop :=
  re.root.range = 8 ∧ ∀ c, re.index.constant? = some c → c.toNat < re.root.size

lemma track_shape (h : s.Shape) {re : ReadNode} (hre : InBounds re) : (s.track re).Shape := by
  rw [track]
  split
  · exact h
  · split
    · exact h
    · next hwhole =>
      split
      · next c hc =>
        refine h.insert ⟨⟨_, Finset.mem_insert_self _ _⟩, fun i hi => ?_⟩ hwhole hre.1
        rcases Finset.mem_insert.1 hi with rfl | hi
        · exact (Nat.mod_le _ _).trans_lt (hre.2 c hc)
        · cases hlookup : s.elements.lookup re.root with
          | none => simp [hlookup] at hi
          | some dis =>
            rw [hlookup, Option.getD_some] at hi
            exact (h.elements _ _ hlookup).1.2 i hi
      · exact h.collapse hre.1 _ (fun x hne => AList.lookup_erase_ne hne) (AList.lookup_erase _ _)

lemma ofExpr_shape (h : ∀ re ∈ findReads e, InBounds re) : (ofExpr e).Shape := by
  have hfold : ∀ (reads : List ReadNode) (s : IndependentElementSet), s.Shape →
      (∀ re ∈ reads, InBounds re) → (reads.foldl track s).Shape := by
    intro reads
    induction reads with
    | nil => exact fun s hs _ => hs
    | cons re reads ih =>
      intro s hs hreads
      obtain ⟨hre, hrest⟩ := forall_mem_cons.1 hreads
      exact ih _ (track_shape hs hre) hrest
  exact hfold _ _ ⟨nofun, nofun⟩ h

lemma addWhole_shape {s : IndependentElementSet × Bool} (h : s.1.Shape)
    (hrange : array.range = 8) : (addWhole s array).1.Shape := by
  rw [addWhole]
  split
  · exact h.collapse hrange _ (fun x hne => AList.lookup_erase_ne hne) (AList.lookup_erase _ _)
  · next hnone =>
    split
    · exact h
    · exact h.collapse hrange _ (fun _ _ => rfl) (by simpa using hnone)

lemma addElements_shape {s : IndependentElementSet × Bool} (h : s.1.Shape)
    {entry : Sigma fun _ : KArray => Finset ℕ}
    (hentry : (entry.2.Nonempty ∧ ∀ i ∈ entry.2, i < entry.1.size) ∧ entry.1.range = 8) :
    (addElements s entry).1.Shape := by
  rw [addElements]
  split
  · exact h
  · next hwhole =>
    split
    · exact h.insert hentry.1 hwhole hentry.2
    · next dis hdis =>
      refine h.insert ⟨hentry.1.1.mono Finset.subset_union_right, fun i hi => ?_⟩ hwhole hentry.2
      rcases Finset.mem_union.1 hi with hold | hnew
      · exact (h.elements _ _ hdis).1.2 i hold
      · exact hentry.1.2 i hnew

lemma foldl_shape {α : Type} {f : IndependentElementSet × Bool → α → IndependentElementSet × Bool}
    {P : α → Prop} (hf : ∀ s x, s.1.Shape → P x → (f s x).1.Shape) (xs : List α)
    (hxs : ∀ x ∈ xs, P x) (s : IndependentElementSet × Bool) (hs : s.1.Shape) :
    (xs.foldl f s).1.Shape := by
  induction xs generalizing s with
  | nil => exact hs
  | cons x xs ih =>
    obtain ⟨hx, hrest⟩ := forall_mem_cons.1 hxs
    exact ih hrest (f s x) (hf s x hs hx)

lemma add_shape (hs : s.Shape) (hb : b.Shape) : (s.add b).1.Shape := by
  have hstart : Shape { s with exprs := s.exprs ++ b.exprs } := ⟨hs.elements, hs.whole⟩
  have hwhole := foldl_shape (P := fun array : KArray => array.range = 8)
    (fun _ _ h hx => addWhole_shape h hx) _ hb.whole
    ({ s with exprs := s.exprs ++ b.exprs }, false) hstart
  refine foldl_shape (P := fun entry => (entry.2.Nonempty ∧ ∀ i ∈ entry.2, i < entry.1.size) ∧
    entry.1.range = 8) (fun _ _ h hx => addElements_shape h hx) _ (fun entry hentry => ?_) _ hwhole
  obtain ⟨hdis, -, hrange⟩ := hb.elements _ _ (lookup_of_mem_entries hentry)
  exact ⟨hdis, hrange⟩

/-- The set has some cell. -/
def Tracked (s : IndependentElementSet) : Prop := ∃ array i, s.Has array i

lemma Shape.has_of_lookup (h : s.Shape) {dis : Finset ℕ}
    (hdis : s.elements.lookup array = some dis) : ∃ i, s.Has array i := by
  obtain ⟨i, hi⟩ := (h.elements array dis hdis).1.1
  exact ⟨i, Or.inr ⟨dis, hdis, hi⟩⟩

/-- Sets that intersect have cells. -/
lemma tracked_of_intersects (hs : s.Shape) (hb : b.Shape) (h : s.intersects b = true) :
    s.Tracked ∧ b.Tracked := by
  have hwhole : ∀ {s : IndependentElementSet} {array}, array ∈ s.wholeObjects → s.Tracked :=
    fun hmem => ⟨_, 0, Or.inl hmem⟩
  have hlookup : ∀ {s : IndependentElementSet} {array dis}, s.Shape →
      s.elements.lookup array = some dis → s.Tracked :=
    fun hshape hdis => ⟨_, hshape.has_of_lookup hdis⟩
  simp only [intersects, Bool.or_eq_true, any_eq_true, contains_iff_mem,
    Option.isSome_iff_exists, Option.any_eq_true] at h
  rcases h with ⟨array, hmem, hb' | ⟨dis, hdis⟩⟩ | ⟨entry, hentry, hb' | ⟨dis, hdis, -⟩⟩
  · exact ⟨hwhole hmem, hwhole hb'⟩
  · exact ⟨hwhole hmem, hlookup hb hdis⟩
  · exact ⟨hlookup hs (lookup_of_mem_entries hentry), hwhole hb'⟩
  · exact ⟨hlookup hs (lookup_of_mem_entries hentry), hlookup hb hdis⟩

/-- A set that tracks the cells of its expressions. -/
structure IsFactor (s : IndependentElementSet) : Prop where
  shape : s.Shape
  covers : ∀ e ∈ s.exprs, (ofExpr e).Within s
  origin : ∀ array i, s.Has array i → ∃ e ∈ s.exprs, (ofExpr e).Has array i
  nonempty : s.exprs ≠ []
  /-- Expressions without a cell stay alone. -/
  tracked : s.Tracked → ∀ e ∈ s.exprs, (ofExpr e).Tracked

lemma ofExpr_exprs (e : Expr) : (ofExpr e).exprs = [e] := by
  have htrack : ∀ (s : IndependentElementSet) re, (s.track re).exprs = s.exprs := by
    intro s re
    rw [track]
    split_ifs
    · rfl
    · rfl
    · cases re.index.constant? <;> rfl
  have hfold : ∀ (reads : List ReadNode) s, (reads.foldl track s).exprs = s.exprs := by
    intro reads
    induction reads with
    | nil => exact fun s => rfl
    | cons re reads ih => exact fun s => (ih _).trans (htrack s re)
  exact hfold _ _

lemma ofExpr_isFactor (h : ∀ re ∈ findReads e, InBounds re) : (ofExpr e).IsFactor where
  shape := ofExpr_shape h
  covers := by simp [ofExpr_exprs, Within]
  origin := by simp [ofExpr_exprs]
  nonempty := by simp [ofExpr_exprs]
  tracked := by simp [ofExpr_exprs]

lemma add_exprs (s b : IndependentElementSet) : (s.add b).1.exprs = s.exprs ++ b.exprs :=
  (add_adds s b).exprs

lemma add_isFactor (hs : s.IsFactor) (hb : b.IsFactor) (h : s.intersects b = true) :
    (s.add b).1.IsFactor := by
  obtain ⟨htrack, htrack'⟩ := tracked_of_intersects hs.shape hb.shape h
  refine ⟨add_shape hs.shape hb.shape, fun e he x i hi => ?_, fun x i hi => ?_, ?_,
    fun _ e he => ?_⟩
  · rw [add_exprs, mem_append] at he
    exact (add_has_iff s b x i).2 (he.imp (hs.covers e · x i hi) (hb.covers e · x i hi))
  · rw [add_exprs]
    rcases (add_has_iff s b x i).1 hi with hold | hnew
    · obtain ⟨e, he, hhas⟩ := hs.origin x i hold
      exact ⟨e, mem_append_left _ he, hhas⟩
    · obtain ⟨e, he, hhas⟩ := hb.origin x i hnew
      exact ⟨e, mem_append_right _ he, hhas⟩
  · rw [add_exprs]
    exact append_ne_nil_of_left_ne_nil hs.nonempty _
  · rw [add_exprs, mem_append] at he
    exact he.elim (hs.tracked htrack e) (hb.tracked htrack' e)

end IndependentElementSet

/-! ### The partition -/

namespace IndependentSolver

open IndependentElementSet

/-- The expression is in one of the sets. -/
def Occurs (e : Expr) (factors : List IndependentElementSet) : Prop := ∃ f ∈ factors, e ∈ f.exprs

lemma occurs_cons {f : IndependentElementSet} {fs : List IndependentElementSet} :
    Occurs e (f :: fs) ↔ e ∈ f.exprs ∨ Occurs e fs := exists_mem_cons_iff ..

/-- What the inner loop does. -/
structure SweepSpec (current : IndependentElementSet) (factors : List IndependentElementSet)
    (r : Sweep) : Prop where
  isFactor : r.current.IsFactor
  keep : ∀ f ∈ r.keep, f ∈ factors
  occurs : ∀ e, Occurs e (r.current :: r.keep) ↔ Occurs e (current :: factors)
  same : r.modified = false → r.current.Within current ∧ ∀ f ∈ r.keep, r.current.Separate f

lemma sweep_spec {current : IndependentElementSet} (factors : List IndependentElementSet)
    (hcur : current.IsFactor) (hfs : ∀ f ∈ factors, f.IsFactor) :
    SweepSpec current factors (sweep current factors) := by
  induction factors generalizing current with
  | nil => exact ⟨hcur, nofun, fun _ => Iff.rfl, fun _ => ⟨fun _ _ h => h, nofun⟩⟩
  | cons compare factors ih =>
    obtain ⟨hcmp, hrest⟩ := forall_mem_cons.1 hfs
    rw [sweep]
    split
    · next hint =>
      obtain ⟨hfactor, hkeep, hocc, hsame⟩ := ih (add_isFactor hcur hcmp hint) hrest
      refine ⟨hfactor, fun f hf => mem_cons_of_mem _ (hkeep f hf), fun e => ?_, fun hmod => ?_⟩
      · rw [hocc e, occurs_cons, occurs_cons, occurs_cons, add_exprs, mem_append, or_assoc]
      · obtain ⟨hadd, hmod'⟩ := Bool.or_eq_false_iff.1 hmod
        obtain ⟨hwithin, hsep⟩ := hsame hmod'
        refine ⟨fun x i h => ?_, hsep⟩
        rcases (add_has_iff _ _ x i).1 (hwithin x i h) with hold | hnew
        · exact hold
        · exact add_within_of_same hadd x i hnew
    · next hnot =>
      obtain ⟨hfactor, hkeep, hocc, hsame⟩ := ih hcur hrest
      refine ⟨hfactor, forall_mem_cons.2 ⟨mem_cons_self ..,
        fun f hf => mem_cons_of_mem _ (hkeep f hf)⟩, fun e => ?_, fun hmod => ?_⟩
      · have hocc' := hocc e
        simp only [occurs_cons] at hocc' ⊢
        tauto
      · obtain ⟨hwithin, hsep⟩ := hsame hmod
        refine ⟨hwithin, forall_mem_cons.2 ⟨fun x i h => ?_, hsep⟩⟩
        exact separate_of_intersects (by simpa using hnot) x i (hwithin x i h)

/-- What a pass of the outer loop does. -/
structure SweepAllSpec (factors : List IndependentElementSet)
    (p : List IndependentElementSet × Bool) : Prop where
  isFactor : ∀ f ∈ p.1, f.IsFactor
  occurs : ∀ e, Occurs e p.1 ↔ Occurs e factors
  within : p.2 = false → ∀ g ∈ p.1, ∃ f ∈ factors, g.Within f
  separate : p.2 = false → p.1.Pairwise Separate

lemma sweepAll_spec (factors : List IndependentElementSet) (hfs : ∀ f ∈ factors, f.IsFactor) :
    SweepAllSpec factors (sweepAll factors) := by
  fun_induction sweepAll factors with
  | case1 => exact ⟨nofun, fun _ => Iff.rfl, fun _ => nofun, fun _ => List.Pairwise.nil⟩
  | case2 current factors r rest ih =>
    obtain ⟨hcur, hrest⟩ := forall_mem_cons.1 hfs
    have hsweep : SweepSpec current factors r := sweep_spec factors hcur hrest
    obtain ⟨hfactor, hocc, hwithin, hsep⟩ := ih fun f hf => hrest f (hsweep.keep f hf)
    refine ⟨forall_mem_cons.2 ⟨hsweep.isFactor, hfactor⟩, fun e => ?_, fun hmod => ?_,
      fun hmod => ?_⟩
    · rw [← hsweep.occurs e, occurs_cons, occurs_cons, hocc e]
    · obtain ⟨hmod₁, hmod₂⟩ := Bool.or_eq_false_iff.1 hmod
      refine forall_mem_cons.2 ⟨⟨current, mem_cons_self .., (hsweep.same hmod₁).1⟩, ?_⟩
      intro g hg
      obtain ⟨f, hf, hgf⟩ := hwithin hmod₂ g hg
      exact ⟨f, mem_cons_of_mem _ (hsweep.keep f hf), hgf⟩
    · obtain ⟨hmod₁, hmod₂⟩ := Bool.or_eq_false_iff.1 hmod
      refine pairwise_cons.2 ⟨fun g hg x i h h' => ?_, hsep hmod₂⟩
      obtain ⟨f, hf, hgf⟩ := hwithin hmod₂ g hg
      exact (hsweep.same hmod₁).2 f hf x i h (hgf x i h')

/-- The sweeps end in factors that share no cell. -/
theorem mergeFactors_spec (factors : List IndependentElementSet)
    (hfs : ∀ f ∈ factors, f.IsFactor) :
    (∀ f ∈ mergeFactors factors, f.IsFactor) ∧
      (∀ e, Occurs e (mergeFactors factors) ↔ Occurs e factors) ∧
      (mergeFactors factors).Pairwise Separate := by
  fun_induction mergeFactors factors with
  | case1 factors done hmod ih =>
    have hall : SweepAllSpec factors done := sweepAll_spec factors hfs
    obtain ⟨hfactor, hocc, hsep⟩ := ih hall.isFactor
    exact ⟨hfactor, fun e => (hocc e).trans (hall.occurs e), hsep⟩
  | case2 factors done hmod =>
    have hall : SweepAllSpec factors done := sweepAll_spec factors hfs
    exact ⟨hall.isFactor, hall.occurs, hall.separate (by simpa using hmod)⟩

end IndependentSolver

end Castan
