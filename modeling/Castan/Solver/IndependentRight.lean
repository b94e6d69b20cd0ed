/-
# The factored answer

When `IndependentSolver::computeInitialValues` is right.  A factor without arrays is skipped, so
that an expression over constant arrays alone is not decided, and the assertion at the end also
fails where a satisfying assignment does not evaluate to a constant.  Apart from these two cases
the overlaid answers of the factors are an answer to the query
(`computeInitialValues_right_iff`).
-/
import Castan.Solver.IndependentValues

namespace Castan

open Assignment List

variable {a : Assignment} {x : KArray} {f : IndependentElementSet} {i : ℕ} {objects : List KArray}
  {τ : Valuation} {e : Expr}

/-! ### The bindings of the created point -/

namespace Assignment

/-- The bindings are in the order of the addresses. -/
def Ordered (bs : List (KArray × List (BitVec 8))) : Prop :=
  bs.Pairwise fun b b' => b.1.addr ≤ b'.1.addr

variable {bs : List (KArray × List (BitVec 8))} {array x : KArray} {bytes : List (BitVec 8)}

lemma mem_insertBinding {b : KArray × List (BitVec 8)}
    (h : b ∈ insertBinding array bytes bs) : b = (array, bytes) ∨ b ∈ bs := by
  induction bs with
  | nil => exact Or.inl (mem_singleton.1 h)
  | cons b' bs ih =>
    rw [insertBinding] at h
    split_ifs at h
    · exact Or.inr h
    · exact mem_cons.1 h
    · rcases mem_cons.1 h with rfl | h
      · exact Or.inr (mem_cons_self ..)
      · exact (ih h).imp_right (mem_cons_of_mem _)

lemma insertBinding_ordered (h : Ordered bs) : Ordered (insertBinding array bytes bs) := by
  induction bs with
  | nil => exact pairwise_singleton ..
  | cons b bs ih =>
    obtain ⟨hb, hbs⟩ := pairwise_cons.1 h
    rw [insertBinding]
    split_ifs with heq hlt
    · exact h
    · refine pairwise_cons.2 ⟨forall_mem_cons.2 ⟨hlt.le, fun b' hb' => ?_⟩, h⟩
      exact hlt.le.trans (hb b' hb')
    · refine pairwise_cons.2 ⟨fun b' hb' => ?_, ih hbs⟩
      rcases mem_insertBinding hb' with rfl | hold
      · exact not_lt.1 hlt
      · exact hb b' hold

lemma lookup_cons_eq (b : KArray × List (BitVec 8)) (bs : List (KArray × List (BitVec 8)))
    (x : KArray) : (b :: bs).lookup x = if x = b.1 then some b.2 else bs.lookup x := by
  rw [lookup_cons]
  by_cases h : x = b.1
  · rw [if_pos h, beq_iff_eq.2 h]
  · rw [if_neg h, beq_eq_false_iff_ne.2 h]

/-- A new binding does not replace an older one. -/
lemma lookup_insertBinding (h : Ordered bs) : (insertBinding array bytes bs).lookup x =
      (bs.lookup x).or ([(array, bytes)].lookup x) := by
  induction bs with
  | nil => rfl
  | cons b bs ih =>
    obtain ⟨hb, hbs⟩ := pairwise_cons.1 h
    rw [insertBinding]
    by_cases heq : b.1 = array
    · rw [if_pos heq, lookup_cons_eq b, lookup_cons_eq (array, bytes), heq]
      by_cases hx : x = array <;> simp [hx]
    · rw [if_neg heq]
      by_cases hlt : array.addr < b.1.addr
      · rw [if_pos hlt, lookup_cons_eq (array, bytes), lookup_cons_eq (array, bytes)]
        by_cases hx : x = array
        · -- the bindings behind have larger addresses
          have hnone : (b :: bs).lookup x = none := by
            refine lookup_eq_none_iff.2 fun b' hb' => ?_
            have haddr : b.1.addr ≤ b'.1.addr := by
              rcases mem_cons.1 hb' with rfl | hb'
              · exact le_rfl
              · exact hb b' hb'
            rw [bne_iff_ne, hx]
            rintro rfl
            omega
          rw [hnone, if_pos hx, Option.none_or, if_pos hx]
        · rw [if_neg hx, if_neg hx, lookup_nil, Option.or_none]
      · rw [if_neg hlt, lookup_cons_eq b, lookup_cons_eq b, ih hbs]
        by_cases hx : x = b.1 <;> simp [hx]

lemma lookup_foldl_insertBinding {α : Type} (f : α → KArray × List (BitVec 8)) (l : List α)
    (h : Ordered bs) :
    (l.foldl (fun bs a => insertBinding (f a).1 (f a).2 bs) bs).lookup x =
        (bs.lookup x).or ((l.map f).lookup x) ∧
      Ordered (l.foldl (fun bs a => insertBinding (f a).1 (f a).2 bs) bs) := by
  induction l generalizing bs with
  | nil => simpa using h
  | cons a l ih =>
    have hinsert : Ordered (insertBinding (f a).1 (f a).2 bs) := insertBinding_ordered h
    obtain ⟨hlookup, hord⟩ := ih hinsert
    refine ⟨?_, hord⟩
    rw [foldl_cons, hlookup, lookup_insertBinding h, map_cons, Option.or_assoc,
      lookup_cons_eq (f a) [], lookup_cons_eq (f a) (l.map f)]
    by_cases hx : x = (f a).1 <;> simp [hx]

/-- The binding of an array that stands in several places is the first. -/
lemma ofObjects_lookup (objects : List KArray) (values : List (List (BitVec 8))) (x : KArray) :
    (ofObjects objects values).bindings.lookup x = (objects.zip values).lookup x ∧
      Ordered (ofObjects objects values).bindings := by
  obtain ⟨hlookup, hord⟩ := lookup_foldl_insertBinding (x := x) id (objects.zip values)
    (List.Pairwise.nil : Ordered [])
  rw [lookup_nil, Option.none_or, map_id] at hlookup
  exact ⟨hlookup, hord⟩

end Assignment

namespace IndependentSolver

open IndependentElementSet

lemma zip_map_lookup (g : KArray → List (BitVec 8)) (objects : List KArray) (x : KArray) :
    (objects.zip (objects.map g)).lookup x = if x ∈ objects then some (g x) else none := by
  induction objects with
  | nil => rfl
  | cons array objects ih =>
    rw [map_cons, zip_cons_cons, lookup_cons_eq, ih]
    by_cases hx : x = array <;> simp [hx]

lemma map_entries_lookup (entries : List (Sigma fun _ : KArray => List (BitVec 8))) (x : KArray) :
    (entries.map fun entry => (entry.1, entry.2)).lookup x = entries.dlookup x := by
  induction entries with
  | nil => rfl
  | cons entry entries ih =>
    rw [map_cons, lookup_cons_eq, ih]
    by_cases hx : x = entry.1
    · subst hx
      rw [if_pos rfl]
      exact (dlookup_cons_eq entries entry.1 entry.2).symm
    · rw [if_neg hx, dlookup_cons_ne _ entry hx]

/-- The created point has the bytes of the factors, and zeros in the other requested arrays. -/
lemma createdPoint_byte? (objects : List KArray) (retMap : RetMap) (x : KArray) (i : ℕ) :
    (createdPoint objects retMap).byte? x i =
      if x ∈ retMap then retMap.byte? x i
      else if x ∈ objects then (List.replicate x.size 0)[i]? else none := by
  obtain ⟨hlookup, hord⟩ := ofObjects_lookup objects (requested objects retMap) x
  have hpoint := (lookup_foldl_insertBinding (x := x)
    (fun entry : Sigma fun _ : KArray => List (BitVec 8) => (entry.1, entry.2)) retMap.entries
    hord).1
  rw [map_entries_lookup, hlookup] at hpoint
  have hbind : (createdPoint objects retMap).byte? x i =
      (((objects.zip (requested objects retMap)).lookup x).or (retMap.lookup x)).bind (·[i]?) :=
    congrArg (Option.bind · (·[i]?)) hpoint
  rw [hbind, requested, zip_map_lookup]
  by_cases hmem : x ∈ retMap
  · obtain ⟨bytes, hbytes⟩ := Option.isSome_iff_exists.1 (AList.lookup_isSome.2 hmem)
    rw [if_pos hmem, RetMap.byte?, hbytes]
    by_cases hobj : x ∈ objects <;> simp [hobj]
  · rw [if_neg hmem, AList.lookup_eq_none.2 hmem]
    by_cases hobj : x ∈ objects <;> simp [hobj]

/-! ### One valuation from the factors -/

section Merge

variable {retMap : RetMap} {done : List (IndependentElementSet × Valuation)}

/-- The solutions of the factors and the bytes of the assignment are parts of one valuation. -/
lemma Solved.exists_valuation (h : Solved done retMap)
    (ha : ∀ x ∈ retMap, ∀ i, a.byte? x i = retMap.byte? x i) :
    ∃ τ, a.Agrees τ ∧ ∀ d ∈ done, ∀ x i, d.1.Has x i → τ x i = d.2 x i := by
  classical
  refine ⟨fun x i => ((a.byte? x i).map BitVec.toNat).getD
    (if hd : ∃ d ∈ done, d.1.Has x i then hd.choose.2 x i else 0), ?_, ?_⟩
  · intro x i b hb
    simp only [hb, Option.map_some, Option.getD_some]
  · intro d hd x i hhas
    have hmem : x ∈ retMap := (h.mem_iff x).2 ⟨d, hd, i, hhas⟩
    cases hb : a.byte? x i with
    | some b =>
      simp only [hb, Option.map_some, Option.getD_some]
      exact (h.cells d hd x i b hhas (ha x hmem i ▸ hb)).symm
    | none =>
      have hex : ∃ d ∈ done, d.1.Has x i := ⟨d, hd, hhas⟩
      -- only one factor has the cell
      have hsame : hex.choose = d := by
        by_contra hne
        have hsymm : Std.Symm fun d d' : IndependentElementSet × Valuation => d.1.Separate d'.1 :=
          ⟨fun _ _ hs x i hi hi' => hs x i hi' hi⟩
        exact h.separate.forall hex.choose_spec.1 hd hne x i hex.choose_spec.2 hhas
      simp only [hb, Option.map_none, Option.getD_none, dif_pos hex, hsame]

end Merge

/-! ### Queries that can be split -/

/-- A query of Boolean expressions over arrays of bytes, with a non-constant or false expression,
whose constant indices and whose indices into constant arrays are in range. -/
structure Splittable (o : Opts) (q : Query) : Prop where
  constraints : ∀ c ∈ q.constraints, c.IsConstraint ∧ c.Indexable
  expr : q.expr.IsConstraint
  indexable : q.expr.Indexable
  isFalse : ∀ c, q.expr.constant? = some c → c = .bool false
  inBounds : ∀ e ∈ splitExprs o q, ∀ re ∈ findReads e, InBounds re
  defined : ∀ ρ, q.expr.Defined o ρ
  inRange : ∀ f ∈ factors o q, ∀ ρ, SolvedBy f ρ → ∀ e ∈ f.exprs, e.InRange ρ

section Query

variable {o : Opts} {q : Query} {ρ : Valuation}

lemma Splittable.isConstraint (h : Splittable o q) :
    ∀ e ∈ splitExprs o q, e.IsConstraint ∧ e.Indexable := by
  rw [splitExprs]
  split
  · exact h.constraints
  · have href := Expr.createIsZero_refines (o := o) h.expr.typed
    exact forall_mem_cons.2 ⟨⟨⟨href.typed, Expr.createIsZero_canon h.expr.canon,
      href.width_eq⟩, Expr.createIsZero_indexable h.expr.canon h.indexable⟩, h.constraints⟩

lemma Splittable.holds_iff (h : Splittable o q) :
    (q.expr.createIsZero o).Holds ρ ↔ ¬ q.expr.Holds ρ :=
  Expr.createIsZero_holds h.expr.typed h.expr.width_eq (h.defined ρ)

lemma Splittable.falsifiedBy_iff (h : Splittable o q) :
    q.FalsifiedBy ρ ↔ ∀ e ∈ splitExprs o q, e.Holds ρ := by
  rw [Query.FalsifiedBy, Query.MetBy, splitExprs]
  split
  · next hconst =>
    obtain ⟨c, hc⟩ := Expr.isConst_iff.1 hconst
    have hnot : ¬ q.expr.Holds ρ := by
      rw [hc, h.isFalse c (by rw [hc]; rfl), Expr.Holds, Expr.eval]
      decide
    exact and_iff_left hnot
  · rw [forall_mem_cons, h.holds_iff, and_comm]

/-- The expressions of the query are split into factors that share no cell. -/
lemma factors_spec (h : ∀ e ∈ splitExprs o q, ∀ re ∈ findReads e, InBounds re) :
    (∀ f ∈ factors o q, f.IsFactor) ∧ (∀ e, Occurs e (factors o q) ↔ e ∈ splitExprs o q) ∧
      (factors o q).Pairwise Separate := by
  obtain ⟨hfactor, hocc, hsep⟩ := mergeFactors_spec ((splitExprs o q).map ofExpr) fun f hf => by
      obtain ⟨e, he, rfl⟩ := mem_map.1 hf
      exact ofExpr_isFactor (h e he)
  refine ⟨hfactor, fun e => (hocc e).trans ?_, hsep⟩
  simp [Occurs, ofExpr_exprs]

lemma Splittable.getAll (h : Splittable o q) :
    getAllIndependentConstraintsSets o q = some (factors o q) := by
  rw [getAllIndependentConstraintsSets, if_neg]
  cases hc : q.expr.constant? with
  | none => simp
  | some c => simp [h.isFalse c hc]

/-! ### The condition -/

/-- The contents of an array of bytes. -/
def bytesOf (ρ : Valuation) (array : KArray) : List (BitVec 8) :=
  (List.range array.size).map fun i => BitVec.ofNat 8 (ρ array i)

/-- The assignment of the contents of some arrays. -/
def pointOf (arrays : List KArray) (ρ : Valuation) : Assignment :=
  ⟨arrays.zip (arrays.map (bytesOf ρ))⟩

lemma bytesOf_getElem? (ρ : Valuation) (array : KArray) (i : ℕ) :
    (bytesOf ρ array)[i]? = if i < array.size then some (BitVec.ofNat 8 (ρ array i)) else none := by
  by_cases h : i < array.size <;> simp [bytesOf, h]

lemma pointOf_byte? (arrays : List KArray) (ρ : Valuation) (x : KArray) (i : ℕ) :
    (pointOf arrays ρ).byte? x i =
      if x ∈ arrays ∧ i < x.size then some (BitVec.ofNat 8 (ρ x i)) else none := by
  rw [byte?, pointOf, zip_map_lookup]
  by_cases h : x ∈ arrays <;> simp [h, bytesOf_getElem?]

/-- The arrays whose cells are tracked. -/
def arraysRead (o : Opts) (q : Query) : List KArray :=
  (splitExprs o q).flatMap fun e => calculateArrayReferences (.ofExpr e)

/-- The expressions that track no cell do not decide whether there is a solution, and every
solution evaluates the expressions to constants. -/
structure Decided (o : Opts) (q : Query) : Prop where
  untracked : (∃ ρ, ∀ e ∈ splitExprs o q, (ofExpr e).Tracked → e.Holds ρ) → ∃ ρ, q.FalsifiedBy ρ
  constant : ∀ ρ, q.FalsifiedBy ρ → ∀ e ∈ splitExprs o q,
    ((pointOf (arraysRead o q) ρ).evaluateFree o e).isConst = true

lemma Splittable.mem_arraysRead (h : Splittable o q) :
    x ∈ arraysRead o q ↔ ∃ e ∈ splitExprs o q, ∃ i, (ofExpr e).Has x i := by
  rw [arraysRead, mem_flatMap]
  refine exists_congr fun e => and_congr_right fun he => ?_
  exact mem_calculateArrayReferences (ofExpr_shape (h.inBounds e he))

/-- The assignment satisfies the constraints and falsifies the expression, whatever the cells are
that it leaves open. -/
def Satisfies (o : Opts) (q : Query) (a : Assignment) : Prop :=
  (∃ ρ, a.Agrees ρ ∧ q.FalsifiedBy ρ) ∧
    ∀ ρ, a.Agrees ρ → (∀ c ∈ q.constraints, c.Defined o ρ) → q.FalsifiedBy ρ

/-- The call is right: it finds out whether there is a solution, and then the values it returns,
with the answers of the factors for the other arrays, are one. -/
def Right (o : Opts) (solver : SolverImpl) (q : Query) (objects : List KArray) : Prop :=
  ((¬ ∃ ρ, q.FalsifiedBy ρ) → computeInitialValues o solver q objects = .success none) ∧
    ((∃ ρ, q.FalsifiedBy ρ) → ∃ retMap,
      solveFactors solver (factors o q) ∅ = .success (some retMap) ∧
      computeInitialValues o solver q objects = .success (some (requested objects retMap)) ∧
      Satisfies o q (createdPoint objects retMap))

/-! ### The run -/

variable {solver : SolverImpl} {G : Valuation → Prop} {retMap : RetMap}
  {done : List (IndependentElementSet × Valuation)}

lemma range_of_has (hf : f.Shape) (h : f.Has x i) : x.range = 8 := by
  rcases h with hwhole | ⟨dis, hdis, -⟩
  · exact hf.whole x hwhole
  · exact (hf.elements x dis hdis).2.2

lemma arrays_range (hf : f.Shape) : ∀ array ∈ calculateArrayReferences f, array.range = 8 := by
  intro array harray
  obtain ⟨i, hi⟩ := (mem_calculateArrayReferences hf).1 harray
  exact range_of_has hf hi

lemma Splittable.answered (h : Splittable o q) (hsolver : solver.SolvesInitialValues) :
    ∀ f ∈ factors o q, f.Tracked → Answered solver (fun _ => True) f := by
  obtain ⟨hfactor, hocc, -⟩ := factors_spec h.inBounds
  intro f hf _
  have hquery : ∀ ρ, Query.FalsifiedBy ⟨f.exprs, .const (.bool false)⟩ ρ ↔ SolvedBy f ρ :=
    fun ρ => and_iff_left (by rw [Expr.Holds, Expr.eval]; decide)
  rcases hsolver ⟨f.exprs, .const (.bool false)⟩ (calculateArrayReferences f)
    (fun e he => h.isConstraint e ((hocc e).1 ⟨f, hf, he⟩)) ⟨Nat.one_pos, trivial, rfl⟩ trivial
    (arrays_range (hfactor f hf).shape) with ⟨hnone, hcall⟩ | ⟨values, ρ, hcall, hρ, hvalues⟩
  · exact Or.inl ⟨fun hsat => hnone (hsat.imp fun ρ => (hquery ρ).2), hcall⟩
  · exact Or.inr ⟨values, ρ, hcall, trivial, (hquery ρ).1 hρ, hvalues⟩

lemma Splittable.run (h : Splittable o q)
    (hanswer : ∀ f ∈ factors o q, f.Tracked → Answered solver G f) :
    (solveFactors solver (factors o q) ∅ = .success none ∧
      ∃ f ∈ factors o q, f.Tracked ∧ ¬ ∃ ρ, SolvedBy f ρ) ∨
    ∃ retMap done, solveFactors solver (factors o q) ∅ = .success (some retMap) ∧
      Collected G (factors o q) [] done retMap := by
  obtain ⟨hfactor, -, hsep⟩ := factors_spec h.inBounds
  exact solveFactors_spec _ hfactor hsep hanswer
    ⟨nofun, List.Pairwise.nil, nofun, fun x => by simp, nofun, nofun⟩ nofun nofun

lemma Splittable.computeInitialValues_of_none (h : Splittable o q) (objects : List KArray)
    (hrun : solveFactors solver (factors o q) ∅ = .success none) :
    computeInitialValues o solver q objects = .success none := by
  simp only [computeInitialValues, h.getAll, hrun, Outcome.bind]

lemma Splittable.computeInitialValues_of_some (h : Splittable o q) (objects : List KArray)
    (hrun : solveFactors solver (factors o q) ∅ = .success (some retMap)) :
    computeInitialValues o solver q objects =
      if assertCreatedPointEvaluatesToTrue o q (createdPoint objects retMap) then
        .success (some (requested objects retMap))
      else .assertion := by
  simp only [computeInitialValues, h.getAll, hrun, Outcome.bind]

/-- The arrays of the answers are those that are read. -/
lemma Splittable.mem_retMap (h : Splittable o q) (hcol : Collected G (factors o q) [] done retMap)
    (x : KArray) : x ∈ retMap ↔ x ∈ arraysRead o q := by
  obtain ⟨hfactor, hocc, -⟩ := factors_spec h.inBounds
  rw [h.mem_arraysRead, hcol.solved.mem_iff]
  constructor
  · rintro ⟨d, hd, i, hi⟩
    have hmem : d.1 ∈ factors o q := (hcol.origin d hd).resolve_left nofun
    obtain ⟨e, he, hhas⟩ := (hfactor d.1 hmem).origin x i hi
    exact ⟨e, (hocc e).1 ⟨d.1, hmem, he⟩, i, hhas⟩
  · rintro ⟨e, he, i, hi⟩
    obtain ⟨f, hf, hef⟩ := (hocc e).2 he
    have hhas := (hfactor f hf).covers e hef x i hi
    obtain ⟨ρ, hd⟩ := hcol.covers f hf ⟨x, i, hhas⟩
    exact ⟨(f, ρ), hd, i, hhas⟩

/-! ### Evaluation at the created point -/

/-- On the arrays that are read, the created point has the bytes of a valuation that agrees with
it. -/
lemma createdPoint_byte?_eq {arrays : List KArray}
    (hsized : retMap.Sized) (hmem : ∀ x, x ∈ retMap ↔ x ∈ arrays)
    (hτ : (createdPoint objects retMap).Agrees τ)
    (h : x ∈ arrays ∨ x.size ≤ i) :
    (createdPoint objects retMap).byte? x i = (pointOf arrays τ).byte? x i := by
  have hbyte := createdPoint_byte? objects retMap x i
  have hlen : x ∈ retMap → ∃ bytes, retMap.lookup x = some bytes ∧ bytes.length = x.size := by
    intro hx
    obtain ⟨bytes, hbytes⟩ := Option.isSome_iff_exists.1 (AList.lookup_isSome.2 hx)
    exact ⟨bytes, hbytes, hsized x bytes hbytes⟩
  rw [pointOf_byte?]
  by_cases hlt : i < x.size
  · have hx : x ∈ arrays := h.resolve_right (not_le.2 hlt)
    obtain ⟨bytes, hbytes, hsize⟩ := hlen ((hmem x).2 hx)
    rw [if_pos ((hmem x).2 hx), RetMap.byte?, hbytes, Option.bind_some,
      List.getElem?_eq_getElem (hsize ▸ hlt)] at hbyte
    rw [if_pos ⟨hx, hlt⟩, hbyte, hτ x i _ hbyte]
    simp
  · rw [if_neg fun h => hlt h.2, hbyte]
    split
    · next hx =>
      obtain ⟨bytes, hbytes, hsize⟩ := hlen hx
      rw [RetMap.byte?, hbytes, Option.bind_some, List.getElem?_eq_none (by omega)]
    · split
      · exact List.getElem?_eq_none (by simpa using hlt)
      · rfl

lemma evaluateFree_congr {a' : Assignment}
    (h : ∀ r ∈ e.reads, ∀ i, r.1.constantValues[i]? = none → a.byte? r.1 i = a'.byte? r.1 i) :
    a.evaluateFree o e = a'.evaluateFree o e := by
  refine ExprEvaluator.visit_congr e fun r hr i hnone => ?_
  rw [evaluateFreeCell, evaluateFreeCell, h r hr i hnone]

/-- A read is of an array that is read, or outside the bounds of a constant array. -/
lemma Splittable.read_cases (h : Splittable o q) (he : e ∈ splitExprs o q)
    {r : KArray × Expr} (hr : r ∈ e.reads) (hnone : r.1.constantValues[i]? = none) :
    r.1 ∈ arraysRead o q ∨ r.1.size ≤ i := by
  obtain ⟨re, hre, rfl⟩ := exists_findReads_of_mem_reads r hr
  by_cases hconst : re.root.isSymbolicArray = false ∧ re.head = .null
  · right
    have htyped : re.toExpr.Typed :=
      findReads_forall (fun _ h => h.inner) (h.isConstraint e he).1.typed re hre
    have hsize := htyped.1.size_eq hconst.1
    have hle := List.getElem?_eq_none_iff.1 hnone
    exact hsize ▸ hle
  · left
    refine h.mem_arraysRead.2 ⟨e, he, ?_⟩
    cases hc : re.index.constant? with
    | none =>
      exact ⟨0, (ofExpr_has_iff e).2 ⟨re, hre, hconst, rfl, fun c hc' => by simp [hc] at hc'⟩⟩
    | some c =>
      refine ⟨c.toNat % 2 ^ 32, (ofExpr_has_iff e).2 ⟨re, hre, hconst, rfl, fun c' hc' => ?_⟩⟩
      rw [hc] at hc'
      rw [Option.some.inj hc']

/-- What the expressions of the query evaluate to at the created point. -/
lemma Splittable.evaluateFree_createdPoint (h : Splittable o q)
    (hcol : Collected G (factors o q) [] done retMap)
    (hτ : (createdPoint objects retMap).Agrees τ) (he : e ∈ splitExprs o q) :
    (createdPoint objects retMap).evaluateFree o e =
      (pointOf (arraysRead o q) τ).evaluateFree o e :=
  evaluateFree_congr fun _ hr _ hnone =>
    createdPoint_byte?_eq hcol.solved.sized (h.mem_retMap hcol) hτ (h.read_cases he hr hnone)

/-- A solution is in range. -/
lemma Splittable.defined_of_falsifiedBy (h : Splittable o q) (hρ : q.FalsifiedBy ρ)
    (he : e ∈ splitExprs o q) : e.InRange ρ := by
  obtain ⟨-, hocc, -⟩ := factors_spec h.inBounds
  obtain ⟨f, hf, hef⟩ := (hocc e).2 he
  exact h.inRange f hf ρ (fun e' he' => h.falsifiedBy_iff.1 hρ e' ((hocc e').1 ⟨f, hf, he'⟩)) e hef

/-! ### From the factors to the query -/

lemma mem_splitExprs_of_constraint {c : Expr} (hc : c ∈ q.constraints) : c ∈ splitExprs o q := by
  rw [splitExprs]
  split
  · exact hc
  · exact mem_cons_of_mem _ hc

/-- The expressions with tracked cells hold under the valuation of all factors. -/
lemma Splittable.tracked_holds (h : Splittable o q)
    (hcol : Collected G (factors o q) [] done retMap)
    (hτ : ∀ d ∈ done, ∀ x i, d.1.Has x i → τ x i = d.2 x i) :
    ∀ e ∈ splitExprs o q, (ofExpr e).Tracked → e.Holds τ := by
  obtain ⟨hfactor, hocc, -⟩ := factors_spec h.inBounds
  rintro e he ⟨x, i, hhas⟩
  obtain ⟨f, hf, hef⟩ := (hocc e).2 he
  have hwithin := (hfactor f hf).covers e hef
  obtain ⟨ρ, hd⟩ := hcol.covers f hf ⟨x, i, hwithin x i hhas⟩
  have hsolved : SolvedBy f ρ := hcol.solved.solvedBy (f, ρ) hd
  have heval : e.eval ρ = e.eval τ :=
    eval_eq_of_agree (h.isConstraint e he).1.typed (h.isConstraint e he).2
      (fun y j _ hj => (hτ (f, ρ) hd y j (hwithin y j hj)).symm)
      (Or.inl (h.inRange f hf ρ hsolved e hef))
  rw [Expr.Holds, ← heval]
  exact hsolved e hef

/-- Expressions without tracked cells hold everywhere if they hold in a solution. -/
lemma Splittable.falsifiedBy_of_tracked (h : Splittable o q) (hρ : q.FalsifiedBy ρ)
    (hτ : ∀ e ∈ splitExprs o q, (ofExpr e).Tracked → e.Holds τ) :
    q.FalsifiedBy τ := by
  refine h.falsifiedBy_iff.2 fun e he => ?_
  by_cases htracked : (ofExpr e).Tracked
  · exact hτ e he htracked
  · have heval : e.eval ρ = e.eval τ :=
      eval_eq_of_agree (h.isConstraint e he).1.typed (h.isConstraint e he).2
        (fun x i _ hhas => absurd ⟨x, i, hhas⟩ htracked)
        (Or.inl (h.defined_of_falsifiedBy hρ he))
    rw [Expr.Holds, ← heval]
    exact h.falsifiedBy_iff.1 hρ e he

/-- The assertion at the end holds if the expressions evaluate to true. -/
lemma Splittable.check (h : Splittable o q)
    (ha : ∀ e ∈ splitExprs o q, a.evaluateFree o e = .const (.bool true)) :
    assertCreatedPointEvaluatesToTrue o q a = true := by
  rw [assertCreatedPointEvaluatesToTrue, Bool.and_eq_true, all_eq_true]
  constructor
  · intro c hc
    rw [ha c (mem_splitExprs_of_constraint hc)]
    rfl
  · cases hconst : q.expr.constant? with
    | none =>
      have hmem : q.expr.createIsZero o ∈ splitExprs o q := by
        rw [splitExprs, Expr.isConst, hconst]
        exact mem_cons_self ..
      rw [ha _ hmem]
      rfl
    | some c =>
      rw [Expr.constant?_eq_some.1 hconst, h.isFalse c hconst]
      rfl

/-- What evaluates to true at an assignment is true under every valuation with its bytes. -/
lemma Splittable.falsifiedBy_of_evaluateFree (h : Splittable o q)
    (ha : ∀ e ∈ splitExprs o q, a.evaluateFree o e = .const (.bool true)) (hρ : a.Agrees ρ)
    (hd : ∀ c ∈ q.constraints, c.Defined o ρ) : q.FalsifiedBy ρ := by
  have hdef : ∀ e ∈ splitExprs o q, e.Defined o ρ := by
    rw [splitExprs]
    split
    · exact hd
    · refine forall_mem_cons.2 ⟨fun ho => ?_, hd⟩
      exact (Expr.createIsZero_refines (o := o) h.expr.typed).inRange _ ⟨h.defined ρ ho, trivial⟩
  refine h.falsifiedBy_iff.2 fun e he => ?_
  obtain ⟨hcons, hi⟩ := h.isConstraint e he
  exact eval_of_evaluateFree hcons.typed hcons.canon hi (ha e he) hρ (hdef e he)

/-- If the expressions without tracked cells do not matter and solutions evaluate to constants, the
call is right. -/
lemma Splittable.right_of_decided (h : Splittable o q) (hdec : Decided o q)
    (hsolver : solver.SolvesInitialValues) (objects : List KArray) :
    Right o solver q objects := by
  obtain ⟨-, hocc, -⟩ := factors_spec h.inBounds
  rcases h.run (h.answered hsolver) with ⟨hrun, f, hf, -, hun⟩ | ⟨retMap, done, hrun, hcol⟩
  · refine ⟨fun _ => h.computeInitialValues_of_none objects hrun, fun ⟨ρ, hρ⟩ => absurd ⟨ρ, ?_⟩ hun⟩
    exact fun e he => h.falsifiedBy_iff.1 hρ e ((hocc e).1 ⟨f, hf, he⟩)
  · obtain ⟨τ, hagree, hτ⟩ := hcol.solved.exists_valuation (a := createdPoint objects retMap)
      fun x hx i => by rw [createdPoint_byte?, if_pos hx]
    have htracked := h.tracked_holds hcol hτ
    obtain ⟨ρ, hρ⟩ := hdec.untracked ⟨τ, htracked⟩
    have hfals : q.FalsifiedBy τ := h.falsifiedBy_of_tracked hρ htracked
    have heval : ∀ e ∈ splitExprs o q,
        (createdPoint objects retMap).evaluateFree o e = .const (.bool true) := by
      intro e he
      have hconst := hdec.constant τ hfals e he
      rw [← h.evaluateFree_createdPoint hcol hagree he] at hconst
      obtain ⟨v, hv⟩ := Expr.isConst_iff.1 hconst
      obtain ⟨hcons, hi⟩ := h.isConstraint e he
      have hvalue := eval_of_evaluateFree hcons.typed hcons.canon hi hv hagree
        fun _ => h.defined_of_falsifiedBy hfals he
      rw [hv, ← hvalue, h.falsifiedBy_iff.1 hfals e he]
    refine ⟨fun hnone => absurd ⟨τ, hfals⟩ hnone, fun _ => ⟨retMap, hrun, ?_, ⟨τ, hagree, hfals⟩,
      fun ρ hρ hd => h.falsifiedBy_of_evaluateFree heval hρ hd⟩⟩
    rw [h.computeInitialValues_of_some objects hrun, if_pos (h.check heval)]

/-! ### A solver that answers with a given solution -/

/-- The valuation with every cell of an array of bytes reduced to a byte. -/
def toBytes (ρ : Valuation) : Valuation := fun array i =>
  if array.range = 8 then ρ array i % 256 else ρ array i

lemma ofNat_mod_byte (n : ℕ) : BitVec.ofNat 8 (n % 256) = BitVec.ofNat 8 n :=
  BitVec.eq_of_toNat_eq (by simp)

lemma eval_toBytes (e : Expr) : e.eval (toBytes ρ) = e.eval ρ := by
  refine (eval_eq_of_findReads fun re _ => ?_).symm
  rw [ReadNode.Agrees, KArray.initialValue, KArray.initialValue, toBytes]
  split
  · next hrange =>
    rw [hrange, APInt.ofNat, APInt.ofNat, ofNat_mod_byte]
  · rfl

lemma bytesOf_toBytes (array : KArray) : bytesOf (toBytes ρ) array = bytesOf ρ array := by
  refine map_congr_left fun i _ => ?_
  rw [toBytes]
  split
  · exact ofNat_mod_byte _
  · rfl

lemma contents_toBytes {array : KArray} (h : array.range = 8) :
    Contents (toBytes ρ) array (bytesOf ρ array) := by
  refine ⟨by simp [bytesOf], fun i b hb => ?_⟩
  rw [bytesOf_getElem?] at hb
  split at hb
  · rw [← Option.some.inj hb, toBytes, if_pos h, BitVec.toNat_ofNat]
  · exact nomatch hb

lemma falsifiedBy_toBytes : q.FalsifiedBy (toBytes ρ) ↔ q.FalsifiedBy ρ := by
  simp only [Query.FalsifiedBy, Query.MetBy, Expr.Holds, eval_toBytes]

open scoped Classical in
/-- A solver that answers with `ρ` where it is a solution. -/
noncomputable def solverAt (ρ : Valuation) : SolverImpl where
  computeTruth _ := none
  computeValidity _ := none
  computeValue _ := none
  computeInitialValues q objects :=
    if q.FalsifiedBy ρ then some (some (objects.map (bytesOf ρ)))
    else if h : ∃ ρ', q.FalsifiedBy ρ' then some (some (objects.map (bytesOf h.choose)))
    else some none

lemma solverAt_answer (hobjects : ∀ array ∈ objects, array.range = 8) :
    List.Forall₂ (Contents (toBytes ρ)) objects (objects.map (bytesOf ρ)) := by
  rw [List.forall₂_map_right_iff, List.forall₂_same]
  exact fun array harray => contents_toBytes (hobjects array harray)

lemma solverAt_solves (ρ : Valuation) : (solverAt ρ).SolvesInitialValues := by
  intro q objects _ _ _ hobjects
  by_cases hρ : q.FalsifiedBy ρ
  · exact Or.inr ⟨_, toBytes ρ, if_pos hρ, falsifiedBy_toBytes.2 hρ, solverAt_answer hobjects⟩
  · by_cases hex : ∃ ρ', q.FalsifiedBy ρ'
    · refine Or.inr ⟨_, toBytes hex.choose, (if_neg hρ).trans (dif_pos hex),
        falsifiedBy_toBytes.2 hex.choose_spec, solverAt_answer hobjects⟩
    · exact Or.inl ⟨hex, (if_neg hρ).trans (dif_neg hex)⟩

lemma Splittable.solvedBy_of_falsifiedBy (h : Splittable o q) (hρ : q.FalsifiedBy ρ)
    (hf : f ∈ factors o q) : SolvedBy f ρ := by
  obtain ⟨-, hocc, -⟩ := factors_spec h.inBounds
  exact fun e he => h.falsifiedBy_iff.1 hρ e ((hocc e).1 ⟨f, hf, he⟩)

lemma Splittable.answeredAt (h : Splittable o q) (hρ : q.FalsifiedBy ρ) :
    ∀ f ∈ factors o q, f.Tracked → Answered (solverAt ρ) (· = toBytes ρ) f := by
  obtain ⟨hfactor, -, -⟩ := factors_spec h.inBounds
  intro f hf _
  have hsolved := h.solvedBy_of_falsifiedBy hρ hf
  have hquery : Query.FalsifiedBy ⟨f.exprs, .const (.bool false)⟩ ρ :=
    ⟨hsolved, by rw [Expr.Holds, Expr.eval]; decide⟩
  refine Or.inr ⟨_, toBytes ρ, if_pos hquery, rfl, fun e he => ?_,
    solverAt_answer (arrays_range (hfactor f hf).shape)⟩
  rw [Expr.Holds, eval_toBytes]
  exact hsolved e he

/-- A call that returns values has passed its assertion, so that the expressions have evaluated to
constants. -/
lemma isConst_of_check (h : assertCreatedPointEvaluatesToTrue o q a = true) :
    ∀ e ∈ splitExprs o q, (a.evaluateFree o e).isConst = true := by
  rw [assertCreatedPointEvaluatesToTrue, Bool.and_eq_true, all_eq_true] at h
  have hsome : ∀ {e : Expr} {p : APInt → Bool}, e.constant?.any p = true → e.isConst = true := by
    intro e p hany
    rw [Expr.isConst]
    cases hc : e.constant? with
    | none => simp [hc] at hany
    | some v => rfl
  rw [splitExprs]
  split
  · exact fun c hc => hsome (h.1 c hc)
  · exact forall_mem_cons.2 ⟨hsome h.2, fun c hc => hsome (h.1 c hc)⟩

/-- If the call is right with every solver, the condition is met. -/
lemma Splittable.decided_of_right (h : Splittable o q)
    (hright : ∀ solver : SolverImpl, solver.SolvesInitialValues → ∀ objects,
      Right o solver q objects) : Decided o q := by
  obtain ⟨hfactor, hocc, -⟩ := factors_spec h.inBounds
  refine ⟨fun ⟨ρ, hρ⟩ => ?_, fun ρ hρ => ?_⟩
  · -- the factors with arrays have solutions, so the call finds one
    by_contra hno
    have hcall := (hright (solverAt ρ) (solverAt_solves ρ) []).1 hno
    rcases h.run (h.answered (solverAt_solves ρ)) with
      ⟨-, f, hf, htracked, hun⟩ | ⟨retMap, done, hrun, -⟩
    · refine hun ⟨ρ, fun e he => hρ e ((hocc e).1 ⟨f, hf, he⟩) ?_⟩
      exact (hfactor f hf).tracked htracked e he
    · rw [h.computeInitialValues_of_some [] hrun] at hcall
      split at hcall
      · exact nomatch hcall
      · exact nomatch hcall
  · -- the solver answers with the solution itself
    obtain ⟨retMap, hrun, hcall, -⟩ := (hright (solverAt ρ) (solverAt_solves ρ) []).2 ⟨ρ, hρ⟩
    rcases h.run (h.answeredAt hρ) with ⟨-, f, hf, -, hun⟩ | ⟨retMap', done, hrun', hcol⟩
    · exact absurd ⟨ρ, h.solvedBy_of_falsifiedBy hρ hf⟩ hun
    · obtain rfl : retMap = retMap' := by
        rw [hrun] at hrun'
        exact Option.some.inj (Outcome.success.inj hrun')
      rw [h.computeInitialValues_of_some [] hrun] at hcall
      have hcheck : assertCreatedPointEvaluatesToTrue o q (createdPoint [] retMap) = true := by
        by_contra hnot
        rw [if_neg hnot] at hcall
        exact nomatch hcall
      have hagree : (createdPoint [] retMap).Agrees (toBytes ρ) := by
        intro x i b hb
        rw [createdPoint_byte?] at hb
        split at hb
        · obtain ⟨d, hd, heq⟩ := hcol.solved.origin x i b hb
          exact hcol.good d hd ▸ heq
        · exact absurd hb (by simp)
      intro e he
      have hconst := isConst_of_check hcheck e he
      rw [h.evaluateFree_createdPoint hcol hagree he] at hconst
      have hpoint : pointOf (arraysRead o q) (toBytes ρ) = pointOf (arraysRead o q) ρ := by
        rw [pointOf, pointOf, map_congr_left fun array _ => bytesOf_toBytes array]
      rwa [hpoint] at hconst

/-- With every solver that is exact about initial values, and for all requested arrays, the call is
right exactly if the expressions without tracked cells do not matter and every solution evaluates
to constants. -/
theorem computeInitialValues_right_iff (o : Opts) (q : Query) (h : Splittable o q) :
    (∀ solver : SolverImpl, solver.SolvesInitialValues → ∀ objects, Right o solver q objects) ↔
      Decided o q :=
  ⟨h.decided_of_right, fun hdec _ hsolver objects => h.right_of_decided hdec hsolver objects⟩

/-- The condition is met if every expression tracks a cell or always holds, and in every solution
all indices are in range and no divisor is zero. -/
lemma Splittable.decided_of_inRange (h : Splittable o q)
    (htracked : ∀ e ∈ splitExprs o q, (ofExpr e).Tracked ∨ ∀ ρ, e.Holds ρ)
    (hsol : ∀ ρ, q.FalsifiedBy ρ → ∀ e ∈ splitExprs o q,
      e.Evaluable ρ ∧ ReadsIn (fun root i => i < root.size) ρ e.reads) : Decided o q := by
  refine ⟨fun ⟨ρ, hρ⟩ => ⟨ρ, h.falsifiedBy_iff.2 fun e he => ?_⟩, fun ρ hρ e he => ?_⟩
  · exact (htracked e he).elim (hρ e he) fun hall => hall ρ
  · have hρ' := falsifiedBy_toBytes.2 hρ
    obtain ⟨hev, hreads⟩ := hsol _ hρ' e he
    obtain ⟨hcons, hi⟩ := h.isConstraint e he
    rw [evaluateFree_eq (ρ := toBytes ρ) hcons.typed hi (fun x i b hb => ?_) hev
      fun r hr hnone => ?_]
    · rfl
    · rw [pointOf_byte?] at hb
      split at hb
      · next hx =>
        obtain ⟨e', he', i', hhas⟩ := h.mem_arraysRead.1 hx.1
        have hrange := range_of_has (ofExpr_shape (h.inBounds e' he')) hhas
        rw [← Option.some.inj hb, toBytes, if_pos hrange, BitVec.toNat_ofNat]
      · exact nomatch hb
    · have hlt := hreads r hr
      rw [pointOf_byte?, if_pos ⟨(h.read_cases he hr hnone).resolve_right (not_le.2 hlt), hlt⟩]
      rfl

end Query

/-! ### Examples -/

section Example

/-- A constant array with the byte 1. -/
def constantOne : KArray := ⟨1, "c", 1, 32, 8, [.ofNat 8 1]⟩

/-- The constraint `0 = c[0]`, which is false and tracks no cell. -/
def falseConstraint : Query :=
  ⟨[.bin .eq (.const (.ofNat 8 0)) (.read constantOne .null (.const (.ofNat 32 0)))],
    .const (.bool false)⟩

lemma constantOne_wf : constantOne.WF where
  size_eq := fun _ => rfl
  values_width := forall_mem_singleton.2 rfl
  size_le := by decide
  domain_pos := by decide
  range_pos := by decide

lemma falseConstraint_reads : findReads (.bin .eq (.const (.ofNat 8 0))
    (.read constantOne .null (.const (.ofNat 32 0)))) =
      [⟨constantOne, .null, .const (.ofNat 32 0)⟩] := by
  decide +kernel

lemma falseConstraint_inBounds : ∀ e ∈ splitExprs ⟨false, false⟩ falseConstraint,
    ∀ re ∈ findReads e, InBounds re := by
  refine forall_mem_singleton.2 ?_
  rw [falseConstraint_reads]
  refine forall_mem_singleton.2 ⟨rfl, fun c hc => ?_⟩
  rw [← Option.some.inj hc]
  decide

lemma falseConstraint_splittable : Splittable ⟨false, false⟩ falseConstraint where
  constraints := forall_mem_singleton.2
    ⟨⟨⟨Nat.succ_pos _, ⟨constantOne_wf, Nat.succ_pos _, rfl, trivial⟩, rfl⟩,
      ⟨trivial, ⟨trivial, trivial⟩, rfl⟩, rfl⟩, trivial, le_rfl, trivial, trivial⟩
  expr := ⟨Nat.one_pos, trivial, rfl⟩
  indexable := trivial
  isFalse := fun c hc => (Option.some.inj hc).symm
  inBounds := falseConstraint_inBounds
  defined := nofun
  inRange := by
    intro f hf ρ _ e he
    have hmem := ((factors_spec falseConstraint_inBounds).2.1 e).1 ⟨f, hf, he⟩
    rw [mem_singleton.1 hmem]
    exact ⟨trivial, trivial, trivial, fun _ => Nat.one_pos⟩

/-- The false constraint is skipped, and then the assertion fails. -/
theorem computeInitialValues_falseConstraint :
    Splittable ⟨false, false⟩ falseConstraint ∧ (¬ ∃ ρ, falseConstraint.FalsifiedBy ρ) ∧
      ∀ solver, computeInitialValues ⟨false, false⟩ solver falseConstraint [] = .assertion := by
  refine ⟨falseConstraint_splittable, ?_, fun solver => ?_⟩
  · rintro ⟨ρ, hmet, -⟩
    have hholds : APInt.bool false = APInt.bool true := hmet _ (mem_singleton.2 rfl)
    exact absurd hholds (by decide)
  · have hset : (splitExprs ⟨false, false⟩ falseConstraint).map ofExpr =
        [⟨∅, [], falseConstraint.constraints⟩] := by
      refine congrArg (· :: []) ?_
      rw [ofExpr, falseConstraint_reads]
      rfl
    have hfactors : factors ⟨false, false⟩ falseConstraint =
        [⟨∅, [], falseConstraint.constraints⟩] := by
      rw [factors, hset, mergeFactors]
      simp [sweepAll, sweep]
    have hrun : solveFactors solver (factors ⟨false, false⟩ falseConstraint) ∅ =
        .success (some ∅) := by
      rw [hfactors]
      rfl
    rw [falseConstraint_splittable.computeInitialValues_of_some [] hrun, if_neg (by decide +kernel)]

/-- The cell `i` of an array of two bytes is below `n`. -/
def cellBelow (i n : ℕ) : Expr :=
  .bin .ult (.read (.bytes 3 "x" 2) .null (.const (.ofNat 32 i))) (.const (.ofNat 8 n))

/-- Two factors that share an array. -/
def sharedArray : Query := ⟨[cellBelow 0 10, cellBelow 1 7], .const (.bool false)⟩

lemma sharedArray_reads : ∀ e ∈ splitExprs ⟨false, false⟩ sharedArray,
    ∃ i < 2, findReads e = [⟨.bytes 3 "x" 2, .null, .const (.ofNat 32 i)⟩] :=
  forall_mem_cons.2 ⟨⟨0, by decide, by decide +kernel⟩,
    forall_mem_singleton.2 ⟨1, by decide, by decide +kernel⟩⟩

lemma ofNat_toNat_of_lt (hi : i < 2) : (APInt.ofNat 32 i).toNat = i := by
  interval_cases i <;> rfl

lemma sharedArray_inBounds : ∀ e ∈ splitExprs ⟨false, false⟩ sharedArray,
    ∀ re ∈ findReads e, InBounds re := by
  intro e he
  obtain ⟨i, hi, hreads⟩ := sharedArray_reads e he
  rw [hreads]
  refine forall_mem_singleton.2 ⟨rfl, fun c hc => ?_⟩
  rw [← Option.some.inj hc, ofNat_toNat_of_lt hi]
  exact hi

lemma sharedArray_cases (he : e ∈ splitExprs ⟨false, false⟩ sharedArray) :
    ∃ i < 2, ∃ n, e = cellBelow i n := by
  rcases mem_pair.1 he with rfl | rfl
  · exact ⟨0, by decide, 10, rfl⟩
  · exact ⟨1, by decide, 7, rfl⟩

lemma sharedArray_splittable : Splittable ⟨false, false⟩ sharedArray where
  constraints := by
    intro c hc
    obtain ⟨i, -, n, rfl⟩ := sharedArray_cases hc
    exact ⟨⟨⟨⟨KArray.bytes_wf 3 "x" (by decide), Nat.succ_pos _, rfl, trivial⟩, Nat.succ_pos _,
      rfl⟩, ⟨⟨trivial, trivial⟩, trivial, rfl⟩, rfl⟩, ⟨le_rfl, trivial, trivial⟩, trivial⟩
  expr := ⟨Nat.one_pos, trivial, rfl⟩
  indexable := trivial
  isFalse := fun c hc => (Option.some.inj hc).symm
  inBounds := sharedArray_inBounds
  defined := nofun
  inRange := by
    intro f hf ρ _ e he
    obtain ⟨i, -, n, rfl⟩ :=
      sharedArray_cases (((factors_spec sharedArray_inBounds).2.1 e).1 ⟨f, hf, he⟩)
    exact ⟨⟨trivial, trivial, fun h => by simp [KArray.bytes, KArray.isSymbolicArray] at h⟩,
      trivial⟩

lemma sharedArray_decided : Decided ⟨false, false⟩ sharedArray := by
  refine sharedArray_splittable.decided_of_inRange (fun e he => Or.inl ?_) fun ρ _ e he => ?_
  · obtain ⟨i, -, hreads⟩ := sharedArray_reads e he
    refine ⟨.bytes 3 "x" 2, (APInt.ofNat 32 i).toNat % 2 ^ 32, (ofExpr_has_iff e).2
      ⟨_, hreads ▸ mem_singleton.2 rfl, ?_, rfl, fun c hc => by rw [← Option.some.inj hc]⟩⟩
    rintro ⟨h, -⟩
    exact nomatch h
  · obtain ⟨i, hi, n, rfl⟩ := sharedArray_cases he
    refine ⟨⟨⟨trivial, trivial⟩, trivial, nofun⟩, forall_mem_singleton.2 ?_⟩
    rw [Expr.eval, ofNat_toNat_of_lt hi]
    exact hi

theorem computeInitialValues_right_sharedArray : Splittable ⟨false, false⟩ sharedArray ∧
      ∀ solver : SolverImpl, solver.SolvesInitialValues → ∀ objects,
        Right ⟨false, false⟩ solver sharedArray objects :=
  ⟨sharedArray_splittable,
    (computeInitialValues_right_iff ⟨false, false⟩ sharedArray sharedArray_splittable).2
      sharedArray_decided⟩

end Example

end IndependentSolver

end Castan
