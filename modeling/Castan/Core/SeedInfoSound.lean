/-
# When a patched seed follows the path

With an exact solver the bytes that `patchSeed` changes first are those of a solution that keeps the
bytes of the seed as far as it can, in the order of the loop.  If the seed with these bytes meets
the condition it is taken as it is, and then it follows the path only if the other constraints hold
by luck; if it does not, all bytes become those of a solution.  So the seeds follow the path after
`addConstraint` exactly if no such solution leads off the path (`addConstraintSeeded_follows_iff`).
-/
import Castan.Core.SeedInfo

namespace Castan

open Assignment List Option

/-! ### Bytes of a valuation -/

namespace Assignment

variable {a : Assignment} {m ρ : Valuation} {ds : List Cell} {e : Cell}

/-- The assignment with the bytes of a valuation at the given cells. -/
def withBytes (a : Assignment) (m : Valuation) (ds : List Cell) : Assignment :=
  ds.foldl (fun a d => a.setByte d (m.byteAt d)) a

lemma withBytes_cons {d : Cell} :
    a.withBytes m (d :: ds) = (a.setByte d (m.byteAt d)).withBytes m ds := rfl

lemma withBytes_congr (h : ∀ d ∈ ds, m.byteAt d = ρ.byteAt d) :
    a.withBytes m ds = a.withBytes ρ ds := by
  induction ds generalizing a with
  | nil => rfl
  | cons d ds ih =>
    obtain ⟨hd, hds⟩ := forall_mem_cons.1 h
    rw [withBytes_cons, withBytes_cons, hd]
    exact ih hds

lemma byte?_withBytes : (a.withBytes m ds).byte? e.1 e.2 =
      if e ∈ ds then (a.byte? e.1 e.2).map fun _ => m.byteAt e else a.byte? e.1 e.2 := by
  induction ds generalizing a with
  | nil => rfl
  | cons d ds ih =>
    rw [withBytes_cons, ih, byte?_setByte]
    by_cases hd : e = d
    · subst hd
      by_cases hmem : e ∈ ds <;> cases a.byte? e.1 e.2 <;> simp [hmem]
    · by_cases hmem : e ∈ ds <;> simp [hmem, hd]

lemma isSome_byte?_withBytes :
    ((a.withBytes m ds).byte? e.1 e.2).isSome = (a.byte? e.1 e.2).isSome := by
  rw [byte?_withBytes]
  split
  · rw [isSome_map]
  · rfl

lemma BindsBytes.withBytes (ha : a.BindsBytes) : (a.withBytes m ds).BindsBytes := by
  induction ds generalizing a with
  | nil => exact ha
  | cons d ds ih => exact ih ha.setByte

lemma BindsBytes.nodup_cells (ha : a.BindsBytes) : a.cells.Nodup := by
  refine nodup_flatMap.2 ⟨fun p _ => ?_, ?_⟩
  · exact nodup_range.map fun i j h => congrArg Prod.snd h
  · refine (pairwise_map.1 ha.nodup).imp fun {p q} hne => ?_
    rw [Function.onFun, disjoint_left]
    intro d hd hd'
    obtain ⟨i, -, rfl⟩ := mem_map.1 hd
    obtain ⟨j, -, hj⟩ := mem_map.1 hd'
    exact hne (congrArg Prod.fst hj).symm

lemma BindsBytes.mem_cells (ha : a.BindsBytes) : e ∈ a.cells ↔ (a.byte? e.1 e.2).isSome := by
  constructor
  · intro he
    obtain ⟨p, hp, hmem⟩ := mem_flatMap.1 he
    obtain ⟨i, hi, rfl⟩ := mem_map.1 hmem
    have hlt : i < p.2.length := by
      rw [ha.length_eq p hp]
      exact mem_range.1 hi
    rw [byte?, lookup_of_mem ha.nodup hp]
    simp [hlt]
  · intro he
    obtain ⟨b, hb⟩ := isSome_iff_exists.1 he
    obtain ⟨p, hp, hpe, hget⟩ := BindsBytes.exists_of_byte? hb
    refine mem_flatMap.2 ⟨p, hp, mem_map.2 ⟨e.2, mem_range.2 ?_, ?_⟩⟩
    · rw [← ha.length_eq p hp]
      exact (List.getElem?_eq_some_iff.1 hget).1
    · exact Prod.ext hpe rfl

end Assignment

/-! ### The loops -/

namespace SeedInfo

open ConstraintManager

/-- The solution `m` keeps the bytes of the seed as far as it can: each one that is kept by some
solution with the same bytes as `m` at the cells before. -/
def Nearest (a : Assignment) : List Cell → (Valuation → Prop) → Valuation → Prop
  | [], M, m => M m
  | d :: ds, M, m =>
    (∀ ρ, M ρ → a.byte? d.1 d.2 = some (ρ.byteAt d) → a.byte? d.1 d.2 = some (m.byteAt d)) ∧
      Nearest a ds (fun ρ => M ρ ∧ ρ.byteAt d = m.byteAt d) m

variable {a a' : Assignment} {M : Valuation → Prop} {m : Valuation}

lemma Nearest.solution {ds : List Cell} (h : Nearest a ds M m) : M m := by
  induction ds generalizing M with
  | nil => exact h
  | cons d ds ih => exact (ih h.2).1

lemma Nearest.congr {ds : List Cell} (h : Nearest a ds M m)
    (hbytes : ∀ d ∈ ds, a.byte? d.1 d.2 = a'.byte? d.1 d.2) : Nearest a' ds M m := by
  induction ds generalizing M with
  | nil => exact h
  | cons d ds ih =>
    obtain ⟨hd, hds⟩ := forall_mem_cons.1 hbytes
    refine ⟨?_, ih h.2 hds⟩
    rw [← hd]
    exact h.1

/-- The loop over some cells gives them the bytes of a solution that is nearest to the seed, and
those of `σ` if the solver prefers it. -/
lemma patchBytes_spec {timing : TimingSolver} (hexact : timing.solver.AlwaysExact)
    {ds : List Cell} (hnodup : ds.Nodup) {tmp : List Expr} {a : Assignment}
    {M : Valuation → Prop} (htmp : Decides timing.opts tmp M) (hsat : ∃ ρ, M ρ)
    (ha : a.BindsBytes) (hbytes : ∀ d ∈ ds, (a.byte? d.1 d.2).isSome) :
    ∃ m tmp', ds.foldlM (patchByte timing) (a, tmp) = some (a.withBytes m ds, tmp') ∧
      Decides timing.opts tmp' (fun ρ => M ρ ∧ ∀ d ∈ ds, ρ.byteAt d = m.byteAt d) ∧
      Nearest a ds M m ∧
      ∀ σ, timing.solver.Prefers σ → Nearest a ds M σ → ∀ d ∈ ds, m.byteAt d = σ.byteAt d := by
  induction ds generalizing tmp a M with
  | nil =>
    obtain ⟨m, hm⟩ := hsat
    exact ⟨m, tmp, rfl, htmp.congr (by simp), hm, by simp⟩
  | cons d ds ih =>
    obtain ⟨hd, hds⟩ := nodup_cons.1 hnodup
    obtain ⟨hdb, hdsb⟩ := forall_mem_cons.1 hbytes
    obtain ⟨b, hb⟩ := isSome_iff_exists.1 hdb
    obtain ⟨m₀, tmp₀, hm₀, hstep, hdec₀, hchoice⟩ := patchByte_spec hexact htmp hsat ha hb
    -- the bytes of the other cells are still those of the seed
    have hother : ∀ e ∈ ds, (a.setByte d (m₀.byteAt d)).byte? e.1 e.2 = a.byte? e.1 e.2 := by
      intro e he
      rw [byte?_setByte, if_neg fun h : e = d => hd (h ▸ he)]
    obtain ⟨m, tmp', hrun, hdec, hnear, hprefers⟩ := ih hds hdec₀ ⟨m₀, hm₀, rfl⟩ ha.setByte
      fun e he => by rw [hother e he]; exact hdsb e he
    have hmd : m.byteAt d = m₀.byteAt d := hnear.solution.2
    refine ⟨m, tmp', ?_, ?_, ⟨?_, ?_⟩, ?_⟩
    · rw [foldlM_cons, hstep, withBytes_cons, hmd]
      exact hrun
    · refine hdec.congr fun ρ => ?_
      rw [forall_mem_cons, hmd, and_assoc]
    · intro ρ hρ hkeep
      rw [hb, Option.some.injEq] at hkeep ⊢
      rw [hmd]
      rcases hchoice with hsame | ⟨hnone, -⟩
      · exact hsame.symm
      · exact absurd hkeep.symm (hnone ρ hρ)
    · rw [hmd]
      exact hnear.congr hother
    · intro σ hσ hnearσ
      have hσd : m.byteAt d = σ.byteAt d := by
        rw [hmd]
        rcases hchoice with hsame | ⟨-, hvalue⟩
        · have hkeep := hnearσ.1 m₀ hm₀ (by rw [hb, hsame])
          rw [hb, Option.some.injEq] at hkeep
          rw [hsame, hkeep]
        · have hvalue' := TimingSolver.getValue_of_prefers hσ htmp hnearσ.solution
            (read_computes (ha.isByteArray_of_byte? hb) (ha.lt_of_byte? hb))
          have heq := Option.some.inj (hvalue.symm.trans hvalue')
          simpa [APInt.ofNat, Valuation.byteAt] using heq
      refine forall_mem_cons.2 ⟨hσd, hprefers σ hσ ?_⟩
      have hrest := hnearσ.2
      rw [← hσd, hmd] at hrest
      exact hrest.congr fun e he => (hother e he).symm

/-! ### Reads of a seed -/

lemma sorted_directReads (condition : Expr) :
    SortedMap.Sorted (fun d : Cell => toLex (d.1.addr, d.2)) (directReads condition) := by
  rw [directReads]
  refine List.foldlRecOn _ _ List.Pairwise.nil fun ds hds r _ => ?_
  split
  · exact hds.insert _
  · exact hds

lemma nodup_directReads (condition : Expr) : (directReads condition).Nodup :=
  (sorted_directReads condition).imp fun hlt heq => absurd hlt (by rw [heq]; exact lt_irrefl _)

/-- A direct read is a read of the condition at a constant index. -/
lemma exists_of_mem_directReads {condition : Expr} {d : Cell} (hd : d ∈ directReads condition) :
    ∃ c : APInt, (d.1, .const c) ∈ condition.reads ∧ c.toNat = d.2 := by
  have hall : ∀ d ∈ directReads condition,
      ∃ c : APInt, (d.1, .const c) ∈ condition.reads ∧ c.toNat = d.2 := by
    rw [directReads]
    refine List.foldlRecOn (motive := fun (ds : List Cell) => ∀ d ∈ ds,
      ∃ c : APInt, (d.1, .const c) ∈ condition.reads ∧ c.toNat = d.2) _ _
      (fun d hd => absurd hd not_mem_nil) fun ds hds r hr => ?_
    split
    · next c hc =>
      intro d hd
      have hmem : d ∈ ds ∨ d = (r.root, c.toNat) := by
        rw [SortedMap.insert] at hd
        split at hd
        · exact .inl hd
        · simp only [SortedMap.replace, mem_append, mem_filter, mem_cons] at hd
          tauto
      rcases hmem with hold | rfl
      · exact hds d hold
      · refine ⟨c, ?_, rfl⟩
        rw [← Expr.constant?_eq_some.1 hc]
        exact mem_reads_of_findDirectReads r hr
    · exact hds
  exact hall d hd

/-- A condition on a path that can be met, and whose residues under assignments stay inside the
constant arrays. -/
structure Scene (o : Opts) (constraints : List Expr) (S : Valuation → Prop) (condition : Expr) :
    Prop where
  decides : Decides o constraints S
  isConstraint : condition.IsConstraint
  indexable : condition.Indexable
  defined : ∀ ρ, S ρ → condition.Defined o ρ
  residue_defined : ∀ (a : Assignment) ρ, S ρ → (a.evaluateFree o condition).Defined o ρ
  satisfiable : ∃ ρ, S ρ ∧ condition.Holds ρ

/-- A seed that binds every byte that is read on the path, and follows the path. -/
structure IsSeed (constraints : List Expr) (S : Valuation → Prop) (condition : Expr)
    (a : Assignment) : Prop where
  bindsBytes : a.BindsBytes
  reads : ∀ e ∈ condition :: constraints, ∀ ρ, S ρ →
    ReadsIn (fun root i => root.constantValues[i]? = none → (a.byte? root i).isSome) ρ e.reads
  follows : S a.valuation

/-- The assignment satisfies the constraints and the condition. -/
def Follows (S : Valuation → Prop) (condition : Expr) (a : Assignment) : Prop :=
  S a.valuation ∧ condition.Holds a.valuation

/-- What the code asks the solver: the condition, evaluated under the assignment, can be true on the
path.  The evaluation leaves reads of other bytes and divisions by zero as they are. -/
def MayFollow (o : Opts) (S : Valuation → Prop) (condition : Expr) (a : Assignment) : Prop :=
  ∃ ρ, S ρ ∧ (a.evaluateFree o condition).Holds ρ

variable {o : Opts} {S : Valuation → Prop} {constraints : List Expr} {condition : Expr}

lemma Scene.residue_tests (hscene : Scene o constraints S condition) (a : Assignment) :
    Tests o S (a.evaluateFree o condition) fun ρ => (a.evaluateFree o condition).Holds ρ := by
  have heval := ExprEvaluator.visit_evaluates (evaluateFreeCell_initialValues (o := o) (a := a))
    condition hscene.isConstraint.typed hscene.isConstraint.canon hscene.indexable
  refine ⟨⟨heval.1.typed, heval.2, ?_⟩, hscene.residue_defined a, fun _ _ => Iff.rfl⟩
  exact heval.1.width_eq.trans hscene.isConstraint.width_eq

lemma agrees_valuation (a : Assignment) : a.Agrees a.valuation := by
  intro array i b hb
  rw [byte?] at hb
  rw [valuation, hb]
  rfl

/-- An assignment that follows the path passes the check of the code. -/
lemma Scene.mayFollow_of_follows (hscene : Scene o constraints S condition) {a : Assignment}
    (ha : Follows S condition a) : MayFollow o S condition a := by
  have heval := ExprEvaluator.visit_evaluates (evaluateFreeCell_initialValues (o := o) (a := a))
    condition hscene.isConstraint.typed hscene.isConstraint.canon hscene.indexable
  refine ⟨a.valuation, ha.1, ?_⟩
  rw [Expr.Holds, evaluateFree, heval.eval_eq (agrees_valuation a)
    (hscene.defined _ ha.1)]
  exact ha.2

/-- Where the evaluation gives a constant, the check of the code is the condition. -/
lemma Scene.holds_of_mayFollow (hscene : Scene o constraints S condition) {a : Assignment}
    (hev : condition.Evaluable a.valuation)
    (hreads : ReadsIn (fun root i => root.constantValues[i]? = none → (a.byte? root i).isSome)
      a.valuation condition.reads) (hmay : MayFollow o S condition a) :
    condition.Holds a.valuation := by
  obtain ⟨ρ, -, hρ⟩ := hmay
  rwa [evaluateFree_eq hscene.isConstraint.typed hscene.indexable (agrees_valuation a) hev
    hreads, Expr.Holds, Expr.eval] at hρ

/-- The cells of the first loop. -/
def boundReads (condition : Expr) (a : Assignment) : List Cell :=
  (directReads condition).filter fun d => (a.bindings.lookup d.1).isSome

/-- A direct read of a bound array is one of the bytes of the seed. -/
lemma IsSeed.byte?_boundReads (hscene : Scene o constraints S condition)
    (ha : IsSeed constraints S condition a) :
    ∀ d ∈ boundReads condition a, (a.byte? d.1 d.2).isSome := by
  intro d hd
  obtain ⟨hmem, hbound⟩ := mem_filter.1 hd
  obtain ⟨c, hread, hc⟩ := exists_of_mem_directReads hmem
  obtain ⟨ρ, hρ, -⟩ := hscene.satisfiable
  obtain ⟨vs, hvs⟩ := isSome_iff_exists.1 hbound
  obtain ⟨l, r, hbs, -⟩ := lookup_eq_some_iff.1 hvs
  have hsym := (ha.bindsBytes.isByteArray (d.1, vs) (by rw [hbs]; simp)).symbolic
  have hin := ha.reads condition mem_cons_self ρ hρ _ hread
  rw [Expr.eval, hc] at hin
  exact hin (by rw [hsym]; rfl)

/-- With the bytes of a solution at all its cells an assignment follows the path. -/
lemma IsSeed.follows_of_bytes (hscene : Scene o constraints S condition)
    (ha : IsSeed constraints S condition a) (hm : S m ∧ condition.Holds m)
    (hbytes : ∀ d : Cell, (a.byte? d.1 d.2).isSome → a'.byte? d.1 d.2 = some (m.byteAt d)) :
    Follows S condition a' := by
  have heval : ∀ e ∈ condition :: constraints, e.eval m = e.eval a'.valuation := by
    intro e he
    refine eval_eq_of_findReads fun r hr => ?_
    have hin := ha.reads e he m hm.1 _ (mem_reads_of_findReads r hr)
    rw [ReadNode.Agrees, KArray.initialValue, KArray.initialValue]
    cases hconst : r.root.constantValues[(r.index.eval m).toNat]? with
    | some v => rfl
    | none =>
      have hsome := hin hconst
      obtain ⟨b, hb⟩ := isSome_iff_exists.1 hsome
      have hrange := (ha.bindsBytes.isByteArray_of_byte? (d := (_, _)) hb).range_eq
      have hbyte := hbytes (r.root, (r.index.eval m).toNat) hsome
      rw [getD_none, getD_none, agrees_valuation a' _ _ _ hbyte, hrange]
      rw [APInt.ofNat, APInt.ofNat, Valuation.byteAt, BitVec.ofNat_toNat, BitVec.setWidth_eq]
  refine ⟨(hscene.decides.holds_iff _).1 fun c hc => ?_, ?_⟩
  · rw [Expr.Holds, ← heval c (mem_cons_of_mem _ hc)]
    exact (hscene.decides.holds_iff m).2 hm.1 c hc
  · rw [Expr.Holds, ← heval condition mem_cons_self]
    exact hm.2

/-! ### The patched seed -/

section Exact

variable (timing : TimingSolver) (hexact : timing.solver.AlwaysExact)
  (hscene : Scene timing.opts constraints S condition) (ha : IsSeed constraints S condition a)

include hexact hscene

lemma mayBeTrue_residue (a : Assignment) :
    ∃ res, timing.mayBeTrue constraints (a.evaluateFree timing.opts condition) = some res ∧
      (res = true ↔ MayFollow timing.opts S condition a) := by
  obtain ⟨ρ, hρ, -⟩ := hscene.satisfiable
  exact TimingSolver.mayBeTrue_spec hexact hscene.decides ⟨ρ, hρ⟩ (hscene.residue_tests a)

include ha

/-- The first loop takes the bytes of a nearest solution.  Either that is the patched seed or the
second loop finds one that follows the path. -/
lemma patchSeed_spec : ∃ m,
    Nearest a (boundReads condition a) (fun ρ => S ρ ∧ condition.Holds ρ) m ∧
    (∀ σ, timing.solver.Prefers σ →
      Nearest a (boundReads condition a) (fun ρ => S ρ ∧ condition.Holds ρ) σ →
      a.withBytes m (boundReads condition a) = a.withBytes σ (boundReads condition a)) ∧
    ∃ a', patchSeed timing constraints condition a = some a' ∧
      (MayFollow timing.opts S condition (a.withBytes m (boundReads condition a)) ∧
          a' = a.withBytes m (boundReads condition a) ∨
        ¬ MayFollow timing.opts S condition (a.withBytes m (boundReads condition a)) ∧
          Follows S condition a') := by
  obtain ⟨tmp, htmp, hdec⟩ := hscene.decides.addConstraint hscene.isConstraint hscene.defined
    hscene.satisfiable
  obtain ⟨m, tmp₁, hrun, hdec₁, hnear, hprefers⟩ := patchBytes_spec hexact
    ((nodup_directReads condition).filter _) hdec hscene.satisfiable ha.bindsBytes
    (ha.byte?_boundReads hscene)
  refine ⟨m, hnear, fun σ hσ hnearσ => withBytes_congr (hprefers σ hσ hnearσ), ?_⟩
  set a₁ := a.withBytes m (boundReads condition a) with ha₁
  obtain ⟨res, hres, hiff⟩ := mayBeTrue_residue timing hexact hscene a₁
  have hrun₁ : ((directReads condition).filter fun d => (a.bindings.lookup d.1).isSome).foldlM
      (patchByte timing) (a, tmp) = some (a₁, tmp₁) := hrun
  cases res with
  | true =>
    refine ⟨a₁, ?_, .inl ⟨hiff.1 rfl, rfl⟩⟩
    simp [patchSeed, htmp, hrun₁, hres]
  | false =>
    have hbytes₁ : a₁.BindsBytes := ha.bindsBytes.withBytes
    obtain ⟨m₂, tmp₂, hrun₂, -, hnear₂, -⟩ := patchBytes_spec hexact hbytes₁.nodup_cells hdec₁
      ⟨m, hnear.solution, fun _ _ => rfl⟩ hbytes₁ fun d hd => hbytes₁.mem_cells.1 hd
    have hfollows : Follows S condition (a₁.withBytes m₂ a₁.cells) := by
      refine ha.follows_of_bytes hscene hnear₂.solution.1 fun d hd => ?_
      have hd₁ : (a₁.byte? d.1 d.2).isSome := by
        rw [ha₁, isSome_byte?_withBytes]
        exact hd
      obtain ⟨b, hb⟩ := isSome_iff_exists.1 hd₁
      rw [byte?_withBytes, if_pos (hbytes₁.mem_cells.2 hd₁), hb, map_some]
    obtain ⟨res₂, hres₂, hiff₂⟩ := mayBeTrue_residue timing hexact hscene (a₁.withBytes m₂ a₁.cells)
    obtain rfl : res₂ = true := hiff₂.2 (hscene.mayFollow_of_follows hfollows)
    refine ⟨a₁.withBytes m₂ a₁.cells, ?_, .inr ⟨fun h => absurd (hiff.2 h) (by decide), hfollows⟩⟩
    simp [patchSeed, htmp, hrun₁, hres, hrun₂, hres₂]

end Exact

/-- Whatever solution the first loop finds, the seed with its bytes fails the check of the code or
follows the path; a seed that is not patched meets the condition. -/
def StaysOnPath (o : Opts) (S : Valuation → Prop) (condition : Expr) (a : Assignment) : Prop :=
  (MayFollow o S condition a → condition.Holds a.valuation) ∧
  (¬ MayFollow o S condition a → ∀ m,
    Nearest a (boundReads condition a) (fun ρ => S ρ ∧ condition.Holds ρ) m →
    MayFollow o S condition (a.withBytes m (boundReads condition a)) →
    Follows S condition (a.withBytes m (boundReads condition a)))

section Follow

/-- What the first check decides. -/
lemma follow_eq (timing : TimingSolver) (hexact : timing.solver.AlwaysExact)
    (hscene : Scene timing.opts constraints S condition) (a : Assignment) :
    (MayFollow timing.opts S condition a ∧ follow timing constraints condition a = some a) ∨
      (¬ MayFollow timing.opts S condition a ∧
        follow timing constraints condition a = patchSeed timing constraints condition a) := by
  obtain ⟨res, hres, hiff⟩ := mayBeTrue_residue timing hexact hscene a
  obtain ⟨r, hr, rfl⟩ := map_eq_some_iff.1 hres
  cases r with
  | false => exact .inl ⟨hiff.1 rfl, by simp [follow, hr]⟩
  | true => exact .inr ⟨fun h => absurd (hiff.2 h) (by decide), by simp [follow, hr]⟩

variable (simplifyExprs : Bool) (hscene : Scene o constraints S condition)
  (ha : IsSeed constraints S condition a)

include hscene ha

/-- One seed. -/
lemma follow_follows_iff : (∀ solver : SolverImpl, solver.AlwaysExact →
      ∃ a', follow ⟨o, solver, simplifyExprs⟩ constraints condition a = some a' ∧
        Follows S condition a') ↔ StaysOnPath o S condition a := by
  constructor
  · intro h
    refine ⟨fun hmay => ?_, fun hmay σ hnear hmayσ => ?_⟩
    · have hexact := SolverImpl.preferring_exact a.valuation
      obtain ⟨a', ha', hfollows⟩ := h _ hexact
      rcases follow_eq ⟨o, _, simplifyExprs⟩ hexact hscene a with ⟨-, hkeep⟩ | ⟨hnot, -⟩
      · obtain rfl := Option.some.inj (hkeep.symm.trans ha')
        exact hfollows.2
      · exact absurd hmay hnot
    · -- the solver that prefers the given solution finds it
      have hexact := SolverImpl.preferring_exact σ
      obtain ⟨a', ha', hfollows⟩ := h _ hexact
      obtain ⟨m, -, hprefers, a'', ha'', hcases⟩ :=
        patchSeed_spec ⟨o, .preferring σ, simplifyExprs⟩ hexact hscene ha
      rcases follow_eq ⟨o, _, simplifyExprs⟩ hexact hscene a with ⟨h', -⟩ | ⟨-, hpatch⟩
      · exact absurd h' hmay
      · obtain rfl := Option.some.inj (ha''.symm.trans (hpatch.symm.trans ha'))
        rw [hprefers σ (SolverImpl.preferring_prefers σ) hnear] at hcases
        rcases hcases with ⟨-, rfl⟩ | ⟨hnot, -⟩
        · exact hfollows
        · exact absurd hmayσ hnot
  · intro h solver hexact
    rcases follow_eq ⟨o, solver, simplifyExprs⟩ hexact hscene a with
      ⟨hmay, hkeep⟩ | ⟨hmay, hpatch⟩
    · exact ⟨a, hkeep, ha.follows, h.1 hmay⟩
    · obtain ⟨m, hnear, -, a', ha', hcases⟩ :=
        patchSeed_spec ⟨o, solver, simplifyExprs⟩ hexact hscene ha
      refine ⟨a', hpatch.trans ha', ?_⟩
      rcases hcases with ⟨hmay', rfl⟩ | ⟨-, hfollows⟩
      · exact h.2 hmay m hnear hmay'
      · exact hfollows

end Follow

lemma mapM_forall_iff {α β : Type*} {f : α → Option β} {P : β → Prop} (l : List α) :
    (∃ l', l.mapM f = some l' ∧ ∀ b ∈ l', P b) ↔ ∀ a ∈ l, ∃ b, f a = some b ∧ P b := by
  induction l with
  | nil => simp
  | cons a l ih =>
    rw [forall_mem_cons, ← ih, mapM_cons]
    constructor
    · rintro ⟨l', hl', hall⟩
      obtain ⟨b, hb, hrest⟩ := bind_eq_some_iff.1 hl'
      obtain ⟨bs, hbs, hcons⟩ := bind_eq_some_iff.1 hrest
      obtain rfl := Option.some.inj hcons
      obtain ⟨hPb, hPbs⟩ := forall_mem_cons.1 hall
      exact ⟨⟨b, hb, hPb⟩, bs, hbs, hPbs⟩
    · rintro ⟨⟨b, hb, hPb⟩, bs, hbs, hPbs⟩
      exact ⟨b :: bs, by rw [hb, hbs]; rfl, forall_mem_cons.2 ⟨hPb, hPbs⟩⟩

/-- A condition that is not constant is a matter of each seed. -/
lemma addConstraintSeeded_follows_each (timing : TimingSolver)
    (hscene : Scene timing.opts constraints S condition) (hconst : condition.constant? = none)
    (seeds : List Assignment) :
    (∃ seeds' constraints', Executor.addConstraintSeeded timing seeds constraints condition =
        some (seeds', constraints') ∧ ∀ a ∈ seeds', Follows S condition a) ↔
      ∀ a ∈ seeds, ∃ a', follow timing constraints condition a = some a' ∧
        Follows S condition a' := by
  obtain ⟨constraints', hadd, -⟩ := hscene.decides.addConstraint hscene.isConstraint
    hscene.defined hscene.satisfiable
  rw [← mapM_forall_iff, Executor.addConstraintSeeded, hconst]
  constructor
  · rintro ⟨seeds', cs', hrun, hall⟩
    obtain ⟨l, hl, hrest⟩ := bind_eq_some_iff.1 hrun
    obtain ⟨cs, -, hpair⟩ := bind_eq_some_iff.1 hrest
    obtain ⟨rfl, rfl⟩ := Prod.mk.inj (Option.some.inj hpair)
    exact ⟨l, hl, hall⟩
  · rintro ⟨l, hl, hall⟩
    exact ⟨l, constraints', by simp [hl, hadd], hall⟩

/-- With every exact solver the seeds follow the path after the condition was added, if and only if
each of them stays on the path. -/
theorem addConstraintSeeded_follows_iff (hscene : Scene o constraints S condition)
    (seeds : List Assignment) (hseeds : ∀ a ∈ seeds, IsSeed constraints S condition a)
    (simplifyExprs : Bool) :
    (∀ solver : SolverImpl, solver.AlwaysExact → ∃ seeds' constraints',
      Executor.addConstraintSeeded ⟨o, solver, simplifyExprs⟩ seeds constraints condition =
        some (seeds', constraints') ∧ ∀ a ∈ seeds', Follows S condition a) ↔
      ∀ a ∈ seeds, StaysOnPath o S condition a := by
  cases hconst : condition.constant? with
  | some c =>
    -- a constant that can be true is true
    obtain ⟨ρ, -, hholds⟩ := hscene.satisfiable
    have hcondition := Expr.constant?_eq_some.1 hconst
    rw [hcondition, Expr.Holds, Expr.eval] at hholds
    have hfollows : ∀ a ∈ seeds, Follows S condition a := by
      intro a ha
      refine ⟨(hseeds a ha).follows, ?_⟩
      rw [hcondition, Expr.Holds, Expr.eval, hholds]
    constructor
    · intro _ a ha
      refine ⟨fun _ => (hfollows a ha).2, fun hnot => ?_⟩
      exact absurd (hscene.mayFollow_of_follows (hfollows a ha)) hnot
    · intro _ solver _
      refine ⟨seeds, constraints, ?_, hfollows⟩
      rw [Executor.addConstraintSeeded, hconst, hholds]
      rfl
  | none =>
    have heach := fun solver => addConstraintSeeded_follows_each
      ⟨o, solver, simplifyExprs⟩ hscene hconst seeds
    constructor
    · intro h a ha
      refine (follow_follows_iff simplifyExprs hscene (hseeds a ha)).1 fun solver hexact => ?_
      exact (heach solver).1 (h solver hexact) a ha
    · intro h solver hexact
      refine (heach solver).2 fun a ha => ?_
      exact (follow_follows_iff simplifyExprs hscene (hseeds a ha)).2 (h a ha) solver hexact

/-! ### Two bytes -/

def cellX : Cell := (.bytes 0 "x" 1, 0)

def cellY : Cell := (.bytes 1 "y" 1, 0)

def byteExpr (d : Cell) : Expr := .read d.1 .null (.const (.ofNat 32 d.2))

/-- `x[0] = y[0]` -/
def sameByte : Expr := .bin .eq (byteExpr cellX) (byteExpr cellY)

/-- `5 = x[0]` -/
def isFive : Expr := .bin .eq (.const (.ofNat 8 5)) (byteExpr cellX)

/-- The seed with zeros. -/
def zeros : Assignment := ⟨[(cellX.1, [0]), (cellY.1, [0])]⟩

lemma isByteArray_zeros : ∀ p ∈ zeros.bindings, p.1.IsByteArray := by
  intro p hp
  rcases mem_pair.1 hp with rfl | rfl
  · exact ⟨KArray.bytes_wf 0 "x" (by decide), rfl, rfl, rfl⟩
  · exact ⟨KArray.bytes_wf 1 "y" (by decide), rfl, rfl, rfl⟩

lemma byteExpr_typed (d : Cell) (hd : d ∈ [cellX, cellY]) : (byteExpr d).Typed := by
  rcases mem_pair.1 hd with rfl | rfl
  · exact ⟨KArray.bytes_wf 0 "x" (by decide), Nat.succ_pos _, rfl, trivial⟩
  · exact ⟨KArray.bytes_wf 1 "y" (by decide), Nat.succ_pos _, rfl, trivial⟩

lemma isConstraint_sameByte : sameByte.IsConstraint :=
  ⟨⟨byteExpr_typed cellX (by simp), byteExpr_typed cellY (by simp), rfl⟩,
    ⟨⟨trivial, trivial⟩, ⟨trivial, trivial⟩, rfl⟩, rfl⟩

/-- The condition `5 = x[0]` on a path with no other constraint than `x[0] = y[0]`. -/
lemma isFive_scene {constraints : List Expr} (h : ∀ c ∈ constraints, c = sameByte) :
    Scene ⟨false, true⟩ constraints (fun ρ => ∀ c ∈ constraints, c.Holds ρ) isFive where
  decides := .of_defined (fun c hc => h c hc ▸ isConstraint_sameByte) fun _ _ _ => nofun
  isConstraint :=
    ⟨⟨Nat.succ_pos _, byteExpr_typed cellX (by simp), rfl⟩, ⟨trivial, ⟨trivial, trivial⟩, rfl⟩, rfl⟩
  indexable := ⟨trivial, le_refl _, trivial, trivial⟩
  defined _ _ := nofun
  residue_defined _ _ _ := nofun
  satisfiable := ⟨fun _ _ => 5, fun c hc => h c hc ▸ (by decide), by decide⟩

lemma zeros_isSeed {constraints : List Expr} (h : ∀ c ∈ constraints, c = sameByte) :
    IsSeed constraints (fun ρ => ∀ c ∈ constraints, c.Holds ρ) isFive zeros where
  bindsBytes := ⟨by decide, isByteArray_zeros, by decide⟩
  reads e he ρ _ := by
    have hmem : e ∈ [isFive, sameByte] := by
      rcases mem_cons.1 he with rfl | hc
      · simp
      · simp [h e hc]
    intro r hr _
    have hcell : r = (cellX.1, .const (.ofNat 32 0)) ∨ r = (cellY.1, .const (.ofNat 32 0)) := by
      rcases mem_pair.1 hmem with rfl | rfl
      · exact .inl (mem_singleton.1 hr)
      · exact mem_pair.1 hr
    rcases hcell with rfl | rfl
    · exact (by decide : (zeros.byte? cellX.1 0).isSome = true)
    · exact (by decide : (zeros.byte? cellY.1 0).isSome = true)
  follows c hc := h c hc ▸ (by decide)

/-- Without other constraints the seed follows the path. -/
theorem addConstraintSeeded_follows_isFive :
    Scene ⟨false, true⟩ [] (fun ρ => ∀ c ∈ ([] : List Expr), c.Holds ρ) isFive ∧
      ∀ solver : SolverImpl, solver.AlwaysExact → ∃ seeds' constraints',
        Executor.addConstraintSeeded ⟨⟨false, true⟩, solver, true⟩ [zeros] [] isFive =
          some (seeds', constraints') ∧
        ∀ a ∈ seeds', Follows (fun ρ => ∀ c ∈ ([] : List Expr), c.Holds ρ) isFive a := by
  have hnone : ∀ c ∈ ([] : List Expr), c = sameByte := nofun
  refine ⟨isFive_scene hnone,
    (addConstraintSeeded_follows_iff (isFive_scene hnone) [zeros] ?_ true).2 ?_⟩
  · intro a ha
    rw [mem_singleton.1 ha]
    exact zeros_isSeed hnone
  · intro a ha
    rw [mem_singleton.1 ha]
    -- every byte that is read stays bound
    have hholds : ∀ a : Assignment, (a.byte? cellX.1 cellX.2).isSome →
        MayFollow ⟨false, true⟩ (fun ρ => ∀ c ∈ ([] : List Expr), c.Holds ρ) isFive a →
        isFive.Holds a.valuation := by
      intro a hbyte
      refine (isFive_scene hnone).holds_of_mayFollow ⟨trivial, ⟨trivial, trivial⟩, nofun⟩ ?_
      intro r hr _
      rw [mem_singleton.1 hr]
      exact hbyte
    refine ⟨hholds zeros (by decide), fun _ m _ hmay => ⟨nofun, hholds _ ?_ hmay⟩⟩
    rw [isSome_byte?_withBytes]
    decide

lemma boundReads_isFive : boundReads isFive zeros = [cellX] := by
  have hreads : findDirectReads isFive = [⟨cellX.1, .null, .const (.ofNat 32 0)⟩] := by
    rw [findDirectReads, FindReads.push, if_pos (by decide), FindReads.loopDirect]
    show FindReads.loopDirect ⟨[byteExpr cellX], [byteExpr cellX, isFive], [], []⟩ = _
    rw [FindReads.loopDirect]
    show FindReads.loopDirect ⟨[], _, [], [⟨cellX.1, .null, .const (.ofNat 32 0)⟩]⟩ = _
    rw [FindReads.loopDirect]
  rw [boundReads, directReads, hreads]
  decide

lemma byteAt_of_isFive {m : Valuation} (h : isFive.Holds m) : m.byteAt cellX = 5 := by
  have heval : isFive.eval m =
      .bool (decide (APInt.ofNat 8 5 = APInt.ofNat 8 (m cellX.1 cellX.2))) := BinKind.eq_fold rfl
  rw [Expr.Holds, heval, APInt.bool_inj, decide_eq_true_iff] at h
  have hbits : BitVec.ofNat 8 5 = BitVec.ofNat 8 (m cellX.1 cellX.2) := by
    simpa [APInt.ofNat] using h
  exact hbits.symm

/-- With `x[0] = y[0]` it does not: the first loop sets `x[0]` to `5` and `y[0]` stays `0`. -/
theorem addConstraintSeeded_leaves_path :
    Scene ⟨false, true⟩ [sameByte] (fun ρ => ∀ c ∈ [sameByte], c.Holds ρ) isFive ∧
    IsSeed [sameByte] (fun ρ => ∀ c ∈ [sameByte], c.Holds ρ) isFive zeros ∧
    ∀ solver : SolverImpl, solver.AlwaysExact → ¬ ∃ seeds' constraints',
      Executor.addConstraintSeeded ⟨⟨false, true⟩, solver, true⟩ [zeros] [sameByte] isFive =
        some (seeds', constraints') ∧
      ∀ a ∈ seeds', Follows (fun ρ => ∀ c ∈ [sameByte], c.Holds ρ) isFive a := by
  have hsame : ∀ c ∈ [sameByte], c = sameByte := fun c hc => mem_singleton.1 hc
  have hscene := isFive_scene hsame
  have hseed := zeros_isSeed hsame
  refine ⟨hscene, hseed, fun solver hexact hright => ?_⟩
  obtain ⟨a', ha', hfollows⟩ := (addConstraintSeeded_follows_each
    ⟨⟨false, true⟩, solver, true⟩ hscene rfl [zeros]).1 hright zeros (by simp)
  obtain ⟨m, hnear, -, a'', ha'', hcases⟩ :=
    patchSeed_spec ⟨⟨false, true⟩, solver, true⟩ hexact hscene hseed
  have hbytes : zeros.withBytes m [cellX] = ⟨[(cellX.1, [5]), (cellY.1, [0])]⟩ := by
    rw [withBytes, foldl_cons, foldl_nil, byteAt_of_isFive hnear.solution.2]
    decide
  rw [boundReads_isFive, hbytes] at hcases
  have hfives : ∀ c ∈ [sameByte], c.Holds fun _ _ => 5 := by decide
  have hfalse : zeros.evaluateFree ⟨false, true⟩ isFive = .const (.bool false) := by decide
  have htrue : (⟨[(cellX.1, [5]), (cellY.1, [0])]⟩ : Assignment).evaluateFree ⟨false, true⟩ isFive =
      .const (.bool true) := by decide
  rcases follow_eq ⟨⟨false, true⟩, solver, true⟩ hexact hscene zeros with
    ⟨⟨ρ, -, hρ⟩, -⟩ | ⟨-, hpatch⟩
  · rw [hfalse] at hρ
    exact absurd (APInt.bool_inj.1 hρ) (by decide)
  · obtain rfl := Option.some.inj (ha''.symm.trans (hpatch.symm.trans ha'))
    rcases hcases with ⟨-, rfl⟩ | ⟨hnot, -⟩
    · exact absurd (hfollows.1 sameByte (by simp)) (by decide)
    · exact hnot ⟨_, hfives, by rw [htrue]; rfl⟩

end SeedInfo

end Castan
