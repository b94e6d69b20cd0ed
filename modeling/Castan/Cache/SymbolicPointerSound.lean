/-
# Soundness of the concretization of symbolic pointers

With an exact solver, a call of `memoryOperation` that does not fail constrains the pointer to the
constant it returns and keeps the path satisfiable, and an address that was chosen through a
contention set misses in all of its sets.  The call fails where the search gets to a line whose
constraint contradicts the stored ones in a way that `addConstraint` finds out.
-/
import Castan.Cache.ContentionSetLru
import Castan.Cache.SymbolicPointer
import Castan.Solver.Verdict

namespace Castan

open List
open Std (TreeMap TreeSet)
open ConstraintManager

variable {c : APInt} {a : BitVec 64} {i : ℕ}

/-! ### Reachable cache states -/

/-- What the search relies on: lines are cached in sets they map to, and there is an iteration to
count accesses in. -/
structure CacheModel.Consistent (t : Tables) (s : CacheModel) : Prop where
  maps : ∀ i b, b ∈ s.cache i → t.Maps b i
  stats : s.enabled = true → s.loopStats ≠ []

lemma modifyLast_ne_nil {α : Type*} {f : α → α} {l : List α} (h : l ≠ []) :
    l.modifyLast f ≠ [] := by
  obtain ⟨init, x, rfl⟩ := (eq_nil_or_concat l).resolve_left h
  rw [concat_eq_append, modifyLast_concat]
  simp

lemma CacheLines.mem_of_mem_access {k : ℕ} {m : CacheLines} {b block time : BitVec 64}
    {w : Bool} (h : b ∈ m.access k block time w) : b = block ∨ b ∈ m := by
  rcases eq_or_ne b block with rfl | hb
  · exact Or.inl rfl
  · obtain ⟨e, he⟩ := Option.isSome_iff_exists.mp (TreeMap.mem_iff_isSome_getElem?.mp h)
    refine Or.inr (TreeMap.mem_iff_isSome_getElem?.mpr ?_)
    rw [CacheLines.access_of_ne hb he]
    rfl

lemma CacheModel.Reachable.consistent {t : Tables} {s : CacheModel} (h : Reachable t s) :
    s.Consistent t := by
  induction h with
  | init => exact ⟨fun i b hb => by simp at hb, fun h => absurd h (by simp)⟩
  | @loop s maxLoops _ ih =>
    rw [CacheModel.loop]
    split
    · split
      · exact ih
      · exact ⟨ih.maps, fun _ => by simp⟩
    · exact ⟨ih.maps, fun _ => by simp⟩
  | @exec s _ ih =>
    rw [CacheModel.exec]
    split
    · exact ⟨ih.maps, fun h => modifyLast_ne_nil (ih.stats h)⟩
    · exact ih
  | @countAccess s w _ _ ih => exact ⟨ih.maps, fun h => modifyLast_ne_nil (ih.stats h)⟩
  | @updateCache s a w _ hen ih =>
    obtain ⟨hcache, -, miss, dirtyMiss, hstats, -⟩ := CacheModel.updateCache_eq t s a w
    refine ⟨fun i b hb => ?_, fun _ => ?_⟩
    · rw [hcache] at hb
      split at hb
      · next hmaps =>
        rcases CacheLines.mem_of_mem_access hb with rfl | hb
        · exact hmaps
        · exact ih.maps i b hb
      · exact ih.maps i b hb
    · rw [hstats]
      exact modifyLast_ne_nil (ih.stats hen)

namespace PointerQuery

/-! ### Exact solvers -/

/-- An exact solver for the assignments in `D`: `getValue` fails exactly on unsatisfiable
constraints and otherwise returns the value under some assignment that satisfies them. -/
structure Exact (D : Valuation → Prop) (getValue : List Expr → Expr → Option APInt) : Prop where
  none_iff : ∀ cs e, getValue cs e = none ↔ ∀ ρ, D ρ → ¬ ∀ c ∈ cs, c.Holds ρ
  some_eval : ∀ cs e v, getValue cs e = some v → ∃ ρ, D ρ ∧ (∀ c ∈ cs, c.Holds ρ) ∧ e.eval ρ = v

/-- `getValue` of an exact solver that prefers the values under `σ`. -/
noncomputable def preferring (σ : Valuation) (cs : List Expr) (e : Expr) : Option APInt :=
  (SolverImpl.preferring σ).computeValue ⟨cs, e⟩

lemma exact_preferring (σ : Valuation) : Exact (fun _ => True) (preferring σ) where
  none_iff _ _ := SolverImpl.preferring_eq_none_iff.trans (by simp [Query.MetBy])
  some_eval _ _ _ h := (SolverImpl.preferring_eq_some h).imp fun _ h => ⟨trivial, h⟩

/-- A call as the execution engine makes it.  `D` are the assignments under which the path reads
its constant arrays in bounds. -/
structure WellFormed (D : Valuation → Prop) (q : PointerQuery) : Prop where
  solver : Exact D q.getValue
  constraints : ∀ c ∈ q.constraints, c.IsConstraint
  defined : ∀ ρ, D ρ → ∀ c ∈ q.constraints, c.Defined q.o ρ
  address : q.address.OfWidth 64
  addressDefined : ∀ ρ, D ρ → (∀ c ∈ q.constraints, c.Holds ρ) → q.address.Defined q.o ρ
  sat : ∃ ρ, D ρ ∧ ∀ c ∈ q.constraints, c.Holds ρ

variable {D : Valuation → Prop} {q : PointerQuery}

/-- The path constraints hold under `ρ`, an assignment of `D`. -/
abbrev Path (D : Valuation → Prop) (q : PointerQuery) (ρ : Valuation) : Prop :=
  D ρ ∧ ∀ c ∈ q.constraints, c.Holds ρ

lemma simplified (h : q.WellFormed D) : Visited q.o (fun ρ => ∀ c ∈ q.constraints, c.Holds ρ)
      (simplifyExpr q.o q.constraints q.address) q.address :=
  simplifyExpr_visited h.constraints h.address.typed h.address.canon

lemma simplified_eval (h : q.WellFormed D) {ρ : Valuation} (hρ : q.Path D ρ) :
    (simplifyExpr q.o q.constraints q.address).eval ρ = q.address.eval ρ :=
  (simplified h).refinesOn.evalOn ρ hρ.2 (h.addressDefined ρ hρ.1 hρ.2)

/-- The call after its first statement. -/
lemma WellFormed.simplify (h : q.WellFormed D) :
    WellFormed D { q with address := simplifyExpr q.o q.constraints q.address } where
  solver := h.solver
  constraints := h.constraints
  defined := h.defined
  address :=
    ⟨(simplified h).refinesOn.typed, (simplified h).canon,
      (simplified h).refinesOn.width_eq.trans h.address.width_eq⟩
  addressDefined ρ hD hρ ho :=
    (simplified h).refinesOn.inRangeOn ρ hρ (h.addressDefined ρ hD hρ ho)
  sat := h.sat

/-! ### Constraints on the pointer -/

/-- A constraint with a constant on the left. -/
lemma eqConst_spec {e : Expr} (he : e.OfWidth c.width) (hc : 0 < c.width) :
    (EqExpr.create q.o (.const c) e).IsConstraint ∧
      ∀ ρ, e.Defined q.o ρ → (EqExpr.create q.o (.const c) e).Defined q.o ρ ∧
        ((EqExpr.create q.o (.const c) e).Holds ρ ↔ e.eval ρ = c) := by
  have htyped : (Expr.bin .eq (.const c) e).Typed := ⟨hc, he.typed, he.width_eq.symm⟩
  have href : Refines q.o (EqExpr.create q.o (.const c) e) (.bin .eq (.const c) e) :=
    EqExpr.create_refines htyped
  refine ⟨⟨href.typed, EqExpr.create_canon trivial he.canon, href.width_eq⟩, fun ρ hd => ?_⟩
  have hd' : (Expr.bin .eq (.const c) e).Defined q.o ρ := fun ho => ⟨trivial, hd ho⟩
  refine ⟨fun ho => href.inRange ρ (hd' ho), ?_⟩
  rw [Expr.Holds, href.eval_eq ρ hd', ← Expr.Holds, eq_holds_iff htyped]

/-- The masked pointer. -/
lemma maskedAddress_spec (h : q.WellFormed D) :
    (AndExpr.create (.const (.ofNat q.address.width lineMask.toNat)) q.address).OfWidth 64 ∧
      ∀ ρ, q.Path D ρ →
        (AndExpr.create (.const (.ofNat q.address.width lineMask.toNat)) q.address).Defined q.o ρ ∧
          (AndExpr.create (.const (.ofNat q.address.width lineMask.toNat)) q.address).eval ρ =
            ⟨64, lineMask &&& word (q.address.eval ρ)⟩ := by
  rw [h.address.width_eq]
  have htyped : (Expr.bin .and (.const (.ofNat 64 lineMask.toNat)) q.address).Typed :=
    ⟨Nat.succ_pos _, h.address.typed, h.address.width_eq.symm⟩
  have href : Refines q.o (AndExpr.create (.const (.ofNat 64 lineMask.toNat)) q.address)
      (.bin .and (.const (.ofNat 64 lineMask.toNat)) q.address) := AndExpr.create_refines htyped
  refine ⟨⟨href.typed, AndExpr.create_canon trivial h.address.canon, href.width_eq⟩,
    fun ρ hρ => ?_⟩
  have hd : (Expr.bin .and (.const (.ofNat 64 lineMask.toNat)) q.address).Defined q.o ρ :=
    fun ho => ⟨trivial, h.addressDefined ρ hρ.1 hρ.2 ho⟩
  refine ⟨fun ho => href.inRange ρ (hd ho), ?_⟩
  obtain ⟨x, hx⟩ := Expr.exists_eval_eq h.address.typed h.address.width_eq ρ
  rw [href.eval_eq ρ hd, Expr.eval_bin, hx, Expr.eval, APInt.ofNat, BinKind.fold_mk]
  simp [BinKind.op, word, APInt.toNat]

/-- The page offset of the line of an address. -/
lemma pageAddr_blockAddr (x : BitVec 64) : pageAddr (blockAddr x) = lineMask &&& x := by
  rw [pageAddr, blockAddr, lineMask, BitVec.and_assoc, BitVec.and_comm,
    BitVec.and_comm (~~~(1#64 <<< blockBits - 1))]

lemma lineConstraint_spec (h : q.WellFormed D) (a : BitVec 64) :
    (q.lineConstraint a).IsConstraint ∧ ∀ ρ, q.Path D ρ → (q.lineConstraint a).Defined q.o ρ ∧
        ((q.lineConstraint a).Holds ρ ↔ pageAddr (blockAddr (word (q.address.eval ρ))) = a) := by
  obtain ⟨hmask, hmaskρ⟩ := maskedAddress_spec h
  have hconst : APInt.ofNat q.address.width a.toNat = ⟨64, a⟩ := by
    rw [h.address.width_eq, APInt.ofNat, BitVec.ofNat_toNat, BitVec.setWidth_eq]
  obtain ⟨hcons, hconsρ⟩ := eqConst_spec (q := q) (c := ⟨64, a⟩) hmask (Nat.succ_pos _)
  have hvis := simplifyExpr_visited (o := q.o) h.constraints hcons.typed hcons.canon
  rw [lineConstraint, hconst]
  refine ⟨hvis.isConstraint hcons, fun ρ hρ => ?_⟩
  obtain ⟨hd, heval⟩ := hmaskρ ρ hρ
  obtain ⟨hd', hiff⟩ := hconsρ ρ hd
  refine (hvis.holds_iff hρ.2 hd').imp_right fun hh => ?_
  rw [hh, hiff, heval, pageAddr_blockAddr]
  simp

lemma addConstraint_eq_none_of_clash (hp : q.probe a = .clash) :
    addConstraint q.o q.constraints (q.lineConstraint a) = none := by
  simp only [probe] at hp
  split at hp
  · simp at hp
  · split at hp
    · next hadd => exact hadd
    · split at hp <;> simp at hp

/-- A line that the solver finds a value for: the value is possible and in the line. -/
lemma probe_value (h : q.WellFormed D) (hp : q.probe a = .value c) :
    ∃ ρ, q.Path D ρ ∧ q.address.eval ρ = c ∧ pageAddr (blockAddr (word c)) = a := by
  obtain ⟨hcons, hspec⟩ := lineConstraint_spec h a
  simp only [probe] at hp
  split at hp
  · simp at hp
  · split at hp
    · simp at hp
    · next cs hadd =>
      split at hp
      · simp at hp
      · next c' hv =>
        obtain rfl : c' = c := by simpa using hp
        obtain ⟨ρ, hD, hcs, heval⟩ := h.solver.some_eval _ _ _ hv
        have hiff := addConstraint_holds_iff h.constraints hcons hadd (h.defined ρ hD)
          fun hold => (hspec ρ ⟨hD, hold⟩).1
        obtain ⟨hold, hline⟩ := hiff.mp hcs
        refine ⟨ρ, ⟨hD, hold⟩, heval, ?_⟩
        rw [← heval]
        exact (hspec ρ ⟨hD, hold⟩).2.mp hline

/-- Constraining the pointer to a possible value. -/
lemma pick_spec (h : q.WellFormed D) {ρ₀ : Valuation} (hρ₀ : q.Path D ρ₀)
    (hc : q.address.eval ρ₀ = c) (choice : Choice) :
    ∃ r, q.pick choice c = some r ∧ r.address = c ∧ r.choice = choice ∧
      r.model = q.model.updateCache q.tables (word c) q.isWrite ∧
      ∀ ρ, D ρ → ((∀ x ∈ r.constraints, x.Holds ρ) ↔
        (∀ x ∈ q.constraints, x.Holds ρ) ∧ q.address.eval ρ = c) := by
  have hw : c.width = 64 := by
    rw [← hc, Expr.eval_width ρ₀ h.address.typed, h.address.width_eq]
  obtain ⟨hcons, hspec⟩ := eqConst_spec (q := q) (e := q.address) (c := c)
    (by rw [hw]; exact h.address) (by omega)
  have hd := h.addressDefined ρ₀ hρ₀.1 hρ₀.2
  obtain ⟨cs, hadd⟩ := addConstraint_isSome h.constraints hcons (hspec ρ₀ hd).1
    ((hspec ρ₀ hd).2.mpr hc) fun x hx => ⟨h.defined ρ₀ hρ₀.1 x hx, hρ₀.2 x hx⟩
  refine ⟨_, by rw [pick, hadd]; rfl, rfl, rfl, rfl, fun ρ hD => ?_⟩
  have hiff := addConstraint_holds_iff h.constraints hcons hadd (h.defined ρ hD)
    fun hold => (hspec ρ (h.addressDefined ρ hD hold)).1
  refine hiff.trans (and_congr_right fun hold => ?_)
  exact (hspec ρ (h.addressDefined ρ hD hold)).2

/-! ### The search -/

/-- The line that `a` contributes to the count of its set: it is possible and not cached. -/
def freshBlock (q : PointerQuery) (a : BitVec 64) : Option (BitVec 64) :=
  match q.probe a with
  | .value c => if q.isHit a c then none else some (blockAddr (word c))
  | _ => none

/-- The lines counted before the search looks at `a`: the cached ones and those of `before`. -/
def countBefore (q : PointerQuery) (setIdx : ℕ) (before : List (BitVec 64)) : ℕ :=
  (q.model.cache setIdx).size + (before.filterMap q.freshBlock).length

/-- The search ends at the line `a` of a set whose lines `before` were looked at: it is the last
one that is missing for an eviction, or the solver finds no value and the search gives up. -/
def StopsAt (q : PointerQuery) (setIdx : ℕ) (before : List (BitVec 64)) (a : BitVec 64) : Prop :=
  (q.freshBlock a ≠ none ∧ q.tables.associativity setIdx ≤ q.countBefore setIdx before) ∨
    (q.opts.giveUpOnComplexSymIndices = true ∧ q.probe a = .unsat)

/-- No line of `as`, which stand behind `before`, ends the search. -/
def RunsThrough (q : PointerQuery) (setIdx : ℕ) (before as : List (BitVec 64)) : Prop :=
  ∀ mid a after, as = mid ++ a :: after → ¬ q.StopsAt setIdx (before ++ mid) a

/-- The search gets to a line of `as`, which stand behind `before`, with a clashing constraint. -/
def ClashesIn (q : PointerQuery) (setIdx : ℕ) (before as : List (BitVec 64)) : Prop :=
  ∃ mid a after, as = mid ++ a :: after ∧ q.probe a = .clash ∧ q.RunsThrough setIdx before mid

section Lines

variable {i : ℕ} {before as : List (BitVec 64)} {a : BitVec 64} {b : Backup} {c : APInt}

lemma runsThrough_nil : q.RunsThrough i before [] :=
  fun _ _ _ h => by simp at h

lemma runsThrough_cons : q.RunsThrough i before (a :: as) ↔
      ¬ q.StopsAt i before a ∧ q.RunsThrough i (before ++ [a]) as := by
  constructor
  · intro h
    refine ⟨by simpa using h [] a as rfl, fun mid x after has => ?_⟩
    simpa using h (a :: mid) x after (by rw [has]; rfl)
  · rintro ⟨ha, h⟩ mid x after has
    rcases cons_eq_append_iff.mp has with ⟨rfl, hx⟩ | ⟨mid', rfl, has'⟩
    · obtain ⟨rfl, -⟩ := List.cons.inj hx
      simpa using ha
    · simpa using h mid' x after has'

lemma not_clashesIn_nil : ¬ q.ClashesIn i before [] := by
  rintro ⟨mid, a, after, h, -⟩
  simp at h

lemma clashesIn_cons : q.ClashesIn i before (a :: as) ↔
      q.probe a = .clash ∨ ¬ q.StopsAt i before a ∧ q.ClashesIn i (before ++ [a]) as := by
  constructor
  · rintro ⟨mid, x, after, has, hclash, hruns⟩
    rcases cons_eq_append_iff.mp has with ⟨rfl, hx⟩ | ⟨mid', rfl, has'⟩
    · obtain ⟨rfl, -⟩ := List.cons.inj hx
      exact Or.inl hclash
    · obtain ⟨hstop, hrest⟩ := runsThrough_cons.mp hruns
      exact Or.inr ⟨hstop, mid', x, after, has', hclash, hrest⟩
  · rintro (hclash | ⟨hstop, mid, x, after, rfl, hclash, hruns⟩)
    · exact ⟨[], a, as, rfl, hclash, runsThrough_nil⟩
    · exact ⟨a :: mid, x, after, rfl, hclash, runsThrough_cons.mpr ⟨hstop, hruns⟩⟩

lemma countBefore_concat : q.countBefore i (before ++ [a]) =
      q.countBefore i before + (q.freshBlock a).toList.length := by
  rw [countBefore, countBefore, filterMap_append, length_append, Nat.add_assoc]
  cases h : q.freshBlock a <;> simp [h]

/-- One iteration of the loop over the lines. -/
lemma tryLines_cons (q : PointerQuery) (i : ℕ) (before as : List (BitVec 64)) (a : BitVec 64)
    (b : Backup) :
    (q.probe a = .clash ∧ q.tryLines (q.tables.associativity i) (a :: as)
        (q.countBefore i before) b = none) ∨
    (∃ c, q.probe a = .value c ∧ q.isHit a c = false ∧ q.StopsAt i before a ∧
      q.tables.associativity i ≤ q.countBefore i before ∧
      q.tryLines (q.tables.associativity i) (a :: as) (q.countBefore i before) b =
        some (.found c)) ∨
    (q.probe a ≠ .clash ∧ q.StopsAt i before a ∧
      q.tryLines (q.tables.associativity i) (a :: as) (q.countBefore i before) b =
        some (.giveup b)) ∨
    (q.probe a ≠ .clash ∧ ¬ q.StopsAt i before a ∧
      ∃ b', (b' = b ∨ ∃ c, q.probe a = .value c ∧ q.isHit a c = false ∧ b'.address = some c) ∧
        q.tryLines (q.tables.associativity i) (a :: as) (q.countBefore i before) b =
          q.tryLines (q.tables.associativity i) as (q.countBefore i (before ++ [a])) b') := by
  rw [countBefore_concat, tryLines]
  cases hp : q.probe a with
  | clash => exact Or.inl ⟨rfl, rfl⟩
  | triviallyUnsat =>
    have hfresh : q.freshBlock a = none := by rw [freshBlock, hp]
    refine Or.inr (Or.inr (Or.inr ⟨by simp, ?_, b, Or.inl rfl, by simp [hfresh]⟩))
    simp [StopsAt, hfresh, hp]
  | unsat =>
    have hfresh : q.freshBlock a = none := by rw [freshBlock, hp]
    cases hg : q.opts.giveUpOnComplexSymIndices with
    | true => exact Or.inr (Or.inr (Or.inl ⟨by simp, Or.inr ⟨hg, hp⟩, rfl⟩))
    | false =>
      refine Or.inr (Or.inr (Or.inr ⟨by simp, ?_, b, Or.inl rfl, by simp [hfresh]⟩))
      simp [StopsAt, hfresh, hg]
  | value c =>
    cases hhit : q.isHit a c with
    | true =>
      have hfresh : q.freshBlock a = none := by simp [freshBlock, hp, hhit]
      refine Or.inr (Or.inr (Or.inr ⟨by simp, ?_, b, Or.inl rfl, by simp [hfresh, hhit]⟩))
      simp [StopsAt, hfresh, hp]
    | false =>
      have hfresh : q.freshBlock a = some (blockAddr (word c)) := by simp [freshBlock, hp, hhit]
      by_cases hk : q.tables.associativity i ≤ q.countBefore i before
      · refine Or.inr (Or.inl ⟨c, rfl, hhit, Or.inl ⟨by simp [hfresh], hk⟩, hk, ?_⟩)
        simp [hhit, Nat.lt_succ_of_le hk]
      · have hstop : ¬ q.StopsAt i before a := by simp [StopsAt, hfresh, hp, hk]
        by_cases hbackup : q.countBefore i before + 1 > b.hits
        · refine Or.inr (Or.inr (Or.inr ⟨by simp, hstop,
            ⟨q.countBefore i before + 1, some c⟩, Or.inr ⟨c, rfl, hhit, rfl⟩, ?_⟩))
          simp only [hhit, Bool.false_eq_true, if_false, hfresh, Option.toList_some,
            length_singleton]
          rw [if_neg (by omega), if_pos hbackup]
        · refine Or.inr (Or.inr (Or.inr ⟨by simp, hstop, b, Or.inl rfl, ?_⟩))
          simp only [hhit, Bool.false_eq_true, if_false, hfresh, Option.toList_some,
            length_singleton]
          rw [if_neg (by omega), if_neg hbackup]

/-- An assertion fails in a set if the search gets to a clashing line there. -/
lemma tryLines_eq_none_iff :
    q.tryLines (q.tables.associativity i) as (q.countBefore i before) b = none ↔
      q.ClashesIn i before as := by
  induction as generalizing before b with
  | nil => simp [tryLines, not_clashesIn_nil]
  | cons a as ih =>
    rw [clashesIn_cons]
    rcases tryLines_cons q i before as a b with ⟨hp, heq⟩ | ⟨c, hp, -, hstop, -, heq⟩ |
      ⟨hp, hstop, heq⟩ | ⟨hp, hstop, b', -, heq⟩
    · simp [heq, hp]
    · simp [heq, hp, hstop]
    · simp [heq, hp, hstop]
    · rw [heq, ih]
      simp [hp, hstop]

/-- The loop goes through a set without clashes if no line ends the search. -/
lemma tryLines_done_iff (hclash : ¬ q.ClashesIn i before as) :
    (∃ b', q.tryLines (q.tables.associativity i) as (q.countBefore i before) b =
        some (.done b')) ↔ q.RunsThrough i before as := by
  induction as generalizing before b with
  | nil => simp [tryLines, runsThrough_nil]
  | cons a as ih =>
    rw [clashesIn_cons, not_or] at hclash
    rw [runsThrough_cons]
    rcases tryLines_cons q i before as a b with ⟨hp, -⟩ | ⟨c, hp, -, hstop, -, heq⟩ |
      ⟨hp, hstop, heq⟩ | ⟨hp, hstop, b', -, heq⟩
    · exact absurd hp hclash.1
    · simp [heq, hstop]
    · simp [heq, hstop]
    · rw [heq, ih fun h => hclash.2 ⟨hstop, h⟩]
      simp [hstop]

/-- A full match: with the line that was found there are more lines than ways. -/
lemma tryLines_found
    (h : q.tryLines (q.tables.associativity i) as (q.countBefore i before) b = some (.found c)) :
    ∃ mid a after, as = mid ++ a :: after ∧ q.probe a = .value c ∧ q.isHit a c = false ∧
      q.tables.associativity i ≤ q.countBefore i (before ++ mid) := by
  induction as generalizing before b with
  | nil => simp [tryLines] at h
  | cons a as ih =>
    rcases tryLines_cons q i before as a b with ⟨-, heq⟩ | ⟨c', hp, hhit, -, hk, heq⟩ |
      ⟨-, -, heq⟩ | ⟨-, -, b', -, heq⟩
    · simp [heq] at h
    · obtain rfl : c' = c := by simpa [heq] using h
      exact ⟨[], a, as, rfl, hp, hhit, by simpa using hk⟩
    · simp [heq] at h
    · obtain ⟨mid, x, after, rfl, hp, hhit, hk⟩ := ih (heq ▸ h)
      exact ⟨a :: mid, x, after, rfl, hp, hhit, by simpa using hk⟩

/-- The backup address comes from a line that is possible and not cached. -/
def BackupOk (q : PointerQuery) (b : Backup) : Prop :=
  ∀ c, b.address = some c → ∃ i a, a ∈ q.lines i ∧ q.probe a = .value c ∧ q.isHit a c = false

lemma tryLines_backupOk (before : List (BitVec 64)) (b' : Backup) (hb : q.BackupOk b)
    (hlines : ∀ a ∈ as, a ∈ q.lines i)
    (h : q.tryLines (q.tables.associativity i) as (q.countBefore i before) b = some (.giveup b') ∨
      q.tryLines (q.tables.associativity i) as (q.countBefore i before) b = some (.done b')) :
    q.BackupOk b' := by
  induction as generalizing before b with
  | nil =>
    obtain rfl : b = b' := by simpa [tryLines] using h
    exact hb
  | cons a as ih =>
    rcases tryLines_cons q i before as a b with ⟨-, heq⟩ | ⟨c', hp, hhit, -, hk, heq⟩ |
      ⟨-, -, heq⟩ | ⟨-, -, b₁, hb₁, heq⟩
    · simp [heq] at h
    · simp [heq] at h
    · obtain rfl : b = b' := by simpa [heq] using h
      exact hb
    · refine ih (before ++ [a]) ?_ (fun x hx => hlines x (mem_cons_of_mem _ hx)) (heq ▸ h)
      rcases hb₁ with rfl | ⟨c', hp, hhit, hc'⟩
      · exact hb
      · intro c hc
        obtain rfl : c' = c := by simpa [hc'] using hc
        exact ⟨i, a, hlines a mem_cons_self, hp, hhit⟩

end Lines

lemma countBefore_nil (q : PointerQuery) (i : ℕ) :
    (q.model.cache i).size = q.countBefore i [] := rfl

/-- The loop over the sets gets to a clashing line. -/
def ClashesInSets (q : PointerQuery) (sets : List ℕ) : Prop :=
  ∃ before i after, sets = before ++ i :: after ∧
    (∀ j ∈ before, q.RunsThrough j [] (q.lines j)) ∧ q.ClashesIn i [] (q.lines i)

lemma clashesInSets_cons {sets : List ℕ} : q.ClashesInSets (i :: sets) ↔
      q.ClashesIn i [] (q.lines i) ∨ q.RunsThrough i [] (q.lines i) ∧ q.ClashesInSets sets := by
  constructor
  · rintro ⟨before, j, after, heq, hruns, hclash⟩
    rcases cons_eq_append_iff.mp heq with ⟨rfl, hj⟩ | ⟨before', rfl, heq'⟩
    · obtain ⟨rfl, -⟩ := List.cons.inj hj
      exact Or.inl hclash
    · rw [forall_mem_cons] at hruns
      exact Or.inr ⟨hruns.1, before', j, after, heq', hruns.2, hclash⟩
  · rintro (hclash | ⟨hrun, before, j, after, rfl, hruns, hclash⟩)
    · exact ⟨[], i, sets, rfl, by simp, hclash⟩
    · exact ⟨i :: before, j, after, rfl, forall_mem_cons.mpr ⟨hrun, hruns⟩, hclash⟩

lemma trySets_eq_none_iff {sets : List ℕ} {b : Backup} :
    q.trySets sets b = none ↔ q.ClashesInSets sets := by
  induction sets generalizing b with
  | nil => simp [trySets, ClashesInSets]
  | cons i sets ih =>
    rw [clashesInSets_cons, trySets, countBefore_nil]
    by_cases hclash : q.ClashesIn i [] (q.lines i)
    · rw [tryLines_eq_none_iff.mpr hclash]
      simp [hclash]
    · have hnone : q.tryLines (q.tables.associativity i) (q.lines i) (q.countBefore i []) b ≠
          none := fun h => hclash (tryLines_eq_none_iff.mp h)
      have hdone := tryLines_done_iff (b := b) hclash
      cases hres : q.tryLines (q.tables.associativity i) (q.lines i) (q.countBefore i []) b with
      | none => exact absurd hres hnone
      | some r =>
        cases r with
        | found c =>
          rw [hres] at hdone
          simp [hclash, ← hdone]
        | giveup b' =>
          rw [hres] at hdone
          simp [hclash, ← hdone]
        | done b' =>
          rw [ih]
          simp [hclash, hdone.mp ⟨b', hres⟩]

/-- What the search returns: the last line of an eviction, or a backup. -/
lemma trySets_spec (sets : List ℕ) {b : Backup} (hb : q.BackupOk b) :
    (∀ i c, q.trySets sets b = some (.found i c) →
      ∃ before a after, q.lines i = before ++ a :: after ∧ q.probe a = .value c ∧
        q.isHit a c = false ∧ q.tables.associativity i ≤ q.countBefore i before) ∧
    ∀ c, q.trySets sets b = some (.notFound (some c)) →
      ∃ i a, a ∈ q.lines i ∧ q.probe a = .value c ∧ q.isHit a c = false := by
  induction sets generalizing b with
  | nil =>
    refine ⟨fun i c h => by simp [trySets] at h, fun c h => hb c ?_⟩
    simpa [trySets] using h
  | cons j sets ih =>
    rw [trySets, countBefore_nil]
    have hbackup := fun b' => tryLines_backupOk (i := j) [] b' hb fun a ha => ha
    cases hres : q.tryLines (q.tables.associativity j) (q.lines j) (q.countBefore j []) b with
    | none => exact ⟨fun i c h => by simp at h, fun c h => by simp at h⟩
    | some r =>
      cases r with
      | found c' =>
        refine ⟨fun i c h => ?_, fun c h => by simp at h⟩
        obtain ⟨rfl, rfl⟩ : j = i ∧ c' = c := by simpa using h
        obtain ⟨before, a, after, hl, hp, hhit, hk⟩ := tryLines_found hres
        exact ⟨before, a, after, hl, hp, hhit, by simpa using hk⟩
      | giveup b' =>
        refine ⟨fun i c h => by simp at h, fun c h => hbackup b' (Or.inl hres) c ?_⟩
        simpa using h
      | done b' => exact ih (hbackup b' (Or.inr hres))

lemma setCosts_isEmpty : q.setCosts.isEmpty = true ↔ q.tables.contentionSets = [] := by
  rw [setCosts]
  rcases eq_nil_or_concat q.tables.contentionSets with h | ⟨init, x, h⟩
  · simp [h]
  · rw [h, concat_eq_append, length_append, length_singleton, range_succ, foldl_append]
    simp

/-! ### Lines that are found -/

lemma mem_lines_iff : a ∈ q.lines i ↔ InSet q.tables.contentionSets a i := by
  rw [lines, InSet]
  constructor
  · intro h
    cases hs : q.tables.contentionSets[i]? with
    | none => simp [hs] at h
    | some s => exact ⟨i, s, rfl, hs, by simpa [hs] using h⟩
  · rintro ⟨n, s, hn, hs, ha⟩
    obtain rfl : i = n := by exact_mod_cast hn
    simpa [hs] using ha

lemma nodup_lines (q : PointerQuery) (i : ℕ) : (q.lines i).Nodup := by
  rw [lines]
  cases q.tables.contentionSets[i]? with
  | none => exact nodup_nil
  | some s =>
    refine s.sorted.imp fun {x y} hxy hne => ?_
    rw [hne] at hxy
    exact lt_irrefl _ hxy

/-- A line of the table that is possible and passes the test for hits is in none of the sets its
address maps to. -/
lemma miss_of_not_isHit (h : q.WellFormed D)
    (ha : a ∈ q.lines i) (hp : q.probe a = .value c) (hhit : q.isHit a c = false) :
    ∀ j, q.tables.Maps (blockAddr (word c)) j → blockAddr (word c) ∉ q.model.cache j := by
  obtain ⟨ρ, -, -, hpage⟩ := probe_value h hp
  intro j hmaps hcached
  rw [Tables.Maps, hpage] at hmaps
  rcases hmaps with hin | ⟨-, hnone⟩
  · have hj := (q.tables.indexes.mem_iff a j).mpr hin
    refine absurd (any_eq_true.mpr ⟨j, TreeSet.mem_toList.mpr hj, ?_⟩)
      (ne_of_eq_of_ne hhit Bool.false_ne_true)
    exact TreeMap.contains_iff_mem.mpr hcached
  · exact hnone i (mem_lines_iff.mp ha)

lemma freshBlock_spec (h : q.WellFormed D) {b : BitVec 64} (ha : a ∈ q.lines i)
    (hb : q.freshBlock a = some b) :
    pageAddr b = a ∧ q.tables.Maps b i ∧ b ∉ q.model.cache i ∧
      ∃ ρ, q.Path D ρ ∧ blockAddr (word (q.address.eval ρ)) = b := by
  rw [freshBlock] at hb
  split at hb
  · next c hp =>
    split at hb
    · simp at hb
    · next hhit =>
      obtain rfl : blockAddr (word c) = b := by simpa using hb
      obtain ⟨ρ, hρ, heval, hpage⟩ := probe_value h hp
      have hmaps : q.tables.Maps (blockAddr (word c)) i := Or.inl (by
        rw [hpage]
        exact mem_lines_iff.mp ha)
      exact ⟨hpage, hmaps, miss_of_not_isHit h ha hp (by simpa using hhit) i hmaps, ρ, hρ,
        by rw [heval]⟩
  · simp at hb

/-- The lines that were counted for a full match. -/
lemma exists_blocks (h : q.WellFormed D) (hs : q.model.Consistent q.tables)
    {before after : List (BitVec 64)}
    (hl : q.lines i = before ++ a :: after) (hp : q.probe a = .value c)
    (hhit : q.isHit a c = false)
    (hk : q.tables.associativity i ≤ q.countBefore i before) :
    ∃ blocks : List (BitVec 64), blocks.Nodup ∧ q.tables.associativity i + 1 ≤ blocks.length ∧
      ∀ b ∈ blocks, q.tables.Maps b i ∧ (b ∈ q.model.cache i ∨
        ∃ ρ, q.Path D ρ ∧ blockAddr (word (q.address.eval ρ)) = b) := by
  have hfresh : q.freshBlock a = some (blockAddr (word c)) := by simp [freshBlock, hp, hhit]
  have hsub : (before ++ [a]).Sublist (q.lines i) := by
    rw [hl, append_cons before a after]
    exact sublist_append_left _ _
  have hline : ∀ b ∈ (before ++ [a]).filterMap q.freshBlock,
      ∃ x ∈ q.lines i, q.freshBlock x = some b := fun b hb => by
    obtain ⟨x, hx, hxb⟩ := mem_filterMap.mp hb
    exact ⟨x, hsub.subset hx, hxb⟩
  refine ⟨(q.model.cache i).keys ++ (before ++ [a]).filterMap q.freshBlock,
    nodup_append.mpr ⟨?_, ?_, ?_⟩, ?_, fun b hb => ?_⟩
  · have := (q.model.cache i).distinct_keys
    simpa [List.Nodup, Std.compare_eq_iff_eq] using this
  · -- distinct lines have distinct page offsets
    have hpages : ∀ x ∈ before ++ [a], ∀ b, q.freshBlock x = some b → pageAddr b = x :=
      fun x hx b hb => (freshBlock_spec h (hsub.subset hx) hb).1
    refine List.Pairwise.filterMap _ ?_ (List.Pairwise.and_mem.mp ((q.nodup_lines i).sublist hsub))
    rintro x y ⟨hx, hy, hxy⟩ b hb b' hb' rfl
    exact hxy ((hpages x hx b hb).symm.trans (hpages y hy b hb'))
  · rintro b hb b' hb' rfl
    obtain ⟨x, hx, hxb⟩ := hline b hb'
    exact (freshBlock_spec h hx hxb).2.2.1 (TreeMap.mem_keys.mp hb)
  · rw [length_append, TreeMap.length_keys, filterMap_append, length_append]
    rw [countBefore] at hk
    simp only [filterMap_cons, hfresh, filterMap_nil, length_singleton]
    omega
  · rcases mem_append.mp hb with hb | hb
    · have hcached := TreeMap.mem_keys.mp hb
      exact ⟨hs.maps i b hcached, Or.inl hcached⟩
    · obtain ⟨x, hx, hxb⟩ := hline b hb
      obtain ⟨-, hmaps, -, hfeasible⟩ := freshBlock_spec h hx hxb
      exact ⟨hmaps, Or.inr hfeasible⟩

/-! ### The whole call -/

/-- What a call should give: a constant that the pointer is constrained to on a path that stays
satisfiable.  If it was chosen through a contention set then the access that follows misses in
all sets of the address, and after a full match the chosen set has more lines that are cached or
possible than it has ways. -/
structure SoundResult (D : Valuation → Prop) (q : PointerQuery) (r : PointerResult) : Prop where
  width_eq : r.address.width = 64
  holds_iff : ∀ ρ, D ρ → ((∀ x ∈ r.constraints, x.Holds ρ) ↔
    (∀ x ∈ q.constraints, x.Holds ρ) ∧ q.address.eval ρ = r.address)
  sat : ∃ ρ, D ρ ∧ ∀ x ∈ r.constraints, x.Holds ρ
  model_eq : r.model = q.model.updateCache q.tables (word r.address) q.isWrite
  miss : (r.choice = .backup ∨ ∃ i, r.choice = .fullMatch i) →
    (∀ i, q.tables.Maps (blockAddr (word r.address)) i →
      blockAddr (word r.address) ∉ q.model.cache i) ∧
    ∃ init st n, q.model.loopStats = init ++ [st] ∧ (n = 1 ∨ n = 2) ∧
      r.model.loopStats = init ++ [{ st with missCount := st.missCount + n }]
  evicts : ∀ i, r.choice = .fullMatch i → ∃ blocks : List (BitVec 64), blocks.Nodup ∧
    q.tables.associativity i + 1 ≤ blocks.length ∧
    ∀ b ∈ blocks, q.tables.Maps b i ∧ (b ∈ q.model.cache i ∨
      ∃ ρ, q.Path D ρ ∧ blockAddr (word (q.address.eval ρ)) = b)

/-- An access whose line is in none of its sets counts as a miss, or as two if a dirty line is
written out. -/
lemma updateCache_miss {t : Tables} {s : CacheModel} (hstats : s.loopStats ≠ []) {x : BitVec 64}
    (hmiss : ∀ i, t.Maps (blockAddr x) i → blockAddr x ∉ s.cache i) (w : Bool) :
    ∃ init st n, s.loopStats = init ++ [st] ∧ (n = 1 ∨ n = 2) ∧
      (s.updateCache t x w).loopStats = init ++ [{ st with missCount := st.missCount + n }] := by
  obtain ⟨-, -, miss, dirtyMiss, hstep, hm, -⟩ := CacheModel.updateCache_eq t s x w
  obtain rfl : miss = true := hm.mpr hmiss
  obtain ⟨init, st, hinit⟩ := (eq_nil_or_concat s.loopStats).resolve_left hstats
  rw [concat_eq_append] at hinit
  refine ⟨init, st, if dirtyMiss then 2 else 1, hinit, by cases dirtyMiss <;> simp, ?_⟩
  rw [hstep, hinit, modifyLast_concat]
  cases dirtyMiss with
  | true => simp [CacheModel.count, BitVec.add_assoc]
  | false => simp [CacheModel.count]

/-- A pick of a possible value.  The search justifies how it was chosen. -/
lemma soundResult_pick (h : q.WellFormed D) (hstats : q.model.loopStats ≠ [])
    (choice : Choice) (hc : ∃ ρ, q.Path D ρ ∧ q.address.eval ρ = c)
    (hmiss : (choice = .backup ∨ ∃ i, choice = .fullMatch i) →
      ∀ i, q.tables.Maps (blockAddr (word c)) i → blockAddr (word c) ∉ q.model.cache i)
    (hevicts : ∀ i, choice = .fullMatch i → ∃ blocks : List (BitVec 64), blocks.Nodup ∧
      q.tables.associativity i + 1 ≤ blocks.length ∧
      ∀ b ∈ blocks, q.tables.Maps b i ∧ (b ∈ q.model.cache i ∨
        ∃ ρ, q.Path D ρ ∧ blockAddr (word (q.address.eval ρ)) = b)) :
    ∃ r, q.pick choice c = some r ∧ SoundResult D q r := by
  obtain ⟨ρ, hρ, heval⟩ := hc
  obtain ⟨r, hr, rfl, rfl, hmodel, hiff⟩ := pick_spec h hρ heval choice
  refine ⟨r, hr, ?_, hiff, ⟨ρ, hρ.1, (hiff ρ hρ.1).mpr ⟨hρ.2, heval⟩⟩, hmodel, fun hch => ?_,
    hevicts⟩
  · rw [← heval, Expr.eval_width ρ h.address.typed, h.address.width_eq]
  · rw [hmodel]
    exact ⟨hmiss hch, updateCache_miss hstats (hmiss hch) _⟩

lemma timingGetValue_spec (h : q.WellFormed D) :
    ∃ c, timingGetValue q.o q.simplifyExprs q.getValue q.constraints q.address = some c ∧
      ∃ ρ, q.Path D ρ ∧ q.address.eval ρ = c := by
  obtain ⟨ρ₀, hρ₀⟩ := h.sat
  rw [timingGetValue]
  set e := if q.simplifyExprs then simplifyExpr q.o q.constraints q.address else q.address with he
  have heval : ∀ ρ, q.Path D ρ → e.eval ρ = q.address.eval ρ := fun ρ hρ => by
    by_cases hs : q.simplifyExprs = true
    · rw [show e = simplifyExpr q.o q.constraints q.address from he.trans (if_pos hs),
        simplified_eval h hρ]
    · rw [show e = q.address from he.trans (if_neg hs)]
  cases hc : e.constant? with
  | some c =>
    refine ⟨c, rfl, ρ₀, hρ₀, ?_⟩
    rw [← heval ρ₀ hρ₀, Expr.constant?_eq_some.mp hc, Expr.eval]
  | none =>
    cases hv : q.getValue q.constraints e with
    | none => exact absurd hρ₀.2 ((h.solver.none_iff _ _).mp hv ρ₀ hρ₀.1)
    | some c =>
      obtain ⟨ρ, hD, hcs, hev⟩ := h.solver.some_eval _ _ _ hv
      exact ⟨c, rfl, ρ, ⟨hD, hcs⟩, (heval ρ ⟨hD, hcs⟩).symm.trans hev⟩

lemma search_eq_none_iff (hworst : q.opts.worstCaseSymIndices = true) :
    q.search = none ↔ q.tables.contentionSets = [] ∨ q.ClashesInSets q.searchOrder := by
  rw [search, if_pos hworst, ← setCosts_isEmpty, ← trySets_eq_none_iff (b := {})]
  by_cases he : q.setCosts.isEmpty = true <;> simp [he]

/-- The call for a pointer that is not a constant. -/
lemma concretize_sound (h : q.WellFormed D) (hs : q.model.Consistent q.tables)
    (hen : q.model.enabled = true) (hworst : q.opts.worstCaseSymIndices = true)
    (hterm : q.opts.terminateOnUNSAT = false) (hsome : q.search ≠ none) :
    ∃ r, q.concretize = some (some r) ∧ SoundResult D q r := by
  have hstats := hs.stats hen
  have hspec := trySets_spec (q := q) q.searchOrder (b := {}) fun c hc => by simp at hc
  have hrun : q.search = q.trySets q.searchOrder {} := by
    rw [search, if_pos hworst] at hsome ⊢
    split_ifs at hsome ⊢ with he
    · exact absurd rfl hsome
    · rfl
  rw [← hrun] at hspec
  rw [concretize]
  cases hres : q.search with
  | none => exact absurd hres hsome
  | some res =>
    cases res with
    | found i c =>
      obtain ⟨before, a, after, hl, hp, hhit, hk⟩ := hspec.1 i c hres
      obtain ⟨ρ, hρ, heval, -⟩ := probe_value h hp
      have ha : a ∈ q.lines i := by
        rw [hl]
        simp
      obtain ⟨r, hr, hsound⟩ := soundResult_pick h hstats (.fullMatch i) ⟨ρ, hρ, heval⟩
        (fun _ => miss_of_not_isHit h ha hp hhit) fun j hj => by
          obtain rfl : i = j := by simpa using hj
          exact exists_blocks h hs hl hp hhit hk
      exact ⟨r, by simp [hr], hsound⟩
    | notFound backup =>
      simp only [hterm, Bool.false_eq_true, if_false]
      cases backup with
      | some c =>
        obtain ⟨i, a, ha, hp, hhit⟩ := hspec.2 c hres
        obtain ⟨ρ, hρ, heval, -⟩ := probe_value h hp
        obtain ⟨r, hr, hsound⟩ := soundResult_pick h hstats .backup ⟨ρ, hρ, heval⟩
          (fun _ => miss_of_not_isHit h ha hp hhit) (by simp)
        exact ⟨r, by simp [hr], hsound⟩
      | none =>
        obtain ⟨c, hc, hpath⟩ := timingGetValue_spec h
        obtain ⟨r, hr, hsound⟩ := soundResult_pick h hstats .anyValue hpath (by simp) (by simp)
        exact ⟨r, by simp [hc, hr], hsound⟩

/-- A result for the simplified pointer is one for the pointer. -/
lemma SoundResult.of_simplified (h : q.WellFormed D) {r : PointerResult}
    (hr : SoundResult D { q with address := simplifyExpr q.o q.constraints q.address } r) :
    SoundResult D q r where
  width_eq := hr.width_eq
  holds_iff ρ hD := by
    refine (hr.holds_iff ρ hD).trans (and_congr_right fun hold => ?_)
    rw [simplified_eval h ⟨hD, hold⟩]
  sat := hr.sat
  model_eq := hr.model_eq
  miss := hr.miss
  evicts i hi := by
    obtain ⟨blocks, hnodup, hlen, hblocks⟩ := hr.evicts i hi
    refine ⟨blocks, hnodup, hlen, fun b hb => (hblocks b hb).imp_right (Or.imp_right ?_)⟩
    rintro ⟨ρ, hρ, heval⟩
    exact ⟨ρ, hρ, by rw [← heval, simplified_eval h hρ]⟩

/-- Concretization is sound exactly where it does not fail.  For every satisfiable path, every
reachable cache state and every 64-bit pointer, `memoryOperation` with an exact solver returns a
sound result if and only if the pointer simplifies to a constant, or the table is not empty and the
search does not get to a line whose constraint clashes with the stored ones. -/
theorem memoryOperation_sound_iff (D : Valuation → Prop) (q : PointerQuery) (h : q.WellFormed D)
    (hs : CacheModel.Reachable q.tables q.model) (hen : q.model.enabled = true)
    (hworst : q.opts.worstCaseSymIndices = true) (hterm : q.opts.terminateOnUNSAT = false) :
    (∃ r, q.memoryOperation = some (some r) ∧ SoundResult D q r) ↔
      (simplifyExpr q.o q.constraints q.address).isConst = true ∨ q.tables.contentionSets ≠ [] ∧
          ¬ ClashesInSets { q with address := simplifyExpr q.o q.constraints q.address }
            (searchOrder q) := by
  have hsimp := h.simplify
  have hsearch := search_eq_none_iff
    (q := { q with address := simplifyExpr q.o q.constraints q.address }) hworst
  cases hc : (simplifyExpr q.o q.constraints q.address).constant? with
  | some c =>
    have haddr : simplifyExpr q.o q.constraints q.address = .const c :=
      Expr.constant?_eq_some.mp hc
    have heval : ∀ ρ, q.Path D ρ → q.address.eval ρ = c := fun ρ hρ => by
      rw [← simplified_eval h hρ, haddr, Expr.eval]
    rw [memoryOperation]
    simp only [hc]
    refine iff_of_true ⟨_, rfl, ?_⟩ (Or.inl (by rw [haddr]; rfl))
    obtain ⟨ρ, hρ⟩ := h.sat
    exact
      { width_eq := by
          rw [← heval ρ hρ, Expr.eval_width ρ h.address.typed, h.address.width_eq]
        holds_iff := fun ρ hD => ⟨fun hold => ⟨hold, heval ρ ⟨hD, hold⟩⟩, fun hold => hold.1⟩
        sat := ⟨ρ, hρ⟩
        model_eq := rfl
        miss := by simp
        evicts := by simp }
  | none =>
    have hconst : (simplifyExpr q.o q.constraints q.address).isConst = false := by
      rw [Expr.isConst, hc]
      rfl
    rw [memoryOperation]
    simp only [hc, hconst, Bool.false_eq_true, false_or]
    constructor
    · rintro ⟨r, hr, -⟩
      rw [ne_eq, ← not_or]
      intro hfail
      rw [concretize, hsearch.mpr hfail] at hr
      simp at hr
    · rintro ⟨hne, hclash⟩
      obtain ⟨r, hr, hsound⟩ := concretize_sound hsimp hs.consistent hen hworst hterm
        fun hnone => (hsearch.mp hnone).elim hne hclash
      exact ⟨r, hr, hsound.of_simplified h⟩

/-! ### A call that succeeds and one that fails -/

/-- A pointer to one of the first 256 bytes, for a table with one line in one set. -/
noncomputable def bytePointer (constraints : List Expr) : PointerQuery where
  o := ⟨false, true⟩
  opts := ⟨true, false, false⟩
  getValue := preferring fun _ _ => 0
  simplifyExprs := true
  rand := fun _ => 0
  tables := Tables.empty.load [⟨[64], 1, sorted_line, Nat.one_pos⟩]
  model := (CacheModel.loop 1 {}).2
  constraints := constraints
  address := .zExt byteX 64
  isWrite := false

lemma bytePointer_wellFormed {cs : List Expr} (hcs : ∀ c ∈ cs, c.IsConstraint)
    (hsat : ∃ ρ, ∀ c ∈ cs, c.Holds ρ) : (bytePointer cs).WellFormed fun _ => True where
  solver := exact_preferring _
  constraints := hcs
  defined _ _ _ _ ho := absurd ho (by simp [bytePointer])
  address := ⟨⟨byteX_typed, by decide⟩, ⟨⟨trivial, trivial⟩, rfl⟩, rfl⟩
  addressDefined _ _ _ ho := absurd ho (by simp [bytePointer])
  sat := hsat.imp fun _ h => ⟨trivial, h⟩

lemma bytePointer_reachable (cs : List Expr) :
    CacheModel.Reachable (bytePointer cs).tables (bytePointer cs).model :=
  .loop 1 .init

theorem memoryOperation_sound_iff_unconstrained :
    ∃ r, (bytePointer []).memoryOperation = some (some r) ∧
      SoundResult (fun _ => True) (bytePointer []) r := by
  refine (memoryOperation_sound_iff _ (bytePointer [])
    (bytePointer_wellFormed (by simp) ⟨fun _ _ => 0, by simp⟩) (bytePointer_reachable []) rfl rfl
    rfl).mpr (Or.inr ⟨by simp [bytePointer, Tables.load], ?_⟩)
  rw [show (bytePointer []).searchOrder = [0] by decide +kernel, clashesInSets_cons]
  rintro (⟨mid, a, after, hl, hp, -⟩ | ⟨-, before, i, after, h, -⟩)
  · obtain ⟨rfl, rfl, rfl⟩ : mid = [] ∧ a = 64#64 ∧ after = [] := by
      have hlines : [64#64] = mid ++ a :: after := hl
      rcases cons_eq_append_iff.mp hlines with ⟨rfl, h⟩ | ⟨mid', rfl, h⟩
      · obtain ⟨rfl, rfl⟩ := List.cons.inj h
        exact ⟨rfl, rfl, rfl⟩
      · simp at h
    have hadd : addConstraint (bytePointer []).o [] (lineConstraint { bytePointer [] with
        address := simplifyExpr (bytePointer []).o [] (bytePointer []).address } 64#64) ≠ none := by
      decide +kernel
    exact hadd (addConstraint_eq_none_of_clash hp)
  · simp at h

/-- The pointer is below the line 64. -/
def belowLine : Expr :=
  .bin .ult (.bin .and (.zExt byteX 64) (.const (.ofNat 64 lineMask.toNat)))
    (.const (.ofNat 64 64))

lemma belowLine_wellFormed : (bytePointer [belowLine]).WellFormed fun _ => True := by
  refine bytePointer_wellFormed (fun c hc => ?_) ⟨fun _ _ => 0, fun c hc => ?_⟩
  · rw [mem_singleton.mp hc]
    exact ⟨⟨⟨⟨byteX_typed, by decide⟩, Nat.succ_pos _, rfl⟩, Nat.succ_pos _, rfl⟩,
      ⟨⟨⟨⟨trivial, trivial⟩, rfl⟩, trivial, rfl⟩, trivial, rfl⟩, rfl⟩
  · rw [mem_singleton.mp hc]
    decide

/-- The path is satisfiable and keeps the pointer out of the line 64.  To try that line, the
equality of the masked pointer with 64 is added to a copy of the constraints; it rewrites the
stored bound to `64 < 64`, and the assertion that no false constraint is added fails. -/
theorem memoryOperation_clash : (bytePointer [belowLine]).WellFormed (fun _ => True) ∧
      CacheModel.Reachable (bytePointer [belowLine]).tables (bytePointer [belowLine]).model ∧
      (bytePointer [belowLine]).model.enabled = true ∧
      (bytePointer [belowLine]).opts.worstCaseSymIndices = true ∧
      (bytePointer [belowLine]).opts.terminateOnUNSAT = false ∧
      (bytePointer [belowLine]).memoryOperation = none := by
  refine ⟨belowLine_wellFormed, bytePointer_reachable _, rfl, rfl, rfl, ?_⟩
  have haddr : simplifyExpr (bytePointer [belowLine]).o (bytePointer [belowLine]).constraints
      (bytePointer [belowLine]).address = (bytePointer [belowLine]).address := by
    decide +kernel
  have hsearch : (bytePointer [belowLine]).search = none := by
    rw [search_eq_none_iff rfl, show (bytePointer [belowLine]).searchOrder = [0] by decide +kernel,
      clashesInSets_cons]
    exact Or.inr (Or.inl ⟨[], 64, [], rfl, by decide +kernel, runsThrough_nil⟩)
  rw [memoryOperation]
  simp only [haddr]
  rw [show (bytePointer [belowLine]).address.constant? = none from rfl]
  show concretize (bytePointer [belowLine]) = none
  rw [concretize, hsearch]

end PointerQuery

end Castan
