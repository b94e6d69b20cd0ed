/-
# The range of an expression

`Solver::getRange` finds the least and the greatest value of an expression under the constraints
with three binary searches: for the number of useful bits, for the minimum and for the maximum.
-/
import Castan.Lib.BinarySearch
import Castan.Core.Resolve
import Castan.Solver.ValueRange

namespace Castan

namespace SolverImpl

variable (solver : SolverImpl) (o : Opts)

/-- `Solver::mayBeTrue`, by way of `Solver::mustBeFalse`. -/
def mayBeTrue (query : Query) : Option Bool :=
  (solver.mustBeTrue (query.negateExpr o)).map fun res => !res

/-- No bit of the expression is set from the bit `mid` on. -/
def fitsBits (e : Expr) (mid : BitVec 64) : Expr :=
  EqExpr.create o (LShrExpr.create o e (.const (.ofNat e.width mid.toNat)))
    (.const (.ofNat e.width 0))

/-- The expression is at most `mid`. -/
def atMost (e : Expr) (mid : BitVec 64) : Expr :=
  UleExpr.create o e (.const (.ofNat e.width mid.toNat))

/-- The minimum and the maximum of an expression that is neither Boolean nor a constant.  The
result is `none` where the solver fails, and an assertion with it. -/
def searchRange (query : Query) : Option (BitVec 64 × BitVec 64) :=
  (binarySearch (fun mid => solver.mustBeTrue ⟨query.constraints, fitsBits o query.expr mid⟩) 0
    (BitVec.ofNat 64 query.expr.width)).bind fun bits =>
  ((solver.mayBeTrue o ⟨query.constraints,
      EqExpr.create o query.expr (.const (.ofNat query.expr.width 0))⟩).bind fun res =>
    if res then some 0
    else binarySearch (fun mid => solver.mayBeTrue o ⟨query.constraints, atMost o query.expr mid⟩) 0
      (maxValueOfNBits bits.toNat)).bind fun min =>
  (binarySearch (fun mid => solver.mustBeTrue ⟨query.constraints, atMost o query.expr mid⟩) min
    (maxValueOfNBits bits.toNat)).map fun max => (min, max)

/-- `Solver::getRange` -/
def getRange (query : Query) : Option (APInt × APInt) :=
  (if query.expr.width = 1 then
    (solver.evaluate query).map fun
      | .isTrue => (1, 1)
      | .isFalse => (0, 0)
      | .unknown => (0, 1)
  else match query.expr.constant? with
    | some c => some (BitVec.ofNat 64 c.toNat, BitVec.ofNat 64 c.toNat)
    | none => solver.searchRange o query).map fun (min, max) =>
      (.ofNat query.expr.width min.toNat, .ofNat query.expr.width max.toNat)

end SolverImpl

/-- The values of the expression where the constraints hold. -/
def Query.values (q : Query) : Set ℕ := Set.image (fun ρ => (q.expr.eval ρ).toNat) {ρ | q.MetBy ρ}

/-- The result is the least and the greatest number of a set. -/
def IsRange (V : Set ℕ) (r : Option (BitVec 64 × BitVec 64)) : Prop :=
  ∃ min max, r = some (min, max) ∧ IsLeast V min.toNat ∧ IsGreatest V max.toNat

/-! ### Bounds -/

section Bounds

variable {α : Type*} {S : α → Prop} {f : α → ℕ} {m : ℕ}

/-- The least bound that some value keeps is the least value. -/
lemma isLeast_of_bound (h : IsLeast {a | ∃ i, S i ∧ f i ≤ a} m) :
    IsLeast (Set.image f {i | S i}) m := by
  obtain ⟨⟨i, hi, hle⟩, hmin⟩ := h
  refine ⟨⟨i, hi, le_antisymm hle (hmin ⟨i, hi, le_rfl⟩)⟩, ?_⟩
  rintro - ⟨j, hj, rfl⟩
  exact hmin ⟨j, hj, le_rfl⟩

/-- The least bound that all values keep is the greatest value. -/
lemma isGreatest_of_bound (hne : ∃ i, S i) (h : IsLeast {a | ∀ i, S i → f i ≤ a} m) :
    IsGreatest (Set.image f {i | S i}) m := by
  refine ⟨by_contra fun hm => ?_, fun v ⟨i, hi, heq⟩ => heq ▸ h.1 i hi⟩
  have hlt : ∀ i, S i → f i < m := fun i hi =>
    lt_of_le_of_ne (h.1 i hi) fun heq => hm ⟨i, hi, heq⟩
  obtain ⟨i, hi⟩ := hne
  have hpos := hlt i hi
  have hle : m ≤ m - 1 := h.2 fun j hj => Nat.le_sub_one_of_lt (hlt j hj)
  omega

end Bounds

namespace SolverImpl

variable {o : Opts} {q : Query} {solver : SolverImpl}

/-! ### The tests -/

section Tests

variable {S : Valuation → Prop} {e : Expr} (he : Computes o S e e.width fun ρ => e.eval ρ)

include he

/-- A number as a constant of the width of the expression. -/
lemma computes_ofNat (n : ℕ) :
    Computes o S (.const (.ofNat e.width n)) e.width fun _ => .ofNat e.width n :=
  Computes.const (c := .ofNat e.width n) he.ofWidth.typed.width_pos

lemma fitsBits_tests {mid : BitVec 64} (hmid : mid.toNat < e.width) :
    Tests o S (fitsBits o e mid) fun ρ => (e.eval ρ).toNat < 2 ^ mid.toNat := by
  have hshift := he.bin .lShr (computes_ofNat he mid.toNat)
  refine (Tests.eq hshift (computes_ofNat he 0)).congr fun ρ hρ => ?_
  obtain ⟨x, hx⟩ := Expr.exists_eval_eq he.ofWidth.typed rfl ρ
  have hlt : mid.toNat < 2 ^ e.width := hmid.trans Nat.lt_two_pow_self
  have hfold : BinKind.lShr.fold ⟨e.width, x⟩ (.ofNat e.width mid.toNat) =
      ⟨e.width, x >>> mid.toNat⟩ := by
    rw [APInt.ofNat, BinKind.fold_mk, BinKind.op, BitVec.ushiftRight_eq', BitVec.toNat_ofNat,
      Nat.mod_eq_of_lt hlt]
  rw [hx, hfold, APInt.ofNat, APInt.mk.injEq, heq_eq_eq, BitVec.toNat_eq]
  simp [APInt.toNat, Nat.shiftRight_eq_div_pow, Nat.div_eq_zero_iff]

lemma atMost_tests {mid : BitVec 64} (hmid : mid.toNat < 2 ^ e.width) :
    Tests o S (atMost o e mid) fun ρ => (e.eval ρ).toNat ≤ mid.toNat := by
  refine (Tests.uge (computes_ofNat he mid.toNat) he).congr fun ρ _ => ?_
  rw [APInt.toNat_ofNat hmid]

lemma isZero_tests :
    Tests o S (EqExpr.create o e (.const (.ofNat e.width 0))) fun ρ => (e.eval ρ).toNat ≤ 0 := by
  refine (Tests.eq he (computes_ofNat he 0)).congr fun ρ hρ => ?_
  have hzero : (APInt.ofNat e.width 0).toNat = 0 := APInt.toNat_ofNat (Nat.two_pow_pos _)
  constructor
  · intro heq
    rw [heq, hzero]
  · exact fun hle => APInt.ext_toNat (he.width_eq hρ) ((Nat.le_zero.1 hle).trans hzero.symm)

end Tests

/-! ### The solver without simplification -/

lemma mustBeTrue_eq (o : Opts) (solver : SolverImpl) (q : Query) :
    solver.mustBeTrue q = (TimingSolver.mk o solver false).mustBeTrue q.constraints q.expr := by
  cases h : q.expr.constant? <;> simp [TimingSolver.mustBeTrue, mustBeTrue, TimingSolver.query, h]

lemma evaluate_eq (o : Opts) (solver : SolverImpl) (q : Query) :
    solver.evaluate q = (TimingSolver.mk o solver false).evaluate q.constraints q.expr := by
  cases h : q.expr.constant? <;> simp [TimingSolver.evaluate, evaluate, TimingSolver.query, h]

section Exact

variable (hexact : solver.AlwaysExact) (hcs : Decides o q.constraints q.MetBy)
  (hsat : ∃ ρ, q.MetBy ρ) {P : Valuation → Prop} {e : Expr}

include hexact hcs hsat

lemma mustBeTrue_exact (he : Tests o q.MetBy e P) :
    ∃ res, solver.mustBeTrue ⟨q.constraints, e⟩ = some res ∧
      (res = true ↔ ∀ ρ, q.MetBy ρ → P ρ) := by
  rw [mustBeTrue_eq o]
  exact TimingSolver.mustBeTrue_spec hexact hcs hsat he

lemma mayBeTrue_exact (he : Tests o q.MetBy e P) :
    ∃ res, solver.mayBeTrue o ⟨q.constraints, e⟩ = some res ∧
      (res = true ↔ ∃ ρ, q.MetBy ρ ∧ P ρ) := by
  rw [mayBeTrue, mustBeTrue_eq o]
  exact TimingSolver.mayBeTrue_spec hexact hcs hsat he

lemma evaluate_verdict (he : Tests o q.MetBy q.expr P) :
    ∃ result, solver.evaluate q = some result ∧ TimingSolver.Verdict q.MetBy P result := by
  rw [evaluate_eq o]
  exact TimingSolver.evaluate_spec hexact hcs hsat he

variable (he : Computes o q.MetBy q.expr q.expr.width fun ρ => q.expr.eval ρ)

include he

/-- The searches find the least and the greatest value. -/
lemma searchRange_exact (hw : q.expr.width ≤ 64) : IsRange q.values (solver.searchRange o q) := by
  set x : Valuation → ℕ := fun ρ => (q.expr.eval ρ).toNat
  have hwidth : (BitVec.ofNat 64 q.expr.width).toNat = q.expr.width := by
    rw [BitVec.toNat_ofNat, Nat.mod_eq_of_lt (by omega)]
  have hx : ∀ ρ, q.MetBy ρ → x ρ < 2 ^ q.expr.width := fun ρ hρ =>
    (he.width_eq hρ) ▸ APInt.toNat_lt (q.expr.eval ρ)
  -- the number of useful bits, and with it a bound that all values keep
  obtain ⟨bits, hbits, hfits, hleast⟩ := binarySearch_isLeast 0 (BitVec.ofNat 64 q.expr.width)
    (P := fun k => ∀ ρ, q.MetBy ρ → x ρ < 2 ^ k)
    (fun hab h ρ hρ => (h ρ hρ).trans_le (Nat.pow_le_pow_right Nat.two_pos hab))
    (fun mid hmid => mustBeTrue_exact hexact hcs hsat
      (fitsBits_tests he (hwidth ▸ (hmid : mid.toNat < _))))
    (Nat.zero_le _) (fun a ha => absurd ha (Nat.not_lt_zero a)) (by rwa [hwidth])
  have hle : bits.toNat ≤ q.expr.width := hleast hx
  obtain ⟨top, htop⟩ : ∃ top, top = maxValueOfNBits bits.toNat := ⟨_, rfl⟩
  have hmax : top.toNat = 2 ^ bits.toNat - 1 := htop ▸ toNat_maxValueOfNBits (hle.trans hw)
  have hpow : 2 ^ bits.toNat ≤ 2 ^ q.expr.width := Nat.pow_le_pow_right Nat.two_pos hle
  have hpos : 0 < 2 ^ bits.toNat := Nat.two_pow_pos _
  have hall : ∀ ρ, q.MetBy ρ → x ρ ≤ top.toNat := fun ρ hρ => by
    have := hfits ρ hρ
    omega
  have hmid : ∀ mid < top, mid.toNat < 2 ^ q.expr.width := fun mid hmid => by
    have : mid.toNat < top.toNat := hmid
    omega
  obtain ⟨res, hres, hiff⟩ := mayBeTrue_exact hexact hcs hsat (isZero_tests he)
  obtain ⟨min, hmin, hminLeast⟩ : ∃ min, (if res then some 0
      else binarySearch (fun mid => solver.mayBeTrue o ⟨q.constraints, atMost o q.expr mid⟩) 0
        top) = some min ∧ IsLeast {a | ∃ ρ, q.MetBy ρ ∧ x ρ ≤ a} min.toNat := by
    cases res with
    | true => exact ⟨0, rfl, hiff.1 rfl, fun a _ => Nat.zero_le a⟩
    | false =>
      obtain ⟨σ, hσ⟩ := hsat
      exact binarySearch_isLeast 0 top (fun hab ⟨ρ, hρ, h⟩ => ⟨ρ, hρ, h.trans hab⟩)
        (fun mid h => mayBeTrue_exact hexact hcs ⟨σ, hσ⟩ (atMost_tests he (hmid mid h)))
        (Nat.zero_le _) (fun a ha => absurd ha (Nat.not_lt_zero a)) ⟨σ, hσ, hall σ hσ⟩
  -- what is less than the minimum is no bound
  obtain ⟨ρ₀, hρ₀, -⟩ := hminLeast.1
  obtain ⟨max, hmaxEq, hmaxLeast⟩ := binarySearch_isLeast min top
    (P := fun a => ∀ ρ, q.MetBy ρ → x ρ ≤ a)
    (fun hab h ρ hρ => (h ρ hρ).trans hab)
    (fun mid h => mustBeTrue_exact hexact hcs hsat (atMost_tests he (hmid mid h)))
    (hminLeast.2 ⟨ρ₀, hρ₀, hall ρ₀ hρ₀⟩)
    (fun a ha h => absurd (hminLeast.2 ⟨ρ₀, hρ₀, h ρ₀ hρ₀⟩) (not_le.2 ha)) hall
  refine ⟨min, max, ?_, isLeast_of_bound hminLeast, isGreatest_of_bound hsat hmaxLeast⟩
  rw [searchRange, hbits, Option.bind_some, hres, Option.bind_some, ← htop, hmin, Option.bind_some,
    hmaxEq]
  rfl

/-- A Boolean expression. -/
lemma boolRange_exact (hw : q.expr.width = 1) : IsRange q.values ((solver.evaluate q).map fun
      | .isTrue => (1, 1)
      | .isFalse => (0, 0)
      | .unknown => (0, 1)) := by
  have htests : Tests o q.MetBy q.expr fun ρ => q.expr.Holds ρ :=
    ⟨⟨he.ofWidth.typed, he.ofWidth.canon, hw⟩, fun ρ hρ => (he.hasValue ρ hρ).defined,
      fun ρ _ => Iff.rfl⟩
  obtain ⟨result, hres, hverdict⟩ := evaluate_verdict hexact hcs hsat htests
  have hone : ∀ ρ, q.expr.Holds ρ → (q.expr.eval ρ).toNat = 1 := fun ρ h => by rw [h]; rfl
  have hzero : ∀ ρ, ¬ q.expr.Holds ρ → (q.expr.eval ρ).toNat = 0 := by
    intro ρ h
    obtain ⟨b, hb⟩ := Expr.eval_bool ρ he.ofWidth.typed hw
    cases b with
    | true => exact absurd hb h
    | false => rw [hb]; rfl
  have hle : 1 ∈ upperBounds q.values := by
    rintro - ⟨ρ, -, rfl⟩
    have hlt := APInt.toNat_lt (q.expr.eval ρ)
    rw [Expr.eval_width ρ he.ofWidth.typed, hw] at hlt
    exact Nat.le_of_lt_succ hlt
  obtain ⟨σ, hσ⟩ := hsat
  rw [hres, Option.map_some]
  cases result with
  | isTrue =>
    have hmem : 1 ∈ q.values := ⟨σ, hσ, hone σ (hverdict σ hσ)⟩
    refine ⟨1, 1, rfl, ⟨hmem, ?_⟩, hmem, hle⟩
    rintro - ⟨ρ, hρ, rfl⟩
    exact (hone ρ (hverdict ρ hρ)).ge
  | isFalse =>
    have hmem : 0 ∈ q.values := ⟨σ, hσ, hzero σ (hverdict σ hσ)⟩
    refine ⟨0, 0, rfl, ⟨hmem, fun v _ => Nat.zero_le v⟩, hmem, ?_⟩
    rintro - ⟨ρ, hρ, rfl⟩
    exact (hzero ρ (hverdict ρ hρ)).le
  | unknown =>
    obtain ⟨⟨τ, hτ, htrue⟩, τ', hτ', hfalse⟩ := hverdict
    exact ⟨0, 1, rfl, ⟨⟨τ', hτ', hzero τ' hfalse⟩, fun v _ => Nat.zero_le v⟩,
      ⟨τ, hτ, hone τ htrue⟩, hle⟩

end Exact

/-- With a solver that is always right, `getRange` returns the least and the greatest value that
the expression takes where the constraints hold. -/
theorem getRange_exact (o : Opts) (solver : SolverImpl) (hexact : solver.AlwaysExact) (q : Query)
    (hcs : Decides o q.constraints q.MetBy) (hsat : ∃ ρ, q.MetBy ρ)
    (he : q.expr.OfWidth q.expr.width) (hdef : ∀ ρ, q.MetBy ρ → q.expr.Defined o ρ)
    (hw : q.expr.width ≤ 64) :
    ∃ min max, solver.getRange o q = some (min, max) ∧
      min.width = q.expr.width ∧ max.width = q.expr.width ∧
      IsLeast q.values min.toNat ∧ IsGreatest q.values max.toNat := by
  have hcomp := Computes.of_defined he hdef
  have hlt : ∀ v ∈ q.values, (APInt.ofNat q.expr.width v).toNat = v := by
    rintro - ⟨ρ, hρ, rfl⟩
    exact APInt.toNat_ofNat ((hcomp.width_eq hρ) ▸ APInt.toNat_lt (q.expr.eval ρ))
  have hfinish : ∀ r, IsRange q.values r →
      ∃ min max, (r.map fun p => (APInt.ofNat q.expr.width p.1.toNat,
          APInt.ofNat q.expr.width p.2.toNat)) = some (min, max) ∧
        min.width = q.expr.width ∧ max.width = q.expr.width ∧
        IsLeast q.values min.toNat ∧ IsGreatest q.values max.toNat := by
    rintro - ⟨min, max, rfl, hmin, hmax⟩
    exact ⟨_, _, rfl, rfl, rfl, (hlt _ hmin.1).symm ▸ hmin, (hlt _ hmax.1).symm ▸ hmax⟩
  refine hfinish _ ?_
  by_cases hbool : q.expr.width = 1
  · rw [if_pos hbool]
    exact boolRange_exact hexact hcs hsat hcomp hbool
  rw [if_neg hbool]
  cases hc : q.expr.constant? with
  | none => exact searchRange_exact hexact hcs hsat hcomp hw
  | some c =>
    have heval : ∀ ρ, q.expr.eval ρ = c := fun ρ => by rw [Expr.constant?_eq_some.1 hc, Expr.eval]
    have hwidth : c.width = q.expr.width := by rw [Expr.constant?_eq_some.1 hc, Expr.width]
    have hnat : (BitVec.ofNat 64 c.toNat).toNat = c.toNat := by
      refine (BitVec.toNat_ofNat _ _).trans (Nat.mod_eq_of_lt ((APInt.toNat_lt c).trans_le ?_))
      exact Nat.pow_le_pow_right Nat.two_pos (hwidth ▸ hw)
    have hset : q.values = {c.toNat} := by
      simp only [Query.values, heval]
      exact Set.Nonempty.image_const hsat _
    refine ⟨_, _, rfl, ?_, ?_⟩
    · rw [hset, hnat]
      exact isLeast_singleton
    · rw [hset, hnat]
      exact isGreatest_singleton

/-- The range of a byte. -/
theorem getRange_exact_byte : (SolverImpl.preferring fun _ _ => 0).AlwaysExact ∧
      ∃ min max, (SolverImpl.preferring fun _ _ => 0).getRange ⟨true, true⟩
          ⟨[], ConstraintManager.byteX⟩ = some (min, max) ∧ min.toNat = 0 ∧ 255 ≤ max.toNat := by
  have hexact := SolverImpl.preferring_exact fun _ _ => 0
  have hmet : ∀ ρ, Query.MetBy ⟨[], ConstraintManager.byteX⟩ ρ := fun ρ c hc => nomatch hc
  obtain ⟨min, max, hrange, -, -, hmin, hmax⟩ := getRange_exact ⟨true, true⟩ _ hexact
    ⟨[], ConstraintManager.byteX⟩ (.of_defined nofun nofun) ⟨fun _ _ => 0, hmet _⟩ byteX_ofWidth
    (fun ρ _ => byteX_defined _ ρ) (by decide)
  exact ⟨hexact, min, max, hrange, Nat.le_zero.1 (hmin.2 ⟨fun _ _ => 0, hmet _, rfl⟩),
    hmax.2 ⟨fun _ _ => 255, hmet _, rfl⟩⟩

end SolverImpl

end Castan
