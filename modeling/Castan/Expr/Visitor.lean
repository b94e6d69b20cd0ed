/-
# Rewriting visitors

`ExprVisitor::visitActual` rebuilds an expression bottom up from its visited kids.  A
recursive visitor visits what it has rebuilt once more, which is no structural recursion: it
ends because every change removes a symbolic leaf, by the canonical form of expressions.
-/
import Castan.Expr.Canon
import Castan.Expr.CreateSound

namespace Castan

open Castan.Expr List

variable {e k e' : Expr} {R : Expr → Expr → Prop} {ks : List Expr} {f : Expr → Expr}

/-- `ExprVisitor::Action`. -/
inductive Action
  | doChildren
  | skipChildren
  | changeTo (argument : Expr)

/-- The actions that a visitor overrides and whether it is recursive.  The actions for single
kinds (`visitAdd`, ...) are `doChildren` in every visitor treated here. -/
structure ExprVisitor where
  visitExpr : Expr → Action
  visitExprPost : Expr → Action
  recursive : Bool

/-- `rebuild`: the expression over new kids, through the `create` functions. -/
def Expr.rebuild (o : Opts) : Expr → List Expr → Expr
  | .notOptimized _, [k] => .notOptimized k
  | .read root head _, [k] => ReadExpr.create o root head k
  | .select _ _ _, [c, t, f] => SelectExpr.create o c t f
  | .concat _ _, [l, r] => ConcatExpr.create l r
  | .extract _ off w, [k] => ExtractExpr.create k off w
  | .zExt _ w, [k] => ZExtExpr.create k w
  | .sExt _ w, [k] => SExtExpr.create k w
  | .not _, [k] => NotExpr.create k
  | .bin kind _ _, [l, r] => kind.create o l r
  | e, _ => e

namespace ExprVisitor

/-- What `visitActual` does with an expression `e` that is no constant, given its visited kids.
The result of `rebuild` is handed to `revisit` if the visitor is recursive. -/
def act (o : Opts) (v : ExprVisitor) (revisit : Expr → Expr) (e : Expr) (kids : List Expr) :
    Expr :=
  match v.visitExpr e with
  | .skipChildren => e
  | .changeTo r => r
  | .doChildren =>
      let e' :=
        if kids ≠ e.kids then
          if v.recursive then revisit (e.rebuild o kids) else e.rebuild o kids
        else e
      if e'.isConst then e'
      else match v.visitExprPost e' with
        | .changeTo r => r
        | _ => e'

/-- `ExprVisitor::visitActual`, with the visit of a rebuilt expression as a parameter. -/
def visitActual (o : Opts) (v : ExprVisitor) (revisit : Expr → Expr) : Expr → Expr
  | .const c => .const c
  | .notOptimized s => v.act o revisit (.notOptimized s) [visitActual o v revisit s]
  | .read root head i => v.act o revisit (.read root head i) [visitActual o v revisit i]
  | .select c t f => v.act o revisit (.select c t f)
      [visitActual o v revisit c, visitActual o v revisit t, visitActual o v revisit f]
  | .concat l r => v.act o revisit (.concat l r)
      [visitActual o v revisit l, visitActual o v revisit r]
  | .extract e off w => v.act o revisit (.extract e off w) [visitActual o v revisit e]
  | .zExt e w => v.act o revisit (.zExt e w) [visitActual o v revisit e]
  | .sExt e w => v.act o revisit (.sExt e w) [visitActual o v revisit e]
  | .not e => v.act o revisit (.not e) [visitActual o v revisit e]
  | .bin k l r => v.act o revisit (.bin k l r)
      [visitActual o v revisit l, visitActual o v revisit r]

/-- At most `n` nested visits of rebuilt expressions. -/
def visitFuel (o : Opts) (v : ExprVisitor) : ℕ → Expr → Expr
  | 0 => v.visitActual o id
  | n + 1 => v.visitActual o (v.visitFuel o n)

/-- `ExprVisitor::visit`.  The table `visited` only saves time: the visit of an expression has
no effect besides its result.  That the fuel suffices is `visit_eq`. -/
def visit (o : Opts) (v : ExprVisitor) (e : Expr) : Expr := v.visitFuel o e.weight e

end ExprVisitor

/-- `ExprReplaceVisitor`: replace `src` by `dst`. -/
def ExprReplaceVisitor (src dst : Expr) : ExprVisitor where
  visitExpr e := if e = src then .changeTo dst else .doChildren
  visitExprPost e := if e = src then .changeTo dst else .doChildren
  recursive := false

/-- `ExprReplaceVisitor2`: replace the keys of a map by their values, the first of two pairs
with one key. -/
def ExprReplaceVisitor2 (replacements : List (Expr × Expr)) : ExprVisitor where
  visitExpr _ := .doChildren
  visitExprPost e :=
    match replacements.find? fun p => p.1 = e with
    | some p => .changeTo p.2
    | none => .doChildren
  recursive := true

/-! ### Kids -/

namespace Expr

lemma sizeOf_kid (h : k ∈ e.kids) : sizeOf k < sizeOf e := by
  cases e <;> simp only [kids, mem_cons, not_mem_nil, or_false] at h
  case select => rcases h with rfl | rfl | rfl <;> simp only [select.sizeOf_spec] <;> omega
  case concat => rcases h with rfl | rfl <;> simp only [concat.sizeOf_spec] <;> omega
  case bin => rcases h with rfl | rfl <;> simp only [bin.sizeOf_spec] <;> omega
  all_goals subst h; simp <;> omega

/-- Induction over an expression by way of its kids. -/
lemma kids_induction {P : Expr → Prop} (step : ∀ e : Expr, (∀ k ∈ e.kids, P k) → P e)
    (e : Expr) : P e :=
  step e fun k _ => kids_induction step k
termination_by sizeOf e
decreasing_by exact sizeOf_kid (by assumption)

lemma weight_kid_le (h : k ∈ e.kids) : k.weight ≤ e.weight := by
  cases e <;> simp only [kids, mem_cons, not_mem_nil, or_false] at h
  case select => rcases h with rfl | rfl | rfl <;> simp only [weight] <;> omega
  case concat => rcases h with rfl | rfl <;> simp only [weight] <;> omega
  case bin => rcases h with rfl | rfl <;> simp only [weight] <;> omega
  all_goals subst h; simp only [weight]; omega

lemma Typed.kid (he : e.Typed) (h : k ∈ e.kids) : k.Typed := by
  cases e <;> simp only [kids, mem_cons, not_mem_nil, or_false] at h
  case notOptimized => exact h ▸ he
  case read => exact h ▸ he.2.1
  case select => rcases h with rfl | rfl | rfl; exacts [he.1, he.2.1, he.2.2.1]
  case concat => rcases h with rfl | rfl; exacts [he.1, he.2]
  case not => exact h ▸ he
  case bin => rcases h with rfl | rfl; exacts [he.1, he.2.1]
  all_goals exact h ▸ he.1

lemma Canon.kid (he : e.Canon) (h : k ∈ e.kids) : k.Canon := by
  cases e <;> simp only [kids, mem_cons, not_mem_nil, or_false] at h
  case notOptimized => exact h ▸ he
  case read => exact h ▸ he.2
  case select => rcases h with rfl | rfl | rfl; exacts [he.1, he.2.1, he.2.2.1]
  case concat => rcases h with rfl | rfl; exacts [he.1, he.2.1]
  case bin => rcases h with rfl | rfl; exacts [he.1, he.2.1]
  all_goals exact h ▸ he.1

lemma InRange.kid {ρ : Valuation} (he : e.InRange ρ) (h : k ∈ e.kids) : k.InRange ρ := by
  cases e <;> simp only [kids, mem_cons, not_mem_nil, or_false] at h
  case read => exact h ▸ he.1
  case select => rcases h with rfl | rfl | rfl; exacts [he.1, he.2.1, he.2.2]
  case concat => rcases h with rfl | rfl; exacts [he.1, he.2]
  case bin => rcases h with rfl | rfl; exacts [he.1, he.2]
  all_goals exact h ▸ he

end Expr

/-! ### One visit -/

section Visit

variable {o : Opts} {V : Valuation → Prop} {v : ExprVisitor}

/-- What a visit returns for `e`: a replacement under the valuations in `V`, canonical again,
and with fewer symbolic leaves unless it is `e` itself. -/
structure Visited (o : Opts) (V : Valuation → Prop) (e' e : Expr) : Prop where
  refinesOn : RefinesOn o V e' e
  canon : e'.Canon
  eq_or_lt : e' = e ∨ e'.weight < e.weight

lemma Visited.refl (h : e.Typed) (hc : e.Canon) : Visited o V e e :=
  ⟨RefinesOn.refl h, hc, Or.inl rfl⟩

lemma Visited.trans {e'' : Expr} (h₂ : Visited o V e'' e') (h₁ : Visited o V e' e) :
    Visited o V e'' e := by
  refine ⟨h₂.refinesOn.trans h₁.refinesOn, h₂.canon, ?_⟩
  rcases h₂.eq_or_lt with rfl | hlt
  · exact h₁.eq_or_lt
  · exact Or.inr (lt_of_lt_of_le hlt h₁.refinesOn.weight_le)

/-- A canonical expression that is no constant may be visited to a constant of its value. -/
lemma Visited.const {c : APInt} (h : e.Typed) (hcanon : e.Canon)
    (hc : e.isConst = false) (hw : c.width = e.width) (hval : ∀ ρ, V ρ → e.eval ρ = c) :
    Visited o V (.const c) e := by
  refine ⟨⟨?_, hw, fun ρ hV _ => (hval ρ hV).symm, fun _ _ _ => trivial, Nat.zero_le _⟩, trivial,
    Or.inr (hcanon.weight_pos hc)⟩
  rw [Expr.Typed, hw]
  exact h.width_pos

/-- The visitor only replaces expressions by constants, which are their values under `V`. -/
structure ExprVisitor.Sound (v : ExprVisitor) (V : Valuation → Prop) : Prop where
  visitExpr : ∀ {e r : Expr}, e.Typed → v.visitExpr e = .changeTo r →
    ∃ c : APInt, r = .const c ∧ c.width = e.width ∧ ∀ ρ, V ρ → e.eval ρ = c
  visitExprPost : ∀ {e r : Expr}, e.Typed → v.visitExprPost e = .changeTo r →
    ∃ c : APInt, r = .const c ∧ c.width = e.width ∧ ∀ ρ, V ρ → e.eval ρ = c

/-- One visited kid. -/
lemma forall₂_singleton (h : List.Forall₂ R ks [k]) : ∃ k', ks = [k'] ∧ R k' k := by
  obtain ⟨k', ks', h1, h2, rfl⟩ := List.forall₂_cons_right_iff.mp h
  rw [List.forall₂_nil_right_iff.mp h2]
  exact ⟨k', rfl, h1⟩

/-- Two visited kids. -/
lemma forall₂_pair {l r : Expr}
    (h : List.Forall₂ R ks [l, r]) : ∃ l' r', ks = [l', r'] ∧ R l' l ∧ R r' r := by
  obtain ⟨l', ks', h1, h2, rfl⟩ := List.forall₂_cons_right_iff.mp h
  obtain ⟨r', rfl, h3⟩ := forall₂_singleton h2
  exact ⟨l', r', rfl, h1, h3⟩

lemma Visited.lt (h : Visited o V e' e) (hne : e' ≠ e) : e'.weight < e.weight :=
  h.eq_or_lt.resolve_left hne

/-- The symbolic leaves of kids of which some have changed, and lost leaves by it. -/
lemma sum_weight_lt {ks' : List Expr}
    (h : List.Forall₂ (fun k' k : Expr => k' = k ∨ k'.weight < k.weight) ks ks') :
    (ks.map weight).sum ≤ (ks'.map weight).sum ∧
      (ks ≠ ks' → (ks.map weight).sum < (ks'.map weight).sum) := by
  induction h with
  | nil => exact ⟨le_rfl, fun hne => absurd rfl hne⟩
  | @cons k' k ks ks' hk hks ih =>
    simp only [map_cons, sum_cons]
    rcases hk with rfl | hlt
    · refine ⟨by omega, fun hne => ?_⟩
      have := ih.2 fun heq => hne (by rw [heq])
      omega
    · exact ⟨by omega, fun _ => by omega⟩

/-- The node over new kids, after it is simplified: a replacement, and a smaller one if the kids
that have changed have become smaller. -/
structure Rebuilt (o : Opts) (V : Valuation → Prop) (e' e : Expr) (ks : List Expr) : Prop where
  refinesOn : RefinesOn o V e' e
  canon : e'.Canon
  lt : (ks.map Expr.weight).sum < (e.kids.map Expr.weight).sum → e'.weight < e.weight

/-- A rebuilt expression from the plain node over the new kids. -/
lemma Rebuilt.of_plain {p : Expr} (hp : RefinesOn o V p e)
    (he' : p.Typed → Refines o e' p) (hc : e'.Canon)
    (hlt : (ks.map weight).sum < (e.kids.map weight).sum → p.weight < e.weight) :
    Rebuilt o V e' e ks :=
  ⟨(RefinesOn.of_refines (he' hp.typed)).trans hp, hc,
    fun hne => lt_of_le_of_lt (he' hp.typed).weight_le (hlt hne)⟩

theorem rebuild_rebuilt (he : e.Typed) (hc : e.Canon)
    (hks : List.Forall₂ (fun k' k => RefinesOn o V k' k ∧ k'.Canon) ks e.kids) :
    Rebuilt o V (e.rebuild o ks) e ks := by
  cases e with
  | const c =>
    obtain rfl := List.forall₂_nil_right_iff.mp hks
    exact ⟨RefinesOn.refl he, hc, fun h => absurd h (lt_irrefl _)⟩
  | notOptimized s =>
    obtain ⟨k, rfl, hk, hkc⟩ := forall₂_singleton hks
    refine Rebuilt.of_plain hk.notOptimized RefinesOn.refl hkc fun hlt => ?_
    simp only [kids, map_singleton, sum_singleton, weight] at hlt ⊢
    omega
  | read root head i =>
    obtain ⟨k, rfl, hk, hkc⟩ := forall₂_singleton hks
    refine Rebuilt.of_plain (hk.read he) ReadExpr.create_refines
      (ReadExpr.create_canon hc.1 hkc) fun hlt => ?_
    simp only [kids, map_singleton, sum_singleton, weight] at hlt ⊢
    omega
  | select c t f =>
    obtain ⟨c', ks', ⟨hc', hcc⟩, hks', rfl⟩ := List.forall₂_cons_right_iff.mp hks
    obtain ⟨t', f', rfl, ⟨ht', htc⟩, hf', hfc⟩ := forall₂_pair hks'
    refine Rebuilt.of_plain (hc'.select ht' hf' he.2.2.2.1 he.2.2.2.2) SelectExpr.create_refines
      (SelectExpr.create_canon hcc htc hfc) fun hlt => ?_
    simp only [kids, map_cons, map_nil, sum_cons, sum_nil, weight] at hlt ⊢
    omega
  | concat l r =>
    obtain ⟨l', r', rfl, ⟨hl, hlc⟩, hr, hrc⟩ := forall₂_pair hks
    refine Rebuilt.of_plain (hl.concat hr) ConcatExpr.create_refines
      (ConcatExpr.createAux_canon l' r' hlc hrc) fun hlt => ?_
    simpa [kids, weight] using hlt
  | extract x off w =>
    obtain ⟨k, rfl, hk, hkc⟩ := forall₂_singleton hks
    refine Rebuilt.of_plain (hk.extract he.2.1 he.2.2) ExtractExpr.create_refines
      (ExtractExpr.createAux_canon k off w hkc) fun hlt => ?_
    simpa [kids, weight] using hlt
  | zExt x w =>
    obtain ⟨k, rfl, hk, hkc⟩ := forall₂_singleton hks
    have hwk : ¬ w < k.width := by
      rw [hk.width_eq]
      exact not_lt.mpr he.2
    refine Rebuilt.of_plain (hk.zExt he.2) (fun hp => ?_) (ZExtExpr.create_canon hkc w)
      fun hlt => by simpa [kids, weight] using hlt
    have hcreate : Refines o _ _ := ZExtExpr.create_refines hp.1 (he.1.width_pos.trans_le he.2)
    rwa [zExtOrTrunc, if_neg hwk] at hcreate
  | sExt x w =>
    obtain ⟨k, rfl, hk, hkc⟩ := forall₂_singleton hks
    have hwk : ¬ w < k.width := by
      rw [hk.width_eq]
      exact not_lt.mpr he.2
    refine Rebuilt.of_plain (hk.sExt he.2) (fun hp => ?_) (SExtExpr.create_canon hkc w)
      fun hlt => by simpa [kids, weight] using hlt
    have hcreate : Refines o _ _ := SExtExpr.create_refines hp.1 (he.1.width_pos.trans_le he.2)
    rwa [sExtOrTrunc, if_neg hwk] at hcreate
  | not x =>
    obtain ⟨k, rfl, hk, hkc⟩ := forall₂_singleton hks
    exact Rebuilt.of_plain hk.not (fun hp => NotExpr.create_refines hp)
      (NotExpr.create_canon hkc) fun hlt => by simpa [kids, weight] using hlt
  | bin kind l r =>
    obtain ⟨l', r', rfl, ⟨hl, hlc⟩, hr, hrc⟩ := forall₂_pair hks
    refine Rebuilt.of_plain (RefinesOn.bin kind hl hr he.2.2) (BinKind.create_refines kind)
      (BinKind.create_canon kind hlc hrc) fun hlt => ?_
    simpa [kids, weight] using hlt

/-- A rebuilt expression over visited kids of which some have changed. -/
lemma rebuild_visited (he : e.Typed) (hc : e.Canon)
    (hks : List.Forall₂ (Visited o V) ks e.kids) (hne : ks ≠ e.kids) :
    Visited o V (e.rebuild o ks) e ∧ (e.rebuild o ks).weight < e.weight := by
  have hreb := rebuild_rebuilt he hc (hks.imp fun _ _ h => ⟨h.refinesOn, h.canon⟩)
  have hlt := hreb.lt ((sum_weight_lt (hks.imp fun _ _ h => h.eq_or_lt)).2 hne)
  exact ⟨⟨hreb.refinesOn, hreb.canon, Or.inr hlt⟩, hlt⟩

/-! ### Whole visits -/

namespace ExprVisitor

/-- The cases of `visitActual`, in one equation. -/
lemma visitActual_eq (f : Expr → Expr) (hc : e.isConst = false) :
    v.visitActual o f e = v.act o f e (e.kids.map (v.visitActual o f)) := by
  cases e with
  | const c => simp at hc
  | _ => rfl

lemma act_visited (hv : v.Sound V) (he : e.Typed)
    (hcanon : e.Canon) (hc : e.isConst = false) (hks : List.Forall₂ (Visited o V) ks e.kids)
    (hf : ∀ r : Expr, r.Typed → r.Canon → r.weight < e.weight → Visited o V (f r) r) :
    Visited o V (v.act o f e ks) e := by
  have hreb := rebuild_visited he hcanon hks
  unfold act
  split
  · exact Visited.refl he hcanon
  · next r hr =>
    obtain ⟨c, rfl, hw, hval⟩ := hv.visitExpr he hr
    exact Visited.const he hcanon hc hw hval
  · extract_lets e'
    have he' : Visited o V e' e := by
      unfold e'
      split_ifs with hne hrec
      · obtain ⟨hvis, hlt⟩ := hreb hne
        exact (hf _ hvis.refinesOn.typed hvis.canon hlt).trans hvis
      · exact (hreb hne).1
      · exact Visited.refl he hcanon
    split_ifs with hconst
    · exact he'
    · split
      · next r hr =>
        obtain ⟨c, rfl, hw, hval⟩ := hv.visitExprPost he'.refinesOn.typed hr
        exact (Visited.const he'.refinesOn.typed he'.canon (by simpa using hconst) hw hval).trans
          he'
      · exact he'

/-- The kids of a visited expression, when the visits of smaller expressions are sound. -/
lemma forall₂_map_kids {g : Expr → Expr}
    (h : ∀ k ∈ e.kids, R (g k) k) : List.Forall₂ R (e.kids.map g) e.kids := by
  rw [List.forall₂_map_left_iff]
  exact List.forall₂_same.mpr h

theorem visitActual_visited (hv : v.Sound V) (e : Expr) : e.Typed → e.Canon →
      (∀ r : Expr, r.Typed → r.Canon → r.weight < e.weight → Visited o V (f r) r) →
      Visited o V (v.visitActual o f e) e := by
  induction e using kids_induction with
  | step e ih =>
    intro he hcanon hf
    cases hc : e.isConst with
    | true =>
      obtain ⟨c, rfl⟩ := isConst_iff.mp hc
      exact Visited.refl he hcanon
    | false =>
      rw [visitActual_eq f hc]
      refine act_visited hv he hcanon hc (forall₂_map_kids fun k hk => ?_) hf
      exact ih k hk (he.kid hk) (hcanon.kid hk) fun r hr hrc hlt =>
        hf r hr hrc (lt_of_lt_of_le hlt (weight_kid_le hk))

/-- With fuel for every symbolic leaf a visit is sound, by induction on the fuel. -/
lemma visitFuel_visited (hv : v.Sound V) (n : ℕ) :
    ∀ e : Expr, e.Typed → e.Canon → e.weight ≤ n → Visited o V (v.visitFuel o n e) e := by
  induction n with
  | zero =>
    intro e he hc hn
    exact visitActual_visited hv e he hc fun r _ _ hlt => by omega
  | succ n ih =>
    intro e he hc hn
    exact visitActual_visited hv e he hc fun r hr hrc hlt => ih r hr hrc (by omega)

theorem visit_visited (hv : v.Sound V) (he : e.Typed) (hc : e.Canon) :
    Visited o V (v.visit o e) e :=
  visitFuel_visited hv e.weight e he hc le_rfl

/-- Two ways to visit rebuilt expressions that agree on the smaller ones give the same visit. -/
lemma visitActual_congr {g : Expr → Expr} (hv : v.Sound V) (e : Expr) : e.Typed → e.Canon →
      (∀ r : Expr, r.Typed → r.Canon → r.weight < e.weight → Visited o V (f r) r ∧ f r = g r) →
      v.visitActual o f e = v.visitActual o g e := by
  induction e using kids_induction with
  | step e ih =>
    intro he hcanon hfg
    cases hc : e.isConst with
    | true =>
      obtain ⟨c, rfl⟩ := isConst_iff.mp hc
      rfl
    | false =>
      have hkid : ∀ k ∈ e.kids, ∀ r : Expr, r.Typed → r.Canon → r.weight < k.weight →
          Visited o V (f r) r ∧ f r = g r := fun k hk r hr hrc hlt =>
        hfg r hr hrc (lt_of_lt_of_le hlt (weight_kid_le hk))
      have hmap : e.kids.map (v.visitActual o f) = e.kids.map (v.visitActual o g) :=
        map_congr_left fun k hk => ih k hk (he.kid hk) (hcanon.kid hk) (hkid k hk)
      have hks : List.Forall₂ (Visited o V) (e.kids.map (v.visitActual o f)) e.kids :=
        forall₂_map_kids fun k hk => visitActual_visited hv k (he.kid hk) (hcanon.kid hk)
          fun r hr hrc hlt => (hkid k hk r hr hrc hlt).1
      rw [visitActual_eq f hc, visitActual_eq g hc, ← hmap]
      unfold act
      by_cases hne : e.kids.map (v.visitActual o f) ≠ e.kids
      · obtain ⟨hvis, hlt⟩ := rebuild_visited he hcanon hks hne
        rw [(hfg _ hvis.refinesOn.typed hvis.canon hlt).2]
      · simp only [if_neg hne]

lemma visitFuel_congr (hv : v.Sound V) (n : ℕ) :
    ∀ (m : ℕ) (e : Expr), e.Typed → e.Canon → e.weight ≤ n → e.weight ≤ m →
      v.visitFuel o n e = v.visitFuel o m e := by
  induction n with
  | zero =>
    intro m e he hc hn _
    have hno : ∀ f g : Expr → Expr, v.visitActual o f e = v.visitActual o g e := fun f g =>
      visitActual_congr hv e he hc fun r _ _ hlt => by omega
    cases m with
    | zero => rfl
    | succ m => exact hno _ _
  | succ n ih =>
    intro m e he hc hn hm
    cases m with
    | zero => exact visitActual_congr hv e he hc fun r _ _ hlt => by omega
    | succ m =>
      exact visitActual_congr hv e he hc fun r hr hrc hlt =>
        ⟨visitFuel_visited hv n r hr hrc (by omega), ih m r hr hrc (by omega) (by omega)⟩

/-- The fuel of `visit` suffices: a visit is what the source computes, with the visits of
rebuilt expressions again by `visit`. -/
theorem visit_eq (hv : v.Sound V) (he : e.Typed) (hc : e.Canon) :
    v.visit o e = v.visitActual o (v.visit o) e := by
  calc v.visit o e = v.visitFuel o (e.weight + 1) e :=
        visitFuel_congr hv _ _ e he hc le_rfl (Nat.le_succ _)
    _ = v.visitActual o (v.visit o) e := by
        refine visitActual_congr hv e he hc fun r hr hrc hlt => ⟨?_, ?_⟩
        · exact visitFuel_visited hv _ r hr hrc hlt.le
        · exact visitFuel_congr hv _ _ r hr hrc hlt.le le_rfl

/-- A visit in terms of the visits of the kids and of the rebuilt expression. -/
lemma visit_eq_act (hv : v.Sound V) (he : e.Typed) (hc : e.Canon) (hne : e.isConst = false) :
    v.visit o e = v.act o (v.visit o) e (e.kids.map (v.visit o)) := by
  have hkids : e.kids.map (v.visitActual o (v.visit o)) = e.kids.map (v.visit o) :=
    map_congr_left fun k hk => (visit_eq hv (he.kid hk) (hc.kid hk)).symm
  rw [visit_eq hv he hc, visitActual_eq _ hne, hkids]

/-! ### The calls of a visit -/

mutual

/-- `Visits o v e r n`: the call of `visit` for `e` returns `r`, and it and the calls that it
makes are `n` calls in all. -/
inductive Visits (o : Opts) (v : ExprVisitor) : Expr → Expr → ℕ → Prop
  | const (c : APInt) : Visits o v (.const c) (.const c) 1
  | decided {e : Expr} : e.isConst = false → v.visitExpr e ≠ .doChildren →
      Visits o v e (v.act o id e []) 1
  | kept {e : Expr} {ks : List Expr} {n : ℕ} : e.isConst = false →
      v.visitExpr e = .doChildren → VisitsAll o v e.kids ks n →
      ¬ (ks ≠ e.kids ∧ v.recursive = true) → Visits o v e (v.act o id e ks) (n + 1)
  | revisited {e r : Expr} {ks : List Expr} {n m : ℕ} : e.isConst = false →
      v.visitExpr e = .doChildren → VisitsAll o v e.kids ks n →
      ks ≠ e.kids → v.recursive = true → Visits o v (e.rebuild o ks) r m →
      Visits o v e (v.act o (fun _ => r) e ks) (n + m + 1)

/-- The visits of the kids, one after the other. -/
inductive VisitsAll (o : Opts) (v : ExprVisitor) : List Expr → List Expr → ℕ → Prop
  | nil : VisitsAll o v [] [] 0
  | cons {k r : Expr} {ks rs : List Expr} {n m : ℕ} : Visits o v k r n →
      VisitsAll o v ks rs m → VisitsAll o v (k :: ks) (r :: rs) (n + m)

end

lemma visitsAll_map {g : Expr → Expr} (h : ∀ k ∈ ks, ∃ n, Visits o v k (g k) n) :
    ∃ n, VisitsAll o v ks (ks.map g) n := by
  induction ks with
  | nil => exact ⟨0, .nil⟩
  | cons k ks ih =>
    obtain ⟨n, hn⟩ := h k mem_cons_self
    obtain ⟨m, hm⟩ := ih fun k' hk' => h k' (mem_cons_of_mem k hk')
    exact ⟨n + m, .cons hn hm⟩

/-- One call ends if the calls for the kids and for the rebuilt expression do. -/
lemma visits_step (hv : v.Sound V) (he : e.Typed) (hc : e.Canon)
    (hkids : ∀ k ∈ e.kids, ∃ n, Visits o v k (v.visit o k) n)
    (hreb : e.kids.map (v.visit o) ≠ e.kids →
      ∃ n, Visits o v (e.rebuild o (e.kids.map (v.visit o)))
        (v.visit o (e.rebuild o (e.kids.map (v.visit o)))) n) :
    ∃ n, Visits o v e (v.visit o e) n := by
  cases hconst : e.isConst with
  | true =>
    obtain ⟨c, rfl⟩ := isConst_iff.mp hconst
    exact ⟨1, .const c⟩
  | false =>
    rw [visit_eq_act hv he hc hconst]
    by_cases hdo : v.visitExpr e = .doChildren
    · obtain ⟨n, hn⟩ := visitsAll_map hkids
      by_cases hne : e.kids.map (v.visit o) ≠ e.kids ∧ v.recursive = true
      · obtain ⟨m, hm⟩ := hreb hne.1
        exact ⟨n + m + 1, .revisited hconst hdo hn hne.1 hne.2 hm⟩
      · have hact : v.act o (v.visit o) e (e.kids.map (v.visit o)) =
            v.act o id e (e.kids.map (v.visit o)) := by
          unfold act
          by_cases hrec : v.recursive = true
          · simp only [not_not.mp fun h => hne ⟨h, hrec⟩, ne_eq, not_true_eq_false, if_false]
          · simp only [hrec, Bool.false_eq_true, if_false]
        exact ⟨n + 1, hact ▸ .kept hconst hdo hn hne⟩
    · have hact : v.act o (v.visit o) e (e.kids.map (v.visit o)) = v.act o id e [] := by
        unfold act
        cases h : v.visitExpr e with
        | doChildren => exact absurd h hdo
        | _ => rfl
      exact ⟨1, hact ▸ .decided hconst hdo⟩

/-- A visit makes finitely many calls, by induction on the symbolic leaves, which a rebuilt
expression has fewer of, and for one number of them on the expression. -/
theorem exists_visits (hv : v.Sound V) (w : ℕ) : ∀ e : Expr, e.Typed → e.Canon →
      e.weight ≤ w → ∃ n, Visits o v e (v.visit o e) n := by
  induction w using Nat.strong_induction_on with
  | _ w ih =>
    intro e
    induction e using kids_induction with
    | step e ihk =>
      intro he hc hw
      refine visits_step hv he hc (fun k hk => ?_) fun hne => ?_
      · exact ihk k hk (he.kid hk) (hc.kid hk) ((weight_kid_le hk).trans hw)
      · have hks : List.Forall₂ (Visited o V) (e.kids.map (v.visit o)) e.kids :=
          forall₂_map_kids fun k hk => visit_visited hv (he.kid hk) (hc.kid hk)
        obtain ⟨hvis, hlt⟩ := rebuild_visited he hc hks hne
        exact ih _ (hlt.trans_le hw) _ hvis.refinesOn.typed hvis.canon le_rfl

end ExprVisitor

/-! ### The replacing visitors -/

lemma ExprReplaceVisitor_sound {s : Expr} {c : APInt} (hw : c.width = s.width)
    (hval : ∀ ρ, V ρ → s.eval ρ = c) : (ExprReplaceVisitor s (.const c)).Sound V := by
  have hrep : ∀ {e r : Expr}, (if e = s then Action.changeTo (.const c) else .doChildren) =
      .changeTo r → ∃ c : APInt, r = .const c ∧ c.width = e.width ∧ ∀ ρ, V ρ → e.eval ρ = c := by
    intro e r h
    split_ifs at h with he
    · obtain rfl : const c = r := by simpa using h
      subst he
      exact ⟨c, rfl, hw, hval⟩
  exact ⟨fun _ h => hrep h, fun _ h => hrep h⟩

lemma ExprReplaceVisitor2_sound {m : List (Expr × Expr)}
    (hm : ∀ p ∈ m, ∃ c : APInt, p.2 = .const c ∧ c.width = p.1.width ∧
      ∀ ρ, V ρ → p.1.eval ρ = c) : (ExprReplaceVisitor2 m).Sound V := by
  refine ⟨fun _ h => by simp [ExprReplaceVisitor2] at h, fun {e r} _ h => ?_⟩
  simp only [ExprReplaceVisitor2] at h
  split at h
  · next p hp =>
    obtain rfl : p.2 = r := by simpa using h
    have hkey : p.1 = e := by simpa using List.find?_some hp
    rw [← hkey]
    exact hm p (mem_of_find?_eq_some hp)
  · simp at h

/-- An expression that a replacement changes contains what is replaced: where it reads its
constant arrays in bounds, so does the replaced expression. -/
theorem ExprReplaceVisitor_eq_or_inRange (f : Expr → Expr) (s d e : Expr) :
    (ExprReplaceVisitor s d).visitActual o f e = e ∨
      ∀ ρ : Valuation, e.InRange ρ → s.InRange ρ := by
  induction e using kids_induction with
  | step e ih =>
    cases hc : e.isConst with
    | true =>
      obtain ⟨c, rfl⟩ := isConst_iff.mp hc
      exact Or.inl rfl
    | false =>
      by_cases hs : e = s
      · exact Or.inr fun ρ h => hs ▸ h
      by_cases hks : e.kids.map ((ExprReplaceVisitor s d).visitActual o f) = e.kids
      · left
        rw [ExprVisitor.visitActual_eq f hc, hks]
        simp [ExprVisitor.act, ExprReplaceVisitor, hs, hc]
      · -- a kid has changed, so it contains the replaced expression
        right
        have hex : ∃ k ∈ e.kids, (ExprReplaceVisitor s d).visitActual o f k ≠ k := by
          by_contra hall
          push Not at hall
          exact hks ((map_congr_left hall).trans (map_id' e.kids))
        obtain ⟨k, hk, hne⟩ := hex
        intro ρ h
        exact (ih k hk).resolve_left hne ρ (h.kid hk)

end Visit

end Castan
