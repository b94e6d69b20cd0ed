/-
# A memory object is a byte array

The masks that are allocated on first use are read through `ObjectState.view`, in which every
byte has its flags.  A byte is represented correctly if each place that claims to hold it does
hold its value; every operation keeps this and the cache invariants of `Memory.cpp`.
-/
import Castan.Core.Memory

namespace Castan

open Function List ObjectState Option UpdateNode

variable {index e : Expr} {i k : ℕ}

/-! ### Chains of updates -/

namespace UpdateNode

variable {ρ : Valuation}

lemma extendAll_append (head : UpdateNode) (xs ys : List (Expr × Expr)) :
    head.extendAll (xs ++ ys) = (head.extendAll xs).extendAll ys := by
  induction xs generalizing head with
  | nil => rfl
  | cons p xs ih => exact ih _

lemma writes_extendAll (head : UpdateNode) (ws : List (Expr × Expr)) :
    (head.extendAll ws).writes = head.writes ++ ws := by
  induction ws generalizing head with
  | nil => simp [extendAll]
  | cons p ws ih => simp [extendAll, ih, writes]

/-- A chain is what its writes make of the empty chain. -/
lemma extendAll_writes : ∀ head : UpdateNode, null.extendAll head.writes = head
  | .null => rfl
  | .node next index value => by
    rw [writes, extendAll_append, extendAll_writes next]
    rfl

/-- Further updates only see the cell that was there before. -/
lemma evalAt_extendAll_congr {h₁ h₂ : UpdateNode} {r₁ r₂ : KArray} {i : APInt}
    (h : h₁.evalAt ρ r₁ i = h₂.evalAt ρ r₂ i) (ws : List (Expr × Expr)) :
    (h₁.extendAll ws).evalAt ρ r₁ i = (h₂.extendAll ws).evalAt ρ r₂ i := by
  induction ws generalizing h₁ h₂ with
  | nil => exact h
  | cons p ws ih =>
    refine ih ?_
    simp only [evalAt, h]

/-- The indices and values of a chain over an array of bytes. -/
def ByteChain (head : UpdateNode) : Prop :=
  ∀ p ∈ head.writes, p.1.OfWidth 32 ∧ p.2.OfWidth 8

lemma byteChain_node {next : UpdateNode} {value : Expr} :
    (node next index value).ByteChain ↔
      next.ByteChain ∧ index.OfWidth 32 ∧ value.OfWidth 8 := by
  simp only [ByteChain, writes, forall_mem_append, forall_mem_singleton]

lemma ByteChain.typed {a : KArray} (hd : a.domain = 32) (hr : a.range = 8) :
    ∀ {head : UpdateNode}, head.ByteChain → head.Typed a
  | .null, _ => trivial
  | .node next index value, h => by
    obtain ⟨hn, hi, hv⟩ := byteChain_node.mp h
    exact ⟨ByteChain.typed hd hr hn, hi.typed, hv.typed, hi.width_eq.trans hd.symm,
      hv.width_eq.trans hr.symm⟩

lemma ByteChain.canon : ∀ {head : UpdateNode}, head.ByteChain → head.Canon
  | .null, _ => trivial
  | .node next index value, h => by
    obtain ⟨hn, hi, hv⟩ := byteChain_node.mp h
    exact ⟨ByteChain.canon hn, hi.canon, hv.canon⟩

lemma inRange_iff : ∀ {head : UpdateNode},
    head.InRange ρ ↔ ∀ p ∈ head.writes, p.1.InRange ρ ∧ p.2.InRange ρ
  | .null => by simp [InRange, writes]
  | .node next index value => by
    have ih : next.InRange ρ ↔ ∀ p ∈ next.writes, p.1.InRange ρ ∧ p.2.InRange ρ := inRange_iff
    simp only [InRange, writes, forall_mem_append, forall_mem_singleton, ih]

end UpdateNode

/-! ### Every byte with its flags -/

/-- The masks and caches of an object, with a value for every byte. -/
structure ByteView where
  size : ℕ
  store : ℕ → BitVec 8
  concrete : ℕ → Bool
  flushed : ℕ → Bool
  known : ℕ → Option Expr
  root : Option KArray
  head : UpdateNode

/-- The array of zeros that the update list of a concrete object has as its root, before the
array is created. -/
def KArray.zeros (size : ℕ) : KArray :=
  ⟨0, "", size, 32, 8, List.replicate size (APInt.ofNat 8 0)⟩

/-- The byte `i` of the update list. -/
def ByteView.cell (v : ByteView) (ρ : Valuation) (i : ℕ) : APInt :=
  v.head.evalAt ρ (v.root.getD (.zeros v.size)) (.ofNat 32 i)

namespace ObjectState

def view (s : ObjectState) : ByteView :=
  ⟨s.size, s.concreteStore, s.isByteConcrete, s.isByteFlushed, s.known, s.root, s.head⟩

variable (s : ObjectState) (k : ℕ)

@[simp] lemma view_markByteConcrete : (s.markByteConcrete k).view =
    { s.view with concrete := update s.view.concrete k true } := by
  obtain ⟨n, st, cm, fm, ks, r, h, id⟩ := s
  cases cm with
  | none =>
    simp only [view, markByteConcrete, map_none, ByteView.mk.injEq, true_and, and_true]
    funext i
    by_cases hi : i = k <;> simp [isByteConcrete, update, hi]
  | some m =>
    simp only [view, markByteConcrete, map_some, ByteView.mk.injEq, true_and, and_true]
    exact ⟨rfl, rfl, rfl⟩

@[simp] lemma view_markByteSymbolic : (s.markByteSymbolic k).view =
    { s.view with concrete := update s.view.concrete k false } := by
  obtain ⟨n, st, cm, fm, ks, r, h, id⟩ := s
  cases cm with
  | none => rfl
  | some m => rfl

@[simp] lemma view_markByteUnflushed : (s.markByteUnflushed k).view =
    { s.view with flushed := update s.view.flushed k false } := by
  obtain ⟨n, st, cm, fm, ks, r, h, id⟩ := s
  simp only [view, markByteUnflushed, ByteView.mk.injEq, true_and, and_true]
  refine ⟨rfl, ?_, rfl⟩
  funext i
  cases fm with
  | none => by_cases hi : i = k <;> simp [isByteFlushed, update, hi]
  | some m => by_cases hi : i = k <;> simp [isByteFlushed, update, hi]

@[simp] lemma view_setKnownSymbolic (e : Option Expr) : (s.setKnownSymbolic k e).view =
    { s.view with known := update s.view.known k e } := by
  obtain ⟨n, st, cm, fm, ks, r, h, id⟩ := s
  cases ks with
  | some m => rfl
  | none =>
    cases e with
    | some e => rfl
    | none =>
      simp only [view, setKnownSymbolic, ByteView.mk.injEq, true_and, and_true]
      funext i
      by_cases hi : i = k <;> simp [known, update, hi]

@[simp] lemma view_extend (i e : Expr) :
    (s.extend i e).view = { s.view with head := .node s.view.head i e } := rfl

@[simp] lemma view_allocFlushMask : s.allocFlushMask.view = s.view := by
  obtain ⟨n, st, cm, fm, ks, r, h, id⟩ := s
  cases fm with
  | none => rfl
  | some m => rfl

/-- Once the mask is allocated, a byte is marked as flushed on its own. -/
lemma view_markByteFlushed (h : s.flushMask.isSome) : (s.markByteFlushed k).view =
    { s.view with flushed := update s.view.flushed k true } := by
  obtain ⟨n, st, cm, fm, ks, r, h', id⟩ := s
  cases fm with
  | none => simp at h
  | some m =>
    simp only [view, markByteFlushed, ByteView.mk.injEq, true_and, and_true]
    refine ⟨rfl, ?_, rfl⟩
    funext i
    by_cases hi : i = k <;> simp [isByteFlushed, update, hi]

end ObjectState

/-! ### Represented bytes -/

/-- One byte with the value `x`: the cache invariants hold, and the concrete store, the known
symbolic value and the update list have the value wherever the flags say so. -/
structure ByteOk (o : Opts) (ρ : Valuation) (concrete flushed : Bool) (known : Option Expr)
    (store : BitVec 8) (cell : APInt) (x : BitVec 8) : Prop where
  known_not_concrete : known.isSome = true → concrete = false
  unflushed : flushed = false → concrete = true ∨ known.isSome = true
  store_eq : concrete = true → store = x
  known_ok : ∀ e, known = some e → e.OfWidth 8 ∧ e.Defined o ρ ∧ e.eval ρ = ⟨8, x⟩
  cell_eq : flushed = true → cell = ⟨8, x⟩

/-- The object has the size `n` and the bytes `b` under the valuation `ρ`. -/
structure Represents (o : Opts) (ρ : Valuation) (n : ℕ) (b : ℕ → BitVec 8) (v : ByteView) :
    Prop where
  size_eq : v.size = n
  root_ok : ∀ a, v.root = some a → a.WF ∧ a.domain = 32 ∧ a.range = 8 ∧
    (a.isSymbolicArray = false → a.size = n)
  head_ok : v.head.ByteChain
  head_defined : o.constArrayOpt = true → v.head.InRange ρ
  bytes : ∀ i < n, ByteOk o ρ (v.concrete i) (v.flushed i) (v.known i) (v.store i)
    (v.cell ρ i) (b i)

/-- An expression with the value `x`. -/
structure HasValue (o : Opts) (ρ : Valuation) (e : Expr) (x : APInt) : Prop where
  ofWidth : e.OfWidth x.width
  defined : e.Defined o ρ
  eval_eq : e.eval ρ = x

section Bytes

variable {o : Opts} {ρ : Valuation} {n : ℕ} {b : ℕ → BitVec 8} {s : ObjectState}

lemma ofNat_inj {j : ℕ} (hi : i < 2 ^ 32) (hj : j < 2 ^ 32) :
    APInt.ofNat 32 i = APInt.ofNat 32 j ↔ i = j := by
  constructor
  · intro h
    have := congrArg APInt.toNat h
    simpa only [APInt.toNat, APInt.ofNat, BitVec.toNat_ofNat, Nat.mod_eq_of_lt hi,
      Nat.mod_eq_of_lt hj] using this
  · rintro rfl
    rfl

lemma HasValue.const (c : APInt) (hc : 0 < c.width) : HasValue o ρ (.const c) c :=
  ⟨⟨hc, trivial, rfl⟩, fun _ => trivial, rfl⟩

/-- A canonical replacement of a plain node has its value. -/
lemma HasValue.of_refines {e' : Expr} {x : APInt} (hr : Refines o e' e) (hc : e'.Canon)
    (hw : e.width = x.width) (hd : e.Defined o ρ) (he : e.eval ρ = x) : HasValue o ρ e' x where
  ofWidth := ⟨hr.typed, hc, hr.width_eq.trans hw⟩
  defined ho := hr.inRange ρ (hd ho)
  eval_eq := (hr.eval_eq ρ hd).trans he

lemma write8_represents (h : Represents o ρ n b s.view) (x : BitVec 8) :
    Represents o ρ n (update b k x) (s.write8 k x).view := by
  have hview : (s.write8 k x).view = { s.view with
      store := update s.view.store k x
      known := update s.view.known k none
      concrete := update s.view.concrete k true
      flushed := update s.view.flushed k false } := by
    simp only [write8, view_markByteUnflushed,
      view_markByteConcrete, view_setKnownSymbolic]
    rfl
  rw [hview]
  refine ⟨h.size_eq, h.root_ok, h.head_ok, h.head_defined, fun i hi => ?_⟩
  rcases eq_or_ne i k with rfl | hik
  · constructor <;> simp
  · simp only [update_of_ne hik]
    exact h.bytes i hi

lemma write8Expr_represents (h : Represents o ρ n b s.view) {x : BitVec 8}
    (he : HasValue o ρ e ⟨8, x⟩) :
    Represents o ρ n (update b k x) (s.write8Expr k e).view := by
  unfold write8Expr
  cases hc : e.constant? with
  | some c =>
    obtain rfl := Expr.constant?_eq_some.mp hc
    obtain rfl : c = ⟨8, x⟩ := he.eval_eq
    simpa using write8_represents h x
  | none =>
    have hview : (((s.setKnownSymbolic k (some e)).markByteSymbolic k).markByteUnflushed k).view =
        { s.view with
          known := update s.view.known k (some e)
          concrete := update s.view.concrete k false
          flushed := update s.view.flushed k false } := by
      simp only [view_markByteUnflushed, view_markByteSymbolic,
        view_setKnownSymbolic]
    simp only [hview]
    refine ⟨h.size_eq, h.root_ok, h.head_ok, h.head_defined, fun i hi => ?_⟩
    rcases eq_or_ne i k with rfl | hik
    · constructor <;> simp
      exact ⟨he.ofWidth, he.defined, he.eval_eq⟩
    · simp only [update_of_ne hik]
      exact h.bytes i hi

/-! ### Flushing -/

/-- The cell of an extended update list. -/
lemma cell_extend (ρ : Valuation) (v : ByteView) (index e : Expr) (i : ℕ) :
    ({ v with head := .node v.head index e } : ByteView).cell ρ i =
      if index.eval ρ = .ofNat 32 i then e.eval ρ else v.cell ρ i := by
  simp only [ByteView.cell, evalAt]

/-- The value that is flushed is the value of the byte. -/
lemma cached_hasValue (h : Represents o ρ n b s.view) (hk : k < n) (hf : s.view.flushed k = false) :
    ∃ e, s.cached k = some e ∧ HasValue o ρ e ⟨8, b k⟩ := by
  have hb := h.bytes k hk
  unfold cached
  cases hc : s.isByteConcrete k with
  | true =>
    refine ⟨_, if_pos rfl, ?_⟩
    rw [show s.concreteStore k = b k from hb.store_eq hc]
    exact HasValue.const _ (Nat.succ_pos _)
  | false =>
    rcases hb.unflushed hf with hconc | hknown
    · exact absurd (hconc.symm.trans hc) (by simp)
    · obtain ⟨e, he⟩ := isSome_iff_exists.mp hknown
      obtain ⟨h1, h2, h3⟩ := hb.known_ok e he
      exact ⟨e, (if_neg (by simp)).trans he, h1, h2, h3⟩

/-- An unflushed byte is written to the update list. -/
lemma extend_represents (hn : n ≤ 2 ^ 32) (h : Represents o ρ n b s.view) (hk : k < n)
    (he : HasValue o ρ e ⟨8, b k⟩) :
    Represents o ρ n b { s.view with
      head := .node s.view.head (.const (.ofNat 32 k)) e
      flushed := update s.view.flushed k true } := by
  refine ⟨h.size_eq, h.root_ok, ?_, fun ho => ⟨h.head_defined ho, trivial, he.defined ho⟩,
    fun i hi => ?_⟩
  · exact byteChain_node.mpr ⟨h.head_ok, ⟨Nat.succ_pos _, trivial, rfl⟩, he.ofWidth⟩
  · have hb := h.bytes i hi
    have hcell : ({ s.view with
        head := .node s.view.head (.const (.ofNat 32 k)) e
        flushed := update s.view.flushed k true } : ByteView).cell ρ i =
        if k = i then e.eval ρ else s.view.cell ρ i := by
      have := cell_extend ρ s.view (.const (.ofNat 32 k)) e i
      simp only [Expr.eval, ofNat_inj (hk.trans_le hn) (hi.trans_le hn)] at this
      exact this
    rw [hcell]
    rcases eq_or_ne i k with rfl | hik
    · refine ⟨hb.known_not_concrete, fun hf => ?_, hb.store_eq, hb.known_ok, fun _ => ?_⟩
      · simp at hf
      · rw [if_pos rfl]
        exact he.eval_eq
    · rw [if_neg hik.symm]
      simpa only [update_of_ne hik] using hb

lemma flushByteForRead_represents (hn : n ≤ 2 ^ 32) (h : Represents o ρ n b s.view)
    (hm : s.flushMask.isSome) (hk : k < n) :
    ∃ s', s.flushByteForRead k = some s' ∧ Represents o ρ n b s'.view ∧ s'.flushMask.isSome ∧
      s'.view.flushed = update s.view.flushed k true := by
  unfold flushByteForRead
  by_cases hf : s.isByteFlushed k = true
  · rw [if_pos hf]
    exact ⟨s, rfl, h, hm, (update_eq_self_iff.mpr hf.symm).symm⟩
  · rw [if_neg hf]
    obtain ⟨e, hce, he⟩ := cached_hasValue h hk (Bool.eq_false_iff.mpr hf)
    have hview := view_markByteFlushed (s.extend (.const (.ofNat 32 k)) e) k hm
    refine ⟨(s.extend (.const (.ofNat 32 k)) e).markByteFlushed k, by rw [hce]; rfl, ?_, ?_, ?_⟩
    · rw [hview]
      exact extend_represents hn h hk he
    · obtain ⟨m, hm⟩ := isSome_iff_exists.mp hm
      simp [ObjectState.markByteFlushed, ObjectState.extend, hm]
    · rw [hview]
      rfl

/-- The loop of `flushRangeForRead`, by induction on the bytes still to be flushed. -/
lemma flushLoopForRead_represents (hn : n ≤ 2 ^ 32) (ks : List ℕ) :
    ∀ s : ObjectState, Represents o ρ n b s.view → s.flushMask.isSome → (∀ k ∈ ks, k < n) →
      ∃ s', ks.foldlM flushByteForRead s = some s' ∧ Represents o ρ n b s'.view ∧
        ∀ i, i ∈ ks ∨ s.view.flushed i = true → s'.view.flushed i = true := by
  induction ks with
  | nil =>
    intro s h _ _
    exact ⟨s, rfl, h, fun i hi => hi.resolve_left (not_mem_nil)⟩
  | cons k ks ih =>
    intro s h hm hks
    obtain ⟨s₁, hs₁, h₁, hm₁, hf₁⟩ :=
      flushByteForRead_represents hn h hm (hks k mem_cons_self)
    obtain ⟨s', hs', h', hf'⟩ := ih s₁ h₁ hm₁ fun i hi => hks i (mem_cons_of_mem _ hi)
    refine ⟨s', by rw [foldlM_cons, hs₁]; exact hs', h', fun i hi => hf' i ?_⟩
    rw [hf₁]
    rcases eq_or_ne i k with rfl | hik
    · simp
    · simpa [hik] using hi

/-- After `flushRangeForRead` every byte is in the update list. -/
theorem flushRangeForRead_represents (hn : n ≤ 2 ^ 32) (h : Represents o ρ n b s.view) :
    ∃ s', s.flushRangeForRead = some s' ∧ Represents o ρ n b s'.view ∧
      ∀ i < n, s'.view.flushed i = true := by
  have hsize : s.size = n := h.size_eq
  obtain ⟨s', hs', h', hf⟩ := flushLoopForRead_represents hn (List.range n) s.allocFlushMask
    (by rwa [view_allocFlushMask]) rfl fun k hk => mem_range.mp hk
  refine ⟨s', by rw [flushRangeForRead, hsize]; exact hs', h', fun i hi => ?_⟩
  exact hf i (Or.inl (mem_range.mpr hi))

lemma view_forgetByte (hb : (s.view.known k).isSome = true → s.view.concrete k = false) :
    (s.forgetByte k).view = { s.view with
      concrete := update s.view.concrete k false
      known := update s.view.known k none } := by
  have hsame : s.view.known k = none → update s.view.known k none = s.view.known := fun h =>
    update_eq_self_iff.mpr h.symm
  have hsame' : s.view.concrete k = false →
      update s.view.concrete k false = s.view.concrete := fun h =>
    update_eq_self_iff.mpr h.symm
  unfold forgetByte
  by_cases hc : s.isByteConcrete k = true
  · have hk : s.view.known k = none := by
      rw [← not_isSome_iff_eq_none]
      intro hsome
      exact absurd (hc.symm.trans (hb hsome)) (by simp)
    rw [if_pos hc, view_markByteSymbolic, hsame hk]
  · rw [if_neg hc, hsame' (Bool.eq_false_iff.mpr hc)]
    by_cases hk : s.isByteKnownSymbolic k = true
    · rw [if_pos hk, view_setKnownSymbolic]
    · rw [if_neg hk, hsame (not_isSome_iff_eq_none.mp hk)]

/-- A flushed byte may be forgotten. -/
lemma forget_represents {v : ByteView} (h : Represents o ρ n b v) (hf : v.flushed k = true) :
    Represents o ρ n b { v with
      concrete := update v.concrete k false
      known := update v.known k none } := by
  refine ⟨h.size_eq, h.root_ok, h.head_ok, h.head_defined, fun i hi => ?_⟩
  have hb := h.bytes i hi
  rcases eq_or_ne i k with rfl | hik
  · refine ⟨by simp, fun hu => ?_, by simp, by simp, hb.cell_eq⟩
    exact absurd (hf.symm.trans hu) (by simp)
  · simp only [update_of_ne hik]
    exact hb

lemma flushByteForWrite_represents (hn : n ≤ 2 ^ 32) (h : Represents o ρ n b s.view)
    (hm : s.flushMask.isSome) (hk : k < n) :
    ∃ s', s.flushByteForWrite k = some s' ∧ Represents o ρ n b s'.view ∧ s'.flushMask.isSome ∧
      s'.view.flushed = update s.view.flushed k true ∧
      s'.view.concrete = update s.view.concrete k false ∧
      s'.view.known = update s.view.known k none := by
  have hb := (h.bytes k hk).known_not_concrete
  have hforget : ∀ t : ObjectState, t.flushMask.isSome → (t.forgetByte k).flushMask.isSome := by
    intro t ht
    unfold forgetByte setKnownSymbolic
    split_ifs
    · exact ht
    · split <;> exact ht
    · exact ht
  unfold flushByteForWrite
  by_cases hf : s.isByteFlushed k = true
  · rw [if_pos hf]
    refine ⟨_, rfl, ?_, hforget s hm, ?_, ?_, ?_⟩ <;> rw [view_forgetByte hb]
    · exact forget_represents h hf
    · exact (update_eq_self_iff.mpr hf.symm).symm
  · rw [if_neg hf]
    obtain ⟨e, hce, he⟩ := cached_hasValue h hk (Bool.eq_false_iff.mpr hf)
    set t := s.extend (.const (.ofNat 32 k)) e with ht
    have hview : ((t.forgetByte k).markByteFlushed k).view = { s.view with
        head := .node s.view.head (.const (.ofNat 32 k)) e
        flushed := update s.view.flushed k true
        concrete := update s.view.concrete k false
        known := update s.view.known k none } := by
      rw [view_markByteFlushed _ _ (hforget t hm), view_forgetByte (s := t) hb]
      rfl
    refine ⟨(t.forgetByte k).markByteFlushed k, by rw [hce]; rfl, ?_, ?_, ?_, ?_, ?_⟩
    · rw [hview]
      exact forget_represents (extend_represents hn h hk he) (by simp)
    · obtain ⟨m, hm'⟩ := isSome_iff_exists.mp (hforget t hm)
      simp [ObjectState.markByteFlushed, hm']
    all_goals rw [hview]

/-- The loop of `flushRangeForWrite`: the bytes that are done stay only in the update list. -/
lemma flushLoopForWrite_represents (hn : n ≤ 2 ^ 32) (ks : List ℕ) :
    ∀ s : ObjectState, Represents o ρ n b s.view → s.flushMask.isSome → (∀ k ∈ ks, k < n) →
      ∃ s', ks.foldlM flushByteForWrite s = some s' ∧ Represents o ρ n b s'.view ∧
        ∀ i, i ∈ ks ∨ (s.view.flushed i = true ∧ s.view.concrete i = false ∧
            s.view.known i = none) →
          s'.view.flushed i = true ∧ s'.view.concrete i = false ∧ s'.view.known i = none := by
  induction ks with
  | nil =>
    intro s h _ _
    exact ⟨s, rfl, h, fun i hi => hi.resolve_left (not_mem_nil)⟩
  | cons k ks ih =>
    intro s h hm hks
    obtain ⟨s₁, hs₁, h₁, hm₁, hf₁, hc₁, hk₁⟩ :=
      flushByteForWrite_represents hn h hm (hks k mem_cons_self)
    obtain ⟨s', hs', h', hf'⟩ := ih s₁ h₁ hm₁ fun i hi => hks i (mem_cons_of_mem _ hi)
    refine ⟨s', by rw [foldlM_cons, hs₁]; exact hs', h', fun i hi => hf' i ?_⟩
    rw [hf₁, hc₁, hk₁]
    rcases eq_or_ne i k with rfl | hik
    · simp
    · simpa [hik] using hi

/-- After `flushRangeForWrite` every byte is in the update list only. -/
theorem flushRangeForWrite_represents (hn : n ≤ 2 ^ 32) (h : Represents o ρ n b s.view) :
    ∃ s', s.flushRangeForWrite = some s' ∧ Represents o ρ n b s'.view ∧
      ∀ i < n, s'.view.flushed i = true ∧ s'.view.concrete i = false ∧ s'.view.known i = none := by
  have hsize : s.size = n := h.size_eq
  obtain ⟨s', hs', h', hf⟩ := flushLoopForWrite_represents hn (List.range n) s.allocFlushMask
    (by rwa [view_allocFlushMask]) rfl fun k hk => mem_range.mp hk
  refine ⟨s', by rw [flushRangeForWrite, hsize]; exact hs', h', fun i hi => ?_⟩
  exact hf i (Or.inl (mem_range.mpr hi))

/-! ### The lazily created array -/

/-- The contents that `getUpdates` has collected so far, and the writes that remain. -/
lemma pullConcrete_spec (contents : List APInt) (ws : List (Expr × Expr)) :
    (∀ v ∈ contents, v.width = 8) → (∀ p ∈ ws, p.1.OfWidth 32 ∧ p.2.OfWidth 8) →
      (pullConcrete contents ws).1.length = contents.length ∧
      (∀ v ∈ (pullConcrete contents ws).1, v.width = 8) ∧
      (∀ p ∈ (pullConcrete contents ws).2, p ∈ ws) := by
  induction ws generalizing contents with
  | nil =>
    intro hc _
    exact ⟨rfl, hc, fun p hp => hp⟩
  | cons p ws ih =>
    intro hc hws
    obtain ⟨index, value⟩ := p
    rw [pullConcrete]
    split
    · next i v hi hv =>
      obtain rfl := Expr.constant?_eq_some.mp hv
      have hset : ∀ x ∈ contents.set i.toNat v, x.width = 8 := by
        intro x hx
        rcases mem_or_eq_of_mem_set hx with hx | rfl
        · exact hc x hx
        · exact (hws _ mem_cons_self).2.width_eq
      obtain ⟨h1, h2, h3⟩ := ih _ hset fun p hp => hws p (mem_cons_of_mem _ hp)
      exact ⟨by rw [h1, length_set], h2, fun p hp => mem_cons_of_mem _ (h3 p hp)⟩
    · exact ⟨rfl, hc, fun p hp => hp⟩

/-- An array of `contents.length` constant bytes. -/
def KArray.ofContents (addr : ℕ) (name : String) (contents : List APInt) : KArray :=
  ⟨addr, name, contents.length, 32, 8, contents⟩

lemma KArray.ofContents_initialValue {addr : ℕ} {name : String} {contents : List APInt}
    (hi : i < contents.length) :
    (ofContents addr name contents).initialValue ρ i = contents[i] := by
  simp [KArray.initialValue, ofContents, List.getElem?_eq_getElem hi]

/-- The new array and the remaining writes have the cells of the old update list. -/
lemma pullConcrete_evalAt (ρ : Valuation) (addr addr' : ℕ) (name name' : String)
    (contents : List APInt) (ws : List (Expr × Expr)) (hlen : contents.length ≤ 2 ^ 32)
    (hi : i < contents.length) (hws : ∀ p ∈ ws, p.1.OfWidth 32 ∧ p.2.OfWidth 8) :
    (null.extendAll (pullConcrete contents ws).2).evalAt ρ
        (.ofContents addr' name' (pullConcrete contents ws).1) (.ofNat 32 i) =
      (null.extendAll ws).evalAt ρ (.ofContents addr name contents) (.ofNat 32 i) := by
  have hi32 : i < 2 ^ 32 := hi.trans_le hlen
  have hcell : ∀ (addr : ℕ) (name : String) (cs : List APInt) (hcs : i < cs.length),
      null.evalAt ρ (.ofContents addr name cs) (.ofNat 32 i) = cs[i] := by
    intro addr name cs hcs
    rw [evalAt, APInt.ofNat, APInt.toNat, BitVec.toNat_ofNat, Nat.mod_eq_of_lt hi32]
    exact KArray.ofContents_initialValue hcs
  induction ws generalizing contents with
  | nil => rw [pullConcrete, extendAll, hcell _ _ _ hi, hcell _ _ _ hi]
  | cons p ws ih =>
    obtain ⟨index, value⟩ := p
    have hws' : ∀ p ∈ ws, p.1.OfWidth 32 ∧ p.2.OfWidth 8 := fun p hp =>
      hws p (mem_cons_of_mem _ hp)
    rw [pullConcrete]
    split
    · next j v hj hv =>
      obtain rfl := Expr.constant?_eq_some.mp hj
      obtain rfl := Expr.constant?_eq_some.mp hv
      rw [ih (contents.set j.toNat v) (by simpa using hlen) (by simpa using hi) hws']
      -- the write that is pulled off is one more cell of the array
      refine evalAt_extendAll_congr ?_ ws
      rw [hcell _ _ _ (by simpa using hi), getElem_set, evalAt, hcell _ _ _ hi]
      have hj32 : j.width = 32 := (hws _ mem_cons_self).1.width_eq
      have hjn : j = .ofNat 32 j.toNat := hj32 ▸ APInt.eq_ofNat_toNat j
      have hjeq : j = .ofNat 32 i ↔ j.toNat = i := by
        rw [← ofNat_inj (hj32 ▸ j.toNat_lt) hi32, ← hjn]
      simp only [Expr.eval, hjeq]
    · exact evalAt_extendAll_congr (by rw [hcell _ _ _ hi, hcell _ _ _ hi]) _

/-- `getUpdates` keeps the bytes and leaves an update list with a root. -/
theorem getUpdates_represents (hn : n ≤ 2 ^ 32) (h : Represents o ρ n b s.view) :
    Represents o ρ n b s.getUpdates.2.view ∧ s.getUpdates.2.view.root = some s.getUpdates.1 ∧
      s.getUpdates.2.view.flushed = s.view.flushed := by
  unfold getUpdates
  cases hr : s.root with
  | some a => exact ⟨h, hr, rfl⟩
  | none =>
    have hsize : s.size = n := h.size_eq
    dsimp only
    set contents := List.replicate s.size (APInt.ofNat 8 0) with hcontents
    set p := pullConcrete contents s.head.writes with hp
    have hlen : contents.length = n := by rw [hcontents, length_replicate, hsize]
    obtain ⟨h1, h2, h3⟩ := pullConcrete_spec contents s.head.writes
      (fun v hv => by rw [eq_of_mem_replicate hv]; rfl) h.head_ok
    rw [← hp] at h1 h2 h3
    have hwrites : (null.extendAll p.2).writes = p.2 := by
      rw [writes_extendAll]
      rfl
    refine ⟨⟨hsize, ?_, ?_, ?_, fun i hi => ?_⟩, rfl, rfl⟩
    · rintro a ha
      obtain rfl := Option.some.inj ha
      refine ⟨⟨fun _ => ?_, h2, ?_, by simp, by simp⟩, rfl, rfl, fun _ => hsize⟩
      · rw [h1, hlen, hsize]
      · show s.size ≤ 2 ^ 32
        omega
    · intro q hq
      have hq : q ∈ (null.extendAll p.2).writes := hq
      rw [hwrites] at hq
      exact h.head_ok q (h3 q hq)
    · intro ho
      have hin := inRange_iff.mp (h.head_defined ho)
      refine inRange_iff.mpr fun q hq => ?_
      have hq : q ∈ (null.extendAll p.2).writes := hq
      rw [hwrites] at hq
      exact hin q (h3 q hq)
    · have hb := h.bytes i hi
      refine ⟨hb.known_not_concrete, hb.unflushed, hb.store_eq, hb.known_ok, fun hf => ?_⟩
      rw [← hb.cell_eq hf]
      have hpull := pullConcrete_evalAt ρ 0 (s.id + 1) ""
        ("const_arr" ++ toString (s.id + 1)) contents s.head.writes
        (hlen ▸ hn) (hlen ▸ hi) h.head_ok
      rw [extendAll_writes] at hpull
      simp only [ByteView.cell, view, hr, getD_none, getD_some]
      have hp1 : p.1.length = s.size := by rw [h1, hlen, hsize]
      have hc1 : contents.length = s.size := by rw [hlen, hsize]
      rw [KArray.ofContents, KArray.ofContents, ← hp, hp1, hc1] at hpull
      exact hpull

/-! ### Reading and writing a byte -/

/-- A read of the update list at a flushed byte. -/
lemma readExpr_hasValue {v : ByteView} {a : KArray} (hn : n ≤ 2 ^ 32)
    (h : Represents o ρ n b v) (hr : v.root = some a) (hk : k < n)
    (hf : v.flushed k = true) (hi : HasValue o ρ index (.ofNat 32 k)) :
    HasValue o ρ (ReadExpr.create o a v.head index) ⟨8, b k⟩ := by
  obtain ⟨hwf, hdom, hran, hsize⟩ := h.root_ok a hr
  have htyped : (Expr.read a v.head index).Typed :=
    ⟨hwf, hi.ofWidth.typed, hi.ofWidth.width_eq.trans hdom.symm, h.head_ok.typed hdom hran⟩
  refine HasValue.of_refines (ReadExpr.create_refines htyped)
    (ReadExpr.create_canon h.head_ok.canon hi.ofWidth.canon) hran (fun ho => ?_) ?_
  · refine ⟨hi.defined ho, h.head_defined ho, fun hsym => ?_⟩
    rw [hi.eval_eq, hsize hsym, APInt.ofNat, APInt.toNat, BitVec.toNat_ofNat,
      Nat.mod_eq_of_lt (hk.trans_le hn)]
    exact hk
  · have hcell := (h.bytes k hk).cell_eq hf
    rw [ByteView.cell, hr, getD_some] at hcell
    rw [Expr.eval, hi.eval_eq, hcell]

theorem read8_represents (hn : n ≤ 2 ^ 32) (h : Represents o ρ n b s.view) (hk : k < n) :
    ∃ e s', s.read8 o k = some (e, s') ∧ Represents o ρ n b s'.view ∧ HasValue o ρ e ⟨8, b k⟩ := by
  have hb := h.bytes k hk
  unfold read8
  by_cases hc : s.isByteConcrete k = true
  · rw [if_pos hc]
    refine ⟨_, s, rfl, h, ?_⟩
    rw [show s.concreteStore k = b k from hb.store_eq hc]
    exact HasValue.const _ (Nat.succ_pos _)
  · rw [if_neg hc]
    cases hk' : s.known k with
    | some e =>
      obtain ⟨h1, h2, h3⟩ := hb.known_ok e hk'
      exact ⟨e, s, rfl, h, h1, h2, h3⟩
    | none =>
      -- the cache invariants rule out an unflushed byte without cache value
      have hf : s.isByteFlushed k = true := by
        by_contra hf
        rcases hb.unflushed (Bool.eq_false_iff.mpr hf) with hconc | hknown
        · exact hc hconc
        · rw [show s.view.known k = none from hk'] at hknown
          simp at hknown
      obtain ⟨hrep, hroot, hfl⟩ := getUpdates_represents hn h
      rw [if_pos hf]
      refine ⟨_, _, rfl, hrep, readExpr_hasValue hn hrep hroot hk ?_ ?_⟩
      · rw [hfl]
        exact hf
      · exact HasValue.const (.ofNat 32 k) (Nat.succ_pos _)

/-- A cast of an expression to its own width. -/
lemma zExtExpr_create_self {w : ℕ} (h : e.width = w) : ZExtExpr.create e w = e := by
  rw [ZExtExpr.create, if_pos h.symm]

theorem read8Sym_represents (hn : n ≤ 2 ^ 32) (h : Represents o ρ n b s.view)
    (hk : k < n) (hi : HasValue o ρ index (.ofNat 32 k))
    (hc : index.isConst = false) :
    ∃ e s', s.read8Sym o index = some (e, s') ∧ Represents o ρ n b s'.view ∧
      HasValue o ρ e ⟨8, b k⟩ := by
  obtain ⟨s₁, hs₁, h₁, hf₁⟩ := flushRangeForRead_represents hn h
  obtain ⟨hrep, hroot, hfl⟩ := getUpdates_represents hn h₁
  unfold read8Sym
  rw [if_neg (by simp [hc]), hs₁]
  refine ⟨_, _, rfl, hrep, readExpr_hasValue hn hrep hroot hk ?_ ?_⟩
  · rw [hfl]
    exact hf₁ k hk
  · rw [zExtExpr_create_self (w := 32) hi.ofWidth.width_eq]
    exact hi

theorem write8Sym_represents (hn : n ≤ 2 ^ 32) (h : Represents o ρ n b s.view)
    (hk : k < n) {value : Expr} {x : BitVec 8} (hi : HasValue o ρ index (.ofNat 32 k))
    (hc : index.isConst = false) (hv : HasValue o ρ value ⟨8, x⟩) :
    ∃ s', s.write8Sym index value = some s' ∧ Represents o ρ n (update b k x) s'.view := by
  obtain ⟨s₁, hs₁, h₁, hf₁⟩ := flushRangeForWrite_represents hn h
  unfold write8Sym
  rw [if_neg (by simp [hc]), hs₁, zExtExpr_create_self (w := 32) hi.ofWidth.width_eq]
  refine ⟨_, rfl, ?_⟩
  rw [view_extend]
  refine ⟨h₁.size_eq, h₁.root_ok, ?_, fun ho => ⟨h₁.head_defined ho, hi.defined ho,
    hv.defined ho⟩, fun i hi' => ?_⟩
  · exact byteChain_node.mpr ⟨h₁.head_ok, hi.ofWidth, hv.ofWidth⟩
  · obtain ⟨hflush, hconc, hknown⟩ := hf₁ i hi'
    rw [cell_extend, hi.eval_eq]
    simp only [ofNat_inj (hk.trans_le hn) (hi'.trans_le hn)]
    refine ⟨fun hs => ?_, fun hu => ?_, fun hcc => ?_, fun e he => ?_, fun _ => ?_⟩
    · exact hconc
    · exact absurd (hflush.symm.trans hu) (by simp)
    · exact absurd (hconc.symm.trans hcc) (by simp)
    · exact absurd (hknown.symm.trans he) (by simp)
    · rcases eq_or_ne i k with rfl | hik
      · rw [if_pos rfl, update_self]
        exact hv.eval_eq
      · rw [if_neg hik.symm, update_of_ne hik]
        exact (h₁.bytes i hi').cell_eq hflush

end Bytes

end Castan
