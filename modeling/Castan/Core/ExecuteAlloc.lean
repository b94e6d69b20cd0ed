/-
# Allocations of a symbolic size

`Executor::executeAlloc` allocates memory of a size that may be symbolic.  It allocates a size that
is as small as halving makes it, and for the other sizes an object if there is only one of them;
otherwise the huge sizes get a null pointer and the rest is an error.  The bound for a huge size is
`1 << 31` as an `int`, which becomes a number close to `2 ^ 64`, and the object keeps 32 bits of its
size.
-/
import Castan.Core.MemoryManager
import Castan.Core.MemoryOperation
import Castan.Core.Switch

namespace Castan

open Executor TimingSolver

variable {counter : ℕ} {s : ExecutionState MemoryState} {o : Opts} {ρ : Valuation}

/-! ### The contents of a new object -/

namespace ObjectState

/-- All bytes become concrete. -/
def initializeTo (b : BitVec 8) (s : ObjectState) : ObjectState :=
  { s with
    concreteStore := fun _ => b
    concreteMask := none
    flushMask := none
    knownSymbolics := none }

def initializeToZero : ObjectState → ObjectState := initializeTo 0

def initializeToRandom : ObjectState → ObjectState := initializeTo 0xAB

/-- The loop that copies bytes of the object `source`.  A read may flush the source, which changes
none of its bytes. -/
def copyBytes (o : Opts) (littleEndian : Bool) : List ℕ → (source os : ObjectState) →
    Option ObjectState
  | [], _, os => some os
  | i :: is, source, os =>
    (source.read8 o i).bind fun r =>
      (os.writeAt littleEndian i r.1).bind fun os => copyBytes o littleEndian is r.2 os

end ObjectState

/-! ### Allocation -/

/-- The counter of `MemoryObject`, and what `malloc` keeps. -/
structure Heap (μ : Type) where
  counter : ℕ
  blocks : μ

/-- What `executeAlloc` is given besides the size, and the parts of the surroundings that it uses.
Whether the object is local only matters when its function returns. -/
structure AllocRequest (μ : Type) where
  /-- The address that `MemoryManager::allocate` finds for a size, 0 for none. -/
  malloc : μ → BitVec 64 → BitVec 64 × μ
  /-- The number for constant arrays and the array `tmp_arr` of a new `ObjectState`. -/
  arrays : MemoryObject → ℕ × Option KArray
  littleEndian : Bool
  target : ℕ
  zeroMemory : Bool
  reallocFrom : Option (MemoryObject × ObjectState)

namespace AllocRequest

variable {μ : Type} (req : AllocRequest μ)

/-- `MemoryManager::allocate` -/
def allocate (heap : Heap μ) (size : BitVec 64) : Option MemoryObject × Heap μ :=
  let (address, blocks) := req.malloc heap.blocks size
  if address = 0 then (none, { heap with blocks })
  else (some (MemoryManager.newObject heap.counter address size), ⟨heap.counter + 1, blocks⟩)

/-- A new `ObjectState`, filled. -/
def fill (mo : MemoryObject) : ObjectState :=
  let os := ObjectState.ofConcrete mo.size (req.arrays mo).1 (req.arrays mo).2
  if req.zeroMemory then os.initializeToZero else os.initializeToRandom

/-- The contents of the new object, with the bytes of the one that is reallocated. -/
def contents (o : Opts) (mo : MemoryObject) : Option ObjectState :=
  match req.reallocFrom with
  | none => some (req.fill mo)
  | some old =>
    ObjectState.copyBytes o req.littleEndian (List.range (min old.2.size mo.size)) old.2
      (req.fill mo)

end AllocRequest

namespace ExecutionState

/-- `state.addressSpace.unbindObject(reallocFrom->getObject())`, if there is one. -/
def unbind (old : Option (MemoryObject × ObjectState)) (state : ExecutionState MemoryState) :
    ExecutionState MemoryState :=
  match old with
  | none => state
  | some (mo, _) =>
    { state with rest := { state.rest with objects := state.rest.objects.remove mo } }

end ExecutionState

namespace Executor

variable {μ : Type} (executor : Executor) (req : AllocRequest μ)

/-- The part of `executeAlloc` for a constant size. -/
def allocConstant (size : APInt) (state : ExecutionState MemoryState) (heap : Heap μ) :
    Option (ExecutionState MemoryState × Heap μ) :=
  match req.allocate heap (.ofNat 64 size.toNat) with
  | (none, heap) => some (state.bindLocal req.target (.const (.ofNat 64 0)), heap)
  | (some mo, heap) =>
    (req.contents executor.timing.opts mo).map fun os =>
      (((state.setObject mo ⟨false, os⟩).bindLocal req.target (mo.getBaseExpr 64)).unbind
        req.reallocFrom, heap)

/-- The loop that halves the example as long as it is large and its half is possible. -/
def smallExample (constraints : List Expr) (size : Expr) (ex : APInt) : Option APInt :=
  if (APInt.ofNat ex.width 128).toNat < ex.toNat then
    let tmp := APInt.ofNat ex.width (ex.toNat / 2)
    (executor.timing.mayBeTrue constraints
      (EqExpr.create executor.timing.opts (.const tmp) size)).bind fun res =>
        if res then smallExample constraints size tmp else some ex
  else some ex
termination_by ex.toNat
decreasing_by
  have hle : (APInt.ofNat ex.width (ex.toNat / 2)).toNat ≤ ex.toNat / 2 := by
    rw [APInt.toNat, APInt.ofNat, BitVec.toNat_ofNat]
    exact Nat.mod_le _ _
  omega

/-- `ConstantExpr::alloc(1 << 31, w)`: the shift overflows an `int`, and the parameter of `alloc`
has 64 bits. -/
def hugeBound (w : ℕ) : APInt := .ofNat w ((BitVec.ofNat 32 (1 <<< 31)).signExtend 64).toNat

/-- What is done in the state for the sizes other than the example. -/
def allocOthers (size : Expr) (other : ExecutionState MemoryState) (heap : Heap μ) :
    Option (List (ExecutionState MemoryState) × Heap μ) := do
  let o := executor.timing.opts
  let tmp ← executor.timing.getValue other.constraints size
  let res ← executor.timing.mustBeTrue other.constraints (EqExpr.create o (.const tmp) size)
  if res then
    -- the recursive call, whose size is a constant
    let r ← executor.allocConstant req tmp other heap
    return ([r.1], r.2)
  else
    let hugeSize ← executor.fork other (BinKind.ult.create o (.const (hugeBound tmp.width)) size)
    return ((hugeSize.1.map (·.bindLocal req.target (.const (.ofNat 64 0)))).toList ++
      (hugeSize.2.map (·.terminate "concretized symbolic size")).toList, heap)

/-- `Executor::executeAlloc`: the states that it leaves. -/
def executeAlloc (size : Expr) (state : ExecutionState MemoryState) (heap : Heap μ) :
    Option (List (ExecutionState MemoryState) × Heap μ) := do
  let size := executor.toUnique state.constraints size
  match size.constant? with
  | some c =>
    let r ← executor.allocConstant req c state heap
    return ([r.1], r.2)
  | none =>
    let ex ← executor.timing.getValue state.constraints size
    let ex ← executor.smallExample state.constraints size ex
    let fixedSize ← executor.fork state (EqExpr.create executor.timing.opts (.const ex) size)
    let others ← match fixedSize.2 with
      | none => some ([], heap)
      | some other => executor.allocOthers req size other heap
    match fixedSize.1 with
    | none => return others
    | some state =>
      let r ← executor.allocConstant req ex state others.2
      return (r.1 :: others.1, r.2)

end Executor

/-! ### What becomes of a state -/

/-- The ways in which a state is left. -/
inductive Ending
  | object (size : ℕ)
  | null
  | error

namespace Ending

/-- The state is left in this way: with a new object of the given size as the result, with the
result 0, or with the error.  An object is new if it has a number that was not given before, and an
address that no object of the state had. -/
def Ends (target : ℕ) (objects : MemoryMap HeldObject) (counter : ℕ) :
    Ending → ExecutionState MemoryState → Prop
  | object size, s => s.rest.error = none ∧ ∃ mo os,
      s.rest.objects.lookup mo.address = some (mo, os) ∧ mo.size = size ∧ os.state.size = size ∧
      counter ≤ mo.id ∧ objects.lookup mo.address = none ∧
      0 < mo.address ∧ mo.address < 2 ^ 64 ∧ s.rest.locals target = some (mo.getBaseExpr 64)
  | null, s => s.rest.error = none ∧ s.rest.locals target = some (.const (.ofNat 64 0))
  | error, s => s.rest.error = some "concretized symbolic size"

/-- A state for the given size may be left in this way. -/
def Fits (size : ℕ) : Ending → Prop
  | object n => n = size
  | null => 2 ^ 31 < size
  | error => size ≤ 2 ^ 31

end Ending

/-- The state is left as it should be for the given size. -/
def Treated (target : ℕ) (objects : MemoryMap HeldObject) (counter size : ℕ)
    (s : ExecutionState MemoryState) : Prop :=
  ∃ ending : Ending, ending.Ends target objects counter s ∧ ending.Fits size

/-- A state is left in one way. -/
lemma Ending.Ends.treated_iff {target : ℕ} {objects : MemoryMap HeldObject} {size : ℕ}
    {ending : Ending} (h : ending.Ends target objects counter s) :
    Treated target objects counter size s ↔ ending.Fits size := by
  constructor
  · rintro ⟨ending', h', hfits⟩
    have hbase : ∀ {mo : MemoryObject} {n : ℕ}, 0 < mo.address → mo.address < 2 ^ 64 → n < 2 ^ 64 →
        mo.getBaseExpr 64 = .const (.ofNat 64 n) → mo.address = n := by
      intro mo n _ hlt hn heq
      have hbits : mo.address % 2 ^ 64 = n % 2 ^ 64 := by
        simpa [MemoryObject.getBaseExpr, Expr.eval, APInt.toNat, APInt.ofNat]
          using congrArg (fun e : Expr => (e.eval fun _ _ => 0).toNat) heq
      omega
    cases ending with
    | object n =>
      obtain ⟨halive, mo, os, hlookup, hsize, -, -, -, hpos, hlt, hlocal⟩ := h
      cases ending' with
      | object n' =>
        obtain ⟨-, mo', os', hlookup', hsize', -, -, -, hpos', hlt', hlocal'⟩ := h'
        have haddress : mo.address = mo'.address :=
          hbase hpos hlt hlt' (Option.some.inj (hlocal.symm.trans hlocal'))
        rw [haddress, hlookup', Option.some.injEq, Prod.mk.injEq] at hlookup
        rw [Fits, ← hsize, ← hlookup.1, hsize']
        exact hfits
      | null =>
        have hzero := hbase hpos hlt (by decide) (Option.some.inj (hlocal.symm.trans h'.2))
        omega
      | error => exact absurd (halive.symm.trans h') (by simp)
    | null =>
      cases ending' with
      | object n' =>
        obtain ⟨-, mo', os', -, -, -, -, -, hpos', hlt', hlocal'⟩ := h'
        have hzero := hbase hpos' hlt' (by decide) (Option.some.inj (hlocal'.symm.trans h.2))
        omega
      | null => exact hfits
      | error => exact absurd (h.1.symm.trans h') (by simp)
    | error =>
      cases ending' with
      | object n' => exact absurd (h'.1.symm.trans h) (by simp)
      | null => exact absurd (h'.1.symm.trans h) (by simp)
      | error => exact hfits
  · exact fun hfits => ⟨ending, h, hfits⟩

/-! ### A constant size -/

section Constant

variable {μ : Type} {executor : Executor} {req : AllocRequest μ} {S : Valuation → Prop}
  {state : ExecutionState MemoryState}

lemma ObjectState.copyBytes_represents {littleEndian : Bool} {n n' : ℕ}
    (hn : n ≤ 2 ^ 32) {is : List ℕ} (his : ∀ i ∈ is, i < n) {b b' : ℕ → BitVec 8}
    {source os : ObjectState} (hsource : Represents o ρ n b source.view)
    (hos : Represents o ρ n' b' os.view) :
    ∃ os' b'', copyBytes o littleEndian is source os = some os' ∧
      Represents o ρ n' b'' os'.view := by
  induction is generalizing source os b' with
  | nil => exact ⟨os, b', rfl, hos⟩
  | cons i is ih =>
    obtain ⟨hi, his⟩ := List.forall_mem_cons.1 his
    obtain ⟨e, source', hread, hsource', hvalue⟩ := read8_represents hn hsource hi
    have hwidth : ValidWidth (⟨8, b i⟩ : APInt).width := .inr ⟨dvd_refl 8, Nat.succ_pos 7⟩
    obtain ⟨os₁, hwrite, hos₁⟩ : ∃ os₁, os.writeAt littleEndian i e = some os₁ ∧ _ :=
      writeAt_represents hos hvalue hwidth
    obtain ⟨os', b'', hcopy, hos'⟩ := ih his hsource' hos₁
    refine ⟨os', b'', ?_, hos'⟩
    rw [copyBytes, hread, Option.bind_some, hwrite, Option.bind_some, hcopy]

/-- Memory can be allocated in the state: `malloc` finds addresses that are not in use, and an
object that is reallocated is one of the objects of the state and can be read. -/
structure AllocRequest.Ready (o : Opts) (S : Valuation → Prop) (state : ExecutionState MemoryState)
    (req : AllocRequest μ) : Prop where
  alive : state.rest.error = none
  path : Decides o state.constraints S
  sat : ∃ ρ, S ρ
  malloc_ne_zero : ∀ blocks size, (req.malloc blocks size).1 ≠ 0
  malloc_fresh : ∀ blocks size,
    state.rest.objects.lookup (req.malloc blocks size).1.toNat = none
  arrays : ∀ mo a, (req.arrays mo).2 = some a → a.WF ∧ a.domain = 32 ∧ a.range = 8 ∧
    (a.isSymbolicArray = false → a.size = mo.size)
  realloc : ∀ mo os, req.reallocFrom = some (mo, os) →
    (state.rest.objects.lookup mo.address).isSome ∧ os.size ≤ 2 ^ 32 ∧
      ∃ ρ b, Represents o ρ os.size b os.view

lemma AllocRequest.contents_spec (hreq : req.Ready o S state) (mo : MemoryObject) :
    ∃ os, req.contents o mo = some os ∧ os.size = mo.size := by
  have hfill : ∀ ρ, ∃ b, Represents o ρ mo.size b (req.fill mo).view := by
    intro ρ
    rw [fill]
    split
    · exact ⟨_, filled_represents (hreq.arrays mo) _ 0⟩
    · exact ⟨_, filled_represents (hreq.arrays mo) _ 0xAB⟩
  rw [contents]
  cases hold : req.reallocFrom with
  | none =>
    obtain ⟨b, hb⟩ := hfill fun _ _ => 0
    exact ⟨_, rfl, hb.size_eq⟩
  | some old =>
    obtain ⟨-, hsize, ρ, b, hsource⟩ := hreq.realloc old.1 old.2 hold
    obtain ⟨b', hb'⟩ := hfill ρ
    have hrange : ∀ i ∈ List.range (min old.2.size mo.size), i < old.2.size := by
      intro i hi
      exact (List.mem_range.1 hi).trans_le (min_le_left _ _)
    obtain ⟨os', b'', hcopy, hos'⟩ := ObjectState.copyBytes_represents hsize hrange hsource hb'
    exact ⟨os', hcopy, hos'.size_eq⟩

lemma AllocRequest.allocate_eq (hreq : req.Ready o S state) (heap : Heap μ) (size : BitVec 64) :
    req.allocate heap size =
      (some (MemoryManager.newObject heap.counter (req.malloc heap.blocks size).1 size),
        ⟨heap.counter + 1, (req.malloc heap.blocks size).2⟩) := by
  rw [allocate]
  exact if_neg (hreq.malloc_ne_zero heap.blocks size)

/-- The new object stays when the old one is unbound. -/
lemma lookup_unbind (hreq : req.Ready o S state) {address : ℕ} {e : MemoryObject × HeldObject}
    (hfresh : state.rest.objects.lookup address = none)
    (hlookup : s.rest.objects.lookup address = some e) :
    (s.unbind req.reallocFrom).rest.objects.lookup address = some e := by
  cases hold : req.reallocFrom with
  | none => exact hlookup
  | some old =>
    show (s.rest.objects.remove old.1).lookup address = some e
    rw [MemoryMap.lookup_remove, if_neg, hlookup]
    rintro rfl
    have hbound := (hreq.realloc old.1 old.2 hold).1
    rw [hfresh] at hbound
    exact absurd hbound (by decide)

lemma unbind_frame (old : Option (MemoryObject × ObjectState)) (s : ExecutionState MemoryState) :
    (s.unbind old).constraints = s.constraints ∧ (s.unbind old).rest.error = s.rest.error ∧
      (s.unbind old).rest.locals = s.rest.locals := by
  cases old with
  | none => exact ⟨rfl, rfl, rfl⟩
  | some old => exact ⟨rfl, rfl, rfl⟩

/-- The state gets a new object with 32 bits of the size. -/
lemma allocConstant_spec (hreq : req.Ready executor.timing.opts S state)
    (hs : s.rest = state.rest) {heap : Heap μ}
    (hcounter : counter ≤ heap.counter) {size : APInt} (hwidth : size.width = 64) :
    ∃ s' heap', executor.allocConstant req size s heap = some (s', heap') ∧
      s'.constraints = s.constraints ∧ counter ≤ heap'.counter ∧
      (Ending.object (size.toNat % 2 ^ 32)).Ends req.target state.rest.objects counter s' := by
  have hnat : (BitVec.ofNat 64 size.toNat).toNat = size.toNat := by
    have hlt : size.toNat < 2 ^ 64 := hwidth ▸ size.toNat_lt
    rw [BitVec.toNat_ofNat, Nat.mod_eq_of_lt hlt]
  have hfresh := hreq.malloc_fresh heap.blocks (.ofNat 64 size.toNat)
  have hne := hreq.malloc_ne_zero heap.blocks (.ofNat 64 size.toNat)
  rw [allocConstant, AllocRequest.allocate_eq hreq]
  generalize req.malloc heap.blocks (.ofNat 64 size.toNat) = block at hfresh hne ⊢
  obtain ⟨os, hos, hossize⟩ := AllocRequest.contents_spec hreq
    (MemoryManager.newObject heap.counter block.1 (.ofNat 64 size.toNat))
  have hsize : size.toNat % 2 ^ 32 =
      (MemoryManager.newObject heap.counter block.1 (.ofNat 64 size.toNat)).size := by
    rw [MemoryManager.newObject, hnat]
  have haddress : block.1.toNat ≠ 0 := fun h => hne (BitVec.eq_of_toNat_eq h)
  set mo := MemoryManager.newObject heap.counter block.1 (.ofNat 64 size.toNat)
  refine ⟨((s.setObject mo ⟨false, os⟩).bindLocal req.target (mo.getBaseExpr 64)).unbind
      req.reallocFrom, ⟨heap.counter + 1, block.2⟩, by simp only [hos, Option.map_some],
    (unbind_frame _ _).1, hcounter.trans (Nat.le_succ _), ?_, mo, ⟨false, os⟩,
    lookup_unbind hreq hfresh ?_, hsize.symm, hossize.trans hsize.symm, hcounter, hfresh,
    Nat.pos_of_ne_zero haddress, block.1.isLt, ?_⟩
  · rw [(unbind_frame _ _).2.1]
    show s.rest.error = none
    rw [hs, hreq.alive]
  · show (s.rest.objects.replace _ _).lookup _ = _
    rw [MemoryMap.lookup_replace, if_pos rfl]
  · rw [(unbind_frame _ _).2.2]
    exact Function.update_self ..

end Constant

/-! ### The example -/

section Symbolic

variable {μ : Type} {executor : Executor} {req : AllocRequest μ} {S : Valuation → Prop}
  {state : ExecutionState MemoryState} {cs : List Expr} {size : Expr} {x : Valuation → APInt}

/-- A size with one value becomes a constant. -/
lemma toUnique_of_unique (hexact : executor.timing.solver.AlwaysExact)
    (hpath : Decides executor.timing.opts cs S) (hsat : ∃ ρ, S ρ) {w : ℕ}
    (hsize : Computes executor.timing.opts S size w x) {v : APInt} (hv : ∀ ρ, S ρ → x ρ = v) :
    executor.toUnique cs size = .const v := by
  obtain ⟨σ, hσ⟩ := hsat
  cases hconst : size.constant? with
  | some c =>
    obtain rfl := Expr.constant?_eq_some.1 hconst
    rw [← hv σ hσ, ← (hsize.hasValue σ hσ).eval_eq]
    rfl
  | none =>
    obtain ⟨v', hv', τ, hτ, rfl⟩ := getValue_spec hexact hpath ⟨σ, hσ⟩ hsize
    have hpos : 0 < (x τ).width := by
      rw [← (hsize.hasValue τ hτ).ofWidth.width_eq]
      exact hsize.ofWidth.typed.width_pos
    obtain ⟨res, hmust, hiff⟩ := mustBeTrue_spec hexact hpath ⟨σ, hσ⟩
      (Tests.eq hsize (hsize.width_eq hτ ▸ Computes.const hpos))
    obtain rfl : res = true := hiff.2 fun ρ hρ => (hv ρ hρ).trans (hv τ hτ).symm
    rw [toUnique, hconst, hv', ← hv τ hτ]
    simp only [hmust]

/-- The half of the size under `σ` is not tried, or is not possible. -/
def Stays (S : Valuation → Prop) (x : Valuation → APInt) (σ : Valuation) : Prop :=
  (x σ).toNat ≤ 128 ∨ ∀ ρ, S ρ → (x ρ).toNat ≠ (x σ).toNat / 2

lemma const_tests (hsize : Computes o S size 64 x) {c : APInt} (hc : c.width = 64) :
    Tests o S (EqExpr.create o (.const c) size) fun ρ => x ρ = c := by
  have hconst : Computes o S (.const c) 64 fun _ => c := by
    rw [← hc]
    exact Computes.const (by omega)
  exact (Tests.eq hconst hsize).congr fun ρ _ => eq_comm

lemma Computes.toNat_lt {w : ℕ} (hsize : Computes o S size w x) (hρ : S ρ) : (x ρ).toNat < 2 ^ w :=
  hsize.width_eq hρ ▸ (x ρ).toNat_lt

/-- The loop ends with a possible size. -/
lemma smallExample_spec (hexact : executor.timing.solver.AlwaysExact)
    (hpath : Decides executor.timing.opts cs S) (hsat : ∃ ρ, S ρ)
    (hsize : Computes executor.timing.opts S size 64 x) (σ : Valuation) (hσ : S σ) :
    ∃ τ, S τ ∧ executor.smallExample cs size (x σ) = some (x τ) ∧ (Stays S x σ → x τ = x σ) := by
  have hwidth : ∀ ρ, S ρ → (x ρ).width = 64 := fun ρ hρ => hsize.width_eq hρ
  induction hn : (x σ).toNat using Nat.strong_induction_on generalizing σ with
  | _ n ih =>
    subst hn
    rw [smallExample, hwidth σ hσ]
    have h128 : (APInt.ofNat 64 128).toNat = 128 := by decide
    rw [h128]
    split
    · next hlarge =>
      have hlt : (x σ).toNat < 2 ^ 64 := hsize.toNat_lt hσ
      have hhalf : (APInt.ofNat 64 ((x σ).toNat / 2)).toNat = (x σ).toNat / 2 :=
        APInt.toNat_ofNat (by omega)
      obtain ⟨res, hres, hiff⟩ := mayBeTrue_spec hexact hpath hsat
        (const_tests hsize (c := .ofNat 64 ((x σ).toNat / 2)) rfl)
      simp only [hres, Option.bind_some]
      cases res with
      | true =>
        obtain ⟨τ, hτ, hxτ⟩ := hiff.1 rfl
        have hxnat : (x τ).toNat = (x σ).toNat / 2 := by rw [hxτ, hhalf]
        obtain ⟨τ', hτ', hrun, -⟩ := ih _ (by omega) τ hτ rfl
        rw [if_pos rfl, ← hxτ]
        refine ⟨τ', hτ', hrun, ?_⟩
        rintro (hsmall | hnone)
        · omega
        · exact absurd hxnat (hnone τ hτ)
      | false => exact ⟨σ, hσ, rfl, fun _ => rfl⟩
    · exact ⟨σ, hσ, rfl, fun _ => rfl⟩

/-! ### The other sizes -/

lemma Executor.Side.dispatches {α β : Type} {P : Valuation → Prop} {s : ExecutionState α}
    {side : Option (ExecutionState α)} (h : Executor.Side o S P s side)
    {f : ExecutionState α → ExecutionState β} (hf : ∀ t, (f t).constraints = t.constraints)
    {Q : Valuation → ExecutionState β → Prop}
    (hQ : ∀ t, t.rest = s.rest → ∀ ρ, S ρ → P ρ → Q ρ (f t)) :
    Dispatches (fun ρ => S ρ ∧ P ρ) Q (side.map f).toList := by
  cases side with
  | none => exact .nil fun ρ hρ => h ρ hρ.1 hρ.2
  | some t =>
    obtain ⟨-, hdec, hrest⟩ := h
    rw [← hf t] at hdec
    exact .singleton hdec fun ρ hρ => hQ t hrest ρ hρ.1 hρ.2

lemma toNat_hugeBound : (hugeBound 64).toNat = 2 ^ 64 - 2 ^ 31 := by decide

/-- What is done with a size when there are several others. -/
def otherEnding (size : APInt) : Ending :=
  if 2 ^ 64 - 2 ^ 31 < size.toNat then .null else .error

/-- The state for some sizes: an object if there is only one of them. -/
lemma allocOthers_spec (hexec : executor.Unlimited) (hreq : req.Ready executor.timing.opts S state)
    {T : Valuation → Prop} {other : ExecutionState MemoryState}
    (hpath : Decides executor.timing.opts other.constraints T) (hsat : ∃ ρ, T ρ)
    (hrest : other.rest = state.rest) (hsize : Computes executor.timing.opts T size 64 x)
    {heap : Heap μ} (hcounter : counter ≤ heap.counter) :
    ∃ states heap', executor.allocOthers req size other heap = some (states, heap') ∧
      counter ≤ heap'.counter ∧
      ((∃ t, ∀ ρ, T ρ → x ρ = t) ∧
          Dispatches T (fun ρ s => (Ending.object ((x ρ).toNat % 2 ^ 32)).Ends req.target
            state.rest.objects counter s) states ∨
        (¬ ∃ t, ∀ ρ, T ρ → x ρ = t) ∧
          Dispatches T (fun ρ s => (otherEnding (x ρ)).Ends req.target state.rest.objects counter s)
            states) := by
  obtain ⟨_, hvalue, τ, hτ, rfl⟩ := getValue_spec hexec.exact hpath hsat hsize
  have hwidth := hsize.width_eq hτ
  obtain ⟨res, hmust, hiff⟩ := mustBeTrue_spec hexec.exact hpath hsat
    (const_tests hsize hwidth)
  rw [allocOthers, hvalue]
  cases res with
  | true =>
    have hall := hiff.1 rfl
    obtain ⟨s', heap', hrun, hcs, hcounter', hends⟩ :=
      allocConstant_spec hreq hrest hcounter hwidth
    refine ⟨[s'], heap', by simp [hmust, hrun], hcounter', .inl ⟨⟨x τ, hall⟩, ?_⟩⟩
    rw [← hcs] at hpath
    refine .singleton hpath fun ρ hρ => ?_
    rw [hall ρ hρ]
    exact hends
  | false =>
    have hsome : ¬ ∃ t, ∀ ρ, T ρ → x ρ = t := by
      rintro ⟨t, ht⟩
      exact absurd (hiff.2 fun ρ hρ => (ht ρ hρ).trans (ht τ hτ).symm) (by decide)
    have hbound : Computes executor.timing.opts T (.const (hugeBound 64)) 64 fun _ =>
        hugeBound 64 := .const (c := hugeBound 64) (by decide)
    obtain ⟨huge, rest, hfork, hhuge, hrestSide⟩ :=
      fork_spec hexec hpath hsat (Tests.ult hbound hsize)
    have hnull : Dispatches (fun ρ => T ρ ∧ (hugeBound 64).toNat < (x ρ).toNat)
        (fun ρ s => (otherEnding (x ρ)).Ends req.target state.rest.objects counter s)
        (huge.map (·.bindLocal req.target (.const (.ofNat 64 0)))).toList := by
      refine hhuge.dispatches (f := fun t => t.bindLocal req.target (.const (.ofNat 64 0)))
        (fun _ => rfl) fun t ht ρ _ hlt => ?_
      rw [otherEnding, if_pos (toNat_hugeBound ▸ hlt)]
      refine ⟨?_, Function.update_self ..⟩
      show t.rest.error = none
      rw [ht, hrest, hreq.alive]
    have herror : Dispatches (fun ρ => T ρ ∧ ¬ (hugeBound 64).toNat < (x ρ).toNat)
        (fun ρ s => (otherEnding (x ρ)).Ends req.target state.rest.objects counter s)
        (rest.map (·.terminate "concretized symbolic size")).toList := by
      refine hrestSide.dispatches (f := fun t => t.terminate "concretized symbolic size")
        (fun _ => rfl) fun t _ ρ _ hle => ?_
      rw [otherEnding, if_neg (toNat_hugeBound ▸ hle)]
      rfl
    refine ⟨_, heap, ?_, hcounter, .inr ⟨hsome, hnull.append herror⟩⟩
    simp [hmust, hwidth, hfork]

/-! ### All sizes -/

/-- There are at most two sizes, and each has its object; or there are more, and one of them, the
example, has its object. -/
lemma executeAlloc_spec (hexec : executor.Unlimited) (hreq : req.Ready executor.timing.opts S state)
    (hsize : Computes executor.timing.opts S size 64 x) (heap : Heap μ) :
    ∃ states heap', executor.executeAlloc req size state heap = some (states, heap') ∧
      ((∃ a b, ∀ ρ, S ρ → x ρ = a ∨ x ρ = b) ∧
          Dispatches S (fun ρ s => (Ending.object ((x ρ).toNat % 2 ^ 32)).Ends req.target
            state.rest.objects heap.counter s) states ∨
        ∃ τ, S τ ∧ (¬ ∃ t, ∀ ρ, S ρ → x ρ = x τ ∨ x ρ = t) ∧
          (∀ σ, executor.timing.solver.Prefers σ → S σ → Stays S x σ → x τ = x σ) ∧
          Dispatches S (fun ρ s => (if x ρ = x τ then Ending.object ((x ρ).toNat % 2 ^ 32)
            else otherEnding (x ρ)).Ends req.target state.rest.objects heap.counter s) states) := by
  by_cases hunique : ∃ v, ∀ ρ, S ρ → x ρ = v
  · obtain ⟨v, hv⟩ := hunique
    obtain ⟨σ, hσ⟩ := hreq.sat
    have hwidth : v.width = 64 := hv σ hσ ▸ hsize.width_eq hσ
    obtain ⟨s', heap', hrun, hcs, -, hends⟩ :=
      allocConstant_spec hreq rfl (le_refl heap.counter) hwidth
    refine ⟨[s'], heap', ?_, .inl ⟨⟨v, v, fun ρ hρ => .inl (hv ρ hρ)⟩, ?_⟩⟩
    · rw [executeAlloc, toUnique_of_unique hexec.exact hreq.path ⟨σ, hσ⟩ hsize hv]
      simp [Expr.constant?, hrun]
    · refine .singleton (hcs ▸ hreq.path) fun ρ hρ => ?_
      rw [hv ρ hρ]
      exact hends
  · obtain ⟨hself, hconst⟩ := toUnique_eq_self hexec.exact hreq.path hreq.sat hsize hunique
    obtain ⟨_, hvalue, σ₀, hσ₀, rfl⟩ :=
      getValue_spec hexec.exact hreq.path hreq.sat hsize
    obtain ⟨τ, hτ, hexample, hstays⟩ :=
      smallExample_spec hexec.exact hreq.path hreq.sat hsize σ₀ hσ₀
    obtain ⟨fixed, others, hfork, hfixed, hothers⟩ := fork_spec hexec hreq.path hreq.sat
      (const_tests hsize (hsize.width_eq hτ))
    -- both states exist
    obtain ⟨s, rfl⟩ : ∃ s, fixed = some s := by
      cases fixed with
      | none => exact absurd rfl (hfixed τ hτ)
      | some s => exact ⟨s, rfl⟩
    obtain ⟨other, rfl⟩ : ∃ s, others = some s := by
      cases others with
      | none => exact absurd ⟨x τ, fun ρ hρ => not_not.1 (hothers ρ hρ)⟩ hunique
      | some s => exact ⟨s, rfl⟩
    obtain ⟨-, hdec, hrest⟩ := hfixed
    obtain ⟨hsat', hdec', hrest'⟩ := hothers
    obtain ⟨states, heap₁, hrun₁, hcounter₁, hcases⟩ := allocOthers_spec hexec hreq hdec' hsat'
      hrest' (hsize.mono fun ρ hρ => hρ.1) (le_refl heap.counter)
    obtain ⟨s', heap', hrun, hcs, -, hends⟩ :=
      allocConstant_spec hreq hrest hcounter₁ (hsize.width_eq hτ)
    have hstate : Decides executor.timing.opts s'.constraints fun ρ => S ρ ∧ x ρ = x τ :=
      hcs ▸ hdec
    refine ⟨s' :: states, heap', ?_, ?_⟩
    · rw [executeAlloc, hself, hconst]
      simp [hvalue, hexample, hfork, hrun₁, hrun]
    · rcases hcases with ⟨⟨t, ht⟩, hothers⟩ | ⟨hmany, hothers⟩
      · refine .inl ⟨⟨x τ, t, fun ρ hρ => ?_⟩, ?_⟩
        · exact (em (x ρ = x τ)).imp_right fun hne => ht ρ ⟨hρ, hne⟩
        · refine Dispatches.append (P := fun ρ => x ρ = x τ) (l := [s']) ?_ hothers
          refine .singleton hstate fun ρ hρ => ?_
          rw [hρ.2]
          exact hends
      · refine .inr ⟨τ, hτ, ?_, ?_, ?_⟩
        · rintro ⟨t, ht⟩
          exact hmany ⟨t, fun ρ hρ => (ht ρ hρ.1).resolve_left hρ.2⟩
        · intro σ hσ hSσ hstaysσ
          have heq := getValue_of_prefers hσ hreq.path hSσ hsize
          rw [hvalue, Option.some.injEq] at heq
          rw [hstays (by rwa [Stays, heq]), heq]
        · refine Dispatches.append (P := fun ρ => x ρ = x τ) (l := [s']) ?_ ?_
          · refine .singleton hstate fun ρ hρ => ?_
            rw [if_pos hρ.2, hρ.2]
            exact hends
          · refine ⟨hothers.within, hothers.apart, fun ρ hρ => ?_⟩
            rw [if_neg hρ.2]
            exact hothers.covered ρ hρ

/-! ### When all sizes are treated as they should be -/

variable (executor req state size) in
/-- The states that are left follow the assignments of the state, and each is as it should be for
its size. -/
def AllTreated (S : Valuation → Prop) (heap : Heap μ) : Prop :=
  ∃ states heap', executor.executeAlloc req size state heap = some (states, heap') ∧
    Dispatches S
      (fun ρ s => Treated req.target state.rest.objects heap.counter (size.eval ρ).toNat s) states

/-- What the property comes to, in the two cases. -/
lemma allTreated_cases (hexec : executor.Unlimited) (hreq : req.Ready executor.timing.opts S state)
    (hsize : Computes executor.timing.opts S size 64 fun ρ => size.eval ρ) (heap : Heap μ) :
    (∃ a b, ∀ ρ, S ρ → size.eval ρ = a ∨ size.eval ρ = b) ∧
        (AllTreated executor req state size S heap ↔ ∀ ρ, S ρ → (size.eval ρ).toNat < 2 ^ 32) ∨
      ∃ τ, S τ ∧ (¬ ∃ t, ∀ ρ, S ρ → size.eval ρ = size.eval τ ∨ size.eval ρ = t) ∧
        (∀ σ, executor.timing.solver.Prefers σ → S σ → Stays S (fun ρ => size.eval ρ) σ →
          size.eval τ = size.eval σ) ∧
        (AllTreated executor req state size S heap ↔ (size.eval τ).toNat < 2 ^ 32 ∧
          ∀ ρ, S ρ → size.eval ρ ≠ size.eval τ →
            (otherEnding (size.eval ρ)).Fits (size.eval ρ).toNat) := by
  obtain ⟨states, heap', hrun, hcases⟩ := executeAlloc_spec hexec hreq hsize heap
  have hall : ∀ ending : Valuation → Ending,
      Dispatches S (fun ρ s => (ending ρ).Ends req.target state.rest.objects heap.counter s)
        states →
      (AllTreated executor req state size S heap ↔
        ∀ ρ, S ρ → (ending ρ).Fits (size.eval ρ).toNat) := by
    intro ending hdisp
    rw [AllTreated, hrun]
    refine Iff.trans ?_ (hdisp.iff_forall fun ρ s hs => hs.treated_iff)
    simp
  rcases hcases with ⟨htwo, hdisp⟩ | ⟨τ, hτ, hmany, hprefers, hdisp⟩
  · refine .inl ⟨htwo, ?_⟩
    rw [hall _ hdisp]
    refine forall₂_congr fun ρ _ => ?_
    rw [Ending.Fits]
    omega
  · refine .inr ⟨τ, hτ, hmany, hprefers, ?_⟩
    rw [hall _ hdisp]
    constructor
    · intro h
      have hobject := h τ hτ
      rw [if_pos rfl, Ending.Fits] at hobject
      refine ⟨by omega, fun ρ hρ hne => ?_⟩
      have hother := h ρ hρ
      rwa [if_neg hne] at hother
    · rintro ⟨hlt, hothers⟩ ρ hρ
      split
      · next heq =>
        rw [heq, Ending.Fits]
        omega
      · next hne => exact hothers ρ hρ hne

/-- A size that is not the example is an error, unless it is at most `2 ^ 31` or next to
`2 ^ 64`. -/
lemma otherEnding_fits {size : APInt} :
    (otherEnding size).Fits size.toNat ↔ size.toNat ≤ 2 ^ 31 ∨ 2 ^ 64 - 2 ^ 31 < size.toNat := by
  rw [otherEnding]
  split <;> simp only [Ending.Fits] <;> omega

/-- With three sizes, all solvers treat them as they should only if they are at most `2 ^ 31`. -/
lemma le_of_allTreated (hreq : req.Ready o S state)
    (hsize : Computes o S size 64 fun ρ => size.eval ρ) {heap : Heap μ}
    (hthree : ¬ ∃ a b, ∀ ρ, S ρ → size.eval ρ = a ∨ size.eval ρ = b)
    (h : ∀ executor : Executor, executor.timing.opts = o → executor.Unlimited →
      AllTreated executor req state size S heap) :
    ∀ ρ, S ρ → (size.eval ρ).toNat ≤ 2 ^ 31 := by
  -- with a solver that prefers a size which is not halved, it becomes the example
  have hexample : ∀ σ, S σ → Stays S (fun ρ => size.eval ρ) σ → (size.eval σ).toNat < 2 ^ 32 ∧
      ∀ ρ, S ρ → size.eval ρ ≠ size.eval σ →
        (size.eval ρ).toNat ≤ 2 ^ 31 ∨ 2 ^ 64 - 2 ^ 31 < (size.eval ρ).toNat := by
    intro σ hσ hstays
    have hexec : Executor.Unlimited ⟨⟨o, .preferring σ, true⟩, false, true, 0⟩ :=
      ⟨SolverImpl.preferring_exact σ, rfl, rfl⟩
    rcases allTreated_cases hexec hreq hsize heap with ⟨htwo, -⟩ | ⟨τ, -, -, hprefers, hiff⟩
    · exact absurd htwo hthree
    · rw [← hprefers σ (SolverImpl.preferring_prefers σ) hσ hstays]
      obtain ⟨hlt, hothers⟩ := hiff.1 (h _ rfl hexec)
      exact ⟨hlt, fun ρ hρ hne => otherEnding_fits.1 (hothers ρ hρ hne)⟩
  -- the least size is not halved
  obtain ⟨σ, hσ, hleast⟩ : ∃ σ, S σ ∧ ∀ ρ, S ρ → (size.eval σ).toNat ≤ (size.eval ρ).toNat := by
    obtain ⟨ρ₀, hρ₀⟩ := hreq.sat
    obtain ⟨σ, hσ, hmin⟩ := (measure fun ρ => (size.eval ρ).toNat).wf.has_min {ρ | S ρ} ⟨ρ₀, hρ₀⟩
    exact ⟨σ, hσ, fun ρ hρ => not_lt.1 (hmin ρ hρ)⟩
  have hstays : Stays S (fun ρ => size.eval ρ) σ := by
    rw [Stays]
    by_cases hsmall : (size.eval σ).toNat ≤ 128
    · exact .inl hsmall
    · refine .inr fun ρ hρ heq => ?_
      have hle := hleast ρ hρ
      omega
  obtain ⟨hσlt, hothers⟩ := hexample σ hσ hstays
  have hdistinct : ∀ ρ, S ρ → (size.eval ρ).toNat ≠ (size.eval σ).toNat →
      size.eval ρ ≠ size.eval σ := fun ρ _ hne heq => hne (by rw [heq])
  -- no other size is above `2 ^ 31`
  have hle : ∀ ρ, S ρ → size.eval ρ ≠ size.eval σ → (size.eval ρ).toNat ≤ 2 ^ 31 := by
    intro ρ hρ hne
    rcases hothers ρ hρ hne with hsmall | hhuge
    · exact hsmall
    · have hlt : (size.eval ρ).toNat < 2 ^ 64 := hsize.toNat_lt hρ
      by_cases hhalf : ∃ ρ', S ρ' ∧ (size.eval ρ').toNat = (size.eval ρ).toNat / 2
      · obtain ⟨ρ', hρ', heq⟩ := hhalf
        rcases hothers ρ' hρ' (hdistinct ρ' hρ' (by omega)) with hsmall | hhuge' <;> omega
      · have hρstays : Stays S (fun ρ => size.eval ρ) ρ :=
          .inr fun ρ' hρ' heq => hhalf ⟨ρ', hρ', heq⟩
        have hρlt := (hexample ρ hρ hρstays).1
        omega
  intro ρ hρ
  by_cases hρσ : size.eval ρ = size.eval σ
  · -- there is a larger size
    obtain ⟨ρ', hρ', hne⟩ : ∃ ρ', S ρ' ∧ size.eval ρ' ≠ size.eval σ := by
      by_contra hno
      refine hthree ⟨size.eval σ, size.eval σ, fun ρ' hρ' => .inl ?_⟩
      by_contra hne
      exact hno ⟨ρ', hρ', hne⟩
    have hle' := hle ρ' hρ' hne
    have hleast' := hleast ρ' hρ'
    rw [hρσ]
    omega
  · exact hle ρ hρ hρσ

/-- One of two values, and the other one. -/
lemma exists_other {x : Valuation → APInt} (h : ∃ a b, ∀ ρ, S ρ → x ρ = a ∨ x ρ = b) {τ : Valuation}
    (hτ : S τ) : ∃ t, ∀ ρ, S ρ → x ρ = x τ ∨ x ρ = t := by
  obtain ⟨a, b, hab⟩ := h
  rcases hab τ hτ with hτa | hτb
  · exact ⟨b, fun ρ hρ => hτa ▸ hab ρ hρ⟩
  · exact ⟨a, fun ρ hρ => hτb ▸ (hab ρ hρ).symm⟩

/-- With every exact solver all sizes are treated as they should be, if and only if they are at most
`2 ^ 31`, or there are at most two of them and these are below `2 ^ 32`. -/
theorem executeAlloc_treated_iff {o : Opts} (hreq : req.Ready o S state) (hsize : size.OfWidth 64)
    (hdefined : ∀ ρ, S ρ → size.Defined o ρ) (heap : Heap μ) :
    (∀ executor : Executor, executor.timing.opts = o → executor.Unlimited →
      AllTreated executor req state size S heap) ↔
      (∀ ρ, S ρ → (size.eval ρ).toNat ≤ 2 ^ 31) ∨ (∀ ρ, S ρ → (size.eval ρ).toNat < 2 ^ 32) ∧
          ∃ a b, ∀ ρ, S ρ → size.eval ρ = a ∨ size.eval ρ = b := by
  have hcomputes : Computes o S size 64 fun ρ => size.eval ρ := .of_defined hsize hdefined
  constructor
  · intro h
    by_cases htwo : ∃ a b, ∀ ρ, S ρ → size.eval ρ = a ∨ size.eval ρ = b
    · refine .inr ⟨?_, htwo⟩
      have hexec : Executor.Unlimited ⟨⟨o, .preferring fun _ _ => 0, true⟩, false, true, 0⟩ :=
        ⟨SolverImpl.preferring_exact _, rfl, rfl⟩
      rcases allTreated_cases hexec hreq hcomputes heap with ⟨-, hiff⟩ | ⟨τ, hτ, hmany, -, -⟩
      · exact hiff.1 (h _ rfl hexec)
      · exact absurd (exists_other htwo hτ) hmany
    · exact .inl (le_of_allTreated hreq hcomputes htwo h)
  · rintro hsizes executor rfl hexec
    have hlt : ∀ ρ, S ρ → (size.eval ρ).toNat < 2 ^ 32 := by
      intro ρ hρ
      rcases hsizes with hle | ⟨hlt, -⟩
      · have hρle := hle ρ hρ
        omega
      · exact hlt ρ hρ
    rcases allTreated_cases hexec hreq hcomputes heap with ⟨-, hiff⟩ | ⟨τ, hτ, hmany, -, hiff⟩
    · exact hiff.2 hlt
    · refine hiff.2 ⟨hlt τ hτ, fun ρ hρ _ => otherEnding_fits.2 (.inl ?_)⟩
      rcases hsizes with hle | ⟨-, htwo⟩
      · exact hle ρ hρ
      · exact absurd (exists_other htwo hτ) hmany

end Symbolic

/-! ### A state without objects -/

def emptyMemory : ExecutionState MemoryState := .unconstrained ⟨.empty, fun _ => none, none⟩

/-- A request for memory at a fixed address. -/
def plainRequest : AllocRequest Unit :=
  ⟨fun _ _ => (4096, ()), fun _ => (0, none), true, 0, true, none⟩

lemma plainRequest_ready : plainRequest.Ready ⟨true, true⟩ emptyMemory.Admits emptyMemory where
  alive := rfl
  path := ExecutionState.unconstrained_path _ _
  sat := ⟨fun _ _ => 0, ExecutionState.unconstrained_admits _ _⟩
  malloc_ne_zero _ _ := (by decide : (4096 : BitVec 64) ≠ 0)
  malloc_fresh _ _ := rfl
  arrays _ _ h := nomatch h
  realloc _ _ h := nomatch h

/-- A size of one byte. -/
theorem executeAlloc_treated_byte :
    plainRequest.Ready ⟨true, true⟩ emptyMemory.Admits emptyMemory ∧
      ∀ executor : Executor, executor.timing.opts = ⟨true, true⟩ → executor.Unlimited →
        AllTreated executor plainRequest emptyMemory pointerX emptyMemory.Admits ⟨0, ()⟩ := by
  refine ⟨plainRequest_ready, (executeAlloc_treated_iff plainRequest_ready pointerX_ofWidth
    (fun ρ _ => pointerX_defined _ ρ) ⟨0, ()⟩).2 (.inl fun ρ _ => ?_)⟩
  have hlt := pointerX_lt ρ
  omega

/-- `2 ^ 31 + 1` and a byte more. -/
def largeSize : Expr := .bin .add (.const (.ofNat 64 (2 ^ 31 + 1))) pointerX

/-- No solver gives `2 ^ 32` bytes an object of that size, and some solver makes an error of a size
above `2 ^ 31`. -/
theorem executeAlloc_mistreats :
    (∀ executor : Executor, executor.timing.opts = ⟨true, true⟩ → executor.Unlimited →
      ¬ AllTreated executor plainRequest emptyMemory (.const (.ofNat 64 (2 ^ 32)))
        emptyMemory.Admits ⟨0, ()⟩) ∧
    ¬ ∀ executor : Executor, executor.timing.opts = ⟨true, true⟩ → executor.Unlimited →
      AllTreated executor plainRequest emptyMemory largeSize emptyMemory.Admits ⟨0, ()⟩ := by
  constructor
  · rintro executor hopts hexec h
    have hsize : (Expr.const (.ofNat 64 (2 ^ 32))).OfWidth 64 := ⟨Nat.succ_pos 63, trivial, rfl⟩
    have hready : plainRequest.Ready executor.timing.opts emptyMemory.Admits emptyMemory :=
      hopts ▸ plainRequest_ready
    rcases allTreated_cases hexec hready (.of_defined hsize fun _ _ _ => trivial) ⟨0, ()⟩ with
      ⟨-, hiff⟩ | ⟨τ, -, hmany, -, -⟩
    · exact absurd (hiff.1 h (fun _ _ => 0) (ExecutionState.unconstrained_admits _ _)) (by decide)
    · exact hmany ⟨.ofNat 64 (2 ^ 32), fun _ _ => .inl rfl⟩
  · intro h
    have hsize : largeSize.OfWidth 64 :=
      ⟨⟨Nat.succ_pos 63, pointerX_ofWidth.typed, rfl⟩, ⟨trivial, pointerX_ofWidth.canon, rfl⟩, rfl⟩
    have hcomputes : Computes ⟨true, true⟩ emptyMemory.Admits largeSize 64 fun ρ =>
        largeSize.eval ρ :=
      .of_defined hsize fun ρ _ ho => ⟨trivial, pointerX_defined ⟨true, true⟩ ρ ho⟩
    have hadmits : ∀ n, emptyMemory.Admits fun _ _ => n := fun n =>
      ExecutionState.unconstrained_admits _ _
    have hle := le_of_allTreated plainRequest_ready hcomputes ?_ h _ (hadmits 0)
    · exact absurd hle (by decide)
    · -- the sizes for the bytes 0, 1 and 2
      rintro ⟨a, b, hab⟩
      have h0 := hab _ (hadmits 0)
      have h1 := hab _ (hadmits 1)
      have h2 := hab _ (hadmits 2)
      have h01 : largeSize.eval (fun _ _ => 0) ≠ largeSize.eval (fun _ _ => 1) := by decide
      have h02 : largeSize.eval (fun _ _ => 0) ≠ largeSize.eval (fun _ _ => 2) := by decide
      have h12 : largeSize.eval (fun _ _ => 1) ≠ largeSize.eval (fun _ _ => 2) := by decide
      grind

end Castan
