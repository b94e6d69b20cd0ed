/-
# Resolving pointers

`AddressSpace::resolve` collects the objects a symbolic pointer can point to.  It starts at a
feasible address, walks through the objects backwards and forwards and stops where the solver
proves that no further object is in reach.  `AddressSpace::resolveOne` looks for one such object.
-/
import Castan.Core.AddressSpace
import Castan.Core.Fork

namespace Castan

open BinKind List TimingSolver

variable {o : Opts} {a : ℕ}

/-! ### Bounds checks -/

namespace MemoryObject

variable (o : Opts) (pointerWidth : ℕ) (mo : MemoryObject)

def getBaseExpr : Expr := .const (.ofNat pointerWidth mo.address)

def getSizeExpr : Expr := .const (.ofNat pointerWidth mo.size)

def getOffsetExpr (pointer : Expr) : Expr :=
  BinKind.sub.create o pointer (mo.getBaseExpr pointerWidth)

def getBoundsCheckOffset (offset : Expr) : Expr :=
  if mo.size = 0 then EqExpr.create o offset (.const (.ofNat pointerWidth 0))
  else BinKind.ult.create o offset (mo.getSizeExpr pointerWidth)

def getBoundsCheckPointer (pointer : Expr) : Expr :=
  mo.getBoundsCheckOffset o pointerWidth (mo.getOffsetExpr o pointerWidth pointer)

/-- The address is inside the object, or the address of an object of size zero. -/
def Contains (x : ℕ) : Prop :=
  if mo.size = 0 then x = mo.address else mo.address ≤ x ∧ x < mo.address + mo.size

instance (x : ℕ) : Decidable (mo.Contains x) := by
  unfold Contains
  infer_instance

end MemoryObject

/-! ### The searches -/

namespace MemoryMap

variable {P : Type}

/-- `lookup_previous` -/
def lookupPrevious (m : MemoryMap P) (address : ℕ) : Option (MemoryObject × P) :=
  SortedMap.lookupPrevious (fun e => e.1.address) address m.entries

/-- The objects before `upper_bound(address)`, from the last one. -/
def before (m : MemoryMap P) (address : ℕ) : List (MemoryObject × P) :=
  (m.entries.take (SortedMap.upperBound (fun e => e.1.address) address m.entries)).reverse

/-- The objects from `upper_bound(address)` on. -/
def after (m : MemoryMap P) (address : ℕ) : List (MemoryObject × P) :=
  m.entries.drop (SortedMap.upperBound (fun e => e.1.address) address m.entries)

/-- `AddressSpace::resolveOne` for a constant address. -/
def resolveConstant (m : MemoryMap P) (address : ℕ) : Option (MemoryObject × P) :=
  (m.lookupPrevious address).filter fun e =>
    (e.1.size = 0 ∧ address = e.1.address) ∨ address - e.1.address < e.1.size

end MemoryMap

/-- How a loop of `resolve` ends. -/
inductive Scan (P : Type)
  /-- `resolve` returns, with `true` if the list is not complete. -/
  | returned (incomplete : Bool) (rl : List (MemoryObject × P))
  | left (rl : List (MemoryObject × P))

section Search

variable {P : Type} (timing : TimingSolver) (pointerWidth : ℕ) (constraints : List Expr) (p : Expr)

/-- The object is added to the list if the pointer can point to it. -/
def tryObject (maxResolutions : ℕ) (e : MemoryObject × P) (rl : List (MemoryObject × P)) :
    Scan P :=
  let inBounds := e.1.getBoundsCheckPointer timing.opts pointerWidth p
  match timing.mayBeTrue constraints inBounds with
  | none => .returned true rl
  | some false => .left rl
  | some true =>
    let rl := rl ++ [e]
    if rl.length = 1 then
      match timing.mustBeTrue constraints inBounds with
      | none => .returned true rl
      | some true => .returned false rl
      | some false => .left rl
    else if rl.length = maxResolutions then .returned true rl
    else .left rl

def searchBackwards (maxResolutions : ℕ) :
    List (MemoryObject × P) → List (MemoryObject × P) → Scan P
  | [], rl => .left rl
  | e :: es, rl =>
    match tryObject timing pointerWidth constraints p maxResolutions e rl with
    | .returned incomplete rl => .returned incomplete rl
    | .left rl =>
      match timing.mustBeTrue constraints
          (BinKind.uge.create timing.opts p (e.1.getBaseExpr pointerWidth)) with
      | none => .returned true rl
      | some true => .left rl
      | some false => searchBackwards maxResolutions es rl

def searchForwards (maxResolutions : ℕ) :
    List (MemoryObject × P) → List (MemoryObject × P) → Scan P
  | [], rl => .left rl
  | e :: es, rl =>
    match timing.mustBeTrue constraints
        (BinKind.ult.create timing.opts p (e.1.getBaseExpr pointerWidth)) with
    | none => .returned true rl
    | some true => .left rl
    | some false =>
      match tryObject timing pointerWidth constraints p maxResolutions e rl with
      | .returned incomplete rl => .returned incomplete rl
      | .left rl => searchForwards maxResolutions es rl

/-- `AddressSpace::resolve` without a timeout: whether the list is incomplete, and the list. -/
def MemoryMap.resolve (m : MemoryMap P) (maxResolutions : ℕ) (rl : List (MemoryObject × P)) :
    Bool × List (MemoryObject × P) :=
  match p.constant? with
  | some c => (false, rl ++ (m.resolveConstant c.toNat).toList)
  | none =>
    match timing.getValue constraints p with
    | none => (true, rl)
    | some cex =>
      match searchBackwards timing pointerWidth constraints p maxResolutions
          (m.before cex.toNat) rl with
      | .returned incomplete rl => (incomplete, rl)
      | .left rl =>
        match searchForwards timing pointerWidth constraints p maxResolutions
            (m.after cex.toNat) rl with
        | .returned incomplete rl => (incomplete, rl)
        | .left rl => (false, rl)

/-- The first loop of `resolveOne`; `none` if the solver fails. -/
def searchOneBackwards : List (MemoryObject × P) → Option (Option (MemoryObject × P))
  | [] => some none
  | e :: es =>
    match timing.mayBeTrue constraints (e.1.getBoundsCheckPointer timing.opts pointerWidth p) with
    | none => none
    | some true => some (some e)
    | some false =>
      match timing.mustBeTrue constraints
          (BinKind.uge.create timing.opts p (e.1.getBaseExpr pointerWidth)) with
      | none => none
      | some true => some none
      | some false => searchOneBackwards es

def searchOneForwards : List (MemoryObject × P) → Option (Option (MemoryObject × P))
  | [] => some none
  | e :: es =>
    match timing.mustBeTrue constraints
        (BinKind.ult.create timing.opts p (e.1.getBaseExpr pointerWidth)) with
    | none => none
    | some true => some none
    | some false =>
      match timing.mayBeTrue constraints
          (e.1.getBoundsCheckPointer timing.opts pointerWidth p) with
      | none => none
      | some true => some (some e)
      | some false => searchOneForwards es

/-- `AddressSpace::resolveOne`: the object if there is `success`; `none` if the solver fails. -/
def MemoryMap.resolveOne (m : MemoryMap P) : Option (Option (MemoryObject × P)) :=
  match p.constant? with
  | some c => some (m.resolveConstant c.toNat)
  | none =>
    match timing.getValue constraints p with
    | none => none
    | some cex =>
      match (m.lookupPrevious cex.toNat).filter fun e => cex.toNat - e.1.address < e.1.size with
      | some e => some (some e)
      | none =>
        match searchOneBackwards timing pointerWidth constraints p (m.before cex.toNat) with
        | none => none
        | some (some e) => some (some e)
        | some none =>
          searchOneForwards timing pointerWidth constraints p (m.after cex.toNat)

end Search

/-! ### Comparisons of addresses -/

namespace BinKind

variable {a b : APInt}

lemma ult_fold (hw : a.width = b.width) :
    ult.fold a b = .bool (decide (a.toNat < b.toNat)) := by
  obtain ⟨w, x⟩ := a
  obtain ⟨w', y⟩ := b
  obtain rfl : w = w' := hw
  rw [fold_mk]
  rfl

lemma uge_fold (hw : a.width = b.width) :
    uge.fold a b = .bool (decide (b.toNat ≤ a.toNat)) := by
  obtain ⟨w, x⟩ := a
  obtain ⟨w', y⟩ := b
  obtain rfl : w = w' := hw
  rw [fold_mk]
  rfl

lemma sub_fold_toNat (hw : a.width = b.width) :
    (sub.fold a b).toNat = (2 ^ a.width - b.toNat + a.toNat) % 2 ^ a.width := by
  obtain ⟨w, x⟩ := a
  obtain ⟨w', y⟩ := b
  obtain rfl : w = w' := hw
  rw [fold_mk]
  exact BitVec.toNat_sub x y

end BinKind

namespace Tests

variable {o : Opts} {S : Valuation → Prop} {l r : Expr} {w : ℕ} {x y : Valuation → APInt}

lemma ult (hl : Computes o S l w x) (hr : Computes o S r w y) :
    Tests o S (ult.create o l r) fun ρ => (x ρ).toNat < (y ρ).toNat := by
  refine of_computes (hl.bin .ult hr) fun ρ hρ => ?_
  rw [ult_fold ((hl.width_eq hρ).trans (hr.width_eq hρ).symm), APInt.bool_inj,
    decide_eq_true_iff]

lemma uge (hl : Computes o S l w x) (hr : Computes o S r w y) :
    Tests o S (uge.create o l r) fun ρ => (y ρ).toNat ≤ (x ρ).toNat := by
  refine of_computes (hl.bin .uge hr) fun ρ hρ => ?_
  rw [uge_fold ((hl.width_eq hρ).trans (hr.width_eq hρ).symm), APInt.bool_inj,
    decide_eq_true_iff]

end Tests

/-! ### The objects of an address space -/

/-- The objects are disjoint, where an object of size zero takes its address, and lie in the
address space. -/
structure MemoryMap.Layout {P : Type} (pointerWidth : ℕ) (m : MemoryMap P) : Prop where
  address : ∀ e ∈ m.entries, e.1.address < 2 ^ pointerWidth
  size : ∀ e ∈ m.entries, e.1.size < 2 ^ pointerWidth
  noWrap : ∀ e ∈ m.entries, e.1.address + e.1.size ≤ 2 ^ pointerWidth
  apart : ∀ e ∈ m.entries, ∀ e' ∈ m.entries, e ≠ e' →
    ∀ x, e.1.Contains x → ¬ e'.1.Contains x

namespace MemoryObject

variable {mo : MemoryObject} {x : ℕ}

lemma contains_address : mo.Contains mo.address := by
  unfold Contains
  split <;> omega

lemma Contains.le (h : mo.Contains x) : mo.address ≤ x := by
  unfold Contains at h
  split at h <;> omega

end MemoryObject

namespace MemoryMap

variable {P : Type} {m : MemoryMap P} {w : ℕ}

lemma Layout.lt (h : m.Layout w) {e e' : MemoryObject × P} (he : e ∈ m.entries)
    (he' : e' ∈ m.entries) (hlt : e.1.address < e'.1.address) {x : ℕ} (hx : e.1.Contains x) :
    x < e'.1.address := by
  have hne : e ≠ e' := fun heq => hlt.ne (congrArg (·.1.address) heq)
  by_contra hle
  -- otherwise the object also contains the address of the other one
  refine h.apart e he e' he' hne e'.1.address ?_ MemoryObject.contains_address
  unfold MemoryObject.Contains at hx ⊢
  split at hx <;> split <;> omega

end MemoryMap

/-! ### What the bounds checks say -/

section Pointer

variable {P : Type} {timing : TimingSolver} {w : ℕ} {cs : List Expr} {p : Expr}
  {S : Valuation → Prop} {x : Valuation → APInt} {m : MemoryMap P} {e : MemoryObject × P}

lemma Computes.address (hp : Computes o S p w x) {n : ℕ} :
    Computes o S (.const (.ofNat w n)) w fun _ => .ofNat w n :=
  .const (hp.ofWidth.width_eq ▸ hp.ofWidth.typed.width_pos)

/-- The offset of a pointer, as long as it does not wrap around. -/
lemma offset_toNat {a : APInt} {base : ℕ} (hbase : base < 2 ^ a.width) :
    (sub.fold a (.ofNat a.width base)).toNat =
      if base ≤ a.toNat then a.toNat - base else 2 ^ a.width - base + a.toNat := by
  have ha := a.toNat_lt
  rw [sub_fold_toNat (APInt.ofNat_width _ _).symm, APInt.toNat_ofNat hbase]
  split
  · next hle =>
    rw [show 2 ^ a.width - base + a.toNat = (a.toNat - base) + 2 ^ a.width by omega,
      Nat.add_mod_right, Nat.mod_eq_of_lt (by omega)]
  · exact Nat.mod_eq_of_lt (by omega)

lemma offset_nat (hp : Computes o S p w x) {ρ : Valuation} (hρ : S ρ) {base : ℕ}
    (hbase : base < 2 ^ w) : (sub.fold (x ρ) (.ofNat w base)).toNat =
      if base ≤ (x ρ).toNat then (x ρ).toNat - base else 2 ^ w - base + (x ρ).toNat := by
  obtain rfl := hp.width_eq hρ
  exact offset_toNat hbase

lemma getBoundsCheckPointer_tests (hp : Computes o S p w x) (h : m.Layout w) (he : e ∈ m.entries) :
    Tests o S (e.1.getBoundsCheckPointer o w p) fun ρ => e.1.Contains (x ρ).toNat := by
  have haddress := h.address e he
  have hsize := h.size e he
  have hwrap := h.noWrap e he
  have hoffset := hp.bin .sub (hp.address (n := e.1.address))
  unfold MemoryObject.getBoundsCheckPointer MemoryObject.getBoundsCheckOffset
    MemoryObject.getOffsetExpr MemoryObject.getBaseExpr MemoryObject.getSizeExpr
  split
  · next hzero =>
    refine (Tests.eq hoffset (hp.address (n := 0))).congr fun ρ hρ => ?_
    have hiff : sub.fold (x ρ) (.ofNat w e.1.address) = .ofNat w 0 ↔
        (sub.fold (x ρ) (.ofNat w e.1.address)).toNat = 0 := by
      constructor
      · intro heq
        rw [heq, APInt.toNat_ofNat (by omega)]
      · intro heq
        refine APInt.ext_toNat ?_ (by rw [heq, APInt.toNat_ofNat (by omega)])
        rw [fold_width, hp.width_eq hρ]
        rfl
    rw [hiff, offset_nat hp hρ haddress, MemoryObject.Contains, if_pos hzero]
    split <;> omega
  · next hpos =>
    refine (Tests.ult hoffset (hp.address (n := e.1.size))).congr fun ρ hρ => ?_
    rw [offset_nat hp hρ haddress, APInt.toNat_ofNat hsize, MemoryObject.Contains, if_neg hpos]
    split <;> omega

lemma uge_base_tests (hp : Computes o S p w x) (h : m.Layout w) (he : e ∈ m.entries) :
    Tests o S (uge.create o p (e.1.getBaseExpr w)) fun ρ => e.1.address ≤ (x ρ).toNat := by
  refine (Tests.uge hp (hp.address (n := e.1.address))).congr fun ρ _ => ?_
  rw [APInt.toNat_ofNat (h.address e he)]

lemma ult_base_tests (hp : Computes o S p w x) (h : m.Layout w) (he : e ∈ m.entries) :
    Tests o S (ult.create o p (e.1.getBaseExpr w)) fun ρ => (x ρ).toNat < e.1.address := by
  refine (Tests.ult hp (hp.address (n := e.1.address))).congr fun ρ _ => ?_
  rw [APInt.toNat_ofNat (h.address e he)]

/-- Some assignment of the path puts the pointer into the object. -/
def Reaches (S : Valuation → Prop) (x : Valuation → APInt) (e : MemoryObject × P) : Prop :=
  ∃ ρ, S ρ ∧ e.1.Contains (x ρ).toNat

lemma not_reaches_above {e' : MemoryObject × P} (hbelow : ∀ ρ, S ρ → (x ρ).toNat < e.1.address)
    (hle : e.1.address ≤ e'.1.address) : ¬ Reaches S x e' := by
  rintro ⟨ρ, hρ, hin⟩
  exact absurd (hle.trans hin.le) (not_le.mpr (hbelow ρ hρ))

lemma not_reaches_below (h : m.Layout w) {e' : MemoryObject × P} (he : e ∈ m.entries)
    (he' : e' ∈ m.entries) (habove : ∀ ρ, S ρ → e.1.address ≤ (x ρ).toNat)
    (hlt : e'.1.address < e.1.address) : ¬ Reaches S x e' := by
  rintro ⟨ρ, hρ, hin⟩
  exact absurd (h.lt he' he hlt hin) (not_lt.mpr (habove ρ hρ))

lemma forall_address_le {es : List (MemoryObject × P)}
    (hlt : ∀ e' ∈ es, e.1.address < e'.1.address) : ∀ e' ∈ e :: es, e.1.address ≤ e'.1.address :=
  forall_mem_cons.mpr ⟨le_rfl, fun e' he' => (hlt e' he').le⟩

/-! ### The loops -/

open Classical in
/-- A loop over `es` returns at the only object in reach, or adds those that are in reach. -/
def Scanned (S : Valuation → Prop) (x : Valuation → APInt) (rl es : List (MemoryObject × P))
    (r : Scan P) : Prop :=
  (∃ e ∈ es, r = .returned false [e] ∧ ∀ ρ, S ρ → e.1.Contains (x ρ).toNat) ∨
    r = .left (rl ++ es.filter (Reaches S x ·))

open Classical in
/-- No object of the rest is in reach. -/
lemma Scanned.leave {rl es : List (MemoryObject × P)} (hnone : ∀ e ∈ es, ¬ Reaches S x e) :
    Scanned S x rl es (.left rl) := by
  have hnil : es.filter (Reaches S x ·) = [] := by simpa [filter_eq_nil_iff] using hnone
  exact .inr (by rw [hnil, append_nil])

open Classical in
/-- An object that was tried, and the rest of the loop. -/
lemma Scanned.cons {rl rl₁ es : List (MemoryObject × P)} {r : Scan P}
    (hrl : Reaches S x e ∧ rl₁ = rl ++ [e] ∨ ¬ Reaches S x e ∧ rl₁ = rl)
    (h : Scanned S x rl₁ es r) : Scanned S x rl (e :: es) r := by
  have heq : rl ++ (e :: es).filter (Reaches S x ·) = rl₁ ++ es.filter (Reaches S x ·) := by
    rcases hrl with ⟨hreach, rfl⟩ | ⟨hreach, rfl⟩ <;> simp [hreach]
  rcases h with ⟨e', he', hret⟩ | hleft
  · exact .inl ⟨e', mem_cons_of_mem _ he', hret⟩
  · exact .inr (heq ▸ hleft)

variable (hexact : timing.solver.AlwaysExact) (hcs : Decides timing.opts cs S) (hsat : ∃ ρ, S ρ)
  (hp : Computes timing.opts S p w x) (h : m.Layout w)

include hexact hcs hsat hp h

/-- An object is added if it is in reach, and `resolve` returns if the pointer is always in it. -/
lemma tryObject_spec (he : e ∈ m.entries) (rl : List (MemoryObject × P)) :
    (tryObject timing w cs p 0 e rl = .returned false [e] ∧ ∀ ρ, S ρ → e.1.Contains (x ρ).toNat) ∨
      ∃ rl₁, tryObject timing w cs p 0 e rl = .left rl₁ ∧
        (Reaches S x e ∧ rl₁ = rl ++ [e] ∨ ¬ Reaches S x e ∧ rl₁ = rl) := by
  have htests := getBoundsCheckPointer_tests hp h he
  obtain ⟨may, hmay, hmayIff⟩ := mayBeTrue_spec hexact hcs hsat htests
  obtain ⟨must, hmust, hmustIff⟩ := mustBeTrue_spec hexact hcs hsat htests
  unfold tryObject
  simp only [hmay, hmust]
  cases may with
  | false => exact .inr ⟨rl, rfl, .inr ⟨fun hreach => absurd (hmayIff.2 hreach) (by simp), rfl⟩⟩
  | true =>
    have hreach : Reaches S x e := hmayIff.1 rfl
    simp only [length_append, length_singleton]
    split
    · next hlen =>
      obtain rfl : rl = [] := length_eq_zero_iff.mp (by omega)
      cases must with
      | true => exact .inl ⟨rfl, hmustIff.1 rfl⟩
      | false => exact .inr ⟨_, rfl, .inl ⟨hreach, rfl⟩⟩
    · rw [if_neg (by omega)]
      exact .inr ⟨_, rfl, .inl ⟨hreach, rfl⟩⟩

variable {es : List (MemoryObject × P)} (hes : ∀ e ∈ es, e ∈ m.entries)

include hes

lemma searchBackwards_spec (hsorted : es.Pairwise fun e e' => e'.1.address < e.1.address)
    (rl : List (MemoryObject × P)) :
    Scanned S x rl es (searchBackwards timing w cs p 0 es rl) := by
  induction es generalizing rl with
  | nil => exact .inr (by simp [searchBackwards])
  | cons e es ih =>
    obtain ⟨hlt, hsorted'⟩ := pairwise_cons.mp hsorted
    obtain ⟨he, hes'⟩ := forall_mem_cons.mp hes
    rcases tryObject_spec hexact hcs hsat hp h he rl with ⟨hret, hall⟩ | ⟨rl₁, htry, hrl⟩
    · exact .inl ⟨e, mem_cons_self, by simp only [searchBackwards, hret], hall⟩
    obtain ⟨must, hmust, hmustIff⟩ := mustBeTrue_spec hexact hcs hsat
      (uge_base_tests hp h he)
    simp only [searchBackwards, htry, hmust]
    refine Scanned.cons hrl ?_
    cases must with
    | true =>
      -- no object below is in reach
      exact Scanned.leave fun e' he' =>
        not_reaches_below h he (hes' e' he') (hmustIff.1 rfl) (hlt e' he')
    | false => exact ih hes' hsorted' rl₁

lemma searchForwards_spec (hsorted : es.Pairwise fun e e' => e.1.address < e'.1.address)
    (rl : List (MemoryObject × P)) :
    Scanned S x rl es (searchForwards timing w cs p 0 es rl) := by
  induction es generalizing rl with
  | nil => exact .inr (by simp [searchForwards])
  | cons e es ih =>
    obtain ⟨hlt, hsorted'⟩ := pairwise_cons.mp hsorted
    obtain ⟨he, hes'⟩ := forall_mem_cons.mp hes
    obtain ⟨must, hmust, hmustIff⟩ := mustBeTrue_spec hexact hcs hsat
      (ult_base_tests hp h he)
    simp only [searchForwards, hmust]
    cases must with
    | true =>
      -- neither this object nor one above it is in reach
      exact Scanned.leave fun e' he' =>
        not_reaches_above (hmustIff.1 rfl) (forall_address_le hlt e' he')
    | false =>
      rcases tryObject_spec hexact hcs hsat hp h he rl with ⟨hret, hall⟩ | ⟨rl₁, htry, hrl⟩
      · exact .inl ⟨e, mem_cons_self, by simp only [hret], hall⟩
      · simp only [htry]
        exact Scanned.cons hrl (ih hes' hsorted' rl₁)

open Classical in
lemma searchOneBackwards_spec (hsorted : es.Pairwise fun e e' => e'.1.address < e.1.address) :
    searchOneBackwards timing w cs p es = some (es.find? (Reaches S x ·)) := by
  induction es with
  | nil => rfl
  | cons e es ih =>
    obtain ⟨hlt, hsorted'⟩ := pairwise_cons.mp hsorted
    obtain ⟨he, hes'⟩ := forall_mem_cons.mp hes
    obtain ⟨may, hmay, hmayIff⟩ := mayBeTrue_spec hexact hcs hsat
      (getBoundsCheckPointer_tests hp h he)
    obtain ⟨must, hmust, hmustIff⟩ := mustBeTrue_spec hexact hcs hsat
      (uge_base_tests hp h he)
    have hreach : Reaches S x e ↔ may = true := hmayIff.symm
    simp only [searchOneBackwards, hmay, hmust, List.find?_cons, hreach]
    cases may with
    | true => rfl
    | false =>
      cases must with
      | true =>
        have hnone : es.find? (Reaches S x ·) = none := by
          refine List.find?_eq_none.mpr fun e' he' hreach => ?_
          exact not_reaches_below h he (hes' e' he') (hmustIff.1 rfl) (hlt e' he')
            (of_decide_eq_true hreach)
        simp [hnone]
      | false => simpa using ih hes' hsorted'

open Classical in
lemma searchOneForwards_spec (hsorted : es.Pairwise fun e e' => e.1.address < e'.1.address) :
    searchOneForwards timing w cs p es = some (es.find? (Reaches S x ·)) := by
  induction es with
  | nil => rfl
  | cons e es ih =>
    obtain ⟨hlt, hsorted'⟩ := pairwise_cons.mp hsorted
    obtain ⟨he, hes'⟩ := forall_mem_cons.mp hes
    obtain ⟨may, hmay, hmayIff⟩ := mayBeTrue_spec hexact hcs hsat
      (getBoundsCheckPointer_tests hp h he)
    obtain ⟨must, hmust, hmustIff⟩ := mustBeTrue_spec hexact hcs hsat
      (ult_base_tests hp h he)
    simp only [searchOneForwards, hmay, hmust]
    cases must with
    | true =>
      have hnone : (e :: es).find? (Reaches S x ·) = none := by
        refine List.find?_eq_none.mpr fun e' he' hreach => ?_
        exact not_reaches_above (hmustIff.1 rfl) (forall_address_le hlt e' he')
          (of_decide_eq_true hreach)
      rw [hnone]
    | false =>
      have hreach : Reaches S x e ↔ may = true := hmayIff.symm
      rw [List.find?_cons]
      simp only [hreach]
      cases may with
      | true => rfl
      | false => simpa using ih hes' hsorted'

/-! ### The results -/

omit hexact hcs hsat hp hes

lemma MemoryMap.eq_of_contains {e' : MemoryObject × P} (he : e ∈ m.entries)
    (he' : e' ∈ m.entries) (ha : e.1.Contains a) (ha' : e'.1.Contains a) : e = e' := by
  by_contra hne
  exact h.apart e he e' he' hne a ha ha'

omit h in
lemma lookupPrevious_le (he : m.lookupPrevious a = some e) : e ∈ m.entries ∧ e.1.address ≤ a ∧
      ∀ e' ∈ m.entries, e'.1.address ≤ a → e'.1.address ≤ e.1.address :=
  SortedMap.Sorted.lookupPrevious_eq_some m.sorted he

theorem MemoryMap.resolveConstant_eq_some :
    m.resolveConstant a = some e ↔ e ∈ m.entries ∧ e.1.Contains a := by
  unfold resolveConstant
  rw [Option.filter_eq_some_iff]
  simp only [decide_eq_true_eq]
  constructor
  · rintro ⟨hlook, hin⟩
    obtain ⟨he, hle, -⟩ := lookupPrevious_le hlook
    refine ⟨he, ?_⟩
    unfold MemoryObject.Contains
    split <;> omega
  · rintro ⟨he, hin⟩
    have hle := hin.le
    cases hlook : m.lookupPrevious a with
    | none =>
      have := SortedMap.lookupPrevious_eq_none hlook e he
      omega
    | some e' =>
      -- the object found is the one that contains the address
      obtain ⟨he', hle', hmax⟩ := lookupPrevious_le hlook
      have heq : e.1.address = e'.1.address := by
        refine le_antisymm (hmax e he hle) (not_lt.mp fun hlt => ?_)
        exact absurd (h.lt he he' hlt hin) (not_lt.mpr hle')
      obtain rfl : e = e' := by
        refine MemoryMap.eq_of_contains h he he' e.1.contains_address ?_
        rw [heq]
        exact e'.1.contains_address
      refine ⟨rfl, ?_⟩
      unfold MemoryObject.Contains at hin
      split at hin <;> omega

/-- The list holds exactly the objects in reach. -/
def Exact (S : Valuation → Prop) (x : Valuation → APInt) (m : MemoryMap P)
    (rl : List (MemoryObject × P)) : Prop :=
  rl.Nodup ∧ ∀ e, e ∈ rl ↔ e ∈ m.entries ∧ Reaches S x e

include hsat in
/-- An object that always contains the pointer is the only one in reach. -/
lemma exact_singleton (he : e ∈ m.entries) (hall : ∀ ρ, S ρ → e.1.Contains (x ρ).toNat) :
    Exact S x m [e] := by
  refine ⟨nodup_singleton e, fun e' => ?_⟩
  rw [mem_singleton]
  constructor
  · rintro rfl
    obtain ⟨ρ, hρ⟩ := hsat
    exact ⟨he, ρ, hρ, hall ρ hρ⟩
  · rintro ⟨he', ρ, hρ, hin⟩
    exact MemoryMap.eq_of_contains h he' he hin (hall ρ hρ)

omit h in
lemma before_after (a : ℕ) : (m.before a).reverse ++ m.after a = m.entries := by
  rw [MemoryMap.before, reverse_reverse, MemoryMap.after, take_append_drop]

omit h in
lemma before_sorted (a : ℕ) : (m.before a).Pairwise fun e e' => e'.1.address < e.1.address :=
  pairwise_reverse.mpr (List.Pairwise.sublist (take_sublist _ _) m.sorted)

omit h in
lemma after_sorted (a : ℕ) : (m.after a).Pairwise fun e e' => e.1.address < e'.1.address :=
  List.Pairwise.sublist (drop_sublist _ _) m.sorted

omit h in
lemma mem_before_or_after : e ∈ m.entries ↔ e ∈ m.before a ∨ e ∈ m.after a := by
  rw [← before_after a, mem_append, mem_reverse]

omit h in
lemma mem_of_mem_before : ∀ e ∈ m.before a, e ∈ m.entries := fun _ he =>
  mem_before_or_after.mpr (.inl he)

omit h in
lemma mem_of_mem_after : ∀ e ∈ m.after a, e ∈ m.entries := fun _ he =>
  mem_before_or_after.mpr (.inr he)

omit h in
lemma nodup_before_after (a : ℕ) : (m.before a ++ m.after a).Nodup := by
  have hperm : (m.before a ++ m.after a).Perm m.entries := by
    rw [← before_after a]
    exact (reverse_perm (m.before a)).symm.append_right _
  refine hperm.nodup_iff.mpr (List.Pairwise.imp (fun hlt heq => ?_) m.sorted)
  exact hlt.ne (congrArg (·.1.address) heq)

omit h in
open Classical in
lemma find?_reaches {es : List (MemoryObject × P)} (he : es.find? (Reaches S x ·) = some e) :
    e ∈ es ∧ Reaches S x e := by
  have hreach := List.find?_some he
  exact ⟨mem_of_find?_eq_some he, of_decide_eq_true hreach⟩

include hexact hcs hsat hp

open Classical in
lemma MemoryMap.resolve_exact :
    ∃ rl, m.resolve timing w cs p 0 [] = (false, rl) ∧ Exact S x m rl := by
  unfold resolve
  rcases hc : p.constant? with _ | c
  · obtain ⟨v, hv, -⟩ := getValue_spec hexact hcs hsat hp
    simp only [hv]
    rcases searchBackwards_spec hexact hcs hsat hp h mem_of_mem_before (before_sorted v.toNat) []
      with ⟨e, he, hret, hall⟩ | hleft
    · exact ⟨[e], by simp only [hret], exact_singleton hsat h (mem_of_mem_before e he) hall⟩
    · rcases searchForwards_spec hexact hcs hsat hp h mem_of_mem_after (after_sorted v.toNat)
        ([] ++ (m.before v.toNat).filter (Reaches S x ·)) with ⟨e, he, hret, hall⟩ | hleft'
      · exact ⟨[e], by simp only [hleft, hret], exact_singleton hsat h (mem_of_mem_after e he) hall⟩
      · refine ⟨(m.before v.toNat ++ m.after v.toNat).filter (Reaches S x ·), ?_,
          (nodup_before_after _).filter _, fun e => ?_⟩
        · simp only [hleft, hleft']
          rw [nil_append, filter_append]
        · rw [mem_filter, mem_append, ← mem_before_or_after, decide_eq_true_iff]
  · obtain rfl := Expr.constant?_eq_some.1 hc
    have hvalue : ∀ ρ, S ρ → x ρ = c := fun ρ hρ => (hp.hasValue ρ hρ).eval_eq.symm
    refine ⟨_, rfl, ?_, fun e => ?_⟩
    · rw [nil_append]
      cases m.resolveConstant c.toNat with
      | none => exact nodup_nil
      | some e => exact nodup_singleton e
    · rw [nil_append, Option.mem_toList, resolveConstant_eq_some h]
      refine and_congr_right fun _ => ⟨fun hin => ?_, ?_⟩
      · obtain ⟨ρ, hρ⟩ := hsat
        exact ⟨ρ, hρ, by rwa [hvalue ρ hρ]⟩
      · rintro ⟨ρ, hρ, hin⟩
        rwa [hvalue ρ hρ] at hin

open Classical in
/-- `resolveOne` finds an object in reach if there is one. -/
lemma MemoryMap.resolveOne_exact : ∃ r, m.resolveOne timing w cs p = some r ∧
      (∀ e, r = some e → e ∈ m.entries ∧ Reaches S x e) ∧
      (r = none → ∀ e ∈ m.entries, ¬ Reaches S x e) := by
  unfold resolveOne
  rcases hc : p.constant? with _ | c
  · obtain ⟨v, hv, σ, hσ, hxσ⟩ := getValue_spec hexact hcs hsat hp
    simp only [hv]
    rw [searchOneBackwards_spec hexact hcs hsat hp h mem_of_mem_before (before_sorted _),
      searchOneForwards_spec hexact hcs hsat hp h mem_of_mem_after (after_sorted _)]
    split
    · next e hfast =>
      obtain ⟨hlook, hlt⟩ := Option.filter_eq_some_iff.mp hfast
      obtain ⟨he, hle, -⟩ := lookupPrevious_le hlook
      refine ⟨_, rfl, fun e' heq => ?_, by simp⟩
      obtain rfl := Option.some.inj heq
      refine ⟨he, σ, hσ, ?_⟩
      rw [hxσ, MemoryObject.Contains]
      have := of_decide_eq_true hlt
      split <;> omega
    · cases hback : (m.before v.toNat).find? (Reaches S x ·) with
      | some e =>
        refine ⟨_, rfl, fun e' heq => ?_, by simp⟩
        obtain rfl := Option.some.inj heq
        obtain ⟨he, hreach⟩ := find?_reaches hback
        exact ⟨mem_of_mem_before e he, hreach⟩
      | none =>
        refine ⟨_, rfl, fun e heq => ?_, fun heq e he => ?_⟩
        · obtain ⟨he, hreach⟩ := find?_reaches heq
          exact ⟨mem_of_mem_after e he, hreach⟩
        · rcases mem_before_or_after.mp he with he | he
          · simpa using List.find?_eq_none.mp hback e he
          · simpa using List.find?_eq_none.mp heq e he
  · obtain rfl := Expr.constant?_eq_some.1 hc
    have hvalue : ∀ ρ, S ρ → x ρ = c := fun ρ hρ => (hp.hasValue ρ hρ).eval_eq.symm
    refine ⟨_, rfl, fun e heq => ?_, ?_⟩
    · obtain ⟨he, hin⟩ := (resolveConstant_eq_some h).mp heq
      obtain ⟨ρ, hρ⟩ := hsat
      exact ⟨he, ρ, hρ, by rwa [hvalue ρ hρ]⟩
    · rintro hnone e he ⟨ρ, hρ, hin⟩
      rw [hvalue ρ hρ] at hin
      have := (resolveConstant_eq_some h).mpr ⟨he, hin⟩
      simp [this] at hnone

end Pointer

/-- With an exact solver `resolve` is complete and lists exactly the objects that some assignment
of the path puts the pointer into, each once, and `resolveOne` finds one of them if there is
one. -/
theorem MemoryMap.resolve_complete {P : Type} {timing : TimingSolver} {w : ℕ} {cs : List Expr}
    {p : Expr} {S : Valuation → Prop} {m : MemoryMap P} (hexact : timing.solver.AlwaysExact)
    (hcs : Decides timing.opts cs S) (hsat : ∃ ρ, S ρ) (hp : p.OfWidth w)
    (hdef : ∀ ρ, S ρ → p.Defined timing.opts ρ) (h : m.Layout w) :
    ∃ rl, m.resolve timing w cs p 0 [] = (false, rl) ∧ rl.Nodup ∧
      (∀ e, e ∈ rl ↔ e ∈ m.entries ∧ ∃ ρ, S ρ ∧ e.1.Contains (p.eval ρ).toNat) ∧
      ∃ r, m.resolveOne timing w cs p = some r ∧ (r.isSome = true ↔ rl ≠ []) ∧
        ∀ e, r = some e → e ∈ rl := by
  have hcomputes := Computes.of_defined hp hdef
  obtain ⟨rl, hrl, hnodup, hmem⟩ := resolve_exact hexact hcs hsat hcomputes h
  obtain ⟨r, hr, hsome, hnone⟩ := resolveOne_exact hexact hcs hsat hcomputes h
  refine ⟨rl, hrl, hnodup, hmem, r, hr, ?_, fun e he => (hmem e).mpr (hsome e he)⟩
  cases r with
  | some e =>
    have he := (hmem e).mpr (hsome e rfl)
    exact iff_of_true rfl (ne_nil_of_mem he)
  | none =>
    refine iff_of_false (by simp) fun hne => ?_
    obtain ⟨e, he⟩ := exists_mem_of_ne_nil rl hne
    obtain ⟨hem, hreach⟩ := (hmem e).mp he
    exact hnone rfl e hem hreach

/-- Two objects, of which one is empty. -/
def twoObjects : MemoryMap Unit := ⟨[(⟨0, 16, 4⟩, ()), (⟨1, 64, 0⟩, ())], by decide⟩

lemma twoObjects_layout : twoObjects.Layout 64 := by
  constructor
  · decide
  · decide
  · decide
  · intro e he e' he' hne x hx hx'
    simp only [twoObjects, mem_cons, not_mem_nil, or_false] at he he'
    rcases he with rfl | rfl <;> rcases he' with rfl | rfl <;>
      simp [MemoryObject.Contains] at hne hx hx' <;> omega

/-- A byte can point to both objects. -/
theorem resolve_complete_twoObjects :
    ∃ rl, twoObjects.resolve plainExecutor.timing 64 [] pointerX 0 [] = (false, rl) ∧
      rl.Nodup ∧ ∀ e ∈ twoObjects.entries, e ∈ rl := by
  have hadmits := ExecutionState.unconstrained_admits ()
  obtain ⟨rl, hrl, hnodup, hmem, -⟩ := MemoryMap.resolve_complete plainExecutor_unlimited.exact
    (ExecutionState.unconstrained_path plainExecutor.timing.opts ()) ⟨fun _ _ => 0, hadmits _⟩
    pointerX_ofWidth (fun ρ _ => pointerX_defined _ ρ) twoObjects_layout
  refine ⟨rl, hrl, hnodup, fun e he => (hmem e).mpr ⟨he, fun _ _ => e.1.address, hadmits _, ?_⟩⟩
  simp only [twoObjects, mem_cons, not_mem_nil, or_false] at he
  rcases he with rfl | rfl <;> decide

end Castan
