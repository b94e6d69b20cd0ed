/-
# Address spaces

An address space maps memory objects to object states and shares the object states with its
copies.  An epoch counter in each address space and an owner in each object state say whether a
write may change the object state or has to copy it first.  Every history of copies, bindings and
writes gives each address space the contents it would have if every copy duplicated all objects.
-/
import Castan.Lib.SortedMap

namespace Castan

open Function List Option

structure MemoryObject where
  id : ℕ
  address : ℕ
  /-- The size in bytes. -/
  size : ℕ
deriving DecidableEq

/-- `MemoryMap`, an `ImmutableMap` in the order `MemoryObjectLT` of the addresses. -/
structure MemoryMap (P : Type) where
  entries : List (MemoryObject × P)
  sorted : SortedMap.Sorted (fun e => e.1.address) entries

namespace MemoryMap

variable {P : Type}

def empty : MemoryMap P := ⟨[], .nil⟩

def lookup (m : MemoryMap P) (address : ℕ) : Option (MemoryObject × P) :=
  SortedMap.lookup (fun e => e.1.address) address m.entries

def replace (m : MemoryMap P) (mo : MemoryObject) (os : P) : MemoryMap P :=
  ⟨SortedMap.replace (fun e => e.1.address) (mo, os) m.entries, m.sorted.replace _⟩

def remove (m : MemoryMap P) (mo : MemoryObject) : MemoryMap P :=
  ⟨SortedMap.remove (fun e => e.1.address) mo.address m.entries, m.sorted.remove _⟩

variable (m : MemoryMap P) (mo : MemoryObject) (a : ℕ)

@[simp]
lemma lookup_empty : (empty : MemoryMap P).lookup a = none := rfl

@[simp]
lemma lookup_replace (os : P) :
    (m.replace mo os).lookup a = if mo.address = a then some (mo, os) else m.lookup a :=
  m.sorted.lookup_replace (mo, os)

@[simp]
lemma lookup_remove : (m.remove mo).lookup a = if mo.address = a then none else m.lookup a :=
  m.sorted.lookup_remove mo.address

end MemoryMap

/-- What `AddressSpace` sees of an object state; `σ` is its contents. -/
structure ObjectCell (σ : Type) where
  copyOnWriteOwner : ℕ
  readOnly : Bool
  contents : σ

/-- Object states are referred to by their place in the heap. -/
structure AddressSpace where
  cowKey : ℕ
  objects : MemoryMap ℕ

variable {σ : Type}

namespace AddressSpace

def empty : AddressSpace := ⟨1, .empty⟩

/-- The copy constructor: the old address space, whose key changes as well, and the new one. -/
def copy (b : AddressSpace) : AddressSpace × AddressSpace :=
  ({ b with cowKey := (b.cowKey + 1) % 2 ^ 32 }, ⟨(b.cowKey + 1) % 2 ^ 32, b.objects⟩)

/-- With `none` if the object state has an owner. -/
def bindObject (heap : List (ObjectCell σ)) (space : AddressSpace) (mo : MemoryObject) (os : ℕ) :
    Option (List (ObjectCell σ) × AddressSpace) :=
  heap[os]?.bind fun cell =>
    if cell.copyOnWriteOwner = 0 then
      some (heap.set os { cell with copyOnWriteOwner := space.cowKey },
        { space with objects := space.objects.replace mo os })
    else none

def unbindObject (space : AddressSpace) (mo : MemoryObject) : AddressSpace :=
  { space with objects := space.objects.remove mo }

def findObject (space : AddressSpace) (mo : MemoryObject) : Option ℕ :=
  (space.objects.lookup mo.address).map (·.2)

/-- The object state to write to, with `none` for a read-only one. -/
def getWriteable (heap : List (ObjectCell σ)) (space : AddressSpace) (mo : MemoryObject) (os : ℕ) :
    Option (List (ObjectCell σ) × AddressSpace × ℕ) :=
  heap[os]?.bind fun cell =>
    if cell.readOnly then none
    else if space.cowKey = cell.copyOnWriteOwner then some (heap, space, os)
    else some (heap ++ [{ cell with copyOnWriteOwner := space.cowKey }],
      { space with objects := space.objects.replace mo heap.length }, heap.length)

end AddressSpace

/-! ### Histories of address spaces -/

inductive SpaceOp (σ : Type)
  | copy (i : ℕ)
  /-- Binds a fresh object state. -/
  | bind (i : ℕ) (mo : MemoryObject) (readOnly : Bool) (contents : σ)
  | unbind (i : ℕ) (mo : MemoryObject)
  /-- Changes the object state that `getWriteable(mo, findObject(mo))` gives. -/
  | write (i : ℕ) (mo : MemoryObject) (f : σ → σ)

/-- The object states, and all address spaces made so far. -/
structure SpaceHeap (σ : Type) where
  heap : List (ObjectCell σ)
  spaces : List AddressSpace

namespace SpaceHeap

def initial : SpaceHeap σ := ⟨[], [.empty]⟩

/-- A step on the address space with the number `i`. -/
def step (m : SpaceHeap σ) : SpaceOp σ → Option (SpaceHeap σ)
  | .copy i => m.spaces[i]?.map fun b => { m with spaces := m.spaces.set i b.copy.1 ++ [b.copy.2] }
  | .bind i mo readOnly contents => m.spaces[i]?.bind fun space =>
      (space.bindObject (m.heap ++ [⟨0, readOnly, contents⟩]) mo m.heap.length).map fun r =>
        ⟨r.1, m.spaces.set i r.2⟩
  | .unbind i mo => m.spaces[i]?.map fun space =>
      { m with spaces := m.spaces.set i (space.unbindObject mo) }
  | .write i mo f => m.spaces[i]?.bind fun space => (space.findObject mo).bind fun os =>
      (space.getWriteable m.heap mo os).map fun r =>
        ⟨r.1.modify r.2.2 fun cell => { cell with contents := f cell.contents },
          m.spaces.set i r.2.1⟩

def run (m : SpaceHeap σ) (ops : List (SpaceOp σ)) : Option (SpaceHeap σ) := ops.foldlM step m

/-- The copy would overflow the epoch counter. -/
def Overflows (m : SpaceHeap σ) : SpaceOp σ → Prop
  | .copy i => ∃ b, m.spaces[i]? = some b ∧ b.cowKey + 1 = 2 ^ 32
  | _ => False

/-- No step of the history overflows an epoch counter. -/
def NoOverflow : SpaceHeap σ → List (SpaceOp σ) → Prop
  | _, [] => True
  | m, op :: ops => ¬ m.Overflows op ∧ ∀ m', m.step op = some m' → m'.NoOverflow ops

end SpaceHeap

/-! ### The model without sharing -/

/-- The contents of one address space: the read-only flag and the contents at each address. -/
abbrev Contents (σ : Type) := ℕ → Option (Bool × σ)

/-- A step when every address space has its own objects. -/
def stepUnshared (spaces : List (Contents σ)) : SpaceOp σ → Option (List (Contents σ))
  | .copy i => spaces[i]?.map fun c => spaces ++ [c]
  | .bind i mo readOnly contents => spaces[i]?.map fun c =>
      spaces.set i (update c mo.address (some (readOnly, contents)))
  | .unbind i mo => spaces[i]?.map fun c => spaces.set i (update c mo.address none)
  | .write i mo f => spaces[i]?.bind fun c => (c mo.address).bind fun r =>
      if r.1 then none
      else some (spaces.set i (update c mo.address (some (r.1, f r.2))))

def runUnshared (spaces : List (Contents σ)) (ops : List (SpaceOp σ)) :
    Option (List (Contents σ)) :=
  ops.foldlM stepUnshared spaces

namespace AddressSpace

/-- What the address space holds at each address. -/
def contents (heap : List (ObjectCell σ)) (space : AddressSpace) : Contents σ := fun a =>
  (space.objects.lookup a).bind fun e => heap[e.2]?.map fun cell => (cell.readOnly, cell.contents)

end AddressSpace

namespace SpaceHeap

def contents (m : SpaceHeap σ) : List (Contents σ) := m.spaces.map (·.contents m.heap)

/-- The invariant of the epoch counters: every bound object state has an owner of at most the key
of the address space, and below the key if it is bound in another place too. -/
structure Isolated (m : SpaceHeap σ) : Prop where
  owned : ∀ (i : ℕ) space, m.spaces[i]? = some space →
    ∀ a mo os, space.objects.lookup a = some (mo, os) →
      ∃ cell, m.heap[os]? = some cell ∧ cell.copyOnWriteOwner ≤ space.cowKey
  shared : ∀ (i j : ℕ) space space', m.spaces[i]? = some space → m.spaces[j]? = some space' →
    ∀ a b mo mo' os, space.objects.lookup a = some (mo, os) →
      space'.objects.lookup b = some (mo', os) → (i, a) ≠ (j, b) →
      ∀ cell, m.heap[os]? = some cell → cell.copyOnWriteOwner < space.cowKey
  small : ∀ (i : ℕ) space, m.spaces[i]? = some space → space.cowKey < 2 ^ 32

/-! ### The steps -/

/-- The address space `i` gets an object state of its own. -/
def rebind (m : SpaceHeap σ) (i : ℕ) (space : AddressSpace) (mo : MemoryObject)
    (cell : ObjectCell σ) : SpaceHeap σ :=
  ⟨m.heap ++ [cell],
    m.spaces.set i { space with objects := space.objects.replace mo m.heap.length }⟩

/-- An object state changes in place. -/
def overwrite (m : SpaceHeap σ) (os : ℕ) (cell : ObjectCell σ) : SpaceHeap σ :=
  { m with heap := m.heap.set os cell }

variable {m : SpaceHeap σ} {i : ℕ} {space : AddressSpace} {mo : MemoryObject}

lemma step_bind (readOnly : Bool) (c : σ) : m.step (.bind i mo readOnly c) =
      m.spaces[i]?.map fun space => m.rebind i space mo ⟨space.cowKey, readOnly, c⟩ := by
  cases hi : m.spaces[i]? with
  | none => simp [step, hi]
  | some space => simp [step, hi, AddressSpace.bindObject, rebind]

lemma step_write (f : σ → σ) (hi : m.spaces[i]? = some space) {mo' : MemoryObject} {os : ℕ}
    (hos : space.objects.lookup mo.address = some (mo', os)) {cell : ObjectCell σ}
    (hcell : m.heap[os]? = some cell) :
    m.step (.write i mo f) =
      if cell.readOnly then none
      else if space.cowKey = cell.copyOnWriteOwner then
        some (m.overwrite os { cell with contents := f cell.contents })
      else some (m.rebind i space mo ⟨space.cowKey, cell.readOnly, f cell.contents⟩) := by
  obtain ⟨hlt, hget⟩ := List.getElem?_eq_some_iff.mp hcell
  obtain ⟨hlt', hget'⟩ := List.getElem?_eq_some_iff.mp hi
  simp only [step, hi, AddressSpace.findObject, hos, hcell, AddressSpace.getWriteable,
    bind_some, map_some]
  split
  · rfl
  · split
    · rw [map_some, overwrite, modify_eq_set_getElem?, hcell]
      subst hget'
      simp
    · rw [map_some, rebind, modify_eq_set_getElem?]
      simp

/-! ### What the steps do to the contents -/

lemma contents_congr {heap heap' : List (ObjectCell σ)}
    (h : ∀ a mo os, space.objects.lookup a = some (mo, os) → heap'[os]? = heap[os]?) :
    space.contents heap' = space.contents heap := by
  funext a
  unfold AddressSpace.contents
  cases hos : space.objects.lookup a with
  | none => rfl
  | some e => rw [bind_some, bind_some, h a e.1 e.2 hos]

lemma contents_getElem? (j : ℕ) : m.contents[j]? = m.spaces[j]?.map (·.contents m.heap) :=
  getElem?_map

lemma getElem?_append_of_isSome {α : Type} {l l' : List α} {n : ℕ} {x : α} (h : l[n]? = some x) :
    (l ++ l')[n]? = some x := by
  obtain ⟨hlt, -⟩ := List.getElem?_eq_some_iff.mp h
  rw [getElem?_append_left hlt, h]

lemma contents_unbind (i : ℕ) (space : AddressSpace) (mo : MemoryObject) :
    (⟨m.heap, m.spaces.set i (space.unbindObject mo)⟩ : SpaceHeap σ).contents =
      m.contents.set i (update (space.contents m.heap) mo.address none) := by
  rw [contents, map_set, contents]
  refine congrArg _ (funext fun a => ?_)
  rw [update_apply, AddressSpace.contents, AddressSpace.unbindObject, MemoryMap.lookup_remove]
  by_cases ha : mo.address = a
  · rw [if_pos ha, if_pos ha.symm, bind_none]
  · rw [if_neg ha, if_neg (Ne.symm ha), AddressSpace.contents]

lemma contents_copy (hi : m.spaces[i]? = some space) :
    (⟨m.heap, m.spaces.set i space.copy.1 ++ [space.copy.2]⟩ : SpaceHeap σ).contents =
      m.contents ++ [space.contents m.heap] := by
  have hself : (m.spaces.map (·.contents m.heap)).set i (space.contents m.heap) =
      m.spaces.map (·.contents m.heap) := by
    refine ext_getElem? fun j => ?_
    rw [getElem?_set]
    split
    · next hij =>
      subst hij
      obtain ⟨hlt, -⟩ := List.getElem?_eq_some_iff.mp hi
      rw [if_pos (by rwa [length_map]), getElem?_map, hi, map_some]
    · rfl
  rw [contents, map_append, map_set]
  exact congrArg (· ++ [space.contents m.heap]) hself

variable (h : m.Isolated)

include h

lemma contents_rebind (hi : m.spaces[i]? = some space) (cell : ObjectCell σ) :
    (m.rebind i space mo cell).contents =
      m.contents.set i (update (space.contents m.heap) mo.address
        (some (cell.readOnly, cell.contents))) := by
  -- a new object state changes nothing in what was bound before
  have hold : ∀ (j : ℕ) bs, m.spaces[j]? = some bs →
      bs.contents (m.heap ++ [cell]) = bs.contents m.heap := fun j bs hj =>
    contents_congr fun a mo os hos => by
      obtain ⟨c, hc, -⟩ := h.owned j bs hj a mo os hos
      rw [getElem?_append_of_isSome hc, hc]
  have hnew : AddressSpace.contents (m.heap ++ [cell])
      { space with objects := space.objects.replace mo m.heap.length } =
        update (space.contents m.heap) mo.address (some (cell.readOnly, cell.contents)) := by
    funext a
    rw [update_apply, AddressSpace.contents, MemoryMap.lookup_replace]
    by_cases ha : mo.address = a
    · rw [if_pos ha, if_pos ha.symm]
      simp
    · rw [if_neg ha, if_neg (Ne.symm ha), ← hold i space hi]
      rfl
  refine ext_getElem? fun j => ?_
  rw [contents_getElem?, rebind, getElem?_set, getElem?_set, contents_getElem?]
  obtain ⟨hlt, -⟩ := List.getElem?_eq_some_iff.mp hi
  split
  · have hlt' : i < m.contents.length := by rwa [contents, length_map]
    simp only [hlt', if_true, map_some, hnew]
  · cases hj : m.spaces[j]? with
    | none => rfl
    | some bs => rw [map_some, map_some, hold j bs hj]

lemma contents_overwrite (hi : m.spaces[i]? = some space) {mo' : MemoryObject} {os : ℕ}
    (hos : space.objects.lookup mo.address = some (mo', os)) {cell : ObjectCell σ}
    (hcell : m.heap[os]? = some cell) (howner : space.cowKey = cell.copyOnWriteOwner)
    (cell' : ObjectCell σ) :
    (m.overwrite os cell').contents = m.contents.set i (update (space.contents m.heap) mo.address
        (some (cell'.readOnly, cell'.contents))) := by
  obtain ⟨hlt, -⟩ := List.getElem?_eq_some_iff.mp hcell
  -- the owner is the key, so the object state is bound nowhere else
  have halone : ∀ (j : ℕ) bs, m.spaces[j]? = some bs → ∀ b mo'' os',
      bs.objects.lookup b = some (mo'', os') → (i, mo.address) ≠ (j, b) → os ≠ os' := by
    rintro j bs hj b mo'' os' hos' hne rfl
    exact (howner ▸ h.shared i j space bs hi hj _ b mo' mo'' os hos hos' hne cell hcell).false
  refine ext_getElem? fun j => ?_
  rw [contents_getElem?, overwrite, getElem?_set, contents_getElem?]
  split
  · next hij =>
    subst hij
    obtain ⟨hlt', -⟩ := List.getElem?_eq_some_iff.mp hi
    rw [if_pos (by rwa [contents, length_map]), hi, map_some]
    refine congrArg some (funext fun a => ?_)
    rw [update_apply, AddressSpace.contents]
    by_cases ha : a = mo.address
    · rw [if_pos ha, ha, hos]
      simp [hlt]
    · rw [if_neg ha, AddressSpace.contents]
      cases hb : space.objects.lookup a with
      | none => rfl
      | some e =>
        have hne := halone i space hi a e.1 e.2 hb fun heq => ha (Prod.mk.inj heq).2.symm
        rw [bind_some, bind_some, getElem?_set_ne hne]
  · next hij =>
    cases hj : m.spaces[j]? with
    | none => rfl
    | some bs =>
      refine congrArg some (contents_congr fun b mo'' os' hos' => ?_)
      exact getElem?_set_ne (halone j bs hj b mo'' os' hos' fun heq => hij (Prod.mk.inj heq).1)

/-! ### What the steps do to the owners -/

lemma Isolated.overwrite {os : ℕ} {cell cell' : ObjectCell σ} (hcell : m.heap[os]? = some cell)
    (howner : cell'.copyOnWriteOwner = cell.copyOnWriteOwner) :
    (m.overwrite os cell').Isolated := by
  -- every object state has an object state with the same owner before
  have hback : ∀ (p : ℕ) c, (m.heap.set os cell')[p]? = some c →
      ∃ c₀, m.heap[p]? = some c₀ ∧ c.copyOnWriteOwner = c₀.copyOnWriteOwner := by
    intro p c hc
    by_cases hp : os = p
    · subst hp
      obtain ⟨hlt, -⟩ := List.getElem?_eq_some_iff.mp hcell
      rw [getElem?_set_self hlt] at hc
      exact ⟨cell, hcell, some.inj hc ▸ howner⟩
    · rw [getElem?_set_ne hp] at hc
      exact ⟨c, hc, rfl⟩
  refine ⟨fun i space hi a mo p hp => ?_,
    fun i j space space' hi hj a b mo mo' p hp hp' hne c hc => ?_, h.small⟩
  · obtain ⟨c₀, hc₀, hle⟩ := h.owned i space hi a mo p hp
    have hlt : p < (m.heap.set os cell').length := by
      rw [length_set]
      exact (List.getElem?_eq_some_iff.mp hc₀).1
    obtain ⟨c₁, hc₁, heq⟩ := hback p _ (getElem?_eq_getElem hlt)
    obtain rfl := some.inj (hc₁.symm.trans hc₀)
    exact ⟨_, getElem?_eq_getElem hlt, heq ▸ hle⟩
  · obtain ⟨c₀, hc₀, heq⟩ := hback p c hc
    exact heq ▸ h.shared i j space space' hi hj a b mo mo' p hp hp' hne c₀ hc₀

omit h in
/-- A binding after `rebind` is the new one or an old one. -/
lemma lookup_rebind {cell : ObjectCell σ} {j : ℕ} {space' : AddressSpace} {a os : ℕ}
    {mo' : MemoryObject} (hi : m.spaces[i]? = some space)
    (hj : (m.rebind i space mo cell).spaces[j]? = some space')
    (hos : space'.objects.lookup a = some (mo', os)) :
    (j = i ∧ a = mo.address ∧ os = m.heap.length ∧ space'.cowKey = space.cowKey) ∨
      ∃ space₀, m.spaces[j]? = some space₀ ∧ space₀.objects.lookup a = some (mo', os) ∧
        space'.cowKey = space₀.cowKey := by
  rw [rebind, getElem?_set] at hj
  split at hj
  · next hij =>
    subst hij
    obtain ⟨hlt, -⟩ := List.getElem?_eq_some_iff.mp hi
    simp only [hlt, if_true, some.injEq] at hj
    subst hj
    rw [MemoryMap.lookup_replace] at hos
    split at hos
    · next ha =>
      obtain ⟨-, rfl⟩ := Prod.mk.inj (some.inj hos)
      exact .inl ⟨rfl, ha.symm, rfl, rfl⟩
    · exact .inr ⟨space, hi, hos, rfl⟩
  · exact .inr ⟨space', hj, hos, rfl⟩

lemma Isolated.rebind (hi : m.spaces[i]? = some space) {cell : ObjectCell σ}
    (howner : cell.copyOnWriteOwner = space.cowKey) : (m.rebind i space mo cell).Isolated := by
  have hnew : (m.heap ++ [cell])[m.heap.length]? = some cell := by simp
  -- an object state that was bound before is not the new one
  have hold : ∀ (j : ℕ) s a mo' os, m.spaces[j]? = some s →
      s.objects.lookup a = some (mo', os) → os ≠ m.heap.length := by
    rintro j s a mo' os hj hos rfl
    obtain ⟨c, hc, -⟩ := h.owned j s hj a mo' _ hos
    simp at hc
  refine ⟨fun j s hj a mo' os hos => ?_, fun j k s s' hj hk a b mo' mo'' os hos hos' hne c hc => ?_,
    fun j s hj => ?_⟩
  · rcases lookup_rebind hi hj hos with ⟨-, -, rfl, hkey⟩ | ⟨s₀, hj₀, hos₀, hkey⟩
    · exact ⟨cell, hnew, by rw [howner, hkey]⟩
    · obtain ⟨c, hc, hle⟩ := h.owned j s₀ hj₀ a mo' os hos₀
      exact ⟨c, getElem?_append_of_isSome hc, hkey ▸ hle⟩
  · rcases lookup_rebind hi hj hos with ⟨rfl, rfl, rfl, hkey⟩ | ⟨s₀, hj₀, hos₀, hkey⟩ <;>
      rcases lookup_rebind hi hk hos' with ⟨rfl, rfl, heq, -⟩ | ⟨s₁, hk₁, hos₁, -⟩
    · exact absurd rfl hne
    · exact absurd rfl (hold k s₁ b mo'' _ hk₁ hos₁)
    · exact absurd heq (hold j s₀ a mo' os hj₀ hos₀)
    · obtain ⟨c₀, hc₀, -⟩ := h.owned j s₀ hj₀ a mo' os hos₀
      obtain rfl : c₀ = c := some.inj ((getElem?_append_of_isSome hc₀).symm.trans hc)
      exact hkey ▸ h.shared j k s₀ s₁ hj₀ hk₁ a b mo' mo'' os hos₀ hos₁ hne c₀ hc₀
  · rw [SpaceHeap.rebind, getElem?_set] at hj
    split at hj
    · split at hj
      · exact some.inj hj ▸ h.small i space hi
      · simp at hj
    · exact h.small j s hj

lemma Isolated.unbind (hi : m.spaces[i]? = some space) (mo : MemoryObject) :
    (⟨m.heap, m.spaces.set i (space.unbindObject mo)⟩ : SpaceHeap σ).Isolated := by
  -- every binding was there before
  have hback : ∀ (j : ℕ) s, (m.spaces.set i (space.unbindObject mo))[j]? = some s →
      ∃ s₀, m.spaces[j]? = some s₀ ∧ s.cowKey = s₀.cowKey ∧
        ∀ a e, s.objects.lookup a = some e → s₀.objects.lookup a = some e := by
    intro j s hj
    rw [getElem?_set] at hj
    split at hj
    · next hij =>
      subst hij
      split at hj
      · obtain rfl := some.inj hj
        refine ⟨space, hi, rfl, fun a e he => ?_⟩
        rw [AddressSpace.unbindObject, MemoryMap.lookup_remove] at he
        split at he
        · simp at he
        · exact he
      · simp at hj
    · exact ⟨s, hj, rfl, fun _ _ he => he⟩
  refine ⟨fun j s hj a mo' os hos => ?_, fun j k s s' hj hk a b mo' mo'' os hos hos' hne c hc => ?_,
    fun j s hj => ?_⟩
  · obtain ⟨s₀, hj₀, hkey, hlook⟩ := hback j s hj
    exact hkey ▸ h.owned j s₀ hj₀ a mo' os (hlook _ _ hos)
  · obtain ⟨s₀, hj₀, hkey, hlook⟩ := hback j s hj
    obtain ⟨s₁, hk₁, -, hlook₁⟩ := hback k s' hk
    exact hkey ▸ h.shared j k s₀ s₁ hj₀ hk₁ a b mo' mo'' os (hlook _ _ hos) (hlook₁ _ _ hos') hne
      c hc
  · obtain ⟨s₀, hj₀, hkey, -⟩ := hback j s hj
    exact hkey ▸ h.small j s₀ hj₀

/-- Both copies get a key above all owners. -/
lemma Isolated.copy (hi : m.spaces[i]? = some space) (hkey : space.cowKey + 1 ≠ 2 ^ 32) :
    (⟨m.heap, m.spaces.set i space.copy.1 ++ [space.copy.2]⟩ : SpaceHeap σ).Isolated := by
  have hsmall := h.small i space hi
  have hmod : (space.cowKey + 1) % 2 ^ 32 = space.cowKey + 1 := Nat.mod_eq_of_lt (by omega)
  -- an address space of the result comes from an old one, with a larger key if that was copied
  have hback : ∀ (j : ℕ) s, (m.spaces.set i space.copy.1 ++ [space.copy.2])[j]? = some s →
      (j ≠ i ∧ m.spaces[j]? = some s) ∨
        s.objects = space.objects ∧ s.cowKey = space.cowKey + 1 := by
    intro j s hj
    rw [getElem?_append, length_set, getElem?_set] at hj
    split at hj
    · split at hj
      · rw [if_pos (by omega)] at hj
        obtain rfl := some.inj hj
        exact .inr ⟨rfl, hmod⟩
      · next hij => exact .inl ⟨Ne.symm hij, hj⟩
    · obtain ⟨hlt, hs⟩ := List.getElem?_eq_some_iff.mp hj
      obtain rfl : space.copy.2 = s := by simpa using hs
      exact .inr ⟨rfl, hmod⟩
  refine ⟨fun j s hj a mo' os hos => ?_, fun j k s s' hj hk a b mo' mo'' os hos hos' hne c hc => ?_,
    fun j s hj => ?_⟩
  · rcases hback j s hj with ⟨-, hj₀⟩ | ⟨hobj, hk⟩
    · exact h.owned j s hj₀ a mo' os hos
    · obtain ⟨c, hc, hle⟩ := h.owned i space hi a mo' os (hobj ▸ hos)
      exact ⟨c, hc, by omega⟩
  · rcases hback j s hj with ⟨hji, hj₀⟩ | ⟨hobj, hks⟩
    · rcases hback k s' hk with ⟨-, hk₀⟩ | ⟨hobj', -⟩
      · exact h.shared j k s s' hj₀ hk₀ a b mo' mo'' os hos hos' hne c hc
      · exact h.shared j i s space hj₀ hi a b mo' mo'' os hos (hobj' ▸ hos')
          (fun heq => hji (Prod.mk.inj heq).1) c hc
    · obtain ⟨c₀, hc₀, hle⟩ := h.owned i space hi a mo' os (hobj ▸ hos)
      obtain rfl := some.inj (hc₀.symm.trans hc)
      omega
  · rcases hback j s hj with ⟨-, hj₀⟩ | ⟨-, hks⟩
    · exact h.small j s hj₀
    · omega

/-! ### Whole histories -/

/-- One step keeps the invariant, and has the effect of the step without sharing. -/
theorem step_spec (op : SpaceOp σ) (hop : ¬ m.Overflows op) :
    (m.step op).map contents = stepUnshared m.contents op ∧
      ∀ m', m.step op = some m' → m'.Isolated := by
  cases op with
  | copy i =>
    simp only [step, stepUnshared, contents_getElem?]
    cases hi : m.spaces[i]? with
    | none => exact ⟨rfl, by simp⟩
    | some space =>
      have hkey : space.cowKey + 1 ≠ 2 ^ 32 := fun hkey => hop ⟨space, hi, hkey⟩
      refine ⟨congrArg some (contents_copy hi), ?_⟩
      rintro m' ⟨⟩
      exact h.copy hi hkey
  | bind i mo readOnly c =>
    rw [step_bind]
    simp only [stepUnshared, contents_getElem?]
    cases hi : m.spaces[i]? with
    | none => exact ⟨rfl, by simp⟩
    | some space =>
      refine ⟨congrArg some (contents_rebind h hi _), ?_⟩
      rintro m' ⟨⟩
      exact h.rebind hi rfl
  | unbind i mo =>
    simp only [step, stepUnshared, contents_getElem?]
    cases hi : m.spaces[i]? with
    | none => exact ⟨rfl, by simp⟩
    | some space =>
      refine ⟨congrArg some (contents_unbind i space mo), ?_⟩
      rintro m' ⟨⟩
      exact h.unbind hi mo
  | write i mo f =>
    cases hi : m.spaces[i]? with
    | none => simp [step, stepUnshared, contents_getElem?, hi]
    | some space =>
      cases hos : space.objects.lookup mo.address with
      | none =>
        simp [step, stepUnshared, contents_getElem?, hi, AddressSpace.findObject, hos,
          AddressSpace.contents]
      | some e =>
        obtain ⟨mo', os⟩ := e
        obtain ⟨cell, hcell, -⟩ := h.owned i space hi _ mo' os hos
        have hcontents : space.contents m.heap mo.address =
            some (cell.readOnly, cell.contents) := by
          rw [AddressSpace.contents, hos, bind_some, hcell, map_some]
        rw [step_write f hi hos hcell]
        simp only [stepUnshared, contents_getElem?, hi, map_some, bind_some, hcontents]
        cases cell.readOnly with
        | true => exact ⟨rfl, by simp⟩
        | false =>
          simp only [Bool.false_eq_true, if_false]
          split
          · next howner =>
            refine ⟨congrArg some (contents_overwrite h hi hos hcell howner _), ?_⟩
            rintro m' ⟨⟩
            exact h.overwrite hcell rfl
          · refine ⟨congrArg some (contents_rebind h hi _), ?_⟩
            rintro m' ⟨⟩
            exact h.rebind hi rfl

theorem run_spec {ops : List (SpaceOp σ)} (hops : m.NoOverflow ops) :
    (m.run ops).map contents = runUnshared m.contents ops ∧
      ∀ m', m.run ops = some m' → m'.Isolated := by
  induction ops generalizing m with
  | nil => exact ⟨rfl, fun m' hm' => some.inj hm' ▸ h⟩
  | cons op ops ih =>
    obtain ⟨heq, hiso⟩ := step_spec h op hops.1
    rw [run, foldlM_cons, runUnshared, foldlM_cons, ← heq]
    cases hstep : m.step op with
    | none => exact ⟨rfl, by simp⟩
    | some m₁ => exact ih (hiso m₁ hstep) (hops.2 m₁ hstep)

omit h

lemma initial_isolated : (initial : SpaceHeap σ).Isolated := by
  have hspace : ∀ (i : ℕ) space, (initial : SpaceHeap σ).spaces[i]? = some space →
      space = .empty := by
    intro i space hi
    exact mem_singleton.mp (mem_of_getElem? hi)
  refine ⟨fun i space hi a mo os hos => ?_, fun i j space _ hi _ a _ mo _ os hos => ?_,
    fun i space hi => ?_⟩
  · obtain rfl := hspace i space hi
    simp [AddressSpace.empty] at hos
  · obtain rfl := hspace i space hi
    simp [AddressSpace.empty] at hos
  · obtain rfl := hspace i space hi
    decide

/-- After every history without overflow, the owners obey the invariant, all address spaces have
the contents they would have without sharing, and a write through one of them is not seen in
another. -/
theorem run_isolates (ops : List (SpaceOp σ)) (hops : initial.NoOverflow ops) :
    (initial.run ops).map contents = runUnshared [fun _ => none] ops ∧
      ∀ m, initial.run ops = some m → m.Isolated ∧ ∀ i mo f m', m.step (.write i mo f) = some m' →
          ∀ j ≠ i, m'.contents[j]? = m.contents[j]? := by
  obtain ⟨heq, hiso⟩ := run_spec initial_isolated hops
  refine ⟨heq, fun m hm => ⟨hiso m hm, fun i mo f m' hstep j hj => ?_⟩⟩
  obtain ⟨hwrite, -⟩ := step_spec (hiso m hm) (.write i mo f) (by simp [Overflows])
  rw [hstep, map_some] at hwrite
  obtain ⟨c, -, hc⟩ := bind_eq_some_iff.mp hwrite.symm
  obtain ⟨r, -, hr⟩ := bind_eq_some_iff.mp hc
  split at hr
  · simp at hr
  · rw [← some.inj hr, getElem?_set_ne (Ne.symm hj)]

/-- A write after a copy. -/
theorem run_isolates_copy :
    let mo : MemoryObject := ⟨0, 4096, 1⟩
    let ops : List (SpaceOp ℕ) := [.bind 0 mo false 7, .copy 0, .write 0 mo (· + 1)]
    (initial.run ops).map contents = runUnshared [fun _ => none] ops := by
  intro mo ops
  have hops : initial.NoOverflow ops := by
    refine ⟨by simp [Overflows], fun m₁ h₁ => ⟨?_, fun m₂ _ => ⟨by simp [Overflows], ?_⟩⟩⟩
    · rintro ⟨b, hb, hkey⟩
      obtain rfl := some.inj h₁
      obtain rfl := some.inj hb
      exact absurd hkey (by decide)
    · exact fun _ _ => trivial
  exact (run_isolates ops hops).1

end SpaceHeap

end Castan
