/-
# Loads and stores

`Executor::executeMemoryOperation` accesses memory through an address that may be symbolic.  If
the address is always inside one object, the access happens there; otherwise the state is split
along the objects in reach, and what is left over is an error.  Each state has its objects for
itself, as the address spaces give them.
-/
import Castan.Core.Resolve

namespace Castan

open List Option

variable {mo : MemoryObject}

/-- An object state and whether it is read-only. -/
structure HeldObject where
  readOnly : Bool
  state : ObjectState

variable {es : List (MemoryObject × HeldObject)}

/-- The parts of an execution state that an access reads or changes. -/
structure MemoryState where
  objects : MemoryMap HeldObject
  locals : ℕ → Option Expr
  /-- The error the state was terminated with. -/
  error : Option String

variable {s : ExecutionState MemoryState} {states : List (ExecutionState MemoryState)}

inductive MemoryOperation
  /-- A load of the given width into the register `target`. -/
  | load (target width : ℕ)
  | store (value : Expr)

namespace MemoryOperation

/-- `type` -/
def type : MemoryOperation → ℕ
  | load _ width => width
  | store value => value.width

/-- `Expr::getMinBytesForWidth(type)` -/
def bytes (op : MemoryOperation) : ℕ := (op.type + 7) / 8

/-- The value to be stored is simplified unless it is a constant. -/
def simplify (o : Opts) (constraints : List Expr) : MemoryOperation → MemoryOperation
  | load target width => load target width
  | store value =>
      store (if value.isConst then value else ConstraintManager.simplifyExpr o constraints value)

end MemoryOperation

/-- `getBoundsCheckOffset(offset, bytes)` -/
def MemoryObject.getBoundsCheckOffsetBytes (o : Opts) (pointerWidth : ℕ) (mo : MemoryObject)
    (offset : Expr) (bytes : ℕ) : Expr :=
  if bytes ≤ mo.size then
    BinKind.ult.create o offset (.const (.ofNat pointerWidth (mo.size - bytes + 1)))
  else .const (.bool false)

namespace ExecutionState

/-- `Executor::bindLocal` -/
def bindLocal (target : ℕ) (value : Expr) (state : ExecutionState MemoryState) :
    ExecutionState MemoryState :=
  { state with rest := { state.rest with
      locals := Function.update state.rest.locals target (some value) } }

/-- `Executor::terminateStateOnError` and `Executor::terminateStateEarly` -/
def terminate (message : String) (state : ExecutionState MemoryState) :
    ExecutionState MemoryState :=
  { state with rest := { state.rest with error := some message } }

/-- The object state of `mo` becomes `os`. -/
def setObject (mo : MemoryObject) (os : HeldObject) (state : ExecutionState MemoryState) :
    ExecutionState MemoryState :=
  { state with rest := { state.rest with objects := state.rest.objects.replace mo os } }

end ExecutionState

namespace Executor

variable (executor : Executor) (pointerWidth : ℕ) (littleEndian : Bool)

/-- The access itself, in the state `bound`.  The second component is the object state as the
other states have it afterwards: a load may flush it, a store changes a copy.  The result is `none`
for a failed assertion. -/
def access (op : MemoryOperation) (e : MemoryObject × HeldObject) (offset : Expr)
    (bound : ExecutionState MemoryState) : Option (ExecutionState MemoryState × HeldObject) :=
  match op with
  | .load target width =>
    (e.2.state.read executor.timing.opts littleEndian offset width).map fun r =>
      let os := { e.2 with state := r.2 }
      ((bound.setObject e.1 os).bindLocal target r.1, os)
  | .store value =>
    if e.2.readOnly then some (bound.terminate "memory error: object read only", e.2)
    else (e.2.state.write executor.timing.opts littleEndian offset value).map fun s =>
      (bound.setObject e.1 { e.2 with state := s }, e.2)

/-- The loop over the objects in reach: the states in which an object was accessed, and the state
that is left over. -/
def accessObjects (op : MemoryOperation) (address : Expr) :
    List (MemoryObject × HeldObject) → ExecutionState MemoryState →
      Option (List (ExecutionState MemoryState) × Option (ExecutionState MemoryState))
  | [], unbound => some ([], some unbound)
  | e :: es, unbound =>
    let offset := e.1.getOffsetExpr executor.timing.opts pointerWidth address
    let inBounds :=
      e.1.getBoundsCheckOffsetBytes executor.timing.opts pointerWidth offset op.bytes
    (executor.fork unbound inBounds).bind fun branches =>
      match branches with
      | (none, none) => some ([], none)
      | (none, some unbound) => accessObjects op address es unbound
      | (some bound, none) =>
        (executor.access littleEndian op e offset bound).map fun r => ([r.1], none)
      | (some bound, some unbound) =>
        (executor.access littleEndian op e offset bound).bind fun r =>
          (accessObjects op address es (unbound.setObject e.1 r.2)).map fun rest =>
            (r.1 :: rest.1, rest.2)

/-- The part of `executeMemoryOperation` for no, several or partial resolutions. -/
def accessResolved (op : MemoryOperation) (address : Expr) (state : ExecutionState MemoryState) :
    Option (List (ExecutionState MemoryState)) :=
  let (incomplete, rl) :=
    state.rest.objects.resolve executor.timing pointerWidth state.constraints address 0 []
  (executor.accessObjects pointerWidth littleEndian op address rl state).map fun r =>
    r.1 ++ (r.2.map (·.terminate (if incomplete then "Query timed out (resolve)."
      else "memory error: out of bound pointer"))).toList

/-- `Executor::executeMemoryOperation` with the options `MakeConcreteSymbolic`, `MaxSymArraySize`
and `ConcretizeSymIndices` off.  The result is `none` for a failed assertion, or if the solver
fails in `resolveOne`. -/
def executeMemoryOperation (simplifySymIndices : Bool) (op : MemoryOperation) (address : Expr)
    (state : ExecutionState MemoryState) : Option (List (ExecutionState MemoryState)) :=
  let address :=
    if simplifySymIndices && !address.isConst then
      ConstraintManager.simplifyExpr executor.timing.opts state.constraints address
    else address
  let op := if simplifySymIndices then op.simplify executor.timing.opts state.constraints else op
  match state.rest.objects.resolveOne executor.timing pointerWidth state.constraints address with
  | none => none
  | some none => executor.accessResolved pointerWidth littleEndian op address state
  | some (some e) =>
    let offset := e.1.getOffsetExpr executor.timing.opts pointerWidth address
    match executor.timing.mustBeTrue state.constraints
        (e.1.getBoundsCheckOffsetBytes executor.timing.opts pointerWidth offset op.bytes) with
    | none => some [state.terminate "Query timed out (bounds check)."]
    | some true => (executor.access littleEndian op e offset state).map fun r => [r.1]
    | some false => executor.accessResolved pointerWidth littleEndian op address state

end Executor

/-! ### The access on plain memory -/

/-- The object contains the bytes from the address on. -/
def MemoryObject.Fits (bytes : ℕ) (mo : MemoryObject) (x : ℕ) : Prop :=
  mo.address ≤ x ∧ x + bytes ≤ mo.address + mo.size

/-- Under the assignment `ρ` the memory has the given objects with the bytes `b`. -/
structure Holds (o : Opts) (ρ : Valuation) (m : MemoryMap HeldObject) (objects : List MemoryObject)
    (b : MemoryObject → PlainArray) : Prop where
  objects_eq : m.entries.map (·.1) = objects
  represents : ∀ e ∈ m.entries, Represents o ρ e.1.size (b e.1) e.2.state.view

namespace MemoryOperation

/-- What an access to the object `mo` with the address `x` leaves, under the assignment `ρ`. -/
def Done (o : Opts) (littleEndian : Bool) (ρ : Valuation) (objects : List MemoryObject)
    (b : MemoryObject → PlainArray) (locals : ℕ → Option Expr) (mo : MemoryObject) (x : ℕ)
    (s : MemoryState) : MemoryOperation → Prop
  | load target width =>
      (∃ r, s.locals = Function.update locals target (some r) ∧
        r.eval ρ = PlainArray.read littleEndian (b mo) (x - mo.address) width) ∧
      Holds o ρ s.objects objects b
  | store value =>
      s.locals = locals ∧
      Holds o ρ s.objects objects (Function.update b mo
        (PlainArray.write littleEndian (b mo) (x - mo.address) (value.eval ρ)))

/-- The state after the access with the address `x ρ`: live and with the effect of the access if
an object contains all bytes, terminated with an error otherwise. -/
def Outcome (o : Opts) (littleEndian : Bool) (op : MemoryOperation) (objects : List MemoryObject)
    (b : Valuation → MemoryObject → PlainArray) (locals : ℕ → Option Expr)
    (x : Valuation → APInt) (ρ : Valuation) (s : ExecutionState MemoryState) : Prop :=
  (∃ mo ∈ objects, mo.Fits op.bytes (x ρ).toNat ∧ s.rest.error = none ∧
    op.Done o littleEndian ρ objects (b ρ) locals mo (x ρ).toNat s.rest) ∨
  (∀ mo ∈ objects, ¬ mo.Fits op.bytes (x ρ).toNat) ∧
    s.rest.error = some "memory error: out of bound pointer" ∧ s.rest.locals = locals ∧
    Holds o ρ s.rest.objects objects (b ρ)

/-- The states after the operation.  There is an error if and only if some assignment puts the
bytes into no object. -/
def Executes (o : Opts) (littleEndian : Bool) (op : MemoryOperation)
    (objects : List MemoryObject) (b : Valuation → MemoryObject → PlainArray)
    (locals : ℕ → Option Expr) (x : Valuation → APInt) (S : Valuation → Prop)
    (states : List (ExecutionState MemoryState)) : Prop :=
  Dispatches S (op.Outcome o littleEndian objects b locals x) states ∧
    ((∃ s ∈ states, s.rest.error = some "memory error: out of bound pointer") ↔
      ∃ ρ, S ρ ∧ ∀ mo ∈ objects, ¬ mo.Fits op.bytes (x ρ).toNat)

end MemoryOperation

/-! ### One object -/

section Spec

variable {executor : Executor} {S T : Valuation → Prop} {w : ℕ} {littleEndian : Bool} {o : Opts}
  {address : Expr} {x : Valuation → APInt} {m : MemoryMap HeldObject}
  {objects : List MemoryObject} {b : Valuation → MemoryObject → PlainArray}
  {locals : ℕ → Option Expr} {op : MemoryOperation} {e : MemoryObject × HeldObject}

/-- The access has a width that object states know, and the value to be stored is defined. -/
def MemoryOperation.Ready (o : Opts) (S : Valuation → Prop) : MemoryOperation → Prop
  | load _ width => ValidWidth width
  | store value => ValidWidth value.width ∧ Computes o S value value.width fun ρ => value.eval ρ

lemma numBytes_eq {width : ℕ} (h : ValidWidth width) : (width + 7) / 8 = numBytes width := by
  rcases h with rfl | ⟨hdvd, hpos⟩
  · rfl
  · unfold numBytes
    split <;> omega

lemma MemoryOperation.Ready.validWidth (h : op.Ready o S) : ValidWidth op.type := by
  cases op with
  | load target width => exact h
  | store value => exact h.1

lemma MemoryOperation.Ready.bytes_pos (h : op.Ready o S) : 0 < op.bytes := by
  have hvalid := h.validWidth
  unfold MemoryOperation.bytes
  rcases hvalid with hone | ⟨-, hpos⟩ <;> omega

lemma getBoundsCheckOffsetBytes_tests (hp : Computes o S address w x) (h : m.Layout w)
    (he : e ∈ m.entries) {bytes : ℕ} (hbytes : 0 < bytes) :
    Tests o S (e.1.getBoundsCheckOffsetBytes o w (e.1.getOffsetExpr o w address) bytes)
      fun ρ => e.1.Fits bytes (x ρ).toNat := by
  have haddress := h.address e he
  have hsize := h.size e he
  have hwrap := h.noWrap e he
  unfold MemoryObject.getBoundsCheckOffsetBytes
  split
  · next hle =>
    have hoffset := hp.bin .sub (hp.address (n := e.1.address))
    refine (Tests.ult hoffset (hp.address (n := e.1.size - bytes + 1))).congr fun ρ hρ => ?_
    rw [offset_nat hp hρ haddress, APInt.toNat_ofNat (by omega), MemoryObject.Fits]
    split <;> omega
  · next hlt =>
    refine (Tests.bool false).congr fun ρ _ => ?_
    have hnot : ¬ e.1.Fits bytes (x ρ).toNat := by
      unfold MemoryObject.Fits
      omega
    exact iff_of_false (by simp) hnot

/-- The offset of an access inside an object. -/
lemma getOffsetExpr_hasValue (hp : Computes o S address w x) (h : m.Layout w)
    (he : e ∈ m.entries) {width : ℕ} (hwidth : ValidWidth width) {ρ : Valuation} (hρ : S ρ)
    (hfits : e.1.Fits ((width + 7) / 8) (x ρ).toNat) :
    ∃ a, HasValue o ρ (e.1.getOffsetExpr o w address) a ∧
      a.toNat = (x ρ).toNat - e.1.address ∧ a.toNat + numBytes width ≤ e.1.size := by
  have hoffset := hp.bin .sub (hp.address (n := e.1.address))
  rw [numBytes_eq hwidth] at hfits
  obtain ⟨hle, hend⟩ := hfits
  have hnat := offset_nat hp hρ (h.address e he)
  rw [if_pos hle] at hnat
  exact ⟨_, hoffset.hasValue ρ hρ, hnat, by omega⟩

/-- Another object state for an object. -/
lemma Holds.replace {ρ : Valuation} {c : MemoryObject → PlainArray} (h : Holds o ρ m objects c)
    (hmo : mo ∈ objects) {os : HeldObject} {d : PlainArray}
    (hos : Represents o ρ mo.size d os.state.view) :
    Holds o ρ (m.replace mo os) objects (Function.update c mo d) := by
  obtain ⟨rfl, hrep⟩ := h
  obtain ⟨e, he, rfl⟩ := mem_map.mp hmo
  obtain ⟨l, r, hsplit⟩ := append_of_mem he
  have hsorted := m.sorted
  have hreplace : (m.replace e.1 os).entries = l ++ (e.1, os) :: r := by
    show SortedMap.replace _ (e.1, os) m.entries = _
    rw [hsplit] at hsorted ⊢
    exact SortedMap.replace_self hsorted rfl
  refine ⟨by rw [hreplace, hsplit]; simp, fun e' he' => ?_⟩
  rw [hreplace] at he'
  rw [hsplit, SortedMap.sorted_split] at hsorted
  obtain ⟨-, -, hleft, hright⟩ := hsorted
  -- the other objects have other addresses
  have hother : e' ∈ l ∨ e' ∈ r → Represents o ρ e'.1.size (Function.update c e.1 d e'.1)
      e'.2.state.view := by
    intro hmem
    have hne : e'.1 ≠ e.1 := by
      rcases hmem with hmem | hmem
      · exact fun heq => (hleft e' hmem).ne (congrArg (·.address) heq)
      · exact fun heq => (hright e' hmem).ne' (congrArg (·.address) heq)
    rw [Function.update_of_ne hne]
    refine hrep e' ?_
    rw [hsplit]
    rcases hmem with hmem | hmem
    · exact mem_append_left _ hmem
    · exact mem_append_right _ (mem_cons_of_mem _ hmem)
  rcases mem_append.mp he' with hmem | hmem
  · exact hother (.inl hmem)
  · rcases mem_cons.mp hmem with rfl | hmem
    · rw [Function.update_self]
      exact hos
    · exact hother (.inr hmem)

/-- The state has not done the access yet, and follows the assignments in `T`. -/
structure Waiting (o : Opts) (S T : Valuation → Prop) (objects : List MemoryObject)
    (b : Valuation → MemoryObject → PlainArray) (locals : ℕ → Option Expr)
    (s : ExecutionState MemoryState) : Prop where
  path : Decides o s.constraints T
  sub : ∀ ρ, T ρ → S ρ
  error : s.rest.error = none
  locals_eq : s.rest.locals = locals
  memory : ∀ ρ, S ρ → Holds o ρ s.rest.objects objects (b ρ)

lemma Waiting.setObject (h : Waiting o S T objects b locals s)
    (hmo : mo ∈ objects) {os : HeldObject}
    (hos : ∀ ρ, S ρ → Represents o ρ mo.size (b ρ mo) os.state.view) :
    Waiting o S T objects b locals (s.setObject mo os) where
  path := h.path
  sub := h.sub
  error := h.error
  locals_eq := h.locals_eq
  memory ρ hρ := by
    have hrep := (h.memory ρ hρ).replace hmo (hos ρ hρ)
    rwa [Function.update_eq_self] at hrep

/-- The object can be accessed. -/
structure Accessible (o : Opts) (S : Valuation → Prop) (m : MemoryMap HeldObject)
    (objects : List MemoryObject) (b : Valuation → MemoryObject → PlainArray)
    (e : MemoryObject × HeldObject) : Prop where
  mem : e ∈ m.entries
  mem_objects : e.1 ∈ objects
  size : e.1.size ≤ 2 ^ 32
  writable : e.2.readOnly = false
  represents : ∀ ρ, S ρ → Represents o ρ e.1.size (b ρ e.1) e.2.state.view

theorem access_spec (littleEndian : Bool) {bound : ExecutionState MemoryState}
    (hp : Computes executor.timing.opts S address w x) (h : m.Layout w)
    (hop : op.Ready executor.timing.opts S)
    (he : Accessible executor.timing.opts S m objects b e)
    (hbound : Waiting executor.timing.opts S T objects b locals bound) (hsat : ∃ ρ, T ρ)
    (hfits : ∀ ρ, T ρ → e.1.Fits op.bytes (x ρ).toNat) :
    ∃ r, executor.access littleEndian op e
        (e.1.getOffsetExpr executor.timing.opts w address) bound = some r ∧
      r.1.constraints = bound.constraints ∧ r.1.rest.error = none ∧
      (∀ ρ, T ρ → op.Done executor.timing.opts littleEndian ρ objects (b ρ) locals e.1
        (x ρ).toNat r.1.rest) ∧
      ∀ ρ, S ρ → Represents executor.timing.opts ρ e.1.size (b ρ e.1) r.2.state.view := by
  obtain ⟨σ, hσ⟩ := hsat
  have hoffset := fun ρ (hρ : T ρ) =>
    getOffsetExpr_hasValue hp h he.mem hop.validWidth (hbound.sub ρ hρ) (hfits ρ hρ)
  cases op with
  | load target width =>
    -- under every assignment of the state the object gives the bytes of the plain array
    have hread : ∀ ρ, T ρ → ∃ r s', e.2.state.read executor.timing.opts littleEndian
        (e.1.getOffsetExpr executor.timing.opts w address) width = some (r, s') ∧
        Represents executor.timing.opts ρ e.1.size (b ρ e.1) s'.view ∧
        HasValue executor.timing.opts ρ r
          (PlainArray.read littleEndian (b ρ e.1) ((x ρ).toNat - e.1.address) width) := by
      intro ρ hρ
      obtain ⟨a, ha, hnat, hin⟩ := hoffset ρ hρ
      rw [← hnat]
      exact read_represents he.size (he.represents ρ (hbound.sub ρ hρ)) ha hop hin
    obtain ⟨r, s', heq, -, -⟩ := hread σ hσ
    have hkeeps : ∀ ρ, S ρ → Represents executor.timing.opts ρ e.1.size (b ρ e.1) s'.view :=
      fun ρ hρ => read_keeps he.size (he.represents ρ hρ) heq
    refine ⟨_, by rw [Executor.access, heq]; rfl, rfl, hbound.error, fun ρ hρ => ?_, hkeeps⟩
    obtain ⟨r', s'', heq', -, hval⟩ := hread ρ hρ
    obtain ⟨rfl, rfl⟩ := Prod.mk.inj (Option.some.inj (heq.symm.trans heq'))
    refine ⟨⟨r, ?_, hval.eval_eq⟩, ?_⟩
    · rw [← hbound.locals_eq]
      rfl
    · exact (hbound.setObject he.mem_objects hkeeps).memory ρ (hbound.sub ρ hρ)
  | store value =>
    have hwrite : ∀ ρ, T ρ → ∃ s', e.2.state.write executor.timing.opts littleEndian
        (e.1.getOffsetExpr executor.timing.opts w address) value = some s' ∧
        Represents executor.timing.opts ρ e.1.size (PlainArray.write littleEndian (b ρ e.1)
          ((x ρ).toNat - e.1.address) (value.eval ρ)) s'.view := by
      intro ρ hρ
      obtain ⟨a, ha, hnat, hin⟩ := hoffset ρ hρ
      have hwidth : (value.eval ρ).width = value.width :=
        Expr.eval_width ρ hop.2.ofWidth.typed
      rw [← hnat]
      exact write_represents he.size (he.represents ρ (hbound.sub ρ hρ)) ha
        (hop.2.hasValue ρ (hbound.sub ρ hρ)) (hwidth ▸ hop.1) (hwidth ▸ hin)
    obtain ⟨s', heq, -⟩ := hwrite σ hσ
    refine ⟨_, by rw [Executor.access, he.writable, heq]; rfl, rfl, hbound.error,
      fun ρ hρ => ⟨hbound.locals_eq, ?_⟩, he.represents⟩
    obtain ⟨s'', heq', hrep⟩ := hwrite ρ hρ
    obtain rfl := Option.some.inj (heq.symm.trans heq')
    exact (hbound.memory ρ (hbound.sub ρ hρ)).replace he.mem_objects hrep

/-! ### The loop over the objects -/

/-- The states after accesses to the objects `es`, from a state that follows the assignments in
`T`. -/
structure Accessed (o : Opts) (littleEndian : Bool) (op : MemoryOperation)
    (objects : List MemoryObject) (b : Valuation → MemoryObject → PlainArray)
    (locals : ℕ → Option Expr) (x : Valuation → APInt) (T : Valuation → Prop)
    (es : List (MemoryObject × HeldObject)) (states : List (ExecutionState MemoryState)) :
    Prop where
  within : ∀ s ∈ states, ∀ ρ, s.Admits ρ → T ρ ∧ ∃ e ∈ es, e.1.Fits op.bytes (x ρ).toNat
  apart : states.Pairwise fun s t => ∀ ρ, ¬ (s.Admits ρ ∧ t.Admits ρ)
  error : ∀ s ∈ states, s.rest.error = none
  covered : ∀ ρ, T ρ → (∃ e ∈ es, e.1.Fits op.bytes (x ρ).toNat) → ∃ s ∈ states, s.Admits ρ ∧
    ∃ e ∈ es, e.1.Fits op.bytes (x ρ).toNat ∧
      op.Done o littleEndian ρ objects (b ρ) locals e.1 (x ρ).toNat s.rest

/-- No assignment is left over, or a state waits for those that fit into no object. -/
def LeftOver (o : Opts) (op : MemoryOperation) (objects : List MemoryObject)
    (b : Valuation → MemoryObject → PlainArray) (locals : ℕ → Option Expr)
    (x : Valuation → APInt) (S T : Valuation → Prop) (es : List (MemoryObject × HeldObject)) :
    Option (ExecutionState MemoryState) → Prop
  | none => ∀ ρ, T ρ → ∃ e ∈ es, e.1.Fits op.bytes (x ρ).toNat
  | some s => (∃ ρ, T ρ ∧ ∀ e ∈ es, ¬ e.1.Fits op.bytes (x ρ).toNat) ∧
      Waiting o S (fun ρ => T ρ ∧ ∀ e ∈ es, ¬ e.1.Fits op.bytes (x ρ).toNat) objects b locals s

/-- A side of a split waits as the state did. -/
lemma Waiting.side {s' : ExecutionState MemoryState} {P : Valuation → Prop}
    (h : Waiting o S T objects b locals s)
    (hside : Executor.Side o T P s (some s')) :
    (∃ ρ, T ρ ∧ P ρ) ∧ Waiting o S (fun ρ => T ρ ∧ P ρ) objects b locals s' := by
  obtain ⟨hsat, hpath, hrest⟩ := hside
  refine ⟨hsat, hpath, fun ρ hρ => h.sub ρ hρ.1, ?_, ?_, ?_⟩
  · rw [hrest]
    exact h.error
  · rw [hrest]
    exact h.locals_eq
  · rw [hrest]
    exact h.memory

lemma Waiting.congr {T' : Valuation → Prop}
    (h : Waiting o S T objects b locals s) (hT : ∀ ρ, T ρ ↔ T' ρ) :
    Waiting o S T' objects b locals s :=
  ⟨h.path.congr hT, fun ρ hρ => h.sub ρ ((hT ρ).mpr hρ), h.error, h.locals_eq, h.memory⟩

/-- What is left over behind the object `e`. -/
lemma LeftOver.cons {rest : Option (ExecutionState MemoryState)}
    (h : LeftOver o op objects b locals x S
      (fun ρ => T ρ ∧ ¬ e.1.Fits op.bytes (x ρ).toNat) es rest) :
    LeftOver o op objects b locals x S T (e :: es) rest := by
  cases rest with
  | none =>
    intro ρ hρ
    by_cases hfits : e.1.Fits op.bytes (x ρ).toNat
    · exact ⟨e, mem_cons_self, hfits⟩
    · obtain ⟨e', he', hfits'⟩ := h ρ ⟨hρ, hfits⟩
      exact ⟨e', mem_cons_of_mem _ he', hfits'⟩
  | some s =>
    obtain ⟨⟨σ, ⟨hσ, hnot⟩, hall⟩, hwait⟩ := h
    refine ⟨⟨σ, hσ, forall_mem_cons.mpr ⟨hnot, hall⟩⟩, hwait.congr fun ρ => ?_⟩
    rw [and_assoc, forall_mem_cons]

/-- The states after the object `e` and those after the objects behind it. -/
lemma Accessed.cons (hs : Decides o s.constraints fun ρ => T ρ ∧ e.1.Fits op.bytes (x ρ).toNat)
    (herror : s.rest.error = none)
    (hdone : ∀ ρ, T ρ ∧ e.1.Fits op.bytes (x ρ).toNat →
      op.Done o littleEndian ρ objects (b ρ) locals e.1 (x ρ).toNat s.rest)
    (h : Accessed o littleEndian op objects b locals x
      (fun ρ => T ρ ∧ ¬ e.1.Fits op.bytes (x ρ).toNat) es states) :
    Accessed o littleEndian op objects b locals x T (e :: es) (s :: states) where
  within t ht ρ hρ := by
    rcases mem_cons.mp ht with rfl | ht
    · obtain ⟨hT, hfits⟩ := (hs.holds_iff ρ).mp hρ
      exact ⟨hT, e, mem_cons_self, hfits⟩
    · obtain ⟨⟨hT, -⟩, e', he', hfits⟩ := h.within t ht ρ hρ
      exact ⟨hT, e', mem_cons_of_mem _ he', hfits⟩
  apart := by
    refine pairwise_cons.mpr ⟨fun t ht ρ hρ => ?_, h.apart⟩
    exact (h.within t ht ρ hρ.2).1.2 ((hs.holds_iff ρ).mp hρ.1).2
  error := forall_mem_cons.mpr ⟨herror, h.error⟩
  covered ρ hT hex := by
    by_cases hfits : e.1.Fits op.bytes (x ρ).toNat
    · exact ⟨s, mem_cons_self, (hs.holds_iff ρ).mpr ⟨hT, hfits⟩, e, mem_cons_self,
        hfits, hdone ρ ⟨hT, hfits⟩⟩
    · obtain ⟨e', he', hfits'⟩ := hex
      have he'' : e' ∈ es := (mem_cons.mp he').resolve_left fun heq =>
        hfits (heq ▸ hfits')
      obtain ⟨t, ht, hadm, e₁, he₁, hdone₁⟩ := h.covered ρ ⟨hT, hfits⟩ ⟨e', he'', hfits'⟩
      exact ⟨t, mem_cons_of_mem _ ht, hadm, e₁, mem_cons_of_mem _ he₁, hdone₁⟩

/-- No assignment fits into the object `e`. -/
lemma Accessed.skip (hnot : ∀ ρ, T ρ → ¬ e.1.Fits op.bytes (x ρ).toNat)
    (h : Accessed o littleEndian op objects b locals x
      (fun ρ => T ρ ∧ ¬ e.1.Fits op.bytes (x ρ).toNat) es states) :
    Accessed o littleEndian op objects b locals x T (e :: es) states where
  within s hs ρ hρ := by
    obtain ⟨⟨hT, -⟩, e', he', hfits⟩ := h.within s hs ρ hρ
    exact ⟨hT, e', mem_cons_of_mem _ he', hfits⟩
  apart := h.apart
  error := h.error
  covered ρ hT hex := by
    obtain ⟨e', he', hfits⟩ := hex
    have he'' : e' ∈ es := (mem_cons.mp he').resolve_left fun heq =>
      hnot ρ hT (heq ▸ hfits)
    obtain ⟨s, hs, hadm, e₁, he₁, hdone⟩ := h.covered ρ ⟨hT, hnot ρ hT⟩ ⟨e', he'', hfits⟩
    exact ⟨s, hs, hadm, e₁, mem_cons_of_mem _ he₁, hdone⟩

lemma Accessed.nil (h : ∀ ρ, ¬ T ρ) (es : List (MemoryObject × HeldObject)) :
    Accessed o littleEndian op objects b locals x T es [] where
  within := by simp
  apart := .nil
  error := by simp
  covered ρ hρ := absurd hρ (h ρ)

theorem accessObjects_spec (littleEndian : Bool) (hexec : executor.Unlimited)
    (hp : Computes executor.timing.opts S address w x) (h : m.Layout w)
    (hop : op.Ready executor.timing.opts S)
    (hes : ∀ e ∈ es, Accessible executor.timing.opts S m objects b e)
    {unbound : ExecutionState MemoryState}
    (hunbound : Waiting executor.timing.opts S T objects b locals unbound) (hsat : ∃ ρ, T ρ) :
    ∃ states rest, executor.accessObjects w littleEndian op address es unbound =
        some (states, rest) ∧
      Accessed executor.timing.opts littleEndian op objects b locals x T es states ∧
      LeftOver executor.timing.opts op objects b locals x S T es rest := by
  induction es generalizing T unbound with
  | nil =>
    refine ⟨[], some unbound, rfl, ⟨by simp, .nil, by simp, by simp⟩, ?_, ?_⟩
    · obtain ⟨ρ, hρ⟩ := hsat
      exact ⟨ρ, hρ, by simp⟩
    · exact hunbound.congr fun ρ => by simp
  | cons e es ih =>
    have he := hes e mem_cons_self
    have hes' : ∀ e' ∈ es, Accessible executor.timing.opts S m objects b e' := fun e' he' =>
      hes e' (mem_cons_of_mem _ he')
    have htests := (getBoundsCheckOffsetBytes_tests hp h he.mem hop.bytes_pos).mono hunbound.sub
    obtain ⟨bound, rest, hfork, htrue, hfalse⟩ :=
      Executor.fork_spec hexec hunbound.path hsat htests
    rw [Executor.accessObjects]
    simp only [hfork, bind_some]
    cases bound with
    | none =>
      cases rest with
      | none =>
        obtain ⟨ρ, hρ⟩ := hsat
        exact absurd (htrue ρ hρ) (hfalse ρ hρ)
      | some unbound' =>
        obtain ⟨hsat', hwait⟩ := hunbound.side hfalse
        obtain ⟨states, rest, heq, hstates, hrest⟩ := ih hes' hwait hsat'
        exact ⟨states, rest, heq, hstates.skip htrue, hrest.cons⟩
    | some bound =>
      obtain ⟨hsat', hwait⟩ := hunbound.side htrue
      obtain ⟨r, hr, hcs, herror, hdone, hshared⟩ := access_spec littleEndian hp h hop he
        hwait hsat' fun ρ hρ => hρ.2
      have hpath := hcs ▸ hwait.path
      cases rest with
      | none =>
        have hempty : ∀ ρ, ¬ (T ρ ∧ ¬ e.1.Fits op.bytes (x ρ).toNat) := fun ρ hρ =>
          hfalse ρ hρ.1 hρ.2
        refine ⟨[r.1], none, by simp only [hr, map_some],
          .cons hpath herror hdone (.nil hempty es), fun ρ hρ => ?_⟩
        exact ⟨e, mem_cons_self, not_not.mp fun hnot => hempty ρ ⟨hρ, hnot⟩⟩
      | some unbound' =>
        obtain ⟨hsat'', hwait'⟩ := hunbound.side hfalse
        obtain ⟨states, rest, heq, hstates, hrest⟩ :=
          ih hes' (hwait'.setObject he.mem_objects hshared) hsat''
        refine ⟨r.1 :: states, rest, ?_, .cons hpath herror hdone hstates, hrest.cons⟩
        simp only [hr, heq, bind_some, map_some]

/-! ### The whole operation -/

lemma MemoryObject.Fits.contains {bytes a : ℕ} (hbytes : 0 < bytes)
    (h : mo.Fits bytes a) : mo.Contains a := by
  obtain ⟨hle, hend⟩ := h
  unfold MemoryObject.Contains
  split <;> omega

/-- The states after the accesses, together with the error. -/
lemma Accessed.executes {rest : Option (ExecutionState MemoryState)}
    (hfits : ∀ ρ, S ρ → ((∃ e ∈ es, e.1.Fits op.bytes (x ρ).toNat) ↔
      ∃ mo ∈ objects, mo.Fits op.bytes (x ρ).toNat))
    (hes : ∀ e ∈ es, e.1 ∈ objects)
    (h : Accessed o littleEndian op objects b locals x S es states)
    (hrest : LeftOver o op objects b locals x S S es rest) :
    op.Executes o littleEndian objects b locals x S (states ++
      (rest.map (·.terminate "memory error: out of bound pointer")).toList) := by
  -- the outcome for the assignments that fit into an object
  have hlive : ∀ ρ, S ρ → (∃ e ∈ es, e.1.Fits op.bytes (x ρ).toNat) → ∃ s ∈ states,
      s.Admits ρ ∧ ∃ mo ∈ objects, mo.Fits op.bytes (x ρ).toNat ∧ s.rest.error = none ∧
        op.Done o littleEndian ρ objects (b ρ) locals mo (x ρ).toNat s.rest := by
    intro ρ hρ hex
    obtain ⟨s, hs, hadm, e, he, hfit, hdone⟩ := h.covered ρ hρ hex
    exact ⟨s, hs, hadm, e.1, hes e he, hfit, h.error s hs, hdone⟩
  cases rest with
  | none =>
    rw [map_none, toList_none, append_nil]
    refine ⟨⟨fun s hs ρ hρ => (h.within s hs ρ hρ).1, h.apart, fun ρ hρ => ?_⟩, ?_⟩
    · obtain ⟨s, hs, hadm, hout⟩ := hlive ρ hρ (hrest ρ hρ)
      exact ⟨s, hs, hadm, .inl hout⟩
    · constructor
      · rintro ⟨s, hs, herror⟩
        simp [h.error s hs] at herror
      · rintro ⟨ρ, hρ, hnot⟩
        obtain ⟨mo, hmo, hfit⟩ := (hfits ρ hρ).mp (hrest ρ hρ)
        exact absurd hfit (hnot mo hmo)
  | some s =>
    obtain ⟨⟨σ, hσ, hnotσ⟩, hwait⟩ := hrest
    have hadmits : ∀ ρ, (s.terminate "memory error: out of bound pointer").Admits ρ ↔
        S ρ ∧ ∀ e ∈ es, ¬ e.1.Fits op.bytes (x ρ).toNat := hwait.path.holds_iff
    have hnone : ∀ ρ, S ρ → (∀ e ∈ es, ¬ e.1.Fits op.bytes (x ρ).toNat) →
        ∀ mo ∈ objects, ¬ mo.Fits op.bytes (x ρ).toNat := by
      intro ρ hρ hnot mo hmo hfit
      obtain ⟨e, he, hfit'⟩ := (hfits ρ hρ).mpr ⟨mo, hmo, hfit⟩
      exact hnot e he hfit'
    rw [map_some, toList_some]
    refine ⟨⟨fun t ht ρ hρ => ?_, ?_, fun ρ hρ => ?_⟩, ?_⟩
    · rcases mem_append.mp ht with ht | ht
      · exact (h.within t ht ρ hρ).1
      · rw [mem_singleton.mp ht] at hρ
        exact ((hadmits ρ).mp hρ).1
    · refine pairwise_append.mpr ⟨h.apart, pairwise_singleton _ _, ?_⟩
      intro t ht t' ht' ρ ⟨hρ, hρ'⟩
      rw [mem_singleton.mp ht'] at hρ'
      obtain ⟨-, e, he, hfit⟩ := h.within t ht ρ hρ
      exact ((hadmits ρ).mp hρ').2 e he hfit
    · by_cases hex : ∃ e ∈ es, e.1.Fits op.bytes (x ρ).toNat
      · obtain ⟨t, ht, hadm, hout⟩ := hlive ρ hρ hex
        exact ⟨t, mem_append_left _ ht, hadm, .inl hout⟩
      · have hnot : ∀ e ∈ es, ¬ e.1.Fits op.bytes (x ρ).toNat := fun e he hfit =>
          hex ⟨e, he, hfit⟩
        refine ⟨_, mem_append_right _ (mem_singleton_self _),
          (hadmits ρ).mpr ⟨hρ, hnot⟩, .inr ⟨hnone ρ hρ hnot, rfl, hwait.locals_eq, ?_⟩⟩
        exact hwait.memory ρ hρ
    · refine iff_of_true ⟨_, mem_append_right _ (mem_singleton_self _), rfl⟩ ?_
      exact ⟨σ, hσ, hnone σ hσ hnotσ⟩

/-- The hypotheses on the state before the access. -/
structure BeforeAccess (o : Opts) (w : ℕ) (b : Valuation → MemoryObject → PlainArray)
    (state : ExecutionState MemoryState) : Prop where
  path : Decides o state.constraints state.Admits
  sat : ∃ ρ, state.Admits ρ
  live : state.rest.error = none
  layout : state.rest.objects.Layout w
  size : ∀ e ∈ state.rest.objects.entries, e.1.size < 2 ^ 32
  writable : ∀ e ∈ state.rest.objects.entries, e.2.readOnly = false
  represents : ∀ e ∈ state.rest.objects.entries, ∀ ρ, state.Admits ρ →
    Represents o ρ e.1.size (b ρ e.1) e.2.state.view

variable {state : ExecutionState MemoryState}

lemma BeforeAccess.waiting (h : BeforeAccess o w b state) :
    Waiting o state.Admits state.Admits (state.rest.objects.entries.map (·.1)) b
      state.rest.locals state :=
  ⟨h.path, fun _ hρ => hρ, h.live, rfl, fun ρ hρ => ⟨rfl, fun e he => h.represents e he ρ hρ⟩⟩

lemma BeforeAccess.accessible (h : BeforeAccess o w b state)
    (he : e ∈ state.rest.objects.entries) :
    Accessible o state.Admits state.rest.objects (state.rest.objects.entries.map (·.1)) b e :=
  ⟨he, mem_map_of_mem he, (h.size e he).le, h.writable e he, h.represents e he⟩

theorem accessResolved_spec (littleEndian : Bool) (hexec : executor.Unlimited)
    (h : BeforeAccess executor.timing.opts w b state)
    (hp : Computes executor.timing.opts state.Admits address w x)
    (hop : op.Ready executor.timing.opts state.Admits) :
    ∃ states, executor.accessResolved w littleEndian op address state = some states ∧
      op.Executes executor.timing.opts littleEndian (state.rest.objects.entries.map (·.1)) b
        state.rest.locals x state.Admits states := by
  obtain ⟨rl, hrl, -, hmem⟩ := MemoryMap.resolve_exact hexec.exact h.path h.sat hp h.layout
  obtain ⟨states, rest, heq, hstates, hrest⟩ := accessObjects_spec littleEndian hexec hp
    h.layout hop (fun e he => h.accessible ((hmem e).mp he).1) h.waiting h.sat
  refine ⟨_, by simp only [Executor.accessResolved, hrl, heq]; rfl, ?_⟩
  refine hstates.executes (fun ρ hρ => ⟨?_, ?_⟩) (fun e he => ?_) hrest
  · rintro ⟨e, he, hfit⟩
    exact ⟨e.1, mem_map_of_mem ((hmem e).mp he).1, hfit⟩
  · -- an object that contains the bytes is in reach
    rintro ⟨mo, hmo, hfit⟩
    obtain ⟨e, he, rfl⟩ := mem_map.mp hmo
    exact ⟨e, (hmem e).mpr ⟨he, ρ, hρ, hfit.contains hop.bytes_pos⟩, hfit⟩
  · exact mem_map_of_mem ((hmem e).mp he).1

/-- The access in the only object that the address can be in. -/
lemma accessOne_spec (littleEndian : Bool) (h : BeforeAccess executor.timing.opts w b state)
    (hp : Computes executor.timing.opts state.Admits address w x)
    (hop : op.Ready executor.timing.opts state.Admits) (he : e ∈ state.rest.objects.entries)
    (hall : ∀ ρ, state.Admits ρ → e.1.Fits op.bytes (x ρ).toNat) :
    ∃ r, executor.access littleEndian op e
        (e.1.getOffsetExpr executor.timing.opts w address) state = some r ∧
      op.Executes executor.timing.opts littleEndian (state.rest.objects.entries.map (·.1)) b
        state.rest.locals x state.Admits [r.1] := by
  obtain ⟨r, hr, hcs, herror, hdone, -⟩ := access_spec littleEndian hp h.layout hop
    (h.accessible he) h.waiting h.sat hall
  have hpath : Decides executor.timing.opts r.1.constraints
      fun ρ => state.Admits ρ ∧ e.1.Fits op.bytes (x ρ).toNat := by
    rw [hcs]
    exact h.path.congr fun ρ => ⟨fun hρ => ⟨hρ, hall ρ hρ⟩, And.left⟩
  have hstates : Accessed executor.timing.opts littleEndian op _ b state.rest.locals x
      state.Admits [e] [r.1] :=
    .cons hpath herror (fun ρ hρ => hdone ρ hρ.1) (.nil (fun ρ hρ => hρ.2 (hall ρ hρ.1)) [])
  have hrest : LeftOver executor.timing.opts op (state.rest.objects.entries.map (·.1)) b
      state.rest.locals x state.Admits state.Admits [e] none := fun ρ hρ =>
    ⟨e, mem_singleton_self e, hall ρ hρ⟩
  have hexecutes := hstates.executes (fun ρ hρ => ?_) (fun e' he' => ?_) hrest
  · rw [map_none, toList_none, append_nil] at hexecutes
    exact ⟨r, hr, hexecutes⟩
  · exact iff_of_true ⟨e, mem_singleton_self e, hall ρ hρ⟩ ⟨e.1, mem_map_of_mem he, hall ρ hρ⟩
  · rw [mem_singleton.mp he']
    exact mem_map_of_mem he

/-- Simplifying the value to be stored changes nothing. -/
lemma MemoryOperation.simplify_spec (littleEndian : Bool) {cs : List Expr} (hcs : Decides o cs S)
    (hop : op.Ready o S) :
    (op.simplify o cs).Ready o S ∧ (op.simplify o cs).bytes = op.bytes ∧
      ∀ ρ, S ρ → ∀ objects b locals mo a s,
        (op.simplify o cs).Done o littleEndian ρ objects b locals mo a s ↔
          op.Done o littleEndian ρ objects b locals mo a s := by
  cases op with
  | load target width => exact ⟨hop, rfl, fun _ _ _ _ _ _ _ _ => Iff.rfl⟩
  | store value =>
    rw [simplify]
    split
    · exact ⟨hop, rfl, fun _ _ _ _ _ _ _ _ => Iff.rfl⟩
    · have hsimp := hop.2.simplifyExpr hcs
      have hwidth := hsimp.ofWidth.width_eq
      have heval : ∀ ρ, S ρ →
          (ConstraintManager.simplifyExpr o cs value).eval ρ = value.eval ρ := fun ρ hρ =>
        (hsimp.hasValue ρ hρ).eval_eq
      refine ⟨⟨hwidth.symm ▸ hop.1, ?_⟩, ?_, fun ρ hρ objects b locals mo a s => ?_⟩
      · refine .of_defined ?_ fun ρ hρ => (hsimp.hasValue ρ hρ).defined
        rw [hwidth]
        exact hsimp.ofWidth
      · rw [bytes, bytes, type, type, hwidth]
      · rw [Done, Done, heval ρ hρ]

lemma MemoryOperation.Executes.congr {op' : MemoryOperation}
    (h : op'.Executes o littleEndian objects b locals x S states) (hbytes : op'.bytes = op.bytes)
    (hdone : ∀ ρ, S ρ → ∀ objects b locals mo a s,
      op'.Done o littleEndian ρ objects b locals mo a s ↔
        op.Done o littleEndian ρ objects b locals mo a s) :
    op.Executes o littleEndian objects b locals x S states := by
  obtain ⟨⟨hwithin, hapart, hcovered⟩, herror⟩ := h
  rw [hbytes] at herror
  refine ⟨⟨hwithin, hapart, fun ρ hρ => ?_⟩, herror⟩
  obtain ⟨s, hs, hadm, hout⟩ := hcovered ρ hρ
  refine ⟨s, hs, hadm, ?_⟩
  unfold MemoryOperation.Outcome at hout ⊢
  rw [← hbytes]
  simpa only [hdone ρ hρ] using hout

/-- The operation after the expressions have been simplified. -/
lemma executeSimplified_spec (littleEndian : Bool) (hexec : executor.Unlimited)
    (h : BeforeAccess executor.timing.opts w b state)
    (hp : Computes executor.timing.opts state.Admits address w x)
    (hop : op.Ready executor.timing.opts state.Admits) :
    ∃ states, executor.executeMemoryOperation w littleEndian false op address state = some states ∧
      op.Executes executor.timing.opts littleEndian (state.rest.objects.entries.map (·.1)) b
        state.rest.locals x state.Admits states := by
  obtain ⟨one, hone, hfound, -⟩ :=
    MemoryMap.resolveOne_exact hexec.exact h.path h.sat hp h.layout
  unfold Executor.executeMemoryOperation
  simp only [Bool.false_and, Bool.false_eq_true, if_false, hone]
  cases one with
  | none => exact accessResolved_spec littleEndian hexec h hp hop
  | some e =>
    obtain ⟨he, -⟩ := hfound e rfl
    obtain ⟨must, hmust, hmustIff⟩ := TimingSolver.mustBeTrue_spec hexec.exact h.path h.sat
      (getBoundsCheckOffsetBytes_tests hp h.layout he hop.bytes_pos)
    simp only [hmust]
    cases must with
    | true =>
      obtain ⟨r, hr, hexecutes⟩ := accessOne_spec littleEndian h hp hop he (hmustIff.mp rfl)
      exact ⟨[r.1], by rw [hr]; rfl, hexecutes⟩
    | false => exact accessResolved_spec littleEndian hexec h hp hop

/-- Every assignment of the state before a load or store is in exactly one of the states after it.
If an object contains all bytes at the address, that state is live and has the effect of the
access, otherwise it is terminated with the error. -/
theorem executeMemoryOperation_dispatches (executor : Executor) (hexec : executor.Unlimited)
    (w : ℕ) (littleEndian simplifySymIndices : Bool) (op : MemoryOperation) (address : Expr)
    (state : ExecutionState MemoryState) (b : Valuation → MemoryObject → PlainArray)
    (h : BeforeAccess executor.timing.opts w b state) (haddress : address.OfWidth w)
    (hdef : ∀ ρ, state.Admits ρ → address.Defined executor.timing.opts ρ)
    (hop : op.Ready executor.timing.opts state.Admits) :
    ∃ states, executor.executeMemoryOperation w littleEndian simplifySymIndices op address state =
        some states ∧
      op.Executes executor.timing.opts littleEndian (state.rest.objects.entries.map (·.1)) b
        state.rest.locals (address.eval ·) state.Admits states := by
  have hp := Computes.of_defined haddress hdef
  cases simplifySymIndices with
  | false => exact executeSimplified_spec littleEndian hexec h hp hop
  | true =>
    obtain ⟨hop', hbytes, hdone⟩ :=
      MemoryOperation.simplify_spec littleEndian h.path hop
    -- the simplified address has the same values
    have hp' : Computes executor.timing.opts state.Admits (if !address.isConst then
          ConstraintManager.simplifyExpr executor.timing.opts state.constraints address
        else address) w (address.eval ·) := by
      split
      · exact hp.simplifyExpr h.path
      · exact hp
    obtain ⟨states, heq, hexecutes⟩ := executeSimplified_spec littleEndian hexec h hp' hop'
    exact ⟨states, heq, hexecutes.congr hbytes hdone⟩

end Spec

/-- One object of four zero bytes at the address 16. -/
def fourZeros : ExecutionState MemoryState :=
  .unconstrained ⟨⟨[(⟨0, 16, 4⟩, ⟨false, .ofConcrete 4 0 none⟩)], by decide⟩, fun _ => none, none⟩

lemma fourZeros_before : BeforeAccess plainExecutor.timing.opts 64 (fun _ _ _ => 0) fourZeros where
  path := ExecutionState.unconstrained_path _ _
  sat := ⟨fun _ _ => 0, ExecutionState.unconstrained_admits _ _⟩
  live := rfl
  layout := by
    constructor
    · intro e he
      rw [mem_singleton.mp he]
      decide
    · intro e he
      rw [mem_singleton.mp he]
      decide
    · intro e he
      rw [mem_singleton.mp he]
      decide
    · intro e he e' he' hne
      exact absurd ((mem_singleton.mp he).trans (mem_singleton.mp he').symm) hne
  size e he := by
    rw [mem_singleton.mp he]
    decide
  writable e he := by rw [mem_singleton.mp he]
  represents e he ρ _ := by
    rw [mem_singleton.mp he]
    exact ofConcrete_represents (by simp) 0

/-- A load of one byte through a byte as a pointer. -/
theorem executeMemoryOperation_dispatches_fourZeros :
    ∃ states, plainExecutor.executeMemoryOperation 64 true true (.load 0 8) pointerX fourZeros =
        some states ∧
      MemoryOperation.Executes plainExecutor.timing.opts true (.load 0 8) [⟨0, 16, 4⟩]
        (fun _ _ _ => 0) (fun _ => none) (pointerX.eval ·) fourZeros.Admits states :=
  executeMemoryOperation_dispatches plainExecutor plainExecutor_unlimited 64 true true _ _ _ _
    fourZeros_before pointerX_ofWidth (fun ρ _ => pointerX_defined _ ρ)
    (.inr ⟨dvd_refl 8, by decide⟩)

end Castan
