/-
# Merging two states

`ExecutionState::merge` joins the state B into the state A if both are at the same place.  The
constraints are split in the common ones and two suffixes; registers and the objects that differ
are combined by select expressions over the conjunction of the suffix of A.

The two states share the object states in the heap.  The orders of expressions and of memory
objects, in which the sets of the source are traversed, are parameters.
-/
import Castan.Core.AddressSpace
import Castan.Core.Fork

namespace Castan

structure KFunction where
  id : ℕ
  numRegisters : ℕ
deriving DecidableEq

/-- A null register is `none`. -/
structure StackFrame where
  caller : Option ℕ
  kf : KFunction
  locals : ℕ → Option Expr

/-- What `merge` reads of a state besides the constraints. -/
structure MachineState where
  pc : ℕ
  symbolics : List (MemoryObject × KArray)
  stack : List StackFrame
  addressSpace : AddressSpace

/-- The object states. -/
abbrev ObjectHeap := List (ObjectCell ObjectState)

namespace Merge

/-- The loop over both stacks. -/
def sameFrames : List StackFrame → List StackFrame → Bool
  | [], [] => true
  | itA :: as, itB :: bs => itA.caller = itB.caller && itA.kf = itB.kf && sameFrames as bs
  | _, _ => false

/-- The loop over both memory maps: the objects that differ, or `none` if the mappings differ. -/
def mutated : List (MemoryObject × ℕ) → List (MemoryObject × ℕ) → Option (List MemoryObject)
  | [], [] => some []
  | ai :: as, bi :: bs =>
    if ai.1 ≠ bi.1 then none
    else (mutated as bs).map fun mos => if ai.2 ≠ bi.2 then ai.1 :: mos else mos
  | _, _ => none

def conjunction (es : List Expr) : Expr := es.foldl AndExpr.create (.const (.bool true))

def mergeRegister (o : Opts) (inA : Expr) : Option Expr → Option Expr → Option Expr
  | some av, some bv => some (SelectExpr.create o inA av bv)
  | av, _ => av

/-- The loop over the registers of a frame. -/
def mergeFrame (o : Opts) (inA : Expr) (af bf : StackFrame) : StackFrame :=
  { af with
    locals := (List.range af.kf.numRegisters).foldl
      (fun locals i => Function.update locals i (mergeRegister o inA (locals i) (bf.locals i)))
      af.locals }

/-- `read8` of the object state at `os`, which may change its update list. -/
def readByte (o : Opts) (heap : ObjectHeap) (os i : ℕ) : Option (Expr × ObjectHeap) := do
  let cell ← heap[os]?
  let (e, contents) ← cell.contents.read8 o i
  return (e, heap.set os { cell with contents })

def writeByte (littleEndian : Bool) (heap : ObjectHeap) (os i : ℕ) (value : Expr) :
    Option ObjectHeap := do
  let cell ← heap[os]?
  let contents ← cell.contents.writeAt littleEndian i value
  return heap.set os { cell with contents }

/-- One round of the loop over the bytes of an object. -/
def mergeByte (o : Opts) (littleEndian : Bool) (inA : Expr) (wos otherOS : ℕ) (heap : ObjectHeap)
    (i : ℕ) : Option ObjectHeap := do
  let (av, heap) ← readByte o heap wos i
  let (bv, heap) ← readByte o heap otherOS i
  writeByte littleEndian heap wos i (SelectExpr.create o inA av bv)

/-- One round of the loop over the mutated objects. -/
def mergeObject (o : Opts) (littleEndian : Bool) (inA : Expr) (other : AddressSpace)
    (m : ObjectHeap × AddressSpace) (mo : MemoryObject) : Option (ObjectHeap × AddressSpace) := do
  let os ← m.2.findObject mo
  let otherOS ← other.findObject mo
  let (heap, addressSpace, wos) ← m.2.getWriteable m.1 mo os
  let heap ← (List.range mo.size).foldlM (mergeByte o littleEndian inA wos otherOS) heap
  return (heap, addressSpace)

variable [LinearOrder Expr] [LinearOrder MemoryObject]

def commonConstraints (as bs : List Expr) : List Expr :=
  (as.toFinset ∩ bs.toFinset).sort (· ≤ ·)

/-- The constraints of `as` that are not common. -/
def suffix (as bs : List Expr) : List Expr :=
  (as.toFinset \ (as.toFinset ∩ bs.toFinset)).sort (· ≤ ·)

/-- The part of `merge` that changes the state, with `none` for a failed assertion. -/
def mergeInto (o : Opts) (littleEndian : Bool) (heap : ObjectHeap)
    (a b : ExecutionState MachineState) (mos : List MemoryObject) :
    Option (ObjectHeap × ExecutionState MachineState) := do
  let inA := conjunction (suffix a.constraints b.constraints)
  let inB := conjunction (suffix b.constraints a.constraints)
  let stack := List.zipWith (mergeFrame o inA) a.rest.stack b.rest.stack
  let (heap, addressSpace) ← (mos.toFinset.sort (· ≤ ·)).foldlM
    (mergeObject o littleEndian inA b.rest.addressSpace) (heap, a.rest.addressSpace)
  let constraints ← ConstraintManager.addConstraints o []
    (commonConstraints a.constraints b.constraints)
  let constraints ← ConstraintManager.addConstraint o constraints (OrExpr.create inA inB)
  return (heap, { a with constraints, rest := { a.rest with stack, addressSpace } })

end Merge

variable [LinearOrder Expr] [LinearOrder MemoryObject]

/-- `ExecutionState::merge`: the result, the object states and the state A afterwards. -/
def ExecutionState.merge (o : Opts) (littleEndian : Bool) (heap : ObjectHeap)
    (a b : ExecutionState MachineState) :
    Option (Bool × ObjectHeap × ExecutionState MachineState) :=
  if a.rest.pc ≠ b.rest.pc then some (false, heap, a)
  else if a.rest.symbolics ≠ b.rest.symbolics then some (false, heap, a)
  else if Merge.sameFrames a.rest.stack b.rest.stack = false then some (false, heap, a)
  else
    match Merge.mutated a.rest.addressSpace.objects.entries b.rest.addressSpace.objects.entries with
    | none => some (false, heap, a)
    | some mos => (Merge.mergeInto o littleEndian heap a b mos).map fun r => (true, r.1, r.2)

end Castan
