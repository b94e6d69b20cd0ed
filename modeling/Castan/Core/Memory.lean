/-
# The contents of a memory object

`ObjectState` of `Memory.cpp`.  Every byte of an object is kept in up to three places: the
concrete store, the cache of known symbolic values and the update list.  Two masks, which are
allocated on first use, say which of them are current.  Functions that end in a failed
assertion return `none`.
-/
import Castan.Expr.Constraints

namespace Castan

open Function

/-- `klee::ObjectState`.  The arrays are functions of the offset, of which only the values
below `size` are used; a mask or cache that is not allocated is `none`. -/
structure ObjectState where
  size : ℕ
  concreteStore : ℕ → BitVec 8
  concreteMask : Option (ℕ → Bool)
  flushMask : Option (ℕ → Bool)
  knownSymbolics : Option (ℕ → Option Expr)
  /-- `updates.root`; the constant array of an object without symbolic array is created
  lazily. -/
  root : Option KArray
  /-- `updates.head`. -/
  head : UpdateNode
  /-- The static counter of `getUpdates` that names the constant arrays. -/
  id : ℕ

namespace ObjectState

/-! ### Masks -/

def isByteConcrete (s : ObjectState) (offset : ℕ) : Bool :=
  match s.concreteMask with
  | none => true
  | some m => m offset

def isByteFlushed (s : ObjectState) (offset : ℕ) : Bool :=
  match s.flushMask with
  | none => false
  | some m => !m offset

/-- `knownSymbolics[offset]`. -/
def known (s : ObjectState) (offset : ℕ) : Option Expr :=
  match s.knownSymbolics with
  | none => none
  | some k => k offset

def isByteKnownSymbolic (s : ObjectState) (offset : ℕ) : Bool := (s.known offset).isSome

def markByteConcrete (s : ObjectState) (offset : ℕ) : ObjectState :=
  { s with concreteMask := s.concreteMask.map fun m => update m offset true }

def markByteSymbolic (s : ObjectState) (offset : ℕ) : ObjectState :=
  { s with
    concreteMask := some (update (s.concreteMask.getD fun _ => true) offset false) }

def markByteUnflushed (s : ObjectState) (offset : ℕ) : ObjectState :=
  { s with flushMask := s.flushMask.map fun m => update m offset true }

def markByteFlushed (s : ObjectState) (offset : ℕ) : ObjectState :=
  match s.flushMask with
  | none => { s with flushMask := some fun _ => false }
  | some m => { s with flushMask := some (update m offset false) }

def setKnownSymbolic (s : ObjectState) (offset : ℕ) (value : Option Expr) : ObjectState :=
  match s.knownSymbolics with
  | some k => { s with knownSymbolics := some (update k offset value) }
  | none =>
    match value with
    | some e =>
      { s with knownSymbolics := some (update (fun _ => none) offset (some e)) }
    | none => s

/-- `updates.extend`. -/
def extend (s : ObjectState) (index value : Expr) : ObjectState :=
  { s with head := .node s.head index value }

/-! ### Construction -/

/-- `ObjectState(mo)`: concrete contents, zero.  Without the option `use-constant-arrays` the
update list starts with the symbolic array `tmp`. -/
def ofConcrete (size id : ℕ) (tmp : Option KArray) : ObjectState where
  size := size
  concreteStore _ := 0
  concreteMask := none
  flushMask := none
  knownSymbolics := none
  root := tmp
  head := .null
  id := id

/-- The loop of `makeSymbolic`. -/
def makeSymbolicLoop (s : ObjectState) : List ℕ → ObjectState
  | [] => s
  | i :: is =>
    (((s.markByteSymbolic i).setKnownSymbolic i none).markByteFlushed i).makeSymbolicLoop is

/-- `ObjectState(mo, array)`: the contents of a symbolic array. -/
def ofArray (size id : ℕ) (array : KArray) : ObjectState :=
  (ofConcrete size id (some array)).makeSymbolicLoop (List.range size)

/-! ### The update list -/

end ObjectState

/-- The updates of a chain with the oldest first. -/
def UpdateNode.writes : UpdateNode → List (Expr × Expr)
  | .null => []
  | .node next index value => next.writes ++ [(index, value)]

/-- The chain with further updates, the oldest first. -/
def UpdateNode.extendAll : UpdateNode → List (Expr × Expr) → UpdateNode
  | head, [] => head
  | head, (index, value) :: ws => (UpdateNode.node head index value).extendAll ws

namespace ObjectState

/-- Pull off as many concrete writes as we can. -/
def pullConcrete : List APInt → List (Expr × Expr) → List APInt × List (Expr × Expr)
  | contents, [] => (contents, [])
  | contents, (index, value) :: ws =>
    match index.constant?, value.constant? with
    | some i, some v => pullConcrete (contents.set i.toNat v) ws
    | _, _ => (contents, (index, value) :: ws)

/-- `getUpdates`: the root array and the state, in which the array has been created. -/
def getUpdates (s : ObjectState) : KArray × ObjectState :=
  match s.root with
  | some a => (a, s)
  | none =>
    let p := pullConcrete (List.replicate s.size (APInt.ofNat 8 0)) s.head.writes
    let a : KArray :=
      ⟨s.id + 1, "const_arr" ++ toString (s.id + 1), s.size, 32, 8, p.1⟩
    (a, { s with root := some a, head := UpdateNode.null.extendAll p.2, id := s.id + 1 })

/-- The value that a flush writes to the update list. -/
def cached (s : ObjectState) (offset : ℕ) : Option Expr :=
  if s.isByteConcrete offset then some (.const ⟨8, s.concreteStore offset⟩)
  else s.known offset

/-- One round of the loop of `flushRangeForRead`. -/
def flushByteForRead (s : ObjectState) (offset : ℕ) : Option ObjectState :=
  if s.isByteFlushed offset then some s
  else (s.cached offset).map fun v =>
    (s.extend (.const (.ofNat 32 offset)) v).markByteFlushed offset

/-- The byte is about to be written over: mark it out. -/
def forgetByte (s : ObjectState) (offset : ℕ) : ObjectState :=
  if s.isByteConcrete offset then s.markByteSymbolic offset
  else if s.isByteKnownSymbolic offset then s.setKnownSymbolic offset none
  else s

/-- One round of the loop of `flushRangeForWrite`. -/
def flushByteForWrite (s : ObjectState) (offset : ℕ) : Option ObjectState :=
  if s.isByteFlushed offset then some (s.forgetByte offset)
  else (s.cached offset).map fun v =>
    ((s.extend (.const (.ofNat 32 offset)) v).forgetByte offset).markByteFlushed offset

/-- Allocate the mask of unflushed bytes. -/
def allocFlushMask (s : ObjectState) : ObjectState :=
  { s with flushMask := some (s.flushMask.getD fun _ => true) }

/-- `flushRangeForRead(0, size)`: `fastRangeCheckOffset` always gives the whole object. -/
def flushRangeForRead (s : ObjectState) : Option ObjectState :=
  (List.range s.size).foldlM flushByteForRead s.allocFlushMask

/-- `flushRangeForWrite(0, size)`. -/
def flushRangeForWrite (s : ObjectState) : Option ObjectState :=
  (List.range s.size).foldlM flushByteForWrite s.allocFlushMask

/-! ### Bytes -/

/-- `read8(unsigned)`. -/
def read8 (o : Opts) (s : ObjectState) (offset : ℕ) : Option (Expr × ObjectState) :=
  if s.isByteConcrete offset then some (.const ⟨8, s.concreteStore offset⟩, s)
  else match s.known offset with
    | some e => some (e, s)
    | none =>
      if s.isByteFlushed offset then
        let u := s.getUpdates
        some (ReadExpr.create o u.1 u.2.head (.const (.ofNat 32 offset)), u.2)
      else none

/-- `read8(ref<Expr>)`. -/
def read8Sym (o : Opts) (s : ObjectState) (offset : Expr) : Option (Expr × ObjectState) :=
  if offset.isConst then none
  else s.flushRangeForRead.map fun s =>
    let u := s.getUpdates
    (ReadExpr.create o u.1 u.2.head (ZExtExpr.create offset 32), u.2)

/-- `write8(unsigned, uint8_t)`. -/
def write8 (s : ObjectState) (offset : ℕ) (value : BitVec 8) : ObjectState :=
  ((({ s with concreteStore := update s.concreteStore offset value
              }).setKnownSymbolic offset none).markByteConcrete offset).markByteUnflushed offset

/-- `write8(unsigned, ref<Expr>)`. -/
def write8Expr (s : ObjectState) (offset : ℕ) (value : Expr) : ObjectState :=
  match value.constant? with
  | some c => s.write8 offset (c.bits.setWidth 8)
  | none =>
    ((s.setKnownSymbolic offset (some value)).markByteSymbolic offset).markByteUnflushed offset

/-- `write8(ref<Expr>, ref<Expr>)`. -/
def write8Sym (s : ObjectState) (offset value : Expr) : Option ObjectState :=
  if offset.isConst then none
  else s.flushRangeForWrite.map fun s => s.extend (ZExtExpr.create offset 32) value

/-! ### Reads and writes of any width -/

/-- The position of the byte `i`, counted from the least significant one, of a value of
`numBytes` bytes. -/
def byteIdx (littleEndian : Bool) (numBytes i : ℕ) : ℕ :=
  if littleEndian then i else numBytes - i - 1

/-- The rounds `i, i + 1, ...` of the loop of `read`; `rd` reads the byte of a round. -/
def readLoop (rd : ObjectState → ℕ → Option (Expr × ObjectState)) :
    (todo i : ℕ) → (res : Expr) → ObjectState → Option (Expr × ObjectState)
  | 0, _, res, s => some (res, s)
  | todo + 1, i, res, s =>
    (rd s i).bind fun p => readLoop rd todo (i + 1) (ConcatExpr.create p.1 res) p.2

/-- The slow general case of the two functions `read`; `rd s n i` reads the byte `i` of `n`.  A
read of no bytes returns a null reference in the source. -/
def readBytes (rd : ObjectState → ℕ → ℕ → Option (Expr × ObjectState)) (s : ObjectState)
    (width : ℕ) : Option (Expr × ObjectState) :=
  if width ≠ width / 8 * 8 then none
  else match width / 8 with
    | 0 => none
    | n + 1 => (rd s (n + 1) 0).bind fun p => readLoop (fun s => rd s (n + 1)) n 1 p.1 p.2

/-- A byte read as a Boolean, the only read that is not of whole bytes. -/
def readBool (r : Option (Expr × ObjectState)) : Option (Expr × ObjectState) :=
  r.map fun p => (ExtractExpr.create p.1 0 1, p.2)

/-- `read(unsigned, Width)`. -/
def readAt (o : Opts) (littleEndian : Bool) (s : ObjectState) (offset width : ℕ) :
    Option (Expr × ObjectState) :=
  if width = 1 then readBool (s.read8 o offset)
  else readBytes (fun s n i => s.read8 o (offset + byteIdx littleEndian n i)) s width

/-- `read(ref<Expr>, Width)`. -/
def read (o : Opts) (littleEndian : Bool) (s : ObjectState) (offset : Expr) (width : ℕ) :
    Option (Expr × ObjectState) :=
  -- truncate the offset to 32 bits
  let offset := ZExtExpr.create offset 32
  match offset.constant? with
  | some c => s.readAt o littleEndian c.toNat width
  | none =>
    if width = 1 then readBool (s.read8Sym o offset)
    else
      readBytes (fun s n i =>
        s.read8Sym o (AddExpr.create o offset (.const (.ofNat 32 (byteIdx littleEndian n i)))))
        s width

/-- The rounds `i, i + 1, ...` of the loops of `write`. -/
def writeLoop (wr : ObjectState → ℕ → Option ObjectState) :
    (todo i : ℕ) → ObjectState → Option ObjectState
  | 0, _, s => some s
  | todo + 1, i, s => (wr s i).bind (writeLoop wr todo (i + 1))

/-- `write8`, `write16`, `write32` and `write64` for the constants that are written at once. -/
def writeConst (littleEndian : Bool) (s : ObjectState) (offset : ℕ) (c : APInt) :
    Option ObjectState :=
  let numBytes := if c.width = 1 then 1 else c.width / 8
  writeLoop (fun s i => some (s.write8 (offset + byteIdx littleEndian numBytes i)
    (BitVec.ofNat 8 (c.toNat / 2 ^ (8 * i))))) numBytes 0 s

/-- The slow general case of `write(unsigned, ref<Expr>)`. -/
def writeAtSlow (littleEndian : Bool) (s : ObjectState) (offset : ℕ) (value : Expr) :
    Option ObjectState :=
  let w := value.width
  if w = 1 then some (s.write8Expr offset (ZExtExpr.create value 8))
  else if w ≠ w / 8 * 8 then none
  else writeLoop (fun s i => some (s.write8Expr (offset + byteIdx littleEndian (w / 8) i)
    (ExtractExpr.create value (8 * i) 8))) (w / 8) 0 s

/-- `write(unsigned, ref<Expr>)`. -/
def writeAt (littleEndian : Bool) (s : ObjectState) (offset : ℕ) (value : Expr) :
    Option ObjectState :=
  match value.constant? with
  | some c =>
    if c.width ≤ 64 ∧ c.width.isPowerOfTwo then
      if c.width = 1 ∨ 8 ≤ c.width then s.writeConst littleEndian offset c
      else none
    else s.writeAtSlow littleEndian offset value
  | none => s.writeAtSlow littleEndian offset value

/-- `write(ref<Expr>, ref<Expr>)`. -/
def write (o : Opts) (littleEndian : Bool) (s : ObjectState) (offset value : Expr) :
    Option ObjectState :=
  -- truncate the offset to 32 bits
  let offset := ZExtExpr.create offset 32
  match offset.constant? with
  | some c => s.writeAt littleEndian c.toNat value
  | none =>
    let w := value.width
    if w = 1 then s.write8Sym offset (ZExtExpr.create value 8)
    else if w ≠ w / 8 * 8 then none
    else writeLoop (fun s i =>
      s.write8Sym (AddExpr.create o offset (.const (.ofNat 32 (byteIdx littleEndian (w / 8) i))))
        (ExtractExpr.create value (8 * i) 8)) (w / 8) 0 s

end ObjectState

end Castan
