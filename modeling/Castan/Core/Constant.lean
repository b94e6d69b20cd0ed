/-
# Constants and the initializers of globals

`evalConstant` turns a constant of the module into one wide value; `initializeGlobalObject`
writes it piece by piece into the object of a global.  On a little-endian target the value,
stored at the start of a zeroed object, leaves the bytes that the initializer writes exactly
when every constant data array reads the same in both directions: `evalConstant` concatenates
the elements of such an array in the opposite order.
-/
import Castan.Core.ByteArray

namespace Castan

open APInt ConcatExpr List ObjectState PlainArray

variable {i offset size width w : ℕ} {v : APInt} {b : PlainArray} {xs ys : List (BitVec 8)}
  {s : ObjectState}

/-! ### Byte strings -/

/-- The bytes of a value, the least significant one first. -/
def APInt.bytes (v : APInt) : List (BitVec 8) :=
  (List.range (v.width / 8)).map fun i => BitVec.ofNat 8 (v.toNat / 2 ^ (8 * i))

namespace APInt

@[simp] lemma length_bytes (v : APInt) : v.bytes.length = v.width / 8 := by
  simp [bytes]

lemma bytes_getElem? (v : APInt) (h : i < v.width / 8) :
    v.bytes[i]? = some (BitVec.ofNat 8 (v.toNat / 2 ^ (8 * i))) := by
  simp [bytes, h]

lemma bytes_zero (k : ℕ) : (ofNat (8 * k) 0).bytes = replicate k 0 := by
  refine ext_getElem (by simp) fun i _ _ => ?_
  simp [bytes, ofNat, toNat]

/-- The bytes of the least significant part come first. -/
lemma bytes_concat (hi lo : APInt) (h : 8 ∣ lo.width) :
    (hi.concat lo).bytes = lo.bytes ++ hi.bytes := by
  obtain ⟨k, hk⟩ := h
  have hlo : lo.toNat < 2 ^ (8 * k) := hk ▸ lo.toNat_lt
  have hwidth : (hi.concat lo).width / 8 = k + hi.width / 8 := by
    show (hi.width + lo.width) / 8 = _
    omega
  have hpos : 0 < 2 ^ (8 * k) := Nat.two_pow_pos _
  rw [bytes, hwidth, range_add, map_append, bytes, bytes, hk,
    Nat.mul_div_cancel_left _ (by norm_num), map_map]
  congr 1
  · refine map_congr_left fun i hi' => ?_
    have hik : i < k := mem_range.mp hi'
    refine BitVec.eq_of_toNat_eq ?_
    rw [BitVec.toNat_ofNat, BitVec.toNat_ofNat, toNat_concat, hk,
      show 8 * k = 8 * i + 8 * (k - i - 1) + 8 by omega, Nat.pow_add, Nat.pow_add,
      show hi.toNat * (2 ^ (8 * i) * 2 ^ (8 * (k - i - 1)) * 2 ^ 8) + lo.toNat
        = lo.toNat + 2 ^ (8 * i) * (2 ^ 8 * (hi.toNat * 2 ^ (8 * (k - i - 1)))) by ring,
      Nat.add_mul_div_left _ _ (Nat.two_pow_pos _), Nat.add_mul_mod_self_left]
  · refine map_congr_left fun i _ => ?_
    simp only [Function.comp_apply]
    rw [toNat_concat, hk, Nat.mul_add, Nat.pow_add, ← Nat.div_div_eq_div_mul,
      Nat.add_comm, Nat.add_mul_div_right _ _ hpos, Nat.div_eq_of_lt hlo, Nat.zero_add]

/-- A value is given by its bytes. -/
lemma eq_of_bytes_eq {v' : APInt} (hw : v.width = v'.width) (h8 : 8 ∣ v.width)
    (h : v.bytes = v'.bytes) : v = v' := by
  obtain ⟨k, hk⟩ := h8
  refine ext_toNat hw ?_
  have hbyte : ∀ i < k, v.toNat / 2 ^ (8 * i) % 256 = v'.toNat / 2 ^ (8 * i) % 256 := by
    intro i hi
    have hv := v.bytes_getElem? (i := i) (by omega)
    have hv' := v'.bytes_getElem? (i := i) (by omega)
    rw [h, hv'] at hv
    have := congrArg BitVec.toNat (Option.some.inj hv)
    rw [BitVec.toNat_ofNat, BitVec.toNat_ofNat] at this
    exact this.symm
  -- the low `i` bytes agree, by induction on `i`
  have hlow : ∀ i ≤ k, v.toNat % 2 ^ (8 * i) = v'.toNat % 2 ^ (8 * i) := by
    intro i hi
    induction i with
    | zero => simp [Nat.mod_one]
    | succ i ih =>
      rw [Nat.mul_succ, Nat.pow_add, Nat.mod_mul, Nat.mod_mul, ih (by omega),
        show (2 : ℕ) ^ 8 = 256 from rfl, hbyte i (by omega)]
  have hv : v.toNat < 2 ^ (8 * k) := hk ▸ v.toNat_lt
  have hv' : v'.toNat < 2 ^ (8 * k) := (hk ▸ hw) ▸ v'.toNat_lt
  have := hlow k le_rfl
  rwa [Nat.mod_eq_of_lt hv, Nat.mod_eq_of_lt hv'] at this

end APInt

namespace PlainArray

/-- The array with a byte string written from `offset` on. -/
def splice (b : PlainArray) (offset : ℕ) (xs : List (BitVec 8)) : PlainArray :=
  fun i => if offset ≤ i then xs[i - offset]?.getD (b i) else b i

lemma splice_of_lt (b : PlainArray) (xs : List (BitVec 8)) (h : i < offset) :
    b.splice offset xs i = b i := if_neg (by omega)

lemma splice_of_ge (b : PlainArray) (xs : List (BitVec 8))
    (h : offset + xs.length ≤ i) : b.splice offset xs i = b i := by
  rw [splice, if_pos (by omega), getElem?_eq_none (by omega), Option.getD_none]

lemma splice_zero (b : PlainArray) (xs : List (BitVec 8)) (h : i < xs.length) :
    b.splice 0 xs i = xs[i] := by
  simp [splice, h]

@[simp] lemma splice_nil (b : PlainArray) (offset : ℕ) : b.splice offset [] = b := by
  funext i
  simp [splice]

lemma splice_singleton (b : PlainArray) (offset : ℕ) (x : BitVec 8) :
    b.splice offset [x] = Function.update b offset x := by
  funext i
  rcases Nat.lt_trichotomy i offset with h | rfl | h
  · rw [splice_of_lt _ _ h, Function.update_of_ne (by omega)]
  · simp [splice]
  · rw [splice_of_ge _ _ (by simpa using h), Function.update_of_ne (by omega)]

lemma splice_append (b : PlainArray) (offset : ℕ) (xs ys : List (BitVec 8)) :
    (b.splice offset xs).splice (offset + xs.length) ys = b.splice offset (xs ++ ys) := by
  funext i
  rcases Nat.lt_or_ge i (offset + xs.length) with h | h
  · rw [splice_of_lt _ _ h]
    rcases Nat.lt_or_ge i offset with h' | h'
    · rw [splice_of_lt _ _ h', splice_of_lt _ _ h']
    · rw [splice, splice, if_pos h', if_pos h', getElem?_append_left (by omega)]
  · rw [splice, if_pos h, splice_of_ge _ _ h, splice, if_pos (by omega),
      getElem?_append_right (by omega), Nat.sub_add_eq]

/-- The bytes `offset` to `offset + size - 1` are zero. -/
def Zeroed (b : PlainArray) (offset size : ℕ) : Prop :=
  ∀ i, offset ≤ i → i < offset + size → b i = 0

lemma Zeroed.mono {offset' size' : ℕ} (h : b.Zeroed offset size)
    (hle : offset ≤ offset') (hend : offset' + size' ≤ offset + size) : b.Zeroed offset' size' :=
  fun i hi hi' => h i (by omega) (by omega)

/-- A range behind the bytes written stays zero. -/
lemma Zeroed.splice {offset' : ℕ} (h : b.Zeroed offset size) (hle : offset' + xs.length ≤ offset) :
    (b.splice offset' xs).Zeroed offset size := by
  intro i hi hi'
  rw [splice_of_ge _ _ (by omega)]
  exact h i hi hi'

/-- Writing zeros on zeros changes nothing. -/
lemma Zeroed.splice_replicate (h : b.Zeroed offset size) :
    b.splice offset (replicate size 0) = b := by
  funext i
  rcases Nat.lt_or_ge i offset with h' | h'
  · exact splice_of_lt _ _ h'
  · rcases Nat.lt_or_ge i (offset + size) with hi | hi
    · rw [h i h' hi, PlainArray.splice, if_pos h', getElem?_replicate]
      simp [show i - offset < size by omega]
    · exact splice_of_ge _ _ (by simpa using hi)

/-- The rounds of a loop that writes the byte `f i` at `offset + i`. -/
lemma foldl_update_eq_splice (b : PlainArray) (offset : ℕ) (f : ℕ → BitVec 8) (count : ℕ) :
    (range count).foldl (fun b i => Function.update b (offset + i) (f i)) b =
      b.splice offset ((range count).map f) := by
  induction count with
  | zero => simp
  | succ count ih =>
    rw [range_succ, foldl_append, ih, map_append, ← splice_append]
    simp [splice_singleton]

lemma write_eq_splice (b : PlainArray) (offset : ℕ) (h : v.width ≠ 1) :
    b.write true offset v = b.splice offset v.bytes := by
  rw [write, numBytes_of_ne h]
  simp only [byteIdx, if_true]
  exact foldl_update_eq_splice b offset _ _

end PlainArray

/-! ### Constants -/

mutual

/-- The constants of an LLVM module that are built from integers, null pointers and
aggregates.  Sizes are store sizes in bytes and the offsets of the fields are those of the
structure's layout. -/
inductive LLVMConstant
  /-- `ConstantInt`. -/
  | int (value : APInt)
  /-- `ConstantPointerNull`. -/
  | nullPointer
  /-- `ConstantAggregateZero` of a type of `size` bytes. -/
  | aggregateZero (size : ℕ)
  /-- `ConstantDataArray` with elements of `elementWidth` bits. -/
  | data (elementWidth : ℕ) (elements : List APInt)
  /-- `ConstantArray` with elements of `elementSize` bytes. -/
  | array (elementSize : ℕ) (operands : LLVMOperands)
  /-- `ConstantStruct` with a layout of `size` bytes. -/
  | struct (size : ℕ) (fields : LLVMFields)

/-- The operands of a constant array. -/
inductive LLVMOperands
  | nil
  | cons (operand : LLVMConstant) (rest : LLVMOperands)

/-- The operands of a constant structure, each with the offset of its field. -/
inductive LLVMFields
  | nil
  | cons (offset : ℕ) (operand : LLVMConstant) (rest : LLVMFields)

end

variable {c : LLVMConstant}

/-- The number of operands. -/
def LLVMOperands.length : LLVMOperands → ℕ
  | .nil => 0
  | .cons _ rest => rest.length + 1

/-- Where the first of the fields starts, or the structure ends. -/
def LLVMFields.nextOffset (size : ℕ) : LLVMFields → ℕ
  | .nil => size
  | .cons offset _ _ => offset

/-- `getTypeStoreSize` of the type of a constant. -/
def LLVMConstant.storeSize (pointerWidth : ℕ) : LLVMConstant → ℕ
  | .int value => (value.width + 7) / 8
  | .nullPointer => (pointerWidth + 7) / 8
  | .aggregateZero size => size
  | .data elementWidth elements => elements.length * ((elementWidth + 7) / 8)
  | .array elementSize operands => operands.length * elementSize
  | .struct size _ => size

/-! ### The value of a constant -/

/-- `ConcatExpr::createN`: the first kid is the most significant one. -/
def ConcatExpr.createN : List Expr → Option Expr
  | [] => none
  | [kid] => some kid
  | kid :: kids => (createN kids).map (ConcatExpr.create kid)

/-- The constant that `createN` makes of constants. -/
def concatConstants (kids : List APInt) : Option APInt :=
  (ConcatExpr.createN (kids.map .const)).bind Expr.constant?

/-- `ConstantExpr::create(0, width)`; there are no values of width 0. -/
def createZero (width : ℕ) : Option APInt := if width = 0 then none else some (.ofNat width 0)

mutual

/-- `Executor::evalConstant`. -/
def LLVMConstant.evalConstant (pointerWidth : ℕ) : LLVMConstant → Option APInt
  | .int value => some value
  | .nullPointer => some (.ofNat pointerWidth 0)
  | .aggregateZero size => createZero (8 * size)
  | .data _ elements => concatConstants elements
  | .array _ operands => (operands.kids pointerWidth).bind concatConstants
  | .struct size fields => (fields.kids pointerWidth size).bind concatConstants

/-- The kids of a constant array, pushed from the last operand to the first. -/
def LLVMOperands.kids (pointerWidth : ℕ) : LLVMOperands → Option (List APInt)
  | .nil => some []
  | .cons operand rest => do
    let kids ← rest.kids pointerWidth
    let kid ← operand.evalConstant pointerWidth
    return kids ++ [kid]

/-- The kids of a constant structure, pushed from the last operand to the first, each after
the padding that follows its field. -/
def LLVMFields.kids (pointerWidth size : ℕ) : LLVMFields → Option (List APInt)
  | .nil => some []
  | .cons offset operand rest => do
    let kids ← rest.kids pointerWidth size
    let kid ← operand.evalConstant pointerWidth
    let thisOffset := 8 * offset
    let nextOffset := 8 * rest.nextOffset size
    if nextOffset - thisOffset > kid.width then
      let padding ← createZero (nextOffset - thisOffset - kid.width)
      return kids ++ [padding] ++ [kid]
    else return kids ++ [kid]

end

/-! ### The initializer of a global -/

namespace ObjectState

/-- The last branch of `initializeGlobalObject`: the value of a constant is written at once. -/
def initializeScalar (pointerWidth : ℕ) (s : ObjectState) (c : LLVMConstant) (offset : ℕ) :
    Option ObjectState :=
  (c.evalConstant pointerWidth).bind fun C =>
    let storeBits := 8 * c.storeSize pointerWidth
    if storeBits < C.width then none
    else s.writeAt true offset (.const (if C.width < storeBits then C.zExt storeBits else C))

/-- The elements of a constant data array, from the one at `offset` on. -/
def initializeElements (pointerWidth elementSize : ℕ) :
    ObjectState → List APInt → (offset : ℕ) → Option ObjectState
  | s, [], _ => some s
  | s, e :: elements, offset =>
    (s.initializeScalar pointerWidth (.int e) offset).bind fun s =>
      initializeElements pointerWidth elementSize s elements (offset + elementSize)

/-- The loop of `initializeGlobalObject` for zero aggregates. -/
def initializeZero (s : ObjectState) (size offset : ℕ) : ObjectState :=
  (List.range size).foldl (fun s i => s.write8 (offset + i) 0) s

mutual

/-- `Executor::initializeGlobalObject`. -/
def initializeGlobalObject (pointerWidth : ℕ) (s : ObjectState) :
    LLVMConstant → (offset : ℕ) → Option ObjectState
  | .aggregateZero size, offset => some (s.initializeZero size offset)
  | .array elementSize operands, offset =>
    initializeOperands pointerWidth elementSize s operands offset
  | .struct _ fields, offset => initializeFields pointerWidth s fields offset
  | .data elementWidth elements, offset =>
    initializeElements pointerWidth ((elementWidth + 7) / 8) s elements offset
  | .int value, offset => s.initializeScalar pointerWidth (.int value) offset
  | .nullPointer, offset => s.initializeScalar pointerWidth .nullPointer offset

/-- The operands of a constant array, from the one at `offset` on. -/
def initializeOperands (pointerWidth elementSize : ℕ) (s : ObjectState) :
    LLVMOperands → (offset : ℕ) → Option ObjectState
  | .nil, _ => some s
  | .cons operand rest, offset =>
    (initializeGlobalObject pointerWidth s operand offset).bind fun s =>
      initializeOperands pointerWidth elementSize s rest (offset + elementSize)

/-- The operands of a constant structure at `offset`. -/
def initializeFields (pointerWidth : ℕ) (s : ObjectState) :
    LLVMFields → (offset : ℕ) → Option ObjectState
  | .nil, _ => some s
  | .cons fieldOffset operand rest, offset =>
    (initializeGlobalObject pointerWidth s operand (offset + fieldOffset)).bind fun s =>
      initializeFields pointerWidth s rest offset

end

end ObjectState

/-! ### Well-formed constants -/

/-- The integer widths that are stored in a whole number of bytes. -/
def IntWidth (width : ℕ) : Prop := width = 8 ∨ width = 16 ∨ width = 32 ∨ width = 64

instance (width : ℕ) : Decidable (IntWidth width) := inferInstanceAs (Decidable (_ ∨ _))

lemma IntWidth.pos (h : IntWidth width) : 1 < width := by
  rcases h with rfl | rfl | rfl | rfl <;> decide

lemma IntWidth.dvd (h : IntWidth width) : 8 ∣ width := by
  rcases h with rfl | rfl | rfl | rfl <;> decide

mutual

/-- Integers have a width of 8, 16, 32 or 64 bits, the operands of an array have the size of its
elements, and the fields of a structure follow each other, possibly with padding. -/
def LLVMConstant.WellFormed (pointerWidth : ℕ) : LLVMConstant → Prop
  | .int value => IntWidth value.width
  | .nullPointer => True
  | .aggregateZero _ => True
  | .data elementWidth elements => IntWidth elementWidth ∧ ∀ e ∈ elements, e.width = elementWidth
  | .array elementSize operands => operands.WellFormed pointerWidth elementSize
  | .struct size fields => fields.nextOffset size = 0 ∧ fields.WellFormed pointerWidth size

/-- All operands are well formed constants of `elementSize` bytes. -/
def LLVMOperands.WellFormed (pointerWidth elementSize : ℕ) : LLVMOperands → Prop
  | .nil => True
  | .cons operand rest => operand.WellFormed pointerWidth ∧
      operand.storeSize pointerWidth = elementSize ∧ rest.WellFormed pointerWidth elementSize

/-- All operands are well formed, and each ends before the next field. -/
def LLVMFields.WellFormed (pointerWidth size : ℕ) : LLVMFields → Prop
  | .nil => True
  | .cons offset operand rest => operand.WellFormed pointerWidth ∧
      offset + operand.storeSize pointerWidth ≤ rest.nextOffset size ∧
      rest.WellFormed pointerWidth size

end

mutual

/-- Every aggregate of a constant has a part. -/
def LLVMConstant.Nonempty : LLVMConstant → Prop
  | .int _ => True
  | .nullPointer => True
  | .aggregateZero size => 0 < size
  | .data _ elements => elements ≠ []
  | .array _ operands => operands ≠ .nil ∧ operands.Nonempty
  | .struct _ fields => fields ≠ .nil ∧ fields.Nonempty

/-- Every aggregate of an operand has a part. -/
def LLVMOperands.Nonempty : LLVMOperands → Prop
  | .nil => True
  | .cons operand rest => operand.Nonempty ∧ rest.Nonempty

/-- Every aggregate of a field has a part. -/
def LLVMFields.Nonempty : LLVMFields → Prop
  | .nil => True
  | .cons _ operand rest => operand.Nonempty ∧ rest.Nonempty

end

mutual

/-- Every constant data array reads the same in both directions. -/
def LLVMConstant.Palindromic : LLVMConstant → Prop
  | .int _ => True
  | .nullPointer => True
  | .aggregateZero _ => True
  | .data _ elements => elements.reverse = elements
  | .array _ operands => operands.Palindromic
  | .struct _ fields => fields.Palindromic

/-- Every constant data array of an operand reads the same in both directions. -/
def LLVMOperands.Palindromic : LLVMOperands → Prop
  | .nil => True
  | .cons operand rest => operand.Palindromic ∧ rest.Palindromic

/-- Every constant data array of a field reads the same in both directions. -/
def LLVMFields.Palindromic : LLVMFields → Prop
  | .nil => True
  | .cons _ operand rest => operand.Palindromic ∧ rest.Palindromic

end

/-! ### Memory images -/

mutual

/-- The bytes of a constant, with the elements of the constant data arrays in the order that
`order` gives them. -/
def LLVMConstant.image (pointerWidth : ℕ) (order : List APInt → List APInt) :
    LLVMConstant → List (BitVec 8)
  | .int value => value.bytes
  | .nullPointer => (APInt.ofNat pointerWidth 0).bytes
  | .aggregateZero size => List.replicate size 0
  | .data _ elements => (order elements).flatMap APInt.bytes
  | .array _ operands => operands.image pointerWidth order
  | .struct size fields => fields.image pointerWidth order size

/-- The bytes of the operands, one after the other. -/
def LLVMOperands.image (pointerWidth : ℕ) (order : List APInt → List APInt) :
    LLVMOperands → List (BitVec 8)
  | .nil => []
  | .cons operand rest => operand.image pointerWidth order ++ rest.image pointerWidth order

/-- The bytes of the fields, each followed by its padding. -/
def LLVMFields.image (pointerWidth : ℕ) (order : List APInt → List APInt) (size : ℕ) :
    LLVMFields → List (BitVec 8)
  | .nil => []
  | .cons offset operand rest => operand.image pointerWidth order ++
      List.replicate (rest.nextOffset size - offset - operand.storeSize pointerWidth) 0 ++
      rest.image pointerWidth order size

end

section Image

variable {pointerWidth : ℕ} {order : List APInt → List APInt}

lemma length_flatMap_bytes {elements : List APInt} (h : ∀ e ∈ elements, e.width = w) :
    (elements.flatMap bytes).length = elements.length * (w / 8) := by
  induction elements with
  | nil => simp
  | cons e elements ih =>
    rw [flatMap_cons, length_append, ih fun e' he' => h e' (mem_cons_of_mem _ he'),
      length_bytes, h e mem_cons_self, length_cons]
    ring

mutual

lemma LLVMConstant.length_image (hpointer : 8 ∣ pointerWidth) (horder : ∀ xs, (order xs).Perm xs) :
    ∀ {c : LLVMConstant}, c.WellFormed pointerWidth →
      (c.image pointerWidth order).length = c.storeSize pointerWidth
  | .int value, h => by
    have h8 : 8 ∣ value.width := IntWidth.dvd h
    rw [LLVMConstant.image, LLVMConstant.storeSize, length_bytes]
    omega
  | .nullPointer, _ => by
    rw [LLVMConstant.image, LLVMConstant.storeSize, length_bytes, ofNat_width]
    omega
  | .aggregateZero size, _ => length_replicate
  | .data elementWidth elements, ⟨hw, hall⟩ => by
    have h8 : 8 ∣ elementWidth := hw.dvd
    rw [LLVMConstant.image, LLVMConstant.storeSize,
      length_flatMap_bytes fun e he => hall e ((horder elements).mem_iff.mp he),
      (horder elements).length_eq, show (elementWidth + 7) / 8 = elementWidth / 8 by omega]
  | .array _ operands, h => operands.length_image hpointer horder h
  | .struct size fields, ⟨hstart, h⟩ => by
    have := fields.length_image hpointer horder h
    rw [LLVMConstant.image, LLVMConstant.storeSize]
    omega

lemma LLVMOperands.length_image (hpointer : 8 ∣ pointerWidth) (horder : ∀ xs, (order xs).Perm xs) :
    ∀ (operands : LLVMOperands) {elementSize : ℕ}, operands.WellFormed pointerWidth elementSize →
        (operands.image pointerWidth order).length = operands.length * elementSize
  | .nil, _, _ => by simp [LLVMOperands.image, LLVMOperands.length]
  | .cons operand rest, elementSize, ⟨hop, hsize, hrest⟩ => by
    rw [LLVMOperands.image, length_append, LLVMConstant.length_image hpointer horder hop, hsize,
      rest.length_image hpointer horder hrest, LLVMOperands.length]
    ring

lemma LLVMFields.length_image (hpointer : 8 ∣ pointerWidth) (horder : ∀ xs, (order xs).Perm xs) :
    ∀ (fields : LLVMFields) {size : ℕ}, fields.WellFormed pointerWidth size →
      fields.nextOffset size + (fields.image pointerWidth order size).length = size
  | .nil, _, _ => by simp [LLVMFields.image, LLVMFields.nextOffset]
  | .cons offset operand rest, size, ⟨hop, hle, hrest⟩ => by
    have := rest.length_image hpointer horder hrest
    have := LLVMConstant.length_image hpointer horder hop
    rw [LLVMFields.image, length_append, length_append, length_replicate,
      show (LLVMFields.cons offset operand rest).nextOffset size = offset from rfl]
    omega

end

end Image

/-! ### The image of the value -/

/-- A value of whole bytes is a byte string. -/
def APInt.Encodes (v : APInt) (xs : List (BitVec 8)) : Prop := 8 ∣ v.width ∧ v.bytes = xs

/-- Kids of whole bytes, the most significant one first, are a byte string. -/
def KidsEncode (kids : List APInt) (xs : List (BitVec 8)) : Prop :=
  (∀ kid ∈ kids, 8 ∣ kid.width) ∧ kids.reverse.flatMap APInt.bytes = xs

lemma APInt.Encodes.width_eq (h : v.Encodes xs) : v.width = 8 * xs.length := by
  have hlen := congrArg length h.2
  rw [length_bytes] at hlen
  have := h.1
  omega

lemma APInt.encodes_zero (k : ℕ) : (ofNat (8 * k) 0).Encodes (replicate k 0) :=
  ⟨⟨k, rfl⟩, bytes_zero k⟩

lemma KidsEncode.push {kids : List APInt} {kid : APInt}
    (h : KidsEncode kids xs) (hkid : kid.Encodes ys) : KidsEncode (kids ++ [kid]) (ys ++ xs) := by
  refine ⟨fun k hk => ?_, ?_⟩
  · rcases mem_append.mp hk with hk | hk
    · exact h.1 k hk
    · exact mem_singleton.mp hk ▸ hkid.1
  · rw [reverse_append, flatMap_append, h.2]
    simp [hkid.2]

/-- The kids of a constant data array are its elements, and so its bytes are reversed. -/
lemma kidsEncode_elements {elements : List APInt} (hw : 8 ∣ w) (h : ∀ e ∈ elements, e.width = w) :
    KidsEncode elements (elements.reverse.flatMap bytes) :=
  ⟨fun e he => h e he ▸ hw, rfl⟩

lemma ConcatExpr.create_const (a b : APInt) :
    create (.const a) (.const b) = .const (a.concat b) := by
  rw [create, createAux]

/-- A concatenation of kids has the bytes of the kids, those of the last kid first. -/
lemma createN_encodes (kids : List APInt) :
    ∀ {xs : List (BitVec 8)}, KidsEncode kids xs → kids ≠ [] →
      ∃ v, createN (kids.map .const) = some (.const v) ∧ v.Encodes xs := by
  induction kids with
  | nil => exact fun _ hne => absurd rfl hne
  | cons kid kids ih =>
    rintro xs ⟨h8, rfl⟩ -
    have hkid : 8 ∣ kid.width := h8 kid mem_cons_self
    cases kids with
    | nil => exact ⟨kid, rfl, hkid, by simp⟩
    | cons kid' kids =>
      obtain ⟨v, hv, hdvd, hbytes⟩ :=
        ih ⟨fun k hk => h8 k (mem_cons_of_mem _ hk), rfl⟩ (cons_ne_nil _ _)
      rw [map_cons] at hv
      refine ⟨kid.concat v, ?_, ?_, ?_⟩
      · rw [map_cons, map_cons, createN, hv, Option.map_some, create_const]
        simp
      · show 8 ∣ kid.width + v.width
        omega
      · rw [bytes_concat _ _ hdvd, hbytes, reverse_cons, flatMap_append]
        simp

lemma concatConstants_encodes {kids : List APInt} (h : KidsEncode kids xs) (hne : kids ≠ []) :
    ∃ v, concatConstants kids = some v ∧ v.Encodes xs := by
  obtain ⟨v, hv, henc⟩ := createN_encodes kids h hne
  exact ⟨v, by rw [concatConstants, hv]; rfl, henc⟩

@[simp] lemma concatConstants_nil : concatConstants [] = none := rfl

lemma createZero_pos (h : 0 < width) : createZero width = some (.ofNat width 0) := if_neg (by omega)

section Value

variable {pointerWidth : ℕ}

mutual

/-- The value of a constant has the bytes of its image, with the constant data arrays
reversed. -/
theorem LLVMConstant.evalConstant_encodes (hpointer : 8 ∣ pointerWidth) :
    ∀ {c : LLVMConstant}, c.WellFormed pointerWidth → c.Nonempty →
      ∃ v, c.evalConstant pointerWidth = some v ∧ v.Encodes (c.image pointerWidth reverse)
  | .int value, h, _ => ⟨value, rfl, IntWidth.dvd h, rfl⟩
  | .nullPointer, _, _ => ⟨.ofNat pointerWidth 0, rfl, hpointer, rfl⟩
  | .aggregateZero size, _, hpos => by
    have hpos : 0 < size := hpos
    exact ⟨_, createZero_pos (by omega), encodes_zero size⟩
  | .data _ elements, ⟨hw, hall⟩, hne => by
    exact concatConstants_encodes (kidsEncode_elements hw.dvd hall) hne
  | .array _ operands, h, ⟨hne, hparts⟩ => by
    obtain ⟨kids, hkids, hnil, henc⟩ := operands.kids_encode hpointer h hparts
    obtain ⟨v, hv, hbytes⟩ := concatConstants_encodes henc fun hk => hne (hnil hk)
    exact ⟨v, by rw [LLVMConstant.evalConstant, hkids]; exact hv, hbytes⟩
  | .struct size fields, ⟨_, h⟩, ⟨hne, hparts⟩ => by
    obtain ⟨kids, hkids, hnil, henc⟩ := fields.kids_encode hpointer h hparts
    obtain ⟨v, hv, hbytes⟩ := concatConstants_encodes henc fun hk => hne (hnil hk)
    exact ⟨v, by rw [LLVMConstant.evalConstant, hkids]; exact hv, hbytes⟩

lemma LLVMOperands.kids_encode (hpointer : 8 ∣ pointerWidth) :
    ∀ (operands : LLVMOperands) {elementSize : ℕ},
      operands.WellFormed pointerWidth elementSize → operands.Nonempty →
      ∃ kids, operands.kids pointerWidth = some kids ∧ (kids = [] → operands = .nil) ∧
        KidsEncode kids (operands.image pointerWidth reverse)
  | .nil, _, _, _ => ⟨[], rfl, fun _ => rfl, by simp [KidsEncode, LLVMOperands.image]⟩
  | .cons operand rest, _, ⟨hop, _, hrest⟩, ⟨hne, hnes⟩ => by
    obtain ⟨kid, hkid, henc⟩ := LLVMConstant.evalConstant_encodes hpointer hop hne
    obtain ⟨kids, hkids, -, hencs⟩ := rest.kids_encode hpointer hrest hnes
    exact ⟨kids ++ [kid], by simp [LLVMOperands.kids, hkids, hkid], by simp, hencs.push henc⟩

lemma LLVMFields.kids_encode (hpointer : 8 ∣ pointerWidth) :
    ∀ (fields : LLVMFields) {size : ℕ}, fields.WellFormed pointerWidth size → fields.Nonempty →
      ∃ kids, fields.kids pointerWidth size = some kids ∧ (kids = [] → fields = .nil) ∧
        KidsEncode kids (fields.image pointerWidth reverse size)
  | .nil, _, _, _ => ⟨[], rfl, fun _ => rfl, by simp [KidsEncode, LLVMFields.image]⟩
  | .cons offset operand rest, size, ⟨hop, hle, hrest⟩, ⟨hne, hnes⟩ => by
    obtain ⟨kid, hkid, henc⟩ := LLVMConstant.evalConstant_encodes hpointer hop hne
    obtain ⟨kids, hkids, -, hencs⟩ := rest.kids_encode hpointer hrest hnes
    have hwidth : kid.width = 8 * operand.storeSize pointerWidth := by
      rw [henc.width_eq, LLVMConstant.length_image hpointer reverse_perm hop]
    by_cases hpad : 8 * rest.nextOffset size - 8 * offset > kid.width
    · -- the padding of the field is a kid of its own
      have hpadding : 8 * rest.nextOffset size - 8 * offset - kid.width =
          8 * (rest.nextOffset size - offset - operand.storeSize pointerWidth) := by omega
      have hzero := createZero_pos (Nat.sub_pos_of_lt hpad)
      rw [hpadding] at hzero
      refine ⟨kids ++ [.ofNat (8 * (rest.nextOffset size - offset -
        operand.storeSize pointerWidth)) 0] ++ [kid], ?_, by simp, ?_⟩
      · simp [LLVMFields.kids, hkids, hkid, hpad, hpadding, hzero]
      · rw [LLVMFields.image, append_assoc (LLVMConstant.image _ _ _)]
        exact (hencs.push (encodes_zero _)).push henc
    · refine ⟨kids ++ [kid], by simp [LLVMFields.kids, hkids, hkid, hpad], by simp, ?_⟩
      have hnone : rest.nextOffset size - offset - operand.storeSize pointerWidth = 0 := by omega
      rw [LLVMFields.image, hnone, replicate_zero, append_nil]
      exact hencs.push henc

end

mutual

/-- The value of an aggregate without parts is not defined. -/
lemma LLVMConstant.nonempty_of_evalConstant :
    ∀ {c : LLVMConstant} {v : APInt}, c.evalConstant pointerWidth = some v → c.Nonempty
  | .int _, _, _ => trivial
  | .nullPointer, _, _ => trivial
  | .aggregateZero size, _, h => by
    show 0 < size
    rcases Nat.eq_zero_or_pos size with rfl | hpos
    · exact absurd h (by simp [LLVMConstant.evalConstant, createZero])
    · exact hpos
  | .data _ elements, _, h => by
    rintro (rfl : elements = [])
    exact absurd h (by simp [LLVMConstant.evalConstant])
  | .array _ operands, _, h => by
    obtain ⟨kids, hkids, hv⟩ := Option.bind_eq_some_iff.mp h
    refine ⟨?_, operands.nonempty_of_kids hkids⟩
    rintro rfl
    obtain rfl : [] = kids := Option.some.inj hkids
    exact absurd hv (by simp)
  | .struct _ fields, _, h => by
    obtain ⟨kids, hkids, hv⟩ := Option.bind_eq_some_iff.mp h
    refine ⟨?_, fields.nonempty_of_kids hkids⟩
    rintro rfl
    obtain rfl : [] = kids := Option.some.inj hkids
    exact absurd hv (by simp)

lemma LLVMOperands.nonempty_of_kids : ∀ (operands : LLVMOperands) {kids : List APInt},
      operands.kids pointerWidth = some kids → operands.Nonempty
  | .nil, _, _ => trivial
  | .cons operand rest, _, h => by
    obtain ⟨kids, hkids, h⟩ := Option.bind_eq_some_iff.mp h
    obtain ⟨kid, hkid, -⟩ := Option.bind_eq_some_iff.mp h
    exact ⟨LLVMConstant.nonempty_of_evalConstant hkid, rest.nonempty_of_kids hkids⟩

lemma LLVMFields.nonempty_of_kids : ∀ (fields : LLVMFields) {size : ℕ} {kids : List APInt},
      fields.kids pointerWidth size = some kids → fields.Nonempty
  | .nil, _, _, _ => trivial
  | .cons _ operand rest, _, _, h => by
    obtain ⟨kids, hkids, h⟩ := Option.bind_eq_some_iff.mp h
    obtain ⟨kid, hkid, -⟩ := Option.bind_eq_some_iff.mp h
    exact ⟨LLVMConstant.nonempty_of_evalConstant hkid, rest.nonempty_of_kids hkids⟩

end

end Value

/-! ### The image of the initializer -/

section Initializer

variable {o : Opts} {ρ : Valuation} {n pointerWidth : ℕ}

/-- A scalar of whole bytes is written as it is. -/
lemma initializeScalar_represents {C : APInt} (h : Represents o ρ n b s.view)
    (hC : c.evalConstant pointerWidth = some C) (hstore : 8 * c.storeSize pointerWidth = C.width)
    (hpos : 0 < C.width) :
    ∃ s', s.initializeScalar pointerWidth c offset = some s' ∧
      Represents o ρ n (b.splice offset C.bytes) s'.view := by
  obtain ⟨s', hs', h'⟩ : ∃ s', s.writeAt true offset (.const C) = some s' ∧
      Represents o ρ n (b.write true offset C) s'.view :=
    writeAt_represents h (HasValue.const C hpos) (Or.inr ⟨⟨_, hstore.symm⟩, hpos⟩)
  have hne : C.width ≠ 1 := by omega
  refine ⟨s', ?_, write_eq_splice b offset hne ▸ h'⟩
  rw [initializeScalar, hC, Option.bind_some]
  simp only [hstore, lt_irrefl, if_false]
  exact hs'

lemma initializeInt_represents {value : APInt} (offset : ℕ)
    (h : Represents o ρ n b s.view) (hw : IntWidth value.width) :
    ∃ s', s.initializeScalar pointerWidth (.int value) offset = some s' ∧
      Represents o ρ n (b.splice offset value.bytes) s'.view := by
  have h8 : 8 ∣ value.width := hw.dvd
  have hpos : 1 < value.width := hw.pos
  refine initializeScalar_represents h rfl ?_ (by omega)
  rw [LLVMConstant.storeSize]
  omega

lemma initializeElements_represents (hw : IntWidth w) (elements : List APInt) :
    ∀ (b : PlainArray) (s : ObjectState) (offset : ℕ), (∀ e ∈ elements, e.width = w) →
      Represents o ρ n b s.view →
      ∃ s', initializeElements pointerWidth ((w + 7) / 8) s elements offset = some s' ∧
        Represents o ρ n (b.splice offset (elements.flatMap bytes)) s'.view := by
  induction elements with
  | nil =>
    intro b s offset _ h
    exact ⟨s, rfl, by simpa using h⟩
  | cons e elements ih =>
    intro b s offset hall h
    have he : e.width = w := hall e mem_cons_self
    obtain ⟨s₁, hs₁, h₁⟩ : ∃ s₁, s.initializeScalar pointerWidth (.int e) offset = some s₁ ∧
        Represents o ρ n (b.splice offset e.bytes) s₁.view :=
      initializeInt_represents offset h (he ▸ hw)
    obtain ⟨s', hs', h'⟩ := ih _ s₁ (offset + (w + 7) / 8)
      (fun e' he' => hall e' (mem_cons_of_mem _ he')) h₁
    refine ⟨s', by rw [initializeElements, hs₁]; exact hs', ?_⟩
    have hlen : (w + 7) / 8 = e.bytes.length := by
      have := hw.dvd
      rw [length_bytes, he]
      omega
    rwa [hlen, splice_append, ← flatMap_cons] at h'

/-- Zeros are written on zeros. -/
lemma initializeZero_represents (h : Represents o ρ n b s.view) :
    Represents o ρ n (b.splice offset (replicate size 0))
      (s.initializeZero size offset).view := by
  have hloop : ∀ (is : List ℕ) (b : PlainArray) (s : ObjectState), Represents o ρ n b s.view →
      Represents o ρ n (is.foldl (fun b i => Function.update b (offset + i) 0) b)
        (is.foldl (fun s i => s.write8 (offset + i) 0) s).view := by
    intro is
    induction is with
    | nil => exact fun _ _ h => h
    | cons i is ih => exact fun b s h => ih _ _ (write8_represents h 0)
  have := hloop (range size) b s h
  rwa [foldl_update_eq_splice b offset (fun _ => 0), map_const', length_range] at this

mutual

/-- On a zeroed range the initializer leaves the image of a constant, with the elements of the
constant data arrays in their order. -/
theorem initializeGlobalObject_represents (hpointer : 8 ∣ pointerWidth) (hpos : 0 < pointerWidth) :
    ∀ {c : LLVMConstant} {b : PlainArray} {s : ObjectState} {offset : ℕ},
      c.WellFormed pointerWidth → Represents o ρ n b s.view →
      b.Zeroed offset (c.storeSize pointerWidth) →
      ∃ s', s.initializeGlobalObject pointerWidth c offset = some s' ∧
        Represents o ρ n (b.splice offset (c.image pointerWidth id)) s'.view
  | .int value, _, _, offset, hwf, h, _ => initializeInt_represents offset h hwf
  | .nullPointer, _, _, _, _, h, _ => by
    refine initializeScalar_represents h rfl ?_ hpos
    rw [LLVMConstant.storeSize, ofNat_width]
    omega
  | .aggregateZero size, _, _, _, _, h, _ => ⟨_, rfl, initializeZero_represents h⟩
  | .data _ elements, _, _, _, ⟨hw, hall⟩, h, _ =>
    initializeElements_represents hw elements _ _ _ hall h
  | .array _ operands, _, _, offset, hwf, h, hzero =>
    initializeOperands_represents hpointer hpos operands offset hwf h hzero
  | .struct size fields, b, s, offset, ⟨hstart, hwf⟩, h, hzero => by
    obtain ⟨s', hs', h'⟩ := initializeFields_represents hpointer hpos fields offset hwf h
      (hzero.mono (by omega) (by rw [LLVMConstant.storeSize]; omega))
    rw [hstart, Nat.add_zero] at h'
    exact ⟨s', hs', h'⟩

lemma initializeOperands_represents (hpointer : 8 ∣ pointerWidth) (hpos : 0 < pointerWidth) :
    ∀ (operands : LLVMOperands) {b : PlainArray} {s : ObjectState} {elementSize : ℕ} (offset : ℕ),
      operands.WellFormed pointerWidth elementSize → Represents o ρ n b s.view →
      b.Zeroed offset (operands.length * elementSize) →
      ∃ s', s.initializeOperands pointerWidth elementSize operands offset = some s' ∧
        Represents o ρ n (b.splice offset (operands.image pointerWidth id)) s'.view
  | .nil, _, s, _, _, _, h, _ => ⟨s, rfl, by simpa [LLVMOperands.image] using h⟩
  | .cons operand rest, b, s, elementSize, offset, ⟨hop, hsize, hrest⟩, h, hzero => by
    rw [LLVMOperands.length, Nat.succ_mul] at hzero
    obtain ⟨s₁, hs₁, h₁⟩ := initializeGlobalObject_represents hpointer hpos hop h
      (hzero.mono le_rfl (by omega))
    have hlen : (operand.image pointerWidth id).length = elementSize :=
      (LLVMConstant.length_image hpointer (fun _ => List.Perm.refl _) hop).trans hsize
    obtain ⟨s', hs', h'⟩ := initializeOperands_represents hpointer hpos rest
      (offset + elementSize) hrest h₁
      ((hzero.mono (by omega) (by omega)).splice (by omega))
    refine ⟨s', by rw [initializeOperands, hs₁]; exact hs', ?_⟩
    rw [← hlen, splice_append] at h'
    exact h'

lemma initializeFields_represents (hpointer : 8 ∣ pointerWidth) (hpos : 0 < pointerWidth) :
    ∀ (fields : LLVMFields) {b : PlainArray} {s : ObjectState} {size : ℕ} (offset : ℕ),
      fields.WellFormed pointerWidth size → Represents o ρ n b s.view →
      b.Zeroed (offset + fields.nextOffset size) (size - fields.nextOffset size) →
      ∃ s', s.initializeFields pointerWidth fields offset = some s' ∧
        Represents o ρ n (b.splice (offset + fields.nextOffset size)
          (fields.image pointerWidth id size)) s'.view
  | .nil, _, s, _, _, _, h, _ => ⟨s, rfl, by simpa [LLVMFields.image] using h⟩
  | .cons fieldOffset operand rest, b, s, size, offset, ⟨hop, hle, hrest⟩, h, hzero => by
    have hlen : (operand.image pointerWidth id).length = operand.storeSize pointerWidth :=
      LLVMConstant.length_image hpointer (fun _ => List.Perm.refl _) hop
    have hend : rest.nextOffset size + (rest.image pointerWidth id size).length = size :=
      rest.length_image hpointer (fun _ => List.Perm.refl _) hrest
    replace hzero : b.Zeroed (offset + fieldOffset) (size - fieldOffset) := hzero
    obtain ⟨s₁, hs₁, h₁⟩ := initializeGlobalObject_represents hpointer hpos hop h
      (hzero.mono le_rfl (by omega))
    obtain ⟨s', hs', h'⟩ := initializeFields_represents hpointer hpos rest offset
      hrest h₁ ((hzero.mono (by omega) (by omega)).splice (by omega))
    refine ⟨s', by rw [initializeFields, hs₁]; exact hs', ?_⟩
    -- the padding behind the field is already zero
    have hpad : (b.splice (offset + fieldOffset) (operand.image pointerWidth id)).Zeroed
        (offset + fieldOffset + (operand.image pointerWidth id).length)
        (rest.nextOffset size - fieldOffset - operand.storeSize pointerWidth) :=
      (hzero.mono (by omega) (by omega)).splice (by omega)
    rw [← hpad.splice_replicate, splice_append,
      show offset + rest.nextOffset size = offset + fieldOffset +
        (operand.image pointerWidth id ++ replicate
          (rest.nextOffset size - fieldOffset - operand.storeSize pointerWidth) 0).length by
        rw [length_append, length_replicate]; omega,
      splice_append] at h'
    exact h'

end

end Initializer

/-! ### Comparison of the two images -/

section Compare

variable {pointerWidth : ℕ}

lemma flatMap_bytes_inj (hw : 8 ∣ w) (xs : List APInt) :
    ∀ {ys : List APInt}, (∀ x ∈ xs, x.width = w) → (∀ y ∈ ys, y.width = w) →
      xs.length = ys.length → xs.flatMap bytes = ys.flatMap bytes → xs = ys := by
  induction xs with
  | nil =>
    intro ys _ _ hlen _
    exact (length_eq_zero_iff.mp hlen.symm).symm
  | cons x xs ih =>
    intro ys hxs hys hlen heq
    cases ys with
    | nil => cases hlen
    | cons y ys =>
      have hx : x.width = w := hxs x mem_cons_self
      have hy : y.width = w := hys y mem_cons_self
      rw [flatMap_cons, flatMap_cons] at heq
      obtain ⟨hhead, htail⟩ := append_inj heq (by simp [hx, hy])
      rw [eq_of_bytes_eq (hx.trans hy.symm) (hx ▸ hw) hhead,
        ih (fun x hx => hxs x (mem_cons_of_mem _ hx))
          (fun y hy => hys y (mem_cons_of_mem _ hy)) (by simpa using hlen) htail]

lemma append_eq_append_iff {zs ws : List (BitVec 8)} (h : xs.length = ys.length) :
    xs ++ zs = ys ++ ws ↔ xs = ys ∧ zs = ws :=
  ⟨fun heq => append_inj heq h, fun ⟨hl, hr⟩ => by rw [hl, hr]⟩

/-- The order of the elements does not change how long an image is. -/
lemma LLVMConstant.length_image_reverse (hpointer : 8 ∣ pointerWidth)
    (h : c.WellFormed pointerWidth) :
    (c.image pointerWidth reverse).length = (c.image pointerWidth id).length :=
  (length_image hpointer reverse_perm h).trans
    (length_image hpointer (fun _ => List.Perm.refl _) h).symm

mutual

/-- The two images of a constant are the same exactly when its data arrays are palindromes. -/
theorem LLVMConstant.image_reverse_iff (hpointer : 8 ∣ pointerWidth) :
    ∀ {c : LLVMConstant}, c.WellFormed pointerWidth →
      (c.image pointerWidth reverse = c.image pointerWidth id ↔ c.Palindromic)
  | .int _, _ => iff_of_true rfl trivial
  | .nullPointer, _ => iff_of_true rfl trivial
  | .aggregateZero _, _ => iff_of_true rfl trivial
  | .data _ elements, ⟨hw, hall⟩ => by
    show elements.reverse.flatMap bytes = elements.flatMap bytes ↔
      elements.reverse = elements
    constructor
    · exact flatMap_bytes_inj hw.dvd _ (fun e he => hall e (mem_reverse.mp he)) hall length_reverse
    · intro h
      rw [h]
  | .array _ operands, h => operands.image_reverse_iff hpointer h
  | .struct _ fields, ⟨_, h⟩ => fields.image_reverse_iff hpointer h

lemma LLVMOperands.image_reverse_iff (hpointer : 8 ∣ pointerWidth) :
    ∀ (operands : LLVMOperands) {elementSize : ℕ}, operands.WellFormed pointerWidth elementSize →
      (operands.image pointerWidth reverse = operands.image pointerWidth id ↔
        operands.Palindromic)
  | .nil, _, _ => iff_of_true rfl trivial
  | .cons operand rest, _, ⟨hop, _, hrest⟩ => by
    show operand.image pointerWidth reverse ++ rest.image pointerWidth reverse =
      operand.image pointerWidth id ++ rest.image pointerWidth id ↔
        operand.Palindromic ∧ rest.Palindromic
    rw [append_eq_append_iff (LLVMConstant.length_image_reverse hpointer hop),
      LLVMConstant.image_reverse_iff hpointer hop, rest.image_reverse_iff hpointer hrest]

lemma LLVMFields.image_reverse_iff (hpointer : 8 ∣ pointerWidth) :
    ∀ (fields : LLVMFields) {size : ℕ}, fields.WellFormed pointerWidth size →
      (fields.image pointerWidth reverse size = fields.image pointerWidth id size ↔
        fields.Palindromic)
  | .nil, _, _ => iff_of_true rfl trivial
  | .cons offset operand rest, size, ⟨hop, _, hrest⟩ => by
    rw [LLVMFields.image, LLVMFields.image, append_assoc, append_assoc,
      append_eq_append_iff (LLVMConstant.length_image_reverse hpointer hop), append_cancel_left_eq,
      LLVMConstant.image_reverse_iff hpointer hop, rest.image_reverse_iff hpointer hrest]
    rfl

end

/-- A constant whose aggregates have parts is not of size 0. -/
lemma LLVMConstant.storeSize_pos (hpointer : 8 ∣ pointerWidth) (hpos : 0 < pointerWidth) :
    ∀ {c : LLVMConstant}, c.WellFormed pointerWidth → c.Nonempty → 0 < c.storeSize pointerWidth
  | .int value, h, _ => by
    have : 1 < value.width := IntWidth.pos h
    rw [storeSize]
    omega
  | .nullPointer, _, _ => by
    rw [storeSize]
    omega
  | .aggregateZero _, _, h => h
  | .data elementWidth elements, ⟨hw, _⟩, h => by
    have := hw.pos
    exact Nat.mul_pos (length_pos_iff.mpr h) (by omega)
  | .array _ .nil, _, ⟨h, _⟩ => absurd rfl h
  | .array _ (.cons operand rest), ⟨hop, hsize, _⟩, ⟨_, hne, _⟩ => by
    have := storeSize_pos hpointer hpos hop hne
    exact Nat.mul_pos (Nat.succ_pos _) (hsize ▸ this)
  | .struct _ .nil, _, ⟨h, _⟩ => absurd rfl h
  | .struct size (.cons offset operand rest), ⟨_, hop, hle, hrest⟩, ⟨_, hne, _⟩ => by
    have := storeSize_pos hpointer hpos hop hne
    have := rest.length_image hpointer (fun _ => List.Perm.refl _) hrest
    rw [storeSize]
    omega

end Compare

/-! ### Storing the value and initializing agree -/

/-- The value of a byte of an object under an assignment. -/
def ObjectState.byteAt (o : Opts) (ρ : Valuation) (s : ObjectState) (i : ℕ) : Option APInt :=
  (s.read8 o i).map fun p => p.1.eval ρ

/-- The `n` bytes of two objects can be read and are the same. -/
def SameBytes (o : Opts) (ρ : Valuation) (n : ℕ) (s s' : ObjectState) : Prop :=
  ∀ i < n, ∃ x, s.byteAt o ρ i = some x ∧ s'.byteAt o ρ i = some x

/-- `write` of the value of a constant at offset 0. -/
def ObjectState.storeConstant (pointerWidth : ℕ) (s : ObjectState) (c : LLVMConstant) :
    Option ObjectState :=
  (c.evalConstant pointerWidth).bind fun C => s.writeAt true 0 (.const C)

section Agree

variable {o : Opts} {ρ : Valuation} {n : ℕ}

lemma Represents.byteAt (hn : n ≤ 2 ^ 32) (h : Represents o ρ n b s.view) (hi : i < n) :
    s.byteAt o ρ i = some ⟨8, b i⟩ := by
  obtain ⟨e, s', hread, -, hvalue⟩ := read8_represents hn h hi
  rw [ObjectState.byteAt, hread, Option.map_some, hvalue.eval_eq]

lemma sameBytes_iff {b' : PlainArray} {s' : ObjectState} (hn : n ≤ 2 ^ 32)
    (h : Represents o ρ n b s.view) (h' : Represents o ρ n b' s'.view) :
    SameBytes o ρ n s s' ↔ ∀ i < n, b i = b' i := by
  refine forall₂_congr fun i hi => ?_
  rw [h.byteAt hn hi, h'.byteAt hn hi]
  constructor
  · rintro ⟨x, hx, hx'⟩
    have := Option.some.inj (hx.trans hx'.symm)
    simpa using this
  · intro heq
    exact ⟨_, rfl, by rw [heq]⟩

/-- Two byte strings of one length are the same when they are on a zeroed array. -/
lemma splice_eq_iff (b : PlainArray) (hlen : xs.length = ys.length)
    (hfit : xs.length ≤ n) : (∀ i < n, b.splice 0 xs i = b.splice 0 ys i) ↔ xs = ys := by
  constructor
  · intro h
    refine ext_getElem hlen fun i hi hi' => ?_
    have := h i (by omega)
    rwa [splice_zero _ _ hi, splice_zero _ _ hi'] at this
  · rintro rfl i _
    rfl

lemma storeConstant_represents {pointerWidth : ℕ}
    (hpointer : 8 ∣ pointerWidth) (hpos : 0 < pointerWidth)
    (hwf : c.WellFormed pointerWidth) (hne : c.Nonempty) (h : Represents o ρ n b s.view) :
    ∃ s', s.storeConstant pointerWidth c = some s' ∧
      Represents o ρ n (b.splice 0 (c.image pointerWidth reverse)) s'.view := by
  obtain ⟨v, hv, henc⟩ := LLVMConstant.evalConstant_encodes hpointer hwf hne
  have hwidth : v.width = 8 * c.storeSize pointerWidth := by
    rw [henc.width_eq, LLVMConstant.length_image hpointer reverse_perm hwf]
  have hvpos : 0 < v.width := by
    have := LLVMConstant.storeSize_pos hpointer hpos hwf hne
    omega
  obtain ⟨s', hs', h'⟩ : ∃ s', s.writeAt true 0 (.const v) = some s' ∧
      Represents o ρ n (b.write true 0 v) s'.view :=
    writeAt_represents h (HasValue.const v hvpos) (Or.inr ⟨henc.1, hvpos⟩)
  rw [write_eq_splice b 0 (by omega), henc.2] at h'
  exact ⟨s', by rw [storeConstant, hv]; exact hs', h'⟩

end Agree

/-- Two bytes, padding, a null pointer and two 16-bit integers. -/
def paddedConstant : LLVMConstant :=
  .struct 24 (.cons 0 (.data 8 [.ofNat 8 1, .ofNat 8 1])
    (.cons 8 .nullPointer (.cons 16 (.array 2 (.cons (.int (.ofNat 16 3))
      (.cons (.int (.ofNat 16 4)) .nil))) .nil)))

/-- The constant data array of the bytes 1 and 2. -/
def oneTwo : LLVMConstant := .data 8 [.ofNat 8 1, .ofNat 8 2]

lemma evalConstant_oneTwo : oneTwo.evalConstant 64 = some (.ofNat 16 0x0102) := by
  simp only [oneTwo, LLVMConstant.evalConstant, concatConstants, map_cons, map_nil,
    createN, Option.map_some, create_const, Option.bind_some,
    Expr.constant?_const]
  decide

end Castan
