/-
# The .ktest format

`kTest_toFile` and `kTest_fromFile`: the arguments and the objects of a test case, as a file of
length-prefixed strings and blocks with big-endian lengths.

The two functions are inverse to each other exactly on the test cases whose strings and objects
are not empty and whose strings leave room for the terminating NUL in 32 bits: `fwrite` and `fread`
return 0 for an item of size 0, which both sides take for an error, and the reader allocates
`len + 1` bytes with a 32-bit `len`.
-/
import Castan.Lib.Stdio

namespace Castan

open Stdio

/-! ### Strings and numbers -/

/-- A C string, without its terminating NUL. -/
structure CStr where
  chars : List Byte
  nul_free : 0 ∉ chars
deriving DecidableEq

namespace CStr

/-- The memory block that holds the string. -/
def block (s : CStr) : List Byte := s.chars ++ [0]

/-- The string in a memory block that is followed by a NUL. -/
def ofBlock (buf : List Byte) : CStr where
  chars := buf.takeWhile (· != 0)
  nul_free h := by simpa using List.mem_takeWhile_imp h

lemma ofBlock_chars (s : CStr) : ofBlock s.chars = s := by
  have h : s.chars.takeWhile (· != 0) = s.chars := by
    rw [List.takeWhile_eq_self_iff]
    intro b hb
    have hne : b ≠ 0 := fun h0 => s.nul_free (h0 ▸ hb)
    simpa using hne
  cases s
  simp only [ofBlock, h]

lemma length_ofBlock_le (buf : List Byte) : (ofBlock buf).chars.length ≤ buf.length :=
  (List.takeWhile_prefix _).length_le

end CStr

namespace KTest

/-- The four bytes `write_uint32` stores into its buffer. -/
def uint32Bytes (value : BitVec 32) : List Byte :=
  [(value >>> 24).setWidth 8, (value >>> 16).setWidth 8, (value >>> 8).setWidth 8,
    (value >>> 0).setWidth 8]

/-- The number `read_uint32` makes of its buffer. -/
def uint32Of : List Byte → BitVec 32
  | [d₀, d₁, d₂, d₃] =>
      ((((((d₀.setWidth 32 <<< 8) + d₁.setWidth 32) <<< 8) + d₂.setWidth 32) <<< 8) +
        d₃.setWidth 32)
  | _ => 0

lemma uint32Of_bytes (value : BitVec 32) : uint32Of (uint32Bytes value) = value := by
  apply BitVec.eq_of_toNat_eq
  simp only [uint32Bytes, uint32Of, BitVec.toNat_add, BitVec.toNat_shiftLeft, BitVec.toNat_setWidth,
    BitVec.toNat_ushiftRight, Nat.shiftLeft_eq, Nat.shiftRight_eq_div_pow]
  have := value.isLt
  omega

def readUint32 : Stdio (BitVec 32) := do
  let data ← fread 4 4 1
  check (data.items == 1)
  pure (uint32Of data.bytes)

def writeUint32 (value : BitVec 32) : Stdio Unit := do
  let n ← fwrite (uint32Bytes value) 1 4
  check (n == 4)

def readString : Stdio CStr := do
  let len ← readUint32
  -- `malloc(len+1)`: the sum is an `unsigned`
  let capacity := (len + 1).toNat
  let value ← fread capacity len.toNat 1
  check (value.items == 1)
  inBlock capacity (len.toNat + 1)
  pure (CStr.ofBlock value.bytes)

def writeString (value : CStr) : Stdio Unit := do
  let len := BitVec.ofNat 32 value.chars.length
  writeUint32 len
  let n ← fwrite value.block len.toNat 1
  check (n == 1)

/-! ### Test cases -/

/-- `KTestObject`; `numBytes` is the length of `bytes`. -/
structure Object where
  name : CStr
  bytes : List Byte
  bytes_lt : bytes.length < 2 ^ 32
deriving DecidableEq

end KTest

/-- `KTest`; `numArgs` and `numObjects` are the lengths of the two arrays. -/
structure KTest where
  version : BitVec 32
  args : List CStr
  symArgvs : BitVec 32
  symArgvLen : BitVec 32
  objects : List KTest.Object
  args_lt : args.length < 2 ^ 32
  objects_lt : objects.length < 2 ^ 32
deriving DecidableEq

namespace KTest

def currentVersion : BitVec 32 := 3

/-- `KTEST_MAGIC`. -/
def magic : List Byte := "KTEST".toList.map fun c => BitVec.ofNat 8 c.toNat

/-- `BOUT_MAGIC`. -/
def boutMagic : List Byte := "BOUT\n".toList.map fun c => BitVec.ofNat 8 c.toNat

def checkHeader : Stdio Unit := do
  let header ← fread 5 5 1
  check (header.items == 1)
  check (header.bytes == magic || header.bytes == boutMagic)

def readObject : Stdio Object := do
  let name ← readString
  let numBytes ← readUint32
  let data ← fread numBytes.toNat numBytes.toNat 1
  check (data.items == 1)
  pure { name, bytes := data.bytes,
         bytes_lt := (data.length_le.trans_eq (Nat.mul_one _)).trans_lt numBytes.isLt }

def writeObject (o : Object) : Stdio Unit := do
  writeString o.name
  let numBytes := BitVec.ofNat 32 o.bytes.length
  writeUint32 numBytes
  let n ← fwrite o.bytes numBytes.toNat 1
  check (n == 1)

/-- The two fields that version 2 added; before, they keep the 0 of `calloc`. -/
def readSymArgv (version : BitVec 32) : Stdio (BitVec 32 × BitVec 32) :=
  if 2 ≤ version then do
    let symArgvs ← readUint32
    let symArgvLen ← readUint32
    pure (symArgvs, symArgvLen)
  else pure (0, 0)

/-- `kTest_fromFile`, on the open file. -/
def fromFile : Stdio KTest := do
  checkHeader
  let version ← readUint32
  check (version ≤ currentVersion)
  let numArgs ← readUint32
  let args ← times numArgs.toNat readString
  let symArgv ← readSymArgv version
  let numObjects ← readUint32
  let objects ← times numObjects.toNat readObject
  pure { version, symArgvs := symArgv.1, symArgvLen := symArgv.2, args := args.toList,
         objects := objects.toList,
         args_lt := by simpa using numArgs.isLt, objects_lt := by simpa using numObjects.isLt }

/-- `kTest_toFile`, on the open file. -/
def toFile (bo : KTest) : Stdio Unit := do
  let n ← fwrite magic magic.length 1
  check (n == 1)
  writeUint32 currentVersion
  writeUint32 (BitVec.ofNat 32 bo.args.length)
  each bo.args writeString
  writeUint32 bo.symArgvs
  writeUint32 bo.symArgvLen
  writeUint32 (BitVec.ofNat 32 bo.objects.length)
  each bo.objects writeObject

/-! ### The encoding -/

/-- A string that `write_string` can write and `read_string` has room for. -/
def Encodable (s : CStr) : Prop := 0 < s.chars.length ∧ s.chars.length + 1 < 2 ^ 32

/-- No string and no object of the test case is empty, and no string is of the largest length. -/
structure NoEmpty (bo : KTest) : Prop where
  args : ∀ s ∈ bo.args, Encodable s
  names : ∀ o ∈ bo.objects, Encodable o.name
  bytes : ∀ o ∈ bo.objects, 0 < o.bytes.length

instance (s : CStr) : Decidable (Encodable s) := inferInstanceAs (Decidable (_ ∧ _))

def stringBytes (s : CStr) : List Byte := uint32Bytes (BitVec.ofNat 32 s.chars.length) ++ s.chars

def objectBytes (o : Object) : List Byte :=
  stringBytes o.name ++ (uint32Bytes (BitVec.ofNat 32 o.bytes.length) ++ o.bytes)

/-- The file of a test case. -/
def fileBytes (bo : KTest) : List Byte :=
  magic ++ (uint32Bytes currentVersion ++ (uint32Bytes (BitVec.ofNat 32 bo.args.length) ++
    (bo.args.flatMap stringBytes ++ (uint32Bytes bo.symArgvs ++ (uint32Bytes bo.symArgvLen ++
      (uint32Bytes (BitVec.ofNat 32 bo.objects.length) ++ bo.objects.flatMap objectBytes))))))

lemma toNat_ofNat_length {n : ℕ} (h : n < 2 ^ 32) : (BitVec.ofNat 32 n).toNat = n :=
  Nat.mod_eq_of_lt h

/-! ### Writing -/

/-- An item written, and its count checked. -/
lemma writes_item {ptr bytes : List Byte} {size nmemb : ℕ} (hs : 0 < size) (hn : 0 < nmemb)
    (hptr : ptr.take (size * nmemb) = bytes) :
    Writes (fwrite ptr size nmemb >>= fun n => check (n == nmemb)) bytes () := by
  have h : ¬ (size = 0 ∨ nmemb = 0) := by omega
  rw [← hptr]
  exact (Writes.fwrite h).bind_last (Writes.check (by simp))

lemma writes_uint32 (value : BitVec 32) : Writes (writeUint32 value) (uint32Bytes value) () :=
  writes_item Nat.one_pos (Nat.succ_pos 3) rfl

lemma writes_string {s : CStr} (hs : Encodable s) : Writes (writeString s) (stringBytes s) () := by
  have hlen : (BitVec.ofNat 32 s.chars.length).toNat = s.chars.length :=
    toNat_ofNat_length (by have := hs.2; omega)
  refine (writes_uint32 _).bind (writes_item ?_ Nat.one_pos ?_) <;> rw [hlen]
  · exact hs.1
  · rw [Nat.mul_one, CStr.block, List.take_left]

lemma writes_object {o : Object} (hn : Encodable o.name) (hb : 0 < o.bytes.length) :
    Writes (writeObject o) (objectBytes o) () := by
  have hlen : (BitVec.ofNat 32 o.bytes.length).toNat = o.bytes.length :=
    toNat_ofNat_length o.bytes_lt
  refine (writes_string hn).bind ((writes_uint32 _).bind (writes_item ?_ Nat.one_pos ?_)) <;>
    rw [hlen]
  · exact hb
  · rw [Nat.mul_one, List.take_length]

lemma toFile_writes {bo : KTest} (h : NoEmpty bo) : Writes (toFile bo) (fileBytes bo) () := by
  have hmagic : Writes (fwrite magic magic.length 1) magic 1 :=
    Writes.fwrite (by decide)
  have hargs : Writes (each bo.args writeString) _ () :=
    Writes.each fun s hs => writes_string (h.args s hs)
  have hobjects : Writes (each bo.objects writeObject) _ () :=
    Writes.each fun o ho => writes_object (h.names o ho) (h.bytes o ho)
  refine hmagic.bind ((Writes.check rfl).bind ((writes_uint32 _).bind ((writes_uint32 _).bind
    (hargs.bind ((writes_uint32 _).bind ((writes_uint32 _).bind ((writes_uint32 _).bind ?_)))))))
  exact hobjects

/-! ### Reading -/

lemma reads_uint32 (value : BitVec 32) : Reads readUint32 (uint32Bytes value) value := by
  have hpure : Reads (pure (uint32Of (uint32Bytes value))) [] value := by
    rw [uint32Of_bytes]
    exact Reads.pure value
  exact (Reads.fread (by decide) rfl (le_refl 4)).bind_last ((Reads.check rfl).bind_nil hpure)

lemma reads_string {s : CStr} (hs : Encodable s) : Reads readString (stringBytes s) s := by
  have hlen : (BitVec.ofNat 32 s.chars.length).toNat = s.chars.length :=
    toNat_ofNat_length (by have := hs.2; omega)
  have hcap : (BitVec.ofNat 32 s.chars.length + 1).toNat = s.chars.length + 1 := by
    rw [BitVec.toNat_add, hlen]
    exact Nat.mod_eq_of_lt hs.2
  have hpos := hs.1
  have hread : Reads (fread (BitVec.ofNat 32 s.chars.length + 1).toNat
      (BitVec.ofNat 32 s.chars.length).toNat 1) s.chars ⟨s.chars, 1, by omega⟩ :=
    Reads.fread (by omega) (by omega) (by omega)
  have hpure : Reads (pure (CStr.ofBlock s.chars)) [] s := by
    rw [CStr.ofBlock_chars]
    exact Reads.pure s
  exact (reads_uint32 _).bind (hread.bind_last
    ((Reads.check rfl).bind_nil ((Reads.inBlock (by omega)).bind_nil hpure)))

lemma reads_object {o : Object} (hn : Encodable o.name) (hb : 0 < o.bytes.length) :
    Reads readObject (objectBytes o) o := by
  have hlen : (BitVec.ofNat 32 o.bytes.length).toNat = o.bytes.length :=
    toNat_ofNat_length o.bytes_lt
  have hread : Reads (fread (BitVec.ofNat 32 o.bytes.length).toNat
      (BitVec.ofNat 32 o.bytes.length).toNat 1) o.bytes ⟨o.bytes, 1, by omega⟩ :=
    Reads.fread (by omega) (by omega) (by omega)
  exact (reads_string hn).bind ((reads_uint32 _).bind (hread.bind_last
    ((Reads.check rfl).bind_nil (Reads.pure o))))

lemma checkHeader_reads : Reads checkHeader magic () :=
  (Reads.fread (by decide) (by decide) (by decide)).bind_last
    ((Reads.check rfl).bind_nil (Reads.check (by decide)))

lemma fromFile_reads {bo : KTest} (h : NoEmpty bo) :
    Reads fromFile (fileBytes bo) { bo with version := currentVersion } := by
  have hargs : Reads (times (BitVec.ofNat 32 bo.args.length).toNat readString)
      (bo.args.flatMap stringBytes) ⟨bo.args, (toNat_ofNat_length bo.args_lt).symm⟩ :=
    Reads.times _ fun s hs => reads_string (h.args s hs)
  have hsym : Reads (readSymArgv currentVersion)
      (uint32Bytes bo.symArgvs ++ uint32Bytes bo.symArgvLen) (bo.symArgvs, bo.symArgvLen) :=
    (reads_uint32 _).bind ((reads_uint32 _).bind_last (Reads.pure _))
  have hobjects : Reads (times (BitVec.ofNat 32 bo.objects.length).toNat readObject)
      (bo.objects.flatMap objectBytes) ⟨bo.objects, (toNat_ofNat_length bo.objects_lt).symm⟩ :=
    Reads.times _ fun o ho => reads_object (h.names o ho) (h.bytes o ho)
  refine checkHeader_reads.bind ((reads_uint32 _).bind ((Reads.check (by decide)).bind_nil
    ((reads_uint32 _).bind (hargs.bind ?_))))
  rw [← List.append_assoc (uint32Bytes bo.symArgvs)]
  exact hsym.bind ((reads_uint32 _).bind (hobjects.bind_last (Reads.pure _)))

/-! ### What a success tells -/

lemma ensures_writeItem (ptr : List Byte) (size : ℕ) :
    Ensures (fwrite ptr size 1 >>= fun n => check (n == 1)) fun _ => 0 < size := by
  rcases Nat.eq_zero_or_pos size with rfl | hpos
  · refine (Ensures.fwrite_zero ptr 1).bind ?_
    rintro _ rfl f u f' h
    cases h
  · exact .of_forall fun _ => hpos

lemma ensures_writeString (s : CStr) : Ensures (writeString s) fun _ => 0 < s.chars.length := by
  refine .skip fun _ => ?_
  intro f u f' h
  have hpos : 0 < (BitVec.ofNat 32 s.chars.length).toNat := ensures_writeItem _ _ f u f' h
  exact hpos.trans_le (Nat.mod_le _ _)

lemma ensures_writeObject (o : Object) :
    Ensures (writeObject o) fun _ => 0 < o.name.chars.length ∧ 0 < o.bytes.length := by
  refine (ensures_writeString o.name).bind fun _ hname => .skip fun _ => ?_
  intro f u f' h
  have hpos : 0 < (BitVec.ofNat 32 o.bytes.length).toNat := ensures_writeItem _ _ f u f' h
  exact ⟨hname, hpos.trans_le (Nat.mod_le _ _)⟩

lemma ensures_toFile (bo : KTest) : Ensures (toFile bo) fun _ =>
    (∀ s ∈ bo.args, 0 < s.chars.length) ∧
      ∀ o ∈ bo.objects, 0 < o.name.chars.length ∧ 0 < o.bytes.length := by
  refine .skip fun _ => .skip fun _ => .skip fun _ => .skip fun _ => ?_
  refine (Ensures.each fun s _ => ensures_writeString s).bind fun _ hargs => ?_
  refine .skip fun _ => .skip fun _ => .skip fun _ => ?_
  intro f u f' h
  exact ⟨hargs, Ensures.each (fun o _ => ensures_writeObject o) f u f' h⟩

lemma ensures_readString : Ensures readString fun s => s.chars.length + 1 < 2 ^ 32 := by
  refine .skip fun len => .skip fun value => .skip fun _ => ?_
  refine (Ensures.inBlock _ _).bind fun _ hcap => .pure ?_
  calc (CStr.ofBlock value.bytes).chars.length + 1
      ≤ value.bytes.length + 1 := Nat.succ_le_succ (CStr.length_ofBlock_le _)
    _ ≤ len.toNat * 1 + 1 := Nat.succ_le_succ value.length_le
    _ ≤ (len + 1).toNat := by rwa [Nat.mul_one]
    _ < 2 ^ 32 := (len + 1).isLt

lemma ensures_readObject : Ensures readObject fun o => o.name.chars.length + 1 < 2 ^ 32 :=
  ensures_readString.bind fun _ hname => .skip fun _ => .skip fun _ => .skip fun _ => .pure hname

lemma ensures_fromFile : Ensures fromFile fun bo =>
    (∀ s ∈ bo.args, s.chars.length + 1 < 2 ^ 32) ∧
      ∀ o ∈ bo.objects, o.name.chars.length + 1 < 2 ^ 32 := by
  refine .skip fun _ => .skip fun _ => .skip fun _ => .skip fun _ => ?_
  refine (ensures_readString.times _).bind fun args hargs => .skip fun _ => .skip fun _ => ?_
  exact (ensures_readObject.times _).bind fun objects hobjects => .pure ⟨hargs, hobjects⟩

/-! ### The round trip -/

/-- The writer reports success, and the reader makes the same test case of its file. -/
def RoundTrips (bo : KTest) : Prop :=
  ∃ f, exec (toFile bo) FILE.empty = (.ok (), f) ∧
    ∃ bo' f', exec fromFile f.reopen = (.ok bo', f') ∧ bo'.args = bo.args ∧
      bo'.symArgvs = bo.symArgvs ∧ bo'.symArgvLen = bo.symArgvLen ∧ bo'.objects = bo.objects

lemma roundTrips_of_noEmpty {bo : KTest} (h : NoEmpty bo) : RoundTrips bo := by
  have hread := fromFile_reads h [] []
  rw [List.nil_append, List.append_nil] at hread
  exact ⟨_, toFile_writes h [], _, _, hread, rfl, rfl, rfl, rfl⟩

/-- A test case round-trips if and only if none of its strings and objects is empty and every
string leaves room for its NUL. -/
theorem roundTrips_iff (bo : KTest) : RoundTrips bo ↔ NoEmpty bo := by
  constructor
  · rintro ⟨f, hwrite, bo', f', hread, hargs, -, -, hobjects⟩
    obtain ⟨hwargs, hwobjects⟩ := ensures_toFile bo _ _ _ hwrite
    obtain ⟨hrargs, hrobjects⟩ := ensures_fromFile _ _ _ hread
    rw [hargs] at hrargs
    rw [hobjects] at hrobjects
    exact ⟨fun s hs => ⟨hwargs s hs, hrargs s hs⟩,
      fun o ho => ⟨(hwobjects o ho).1, hrobjects o ho⟩, fun o ho => (hwobjects o ho).2⟩
  · exact roundTrips_of_noEmpty

/-- A test case without arguments and with one object of no bytes. -/
def emptyObject : KTest where
  version := currentVersion
  args := []
  symArgvs := 0
  symArgvLen := 0
  objects := [⟨⟨[97], by decide⟩, [], by decide⟩]
  args_lt := by decide
  objects_lt := by decide

/-- `kTest_toFile` reports an error for it: the lengths fit, and `fwrite` of its bytes returns 0. -/
theorem emptyObject_not_roundTrips :
    (exec (toFile emptyObject) FILE.empty).1 = .error .error ∧ ¬ RoundTrips emptyObject := by
  have herror : (exec (toFile emptyObject) FILE.empty).1 = .error .error := by decide +kernel
  refine ⟨herror, ?_⟩
  rintro ⟨f, hwrite, -⟩
  rw [hwrite] at herror
  cases herror

end KTest

end Castan
