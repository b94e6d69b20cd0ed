/-
# Rainbow tables

A rainbow table is a text file with one record a line: a hash in eight hexadecimal digits and the
bytes of a key with this hash.  The records are sorted by their hashes.  `RainbowTable` finds the
first record with a given hash by a binary search over the positions in the file, and `getValue`
reads the records from there on.
-/
import Castan.Lib.IStream

namespace Castan

open IStream List

variable {file : IStream} {tail : List Char}

/-! ### The file -/

/-- A record of the table. -/
structure Record where
  hash : BitVec 32
  key : List (BitVec 8)
deriving DecidableEq

/-- The bytes of a key, as `generate_entry` prints them. -/
def keyText (key : List (BitVec 8)) : List Char :=
  key.flatMap fun b => ' ' :: Hex.format 2 b.toNat

/-- The line that `generate_entry` prints, without the newline. -/
def Record.line (r : Record) : List Char := Hex.format 8 r.hash.toNat ++ keyText r.key

/-- `generate_entry`. -/
def generateEntry (r : Record) : List Char := r.line ++ ['\n']

/-- The file of a table. -/
def tableFile (records : List Record) : List Char := records.flatMap generateEntry

/-! ### The search -/

/-- The variables of the binary search. -/
structure Search where
  file : IStream
  minRecord : ℤ
  maxRecord : ℤ

namespace Search

def midRecord (lineLength : ℕ) (s : Search) : ℤ :=
  s.minRecord + (s.maxRecord - s.minRecord) / 2 / lineLength * lineLength

/-- The body of the loop; `none` if no number was read and `lineValue` is indeterminate. -/
def step (lineLength value : ℕ) (s : Search) : Option Search :=
  let mid := s.midRecord lineLength
  match (s.file.seekg mid).readHex Hex.toUInt64 with
  | (none, _) => none
  | (some lineValue, file) =>
      if lineValue < value then
        if s.minRecord = mid then some ⟨file, mid + lineLength, s.maxRecord⟩
        else some ⟨file, mid, s.maxRecord⟩
      else some ⟨file, s.minRecord, mid⟩

variable {lineLength value : ℕ} {s s' : Search}

/-- The interval of the search gets shorter. -/
lemma step_lt (hlt : s.minRecord < s.maxRecord) (hlen : 0 < lineLength)
    (h : s.step lineLength value = some s') :
    (s'.maxRecord - s'.minRecord).toNat < (s.maxRecord - s.minRecord).toNat := by
  have hmul : (s.maxRecord - s.minRecord) / 2 / lineLength * lineLength ≤
      (s.maxRecord - s.minRecord) / 2 := Int.ediv_mul_le _ (by omega)
  have hnonneg : 0 ≤ (s.maxRecord - s.minRecord) / 2 / lineLength * lineLength := by positivity
  have hmid : s.midRecord lineLength = s.minRecord +
      (s.maxRecord - s.minRecord) / 2 / lineLength * lineLength := rfl
  rw [step] at h
  split at h
  · cases h
  · split_ifs at h with hvalue heq <;> obtain rfl := Option.some.inj h <;> dsimp only <;> omega

/-- The loop; `none` also for a division by zero. -/
def run (lineLength value : ℕ) (s : Search) : Option Search :=
  if _hlt : s.minRecord < s.maxRecord then
    if _hlen : 0 < lineLength then
      match _hstep : s.step lineLength value with
      | none => none
      | some s' => run lineLength value s'
    else none
  else some s
termination_by (s.maxRecord - s.minRecord).toNat
decreasing_by exact step_lt _hlt _hlen _hstep

end Search

/-! ### The table -/

structure RainbowTable where
  file : IStream
  lineLength : ℕ
  value : ℕ

namespace RainbowTable

/-- The constructor up to the loop: the length of a line as an `unsigned`, and the search. -/
def start (content : List Char) : ℕ × Search :=
  let (line, file) := (IStream.ofContent content).getline
  let (maxRecord, file) := file.seekEnd.tellg
  (((line.getD []).length + 1) % 2 ^ 32, ⟨file, 0, maxRecord⟩)

/-- The constructor; `none` if the assertion on the size of the file fails. -/
def create (content : List Char) (value : ℕ) : Option RainbowTable :=
  let (lineLength, search) := start content
  if lineLength = 0 then none
  else if search.maxRecord % lineLength ≠ 0 then none
  else (search.run lineLength value).map fun s =>
    ⟨s.file.seekg s.maxRecord, lineLength, value⟩

/-- A bound for the reads that a stream still allows. -/
def remaining (file : IStream) : ℕ := file.content.length - file.pos + file.good.toNat

lemma getline_lt (h : file.good = true) : remaining file.getline.2 < remaining file := by
  rw [remaining, remaining, getline_content, getline, if_pos h]
  dsimp only
  have hrest : file.rest.length = file.content.length - file.pos := length_drop
  split
  · next hlt =>
    have hgood : ({ file with pos := file.pos +
        (file.rest.takeWhile (· ≠ '\n')).length + 1 } : IStream).good = file.good := rfl
    rw [hgood]
    dsimp only
    omega
  · rw [h]
    simp only [good, Bool.not_true, Bool.false_and, Bool.toNat_false, Bool.toNat_true]
    omega

/-- The loop of `getValue`: the next line that is not empty, or `none` if the stream is not good
any more. -/
def nextLine (file : IStream) : Option (List Char) × IStream :=
  if _h : file.good then
    if (file.getline.1.getD []).isEmpty then nextLine file.getline.2 else file.getline
  else (none, file)
termination_by remaining file
decreasing_by exact getline_lt _h

/-- The loop `while (ss >> b)`. -/
def keyBytes (ss : IStream) : List (BitVec 8) :=
  if _hok : (ss.readHex Hex.toInt).2.failbit = false then
    BitVec.ofInt 8 ((ss.readHex Hex.toInt).1.getD 0) :: keyBytes (ss.readHex Hex.toInt).2
  else []
termination_by ss.content.length - ss.pos
decreasing_by
  rw [IStream.readHex_content]
  exact IStream.readHex_lt _hok

/-- `getValue`; `none` if the assertion on the length of the line fails. -/
def getValue (t : RainbowTable) : Option (List (BitVec 8)) × RainbowTable :=
  match nextLine t.file with
  | (none, file) => (some [], { t with file := file })
  | (some line, file) =>
      if line.length + 1 = t.lineLength then
        match (IStream.ofContent line).readHex Hex.toUInt64 with
        | (some lineValue, ss) =>
            (some (if lineValue = t.value then keyBytes ss else []), { t with file := file })
        | (none, _) => (none, { t with file := file })
      else (none, { t with file := file })

lemma nextLine_lt (file : IStream) (h : (nextLine file).1 ≠ none) :
    remaining (nextLine file).2 < remaining file := by
  induction file using nextLine.induct with
  | case1 file hgood hempty ih =>
    rw [nextLine, dif_pos hgood, if_pos hempty] at h ⊢
    exact (ih h).trans (getline_lt hgood)
  | case2 file hgood hempty =>
    rw [nextLine, dif_pos hgood, if_neg hempty]
    exact getline_lt hgood
  | case3 file hgood =>
    rw [nextLine, dif_neg hgood] at h
    exact absurd rfl h

/-- Every key takes up a line. -/
lemma getValue_lt {t : RainbowTable} (h : t.getValue.1 ≠ some []) :
    remaining t.getValue.2.file < remaining t.file := by
  have hlt := nextLine_lt t.file
  rw [getValue] at h ⊢
  rcases hnext : nextLine t.file with ⟨_ | line, file⟩ <;> rw [hnext] at hlt
  · simp [hnext] at h
  · have hlt' := hlt (by simp)
    dsimp only
    split
    · split <;> exact hlt'
    · exact hlt'

/-- The results of a number of calls of `getValue`. -/
def getValues : ℕ → RainbowTable → Option (List (List (BitVec 8)))
  | 0, _ => some []
  | n + 1, t => do
      let key ← t.getValue.1
      let keys ← getValues n t.getValue.2
      return key :: keys

/-! ### Lines and positions -/

/-- The length of a line with its newline, for keys of `k` bytes. -/
def recordLength (k : ℕ) : ℕ := 9 + 3 * k

section Lines

variable {k : ℕ} {r : Record} {records : List Record}

lemma keyText_cons (b : BitVec 8) (key : List (BitVec 8)) :
    keyText (b :: key) = [' '] ++ (Hex.format 2 b.toNat ++ keyText key) := rfl

lemma length_keyText (key : List (BitVec 8)) : (keyText key).length = 3 * key.length := by
  induction key with
  | nil => rfl
  | cons b key ih =>
    rw [keyText_cons, length_append, length_append, ih, length_singleton,
      Hex.length_format, length_cons]
    ring

lemma length_generateEntry (h : r.key.length = k) : (generateEntry r).length = recordLength k := by
  rw [generateEntry, Record.line, length_append, length_append, Hex.length_format,
    length_keyText, h, length_singleton, recordLength]
  ring

lemma length_tableFile (h : ∀ r ∈ records, r.key.length = k) :
    (tableFile records).length = records.length * recordLength k := by
  induction records with
  | nil => simp [tableFile]
  | cons r records ih =>
    rw [forall_mem_cons] at h
    rw [tableFile, flatMap_cons, length_append, length_generateEntry h.1, ← tableFile,
      ih h.2, length_cons]
    ring

/-- The records begin at the multiples of their length. -/
lemma drop_tableFile (h : ∀ r ∈ records, r.key.length = k) (i : ℕ) :
    (tableFile records).drop (i * recordLength k) = tableFile (records.drop i) := by
  induction i generalizing records with
  | zero => simp
  | succ i ih =>
    cases records with
    | nil => simp [tableFile]
    | cons r records =>
      rw [forall_mem_cons] at h
      rw [drop_succ_cons, ← ih h.2, tableFile, flatMap_cons, ← tableFile, Nat.succ_mul,
        Nat.add_comm, ← drop_drop, ← length_generateEntry h.1, drop_left]

lemma tableFile_cons (r : Record) (records : List Record) :
    tableFile (r :: records) = r.line ++ '\n' :: tableFile records := by
  rw [tableFile, flatMap_cons, generateEntry, append_assoc]
  rfl

lemma newline_notMem_format {w n : ℕ} : '\n' ∉ Hex.format w n :=
  fun h => (Hex.isDigit_of_mem_format h).ne (by decide) rfl

lemma newline_notMem_line (r : Record) : '\n' ∉ r.line := by
  intro h
  rcases mem_append.mp h with hmem | hmem
  · exact newline_notMem_format hmem
  · obtain ⟨b, -, hb⟩ := mem_flatMap.mp hmem
    rcases mem_cons.mp hb with heq | hb
    · exact absurd heq (by decide)
    · exact newline_notMem_format hb

/-- What follows a number in a line ends it. -/
lemma ends_keyText (key : List (BitVec 8)) (htail : Hex.Ends tail) :
    Hex.Ends (keyText key ++ tail) := by
  cases key with
  | nil => exact htail
  | cons b key => exact Hex.Ends.cons (by decide) _

lemma toUInt64_hash (r : Record) :
    Hex.toUInt64 false r.hash.toNat = ((r.hash.toNat : ℤ), true) := by
  rw [Hex.toUInt64, if_neg (by have := r.hash.isLt; omega)]
  rfl

/-- The hash of the line at which the stream stands. -/
lemma readHex_hash {s : IStream} (h : s.At (r.line ++ tail)) (htail : Hex.Ends tail) :
    s.readHex Hex.toUInt64 = (some (r.hash.toNat : ℤ), { s with
      pos := s.content.length - (keyText r.key ++ tail).length,
      eofbit := (keyText r.key ++ tail).isEmpty }) := by
  rw [Record.line, append_assoc] at h
  have hconv := toUInt64_hash r
  rw [readHex_format _ [] 7 (by simp) r.hash.isLt (by rw [hconv])
    (ends_keyText r.key htail) h, hconv]

lemma toInt_byte (b : BitVec 8) : Hex.toInt false b.toNat = ((b.toNat : ℤ), true) := by
  rw [Hex.toInt, if_neg (by decide), if_neg (by have := b.isLt; omega)]

/-- The bytes after the hash. -/
lemma keyBytes_keyText (key : List (BitVec 8)) {ss : IStream} (hfail : ss.failbit = false)
    (heof : ss.eofbit = key.isEmpty) (hle : ss.pos ≤ ss.content.length)
    (hrest : ss.rest = keyText key) : keyBytes ss = key := by
  induction key generalizing ss with
  | nil =>
    have hread : (ss.readHex Hex.toInt).2.failbit = true := by
      rw [readHex, if_neg (by simp [good, heof])]
    rw [keyBytes, dif_neg (by simp [hread])]
  | cons b key ih =>
    have hat : ss.At ([' '] ++ (Hex.format 2 b.toNat ++ keyText key)) :=
      ⟨heof, hfail, hrest, hle⟩
    have hends : Hex.Ends (keyText key) := by
      rw [← append_nil (keyText key)]
      exact ends_keyText key (by simp [Hex.Ends])
    have hspace : ∀ c ∈ [' '], Hex.isSpace c = true := forall_mem_singleton.2 rfl
    have hread := readHex_format Hex.toInt [' '] 1 hspace b.isLt
      (by rw [toInt_byte]) hends hat
    rw [toInt_byte] at hread
    rw [← append_assoc] at hat
    have hkey : (keyText key).isEmpty = key.isEmpty := by cases key <;> rfl
    have hbytes : keyBytes { ss with
        pos := ss.content.length - (keyText key).length, eofbit := (keyText key).isEmpty } = key :=
      ih hfail hkey (Nat.sub_le _ _) hat.drop_eq
    rw [keyBytes, hread, dif_pos hfail, hbytes]
    simp

end Lines

/-! ### The search finds the first record -/

/-- The records are sorted by their hashes. -/
def Sorted (records : List Record) : Prop := records.Pairwise fun r r' => r.hash ≤ r'.hash

instance (records : List Record) : Decidable (Sorted records) :=
  inferInstanceAs (Decidable (records.Pairwise fun r r' => r.hash ≤ r'.hash))

/-- A table as the search expects it. -/
structure WF (k : ℕ) (records : List Record) : Prop where
  length_key : ∀ r ∈ records, r.key.length = k
  sorted : Sorted records

/-- The bounds of the search are records.  In a sorted table the ones below have smaller hashes
than the value and the ones above have not. -/
structure Inv (k : ℕ) (records : List Record) (value : ℕ) (s : Search) (lo hi : ℕ) : Prop where
  content : s.file.content = tableFile records
  failbit : s.file.failbit = false
  minRecord : s.minRecord = (lo * recordLength k : ℕ)
  maxRecord : s.maxRecord = (hi * recordLength k : ℕ)
  le : lo ≤ hi
  le_length : hi ≤ records.length
  below : Sorted records → ∀ r ∈ records.take lo, r.hash.toNat < value
  above : Sorted records → ∀ r ∈ records.drop hi, value ≤ r.hash.toNat

section Search

variable {k value lo hi : ℕ} {records : List Record} {s s' : Search}

lemma recordLength_pos (k : ℕ) : 0 < recordLength k := by
  rw [recordLength]
  omega

/-- The probe is the record in the middle. -/
lemma Inv.midRecord_eq (h : Inv k records value s lo hi) :
    s.midRecord (recordLength k) = ((lo + (hi - lo) / 2) * recordLength k : ℕ) := by
  have hpos := recordLength_pos k
  have hsub : s.maxRecord - s.minRecord = ((hi - lo) * recordLength k : ℕ) := by
    rw [h.minRecord, h.maxRecord, Nat.sub_mul, Nat.cast_sub (Nat.mul_le_mul_right _ h.le)]
  have hdiv : (hi - lo) * recordLength k / 2 / recordLength k = (hi - lo) / 2 := by
    rw [Nat.div_div_eq_div_mul, Nat.mul_comm 2, ← Nat.div_div_eq_div_mul,
      Nat.mul_div_cancel _ hpos]
  rw [Search.midRecord, hsub, h.minRecord, Nat.add_mul, Nat.cast_add, ← hdiv]
  push_cast
  rfl

/-- What is read at a record. -/
lemma Inv.readHex_eq (h : Inv k records value s lo hi)
    (hkey : ∀ r ∈ records, r.key.length = k) {i : ℕ} (hi' : i < records.length) :
    ∃ file, (s.file.seekg (i * recordLength k : ℕ)).readHex Hex.toUInt64 =
        (some (records[i].hash.toNat : ℤ), file) ∧
      file.content = tableFile records ∧ file.failbit = false := by
  have hle : i * recordLength k ≤ s.file.content.length := by
    rw [h.content, length_tableFile hkey]
    exact Nat.mul_le_mul_right _ hi'.le
  have hat := seekg_at h.failbit hle
  rw [h.content, drop_tableFile hkey, drop_eq_getElem_cons hi', tableFile_cons] at hat
  have hends : Hex.Ends ('\n' :: tableFile (records.drop (i + 1))) := Hex.Ends.cons (by decide) _
  refine ⟨_, readHex_hash hat hends, ?_, ?_⟩
  · rw [← h.content]
    exact seekg_content _
  · exact hat.failbit

/-- The records around a record. -/
lemma Sorted.split (hsorted : Sorted records) {i : ℕ} (hi : i < records.length) :
    (∀ r ∈ records.take i, r.hash.toNat ≤ records[i].hash.toNat) ∧
      ∀ r ∈ records.drop (i + 1), records[i].hash.toNat ≤ r.hash.toNat := by
  rw [Sorted, ← take_append_drop i records, drop_eq_getElem_cons hi,
    pairwise_append, pairwise_cons] at hsorted
  exact ⟨fun r hr => hsorted.2.2 r hr _ mem_cons_self, hsorted.2.1.1⟩

/-- One round of the search. -/
lemma Inv.step (h : Inv k records value s lo hi) (hkey : ∀ r ∈ records, r.key.length = k)
    (hlt : lo < hi) :
    ∃ s' lo' hi', s.step (recordLength k) value = some s' ∧ Inv k records value s' lo' hi' := by
  set m := lo + (hi - lo) / 2 with hm
  have hmhi : m < hi := by omega
  have hmlen : m < records.length := hmhi.trans_le h.le_length
  have hmid := h.midRecord_eq
  obtain ⟨file, hread, hcontent, hfail⟩ := h.readHex_eq hkey hmlen
  rw [← hm] at hmid
  rw [Search.step]
  simp only [hmid, hread]
  by_cases hvalue : records[m].hash.toNat < value
  · have hbelow : Sorted records → ∀ r ∈ records.take (m + 1), r.hash.toNat < value := by
      intro hsorted r hr
      rw [take_succ_eq_append_getElem hmlen] at hr
      rcases mem_append.mp hr with hr | hr
      · exact ((hsorted.split hmlen).1 r hr).trans_lt hvalue
      · rwa [mem_singleton.mp hr]
    rw [if_pos (by exact_mod_cast hvalue)]
    split_ifs with heq
    · -- only one record is left, so the bound moves past it
      refine ⟨_, m + 1, hi, rfl, hcontent, hfail, ?_, h.maxRecord, hmhi, h.le_length, hbelow,
        h.above⟩
      rw [Nat.succ_mul, Nat.cast_add]
    · refine ⟨_, m, hi, rfl, hcontent, hfail, rfl, h.maxRecord, hmhi.le, h.le_length, ?_, h.above⟩
      intro hsorted r hr
      exact hbelow hsorted r ((take_subset_take_left _ (Nat.le_succ m)) hr)
  · rw [if_neg (by exact_mod_cast hvalue)]
    refine ⟨_, lo, m, rfl, hcontent, hfail, h.minRecord, rfl, by omega, hmlen.le, h.below, ?_⟩
    intro hsorted r hr
    rw [drop_eq_getElem_cons hmlen] at hr
    have hge : value ≤ records[m].hash.toNat := Nat.le_of_not_lt hvalue
    rcases mem_cons.mp hr with rfl | hr
    · exact hge
    · exact hge.trans ((hsorted.split hmlen).2 r hr)

lemma Inv.lt_iff (h : Inv k records value s lo hi) : s.minRecord < s.maxRecord ↔ lo < hi := by
  rw [h.minRecord, h.maxRecord, Nat.cast_lt]
  exact Nat.mul_lt_mul_right (recordLength_pos k)

/-- The search ends at the first record that is not below the value. -/
lemma Inv.run (h : Inv k records value s lo hi) (hkey : ∀ r ∈ records, r.key.length = k) :
    ∃ s' i, s.run (recordLength k) value = some s' ∧ Inv k records value s' i i := by
  induction hn : (s.maxRecord - s.minRecord).toNat using Nat.strong_induction_on
    generalizing s lo hi with
  | _ n ih =>
    by_cases hlt : lo < hi
    · obtain ⟨s', lo', hi', hstep, h'⟩ := h.step hkey hlt
      have hdec := Search.step_lt (h.lt_iff.mpr hlt) (recordLength_pos k) hstep
      obtain ⟨t, i, hrun, ht⟩ := ih _ (hn ▸ hdec) h' rfl
      refine ⟨t, i, ?_, ht⟩
      rw [Search.run, dif_pos (h.lt_iff.mpr hlt), dif_pos (recordLength_pos k)]
      split
      · next hnone => rw [hnone] at hstep; cases hstep
      · next t' hsome =>
        rw [hsome] at hstep
        rwa [Option.some.inj hstep]
    · obtain rfl : lo = hi := le_antisymm h.le (Nat.le_of_not_lt hlt)
      exact ⟨s, lo, by rw [Search.run, dif_neg (h.lt_iff.not.mpr hlt)], h⟩

/-- A state that the loop comes to. -/
def Visited (lineLength value : ℕ) : Search → Search → Prop :=
  Relation.ReflTransGen fun s s' =>
    s.minRecord < s.maxRecord ∧ s.step lineLength value = some s'

lemma Inv.visited (h : Inv k records value s lo hi) (hkey : ∀ r ∈ records, r.key.length = k)
    (hv : Visited (recordLength k) value s s') :
    ∃ lo' hi', Inv k records value s' lo' hi' := by
  induction hv with
  | refl => exact ⟨lo, hi, h⟩
  | tail _ hstep ih =>
    obtain ⟨lo', hi', h'⟩ := ih
    obtain ⟨t, lo'', hi'', ht, hinv⟩ := h'.step hkey (h'.lt_iff.mp hstep.1)
    rw [hstep.2] at ht
    exact ⟨lo'', hi'', Option.some.inj ht ▸ hinv⟩

/-- Before the loop, for a table that is not empty. -/
lemma start_inv (hkey : ∀ r ∈ records, r.key.length = k) (hne : records ≠ []) (value : ℕ) :
    ∃ s, start (tableFile records) = (recordLength k % 2 ^ 32, s) ∧
      Inv k records value s 0 records.length := by
  obtain ⟨r, rest, rfl⟩ := exists_cons_of_ne_nil hne
  have hat := ofContent_at (tableFile (r :: rest))
  rw [tableFile_cons] at hat
  obtain ⟨hline, hat'⟩ := getline_line hat (newline_notMem_line r)
  have hcontent : (ofContent (tableFile (r :: rest))).getline.2.content =
      tableFile (r :: rest) := getline_content
  rw [← tableFile_cons] at hline hat'
  have hlen : r.line.length + 1 = recordLength k := by
    rw [← length_generateEntry (hkey r mem_cons_self), generateEntry,
      length_append, length_singleton]
  rcases hget : (ofContent (tableFile (r :: rest))).getline with ⟨line, file⟩
  rw [hget] at hline hat' hcontent
  dsimp only at hline hat' hcontent
  have htell : file.seekEnd.tellg = ((file.content.length : ℤ), file.seekEnd) := by
    rw [seekEnd, if_neg (by simp [hat'.failbit]), tellg,
      if_pos (by simp [good, hat'.failbit])]
  refine ⟨⟨file.seekEnd, 0, file.content.length⟩, ?_, ?_⟩
  · rw [start, hget]
    simp only [htell, hline, Option.getD_some, hlen]
  · have hend : file.seekEnd.content = file.content := by
      rw [seekEnd]
      split <;> rfl
    refine ⟨hend.trans hcontent, ?_, by simp, ?_, Nat.zero_le _, le_rfl, by simp, by simp⟩
    · rw [seekEnd, if_neg (by simp [hat'.failbit])]
      exact hat'.failbit
    · show (file.content.length : ℤ) = _
      rw [hcontent, length_tableFile hkey]

/-- The records that are not below the value. -/
lemma Inv.drop_eq (h : Inv k records value s lo lo) (hsorted : Sorted records) :
    records.drop lo = records.dropWhile (fun r => decide (r.hash.toNat < value)) := by
  conv_rhs => rw [← take_append_drop lo records]
  rw [dropWhile_append_of_pos fun r hr => decide_eq_true (h.below hsorted r hr)]
  cases hdrop : records.drop lo with
  | nil => rfl
  | cons r rest =>
    have hr := h.above hsorted r (by rw [hdrop]; exact mem_cons_self)
    rw [dropWhile_cons_of_neg (by simpa using hr)]

/-- The table that the constructor leaves: it stands at some record, and at the first one that is
not below the value if the records are sorted. -/
lemma create_eq (hkey : ∀ r ∈ records, r.key.length = k) (hne : records ≠ [])
    (hk : recordLength k < 2 ^ 32) (value : ℕ) :
    ∃ t i, create (tableFile records) value = some t ∧ t.lineLength = recordLength k ∧
      t.value = value ∧ t.file.At (tableFile (records.drop i)) ∧
      (Sorted records →
        records.drop i = records.dropWhile fun r => decide (r.hash.toNat < value)) := by
  obtain ⟨s, hstart, hinv⟩ := start_inv hkey hne value
  obtain ⟨s', i, hrun, hinv'⟩ := hinv.run hkey
  have hpos := recordLength_pos k
  rw [Nat.mod_eq_of_lt hk] at hstart
  refine ⟨⟨s'.file.seekg s'.maxRecord, recordLength k, value⟩, i, ?_, rfl, rfl, ?_, hinv'.drop_eq⟩
  · rw [create, hstart]
    simp only [hrun, Option.map_some]
    rw [if_neg hpos.ne', if_neg]
    rw [not_not, hinv.maxRecord]
    push_cast
    exact Int.mul_emod_left _ _
  · have hle : i * recordLength k ≤ s'.file.content.length := by
      rw [hinv'.content, length_tableFile hkey]
      exact Nat.mul_le_mul_right _ hinv'.le_length
    have hat := seekg_at hinv'.failbit hle
    rw [hinv'.content, drop_tableFile hkey] at hat
    show (s'.file.seekg s'.maxRecord).At _
    rw [hinv'.maxRecord]
    exact hat

end Search

/-! ### The records with the value -/

/-- The table stands at these records, or behind all of them. -/
structure Reading (k : ℕ) (t : RainbowTable) (records : List Record) : Prop where
  lineLength : records ≠ [] → t.lineLength = recordLength k
  stream : t.file.At (tableFile records) ∨ records = [] ∧ t.file.good = false

/-- What `getValue` returns for a record. -/
def answer (value : ℕ) (r : Record) : List (BitVec 8) :=
  if r.hash.toNat = value then r.key else []

section Reading

variable {k value : ℕ} {records : List Record} {t : RainbowTable}

lemma nextLine_of_not_good (h : file.good = false) : nextLine file = (none, file) := by
  rw [nextLine, dif_neg (by simp [h])]

lemma nextLine_line {line : List Char} (h : file.At (line ++ '\n' :: tail))
    (hline : '\n' ∉ line) (hne : line ≠ []) : nextLine file = (some line, file.getline.2) := by
  have hget := (getline_line h hline).1
  have hempty : line.isEmpty = false := isEmpty_eq_false_iff.mpr hne
  rw [nextLine, dif_pos h.good, hget, Option.getD_some, if_neg (by simp [hempty]), ← hget]

lemma getValue_nil (h : Reading k t []) :
    ∃ t', t.getValue = (some [], t') ∧ t'.value = t.value ∧ Reading k t' [] := by
  have hnext : ∃ file, nextLine t.file = (none, file) ∧ file.good = false := by
    rcases h.stream with hat | ⟨-, hgood⟩
    · obtain ⟨hget, hgood⟩ := getline_end hat
      refine ⟨_, ?_, hgood⟩
      rw [nextLine, dif_pos hat.good, hget, Option.getD_some,
        if_pos isEmpty_nil, nextLine_of_not_good hgood]
    · exact ⟨_, nextLine_of_not_good hgood, hgood⟩
  obtain ⟨file, hnext, hgood⟩ := hnext
  exact ⟨{ t with file := file }, by rw [getValue, hnext], rfl, by simp, Or.inr ⟨rfl, hgood⟩⟩

lemma getValue_cons {r : Record} (h : Reading k t (r :: records)) (hr : r.key.length = k) :
    ∃ t', t.getValue = (some (answer t.value r), t') ∧
      t'.value = t.value ∧ Reading k t' records := by
  have hat : t.file.At (r.line ++ '\n' :: tableFile records) := by
    rcases h.stream with hat | ⟨hnil, -⟩
    · rwa [tableFile_cons] at hat
    · cases hnil
  have hlen : r.line.length + 1 = t.lineLength := by
    rw [h.lineLength (by simp), ← length_generateEntry hr, generateEntry, length_append,
      length_singleton]
  have hne : r.line ≠ [] := by
    rw [Record.line]
    exact append_ne_nil_of_left_ne_nil (ne_nil_of_length_pos (by rw [Hex.length_format]; decide)) _
  have hline : (ofContent r.line).At (r.line ++ []) := by
    rw [append_nil]
    exact ofContent_at r.line
  have hread := readHex_hash hline (by simp [Hex.Ends])
  have hss : (ofContent r.line).At (Hex.format 8 r.hash.toNat ++ keyText r.key) :=
    ofContent_at r.line
  have hempty : (keyText r.key).isEmpty = r.key.isEmpty := by cases r.key <;> rfl
  refine ⟨{ t with file := t.file.getline.2 }, ?_, rfl, fun _ => h.lineLength (by simp),
    Or.inl (getline_line hat (newline_notMem_line r)).2⟩
  rw [getValue, nextLine_line hat (newline_notMem_line r) hne]
  simp only [hlen, if_true, hread, append_nil, Nat.cast_inj]
  have hbytes : keyBytes { ofContent r.line with
      pos := (ofContent r.line).content.length - (keyText r.key).length,
      eofbit := (keyText r.key).isEmpty } = r.key :=
    keyBytes_keyText r.key rfl hempty (Nat.sub_le _ _) hss.drop_eq
  rw [hbytes, answer]

/-- The calls of `getValue` go through the records. -/
lemma getValues_eq (h : Reading k t records) (hkey : ∀ r ∈ records, r.key.length = k) (n : ℕ) :
    t.getValues n = some ((List.range n).map fun i =>
      ((records.map (answer t.value))[i]?).getD []) := by
  induction n generalizing t records with
  | zero => rfl
  | succ n ih =>
    rw [range_succ_eq_map, map_cons, map_map, getValues]
    cases records with
    | nil =>
      obtain ⟨t', hget, hvalue, h'⟩ := getValue_nil h
      rw [hget]
      simp [ih h' (by simp), Function.comp_def]
    | cons r records =>
      rw [forall_mem_cons] at hkey
      obtain ⟨t', hget, hvalue, h'⟩ := getValue_cons h hkey.1
      rw [hget]
      simp [ih h' hkey.2, hvalue, Function.comp_def]

/-- In a sorted table, the records with the value come first. -/
lemma getElem_answer (hsorted : Sorted records)
    (hge : ∀ r ∈ records, value ≤ r.hash.toNat) (i : ℕ) :
    ((records.map (answer value))[i]?).getD [] =
      (((records.filter fun r => r.hash.toNat = value).map Record.key)[i]?).getD [] := by
  induction records generalizing i with
  | nil => rfl
  | cons r records ih =>
    rw [Sorted, pairwise_cons] at hsorted
    rw [forall_mem_cons] at hge
    by_cases hr : r.hash.toNat = value
    · rw [filter_cons_of_pos (by simpa using hr)]
      cases i with
      | zero => simp [answer, hr]
      | succ i => simpa using ih hsorted.2 hge.2 i
    · -- no record from here on has the value
      have hne : ∀ r' ∈ r :: records, r'.hash.toNat ≠ value := by
        rw [forall_mem_cons]
        refine ⟨hr, fun r' hr' => ?_⟩
        have hle : r.hash.toNat ≤ r'.hash.toNat := hsorted.1 r' hr'
        have := hge.1
        omega
      have hfilter : (r :: records).filter (fun r => r.hash.toNat = value) = [] :=
        filter_eq_nil_iff.mpr fun r' hr' => by simpa using hne r' hr'
      have hmap : (r :: records).map (answer value) = (r :: records).map fun _ => [] :=
        map_congr_left fun r' hr' => if_neg (hne r' hr')
      rw [hfilter, hmap, List.getElem?_map]
      cases (r :: records)[i]? <;> rfl

end Reading

/-! ### Exactness -/

lemma create_nil (value : ℕ) :
    ∃ t, create (tableFile []) value = some t ∧ t.value = value ∧ t.file.good = false := by
  have hstart : start (tableFile []) = (1, ⟨⟨[], 0, false, true⟩, 0, -1⟩) := rfl
  have hrun : Search.run 1 value ⟨⟨[], 0, false, true⟩, 0, -1⟩ =
      some ⟨⟨[], 0, false, true⟩, 0, -1⟩ := by
    rw [Search.run, dif_neg (by decide)]
  refine ⟨⟨⟨[], 0, false, true⟩, 1, value⟩, ?_, rfl, rfl⟩
  rw [create, hstart]
  simp [hrun, seekg]

/-- The table that the constructor leaves, and where it stands. -/
lemma create_reading {k : ℕ} {records : List Record} (hkey : ∀ r ∈ records, r.key.length = k)
    (hk : recordLength k < 2 ^ 32) (value : ℕ) :
    ∃ t i, create (tableFile records) value = some t ∧ t.value = value ∧
      Reading k t (records.drop i) ∧ (records ≠ [] → t.file.At (tableFile (records.drop i))) ∧
      (Sorted records →
        records.drop i = records.dropWhile fun r => decide (r.hash.toNat < value)) := by
  rcases eq_or_ne records [] with rfl | hne
  · obtain ⟨t, hcreate, hvalue, hgood⟩ := create_nil value
    exact ⟨t, 0, hcreate, hvalue, ⟨by simp, Or.inr ⟨rfl, hgood⟩⟩, by simp, fun _ => rfl⟩
  · obtain ⟨t, i, hcreate, hlen, hvalue, hat, hdrop⟩ := create_eq hkey hne hk value
    exact ⟨t, i, hcreate, hvalue, ⟨fun _ => hlen, Or.inl hat⟩, fun _ => hat, hdrop⟩

section DropWhile

variable {k value : ℕ} {records : List Record}

lemma dropWhile_ge (hwf : WF k records) :
    ∀ r ∈ records.dropWhile (fun r => decide (r.hash.toNat < value)), value ≤ r.hash.toNat := by
  have hsorted := hwf.sorted.sublist (dropWhile_sublist fun r => decide (r.hash.toNat < value))
  cases hdrop : records.dropWhile (fun r => decide (r.hash.toNat < value)) with
  | nil => simp
  | cons r rest =>
    have hr : value ≤ r.hash.toNat := by
      have hhead := head_dropWhile_not (p := fun r : Record => decide (r.hash.toNat < value))
        (l := records) (by simp [hdrop])
      simpa [hdrop] using hhead
    rw [hdrop, pairwise_cons] at hsorted
    rw [forall_mem_cons]
    exact ⟨hr, fun r' hr' => hr.trans (hsorted.1 r' hr')⟩

lemma filter_dropWhile : (records.dropWhile fun r => decide (r.hash.toNat < value)).filter
        (fun r => r.hash.toNat = value) = records.filter fun r => r.hash.toNat = value := by
  conv_rhs => rw [← takeWhile_append_dropWhile
    (p := fun r => decide (r.hash.toNat < value)) (l := records), filter_append]
  have hnil : (records.takeWhile fun r => decide (r.hash.toNat < value)).filter
      (fun r => r.hash.toNat = value) = [] := by
    rw [filter_eq_nil_iff]
    intro r hr
    have := mem_takeWhile_imp hr
    simp only [decide_eq_true_eq] at this ⊢
    omega
  rw [hnil, nil_append]

end DropWhile

/-- Looking up a value in a table: the search ends, it reads the file only at records, it leaves
the stream at the first record that is not below the value, and `getValue` returns the keys of the
records with the value, in their order, and then nothing. -/
theorem lookup_exact (k : ℕ) (records : List Record) (hwf : WF k records)
    (hk : recordLength k < 2 ^ 32) (value : BitVec 64) :
    ∃ t, create (tableFile records) value.toNat = some t ∧
      (∀ s, Visited (recordLength k) value.toNat (start (tableFile records)).2 s →
        s.minRecord < s.maxRecord →
        ∃ i < records.length, s.midRecord (recordLength k) = (i * recordLength k : ℕ)) ∧
      (records ≠ [] → t.file.At
        (tableFile (records.dropWhile fun r => decide (r.hash.toNat < value.toNat)))) ∧
      ∀ n, t.getValues n = some ((List.range n).map fun i =>
        (((records.filter fun r => r.hash.toNat = value.toNat).map Record.key)[i]?).getD []) := by
  obtain ⟨t, i, hcreate, hvalue, hreading, hat, hdrop⟩ :=
    create_reading hwf.length_key hk value.toNat
  rw [hdrop hwf.sorted] at hreading hat
  have hsub : (records.dropWhile fun r => decide (r.hash.toNat < value.toNat)).Sublist records :=
    dropWhile_sublist _
  refine ⟨t, hcreate, ?_, hat, fun n => ?_⟩
  · intro s hvisited hlt
    rcases eq_or_ne records [] with rfl | hne
    · -- the loop is not entered
      have hstay : s = (start (tableFile [])).2 :=
        (Relation.ReflTransGen.cases_head hvisited).elim Eq.symm
          fun ⟨_, ⟨hfirst, _⟩, _⟩ => absurd hfirst (by decide)
      rw [hstay] at hlt
      exact absurd hlt (by decide)
    · obtain ⟨s₀, hstart, hinv⟩ := start_inv hwf.length_key hne value.toNat
      rw [hstart] at hvisited
      obtain ⟨lo, hi, hinv'⟩ := hinv.visited hwf.length_key hvisited
      have hlohi := hinv'.lt_iff.mp hlt
      have hle := hinv'.le_length
      exact ⟨lo + (hi - lo) / 2, by omega, hinv'.midRecord_eq⟩
  · rw [getValues_eq hreading (fun r hr => hwf.length_key r (hsub.subset hr)), hvalue]
    congr 1
    refine map_congr_left fun i _ => ?_
    rw [getElem_answer (hwf.sorted.sublist hsub) (dropWhile_ge hwf) i, filter_dropWhile]

/-- Two keys for one hash, between two others. -/
def fourRecords : List Record :=
  [⟨7, [1, 2]⟩, ⟨0xA0, [3, 4]⟩, ⟨0xA0, [5, 255]⟩, ⟨0xFFFF, [0, 0]⟩]

theorem lookup_exact_fourRecords : ∃ t, create (tableFile fourRecords) 0xA0 = some t ∧
      t.getValues 4 = some [[3, 4], [5, 255], [], []] := by
  obtain ⟨t, hcreate, -, -, hvalues⟩ :=
    lookup_exact 2 fourRecords ⟨by decide, by decide⟩ (by decide) 0xA0
  exact ⟨t, hcreate, hvalues 4⟩

/-- A single record whose line has `2 ^ 32 + 5` characters. -/
def longRecord : Record := ⟨0, List.replicate 1431655764 0⟩

/-- The length of such a line does not fit into an `unsigned`, and the assertion on the size of
the file fails. -/
theorem create_longRecord :
    WF 1431655764 [longRecord] ∧ create (tableFile [longRecord]) 0 = none := by
  have hwf : WF 1431655764 [longRecord] :=
    ⟨forall_mem_singleton.mpr length_replicate, pairwise_singleton _ _⟩
  obtain ⟨s, hstart, hinv⟩ := start_inv hwf.length_key (cons_ne_nil _ _) 0
  refine ⟨hwf, ?_⟩
  have hmax : s.maxRecord = 4294967301 := hinv.maxRecord
  have hlen : recordLength 1431655764 % 2 ^ 32 = 5 := rfl
  rw [create, hstart, hlen]
  simp [hmax]

end RainbowTable

end Castan
