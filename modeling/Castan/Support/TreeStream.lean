/-
# Tree streams

`TreeStreamWriter` keeps the histories of a tree of streams in one file.  Opening a stream appends
a record that names its parent, and the bytes written to the streams are appended in blocks, one
shared buffer at a time.  `readStream` finds the chain of ancestors of a stream in a first pass over
the file and collects the bytes in a second one.

The specification is `History`: a new stream starts with what its parent holds, and a write appends
to one stream.  Every run whose blocks are shorter than the buffer, and that opens fewer than
`2 ^ 31` streams, answers as the specification does (`run_history`).  A block that does not fit the
buffer takes another path in `write`, which outputs the contents of the buffer instead of the block
(`run_fullBlock`).
-/
import Castan.Lib.Stdio

namespace Castan

open List Option

variable {n id child parent streamID root os : ℕ} {rest : List ℕ} {out s : List Byte}

namespace TreeStream

def bufferSize : ℕ := 4 * 4096

/-- The bytes of an `unsigned`, as they lie in memory. -/
def word (n : ℕ) : List Byte :=
  [BitVec.ofNat 8 n, BitVec.ofNat 8 (n / 2 ^ 8), BitVec.ofNat 8 (n / 2 ^ 16),
    BitVec.ofNat 8 (n / 2 ^ 24)]

/-- `is.read` of an `unsigned`. -/
def readWord : List Byte → Option (ℕ × List Byte)
  | b₀ :: b₁ :: b₂ :: b₃ :: rest =>
      some (b₀.toNat + 2 ^ 8 * b₁.toNat + 2 ^ 16 * b₂.toNat + 2 ^ 24 * b₃.toNat, rest)
  | _ => none

/-- `memcpy` into a buffer; a store past its end has no defined result. -/
def memcpy {n : ℕ} (buffer : List.Vector Byte n) (start : ℕ) (s : List Byte) :
    Option (List.Vector Byte n) :=
  if h : start + s.length ≤ n then
    some ⟨buffer.toList.take start ++ s ++ buffer.toList.drop (start + s.length), by
      simp only [length_append, length_take, length_drop, List.Vector.toList_length]
      omega⟩
  else none

/-! ### The writer -/

/-- `TreeStreamWriter`.  The file is what was passed to `output`: it is flushed before each read. -/
structure Writer where
  buffer : List.Vector Byte bufferSize
  lastID : ℕ
  bufferCount : ℕ
  output : List Byte
  ids : ℕ

namespace Writer

/-- The constructor, which does not initialise the buffer. -/
def create (buffer : List.Vector Byte bufferSize) : Writer := ⟨buffer, 0, 0, [], 1⟩

def flushBuffer (w : Writer) : Writer :=
  if w.bufferCount = 0 then w
  else { w with
    output := w.output ++ (word w.lastID ++ word w.bufferCount ++
      w.buffer.toList.take w.bufferCount)
    bufferCount := 0 }

/-- `open` of a child of the stream `os`. -/
def openChild (w : Writer) (os : ℕ) : Writer :=
  { w.flushBuffer with
    ids := (w.flushBuffer.ids + 1) % 2 ^ 32
    output := w.flushBuffer.output ++ (word os ++ word (w.flushBuffer.ids ||| 2 ^ 31)) }

/-- `open` of a root stream. -/
def openRoot (w : Writer) : Writer := w.openChild 0

/-- The part of `write` after the first test. -/
def store (w : Writer) (os : ℕ) (s : List Byte) : Option Writer :=
  if w.bufferCount ≠ 0 then
    (memcpy w.buffer w.bufferCount s).map fun buffer =>
      { w with buffer, bufferCount := (w.bufferCount + s.length) % 2 ^ 32 }
  else if s.length < bufferSize then
    (memcpy w.buffer 0 s).map fun buffer =>
      { w with lastID := os, buffer, bufferCount := s.length }
  -- `output->write(buffer, size)`, not `s`; a longer block is read past the end of the buffer
  else if s.length ≤ bufferSize then
    some { w with
      output := w.output ++ (word os ++ word s.length ++ w.buffer.toList.take s.length) }
  else none

/-- `write`; the size of the block is an `unsigned`. -/
def write (w : Writer) (os : ℕ) (s : List Byte) : Option Writer :=
  if w.bufferCount ≠ 0 ∧ (os ≠ w.lastID ∨ bufferSize < (s.length + w.bufferCount) % 2 ^ 32) then
    w.flushBuffer.store os s
  else w.store os s

end Writer

/-! ### The reader -/

/-- `std::map::find`, in the order of the insertions. -/
def findParent (parents : List (ℕ × ℕ)) (id : ℕ) : Option ℕ :=
  (parents.find? fun q => q.1 == id).map Prod.snd

/-- The loop that follows the parents of a stream.  `roots` is kept with its back first. -/
def chase (parents : List (ℕ × ℕ)) : (fuel id : ℕ) → (roots : List ℕ) → Option (List ℕ)
  | _, 0, roots => some roots
  | 0, _ + 1, _ => none
  | fuel + 1, id + 1, roots => do
      let parent ← findParent parents (id + 1)
      chase parents fuel parent ((id + 1) :: roots)

lemma readWord_length {is rest : List Byte} (h : readWord is = some (n, rest)) :
    is.length = rest.length + 4 := by
  match is, h with
  | _ :: _ :: _ :: _ :: _, h =>
    obtain ⟨-, rfl⟩ := Prod.mk.inj (Option.some.inj h)
    rfl

/-- The two words at the front of a record. -/
def readHead (is : List Byte) : Option (ℕ × ℕ × List Byte) := do
  let (id, is) ← readWord is
  let (tag, is) ← readWord is
  some (id, tag, is)

lemma readHead_length {is rest : List Byte} {tag : ℕ}
    (h : readHead is = some (id, tag, rest)) : rest.length < is.length := by
  simp only [readHead, bind_eq_bind, bind_eq_some_iff] at h
  obtain ⟨⟨id', is₁⟩, h₁, ⟨tag', is₂⟩, h₂, h₃⟩ := h
  obtain ⟨-, h₄⟩ := Prod.mk.inj (Option.some.inj h₃)
  obtain ⟨-, rfl⟩ := Prod.mk.inj h₄
  have l₁ := readWord_length h₁
  have l₂ := readWord_length h₂
  simp only at l₁ l₂ ⊢
  omega

/-- The first pass: the chain of the stream, from its root down. -/
def findChain (streamID : ℕ) (is : List Byte) (parents : List (ℕ × ℕ)) : Option (List ℕ) :=
  match _h : readHead is with
  | none => none
  | some (id, tag, rest) =>
      if tag &&& 2 ^ 31 ≠ 0 then
        if tag ^^^ 2 ^ 31 = streamID then chase parents (parents.length + 1) id [streamID]
        else findChain streamID rest (parents ++ [(tag ^^^ 2 ^ 31, id)])
      else findChain streamID (rest.drop tag) parents
termination_by is.length
decreasing_by
  · exact readHead_length _h
  · have := readHead_length _h
    simp only [length_drop]
    omega

/-- `size` calls of `is.get()`, each of them `-1` at the end of the file. -/
def getBytes (size : ℕ) (is : List Byte) : List Byte :=
  is.take size ++ List.replicate (size - is.length) 255

/-- A fork in the second pass. -/
def passFork (id child : ℕ) : List ℕ → List ℕ
  | root :: next :: roots =>
      if id = root ∧ child = next then next :: roots else root :: next :: roots
  | roots => roots

/-- A block in the second pass. -/
def passData (id : ℕ) (block : List Byte) (roots : List ℕ) (out : List Byte) : List Byte :=
  if roots.head? = some id then out ++ block else out

/-- The second pass. -/
def collect (is : List Byte) (roots : List ℕ) (out : List Byte) : List Byte :=
  match _h : readHead is with
  | none => out
  | some (id, tag, rest) =>
      if tag &&& 2 ^ 31 ≠ 0 then collect rest (passFork id (tag ^^^ 2 ^ 31) roots) out
      else collect (rest.drop tag) roots (passData id (getBytes tag rest) roots out)
termination_by is.length
decreasing_by
  · exact readHead_length _h
  · have := readHead_length _h
    simp only [length_drop]
    omega

/-- Both passes over the file. -/
def readFile (is : List Byte) (streamID : ℕ) : Option (List Byte) := do
  let roots ← findChain streamID is []
  some (collect is roots [])

/-- `readStream`, with `none` for a failed assertion. -/
def Writer.readStream (w : Writer) (streamID : ℕ) : Option (Writer × List Byte) := do
  guard (0 < streamID ∧ streamID < w.ids)
  let out ← readFile w.flushBuffer.output streamID
  some (w.flushBuffer, out)

/-! ### Runs -/

/-- The operations on a writer. -/
inductive Op where
  | openRoot
  | openChild (os : ℕ)
  | write (os : ℕ) (s : List Byte)
  | flush
  | readStream (id : ℕ)
deriving DecidableEq

namespace Writer

/-- One operation, and what it returns if it is a `readStream`. -/
def step (w : Writer) : Op → Option (Writer × List (List Byte))
  | .openRoot => some (w.openRoot, [])
  | .openChild os => some (w.openChild os, [])
  | .write os s => (w.write os s).map fun w' => (w', [])
  | .flush => some (w.flushBuffer, [])
  | .readStream id => (w.readStream id).map fun r => (r.1, [r.2])

/-- A sequence of operations, and the results of its `readStream`s. -/
def run (w : Writer) : List Op → Option (Writer × List (List Byte))
  | [] => some (w, [])
  | op :: ops => do
      let (w, outs) ← w.step op
      let (w, outs') ← w.run ops
      some (w, outs ++ outs')

end Writer

/-- What the streams hold: the next id, and the bytes of each stream and of its ancestors before it
was opened. -/
structure History where
  next : ℕ
  content : ℕ → List Byte

namespace History

def empty : History := ⟨1, fun _ => []⟩

/-- A new stream starts with what its parent holds. -/
def openChild (h : History) (os : ℕ) : History :=
  ⟨h.next + 1, Function.update h.content h.next (h.content os)⟩

def write (h : History) (os : ℕ) (s : List Byte) : History :=
  { h with content := Function.update h.content os (h.content os ++ s) }

def step (h : History) : Op → History × List (List Byte)
  | .openRoot => (h.openChild 0, [])
  | .openChild os => (h.openChild os, [])
  | .write os s => (h.write os s, [])
  | .flush => (h, [])
  | .readStream id => (h, [h.content id])

def run (h : History) : List Op → History × List (List Byte)
  | [] => (h, [])
  | op :: ops => (((h.step op).1.run ops).1, (h.step op).2 ++ ((h.step op).1.run ops).2)

end History

namespace Op

/-- The operation is about streams that are open when `next` is the next id. -/
def Valid (next : ℕ) : Op → Prop
  | .openRoot | .flush => True
  | .openChild id | .write id _ | .readStream id => 0 < id ∧ id < next

/-- The operation writes less than a buffer. -/
def Short : Op → Prop
  | .write _ s => s.length < bufferSize
  | _ => True

/-- The number of streams the operation opens. -/
def opens : Op → ℕ
  | .openRoot | .openChild _ => 1
  | _ => 0

/-- Every operation is about streams that were opened before. -/
def AllValid : ℕ → List Op → Prop
  | _, [] => True
  | next, op :: ops => op.Valid next ∧ AllValid (next + op.opens) ops

instance (next : ℕ) : (op : Op) → Decidable (op.Valid next)
  | .openRoot | .flush => .isTrue trivial
  | .openChild _ | .write _ _ | .readStream _ => inferInstanceAs (Decidable (_ ∧ _))

instance : (op : Op) → Decidable op.Short
  | .write _ s => inferInstanceAs (Decidable (s.length < bufferSize))
  | .openRoot | .openChild _ | .flush | .readStream _ => .isTrue trivial

instance decidableAllValid : (next : ℕ) → (ops : List Op) → Decidable (AllValid next ops)
  | _, [] => .isTrue trivial
  | next, op :: ops =>
      have := decidableAllValid (next + op.opens) ops
      inferInstanceAs (Decidable (_ ∧ _))

end Op

/-! ### Records -/

/-- What the file consists of. -/
inductive Record where
  | fork (parent child : ℕ)
  | data (id : ℕ) (block : List Byte)
deriving DecidableEq

namespace Record

def encode : Record → List Byte
  | fork parent child => word parent ++ word (child ||| 2 ^ 31)
  | data id block => word id ++ word block.length ++ block

/-- The ids and the size are below the bit that marks a fork. -/
def Small : Record → Prop
  | fork parent child => parent < 2 ^ 31 ∧ child < 2 ^ 31
  | data id block => id < 2 ^ 31 ∧ block.length < 2 ^ 31

/-- The history after a record. -/
def apply (content : ℕ → List Byte) : Record → ℕ → List Byte
  | fork parent child => Function.update content child (content parent)
  | data id block => Function.update content id (content id ++ block)

/-- The second pass on a record. -/
def pass (st : List ℕ × List Byte) : Record → List ℕ × List Byte
  | fork parent child => (passFork parent child st.1, st.2)
  | data id block => (st.1, passData id block st.1 st.2)

end Record

open TreeStream.Record

/-- The bytes of the file. -/
def encodeAll (log : List Record) : List Byte := log.flatMap encode

/-- What the streams hold after the records. -/
def replay (log : List Record) : ℕ → List Byte := log.foldl Record.apply fun _ => []

/-- The map of the first pass after the records. -/
def parentsOf (log : List Record) : List (ℕ × ℕ) :=
  log.filterMap fun
    | .fork parent child => some (child, parent)
    | .data _ _ => none

@[simp] lemma encodeAll_append (log log' : List Record) :
    encodeAll (log ++ log') = encodeAll log ++ encodeAll log' := flatMap_append

@[simp] lemma encodeAll_singleton (r : Record) : encodeAll [r] = r.encode := by
  simp [encodeAll]

@[simp] lemma replay_concat (log : List Record) (r : Record) :
    replay (log ++ [r]) = r.apply (replay log) := by
  simp [replay]

lemma readWord_word (h : n < 2 ^ 32) (rest : List Byte) :
    readWord (word n ++ rest) = some (n, rest) := by
  have hn : n % 2 ^ 8 + 2 ^ 8 * (n / 2 ^ 8 % 2 ^ 8) + 2 ^ 16 * (n / 2 ^ 16 % 2 ^ 8) +
      2 ^ 24 * (n / 2 ^ 24 % 2 ^ 8) = n := by omega
  simp only [word, cons_append, nil_append, readWord, BitVec.toNat_ofNat, hn]

/-- The mark of a fork, and the id it leaves. -/
lemma mark_fork (h : child < 2 ^ 31) :
    (child ||| 2 ^ 31) < 2 ^ 32 ∧ (child ||| 2 ^ 31) &&& 2 ^ 31 ≠ 0 ∧
      (child ||| 2 ^ 31) ^^^ 2 ^ 31 = child := by
  have hbit : child.testBit 31 = false := Nat.testBit_lt_two_pow h
  refine ⟨Nat.or_lt_two_pow (by omega) (by decide), ?_, ?_⟩
  · rw [Nat.and_two_pow, Nat.testBit_or, Nat.testBit_two_pow_self]
    simp
  · apply Nat.eq_of_testBit_eq
    intro i
    rw [Nat.testBit_xor, Nat.testBit_or]
    rcases eq_or_ne 31 i with rfl | hi
    · simp [hbit]
    · simp [Nat.testBit_two_pow_of_ne hi]

lemma mark_data {size : ℕ} (h : size < 2 ^ 31) : size &&& 2 ^ 31 = 0 := by
  rw [Nat.and_two_pow, Nat.testBit_lt_two_pow h]
  rfl

lemma readHead_words {tag : ℕ} (hid : id < 2 ^ 32) (htag : tag < 2 ^ 32) (rest : List Byte) :
    readHead (word id ++ (word tag ++ rest)) = some (id, tag, rest) := by
  simp only [readHead, readWord_word hid, bind_eq_bind, bind_some, readWord_word htag]

lemma readHead_fork (h : (fork parent child).Small) (rest : List Byte) :
    readHead ((fork parent child).encode ++ rest) = some (parent, child ||| 2 ^ 31, rest) := by
  obtain ⟨hp, hc⟩ := h
  rw [encode, append_assoc, readHead_words (by omega) (mark_fork hc).1]

lemma readHead_data {block : List Byte} (h : (data id block).Small) (rest : List Byte) :
    readHead ((data id block).encode ++ rest) = some (id, block.length, block ++ rest) := by
  obtain ⟨hi, hb⟩ := h
  rw [encode, append_assoc, append_assoc, readHead_words (by omega) (by omega)]

lemma readHead_nil : readHead [] = none := rfl

/-! ### The passes over records -/

lemma findChain_fork (h : (fork parent child).Small) (streamID : ℕ)
    (rest : List Byte) (parents : List (ℕ × ℕ)) :
    findChain streamID ((fork parent child).encode ++ rest) parents =
      if child = streamID then chase parents (parents.length + 1) parent [streamID]
      else findChain streamID rest (parents ++ [(child, parent)]) := by
  obtain ⟨-, hmark, hchild⟩ := mark_fork h.2
  rw [findChain]
  split
  · next heq => cases (readHead_fork h rest).symm.trans heq
  · next id tag rest' heq =>
    cases (readHead_fork h rest).symm.trans heq
    rw [if_pos hmark, hchild]

lemma findChain_data {block : List Byte} (h : (data id block).Small) (streamID : ℕ)
    (rest : List Byte) (parents : List (ℕ × ℕ)) :
    findChain streamID ((data id block).encode ++ rest) parents =
      findChain streamID rest parents := by
  rw [findChain]
  split
  · next heq => cases (readHead_data h rest).symm.trans heq
  · next id tag rest' heq =>
    cases (readHead_data h rest).symm.trans heq
    rw [if_neg (not_not.2 (mark_data h.2)), drop_left]

/-- The first pass only collects the parents until it meets the stream. -/
lemma findChain_log {log : List Record} (hsmall : ∀ r ∈ log, r.Small)
    (hfresh : ∀ parent, fork parent streamID ∉ log) (rest : List Byte) (parents : List (ℕ × ℕ)) :
    findChain streamID (encodeAll log ++ rest) parents =
      findChain streamID rest (parents ++ parentsOf log) := by
  induction log generalizing parents with
  | nil => simp [encodeAll, parentsOf]
  | cons r log ih =>
    have ih := ih (fun r' hr' => hsmall r' (by simp [hr']))
      (fun parent hmem => hfresh parent (by simp [hmem]))
    have hr := hsmall r (by simp)
    have hcons : encodeAll (r :: log) = r.encode ++ encodeAll log := flatMap_cons
    rw [hcons, append_assoc]
    cases r with
    | fork parent child =>
      have hne : child ≠ streamID := by
        rintro rfl
        exact hfresh parent (by simp)
      rw [findChain_fork hr, if_neg hne, ih, append_assoc]
      rfl
    | data id block =>
      rw [findChain_data hr, ih]
      rfl

lemma collect_record {r : Record} (h : r.Small) (rest : List Byte) (roots : List ℕ)
    (out : List Byte) :
    collect (r.encode ++ rest) roots out =
      collect rest (r.pass (roots, out)).1 (r.pass (roots, out)).2 := by
  rw [collect]
  cases r with
  | fork parent child =>
    obtain ⟨-, hmark, hchild⟩ := mark_fork h.2
    split
    · next heq => cases (readHead_fork h rest).symm.trans heq
    · next id tag rest' heq =>
      cases (readHead_fork h rest).symm.trans heq
      rw [if_pos hmark, hchild]
      rfl
  | data id block =>
    split
    · next heq => cases (readHead_data h rest).symm.trans heq
    · next id' tag rest' heq =>
      cases (readHead_data h rest).symm.trans heq
      -- the block is complete, so no `get` meets the end of the file
      have hbytes : getBytes block.length (block ++ rest) = block := by
        simp [getBytes]
      rw [if_neg (not_not.2 (mark_data h.2)), drop_left, hbytes]
      rfl

lemma collect_log {log : List Record} (hsmall : ∀ r ∈ log, r.Small) (roots : List ℕ)
    (out : List Byte) :
    collect (encodeAll log) roots out = (log.foldl Record.pass (roots, out)).2 := by
  induction log generalizing roots out with
  | nil =>
    rw [collect]
    split
    · rfl
    · next heq => cases readHead_nil.symm.trans heq
  | cons r log ih =>
    have hcons : encodeAll (r :: log) = r.encode ++ encodeAll log := flatMap_cons
    rw [hcons, collect_record (hsmall r (by simp)), ih fun r' hr' => hsmall r' (by simp [hr'])]
    rfl

/-! ### Logs -/

/-- A list of records as the writer makes it, with the next id: the streams are opened in the order
of their ids, and every record is about streams that are open. -/
inductive Log : ℕ → List Record → Prop
  | nil : Log 1 []
  | fork {n : ℕ} {log : List Record} {parent : ℕ} : Log n log → parent < n → n < 2 ^ 31 →
      Log (n + 1) (log ++ [.fork parent n])
  | data {n : ℕ} {log : List Record} {id : ℕ} {block : List Byte} : Log n log → 0 < id → id < n →
      block.length < 2 ^ 31 → Log n (log ++ [.data id block])

namespace Log

variable {n : ℕ} {log : List Record}

lemma next_pos (h : Log n log) : 0 < n := by
  induction h with
  | nil => exact Nat.one_pos
  | fork _ _ _ _ => exact Nat.succ_pos _
  | data _ _ _ _ ih => exact ih

lemma next_le (h : Log n log) : n ≤ 2 ^ 31 := by
  induction h with
  | nil => decide
  | fork _ _ hn _ => exact hn
  | data _ _ _ _ ih => exact ih

lemma fork_lt (h : Log n log) (hmem : Record.fork parent child ∈ log) :
    parent < child ∧ child < n := by
  induction h with
  | nil => cases hmem
  | fork _ hp _ ih =>
    rcases mem_append.1 hmem with hmem | hmem
    · obtain ⟨h₁, h₂⟩ := ih hmem
      exact ⟨h₁, by omega⟩
    · cases mem_singleton.1 hmem
      exact ⟨hp, Nat.lt_succ_self _⟩
  | data _ _ _ _ ih =>
    rcases mem_append.1 hmem with hmem | hmem
    · exact ih hmem
    · cases mem_singleton.1 hmem

lemma small (h : Log n log) {r : Record} (hr : r ∈ log) : r.Small := by
  induction h with
  | nil => cases hr
  | fork _ hp hn ih =>
    rcases mem_append.1 hr with hr | hr
    · exact ih hr
    · cases mem_singleton.1 hr
      exact ⟨by omega, hn⟩
  | data hlog hpos hid hlen ih =>
    rcases mem_append.1 hr with hr | hr
    · exact ih hr
    · cases mem_singleton.1 hr
      exact ⟨hid.trans_le hlog.next_le, hlen⟩

/-- Each stream was opened once. -/
lemma fork_unique (h : Log n log) {p q : ℕ} (hp : Record.fork p child ∈ log)
    (hq : Record.fork q child ∈ log) : p = q := by
  induction h with
  | nil => cases hp
  | fork hlog _ _ ih =>
    rcases mem_append.1 hp with hp' | hp' <;> rcases mem_append.1 hq with hq' | hq'
    · exact ih hp' hq'
    · cases mem_singleton.1 hq'
      exact absurd (hlog.fork_lt hp').2 (lt_irrefl _)
    · cases mem_singleton.1 hp'
      exact absurd (hlog.fork_lt hq').2 (lt_irrefl _)
    · cases mem_singleton.1 hp'
      cases mem_singleton.1 hq'
      rfl
  | data _ _ _ _ ih =>
    rcases mem_append.1 hp with hp | hp
    · rcases mem_append.1 hq with hq | hq
      · exact ih hp hq
      · cases mem_singleton.1 hq
    · cases mem_singleton.1 hp

/-- The log up to the record that opens a stream. -/
lemma split (h : Log n log) (hpos : 0 < id) (hid : id < n) :
    ∃ pre parent post, log = pre ++ Record.fork parent id :: post ∧ Log id pre := by
  induction h with
  | nil => omega
  | @fork n log parent hlog _ _ ih =>
    rcases Nat.lt_succ_iff_lt_or_eq.1 hid with hlt | rfl
    · obtain ⟨pre, p, post, rfl, hpre⟩ := ih hlt
      exact ⟨pre, p, post ++ [.fork parent n], by simp, hpre⟩
    · exact ⟨log, parent, [], rfl, hlog⟩
  | @data n log i block _ _ _ _ ih =>
    obtain ⟨pre, p, post, rfl, hpre⟩ := ih hid
    exact ⟨pre, p, post ++ [.data i block], by simp, hpre⟩

/-- A stream that is not open holds nothing. -/
lemma replay_closed (h : Log n log) (hid : id = 0 ∨ n ≤ id) : replay log id = [] := by
  induction h with
  | nil => rfl
  | @fork n log parent hlog _ _ ih =>
    have hpos := hlog.next_pos
    rw [replay_concat, apply, Function.update_of_ne (by omega)]
    exact ih (by omega)
  | data _ _ _ _ ih =>
    rw [replay_concat, apply, Function.update_of_ne (by omega)]
    exact ih hid

lemma mem_parentsOf : (child, parent) ∈ parentsOf log ↔ Record.fork parent child ∈ log := by
  simp only [parentsOf, mem_filterMap]
  constructor
  · rintro ⟨_ | _, hmem, heq⟩
    · cases heq
      exact hmem
    · cases heq
  · intro hmem
    exact ⟨_, hmem, rfl⟩

/-- The map of the first pass finds the parent of each open stream. -/
lemma findParent_eq (h : Log n log) (hpos : 0 < id) (hid : id < n) :
    ∃ parent, findParent (parentsOf log) id = some parent ∧ Record.fork parent id ∈ log := by
  obtain ⟨pre, p, post, heq, -⟩ := h.split hpos hid
  have hmem : Record.fork p id ∈ log := by simp [heq]
  rw [findParent]
  cases hfind : (parentsOf log).find? fun q => q.1 == id with
  | none =>
    have := List.find?_eq_none.1 hfind _ (mem_parentsOf.2 hmem)
    simp at this
  | some q =>
    have hq : q.1 = id := by simpa using List.find?_some hfind
    refine ⟨q.2, rfl, mem_parentsOf.1 ?_⟩
    rw [← hq]
    exact mem_of_find?_eq_some hfind

lemma length_parentsOf (h : Log n log) : (parentsOf log).length + 1 = n := by
  induction h with
  | nil => rfl
  | fork _ _ _ ih => simpa [parentsOf] using ih
  | data _ _ _ _ ih => simpa [parentsOf] using ih

/-! ### The two passes read the history -/

/-- `parent` was opened before `child`, as its parent. -/
def Parent (log : List Record) (parent child : ℕ) : Prop := Record.fork parent child ∈ log

variable {m : ℕ} {whole : List Record}

lemma chase_eq (h : Log n log) (hsub : ∀ r ∈ log, r ∈ whole) {fuel : ℕ} (hid : id < n)
    (hfuel : id ≤ fuel) {roots : List ℕ} (hlast : roots.getLast? = some streamID)
    (hchain : (id :: roots).IsChain (Parent whole)) :
    ∃ chain, chase (parentsOf log) fuel id roots = some chain ∧
      (0 :: chain).IsChain (Parent whole) ∧ chain.getLast? = some streamID := by
  induction fuel generalizing id roots with
  | zero =>
    obtain rfl : id = 0 := by omega
    exact ⟨roots, by simp [chase], hchain, hlast⟩
  | succ fuel ih =>
    cases id with
    | zero => exact ⟨roots, by simp [chase], hchain, hlast⟩
    | succ id =>
      obtain ⟨parent, hfind, hmem⟩ := h.findParent_eq (Nat.succ_pos id) hid
      have hlt := h.fork_lt hmem
      rw [chase, hfind]
      refine ih (by omega) (by omega) ?_ (isChain_cons_cons.2 ⟨hsub _ hmem, hchain⟩)
      rw [List.getLast?_cons, hlast]
      rfl

/-- The second pass after the records of `log`: the streams of the chain that are not open yet wait
behind the current one, `root`, whose bytes were collected. -/
structure Passed (whole log : List Record) (n streamID root : ℕ) (rest : List ℕ)
    (out : List Byte) : Prop where
  out_eq : out = replay log root
  chain : (root :: rest).IsChain (Parent whole)
  waiting : ∀ id ∈ rest, n ≤ id
  opened : root < n ∨ Parent whole 0 root
  last : (root :: rest).getLast? = some streamID

lemma pairwise_lt (hwhole : Log m whole) {ids : List ℕ} (h : ids.IsChain (Parent whole)) :
    ids.Pairwise (· < ·) :=
  isChain_iff_pairwise.1 (h.imp fun _ _ hmem => (hwhole.fork_lt hmem).1)

lemma Passed.data (h : Passed whole log n streamID root rest out) (id : ℕ) (block : List Byte) :
    Passed whole (log ++ [.data id block]) n streamID root rest
      (passData id block (root :: rest) out) := by
  refine { h with out_eq := ?_ }
  rw [passData, List.head?_cons, replay_concat, apply, h.out_eq]
  rcases eq_or_ne root id with rfl | hne
  · rw [if_pos rfl, Function.update_self]
  · rw [if_neg (by simpa using hne), Function.update_of_ne hne]

/-- A fork that the chain does not wait for. -/
lemma Passed.skip (hlog : Log n log)
    (h : Passed whole log n streamID root rest out) (hrest : n ∉ rest)
    (hroot : root = n → parent = 0) :
    Passed whole (log ++ [.fork parent n]) (n + 1) streamID root rest out := by
  refine ⟨?_, h.chain, ?_, h.opened.imp (·.trans (Nat.lt_succ_self n)) id, h.last⟩
  · rw [h.out_eq, replay_concat, apply]
    rcases eq_or_ne root n with rfl | hne
    · -- the root of the chain is opened here
      rw [Function.update_self, hroot rfl, hlog.replay_closed (Or.inl rfl),
        hlog.replay_closed (Or.inr le_rfl)]
    · rw [Function.update_of_ne hne]
  · intro id hid
    have hle := h.waiting id hid
    have hne : id ≠ n := fun heq => hrest (heq ▸ hid)
    omega

lemma Passed.fork (hwhole : Log m whole) (hlog : Log n log)
    (h : Passed whole log n streamID root rest out)
    (hmem : Record.fork parent n ∈ whole) :
    ∃ root' rest', passFork parent n (root :: rest) = root' :: rest' ∧
      Passed whole (log ++ [.fork parent n]) (n + 1) streamID root' rest' out := by
  have hlt := hwhole.pairwise_lt h.chain
  have hroot : root = n → parent = 0 := by
    rintro rfl
    rcases h.opened with hopen | hopen
    · exact absurd hopen (lt_irrefl _)
    · exact hwhole.fork_unique hmem hopen
  cases rest with
  | nil => exact ⟨root, [], rfl, h.skip hlog (by simp) hroot⟩
  | cons next rest =>
    by_cases hpop : parent = root ∧ n = next
    · obtain ⟨rfl, rfl⟩ := hpop
      refine ⟨n, rest, by simp [passFork], ?_, (isChain_cons_cons.1 h.chain).2, ?_,
        Or.inl (Nat.lt_succ_self n), by simpa using h.last⟩
      · rw [h.out_eq, replay_concat, apply, Function.update_self]
      · intro id hid
        exact rel_of_pairwise_cons (List.Pairwise.of_cons hlt) hid
    · refine ⟨root, next :: rest, by simp [passFork, hpop], h.skip hlog ?_ hroot⟩
      -- the waiting streams are not open, and open in the order of their ids
      intro hn
      rcases mem_cons.1 hn with rfl | hn
      · have hparent := (isChain_cons_cons.1 h.chain).1
        exact hpop ⟨hwhole.fork_unique hmem hparent, rfl⟩
      · have hlt' := rel_of_pairwise_cons (List.Pairwise.of_cons hlt) hn
        have hle := h.waiting next (by simp)
        omega

lemma passed (hwhole : Log m whole) (h : Log n log) (hsub : ∀ r ∈ log, r ∈ whole)
    {chain : List ℕ} (hchain : (0 :: chain).IsChain (Parent whole))
    (hlast : chain.getLast? = some streamID) :
    ∃ root rest out, log.foldl Record.pass (chain, []) = (root :: rest, out) ∧
      Passed whole log n streamID root rest out := by
  induction h with
  | nil =>
    cases chain with
    | nil => cases hlast
    | cons root rest =>
      obtain ⟨hroot, htail⟩ := isChain_cons_cons.1 hchain
      refine ⟨root, rest, [], rfl, rfl, htail, ?_, Or.inr hroot, hlast⟩
      intro id hid
      exact rel_of_pairwise_cons (hwhole.pairwise_lt hchain) (by simp [hid])
  | @fork n log parent hlog _ _ ih =>
    obtain ⟨root, rest, out, hfold, hpassed⟩ := ih fun r hr => hsub r (by simp [hr])
    obtain ⟨root', rest', hpass, hpassed'⟩ :=
      hpassed.fork hwhole hlog (hsub (.fork parent n) (by simp))
    refine ⟨root', rest', out, ?_, hpassed'⟩
    rw [foldl_append, hfold, foldl_cons, foldl_nil, Record.pass, hpass]
  | @data n log id block _ _ _ _ ih =>
    obtain ⟨root, rest, out, hfold, hpassed⟩ := ih fun r hr => hsub r (by simp [hr])
    refine ⟨root, rest, _, ?_, hpassed.data id block⟩
    rw [foldl_append, hfold, foldl_cons, foldl_nil, Record.pass]

/-- The first pass finds the chain of a stream. -/
lemma findChain_eq (h : Log n log) (hpos : 0 < id) (hid : id < n) :
    ∃ chain, findChain id (encodeAll log) [] = some chain ∧
      (0 :: chain).IsChain (Parent log) ∧ chain.getLast? = some id := by
  obtain ⟨pre, parent, post, rfl, hpre⟩ := h.split hpos hid
  have hmem : Record.fork parent id ∈ pre ++ Record.fork parent id :: post := by simp
  have hlt := h.fork_lt hmem
  have hfresh : ∀ p, Record.fork p id ∉ pre := fun p hp => lt_irrefl id (hpre.fork_lt hp).2
  have hcons : encodeAll (pre ++ Record.fork parent id :: post) =
      encodeAll pre ++ ((Record.fork parent id).encode ++ encodeAll post) := by
    simp [encodeAll]
  rw [hcons, findChain_log (fun r hr => hpre.small hr) hfresh, findChain_fork (h.small hmem),
    if_pos rfl, nil_append]
  have hlen := hpre.length_parentsOf
  exact chase_eq hpre (fun r hr => mem_append_left _ hr) (by omega) (by omega) rfl
    (isChain_cons_cons.2 ⟨hmem, isChain_singleton _⟩)

/-- Reading the file of a log gives what the stream holds. -/
lemma readFile_eq (h : Log n log) (hpos : 0 < id) (hid : id < n) :
    readFile (encodeAll log) id = some (replay log id) := by
  obtain ⟨chain, hfind, hchain, hlast⟩ := h.findChain_eq hpos hid
  obtain ⟨root, rest, out, hfold, hpassed⟩ := h.passed h (fun _ hr => hr) hchain hlast
  have hroot : root = id ∧ rest = [] := by
    cases rest with
    | nil => exact ⟨by simpa using hpassed.last, rfl⟩
    | cons next rest =>
      -- the stream itself is open, so it does not wait
      have hwaits : id ∈ next :: rest := by
        refine mem_of_getLast? ?_
        simpa using hpassed.last
      exact absurd (hpassed.waiting id hwaits) (by omega)
  rw [readFile, hfind, bind_eq_bind, bind_some, collect_log fun r hr => h.small hr,
    hfold, hpassed.out_eq, hroot.1]

end Log

/-! ### The invariant of the writer -/

namespace Writer

/-- The bytes in the buffer. -/
def pending (w : Writer) : List Byte := w.buffer.toList.take w.bufferCount

/-- The file is a log, and the history is that of the log followed by the buffer. -/
structure Keeps (w : Writer) (h : History) (log : List Record) : Prop where
  isLog : Log h.next log
  output : w.output = encodeAll log
  ids : w.ids = h.next
  count : w.bufferCount ≤ bufferSize
  last : w.bufferCount ≠ 0 → 0 < w.lastID ∧ w.lastID < h.next
  content : h.content = (Record.data w.lastID w.pending).apply (replay log)

lemma apply_data_append (content : ℕ → List Byte) (id : ℕ) (block s : List Byte) :
    (Record.data id (block ++ s)).apply content =
      (Record.data id s).apply ((Record.data id block).apply content) := by
  simp [Record.apply]

lemma apply_data_nil (content : ℕ → List Byte) (id : ℕ) :
    (Record.data id []).apply content = content := by
  simp [Record.apply]

lemma Keeps.of_flushed {w : Writer} {h : History} {log : List Record} (hlog : Log h.next log)
    (hout : w.output = encodeAll log) (hids : w.ids = h.next) (hcount : w.bufferCount = 0)
    (hcontent : h.content = replay log) : w.Keeps h log where
  isLog := hlog
  output := hout
  ids := hids
  count := by omega
  last := fun hne => absurd hcount hne
  content := by rw [pending, hcount, take_zero, apply_data_nil, hcontent]

lemma Keeps.content_of_flushed {w : Writer} {h : History} {log : List Record}
    (hk : w.Keeps h log) (hcount : w.bufferCount = 0) : h.content = replay log := by
  rw [hk.content, pending, hcount, take_zero, apply_data_nil]

lemma flushBuffer_count (w : Writer) : w.flushBuffer.bufferCount = 0 := by
  unfold flushBuffer
  split
  · assumption
  · rfl

lemma length_pending {w : Writer} (hcount : w.bufferCount ≤ bufferSize) :
    w.pending.length = w.bufferCount := by
  simpa [pending] using hcount

lemma Keeps.flushBuffer {w : Writer} {h : History} {log : List Record} (hk : w.Keeps h log) :
    ∃ log', w.flushBuffer.Keeps h log' := by
  by_cases hcount : w.bufferCount = 0
  · refine ⟨log, ?_⟩
    rwa [Writer.flushBuffer, if_pos hcount]
  · obtain ⟨hpos, hlt⟩ := hk.last hcount
    have hsize := hk.count
    have hlen := length_pending hk.count
    have hflush : w.flushBuffer = { w with
        output := w.output ++ (word w.lastID ++ word w.bufferCount ++ w.pending)
        bufferCount := 0 } := if_neg hcount
    refine ⟨log ++ [.data w.lastID w.pending], .of_flushed ?_ ?_ ?_ w.flushBuffer_count ?_⟩
    · exact hk.isLog.data hpos hlt (by rw [hlen]; exact hsize.trans_lt (by decide))
    · rw [hflush, encodeAll_append, encodeAll_singleton, Record.encode, hlen, hk.output]
    · rw [hflush]
      exact hk.ids
    · rw [replay_concat, hk.content]

lemma Keeps.openChild {w : Writer} {h : History} {log : List Record} (hk : w.Keeps h log)
    (hos : os < h.next) (hnext : h.next < 2 ^ 31) :
    ∃ log', (w.openChild os).Keeps (h.openChild os) log' := by
  obtain ⟨log', hk'⟩ := hk.flushBuffer
  have hlog : Log (h.openChild os).next (log' ++ [.fork os h.next]) := hk'.isLog.fork hos hnext
  refine ⟨_, .of_flushed hlog ?_ ?_ w.flushBuffer_count ?_⟩
  · rw [encodeAll_append, encodeAll_singleton, Record.encode, Writer.openChild, hk'.output, hk'.ids]
  · show (w.flushBuffer.ids + 1) % 2 ^ 32 = h.next + 1
    rw [hk'.ids]
    exact Nat.mod_eq_of_lt (by omega)
  · rw [replay_concat, ← hk'.content_of_flushed w.flushBuffer_count]
    rfl

lemma memcpy_eq (buffer : List.Vector Byte n) {start : ℕ} (h : start + s.length ≤ n) :
    ∃ buffer' : List.Vector Byte n, memcpy buffer start s = some buffer' ∧
      buffer'.toList.take (start + s.length) = buffer.toList.take start ++ s := by
  refine ⟨_, dif_pos h, ?_⟩
  have hlen : (buffer.toList.take start ++ s).length = start + s.length := by
    simp only [length_append, length_take, List.Vector.toList_length]
    omega
  show List.take _ (buffer.toList.take start ++ s ++ buffer.toList.drop _) = _
  rw [take_append_of_le_length hlen.ge, take_of_length_le hlen.le]

lemma Keeps.store_empty {w : Writer} {h : History} {log : List Record} (hk : w.Keeps h log)
    (hcount : w.bufferCount = 0) (hos : 0 < os ∧ os < h.next)
    (hs : s.length < bufferSize) :
    ∃ w', w.store os s = some w' ∧ w'.Keeps (h.write os s) log := by
  have hfits : 0 + s.length ≤ bufferSize := by omega
  obtain ⟨buffer, hcopy, htake⟩ := memcpy_eq w.buffer hfits
  refine ⟨{ w with lastID := os, buffer, bufferCount := s.length }, ?_, ?_⟩
  · rw [store, if_neg (not_not.2 hcount), if_pos hs, hcopy]
    rfl
  · refine ⟨hk.isLog, hk.output, hk.ids, hs.le, fun _ => hos, ?_⟩
    have hpending : buffer.toList.take s.length = s := by simpa using htake
    rw [pending, hpending, History.write, hk.content_of_flushed hcount]
    rfl

lemma Keeps.store_more {w : Writer} {h : History} {log : List Record} (hk : w.Keeps h log)
    (hcount : w.bufferCount ≠ 0) (hs : w.bufferCount + s.length ≤ bufferSize) :
    ∃ w', w.store w.lastID s = some w' ∧ w'.Keeps (h.write w.lastID s) log := by
  obtain ⟨buffer, hcopy, htake⟩ := memcpy_eq w.buffer hs
  have hmod : (w.bufferCount + s.length) % 2 ^ 32 = w.bufferCount + s.length :=
    Nat.mod_eq_of_lt (hs.trans_lt (by decide))
  refine ⟨{ w with buffer, bufferCount := w.bufferCount + s.length }, ?_, ?_⟩
  · rw [store, if_pos hcount, hcopy, hmod]
    rfl
  · refine ⟨hk.isLog, hk.output, hk.ids, hs, fun _ => hk.last hcount, ?_⟩
    rw [pending, htake, ← pending, apply_data_append, ← hk.content]
    rfl

lemma Keeps.write {w : Writer} {h : History} {log : List Record} (hk : w.Keeps h log)
    (hos : 0 < os ∧ os < h.next) (hs : s.length < bufferSize) :
    ∃ w' log', w.write os s = some w' ∧ w'.Keeps (h.write os s) log' := by
  have hsize := hk.count
  have hmod : (s.length + w.bufferCount) % 2 ^ 32 = s.length + w.bufferCount :=
    Nat.mod_eq_of_lt (by have : bufferSize = 16384 := rfl; omega)
  rw [Writer.write, hmod]
  split
  · obtain ⟨log', hk'⟩ := hk.flushBuffer
    obtain ⟨w', hstore, hw'⟩ := hk'.store_empty w.flushBuffer_count hos hs
    exact ⟨w', log', hstore, hw'⟩
  · next hcond =>
    by_cases hcount : w.bufferCount = 0
    · obtain ⟨w', hstore, hw'⟩ := hk.store_empty hcount hos hs
      exact ⟨w', log, hstore, hw'⟩
    · have hfits : os = w.lastID ∧ w.bufferCount + s.length ≤ bufferSize := by
        constructor
        · by_contra hne
          exact hcond ⟨hcount, Or.inl hne⟩
        · by_contra hlt
          exact hcond ⟨hcount, Or.inr (by omega)⟩
      obtain ⟨rfl, hle⟩ := hfits
      obtain ⟨w', hstore, hw'⟩ := hk.store_more hcount hle
      exact ⟨w', log, hstore, hw'⟩

lemma Keeps.readStream {w : Writer} {h : History} {log : List Record} (hk : w.Keeps h log)
    (hid : 0 < id ∧ id < h.next) :
    ∃ log', w.readStream id = some (w.flushBuffer, h.content id) ∧ w.flushBuffer.Keeps h log' := by
  obtain ⟨log', hk'⟩ := hk.flushBuffer
  refine ⟨log', ?_, hk'⟩
  have hread := hk'.isLog.readFile_eq hid.1 hid.2
  rw [← hk'.output, ← hk'.content_of_flushed w.flushBuffer_count] at hread
  have hguard : 0 < id ∧ id < w.ids := by rwa [hk.ids]
  simp [Writer.readStream, hguard, hread]

/-- One operation answers as the specification does, and keeps the invariant. -/
lemma Keeps.step {w : Writer} {h : History} {log : List Record} (hk : w.Keeps h log) {op : Op}
    (hvalid : op.Valid h.next) (hshort : op.Short) (hnext : h.next + op.opens ≤ 2 ^ 31) :
    ∃ w' log', w.step op = some (w', (h.step op).2) ∧ w'.Keeps (h.step op).1 log' := by
  cases op with
  | openRoot =>
    obtain ⟨log', hk'⟩ := hk.openChild hk.isLog.next_pos hnext
    exact ⟨_, log', rfl, hk'⟩
  | openChild os =>
    obtain ⟨log', hk'⟩ := hk.openChild hvalid.2 hnext
    exact ⟨_, log', rfl, hk'⟩
  | write os s =>
    obtain ⟨w', log', hwrite, hk'⟩ := hk.write hvalid hshort
    exact ⟨w', log', by rw [Writer.step, hwrite]; rfl, hk'⟩
  | flush =>
    obtain ⟨log', hk'⟩ := hk.flushBuffer
    exact ⟨_, log', rfl, hk'⟩
  | readStream id =>
    obtain ⟨log', hread, hk'⟩ := hk.readStream hvalid
    exact ⟨_, log', by rw [Writer.step, hread]; rfl, hk'⟩

lemma next_step (h : History) (op : Op) : (h.step op).1.next = h.next + op.opens := by
  cases op <;> rfl

lemma Keeps.run {w : Writer} {h : History} {log : List Record} (hk : w.Keeps h log)
    {ops : List Op} (hvalid : Op.AllValid h.next ops) (hshort : ∀ op ∈ ops, op.Short)
    (hnext : h.next + (ops.map Op.opens).sum ≤ 2 ^ 31) :
    ∃ w', w.run ops = some (w', (h.run ops).2) := by
  induction ops generalizing w h log with
  | nil => exact ⟨w, rfl⟩
  | cons op ops ih =>
    rw [map_cons, sum_cons] at hnext
    obtain ⟨w₁, log₁, hstep, hk₁⟩ := hk.step hvalid.1 (hshort op (by simp)) (by omega)
    have hvalid₁ : Op.AllValid (h.step op).1.next ops := by
      rw [next_step]
      exact hvalid.2
    have hnext₁ : (h.step op).1.next + (ops.map Op.opens).sum ≤ 2 ^ 31 := by
      rw [next_step]
      omega
    obtain ⟨w₂, hrun⟩ := ih hk₁ hvalid₁ (fun op' hop' => hshort op' (by simp [hop'])) hnext₁
    refine ⟨w₂, ?_⟩
    rw [Writer.run, hstep, bind_eq_bind, bind_some]
    simp only [hrun, bind_some]
    rfl

lemma create_keeps (buffer : List.Vector Byte bufferSize) :
    (create buffer).Keeps History.empty [] :=
  .of_flushed Log.nil rfl rfl rfl rfl

/-- Every `readStream` returns the history of its stream, in every run that writes no block as long
as the buffer and opens fewer than `2 ^ 31` streams. -/
theorem run_history (buffer : List.Vector Byte bufferSize) (ops : List Op)
    (hvalid : Op.AllValid 1 ops) (hshort : ∀ op ∈ ops, op.Short)
    (hopens : (ops.map Op.opens).sum < 2 ^ 31) :
    ∃ w, (create buffer).run ops = some (w, (History.empty.run ops).2) :=
  (create_keeps buffer).run hvalid hshort (by
    show 1 + (ops.map Op.opens).sum ≤ 2 ^ 31
    omega)

/-- Two streams, the second one opened between two writes to the first. -/
def forkedOps : List Op :=
  [.openRoot, .write 1 [1, 2], .openChild 1, .write 1 [3], .write 2 [4], .readStream 2,
    .write 1 [5], .flush, .readStream 1]

theorem run_history_forkedOps : ∃ w, (create (List.Vector.replicate _ 0)).run forkedOps =
      some (w, [[1, 2, 4], [1, 2, 3, 5]]) :=
  run_history (List.Vector.replicate _ 0) forkedOps (by decide) (by decide) (by decide)

/-- Instead of a block as long as the buffer, the contents of the buffer are written. -/
lemma Keeps.write_full {w : Writer} {h : History} {log : List Record} (hk : w.Keeps h log)
    (hcount : w.bufferCount = 0) (hos : 0 < os ∧ os < h.next)
    (hs : s.length = bufferSize) :
    ∃ w' log', w.write os s = some w' ∧ w'.Keeps (h.write os w.buffer.toList) log' := by
  have htake : w.buffer.toList.take s.length = w.buffer.toList :=
    take_of_length_le (by simp [hs])
  have hlog : Log (h.write os w.buffer.toList).next (log ++ [.data os w.buffer.toList]) :=
    hk.isLog.data hos.1 hos.2 (by rw [List.Vector.toList_length]; decide)
  refine ⟨{ w with output := w.output ++ (Record.data os w.buffer.toList).encode }, _, ?_,
    .of_flushed hlog ?_ hk.ids hcount ?_⟩
  · rw [Writer.write, if_neg (by simp [hcount]), store, if_neg (not_not.2 hcount),
      if_neg (by omega), if_pos hs.le, htake, Record.encode, List.Vector.toList_length, hs]
  · rw [encodeAll_append, encodeAll_singleton, hk.output]
  · rw [replay_concat, ← hk.content_of_flushed hcount]
    rfl

/-- A block as long as the buffer. -/
def fullBlock : List Byte := List.replicate bufferSize 1

/-- `readStream` returns the contents of the buffer instead of the block that was written. -/
theorem run_fullBlock : ∃ w outs, (create (List.Vector.replicate _ 0)).run
        [.openRoot, .write 1 fullBlock, .readStream 1] = some (w, outs) ∧
      (History.empty.run [.openRoot, .write 1 fullBlock, .readStream 1]).2 = [fullBlock] ∧
      outs ≠ [fullBlock] := by
  have hfull : fullBlock.length = bufferSize := length_replicate
  obtain ⟨log₁, hk₁⟩ := (create_keeps (List.Vector.replicate _ 0)).openChild Nat.one_pos
    (show 1 < 2 ^ 31 by decide)
  obtain ⟨w₂, log₂, hwrite, hk₂⟩ := hk₁.write_full rfl ⟨Nat.one_pos, Nat.one_lt_two⟩ hfull
  obtain ⟨log₃, hread, -⟩ := hk₂.readStream ⟨Nat.one_pos, Nat.one_lt_two⟩
  refine ⟨w₂.flushBuffer, [List.replicate bufferSize 0], ?_, ?_, ?_⟩
  · have hstep : ((create (List.Vector.replicate _ 0)).openChild 0).write 1 fullBlock = some w₂ :=
      hwrite
    simp only [run, step, openRoot, hstep, map_some, hread, bind_eq_bind, bind_some]
    rfl
  · rfl
  · intro heq
    have hhead := congrArg List.head? (List.cons.inj heq).1
    simp [fullBlock, bufferSize] at hhead

end Writer

end TreeStream
end Castan
