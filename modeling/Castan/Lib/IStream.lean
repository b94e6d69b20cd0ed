/-
# Input streams

`std::istream` over a fixed content: a position and the two error bits, with unformatted input of
lines and formatted input of hexadecimal numbers.  Once a bit is set, input does nothing; `seekg`
clears the bit for the end of the stream, but not the one for a failure.
-/
import Mathlib

namespace Castan

open List

/-! ### Hexadecimal digits -/

namespace Hex

/-- The value of a hexadecimal digit. -/
def value (c : Char) : Option ℕ :=
  if '0' ≤ c ∧ c ≤ '9' then some (c.toNat - '0'.toNat)
  else if 'A' ≤ c ∧ c ≤ 'F' then some (c.toNat - 'A'.toNat + 10)
  else if 'a' ≤ c ∧ c ≤ 'f' then some (c.toNat - 'a'.toNat + 10)
  else none

/-- The upper-case digit of a value. -/
def digit (d : ℕ) : Char := Char.ofNat (if d < 10 then '0'.toNat + d else 'A'.toNat + d - 10)

/-- `%0wX`, for a number that has at most `w` digits. -/
def format : (w n : ℕ) → List Char
  | 0, _ => []
  | w + 1, n => format w (n / 16) ++ [digit (n % 16)]

/-- The digits at the front, and what follows them. -/
def span : List Char → List ℕ × List Char
  | [] => ([], [])
  | c :: cs =>
      match value c with
      | some d => (d :: (span cs).1, (span cs).2)
      | none => ([], c :: cs)

def number (ds : List ℕ) : ℕ := ds.foldl (fun n d => 16 * n + d) 0

/-- An optional sign. -/
def sign : List Char → Bool × List Char
  | [] => (false, [])
  | c :: cs => if c = '-' then (true, cs) else if c = '+' then (false, cs) else (false, c :: cs)

/-- An optional `0x`. -/
def dropBase : List Char → List Char
  | c₁ :: c₂ :: cs => if c₁ = '0' ∧ (c₂ = 'x' ∨ c₂ = 'X') then cs else c₁ :: c₂ :: cs
  | cs => cs

/-- A number in a text: its sign, its digits, and what follows. -/
def scan (cs : List Char) : Bool × List ℕ × List Char :=
  ((sign cs).1, span (dropBase (sign cs).2))

/-- `isspace`. -/
def isSpace (c : Char) : Bool :=
  c == ' ' || c == '\t' || c == '\n' || c == '\x0b' || c == '\x0c' || c == '\r'

/-- Conversion to an unsigned number of 64 bits, and whether it succeeds. -/
def toUInt64 (neg : Bool) (n : ℕ) : ℤ × Bool :=
  if 2 ^ 64 ≤ n then (2 ^ 64 - 1, false)
  else (if neg then (2 ^ 64 - n) % 2 ^ 64 else n, true)

/-- Conversion to an `int`, and whether it succeeds. -/
def toInt (neg : Bool) (n : ℕ) : ℤ × Bool :=
  if neg then if 2 ^ 31 < n then (- 2 ^ 31, false) else (-n, true)
  else if 2 ^ 31 ≤ n then (2 ^ 31 - 1, false) else (n, true)

/-- The characters that `format` writes. -/
def IsDigit (c : Char) : Prop := ∃ d < 16, c = digit d

lemma value_digit {d : ℕ} (h : d < 16) : value (digit d) = some d := by
  interval_cases d <;> decide

lemma IsDigit.ne {c : Char} (h : IsDigit c) {c' : Char} (hc : value c' = none) : c ≠ c' := by
  obtain ⟨d, hd, rfl⟩ := h
  intro heq
  rw [← heq, value_digit hd] at hc
  cases hc

lemma isDigit_of_mem_format {w n : ℕ} {c : Char} (h : c ∈ format w n) : IsDigit c := by
  induction w generalizing n with
  | zero => simp [format] at h
  | succ w ih =>
    rcases mem_append.mp h with hmem | hmem
    · exact ih hmem
    · exact ⟨n % 16, Nat.mod_lt _ (by decide), mem_singleton.mp hmem⟩

@[simp] lemma length_format (w n : ℕ) : (format w n).length = w := by
  induction w generalizing n with
  | zero => rfl
  | succ w ih => rw [format, length_append, ih, length_singleton]

/-- A text that cannot go on with the number before it. -/
def Ends (tail : List Char) : Prop := ∀ c ∈ tail.head?, isSpace c = true

lemma Ends.cons {c : Char} (h : isSpace c = true) (cs : List Char) : Ends (c :: cs) := by
  intro c' hc'
  obtain rfl : c = c' := by simpa using hc'
  exact h

lemma value_of_isSpace {c : Char} (h : isSpace c = true) : value c = none := by
  simp only [isSpace, Bool.or_eq_true, beq_iff_eq] at h
  rcases h with ((((rfl | rfl) | rfl) | rfl) | rfl) | rfl <;> decide

lemma span_append {ds : List ℕ} (hds : ∀ d ∈ ds, d < 16) {tail : List Char} (htail : Ends tail) :
    span (ds.map digit ++ tail) = (ds, tail) := by
  induction ds with
  | nil =>
    cases tail with
    | nil => rfl
    | cons c cs =>
      rw [map_nil, nil_append, span, value_of_isSpace (htail c (by simp))]
  | cons d ds ih =>
    rw [forall_mem_cons] at hds
    rw [map_cons, cons_append, span, value_digit hds.1, ih hds.2]

/-- The digits of `format`, as numbers. -/
lemma format_eq_map (w n : ℕ) :
    ∃ ds, format w n = ds.map digit ∧ (∀ d ∈ ds, d < 16) ∧ number ds = n % 16 ^ w := by
  induction w generalizing n with
  | zero => exact ⟨[], rfl, by simp, by simp [number, Nat.mod_one]⟩
  | succ w ih =>
    obtain ⟨ds, hds, hlt, hnum⟩ := ih (n / 16)
    refine ⟨ds ++ [n % 16], by rw [format, hds, map_append]; rfl, ?_, ?_⟩
    · intro d hd
      rcases mem_append.mp hd with hmem | hmem
      · exact hlt d hmem
      · rw [mem_singleton.mp hmem]
        exact Nat.mod_lt _ (by decide)
    · have hstep : number (ds ++ [n % 16]) = 16 * number ds + n % 16 := by simp [number]
      rw [hstep, hnum, pow_succ', Nat.mod_mul, Nat.add_comm]

lemma length_span_le (cs : List Char) : (span cs).2.length ≤ cs.length := by
  induction cs with
  | nil => exact le_rfl
  | cons c cs ih =>
    rw [span]
    split
    · exact ih.trans (Nat.le_succ _)
    · exact le_rfl

lemma length_span_lt {cs : List Char} (h : (span cs).1 ≠ []) : (span cs).2.length < cs.length := by
  cases cs with
  | nil => exact absurd rfl h
  | cons c cs =>
    rw [span] at h ⊢
    split at h
    · exact Nat.lt_succ_of_le (length_span_le cs)
    · exact absurd rfl h

lemma length_sign_le (cs : List Char) : (sign cs).2.length ≤ cs.length := by
  cases cs with
  | nil => exact le_rfl
  | cons c cs =>
    rw [sign]
    split_ifs <;> simp

lemma length_dropBase_le : ∀ cs : List Char, (dropBase cs).length ≤ cs.length
  | [] | [_] => le_rfl
  | c₁ :: c₂ :: cs => by
    rw [dropBase]
    split_ifs
    · simp only [length_cons]
      omega
    · exact le_rfl

/-- A number takes up some of the text. -/
lemma length_scan_lt (cs : List Char) (h : (scan cs).2.1 ≠ []) :
    (scan cs).2.2.length < cs.length :=
  calc (scan cs).2.2.length
      < (dropBase (sign cs).2).length := length_span_lt h
    _ ≤ (sign cs).2.length := length_dropBase_le _
    _ ≤ cs.length := length_sign_le _

lemma sign_cons {c : Char} (h : IsDigit c) (cs : List Char) :
    sign (c :: cs) = (false, c :: cs) := by
  rw [sign, if_neg (h.ne (by decide)), if_neg (h.ne (by decide))]

lemma dropBase_cons (c : Char) {cs : List Char} (h : ∀ c' ∈ cs.head?, c' ≠ 'x' ∧ c' ≠ 'X') :
    dropBase (c :: cs) = c :: cs := by
  cases cs with
  | nil => rfl
  | cons c' cs =>
    obtain ⟨h₁, h₂⟩ := h c' (by simp)
    rw [dropBase, if_neg (by simp [h₁, h₂])]

/-- A formatted number is scanned as such. -/
lemma scan_format (w n : ℕ) {tail : List Char} (htail : Ends tail) :
    ∃ ds, scan (format (w + 1) n ++ tail) = (false, ds, tail) ∧ ds ≠ [] ∧
      number ds = n % 16 ^ (w + 1) := by
  obtain ⟨ds, hds, hlt, hnum⟩ := format_eq_map (w + 1) n
  have hlen : ds.length = w + 1 := by
    rw [← length_format (w + 1) n, hds, length_map]
  cases ds with
  | nil => simp at hlen
  | cons d ds =>
    refine ⟨d :: ds, ?_, by simp, hnum⟩
    have hdigit : IsDigit (digit d) := ⟨d, hlt d (by simp), rfl⟩
    have hnext : ∀ c ∈ (ds.map digit ++ tail).head?, c ≠ 'x' ∧ c ≠ 'X' := by
      intro c hc
      cases ds with
      | nil =>
        have hspace := htail c (by simpa using hc)
        constructor <;> rintro rfl <;> revert hspace <;> decide
      | cons d' ds =>
        obtain rfl : digit d' = c := by simpa using hc
        have hd' : IsDigit (digit d') := ⟨d', hlt d' (by simp), rfl⟩
        exact ⟨hd'.ne (by decide), hd'.ne (by decide)⟩
    have hspan := span_append hlt htail
    rw [map_cons, cons_append] at hspan
    rw [hds, map_cons, cons_append, scan, sign_cons hdigit, dropBase_cons _ hnext, hspan]

end Hex

/-! ### Streams -/

structure IStream where
  content : List Char
  /-- The position of the next character. -/
  pos : ℕ
  eofbit : Bool
  failbit : Bool
deriving DecidableEq

namespace IStream

/-- A stream at the start of its content. -/
def ofContent (content : List Char) : IStream := ⟨content, 0, false, false⟩

def good (s : IStream) : Bool := !s.eofbit && !s.failbit

/-- What is still to be read. -/
def rest (s : IStream) : List Char := s.content.drop s.pos

/-- `std::getline`: the line, unless the stream is not good and the string is left alone. -/
def getline (s : IStream) : Option (List Char) × IStream :=
  if s.good then
    let line := s.rest.takeWhile (· ≠ '\n')
    if line.length < s.rest.length then (some line, { s with pos := s.pos + line.length + 1 })
    else (some line,
      { s with pos := s.pos + line.length, eofbit := true, failbit := line.isEmpty })
  else (none, { s with failbit := true })

/-- `seekg` to a position. -/
def seekg (s : IStream) (p : ℤ) : IStream :=
  if s.failbit then { s with eofbit := false }
  else if 0 ≤ p then { s with pos := p.toNat, eofbit := false }
  else { s with eofbit := false, failbit := true }

/-- `seekg` to the end. -/
def seekEnd (s : IStream) : IStream :=
  if s.failbit then { s with eofbit := false }
  else { s with pos := s.content.length, eofbit := false }

def tellg (s : IStream) : ℤ × IStream :=
  if s.good then (s.pos, s) else (-1, { s with failbit := true })

/-- `>> std::hex >> x`: the number stored in `x`, unless there is nothing to convert and `x` is
left alone. -/
def readHex (conv : Bool → ℕ → ℤ × Bool) (s : IStream) : Option ℤ × IStream :=
  if s.good then
    let text := s.rest.dropWhile Hex.isSpace
    if text.isEmpty then
      (none, { s with pos := s.content.length, eofbit := true, failbit := true })
    else
      let (neg, ds, tail) := Hex.scan text
      let s := { s with pos := s.content.length - tail.length, eofbit := tail.isEmpty }
      if ds.isEmpty then (some 0, { s with failbit := true })
      else
        let (x, ok) := conv neg (Hex.number ds)
        (some x, { s with failbit := !ok })
  else (none, { s with failbit := true })

/-! ### Reading along a content -/

variable {s : IStream} {line tail : List Char}

/-- The stream can be read, and this is what will be read. -/
structure At (s : IStream) (tail : List Char) : Prop where
  eofbit : s.eofbit = false
  failbit : s.failbit = false
  rest : s.rest = tail
  le : s.pos ≤ s.content.length

lemma At.good (h : s.At tail) : s.good = true := by
  rw [IStream.good, h.eofbit, h.failbit]
  rfl

lemma At.pos_add (h : s.At tail) : s.pos + tail.length = s.content.length := by
  rw [← h.rest, IStream.rest, length_drop]
  exact Nat.add_sub_cancel' h.le

/-- Reading on by a part of the text. -/
lemma At.advance {part : List Char} (h : s.At (part ++ tail)) :
    ({ s with pos := s.pos + part.length } : IStream).At tail where
  eofbit := h.eofbit
  failbit := h.failbit
  rest := by
    have hrest := h.rest
    rw [IStream.rest] at hrest ⊢
    rw [← drop_drop, hrest, drop_left]
  le := by
    have hpos := h.pos_add
    rw [length_append] at hpos
    show s.pos + part.length ≤ s.content.length
    omega

lemma ofContent_at (content : List Char) : (ofContent content).At content :=
  ⟨rfl, rfl, rfl, Nat.zero_le _⟩

lemma seekg_at (h : s.failbit = false) {p : ℕ} (hp : p ≤ s.content.length) :
    (s.seekg p).At (s.content.drop p) := by
  rw [seekg, if_neg (by simp [h]), if_pos (Int.natCast_nonneg p)]
  exact ⟨rfl, h, rfl, hp⟩

@[simp] lemma seekg_content (p : ℤ) : (s.seekg p).content = s.content := by
  rw [seekg]
  split_ifs <;> rfl

@[simp] lemma getline_content : s.getline.2.content = s.content := by
  rw [getline]
  split
  · dsimp only
    split <;> rfl
  · rfl

@[simp] lemma readHex_content (conv : Bool → ℕ → ℤ × Bool) :
    (s.readHex conv).2.content = s.content := by
  rw [readHex]
  split
  · dsimp only
    split_ifs <;> rfl
  · rfl

/-- Every number that is read brings the stream closer to its end. -/
lemma readHex_lt {conv : Bool → ℕ → ℤ × Bool} (h : (s.readHex conv).2.failbit = false) :
    s.content.length - (s.readHex conv).2.pos < s.content.length - s.pos := by
  have hrest : s.rest.length = s.content.length - s.pos := length_drop
  have hdrop : (s.rest.dropWhile Hex.isSpace).length ≤ s.rest.length :=
    (dropWhile_sublist _).length_le
  have hscan := Hex.length_scan_lt (s.rest.dropWhile Hex.isSpace)
  rcases hs : Hex.scan (s.rest.dropWhile Hex.isSpace) with ⟨neg, ds, tail⟩
  rw [hs] at hscan
  rw [readHex] at h ⊢
  split_ifs at h ⊢ with hgood
  simp only [hs] at h ⊢
  split_ifs at h ⊢ with hempty hds
  have hlt := hscan fun hnil => hds (isEmpty_iff.mpr hnil)
  dsimp only at hlt ⊢
  omega

/-- A line that is ended by a newline. -/
lemma getline_line (h : s.At (line ++ '\n' :: tail)) (hline : '\n' ∉ line) :
    s.getline.1 = some line ∧ s.getline.2.At tail := by
  have htake : s.rest.takeWhile (· ≠ '\n') = line := by
    rw [h.rest, takeWhile_append_of_pos]
    · simp
    · intro c hc
      simpa using fun heq : c = '\n' => hline (heq ▸ hc)
  have hat : s.At ((line ++ ['\n']) ++ tail) := by simpa using h
  have hadv := hat.advance
  rw [length_append, length_singleton] at hadv
  rw [getline, if_pos h.good]
  simp only [htake]
  rw [if_pos (by simp [h.rest])]
  exact ⟨rfl, hadv⟩

/-- At the end there is no line, and the stream is not good any more. -/
lemma getline_end (h : s.At []) : s.getline.1 = some [] ∧ s.getline.2.good = false := by
  rw [getline, if_pos h.good]
  simp [h.rest, IStream.good]

lemma dropWhile_isSpace {spaces : List Char} (hspaces : ∀ c ∈ spaces, Hex.isSpace c = true)
    (w n : ℕ) (tail : List Char) :
    (spaces ++ (Hex.format (w + 1) n ++ tail)).dropWhile Hex.isSpace =
      Hex.format (w + 1) n ++ tail := by
  rw [dropWhile_append_of_pos hspaces]
  obtain ⟨c, cs, hcs⟩ : ∃ c cs, Hex.format (w + 1) n = c :: cs :=
    exists_cons_of_length_eq_add_one (Hex.length_format _ _)
  have hc : Hex.isSpace c = false := by
    obtain ⟨d, hd, rfl⟩ := Hex.isDigit_of_mem_format (c := c) (by rw [hcs]; simp)
    by_contra hspace
    have := Hex.value_of_isSpace (by simpa using hspace)
    rw [Hex.value_digit hd] at this
    cases this
  rw [hcs, cons_append, dropWhile_cons_of_neg (by simp [hc])]

/-- A formatted number is read as such. -/
lemma readHex_format (conv : Bool → ℕ → ℤ × Bool) (spaces : List Char) (w : ℕ) {n : ℕ}
    (hspaces : ∀ c ∈ spaces, Hex.isSpace c = true) (hn : n < 16 ^ (w + 1))
    (hconv : (conv false n).2 = true) (htail : Hex.Ends tail)
    (h : s.At (spaces ++ (Hex.format (w + 1) n ++ tail))) :
    s.readHex conv = (some (conv false n).1,
      { s with pos := s.content.length - tail.length, eofbit := tail.isEmpty }) := by
  obtain ⟨ds, hscan, hne, hnum⟩ := Hex.scan_format w n htail
  rw [Nat.mod_eq_of_lt hn] at hnum
  have htext : (Hex.format (w + 1) n ++ tail).isEmpty = false := by
    rw [isEmpty_eq_false_iff]
    refine append_ne_nil_of_left_ne_nil (ne_nil_of_length_pos ?_) _
    rw [Hex.length_format]
    exact Nat.succ_pos w
  have hds : ds.isEmpty = false := isEmpty_eq_false_iff.mpr hne
  rw [readHex, if_pos h.good, h.rest]
  simp only [dropWhile_isSpace hspaces, htext, hscan, hds, hnum, hconv, Bool.false_eq_true,
    if_false, Bool.not_true, h.failbit]

/-- The position before the last part of the text. -/
lemma At.drop_eq {part : List Char} (h : s.At (part ++ tail)) :
    s.content.drop (s.content.length - tail.length) = tail := by
  have hpos := h.pos_add
  rw [length_append] at hpos
  have heq : s.content.length - tail.length = s.pos + part.length := by omega
  rw [heq]
  exact h.advance.rest

end IStream

end Castan
