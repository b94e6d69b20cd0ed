/-
# The file of contention sets

`process-contention-sets` prints a list of contention sets, and every constructor of the model
reads it back and appends it to the tables of the process.  The tables are the printed list exactly
if every number of ways fits an `int` and one model is built or the list is empty
(`tables_right_iff`).
-/
import Castan.Cache.ContentionSet
import Castan.Lib.IStream

namespace Castan

open List

/-! ### Decimal numbers -/

namespace Decimal

/-- A number at the front of a text, after white space and with an optional sign. -/
def scan (text : List Char) : Option ℤ :=
  let (neg, text) := Hex.sign (text.dropWhile Hex.isSpace)
  let digits := text.takeWhile Char.isDigit
  if digits.isEmpty then none
  else some (if neg then -(Nat.ofDigitChars 10 digits 0 : ℤ) else Nat.ofDigitChars 10 digits 0)

/-- `std::stoi`, with `none` for an exception. -/
def stoi (text : List Char) : Option (BitVec 32) :=
  (scan text).bind fun n => if -2 ^ 31 ≤ n ∧ n < 2 ^ 31 then some (BitVec.ofInt 32 n) else none

/-- `std::stol`, with `none` for an exception. -/
def stol (text : List Char) : Option (BitVec 64) :=
  (scan text).bind fun n => if -2 ^ 63 ≤ n ∧ n < 2 ^ 63 then some (BitVec.ofInt 64 n) else none

/-- `<<` for an unsigned number. -/
def print (n : ℕ) : List Char := Nat.toDigits 10 n

/-- `<<` for a `long`. -/
def printLong (a : BitVec 64) : List Char :=
  if a.toInt < 0 then '-' :: print a.toInt.natAbs else print a.toInt.natAbs

lemma isDigit_of_mem_print {n : ℕ} {c : Char} (h : c ∈ print n) : c.isDigit = true :=
  Nat.isDigit_of_mem_toDigits (by decide) (by decide) h

lemma print_ne_nil (n : ℕ) : print n ≠ [] := Nat.toDigits_ne_nil

lemma head_print (n : ℕ) : ∃ c cs, print n = c :: cs ∧ c.isDigit = true := by
  obtain ⟨c, cs, hcs⟩ := exists_cons_of_ne_nil (print_ne_nil n)
  exact ⟨c, cs, hcs, isDigit_of_mem_print (n := n) (by rw [hcs]; exact mem_cons_self)⟩

lemma takeWhile_print (n : ℕ) : (print n).takeWhile Char.isDigit = print n :=
  List.takeWhile_eq_self_iff.mpr fun _ hc => isDigit_of_mem_print hc

/-- A printed number is read back. -/
lemma scan_print (n : ℕ) : scan (print n) = some (n : ℤ) := by
  obtain ⟨c, cs, hcs, hc⟩ := head_print n
  have hspace : Hex.isSpace c = false := by
    by_contra h
    simp only [Hex.isSpace, Bool.or_eq_true, beq_iff_eq, Bool.not_eq_false] at h
    rcases h with ((((rfl | rfl) | rfl) | rfl) | rfl) | rfl <;> revert hc <;> decide
  have hsign : Hex.sign (c :: cs) = (false, c :: cs) := by
    rw [Hex.sign, if_neg, if_neg]
    · rintro rfl
      revert hc
      decide
    · rintro rfl
      revert hc
      decide
  rw [scan, hcs, List.dropWhile_cons_of_neg (by simp [hspace]), hsign, ← hcs]
  simp only [takeWhile_print, List.isEmpty_iff, print_ne_nil, if_false, Bool.false_eq_true]
  rw [print, Nat.ofDigitChars_toDigits (by decide) (by decide)]

lemma scan_neg_print (n : ℕ) : scan ('-' :: print n) = some (-(n : ℤ)) := by
  rw [scan, List.dropWhile_cons_of_neg (by decide), Hex.sign, if_pos rfl]
  simp only [takeWhile_print, List.isEmpty_iff, print_ne_nil, if_false, if_true]
  rw [print, Nat.ofDigitChars_toDigits (by decide) (by decide)]

lemma stoi_print (n : ℕ) :
    stoi (print n) = if n < 2 ^ 31 then some (BitVec.ofNat 32 n) else none := by
  rw [stoi, scan_print, Option.bind_some]
  have h : (-2 ^ 31 ≤ (n : ℤ) ∧ (n : ℤ) < 2 ^ 31) ↔ n < 2 ^ 31 := by omega
  simp only [h, BitVec.ofInt_natCast]

lemma scan_printLong (a : BitVec 64) : scan (printLong a) = some a.toInt := by
  rw [printLong]
  split
  · next h => rw [scan_neg_print, Int.ofNat_natAbs_of_nonpos h.le, neg_neg]
  · next h => rw [scan_print, Int.natAbs_of_nonneg (not_lt.mp h)]

lemma stol_printLong (a : BitVec 64) : stol (printLong a) = some a := by
  rw [stol, scan_printLong, Option.bind_some, if_pos ⟨BitVec.le_toInt a, BitVec.toInt_lt⟩,
    BitVec.ofInt_toInt]

lemma printLong_ne_nil (a : BitVec 64) : printLong a ≠ [] := by
  rw [printLong]
  split
  · exact cons_ne_nil _ _
  · exact print_ne_nil _

lemma newline_notMem_print (n : ℕ) : '\n' ∉ print n := by
  intro h
  exact absurd (isDigit_of_mem_print h) (by decide)

lemma newline_notMem_printLong (a : BitVec 64) : '\n' ∉ printLong a := by
  rw [printLong]
  split
  · simp [newline_notMem_print]
  · exact newline_notMem_print _

end Decimal

/-! ### Writing -/

namespace ContentionSet

open Decimal

/-- The lines for a contention set. -/
def lines (s : ContentionSet) : List (List Char) :=
  print s.associativity :: s.addresses.map printLong ++ [[]]

/-- What `process-contention-sets` prints. -/
def dump (sets : List ContentionSet) : List Char :=
  (sets.flatMap lines).flatMap (· ++ ['\n'])

end ContentionSet

/-! ### Reading -/

namespace ContentionSetFile

open Decimal

/-- `std::set<long>::insert` -/
def insert (a : BitVec 64) : List (BitVec 64) → List (BitVec 64)
  | [] => [a]
  | b :: l =>
    if a.toInt < b.toInt then a :: b :: l else if b.toInt < a.toInt then b :: insert a l else b :: l

lemma mem_insert {a c : BitVec 64} : ∀ {l : List (BitVec 64)}, c ∈ insert a l → c = a ∨ c ∈ l
  | [], h => by simpa [insert] using h
  | b :: l, h => by
    rw [insert] at h
    split_ifs at h
    · simpa using h
    · rcases mem_cons.mp h with rfl | h
      · simp
      · rcases mem_insert h with rfl | h <;> simp [*]
    · exact Or.inr h

lemma sorted_insert (a : BitVec 64) : ∀ {l : List (BitVec 64)},
    l.Pairwise (fun a b => a.toInt < b.toInt) → (insert a l).Pairwise fun a b => a.toInt < b.toInt
  | [], _ => pairwise_singleton _ _
  | b :: l, h => by
    obtain ⟨hb, hl⟩ := pairwise_cons.mp h
    rw [insert]
    split_ifs with hlt hgt
    · refine pairwise_cons.mpr ⟨?_, h⟩
      rintro c hc
      rcases mem_cons.mp hc with rfl | hc
      · exact hlt
      · exact hlt.trans (hb c hc)
    · refine pairwise_cons.mpr ⟨fun c hc => ?_, sorted_insert a hl⟩
      rcases mem_insert hc with rfl | hc
      · exact hgt
      · exact hb c hc
    · exact h

/-- A new largest element goes to the end. -/
lemma insert_eq_append {a : BitVec 64} : ∀ {l : List (BitVec 64)},
    (∀ b ∈ l, b.toInt < a.toInt) → insert a l = l ++ [a]
  | [], _ => rfl
  | b :: l, h => by
    obtain ⟨hb, hl⟩ := forall_mem_cons.mp h
    rw [insert, if_neg (lt_asymm hb), if_pos hb, insert_eq_append hl, cons_append]

/-- The set that is being read. -/
structure Record where
  associativity : BitVec 32
  addresses : List (BitVec 64)
  sorted : addresses.Pairwise fun a b => a.toInt < b.toInt

def Record.insert (r : Record) (a : BitVec 64) : Record :=
  ⟨r.associativity, ContentionSetFile.insert a r.addresses, sorted_insert a r.sorted⟩

/-- The entry of the table.  A set without ways, which the tables of the model do not have, counts
as an error. -/
def Record.toSet (r : Record) : Option ContentionSet :=
  if h : 0 < r.associativity.toNat then some ⟨r.addresses, _, r.sorted, h⟩ else none

/-- The loops of the constructor over the lines of the file, with the set that is being read.
After the last line the stream is not good. -/
def readSets : Option Record → List (List Char) → Option (List ContentionSet)
  | none, [] => some []
  | some r, [] => do
    let s ← r.toSet
    return [s]
  | none, line :: lines =>
    if line.isEmpty then readSets none lines
    else do
      let associativity ← stoi line
      readSets (some ⟨associativity, [], .nil⟩) lines
  | some r, line :: lines =>
    if line.isEmpty then do
      let s ← r.toSet
      let sets ← readSets none lines
      return s :: sets
    else do
      let address ← stol line
      readSets (some (r.insert address)) lines

/-- The constructor `ContentionSetCacheModel()`.  The lines are the parts of the content between the
newlines. -/
def construct (content : List Char) (t : Tables) : Option Tables :=
  (readSets none (content.splitOn '\n')).map t.load

/-- A number of constructions in a new process. -/
def constructions (content : List Char) : ℕ → Option Tables
  | 0 => some .empty
  | n + 1 => (constructions content n).bind (construct content)

/-! ### Reading what was written -/

/-- The lines of a text of lines: one more is empty. -/
lemma splitOn_lines (ls : List (List Char)) (h : ∀ l ∈ ls, '\n' ∉ l) :
    (ls.flatMap (· ++ ['\n'])).splitOn '\n' = ls ++ [[]] := by
  induction ls with
  | nil => rfl
  | cons l ls ih =>
    obtain ⟨hl, hls⟩ := forall_mem_cons.mp h
    have hparts : ∀ c ∈ l, (c == '\n') = false := by
      intro c hc
      rw [beq_eq_false_iff_ne]
      rintro rfl
      exact hl hc
    rw [flatMap_cons, append_assoc, singleton_append, splitOn,
      splitOnP_append_cons_of_forall_mem hparts '\n' (by decide), cons_append]
    exact congrArg (l :: ·) (ih hls)

lemma newline_notMem_lines (sets : List ContentionSet) :
    ∀ l ∈ sets.flatMap ContentionSet.lines, '\n' ∉ l := by
  intro l hl
  obtain ⟨s, -, hs⟩ := mem_flatMap.mp hl
  simp only [ContentionSet.lines, cons_append, mem_cons, mem_append, mem_map,
    not_mem_nil, or_false] at hs
  rcases hs with rfl | ⟨a, -, rfl⟩ | rfl
  · exact newline_notMem_print _
  · exact newline_notMem_printLong a
  · exact not_mem_nil

/-- The addresses of a set, in increasing order, and the empty line behind them. -/
lemma readSets_addresses (lines : List (List Char)) : ∀ (addresses : List (BitVec 64)) (r : Record)
    (hsorted : (r.addresses ++ addresses).Pairwise fun a b => a.toInt < b.toInt),
    readSets (some r) (addresses.map printLong ++ [] :: lines) = do
      let s ← Record.toSet ⟨r.associativity, r.addresses ++ addresses, hsorted⟩
      let sets ← readSets none lines
      return s :: sets
  | [], r, hsorted => by simp [readSets]
  | a :: addresses, r, hsorted => by
    have hlt : ∀ b ∈ r.addresses, b.toInt < a.toInt := fun b hb =>
      (pairwise_append.mp hsorted).2.2 b hb a mem_cons_self
    have hinsert : (r.insert a).addresses = r.addresses ++ [a] := insert_eq_append hlt
    have hrest : ((r.insert a).addresses ++ addresses).Pairwise fun a b => a.toInt < b.toInt := by
      rw [hinsert, append_assoc]
      exact hsorted
    rw [map_cons, cons_append, readSets, if_neg (by simp [printLong_ne_nil]),
      stol_printLong]
    show readSets (some (r.insert a)) _ = _
    rw [readSets_addresses lines addresses (r.insert a) hrest]
    simp only [hinsert, append_assoc, singleton_append]
    rfl

/-- A printed set is read back if its number of ways is an `int`. -/
lemma readSets_set (s : ContentionSet) (lines : List (List Char)) :
    readSets none (s.lines ++ lines) =
      if s.associativity < 2 ^ 31 then (readSets none lines).map (s :: ·) else none := by
  rw [ContentionSet.lines, cons_append, cons_append, readSets,
    if_neg (by simp [print_ne_nil]), stoi_print]
  split
  · next hlt =>
    have hways : (BitVec.ofNat 32 s.associativity).toNat = s.associativity := by
      rw [BitVec.toNat_ofNat, Nat.mod_eq_of_lt (hlt.trans (by decide))]
    show readSets (some _) _ = _
    rw [append_assoc, singleton_append,
      readSets_addresses lines s.addresses ⟨_, [], .nil⟩ s.sorted, Record.toSet,
      dif_pos (by simpa [hways] using s.associativity_pos)]
    cases readSets none lines with
    | none => rfl
    | some sets => simp [hways]
  · rfl

theorem readSets_dump (sets : List ContentionSet) :
    readSets none ((ContentionSet.dump sets).splitOn '\n') =
      if ∀ s ∈ sets, s.associativity < 2 ^ 31 then some sets else none := by
  rw [ContentionSet.dump, splitOn_lines _ (newline_notMem_lines sets)]
  induction sets with
  | nil => rfl
  | cons s sets ih =>
    rw [flatMap_cons, append_assoc, readSets_set, ih]
    simp only [forall_mem_cons]
    by_cases hs : s.associativity < 2 ^ 31
    · by_cases hsets : ∀ s ∈ sets, s.associativity < 2 ^ 31
      · rw [if_pos hs, if_pos hsets, if_pos ⟨hs, hsets⟩, Option.map_some]
      · rw [if_pos hs, if_neg hsets, if_neg fun h => hsets h.2, Option.map_none]
    · rw [if_neg hs, if_neg fun h => hs h.1]

/-! ### The tables -/

/-- The tables are the list, and the index says which sets an address belongs to. -/
def TablesRight (sets : List ContentionSet) (t : Tables) : Prop :=
  t.contentionSets = sets ∧ ∀ a i, i ∈ t.contentionSetIdxs.getD a ∅ ↔ InSet sets a i

/-- Every construction appends the sets of the file. -/
lemma constructions_dump {sets : List ContentionSet} (h : ∀ s ∈ sets, s.associativity < 2 ^ 31)
    (n : ℕ) : ∃ t, constructions (ContentionSet.dump sets) n = some t ∧
      t.contentionSets = (replicate n sets).flatten := by
  induction n with
  | zero => exact ⟨_, rfl, rfl⟩
  | succ n ih =>
    obtain ⟨t, ht, hsets⟩ := ih
    refine ⟨t.load sets, ?_, ?_⟩
    · rw [constructions, ht, Option.bind_some, construct, readSets_dump, if_pos h]
      rfl
    · rw [replicate_succ', flatten_append, ← hsets]
      simp [Tables.load]

/-- The first construction stops at a number of ways that is not an `int`. -/
lemma constructions_dump_eq_none {sets : List ContentionSet}
    (h : ¬ ∀ s ∈ sets, s.associativity < 2 ^ 31) (n : ℕ) :
    constructions (ContentionSet.dump sets) (n + 1) = none := by
  have hnone : ∀ t, construct (ContentionSet.dump sets) t = none := by
    intro t
    rw [construct, readSets_dump, if_neg h, Option.map_none]
  rw [constructions]
  cases constructions (ContentionSet.dump sets) n with
  | none => rfl
  | some t => exact hnone t

/-- A list repeated is the list if it is taken once or has nothing in it. -/
lemma flatten_replicate_eq_self_iff {α : Type*} (l : List α) (n : ℕ) :
    (replicate n l).flatten = l ↔ n = 1 ∨ l = [] := by
  constructor
  · intro h
    have hlength : n * l.length = 1 * l.length := by simpa using congrArg length h
    by_cases hl : l = []
    · exact .inr hl
    · exact .inl (Nat.eq_of_mul_eq_mul_right (length_pos_iff.mpr hl) hlength)
  · rintro (rfl | rfl)
    · simp
    · simp

/-- The tables after some constructions are right if and only if every number of ways is an `int`
and there was one construction or nothing to read. -/
theorem tables_right_iff (sets : List ContentionSet) (n : ℕ) :
    (∃ t, constructions (ContentionSet.dump sets) n = some t ∧ TablesRight sets t) ↔
      (∀ s ∈ sets, s.associativity < 2 ^ 31) ∧ (n = 1 ∨ sets = []) := by
  by_cases h : ∀ s ∈ sets, s.associativity < 2 ^ 31
  · obtain ⟨t, ht, hsets⟩ := constructions_dump h n
    rw [← flatten_replicate_eq_self_iff sets n, ← hsets]
    constructor
    · rintro ⟨u, hu, hright, -⟩
      obtain rfl : t = u := Option.some.inj (ht.symm.trans hu)
      exact ⟨h, hright⟩
    · rintro ⟨-, hright⟩
      refine ⟨t, ht, hright, ?_⟩
      intro a i
      rw [t.indexes.mem_iff, hright]
  · constructor
    · rintro ⟨t, ht, hright, -⟩
      cases n with
      | zero =>
        obtain rfl : Tables.empty = t := Option.some.inj ht
        have hnil : sets = [] := hright.symm
        exact absurd (by simp [hnil]) h
      | succ n => exact absurd (constructions_dump_eq_none h n) (by simp [ht])
    · rintro ⟨hways, -⟩
      exact absurd hways h

/-- A set of one address. -/
def singleAddress (associativity : ℕ) (h : 0 < associativity) : ContentionSet :=
  ⟨[5], associativity, List.pairwise_singleton _ _, h⟩

/-- A set is read twice by two constructions, and a set of `2 ^ 31` ways stops the first one. -/
theorem tables_wrong :
    (¬ ∃ t, constructions (ContentionSet.dump [singleAddress 1 (by decide)]) 2 = some t ∧
      TablesRight [singleAddress 1 (by decide)] t) ∧
    ¬ ∃ t, constructions (ContentionSet.dump [singleAddress (2 ^ 31) (by decide)]) 1 = some t ∧
      TablesRight [singleAddress (2 ^ 31) (by decide)] t := by
  constructor
  · rintro ⟨t, ht, hright, -⟩
    have hways : ∀ s ∈ [singleAddress 1 (by decide)], s.associativity < 2 ^ 31 := by decide
    obtain ⟨u, hu, hsets⟩ := constructions_dump hways 2
    obtain rfl : t = u := Option.some.inj (ht.symm.trans hu)
    have hlength := congrArg length (hright.symm.trans hsets)
    exact absurd hlength (by decide)
  · rintro ⟨t, ht, -⟩
    have hways : ¬ ∀ s ∈ [singleAddress (2 ^ 31) (by decide)], s.associativity < 2 ^ 31 := by decide
    exact absurd (ht.symm.trans (constructions_dump_eq_none hways 0)) (by simp)

end ContentionSetFile

end Castan
