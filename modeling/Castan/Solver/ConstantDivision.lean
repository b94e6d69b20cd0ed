/-
# Constants for products and quotients

`ComputeMultConstants64` writes a factor as the difference of two numbers with few bits, by
recoding its runs of ones.  `ComputeUDivConstants32` and `ComputeSDivConstants32` compute the
multiplier and the shifts that replace a division.
-/
import Castan.Lib.InvariantDivision

namespace Castan

variable {k i l : ℕ} {x : BitVec 64} {d : BitVec 32}

/-! ### Bits -/

namespace Bits

/-- `bits64::truncateToNBits` -/
def truncateToNBits (x : BitVec 64) (n : ℕ) : BitVec 64 := x &&& (BitVec.allOnes 64 >>> (64 - n))

/-- `bits64::isolateRightmostBit` -/
def isolateRightmostBit (x : BitVec 64) : BitVec 64 := x &&& -x

/-- `bits32::indexOfSingleBit` -/
def indexOfSingleBit32 (x : BitVec 32) : ℕ :=
  (if x &&& 0xFFFF0000 ≠ 0 then 16 else 0) + (if x &&& 0xFF00FF00 ≠ 0 then 8 else 0) +
    (if x &&& 0xF0F0F0F0 ≠ 0 then 4 else 0) + (if x &&& 0xCCCCCCCC ≠ 0 then 2 else 0) +
    (if x &&& 0xAAAAAAAA ≠ 0 then 1 else 0)

/-- `bits64::indexOfSingleBit` -/
def indexOfSingleBit (x : BitVec 64) : ℕ :=
  indexOfSingleBit32 ((x ||| x >>> 32).setWidth 32) +
    if x &&& (0xFFFFFFFF#64 <<< 32) ≠ 0 then 32 else 0

/-- `bits64::indexOfRightmostBit` -/
def indexOfRightmostBit (x : BitVec 64) : ℕ := indexOfSingleBit (isolateRightmostBit x)

lemma indexOfSingleBit_twoPow (hk : k < 64) : indexOfSingleBit (BitVec.twoPow 64 k) = k := by
  have hall : ∀ k : Fin 64, indexOfSingleBit (BitVec.twoPow 64 k) = k := by decide
  exact hall ⟨k, hk⟩

/-- `k` is the lowest set bit. -/
def LowestBit (x : BitVec 64) (k : ℕ) : Prop :=
  x.getLsbD k = true ∧ ∀ i < k, x.getLsbD i = false

lemma LowestBit.lt (h : LowestBit x k) : k < 64 :=
  BitVec.lt_of_getLsbD h.1

lemma isolateRightmostBit_eq (h : LowestBit x k) : isolateRightmostBit x = BitVec.twoPow 64 k := by
  apply BitVec.eq_of_getLsbD_eq
  intro i hi
  rw [isolateRightmostBit, BitVec.getLsbD_and, BitVec.getLsbD_neg, BitVec.getLsbD_twoPow]
  rcases lt_trichotomy i k with hlt | rfl | hgt
  · simp [h.2 i hlt, hlt.ne']
  · have hnone : ¬ ∃ j < i, x.getLsbD j = true := by
      rintro ⟨j, hj, hbit⟩
      rw [h.2 j hj] at hbit
      cases hbit
    simp [h.1, hi, hnone]
  · have hsome : ∃ j < i, x.getLsbD j = true := ⟨k, hgt, h.1⟩
    simp [hi, hsome, hgt.ne, h.lt]

lemma indexOfRightmostBit_eq (h : LowestBit x k) : indexOfRightmostBit x = k := by
  rw [indexOfRightmostBit, isolateRightmostBit_eq h, indexOfSingleBit_twoPow h.lt]

lemma getLsbD_truncateToNBits (x : BitVec 64) {n : ℕ} (hn : 1 ≤ n) (hle : n ≤ 64) :
    (truncateToNBits x n).getLsbD i = (x.getLsbD i && decide (i < n)) := by
  rw [truncateToNBits, BitVec.getLsbD_and, BitVec.getLsbD_ushiftRight, BitVec.getLsbD_allOnes]
  congr 1
  rw [decide_eq_decide]
  omega

end Bits

/-! ### Products -/

namespace ConstantDivision

open Bits

/-- The variables of the loop of `ComputeMultConstants64`. -/
structure Recoding where
  x : BitVec 64
  add : BitVec 64
  sub : BitVec 64

/-- The sum of two powers for a run of several ones: `2^high - 2^low`, or `-2^(low-1)` and `2^high`
if the bit below was going to be added. -/
def Recoding.rewriteRun (r : Recoding) (low high : ℕ) : Recoding :=
  let lowbit := 1#64 <<< low
  let r := if low ≠ 0 ∧ r.add &&& (lowbit >>> 1) ≠ 0 then
      { r with add := r.add ^^^ (lowbit >>> 1), sub := r.sub ^^^ (lowbit >>> 1) }
    else { r with sub := r.sub ||| lowbit }
  if high ≠ 64 then { r with add := r.add ||| 1#64 <<< high } else r

/-- One iteration: the rightmost run of ones is recoded. -/
def Recoding.step (r : Recoding) : Recoding :=
  let low := indexOfRightmostBit r.x
  let lowbit := 1#64 <<< low
  let p := r.x + lowbit
  let q := isolateRightmostBit p
  let high := if q ≠ 0 then indexOfSingleBit q else 64
  let r := if high = low + 1 then { r with add := r.add ||| lowbit } else r.rewriteRun low high
  { r with x := p ^^^ q }

/-- The loop, for at most `fuel` iterations. -/
def Recoding.loop : ℕ → Recoding → Option Recoding
  | 0, r => if r.x = 0 then some r else none
  | fuel + 1, r => if r.x = 0 then some r else r.step.loop fuel

/-- `ComputeMultConstants64`, with `none` for a loop of more than 64 iterations and for the
assertion at the end. -/
def computeMultConstants64 (multiplicand : BitVec 64) : Option (BitVec 64 × BitVec 64) :=
  (Recoding.loop 64 ⟨multiplicand, 0, 0⟩).bind fun r =>
    if multiplicand = r.add - r.sub then some (r.add, r.sub) else none

/-- The bits of a number are below `k`. -/
def Below (k : ℕ) (x : BitVec 64) : Prop := ∀ i, k ≤ i → x.getLsbD i = false

lemma Below.mono {k' : ℕ} (h : Below k x) (hle : k ≤ k') : Below k' x :=
  fun i hi => h i (hle.trans hi)

/-- The invariant of the loop: the ones below `k` are recoded. -/
structure Recoding.Inv (multiplicand : BitVec 64) (k : ℕ) (r : Recoding) : Prop where
  sum_eq : r.add - r.sub + r.x = multiplicand
  disjoint : r.add &&& r.sub = 0
  rest : ∀ i < k, r.x.getLsbD i = false
  add_below : Below k r.add
  sub_below : Below (k - 1) r.sub

/-! ### Runs of ones -/

/-- The rightmost run of ones of `x` reaches from `low` to `high`. -/
structure Run (x : BitVec 64) (low high : ℕ) : Prop where
  lt : low < high
  le : high ≤ 64
  lowest : LowestBit x low
  next : high < 64 → LowestBit (x + BitVec.twoPow 64 low) high
  top : high = 64 → x + BitVec.twoPow 64 low = 0

/-- A nonzero number has a lowest bit. -/
lemma exists_lowestBit (hx : x ≠ 0) : ∃ k, LowestBit x k := by
  have hex : ∃ k, x.getLsbD k = true := by
    by_contra hnone
    refine hx (BitVec.eq_of_getLsbD_eq fun i _ => ?_)
    show x.getLsbD i = (0#64).getLsbD i
    rw [BitVec.getLsbD_zero]
    exact Bool.eq_false_iff.mpr fun hi => hnone ⟨i, hi⟩
  refine ⟨Nat.find hex, Nat.find_spec hex, ?_⟩
  intro i hi
  exact Bool.eq_false_iff.mpr (Nat.find_min hex hi)

lemma LowestBit.dvd (h : LowestBit x k) : 2 ^ k ∣ x.toNat := by
  rw [Nat.dvd_iff_mod_eq_zero]
  apply Nat.eq_of_testBit_eq
  intro i
  rw [Nat.testBit_mod_two_pow, Nat.zero_testBit]
  by_cases hi : i < k
  · have hbit := h.2 i hi
    rw [BitVec.getLsbD] at hbit
    simp [hbit]
  · simp [hi]

/-- Adding the lowest bit carries through the run. -/
lemma getLsbD_add_lowest (h : LowestBit x k) (hi : i ≤ k) :
    (x + BitVec.twoPow 64 k).getLsbD i = false := by
  have hk := h.lt
  obtain ⟨c, hc⟩ := LowestBit.dvd h
  have hodd : c % 2 = 1 := by
    have hbit := h.1
    rw [BitVec.getLsbD, hc, Nat.testBit_two_pow_mul] at hbit
    simpa using hbit
  have hsum : x.toNat + 2 ^ k = 2 ^ (k + 1) * ((c + 1) / 2) := by
    have hc' : c + 1 = 2 * ((c + 1) / 2) := by omega
    calc x.toNat + 2 ^ k = 2 ^ k * (c + 1) := by rw [hc]; ring
      _ = 2 ^ k * (2 * ((c + 1) / 2)) := by rw [← hc']
      _ = 2 ^ (k + 1) * ((c + 1) / 2) := by ring
  rw [BitVec.getLsbD, BitVec.toNat_add, BitVec.toNat_twoPow,
    Nat.mod_eq_of_lt (Nat.pow_lt_pow_right (by norm_num) hk), hsum, Nat.testBit_mod_two_pow,
    Nat.testBit_two_pow_mul]
  have hlt : ¬ k + 1 ≤ i := by omega
  simp [hlt]

lemma exists_run (hx : x ≠ 0) : ∃ low high, Run x low high := by
  obtain ⟨low, hlow⟩ := exists_lowestBit hx
  by_cases hp : x + BitVec.twoPow 64 low = 0
  · refine ⟨low, 64, hlow.lt, le_rfl, hlow, ?_, fun _ => hp⟩
    intro h
    omega
  · obtain ⟨high, hhigh⟩ := exists_lowestBit hp
    refine ⟨low, high, ?_, hhigh.lt.le, hlow, fun _ => hhigh, ?_⟩
    · by_contra hle
      have hbit := hhigh.1
      rw [getLsbD_add_lowest hlow (not_lt.mp hle)] at hbit
      cases hbit
    · intro h
      have := hhigh.lt
      omega

/-- The bit above a run, zero if the run reaches the end of the word. -/
def topBit (high : ℕ) : BitVec 64 := BitVec.twoPow 64 high

lemma topBit_eq_zero : topBit 64 = 0 := by decide

lemma isolate_next {low high : ℕ} (h : Run x low high) :
    isolateRightmostBit (x + BitVec.twoPow 64 low) = topBit high := by
  rcases h.le.lt_or_eq with hlt | rfl
  · exact isolateRightmostBit_eq (h.next hlt)
  · rw [h.top rfl, topBit_eq_zero]
    decide

/-! ### One iteration -/

variable {multiplicand : BitVec 64} {k low high : ℕ} {r : Recoding}

/-- A bit that is not set is added. -/
lemma or_twoPow (h : x.getLsbD i = false) : x ||| BitVec.twoPow 64 i = x + BitVec.twoPow 64 i := by
  refine (BitVec.add_eq_or_of_and_eq_zero _ _ (BitVec.eq_of_getLsbD_eq fun j _ => ?_)).symm
  rw [BitVec.getLsbD_and, BitVec.getLsbD_twoPow, BitVec.getLsbD_zero]
  by_cases hij : i = j
  · subst hij
    simp [h]
  · simp [hij]

/-- A bit that is set is removed. -/
lemma xor_twoPow (h : x.getLsbD i = true) : x ^^^ BitVec.twoPow 64 i = x - BitVec.twoPow 64 i := by
  have hi : i < 64 := BitVec.lt_of_getLsbD h
  have hoff : (x ^^^ BitVec.twoPow 64 i).getLsbD i = false := by
    rw [BitVec.getLsbD_xor, BitVec.getLsbD_twoPow, h]
    simp [hi]
  have hback : (x ^^^ BitVec.twoPow 64 i) ||| BitVec.twoPow 64 i = x := by
    apply BitVec.eq_of_getLsbD_eq
    intro j hj
    rw [BitVec.getLsbD_or, BitVec.getLsbD_xor, BitVec.getLsbD_twoPow]
    by_cases hij : i = j
    · subst hij
      simp [h, hi]
    · simp [hij]
  rw [or_twoPow hoff] at hback
  exact BitVec.eq_sub_iff_add_eq.mpr hback

lemma twoPow_succ (i : ℕ) : BitVec.twoPow 64 (i + 1) = BitVec.twoPow 64 i + BitVec.twoPow 64 i := by
  apply BitVec.eq_of_toNat_eq
  rw [BitVec.toNat_add, BitVec.toNat_twoPow, BitVec.toNat_twoPow, ← Nat.add_mod, pow_succ, mul_two]

/-- What is left of the factor when the run is taken away. -/
def Run.remaining (x : BitVec 64) (low high : ℕ) : BitVec 64 :=
  (x + BitVec.twoPow 64 low) ^^^ topBit high

lemma Run.remaining_eq (h : Run r.x low high) :
    remaining r.x low high = r.x + BitVec.twoPow 64 low - topBit high := by
  rcases h.le.lt_or_eq with hlt | rfl
  · exact xor_twoPow (h.next hlt).1
  · rw [remaining, topBit_eq_zero, h.top rfl]
    decide

lemma Run.remaining_low (h : Run r.x low high) (hi : i < high + 1) :
    (remaining r.x low high).getLsbD i = false := by
  rcases h.le.lt_or_eq with hlt | rfl
  · rw [remaining, topBit, BitVec.getLsbD_xor, BitVec.getLsbD_twoPow]
    rcases Nat.lt_succ_iff_lt_or_eq.mp hi with hlow | rfl
    · simp [(h.next hlt).2 i hlow, hlow.ne']
    · simp [(h.next hlt).1, hlt]
  · rw [h.remaining_eq, h.top rfl, topBit_eq_zero]
    exact BitVec.getLsbD_zero

lemma step_eq (h : Run r.x low high) :
    r.step = { (if high = low + 1 then { r with add := r.add ||| BitVec.twoPow 64 low }
      else r.rewriteRun low high) with x := Run.remaining r.x low high } := by
  have hhigh : (if topBit high ≠ 0 then indexOfSingleBit (topBit high) else 64) = high := by
    rcases h.le.lt_or_eq with hlt | rfl
    · have hne : topBit high ≠ 0 := by
        intro hzero
        have hbit : (topBit high).getLsbD high = (0#64).getLsbD high := by rw [hzero]; rfl
        rw [topBit, BitVec.getLsbD_twoPow] at hbit
        simp [hlt] at hbit
      rw [if_pos hne, topBit, indexOfSingleBit_twoPow hlt]
    · rw [topBit_eq_zero, if_neg (by decide)]
  rw [Recoding.step]
  simp only [indexOfRightmostBit_eq h.lowest, ← BitVec.twoPow_eq, isolate_next h, hhigh]
  rfl

lemma twoPow_ushiftRight_one (hlow : low ≠ 0) (hlt : low < 64) :
    BitVec.twoPow 64 low >>> 1 = BitVec.twoPow 64 (low - 1) := by
  apply BitVec.eq_of_getLsbD_eq
  intro i hi
  rw [BitVec.getLsbD_ushiftRight, BitVec.getLsbD_twoPow, BitVec.getLsbD_twoPow, Bool.eq_iff_iff]
  simp only [Bool.and_eq_true, decide_eq_true_eq]
  omega

lemma and_twoPow_ne_zero : x &&& BitVec.twoPow 64 i ≠ 0 ↔ x.getLsbD i = true := by
  rw [BitVec.and_twoPow]
  split
  · next h =>
    have hi : i < 64 := BitVec.lt_of_getLsbD h
    refine iff_of_true ?_ h
    intro hzero
    have hbit : (BitVec.twoPow 64 i).getLsbD i = (0#64).getLsbD i := by rw [hzero]; rfl
    rw [BitVec.getLsbD_twoPow] at hbit
    simp [hi] at hbit
  · next h => exact iff_of_false (by simp) h

/-- The parts that recode the lower end of a run, which change the bit below it if that is going to
be added. -/
lemma lowerEnd_eq (hlt : low < 64) (hk : k ≤ low) (hinv : r.Inv multiplicand k) :
    ∃ add sub, (if low ≠ 0 ∧ r.add &&& (BitVec.twoPow 64 low >>> 1) ≠ 0 then
        { r with add := r.add ^^^ (BitVec.twoPow 64 low >>> 1),
                 sub := r.sub ^^^ (BitVec.twoPow 64 low >>> 1) }
      else { r with sub := r.sub ||| BitVec.twoPow 64 low } : Recoding) = ⟨r.x, add, sub⟩ ∧
      add - sub = r.add - r.sub - BitVec.twoPow 64 low ∧ add &&& sub = 0 ∧
      Below low add ∧ Below (low + 1) sub := by
  have hsub : ∀ i, low - 1 ≤ i → r.sub.getLsbD i = false := fun i hi =>
    hinv.sub_below i (by omega)
  have hdis : ∀ i, (r.add.getLsbD i && r.sub.getLsbD i) = false := by
    intro i
    rw [← BitVec.getLsbD_and, hinv.disjoint]
    exact BitVec.getLsbD_zero
  split
  · next hcond =>
    obtain ⟨hlow, hbit⟩ := hcond
    rw [twoPow_ushiftRight_one hlow hlt] at hbit ⊢
    rw [and_twoPow_ne_zero] at hbit
    have hoff : r.sub.getLsbD (low - 1) = false := hsub _ le_rfl
    refine ⟨_, _, rfl, ?_, ?_, ?_, ?_⟩
    · have hxor : r.sub ^^^ BitVec.twoPow 64 (low - 1) = r.sub + BitVec.twoPow 64 (low - 1) := by
        rw [← or_twoPow hoff]
        apply BitVec.eq_of_getLsbD_eq
        intro i hi
        rw [BitVec.getLsbD_xor, BitVec.getLsbD_or, BitVec.getLsbD_twoPow]
        by_cases heq : low - 1 = i
        · subst heq
          simp [hoff]
        · simp [heq]
      have hdouble : BitVec.twoPow 64 low =
          BitVec.twoPow 64 (low - 1) + BitVec.twoPow 64 (low - 1) := by
        rw [← twoPow_succ, Nat.sub_add_cancel (Nat.pos_of_ne_zero hlow)]
      rw [xor_twoPow hbit, hxor, hdouble]
      ring
    · apply BitVec.eq_of_getLsbD_eq
      intro i hi
      rw [BitVec.getLsbD_and, BitVec.getLsbD_xor, BitVec.getLsbD_xor, BitVec.getLsbD_twoPow]
      by_cases heq : low - 1 = i
      · subst heq
        simp [hbit, hi]
      · have hi' := hdis i
        simpa [heq] using hi'
    · intro i hi
      rw [BitVec.getLsbD_xor, BitVec.getLsbD_twoPow, hinv.add_below i (by omega)]
      have hne : low - 1 ≠ i := by omega
      simp [hne]
    · intro i hi
      rw [BitVec.getLsbD_xor, BitVec.getLsbD_twoPow, hsub i (by omega)]
      have hne : low - 1 ≠ i := by omega
      simp [hne]
  · refine ⟨_, _, rfl, ?_, ?_, hinv.add_below.mono hk, ?_⟩
    · rw [or_twoPow (hsub low (by omega))]
      ring
    · apply BitVec.eq_of_getLsbD_eq
      intro i hi
      rw [BitVec.getLsbD_and, BitVec.getLsbD_or, BitVec.getLsbD_twoPow]
      by_cases heq : low = i
      · subst heq
        simp [hinv.add_below low hk]
      · have hi' := hdis i
        simpa [heq] using hi'
    · intro i hi
      rw [BitVec.getLsbD_or, BitVec.getLsbD_twoPow, hsub i (by omega)]
      have hne : low ≠ i := by omega
      simp [hne]

/-- A run of several ones is replaced by a difference of two powers. -/
lemma rewriteRun_eq (h : Run r.x low high) (hk : k ≤ low) (hinv : r.Inv multiplicand k) :
    ∃ add sub, r.rewriteRun low high = ⟨r.x, add ||| topBit high, sub⟩ ∧
      add - sub = r.add - r.sub - BitVec.twoPow 64 low ∧ add &&& sub = 0 ∧
      Below low add ∧ Below (low + 1) sub := by
  obtain ⟨add, sub, heq, hrest⟩ := lowerEnd_eq h.lowest.lt hk hinv
  refine ⟨add, sub, ?_, hrest⟩
  rw [Recoding.rewriteRun]
  simp only [← BitVec.twoPow_eq]
  rw [heq]
  split
  · rfl
  · next htop =>
    rw [not_not] at htop
    rw [htop, topBit_eq_zero]
    simp

/-- The ones between `k` and the end of the run are recoded, too. -/
lemma Recoding.Inv.step (hinv : r.Inv multiplicand k) (h : Run r.x low high) :
    r.step.Inv multiplicand (high + 1) := by
  have hk : k ≤ low := by
    by_contra hlt
    have hbit := h.lowest.1
    rw [hinv.rest low (not_le.mp hlt)] at hbit
    cases hbit
  have hlt := h.lt
  rw [step_eq h]
  split
  · next hsingle =>
    -- A single one is added.
    subst hsingle
    have hoff := hinv.add_below low hk
    refine ⟨?_, ?_, fun i hi => h.remaining_low hi, ?_, hinv.sub_below.mono (by omega)⟩
    · have hsum := hinv.sum_eq
      simp only
      rw [or_twoPow hoff, h.remaining_eq, topBit, twoPow_succ, ← hsum]
      ring
    · apply BitVec.eq_of_getLsbD_eq
      intro i hi
      have hdis : (r.add.getLsbD i && r.sub.getLsbD i) = false := by
        rw [← BitVec.getLsbD_and, hinv.disjoint]
        exact BitVec.getLsbD_zero
      rw [BitVec.getLsbD_and, BitVec.getLsbD_or, BitVec.getLsbD_twoPow]
      by_cases heq : low = i
      · subst heq
        simp [hinv.sub_below low (by omega)]
      · simpa [heq] using hdis
    · intro i hi
      rw [BitVec.getLsbD_or, BitVec.getLsbD_twoPow, hinv.add_below i (by omega)]
      have hne : low ≠ i := by omega
      simp [hne]
  · next hsingle =>
    -- A longer run is a difference.
    obtain ⟨add, sub, heq, hdiff, hdis, hadd, hsub⟩ := rewriteRun_eq h hk hinv
    rw [heq]
    have hoff : add.getLsbD high = false := hadd high (by omega)
    refine ⟨?_, ?_, fun i hi => h.remaining_low hi, ?_, hsub.mono (by omega)⟩
    · have hsum := hinv.sum_eq
      have hadd' : add = r.add - r.sub - BitVec.twoPow 64 low + sub := by
        rw [← hdiff]
        ring
      simp only
      rw [topBit, or_twoPow hoff, h.remaining_eq, topBit, ← hsum, hadd']
      ring
    · apply BitVec.eq_of_getLsbD_eq
      intro i hi
      have hi' : (add.getLsbD i && sub.getLsbD i) = false := by
        rw [← BitVec.getLsbD_and, hdis]
        exact BitVec.getLsbD_zero
      rw [BitVec.getLsbD_and, BitVec.getLsbD_or, topBit, BitVec.getLsbD_twoPow]
      by_cases heq : high = i
      · subst heq
        simp [hsub high (by omega)]
      · simpa [heq] using hi'
    · intro i hi
      rw [BitVec.getLsbD_or, topBit, BitVec.getLsbD_twoPow, hadd i (by omega)]
      have hne : high ≠ i := by omega
      simp [hne]

/-- The loop ends after at most one iteration for each bit that is left. -/
lemma Recoding.Inv.loop (fuel : ℕ) : ∀ {k : ℕ} {r : Recoding}, r.Inv multiplicand k →
    64 ≤ k + fuel → ∃ r', r.loop fuel = some r' ∧ r'.add - r'.sub = multiplicand ∧
      r'.add &&& r'.sub = 0 := by
  have hdone : ∀ {k : ℕ} {r : Recoding}, r.Inv multiplicand k → r.x = 0 →
      r.add - r.sub = multiplicand ∧ r.add &&& r.sub = 0 := by
    intro k r hinv hzero
    refine ⟨?_, hinv.disjoint⟩
    rw [← hinv.sum_eq, hzero, add_zero]
  induction fuel with
  | zero =>
    intro k r hinv hle
    have hzero : r.x = 0 := by
      apply BitVec.eq_of_getLsbD_eq
      intro i hi
      rw [hinv.rest i (by omega)]
      exact BitVec.getLsbD_zero.symm
    exact ⟨r, if_pos hzero, hdone hinv hzero⟩
  | succ fuel ih =>
    intro k r hinv hle
    rw [Recoding.loop]
    split
    · next hzero => exact ⟨r, rfl, hdone hinv hzero⟩
    · next hne =>
      obtain ⟨low, high, hrun⟩ := exists_run hne
      have hlow : k ≤ low := by
        by_contra hlt
        have hbit := hrun.lowest.1
        rw [hinv.rest low (not_le.mp hlt)] at hbit
        cases hbit
      have hlt := hrun.lt
      exact ih (hinv.step hrun) (by omega)

/-- The factor is the difference of two numbers without a common bit. -/
theorem computeMultConstants64_spec (x : BitVec 64) :
    ∃ add sub, computeMultConstants64 x = some (add, sub) ∧ add - sub = x ∧ add &&& sub = 0 := by
  have hinit : Recoding.Inv x 0 ⟨x, 0, 0⟩ :=
    ⟨by simp, by simp, fun i hi => absurd hi (Nat.not_lt_zero i), fun i _ => BitVec.getLsbD_zero,
      fun i _ => BitVec.getLsbD_zero⟩
  obtain ⟨r, hloop, hdiff, hdis⟩ := hinit.loop 64 (by omega)
  refine ⟨r.add, r.sub, ?_, hdiff, hdis⟩
  rw [computeMultConstants64, hloop, Option.bind_some, if_pos hdiff.symm]

/-! ### Logarithms and powers -/

/-- The number of ones. -/
def ones (x : BitVec 32) : BitVec 32 :=
  let x := x - ((x >>> 1) &&& 0x55555555)
  let x := ((x >>> 2) &&& 0x33333333) + (x &&& 0x33333333)
  let x := ((x >>> 4) + x) &&& 0x0f0f0f0f
  let x := x + (x >>> 8)
  let x := x + (x >>> 16)
  x &&& 0x0000003f

/-- The ones of a word are copied to all lower positions. -/
def smear (x : BitVec 32) : BitVec 32 :=
  let x := x ||| (x >>> 1)
  let x := x ||| (x >>> 2)
  let x := x ||| (x >>> 4)
  let x := x ||| (x >>> 8)
  x ||| (x >>> 16)

/-- The number of leading zeroes. -/
def ldz (x : BitVec 32) : BitVec 32 := 32 - ones (smear x)

/-- The macro `LOG2_CEIL`. -/
def log2Ceil (x : BitVec 32) : BitVec 32 := 32 - ldz (x - 1)

/-- `exp_base_2`.  For `n = 32` the number shifted is zero. -/
def expBase2 (n : BitVec 32) : BitVec 32 :=
  let x := ~~~n &&& (n - 32)
  (x >>> 31) <<< n

/-- A step of `smear` doubles the distance up to which ones are copied. -/
lemma getLsbD_or_ushiftRight {x y : BitVec 32} {m : ℕ}
    (h : ∀ i, y.getLsbD i = true ↔ ∃ j < m, x.getLsbD (i + j) = true) (i : ℕ) :
    (y ||| (y >>> m)).getLsbD i = true ↔ ∃ j < m + m, x.getLsbD (i + j) = true := by
  rw [BitVec.getLsbD_or, BitVec.getLsbD_ushiftRight, Bool.or_eq_true, h, h]
  constructor
  · rintro (⟨j, hj, hbit⟩ | ⟨j, hj, hbit⟩)
    · exact ⟨j, by omega, hbit⟩
    · exact ⟨m + j, by omega, by rwa [show i + (m + j) = m + i + j by omega]⟩
  · rintro ⟨j, hj, hbit⟩
    rcases Nat.lt_or_ge j m with hlt | hge
    · exact Or.inl ⟨j, hlt, hbit⟩
    · exact Or.inr ⟨j - m, by omega, by rwa [show m + i + (j - m) = i + j by omega]⟩

lemma smear_eq (x : BitVec 32) : smear x = BitVec.ofNat 32 (2 ^ x.toNat.size - 1) := by
  have h₀ : ∀ i, x.getLsbD i = true ↔ ∃ j < 1, x.getLsbD (i + j) = true := fun i =>
    ⟨fun h => ⟨0, Nat.one_pos, h⟩, fun ⟨j, hj, h⟩ => by rwa [Nat.lt_one_iff.mp hj] at h⟩
  have hcopy := getLsbD_or_ushiftRight (getLsbD_or_ushiftRight (getLsbD_or_ushiftRight
    (getLsbD_or_ushiftRight (getLsbD_or_ushiftRight h₀))))
  apply BitVec.eq_of_getLsbD_eq
  intro i hi
  rw [BitVec.getLsbD_ofNat, Nat.testBit_two_pow_sub_one, Bool.eq_iff_iff]
  refine (hcopy i).trans ?_
  simp only [hi, decide_true, Bool.true_and, decide_eq_true_eq, Nat.lt_size]
  constructor
  · rintro ⟨j, -, hbit⟩
    exact (Nat.pow_le_pow_right (by norm_num) (Nat.le_add_right i j)).trans
      (Nat.ge_two_pow_of_testBit hbit)
  · intro hle
    obtain ⟨m, hm, hbit⟩ := Nat.exists_ge_and_testBit_of_ge_two_pow hle
    have hm32 : m < 32 := BitVec.lt_of_getLsbD hbit
    exact ⟨m - i, by omega, by rwa [Nat.add_sub_cancel' hm]⟩

lemma ones_eq {k : ℕ} (hk : k ≤ 32) : ones (BitVec.ofNat 32 (2 ^ k - 1)) = BitVec.ofNat 32 k := by
  have hall : ∀ k : Fin 33, ones (BitVec.ofNat 32 (2 ^ (k : ℕ) - 1)) = BitVec.ofNat 32 k := by
    decide
  exact hall ⟨k, Nat.lt_succ_of_le hk⟩

lemma log2Ceil_eq (d : BitVec 32) : log2Ceil d = BitVec.ofNat 32 (d - 1).toNat.size := by
  have hsize : (d - 1).toNat.size ≤ 32 := Nat.size_le.mpr (d - 1).isLt
  rw [log2Ceil, ldz, smear_eq, ones_eq hsize]
  ring

/-- The rounded logarithm. -/
lemma log2Ceil_spec (hd : d ≠ 0) :
    ∃ l ≤ 32, log2Ceil d = BitVec.ofNat 32 l ∧ d.toNat ≤ 2 ^ l ∧ 2 ^ l < 2 * d.toNat := by
  have hne : d.toNat ≠ 0 := by
    intro hzero
    exact hd (BitVec.eq_of_toNat_eq hzero)
  have hpred : (d - 1).toNat = d.toNat - 1 := by
    have hlt := d.isLt
    have hone : (1 : BitVec 32).toNat = 1 := rfl
    rw [BitVec.toNat_sub, hone]
    omega
  refine ⟨_, Nat.size_le.mpr (d - 1).isLt, log2Ceil_eq d, ?_⟩
  rw [hpred]
  exact InvariantDivision.size_pred_spec hne

lemma expBase2_eq {k : ℕ} (hk : k ≤ 32) :
    expBase2 (BitVec.ofNat 32 k) = BitVec.ofNat 32 (2 ^ k) := by
  have hall : ∀ k : Fin 33, expBase2 (BitVec.ofNat 32 k) = BitVec.ofNat 32 (2 ^ (k : ℕ)) := by
    decide
  exact hall ⟨k, Nat.lt_succ_of_le hk⟩

/-! ### Quotients -/

/-- What `ComputeUDivConstants32` returns. -/
structure UDivConstants where
  mprime : BitVec 32
  sh1 : BitVec 32
  sh2 : BitVec 32

def computeUDivConstants32 (d : BitVec 32) : UDivConstants :=
  let l := log2Ceil d
  let mid := expBase2 l - d
  { mprime := ((1#64 <<< 32) * mid.setWidth 64 / d.setWidth 64 + 1).setWidth 32
    sh1 := if l.slt 1 then l else 1
    sh2 := if (l - 1).slt 0 then 0 else l - 1 }

/-- The constants of an unsigned division, in numbers. -/
structure UDivConstants.Spec (c : UDivConstants) (d l : ℕ) : Prop where
  le_32 : l ≤ 32
  le : d ≤ 2 ^ l
  mprime_eq : c.mprime.toNat + 2 ^ 32 = 2 ^ (32 + l) / d + 1
  sh1_eq : c.sh1.toNat = min l 1
  sh2_eq : c.sh2.toNat = l - 1

/-- The multiplier without its highest bit, which is the same for all divisors. -/
lemma mul_sub_div {d : ℕ} (hd : d ≠ 0) (hle : d ≤ 2 ^ l) :
    2 ^ 32 * (2 ^ l - d) / d + 1 + 2 ^ 32 = 2 ^ (32 + l) / d + 1 := by
  have hsplit : 2 ^ (32 + l) = 2 ^ 32 * (2 ^ l - d) + 2 ^ 32 * d := by
    rw [← Nat.mul_add, Nat.sub_add_cancel hle, pow_add]
  rw [hsplit, Nat.add_mul_div_right _ _ (Nat.pos_of_ne_zero hd)]
  omega

lemma mul_sub_div_lt {d : ℕ} (hd : d ≠ 0) (hlt : d < 2 ^ 32) (hl : 2 ^ l < 2 * d) :
    2 ^ 32 * (2 ^ l - d) / d + 1 < 2 ^ 32 := by
  have hmul : 2 ^ 32 * (2 ^ l - d) < (2 ^ 32 - 1) * d := by
    have hle : 2 ^ l - d ≤ d - 1 := by omega
    have := Nat.mul_le_mul_left (2 ^ 32) hle
    have hexp : 2 ^ 32 * (d - 1) = 2 ^ 32 * d - 2 ^ 32 := by rw [Nat.mul_sub, Nat.mul_one]
    omega
  have hdiv := (Nat.div_lt_iff_lt_mul (Nat.pos_of_ne_zero hd)).mpr hmul
  omega

lemma toNat_setWidth64 (x : BitVec 32) : (x.setWidth 64).toNat = x.toNat := by
  have hlt := x.isLt
  rw [BitVec.toNat_setWidth, Nat.mod_eq_of_lt (by omega)]

/-- The smaller and the larger of small numbers do not depend on the sign. -/
lemma shifts_eq (hl : l ≤ 32) :
    (if (BitVec.ofNat 32 l).slt 1 then BitVec.ofNat 32 l else 1).toNat = min l 1 ∧
      (if (BitVec.ofNat 32 l - 1).slt 0 then 0 else BitVec.ofNat 32 l - 1).toNat = l - 1 := by
  have hall : ∀ l : Fin 33,
      (if (BitVec.ofNat 32 l).slt 1 then BitVec.ofNat 32 l else 1).toNat = min l.1 1 ∧
        (if (BitVec.ofNat 32 l - 1).slt 0 then 0 else BitVec.ofNat 32 l - 1).toNat = l.1 - 1 := by
    decide
  exact hall ⟨l, Nat.lt_succ_of_le hl⟩

/-- The constants of an unsigned division. -/
theorem computeUDivConstants32_spec (hd : d ≠ 0) :
    ∃ l, (computeUDivConstants32 d).Spec d.toNat l := by
  obtain ⟨l, hl32, hlog, hle, hlt⟩ := log2Ceil_spec hd
  have hne : d.toNat ≠ 0 := fun hzero => hd (BitVec.eq_of_toNat_eq hzero)
  have hdlt := d.isLt
  have hmid : (expBase2 (BitVec.ofNat 32 l) - d).toNat = 2 ^ l - d.toNat := by
    have hpow : 2 ^ l ≤ 2 ^ 32 := Nat.pow_le_pow_right (by norm_num) hl32
    rw [expBase2_eq hl32, BitVec.toNat_sub, BitVec.toNat_ofNat]
    rcases hpow.lt_or_eq with hlt' | heq
    · rw [Nat.mod_eq_of_lt hlt']
      omega
    · rw [heq]
      omega
  have hmidlt := (expBase2 (BitVec.ofNat 32 l) - d).isLt
  refine ⟨l, hl32, hle, ?_, ?_, ?_⟩
  · rw [computeUDivConstants32, hlog, ← mul_sub_div hne hle]
    have hbound := mul_sub_div_lt hne hdlt hlt
    have hshift : (1#64 <<< 32).toNat = 2 ^ 32 := by decide
    simp only
    rw [BitVec.toNat_setWidth, BitVec.toNat_add, BitVec.toNat_udiv, BitVec.toNat_mul,
      toNat_setWidth64, toNat_setWidth64, hshift, hmid]
    have hone : (1 : BitVec 64).toNat = 1 := rfl
    rw [hone, Nat.mod_eq_of_lt (a := 2 ^ 32 * (2 ^ l - d.toNat)) (by omega),
      Nat.mod_eq_of_lt (a := _ + 1) (by omega), Nat.mod_eq_of_lt hbound]
  · rw [computeUDivConstants32, hlog]
    exact (shifts_eq hl32).1
  · rw [computeUDivConstants32, hlog]
    exact (shifts_eq hl32).2

/-- What `ComputeSDivConstants32` returns. -/
structure SDivConstants where
  mprime : BitVec 32
  dsign : BitVec 32
  shpost : BitVec 32

def computeSDivConstants32 (d : BitVec 32) : SDivConstants :=
  let d64 := d.signExtend 64
  let absD := if (0 : BitVec 64).slt d64 then d64 else -d64
  let log := log2Ceil (absD.setWidth 32)
  let l := if (1 : BitVec 32).ult log then log else 1
  let l := if absD = 1#64 <<< 31 then 31 else l
  let mid := expBase2 (l - 1)
  let m := (1#64 <<< 32) * mid.setWidth 64 / absD + 1
  { mprime := (m - 1#64 <<< 32).setWidth 32
    dsign := d.sshiftRight 31
    shpost := l - 1 }

/-- The constants of a signed division, in numbers. -/
structure SDivConstants.Spec (c : SDivConstants) (d : BitVec 32) (l : ℕ) : Prop where
  pos : 1 ≤ l
  le_31 : l ≤ 31
  le : d.toInt.natAbs ≤ 2 ^ l
  mprime_nonpos : c.mprime.toInt ≤ 0
  mprime_eq : c.mprime.toInt + 2 ^ 32 = ((2 ^ (31 + l) / d.toInt.natAbs + 1 : ℕ) : ℤ)
  dsign_eq : c.dsign = if d.msb then BitVec.allOnes 32 else 0
  shpost_eq : c.shpost.toNat = l - 1

/-- The absolute value, in 64 bits. -/
lemma absD_toNat (d : BitVec 32) : (if (0 : BitVec 64).slt (d.signExtend 64) then d.signExtend 64
      else -d.signExtend 64).toNat = d.toInt.natAbs := by
  have hext : (d.signExtend 64).toInt = d.toInt := BitVec.toInt_signExtend_of_le (by norm_num)
  have hcond := BitVec.toInt_eq_toNat_cond (d.signExtend 64)
  have hbits := (d.signExtend 64).isLt
  have hlt := BitVec.toInt_lt (x := d)
  have hle := BitVec.le_toInt d
  have hzero : (0 : BitVec 64).toInt = 0 := rfl
  rw [hext] at hcond
  rw [BitVec.slt_eq_decide, hext, hzero]
  split_ifs at hcond ⊢ with h₁ h₂ h₂ <;> simp only [decide_eq_true_eq] at * <;>
    first | rw [BitVec.toNat_neg] | skip
  all_goals omega

/-- The sign in all bits. -/
lemma sshiftRight_31 (d : BitVec 32) :
    d.sshiftRight 31 = if d.msb then BitVec.allOnes 32 else 0 := by
  apply BitVec.eq_of_getLsbD_eq
  intro i hi
  rw [BitVec.getLsbD_sshiftRight]
  have hmsb : d.msb = d.getLsbD 31 := BitVec.msb_eq_getLsbD_last d
  rcases Nat.eq_zero_or_pos i with rfl | hpos
  · rw [hmsb]
    cases d.getLsbD 31 <;> simp
  · have hge : ¬ 31 + i < 32 := by omega
    cases hd : d.msb with
    | false => simp [hge]
    | true =>
      rw [if_pos rfl, BitVec.getLsbD_allOnes]
      simp [hge, hi]

/-- The number of bits that are shifted out, for a divisor of at least two. -/
lemma sdiv_log_spec {a : BitVec 64} (h2 : 2 ≤ a.toNat) (hle : a.toNat ≤ 2 ^ 31) :
    ∃ l, 1 ≤ l ∧ l ≤ 31 ∧ a.toNat ≤ 2 ^ l ∧ 2 ^ l < 2 * a.toNat ∧
      (if a = 1#64 <<< 31 then 31 else if (1 : BitVec 32).ult (log2Ceil (a.setWidth 32)) then
        log2Ceil (a.setWidth 32) else 1) = BitVec.ofNat 32 l := by
  have hwidth : (a.setWidth 32).toNat = a.toNat := by
    rw [BitVec.toNat_setWidth, Nat.mod_eq_of_lt (by omega)]
  have hne : a.setWidth 32 ≠ 0 := by
    intro hzero
    rw [hzero] at hwidth
    have : (0 : BitVec 32).toNat = 0 := rfl
    omega
  obtain ⟨l, hl32, hlog, hal, hla⟩ := log2Ceil_spec hne
  rw [hwidth] at hal hla
  have hpos : 1 ≤ l := by
    by_contra hlt
    obtain rfl : l = 0 := by omega
    norm_num at hal
    omega
  have h31 : l ≤ 31 := by
    by_contra hgt
    obtain rfl : l = 32 := by omega
    omega
  refine ⟨l, hpos, h31, hal, hla, ?_⟩
  rw [hlog]
  split_ifs with htop hone
  · have hatop : a.toNat = 2 ^ 31 := by rw [htop]; decide
    have hl31 : l = 31 := by
      have hlt : 2 ^ 30 < 2 ^ l := by omega
      have := (Nat.pow_lt_pow_iff_right (by norm_num)).mp hlt
      omega
    rw [hl31]
    rfl
  · rfl
  · -- the logarithm is one
    have hlone : l = 1 := by
      have hlt : l % 2 ^ 32 = l := Nat.mod_eq_of_lt (by omega)
      rw [BitVec.ult_eq_decide, decide_eq_true_eq, BitVec.toNat_ofNat, hlt] at hone
      have : (1 : BitVec 32).toNat = 1 := rfl
      omega
    rw [hlone]
    rfl

/-- The constants of a signed division. -/
theorem computeSDivConstants32_spec (hd : 2 ≤ d.toInt.natAbs) :
    ∃ l, (computeSDivConstants32 d).Spec d l := by
  have habs := absD_toNat d
  have hlt := BitVec.toInt_lt (x := d)
  have hge := BitVec.le_toInt d
  set a : BitVec 64 := if (0 : BitVec 64).slt (d.signExtend 64) then d.signExtend 64
    else -d.signExtend 64 with ha
  obtain ⟨l, hpos, h31, hal, hla, hl⟩ := sdiv_log_spec (a := a) (by omega) (by omega)
  rw [habs] at hal hla
  have hpred : BitVec.ofNat 32 l - 1 = BitVec.ofNat 32 (l - 1) := by
    apply BitVec.eq_of_toNat_eq
    have hone : (1 : BitVec 32).toNat = 1 := rfl
    rw [BitVec.toNat_sub, BitVec.toNat_ofNat, BitVec.toNat_ofNat, hone]
    omega
  have hc : computeSDivConstants32 d =
      { mprime := ((1#64 <<< 32) * (expBase2 (BitVec.ofNat 32 (l - 1))).setWidth 64 / a +
          (1 : BitVec 64) - 1#64 <<< 32).setWidth 32
        dsign := d.sshiftRight 31
        shpost := BitVec.ofNat 32 (l - 1) } := by
    rw [computeSDivConstants32]
    simp only [← ha, hl, hpred]
  have hint : (computeSDivConstants32 d).mprime.toInt =
      (2 ^ (31 + l) / d.toInt.natAbs : ℕ) + 1 - 2 ^ 32 ∧
      2 ^ (31 + l) / d.toInt.natAbs < 2 ^ 32 := by
    rw [hc]
    -- The multiplier lies between `2 ^ 31` and `2 ^ 32`, so that `mprime` is negative or zero.
    have hpow : 2 ^ (l - 1) < 2 ^ 32 := Nat.pow_lt_pow_right (by norm_num) (by omega)
    have hhalf : 2 ^ l = 2 * 2 ^ (l - 1) := by rw [← pow_succ', Nat.sub_add_cancel hpos]
    have hprod : 2 ^ 32 * 2 ^ (l - 1) = 2 ^ (31 + l) := by
      rw [← pow_add]
      congr 1
      omega
    set q := 2 ^ (31 + l) / d.toInt.natAbs with hq
    have hqlt : q < 2 ^ 32 := by
      rw [hq, Nat.div_lt_iff_lt_mul (by omega), ← hprod]
      exact Nat.mul_lt_mul_of_pos_left (by omega) (by norm_num)
    have hqge : 2 ^ 31 ≤ q := by
      rw [hq, Nat.le_div_iff_mul_le (by omega), pow_add]
      exact Nat.mul_le_mul_left _ hal
    have hm : ((1#64 <<< 32) * (expBase2 (BitVec.ofNat 32 (l - 1))).setWidth 64 / a).toNat = q := by
      have hshift : (1#64 <<< 32).toNat = 2 ^ 32 := by decide
      rw [BitVec.toNat_udiv, BitVec.toNat_mul, expBase2_eq (by omega), toNat_setWidth64, hshift,
        BitVec.toNat_ofNat, Nat.mod_eq_of_lt hpow, habs, Nat.mod_eq_of_lt (by omega), hprod]
    have hm' : (((1#64 <<< 32) * (expBase2 (BitVec.ofNat 32 (l - 1))).setWidth 64 / a +
        (1 : BitVec 64) - 1#64 <<< 32).setWidth 32).toNat = (q + 1) % 2 ^ 32 := by
      have hshift : (1#64 <<< 32).toNat = 2 ^ 32 := by decide
      have hone : (1 : BitVec 64).toNat = 1 := rfl
      rw [BitVec.toNat_setWidth, BitVec.toNat_sub, BitVec.toNat_add, hm, hshift, hone]
      omega
    refine ⟨?_, hqlt⟩
    rw [BitVec.toInt_eq_toNat_cond]
    simp only [hm']
    split_ifs with hcond <;> push_cast <;> omega
  refine ⟨l, hpos, h31, hal, by omega, by rw [Nat.cast_add]; omega, ?_, ?_⟩
  · rw [hc]
    exact sshiftRight_31 d
  · rw [hc, BitVec.toNat_ofNat]
    omega

end ConstantDivision

end Castan
