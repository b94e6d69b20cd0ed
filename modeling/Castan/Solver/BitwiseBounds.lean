/-
# The bounds of bitwise operations

The loops `minOR`, `maxOR`, `minAND` and `maxAND` compute the least and the greatest value of a
bitwise operation over two intervals.  The loops for the greatest values are those for the least
ones on the complements.
-/
import Castan.Lib.BitScan
import Castan.Solver.ValueRange

namespace Castan

namespace ValueRange

open BitScan BitVec

variable {a b c d r : BitVec 64} {g g' : BitVec 64 → BitVec 64 → BitVec 64} {k : ℕ}

/-! ### One bit -/

lemma toNat_bit (hk : k < 64) : (1 <<< k : BitVec 64).toNat = 2 ^ k := by
  rw [natCast_eq_ofNat, toNat_ofNat, Nat.one_shiftLeft, Nat.mod_eq_of_lt]
  exact Nat.pow_lt_pow_right Nat.one_lt_two hk

lemma and_bit_ne_zero (hk : k < 64) (x : BitVec 64) :
    x &&& 1 <<< k ≠ 0 ↔ x.toNat / 2 ^ k % 2 = 1 := by
  rw [ne_eq, ← toNat_inj, toNat_and, toNat_bit hk, Nat.and_two_pow, ← Nat.toNat_testBit]
  cases x.toNat.testBit k <;> simp

lemma not_bit (hk : k < 64) (x : BitVec 64) :
    (~~~x).toNat / 2 ^ k % 2 = 1 ↔ x.toNat / 2 ^ k % 2 = 0 := by
  have hnot : (~~~x).toNat.testBit k = !x.toNat.testBit k := by
    rw [← getLsbD, getLsbD_not, decide_eq_true hk, Bool.true_and, getLsbD]
  rw [← Nat.toNat_testBit, ← Nat.toNat_testBit, hnot]
  cases x.toNat.testBit k <;> simp

lemma toNat_raise (hk : k < 64) (h : a.toNat / 2 ^ k % 2 = 0) :
    ((a ||| 1 <<< k) &&& -(1 <<< k)).toNat = raise k a.toNat := by
  have hneg : (-(1 <<< k : BitVec 64)).toNat = 2 ^ k * (2 ^ (64 - k) - 1) := by
    rw [toNat_neg, toNat_bit hk, Nat.mul_sub, ← pow_add, Nat.add_sub_cancel' hk.le, mul_one]
    exact Nat.mod_eq_of_lt (Nat.sub_lt (Nat.two_pow_pos 64) (Nat.two_pow_pos k))
  have hset : (a.toNat ||| 2 ^ k) / 2 ^ k = a.toNat / 2 ^ k + 1 := by
    rw [bitOp_or.div_pow, Nat.div_self (Nat.two_pow_pos k), bitOp_or.eq_bit, h]
    simp
    omega
  have hlt : a.toNat / 2 ^ k + 1 < 2 ^ (64 - k) := by
    have hor := (a ||| 1 <<< k).isLt
    rw [toNat_or, toNat_bit hk] at hor
    refine hset ▸ Nat.div_lt_of_lt_mul ?_
    rwa [← pow_add, Nat.add_sub_cancel' hk.le]
  rw [toNat_and, hneg, toNat_or, toNat_bit hk, ← Nat.div_add_mod (_ &&& _) (2 ^ k),
    bitOp_and.div_pow, bitOp_and.mod_pow, Nat.mul_mod_right, Nat.and_zero,
    Nat.mul_div_cancel_left _ (Nat.two_pow_pos k), hset, Nat.and_two_pow_sub_one_eq_mod,
    Nat.mod_eq_of_lt hlt, add_zero, mul_comm, raise]

lemma and_bit (x y : BitVec 64) :
    (x &&& y).toNat / 2 ^ k % 2 = 1 ↔ x.toNat / 2 ^ k % 2 = 1 ∧ y.toNat / 2 ^ k % 2 = 1 := by
  rw [toNat_and, bitOp_and.div_pow, Nat.and_mod_two_eq_one]

/-! ### Least values -/

theorem minOR_least (hab : a ≤ b) (hcd : c ≤ d) (hk : k ≤ 64) :
    Least (· ||| ·) k a.toNat b.toNat c.toNat d.toNat (minOR k a b c d).toNat := by
  induction k with
  | zero => exact toNat_or a c ▸ Least.zero hab hcd
  | succ k ih =>
    have ih := ih (by omega)
    simp only [minOR, and_bit_ne_zero hk, and_bit, not_bit hk]
    split_ifs with h htemp h' htemp'
    · rw [toNat_or, toNat_raise hk h.1]
      exact .raised bitOp_or h.1 h.2 (toNat_raise hk h.1 ▸ htemp) hcd
    · refine ih.keep bitOp_or (fun _ _ => ?_) fun hc => by omega
      exact toNat_raise hk h.1 ▸ BitVec.not_le.1 htemp
    · rw [toNat_or, toNat_raise hk h'.2, Nat.or_comm]
      exact (Least.raised bitOp_or h'.2 h'.1 (toNat_raise hk h'.2 ▸ htemp') hab).symm bitOp_or
    · refine ih.keep bitOp_or (fun ha => by omega) fun _ _ => ?_
      exact toNat_raise hk h'.2 ▸ BitVec.not_le.1 htemp'
    · exact ih.keep bitOp_or (fun ha hc => absurd ⟨ha, hc⟩ h) fun hc ha => absurd ⟨ha, hc⟩ h'

theorem minAND_least (hab : a ≤ b) (hcd : c ≤ d) (hk : k ≤ 64) :
    Least (· &&& ·) k a.toNat b.toNat c.toNat d.toNat (minAND k a b c d).toNat := by
  induction k with
  | zero => exact toNat_and a c ▸ Least.zero hab hcd
  | succ k ih =>
    have ih := ih (by omega)
    simp only [minAND, and_bit_ne_zero hk, and_bit, not_bit hk]
    split_ifs with h htemp htemp'
    · rw [toNat_and, toNat_raise hk h.1]
      exact .raised bitOp_and h.1 h.2 (toNat_raise hk h.1 ▸ htemp) hcd
    · rw [toNat_and, toNat_raise hk h.2, Nat.and_comm]
      exact (Least.raised bitOp_and h.2 h.1 (toNat_raise hk h.2 ▸ htemp') hab).symm bitOp_and
    · refine ih.keep bitOp_and (fun _ _ => ?_) fun _ _ => ?_
      · exact toNat_raise hk h.1 ▸ BitVec.not_le.1 htemp
      · exact toNat_raise hk h.2 ▸ BitVec.not_le.1 htemp'
    · exact ih.keep bitOp_and (fun ha hc => absurd ⟨ha, hc⟩ h) fun hc ha => absurd ⟨ha, hc⟩ h

/-! ### Complements -/

lemma le_not_comm {x y : BitVec 64} : x ≤ ~~~y ↔ y ≤ ~~~x := by
  bv_omega

/-- A bit that is cleared, with the bits below it raised. -/
lemma not_raise (x m : BitVec 64) : ~~~((~~~x ||| m) &&& -m) = x &&& ~~~m ||| m - 1 := by
  rw [BitVec.not_and, BitVec.not_or, BitVec.not_not, not_neg]
  rfl

lemma maxAND_eq (a b c d : BitVec 64) (k : ℕ) :
    maxAND k a b c d = ~~~minOR k (~~~b) (~~~a) (~~~d) (~~~c) := by
  induction k with
  | zero => rw [maxAND, minOR, BitVec.not_or, BitVec.not_not, BitVec.not_not]
  | succ k ih =>
    simp only [maxAND, minOR, BitVec.not_not, le_not_comm (y := a), le_not_comm (y := c),
      not_raise, apply_ite (~~~·), BitVec.not_or, ih]

lemma and_not_eq_sub (hk : k < 64) {x : BitVec 64} (h : x.toNat / 2 ^ k % 2 = 1) :
    x &&& ~~~(1 <<< k : BitVec 64) = x - 1 <<< k := by
  have hm : x &&& 1 <<< k = 1 <<< k := by
    rw [← toNat_inj, toNat_and, toNat_bit hk, Nat.and_two_pow, Nat.toNat_testBit, h, one_mul]
  refine eq_sub_of_add_eq ?_
  rw [add_eq_or_of_and_eq_zero]
  · calc x &&& ~~~(1 <<< k : BitVec 64) ||| 1 <<< k
        = x &&& ~~~(1 <<< k : BitVec 64) ||| x &&& 1 <<< k := by rw [hm]
      _ = x := by rw [← BitVec.and_or_distrib_left, BitVec.not_or_self, and_allOnes]
  · rw [BitVec.and_assoc]
    simp

lemma maxOR_eq (a b c d : BitVec 64) (hk : k ≤ 64) :
    maxOR k a b c d = ~~~minAND k (~~~b) (~~~a) (~~~d) (~~~c) := by
  induction k with
  | zero => rw [maxOR, minAND, BitVec.not_and, BitVec.not_not, BitVec.not_not]
  | succ k ih =>
    simp only [maxOR, minAND, BitVec.not_not, le_not_comm (y := a), le_not_comm (y := c),
      apply_ite (~~~·), BitVec.not_and, BitVec.not_or, not_neg, ih (by omega)]
    refine ite_congr rfl (fun h => ?_) fun _ => rfl
    obtain ⟨hb, hd⟩ := (and_bit ..).1 ((and_bit_ne_zero hk _).1 h)
    rw [and_not_eq_sub hk hb, and_not_eq_sub hk hd]
    rfl

/-! ### Exact bounds -/

/-- The values of an operation on the numbers between `a` and `b` and those between `c` and `d`. -/
def results (g : BitVec 64 → BitVec 64 → BitVec 64) (a b c d : BitVec 64) : Set (BitVec 64) :=
  {v | ∃ x y, (a ≤ x ∧ x ≤ b) ∧ (c ≤ y ∧ y ≤ d) ∧ g x y = v}

lemma isLeast_of_least {f : ℕ → ℕ → ℕ} (hg : ∀ x y, (g x y).toNat = f x.toNat y.toNat)
    (h : Least f 64 a.toNat b.toNat c.toNat d.toNat r.toNat) : IsLeast (results g a b c d) r := by
  have hdiv : ∀ x y : BitVec 64, x.toNat / 2 ^ 64 = y.toNat / 2 ^ 64 := fun x y => by
    rw [Nat.div_eq_of_lt x.isLt, Nat.div_eq_of_lt y.isLt]
  have hofNat : ∀ {n : ℕ} {z : BitVec 64}, n ≤ z.toNat → (BitVec.ofNat 64 n).toNat = n :=
    fun hn => Nat.mod_eq_of_lt (hn.trans_lt (BitVec.isLt _))
  constructor
  · obtain ⟨x, y, hx, hy, hxy⟩ := h.attained
    refine ⟨.ofNat 64 x, .ofNat 64 y, ?_, ?_, ?_⟩
    · rwa [BitVec.le_def, BitVec.le_def, hofNat hx.2]
    · rwa [BitVec.le_def, BitVec.le_def, hofNat hy.2]
    · rw [← toNat_inj, hg, hofNat hx.2, hofNat hy.2, hxy]
  · rintro - ⟨x, y, hx, hy, rfl⟩
    exact BitVec.le_def.2 (hg x y ▸ h.le hx hy (hdiv x a) (hdiv y c))

lemma isGreatest_of_not (hg : ∀ x y, g (~~~x) (~~~y) = ~~~g' x y)
    (h : IsLeast (results g (~~~b) (~~~a) (~~~d) (~~~c)) r) :
    IsGreatest (results g' a b c d) (~~~r) := by
  obtain ⟨⟨x, y, hx, hy, rfl⟩, hle⟩ := h
  constructor
  · refine ⟨~~~x, ~~~y, by bv_omega, by bv_omega, ?_⟩
    rw [← BitVec.not_inj, ← hg, BitVec.not_not, BitVec.not_not, BitVec.not_not]
  · rintro - ⟨u, v, hu, hv, rfl⟩
    have hle' := hle ⟨~~~u, ~~~v, by bv_omega, by bv_omega, hg u v⟩
    bv_omega

lemma isLeast_minOR (hab : a ≤ b) (hcd : c ≤ d) :
    IsLeast (results (· ||| ·) a b c d) (minOR 64 a b c d) :=
  isLeast_of_least toNat_or (minOR_least hab hcd le_rfl)

lemma isLeast_minAND (hab : a ≤ b) (hcd : c ≤ d) :
    IsLeast (results (· &&& ·) a b c d) (minAND 64 a b c d) :=
  isLeast_of_least toNat_and (minAND_least hab hcd le_rfl)

lemma isGreatest_maxOR (hab : a ≤ b) (hcd : c ≤ d) :
    IsGreatest (results (· ||| ·) a b c d) (maxOR 64 a b c d) := by
  rw [maxOR_eq a b c d le_rfl]
  exact isGreatest_of_not (fun _ _ => BitVec.not_or.symm)
    (isLeast_minAND (by bv_omega) (by bv_omega))

lemma isGreatest_maxAND (hab : a ≤ b) (hcd : c ≤ d) :
    IsGreatest (results (· &&& ·) a b c d) (maxAND 64 a b c d) := by
  rw [maxAND_eq]
  exact isGreatest_of_not (fun _ _ => BitVec.not_and.symm)
    (isLeast_minOR (by bv_omega) (by bv_omega))

/-- The loops return the least and the greatest value of `x ||| y` and of `x &&& y`. -/
theorem bitwise_bounds_exact (hab : a ≤ b) (hcd : c ≤ d) :
    IsLeast (results (· ||| ·) a b c d) (minOR 64 a b c d) ∧
    IsGreatest (results (· ||| ·) a b c d) (maxOR 64 a b c d) ∧
    IsLeast (results (· &&& ·) a b c d) (minAND 64 a b c d) ∧
    IsGreatest (results (· &&& ·) a b c d) (maxAND 64 a b c d) :=
  ⟨isLeast_minOR hab hcd, isGreatest_maxOR hab hcd, isLeast_minAND hab hcd,
    isGreatest_maxAND hab hcd⟩

theorem bitwise_bounds_exact_nibbles :
    IsLeast (results (· ||| ·) 3 6 5 9) 5 ∧ IsGreatest (results (· &&& ·) 3 6 5 9) 6 := by
  have hor : minOR 64 3 6 5 9 = 5 := by decide +kernel
  have hand : maxAND 64 3 6 5 9 = 6 := by decide +kernel
  obtain ⟨hmin, -, -, hmax⟩ :=
    bitwise_bounds_exact (by decide : (3 : BitVec 64) ≤ 6) (by decide : (5 : BitVec 64) ≤ 9)
  rw [hor] at hmin
  rw [hand] at hmax
  exact ⟨hmin, hmax⟩

end ValueRange

end Castan
