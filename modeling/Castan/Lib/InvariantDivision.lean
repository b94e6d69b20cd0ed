/-
# Division by multiplication

A quotient `n / d` is a product with a multiple of the reciprocal of `d`, cut off: if `m * d` lies
between `2 ^ k + 1` and `2 ^ k + 2 ^ (k - N)`, the multiplier `m` serves every `n` up to `2 ^ N`.
The number of bits of a word and the two roundings of the product, down for the numbers that are
not negative and up for the others, are here.
-/
import Mathlib

namespace Castan

namespace InvariantDivision

/-! ### The least power of two -/

/-- The number of bits of `d - 1` is the logarithm of `d`, rounded up. -/
lemma size_pred_spec {d : ℕ} (hd : d ≠ 0) : d ≤ 2 ^ (d - 1).size ∧ 2 ^ (d - 1).size < 2 * d := by
  refine ⟨Nat.le_of_pred_lt (Nat.lt_size_self _), ?_⟩
  rcases Nat.eq_zero_or_pos (d - 1).size with hzero | hpos
  · rw [hzero]
    omega
  · have hle : 2 ^ ((d - 1).size - 1) ≤ d - 1 := Nat.lt_size.mp (by omega)
    have hsucc : 2 ^ (d - 1).size = 2 * 2 ^ ((d - 1).size - 1) := by
      rw [← pow_succ', Nat.sub_add_cancel hpos]
    omega

/-! ### The multiplier -/

/-- `m` is the reciprocal of `d`, times `2 ^ k` and rounded up by at most `2 ^ l / d`. -/
structure Multiplier (d m k l : ℕ) : Prop where
  lower : 2 ^ k < m * d
  upper : m * d ≤ 2 ^ k + 2 ^ l

/-- The quotient by `d`, rounded down and increased, is a multiplier. -/
lemma multiplier_div {d k l : ℕ} (hd : d ≠ 0) (hle : d ≤ 2 ^ l) :
    Multiplier d (2 ^ k / d + 1) k l := by
  have hmod := Nat.div_add_mod (2 ^ k) d
  have hlt := Nat.mod_lt (2 ^ k) (Nat.pos_of_ne_zero hd)
  have heq : (2 ^ k / d + 1) * d = d * (2 ^ k / d) + d := by ring
  constructor <;> omega

namespace Multiplier

variable {d m k l n : ℕ}

lemma le_mul (h : Multiplier d m k l) : n / d * 2 ^ k ≤ m * n := by
  calc n / d * 2 ^ k ≤ n / d * (m * d) := Nat.mul_le_mul_left _ h.lower.le
    _ = m * (n / d * d) := by ring
    _ ≤ m * n := Nat.mul_le_mul_left _ (Nat.div_mul_le_self n d)

/-- The excess of the product over the quotient is less than one unit. -/
lemma mul_mul_le (h : Multiplier d m k l) (hd : d ≠ 0) :
    m * n * d + 2 ^ k ≤ (n / d + 1) * 2 ^ k * d + n * 2 ^ l := by
  have hdiv := Nat.div_add_mod n d
  have hmod := Nat.mod_lt n (Nat.pos_of_ne_zero hd)
  calc m * n * d + 2 ^ k = n * (m * d) + 2 ^ k := by ring
    _ ≤ n * (2 ^ k + 2 ^ l) + 2 ^ k := Nat.add_le_add_right (Nat.mul_le_mul_left _ h.upper) _
    _ = (n + 1) * 2 ^ k + n * 2 ^ l := by ring
    _ ≤ (d * (n / d) + d) * 2 ^ k + n * 2 ^ l :=
        Nat.add_le_add_right (Nat.mul_le_mul_right _ (by omega)) _
    _ = (n / d + 1) * 2 ^ k * d + n * 2 ^ l := by ring

/-- Rounded down, the product is the quotient. -/
theorem mul_div (h : Multiplier d m k l) (hd : d ≠ 0) (hn : n * 2 ^ l < 2 ^ k) :
    m * n / 2 ^ k = n / d := by
  refine Nat.div_eq_of_lt_le h.le_mul ?_
  have hexcess := h.mul_mul_le (n := n) hd
  exact Nat.lt_of_mul_lt_mul_right (a := d) (by omega)

/-- Rounded up, the product of a positive number is the quotient plus one. -/
theorem neg_mul_ediv (h : Multiplier d m k l) (hd : d ≠ 0) (hpos : 0 < n)
    (hn : n * 2 ^ l ≤ 2 ^ k) : -((m * n : ℕ) : ℤ) / 2 ^ k = -((n / d : ℕ) : ℤ) - 1 := by
  have hexcess := h.mul_mul_le (n := n) hd
  have hupper : m * n ≤ (n / d + 1) * 2 ^ k :=
    Nat.le_of_mul_le_mul_right (c := d) (by omega) (Nat.pos_of_ne_zero hd)
  have hlower : n / d * 2 ^ k < m * n := by
    refine lt_of_le_of_ne h.le_mul fun heq => ?_
    -- equality would make `m * d` at most `2 ^ k`
    have h₁ : m * n * d ≤ n * 2 ^ k := by
      calc m * n * d = n / d * d * 2 ^ k := by rw [← heq]; ring
        _ ≤ n * 2 ^ k := Nat.mul_le_mul_right _ (Nat.div_mul_le_self n d)
    have h₂ : n * 2 ^ k < n * (m * d) := Nat.mul_lt_mul_of_pos_left h.lower hpos
    have h₃ : n * (m * d) = m * n * d := by ring
    omega
  have hk : (0 : ℤ) < 2 ^ k := by positivity
  have hdiv : -((m * n : ℕ) : ℤ) / 2 ^ k = -((n / d + 1 : ℕ) : ℤ) := by
    rw [Int.ediv_eq_iff_of_pos hk]
    zify at hupper hlower
    push_cast
    constructor <;> linarith
  rw [hdiv]
  push_cast
  ring

end Multiplier

/-- The average of two numbers does not need the carry of their sum. -/
lemma half_sub_add {a b : ℕ} (h : b ≤ a) : (a - b) / 2 + b = (a + b) / 2 := by omega

end InvariantDivision

end Castan
