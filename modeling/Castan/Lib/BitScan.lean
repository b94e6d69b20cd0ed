/-
# Least values of bitwise operations

The least value of `x ||| y` or `x &&& y` over two intervals is found by a scan of the lower ends
from the top bit down.  A zero bit of one end may be raised, and the bits below it cleared, where
this leaves the bit of the result as it is.  The first such number that is in its interval gives
the least value; a value with a raised bit anywhere before has a greater result.
-/
import Mathlib

namespace BitScan

/-- An operation that treats each bit by itself.  Raising a bit of one operand leaves the bit of
the result alone exactly if the bit of the other operand is `f 0 1`. -/
structure BitOp (f : ℕ → ℕ → ℕ) : Prop where
  comm : ∀ x y, f x y = f y x
  div_pow : ∀ x y k, f x y / 2 ^ k = f (x / 2 ^ k) (y / 2 ^ k)
  mod_pow : ∀ x y k, f x y % 2 ^ k = f (x % 2 ^ k) (y % 2 ^ k)
  zero : f 0 0 = 0
  one : f 1 1 = 1
  low : f 0 1 = 1 ∧ (∀ u v w, v ≤ w → f 0 v ≤ f u w) ∨ f 0 1 = 0 ∧ ∀ v, f 0 v = 0

lemma bitOp_or : BitOp (· ||| ·) where
  comm := Nat.or_comm
  div_pow x y k := by simp only [← Nat.shiftRight_eq_div_pow, Nat.shiftRight_or_distrib]
  mod_pow _ _ _ := Nat.or_mod_two_pow
  zero := rfl
  one := rfl
  low := .inl ⟨rfl, fun u v w h => by
    rw [Nat.zero_or]
    exact h.trans Nat.right_le_or⟩

lemma bitOp_and : BitOp (· &&& ·) where
  comm := Nat.and_comm
  div_pow x y k := by simp only [← Nat.shiftRight_eq_div_pow, Nat.shiftRight_and_distrib]
  mod_pow _ _ _ := Nat.and_mod_two_pow
  zero := rfl
  one := rfl
  low := .inr ⟨rfl, Nat.zero_and⟩

/-- The number above `a` with the bit `k` raised and the bits below it cleared. -/
def raise (k a : ℕ) : ℕ := (a / 2 ^ k + 1) * 2 ^ k

variable {f : ℕ → ℕ → ℕ} {k a b c d r x y : ℕ}

/-- The last bit apart. -/
lemma BitOp.eq_bit (hf : BitOp f) (x y : ℕ) :
    f x y = 2 * f (x / 2) (y / 2) + f (x % 2) (y % 2) := by
  have hdiv := hf.div_pow x y 1
  have hmod := hf.mod_pow x y 1
  rw [pow_one] at hdiv hmod
  omega

lemma BitOp.bit_mod (hf : BitOp f) (x y : ℕ) :
    f (x % 2) (y % 2) = if x % 2 = y % 2 then x % 2 else f 0 1 := by
  rcases Nat.mod_two_eq_zero_or_one x with hx | hx <;>
    rcases Nat.mod_two_eq_zero_or_one y with hy | hy <;>
    simp [hx, hy, hf.zero, hf.one, hf.comm 1 0]

lemma raise_div : raise k a / 2 ^ k = a / 2 ^ k + 1 := Nat.mul_div_cancel _ (Nat.two_pow_pos k)

lemma div_succ (x k : ℕ) : x / 2 ^ (k + 1) = x / 2 ^ k / 2 := by
  rw [pow_succ, Nat.div_div_eq_div_mul]

/-- A number that agrees with `a` above the bit `k` agrees with it there too or has it raised. -/
lemma cases_above (h : a ≤ x) (hx : x / 2 ^ (k + 1) = a / 2 ^ (k + 1)) : x / 2 ^ k = a / 2 ^ k ∨
    a / 2 ^ k % 2 = 0 ∧ x / 2 ^ k = a / 2 ^ k + 1 ∧ raise k a ≤ x := by
  have hle : a / 2 ^ k ≤ x / 2 ^ k := Nat.div_le_div_right h
  rw [div_succ, div_succ] at hx
  refine or_iff_not_imp_left.2 fun hne => ⟨by omega, by omega, ?_⟩
  exact (Nat.le_div_iff_mul_le (Nat.two_pow_pos k)).1 (by omega)

/-- The least value where the operands agree with `a` and `c` from the bit `k` on. -/
structure Least (f : ℕ → ℕ → ℕ) (k a b c d r : ℕ) : Prop where
  attained : ∃ x y, (a ≤ x ∧ x ≤ b) ∧ (c ≤ y ∧ y ≤ d) ∧ f x y = r
  high : r / 2 ^ k = f (a / 2 ^ k) (c / 2 ^ k)
  le : ∀ {x y}, a ≤ x ∧ x ≤ b → c ≤ y ∧ y ≤ d → x / 2 ^ k = a / 2 ^ k → y / 2 ^ k = c / 2 ^ k →
    r ≤ f x y

lemma Least.zero (hab : a ≤ b) (hcd : c ≤ d) : Least f 0 a b c d (f a c) where
  attained := ⟨a, c, ⟨le_rfl, hab⟩, ⟨le_rfl, hcd⟩, rfl⟩
  high := by simp
  le _ _ hx hy := by
    rw [pow_zero, Nat.div_one, Nat.div_one] at hx hy
    rw [hx, hy]

lemma Least.symm (hf : BitOp f) (h : Least f k a b c d r) : Least f k c d a b r where
  attained := by
    obtain ⟨x, y, hx, hy, hxy⟩ := h.attained
    exact ⟨y, x, hy, hx, hf.comm y x ▸ hxy⟩
  high := hf.comm _ _ ▸ h.high
  le hx hy hx' hy' := hf.comm _ _ ▸ h.le hy hx hy' hx'

/-- A raised bit that raises the bit of the result. -/
lemma BitOp.lt_of_raised (hf : BitOp f) {A C Y : ℕ} (hA : A % 2 = 0) (hC : C % 2 ≠ f 0 1)
    (hY : Y = C ∨ C % 2 = 0 ∧ Y = C + 1) : f A C < f (A + 1) Y := by
  have hbit := hf.low
  rw [hf.eq_bit A C, hf.eq_bit (A + 1) Y, hf.bit_mod, hf.bit_mod,
    show (A + 1) / 2 = A / 2 by omega, show Y / 2 = C / 2 by omega]
  split_ifs <;> omega

/-- The bit `k` is raised in neither end: no value with it raised is in its interval, or its result
is greater. -/
lemma Least.keep (hf : BitOp f) (h : Least f k a b c d r)
    (ha : a / 2 ^ k % 2 = 0 → c / 2 ^ k % 2 = f 0 1 → b < raise k a)
    (hc : c / 2 ^ k % 2 = 0 → a / 2 ^ k % 2 = f 0 1 → d < raise k c) :
    Least f (k + 1) a b c d r where
  attained := h.attained
  high := by
    have hdiv := hf.div_pow (a / 2 ^ k) (c / 2 ^ k) 1
    rw [pow_one] at hdiv
    rw [div_succ, h.high, hdiv, div_succ, div_succ]
  le {x y} hx hy hx' hy' := by
    have hlt : f (a / 2 ^ k) (c / 2 ^ k) < f (x / 2 ^ k) (y / 2 ^ k) → r ≤ f x y := fun hlt => by
      rw [← h.high, ← hf.div_pow] at hlt
      exact (Nat.lt_of_div_lt_div hlt).le
    have hX := cases_above hx.1 hx'
    have hY := cases_above hy.1 hy'
    rcases hX with hX | ⟨heven, hX, hraise⟩
    · rcases hY with hY | ⟨heven, hY, hraise⟩
      · exact h.le hx hy hX hY
      · refine hlt ?_
        rw [hf.comm, hf.comm (x / 2 ^ k), hY]
        exact hf.lt_of_raised heven (fun he => absurd (hc heven he) (by omega)) (.inl hX)
    · rw [hX] at hlt
      exact hlt (hf.lt_of_raised heven (fun he => absurd (ha heven he) (by omega))
        (hY.imp_right fun hY => ⟨hY.1, hY.2.1⟩))

/-- The bit `k` is raised in the first end. -/
lemma Least.raised (hf : BitOp f) (ha : a / 2 ^ k % 2 = 0) (hc : c / 2 ^ k % 2 = f 0 1)
    (hb : raise k a ≤ b) (hcd : c ≤ d) : Least f (k + 1) a b c d (f (raise k a) c) where
  attained := by
    have hlt := Nat.lt_mul_div_succ a (Nat.two_pow_pos k)
    rw [mul_comm] at hlt
    exact ⟨raise k a, c, ⟨hlt.le, hb⟩, ⟨le_rfl, hcd⟩, rfl⟩
  high := by
    rw [hf.div_pow, div_succ, raise_div, div_succ a,
      show (a / 2 ^ k + 1) / 2 = a / 2 ^ k / 2 by omega]
  le {x y} hx hy hx' hy' := by
    have hX := cases_above hx.1 hx'
    have hY := cases_above hy.1 hy'
    have hlow : f (raise k a) c % 2 ^ k ≤ f x y % 2 ^ k := by
      rw [hf.mod_pow, hf.mod_pow, raise, Nat.mul_mod_left]
      rcases hf.low with ⟨he, hlow⟩ | ⟨he, hlow⟩
      · refine hlow _ _ _ ?_
        have hYC : y / 2 ^ k = c / 2 ^ k := by omega
        have hcy := Nat.div_add_mod c (2 ^ k)
        have hyy := Nat.div_add_mod y (2 ^ k)
        rw [hYC] at hyy
        omega
      · rw [hlow]
        exact Nat.zero_le _
    have hle : f (raise k a) c / 2 ^ k ≤ f x y / 2 ^ k := by
      have hlow := hf.low
      rw [hf.div_pow, hf.div_pow, raise_div, hf.eq_bit (_ + 1), hf.eq_bit (x / 2 ^ k), hf.bit_mod,
        hf.bit_mod, show (a / 2 ^ k + 1) / 2 = x / 2 ^ k / 2 by omega,
        show c / 2 ^ k / 2 = y / 2 ^ k / 2 by omega]
      split_ifs <;> omega
    rcases hle.eq_or_lt with heq | hlt
    · rw [← Nat.div_add_mod (f (raise k a) c) (2 ^ k), ← Nat.div_add_mod (f x y) (2 ^ k), heq]
      exact Nat.add_le_add_left hlow _
    · exact (Nat.lt_of_div_lt_div hlt).le

end BitScan
