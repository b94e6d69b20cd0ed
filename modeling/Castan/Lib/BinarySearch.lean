/-
# Binary search over machine words

The usual loop that halves an interval of 64-bit words with a test that may fail.  It finds the
least number with a property that is kept upwards and that the upper end has.
-/
import Mathlib

namespace BinarySearch

/-- The middle of an interval and the word behind it do not wrap around. -/
lemma toNat_middle {lo hi : BitVec 64} (h : lo < hi) :
    (lo + (hi - lo) / 2).toNat = lo.toNat + (hi.toNat - lo.toNat) / 2 ∧
      (lo + (hi - lo) / 2 + 1).toNat = lo.toNat + (hi.toNat - lo.toNat) / 2 + 1 := by
  have hlt : lo.toNat < hi.toNat := h
  have hhi : hi.toNat < 2 ^ 64 := hi.isLt
  have hhalf : ((hi - lo) / 2).toNat = (hi.toNat - lo.toNat) / 2 := by
    rw [BitVec.toNat_udiv, BitVec.toNat_sub_of_le (BitVec.le_def.2 hlt.le)]
    rfl
  have hmid : (lo + (hi - lo) / 2).toNat = lo.toNat + (hi.toNat - lo.toNat) / 2 := by
    rw [BitVec.toNat_add, hhalf, Nat.mod_eq_of_lt (by omega)]
  refine ⟨hmid, ?_⟩
  rw [BitVec.toNat_add, hmid, show (1 : BitVec 64).toNat = 1 from rfl, Nat.mod_eq_of_lt (by omega)]

end BinarySearch

/-- Search between `lo` and `hi` for the least word that passes the test. -/
def binarySearch (test : BitVec 64 → Option Bool) (lo hi : BitVec 64) : Option (BitVec 64) :=
  if _h : lo < hi then
    match test (lo + (hi - lo) / 2) with
    | none => none
    | some true => binarySearch test lo (lo + (hi - lo) / 2)
    | some false => binarySearch test (lo + (hi - lo) / 2 + 1) hi
  else some lo
termination_by hi.toNat - lo.toNat
decreasing_by all_goals
    have hlt : lo.toNat < hi.toNat := _h
    obtain ⟨hmid, hnext⟩ := BinarySearch.toNat_middle _h
    omega

/-- What lies below `lo` is too small and `hi` is large enough, in every round. -/
theorem binarySearch_isLeast {test : BitVec 64 → Option Bool} {P : ℕ → Prop} (lo hi : BitVec 64)
    (hmono : ∀ {a b}, a ≤ b → P a → P b)
    (htest : ∀ mid < hi, ∃ res, test mid = some res ∧ (res = true ↔ P mid.toNat))
    (hle : lo.toNat ≤ hi.toNat) (hlo : ∀ a < lo.toNat, ¬ P a) (hhi : P hi.toNat) :
    ∃ r, binarySearch test lo hi = some r ∧ IsLeast {a | P a} r.toNat := by
  fun_induction binarySearch test lo hi with
  | case1 lo hi h hnone =>
    obtain ⟨hmid, -⟩ := BinarySearch.toNat_middle h
    obtain ⟨res, hres, -⟩ := htest (lo + (hi - lo) / 2) (by bv_omega)
    cases hnone.symm.trans hres
  | case2 lo hi h htrue ih =>
    obtain ⟨hmid, -⟩ := BinarySearch.toNat_middle h
    obtain ⟨res, hres, hiff⟩ := htest (lo + (hi - lo) / 2) (by bv_omega)
    obtain rfl : true = res := Option.some.inj (htrue.symm.trans hres)
    exact ih (fun mid hmid => htest mid (by bv_omega)) (by omega) hlo (hiff.1 rfl)
  | case3 lo hi h hfalse ih =>
    obtain ⟨hmid, hnext⟩ := BinarySearch.toNat_middle h
    obtain ⟨res, hres, hiff⟩ := htest (lo + (hi - lo) / 2) (by bv_omega)
    obtain rfl : false = res := Option.some.inj (hfalse.symm.trans hres)
    refine ih htest (by bv_omega) (fun a ha hP => ?_) hhi
    exact Bool.false_ne_true (hiff.2 (hmono (by omega) hP))
  | case4 lo hi h =>
    obtain rfl : lo = hi := by bv_omega
    exact ⟨lo, rfl, hhi, fun a ha => not_lt.1 fun hlt => hlo a hlt ha⟩
