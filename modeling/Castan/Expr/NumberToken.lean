/-
# Number tokens

`ParserImpl::ParseNumberToken` reads a constant of a given width from a token of a query file.
The digits are collected in a number of as many bits as they can need, computed as an `unsigned`,
which is then brought to the width of the constant.
-/
import Castan.Expr.APInt

namespace Castan

open BitVec List

/-- The radix of a number token. -/
inductive Radix
  | binary | octal | decimal | hexadecimal
deriving DecidableEq

namespace Radix

/-- `Radix`. -/
def base : Radix → ℕ
  | binary => 2
  | octal => 8
  | decimal => 10
  | hexadecimal => 16

/-- `RadixBits`. -/
def bits : Radix → ℕ
  | binary => 1
  | octal => 3
  | decimal => 4
  | hexadecimal => 4

/-- The characters that announce a radix. -/
def mark : Radix → List Char
  | binary => ['0', 'b']
  | octal => ['0', 'o']
  | decimal => []
  | hexadecimal => ['0', 'x']

end Radix

/-- The value of a digit of any radix up to 36. -/
def digitValue (c : Char) : Option ℕ :=
  if '0' ≤ c ∧ c ≤ '9' then some (c.toNat - '0'.toNat)
  else if 'a' ≤ c ∧ c ≤ 'z' then some (c.toNat - 'a'.toNat + 10)
  else if 'A' ≤ c ∧ c ≤ 'Z' then some (c.toNat - 'A'.toNat + 10)
  else none

namespace ParserImpl

/-- The sign of a number token: whether it is a minus, and the rest of the token. -/
def detectSign : List Char → Bool × List Char
  | '+' :: s => (false, s)
  | '-' :: s => (true, s)
  | s => (false, s)

/-- The radix at the start of `s`, where the buffer goes on with `after`, and the digits. -/
def detectRadix (s after : List Char) : Radix × List Char :=
  match s ++ after with
  | '0' :: 'b' :: _ => (.binary, s.drop 2)
  | '0' :: 'o' :: _ => (.octal, s.drop 2)
  | '0' :: 'x' :: _ => (.hexadecimal, s.drop 2)
  | _ => (.decimal, s)

/-- The loop over the digits. -/
def parseDigits (radix : ℕ) {m : ℕ} (val : BitVec m) : List Char → Except String (BitVec m)
  | [] => .ok val
  | '_' :: cs => parseDigits radix val cs
  | c :: cs =>
      match digitValue c with
      | none => .error "invalid character in numeric token."
      | some digit =>
          if radix ≤ digit then .error "invalid character in numeric token (out of range)."
          else parseDigits radix (val * BitVec.ofNat m radix + BitVec.ofNat m digit) cs

/-- The width of `Val`: the product `RadixBits * N` of two `unsigned` numbers. -/
def valWidth (radix : Radix) (digits : List Char) : ℕ := radix.bits * digits.length % 2 ^ 32

/-- The constant of the digits of a token, and the message of the error if there is one.  The
result is `none` for the assertion that a number has bits. -/
def parseConstant (type : ℕ) (hasMinus : Bool) (radix : Radix) (digits : List Char) :
    Option (Option String × APInt) :=
  if radix ≠ .decimal ∧ digits = [] then
    some (some "invalid numeric token (no digits).", .ofNat type 0)
  else if valWidth radix digits = 0 then none
  else
    match parseDigits radix.base 0#(valWidth radix digits) digits with
    | .error message => some (some message, .ofNat type 0)
    -- `trunc` and `zext` are both `setWidth`
    | .ok val => some (none, ⟨type, (if hasMinus then -val else val).setWidth type⟩)

/-- `ParserImpl::ParseNumberToken` for the token `text` of a buffer that goes on with `after`. -/
def parseNumberToken (type : ℕ) (text after : List Char) : Option (Option String × APInt) :=
  let (hasMinus, s) := detectSign text
  let (radix, digits) := if 2 ≤ text.length then detectRadix s after else (.decimal, s)
  parseConstant type hasMinus radix digits

end ParserImpl

/-- A number token as the lexer finds it: a sign, a radix and digits with underscores among them,
up to a character that is none of these.  The length of a token is an `unsigned`. -/
structure NumberToken where
  sign : Option Bool
  radix : Radix
  digits : List Char
  after : List Char
  digit_lt : ∀ c ∈ digits, c ≠ '_' → ∃ d, digitValue c = some d ∧ d < radix.base
  ne_nil : digits ≠ []
  stops : ∀ c ∈ after.head?, digitValue c = none ∧ c ≠ '_'
  length_lt : sign.toList.length + radix.mark.length + digits.length < 2 ^ 32

namespace NumberToken

open ParserImpl

/-- The characters of a token; the sign `some true` is a minus. -/
def text (t : NumberToken) : List Char :=
  (t.sign.elim [] fun minus => [if minus then '-' else '+']) ++ t.radix.mark ++ t.digits

/-- The number that digits of a radix denote after those of `v`. -/
def valueFrom (radix : ℕ) : ℕ → List Char → ℕ :=
  List.foldl fun v c => if c = '_' then v else v * radix + (digitValue c).getD 0

/-- The number without its sign. -/
def magnitude (t : NumberToken) : ℕ := valueFrom t.radix.base 0 t.digits

/-- The integer that a token denotes. -/
def denotes (t : NumberToken) : ℤ := if t.sign = some true then -t.magnitude else t.magnitude

/-! ### The digits -/

lemma parseDigits_ok {radix m : ℕ} {cs : List Char}
    (h : ∀ c ∈ cs, c ≠ '_' → ∃ d, digitValue c = some d ∧ d < radix) (v : ℕ) :
    parseDigits radix (BitVec.ofNat m v) cs =
      .ok (BitVec.ofNat m (valueFrom radix v cs)) := by
  induction cs generalizing v with
  | nil => rfl
  | cons c cs ih =>
    have htail := ih fun c' hc' => h c' (mem_cons_of_mem c hc')
    by_cases hc : c = '_'
    · subst hc
      exact htail v
    · obtain ⟨d, hd, hlt⟩ := h c mem_cons_self hc
      have hstep : BitVec.ofNat m v * BitVec.ofNat m radix + BitVec.ofNat m d =
          BitVec.ofNat m (v * radix + d) := by rw [ofNat_add, ofNat_mul]
      rw [parseDigits, hd]
      · simp only [if_neg (not_le.mpr hlt), hstep, htail, valueFrom, foldl_cons, if_neg hc,
          hd, Option.getD_some]
      · exact hc

/-! ### The sign and the radix -/

/-- A character that is no digit of the radix is not among the digits. -/
lemma digit_ne (t : NumberToken) {c x : Char} (hc : c ∈ t.digits) (hu : x ≠ '_')
    (hx : ((digitValue x).all fun d => t.radix.base ≤ d) = true) : c ≠ x := by
  rintro rfl
  obtain ⟨d, hd, hlt⟩ := t.digit_lt c hc hu
  rw [hd, Option.all_some, decide_eq_true_iff] at hx
  omega

lemma detectSign_text (t : NumberToken) : detectSign t.text =
    (decide (t.sign = some true), t.radix.mark ++ t.digits) := by
  rcases hs : t.sign with _ | _ | _
  · cases hr : t.radix with
    | decimal =>
      rcases hd : t.digits with _ | ⟨c, cs⟩
      · simp [text, hs, hr, hd, Radix.mark, detectSign]
      · have hc : c ∈ t.digits := hd ▸ mem_cons_self
        have hplus := t.digit_ne hc (x := '+') (by decide) rfl
        have hminus := t.digit_ne hc (x := '-') (by decide) rfl
        simp [text, hs, hr, hd, Radix.mark, detectSign, hplus, hminus]
    | _ => simp [text, hs, hr, Radix.mark, detectSign]
  all_goals simp [text, hs, detectSign]

/-- What follows the first digit of a decimal number, within the token or after it. -/
lemma next_ne (t : NumberToken) (hr : t.radix = .decimal) {c : Char}
    (hc : (t.digits ++ t.after)[1]? = some c) : c ≠ 'b' ∧ c ≠ 'o' ∧ c ≠ 'x' := by
  rcases hd : t.digits with _ | ⟨c₀, _ | ⟨c₁, cs⟩⟩
  · exact absurd hd t.ne_nil
  · have hstop := (t.stops c (by simpa [hd, List.head?_eq_getElem?] using hc)).1
    refine ⟨?_, ?_, ?_⟩ <;> rintro rfl <;> exact absurd hstop (by decide)
  · obtain rfl : c₁ = c := by simpa [hd] using hc
    have hmem : c₁ ∈ t.digits := by simp [hd]
    refine ⟨t.digit_ne hmem ?_ ?_, t.digit_ne hmem ?_ ?_, t.digit_ne hmem ?_ ?_⟩
    all_goals first | decide | (rw [hr]; rfl)

lemma detectRadix_text (t : NumberToken) :
    detectRadix (t.radix.mark ++ t.digits) t.after = (t.radix, t.digits) := by
  cases hr : t.radix with
  | decimal =>
    have hnext := @next_ne t hr
    unfold detectRadix
    simp only [Radix.mark, nil_append]
    split
    · next heq => exact absurd rfl (hnext (by rw [heq]; rfl)).1
    · next heq => exact absurd rfl (hnext (by rw [heq]; rfl)).2.1
    · next heq => exact absurd rfl (hnext (by rw [heq]; rfl)).2.2
    · rfl
  | _ => rfl

/-- A token of one character has no radix. -/
lemma radix_of_length (t : NumberToken) (h : ¬ 2 ≤ t.text.length) : t.radix = .decimal := by
  cases hr : t.radix with
  | decimal => rfl
  | _ =>
    simp only [text, hr, Radix.mark, length_append, length_cons, length_nil] at h
    omega

/-- The number of bits in which the digits of a token are collected. -/
def width (t : NumberToken) : ℕ := valWidth t.radix t.digits

/-- A token is read in the bits of its digits, and fails if there are none. -/
lemma parseNumberToken_text (t : NumberToken) (type : ℕ) :
    parseNumberToken type t.text t.after = if t.width = 0 then none
      else some (none, ⟨type, (BitVec.ofInt t.width t.denotes).setWidth type⟩) := by
  have hsplit : (if 2 ≤ t.text.length
      then detectRadix (t.radix.mark ++ t.digits) t.after
      else (.decimal, t.radix.mark ++ t.digits)) = (t.radix, t.digits) := by
    split_ifs with h
    · exact t.detectRadix_text
    · rw [t.radix_of_length h, Radix.mark, nil_append]
  have hdigits := parseDigits_ok (m := valWidth t.radix t.digits) t.digit_lt 0
  have hval : (if t.sign = some true then -BitVec.ofNat t.width t.magnitude
      else BitVec.ofNat t.width t.magnitude) = BitVec.ofInt t.width t.denotes := by
    rw [denotes]
    split_ifs
    · rw [ofInt_neg, ofInt_natCast]
    · rw [ofInt_natCast]
  rw [← hval]
  simp only [parseNumberToken, detectSign_text, hsplit]
  simp only [parseConstant, t.ne_nil, and_false, if_false, hdigits, decide_eq_true_iff]
  rfl

/-! ### The constant -/

/-- A number in few bits is the number in more bits if these are enough for it. -/
lemma setWidth_ofInt_iff {d : ℤ} {m w : ℕ} :
    (BitVec.ofInt m d).setWidth w = BitVec.ofInt w d ↔ w ≤ m ∨ d % 2 ^ w < 2 ^ m := by
  have hpos : (0 : ℤ) < 2 ^ w := by positivity
  rw [← toNat_inj, toNat_setWidth, toNat_ofInt, toNat_ofInt, ← Int.natCast_inj, Int.natCast_emod,
    Int.toNat_of_nonneg (Int.emod_nonneg _ (by positivity)),
    Int.toNat_of_nonneg (Int.emod_nonneg _ (by positivity))]
  push_cast
  rcases le_or_gt w m with hle | hlt
  · simp [hle, Int.emod_emod_of_dvd d (pow_dvd_pow 2 hle)]
  · have hmod : d % 2 ^ m = d % 2 ^ w % 2 ^ m :=
      (Int.emod_emod_of_dvd d (pow_dvd_pow 2 hlt.le)).symm
    have hlt' : d % 2 ^ m < 2 ^ w := (Int.emod_lt_of_pos d (by positivity)).trans
      (pow_lt_pow_right₀ one_lt_two hlt)
    rw [Int.emod_eq_of_lt (Int.emod_nonneg _ (by positivity)) hlt', hmod]
    simp only [not_le.2 hlt, false_or]
    refine ⟨fun h => ?_, Int.emod_eq_of_lt (Int.emod_nonneg _ hpos.ne')⟩
    exact h ▸ Int.emod_lt_of_pos _ (by positivity)

/-- A number token is read without an error, as the constant that it denotes exactly if the bits
of its digits are a number above zero and enough for the constant. -/
theorem parseNumberToken_denotes_iff (t : NumberToken) (type : ℕ) :
    parseNumberToken type t.text t.after =
        some (none, ⟨type, BitVec.ofInt type t.denotes⟩) ↔
      t.width ≠ 0 ∧ (type ≤ t.width ∨ t.denotes % 2 ^ type < 2 ^ t.width) := by
  rw [parseNumberToken_text, ← setWidth_ofInt_iff]
  split_ifs with h
  · simp [h]
  · simp [h]

/-- The token `-1`, which is read as 15 in eight bits. -/
def minusOne : NumberToken where
  sign := some true
  radix := .decimal
  digits := ['1']
  after := []
  digit_lt := forall_mem_singleton.mpr fun _ => ⟨1, by decide⟩
  ne_nil := by simp
  stops := by simp
  length_lt := by decide

theorem parseNumberToken_minusOne :
    parseNumberToken 8 minusOne.text minusOne.after = some (none, .ofNat 8 15) ∧
      minusOne.denotes = -1 ∧ BitVec.ofInt 8 minusOne.denotes = 255#8 := by
  decide

end NumberToken

end Castan
