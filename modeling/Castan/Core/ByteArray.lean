/-
# Reads and writes of any width

A plain array of bytes is read and written in the chosen byte order.  Every sequence of
accesses to an object gives what it gives on the plain array, and no assertion fails.
-/
import Castan.Core.MemorySound

namespace Castan

open APInt Function ObjectState

variable {i w width offset : ℕ} {a v : APInt} {e value : Expr} {s s' : ObjectState}

/-! ### Plain arrays -/

/-- A plain array of bytes. -/
abbrev PlainArray := ℕ → BitVec 8

variable {b : PlainArray}

/-- The number of bytes of an access. -/
def numBytes (width : ℕ) : ℕ := if width = 1 then 1 else width / 8

namespace PlainArray

/-- The sum of the `count` first bytes, `x i` being the byte of the value `256 ^ i`. -/
def sum (x : ℕ → BitVec 8) (count : ℕ) : ℕ := ∑ i ∈ Finset.range count, (x i).toNat * 256 ^ i

/-- A read; a Boolean is bit 0 of its byte. -/
def read (littleEndian : Bool) (b : PlainArray) (offset width : ℕ) : APInt :=
  .ofNat width (sum (fun i => b (offset + ObjectState.byteIdx littleEndian (numBytes width) i))
    (numBytes width))

/-- A write; a Boolean is zero extended to a byte. -/
def write (littleEndian : Bool) (b : PlainArray) (offset : ℕ) (value : APInt) : PlainArray :=
  (List.range (numBytes value.width)).foldl (fun b i => update b
      (offset + ObjectState.byteIdx littleEndian (numBytes value.width) i)
      (BitVec.ofNat 8 (value.toNat / 2 ^ (8 * i)))) b

lemma sum_succ (x : ℕ → BitVec 8) (count : ℕ) :
    sum x (count + 1) = sum x count + (x count).toNat * 256 ^ count :=
  Finset.sum_range_succ _ _

lemma sum_lt (x : ℕ → BitVec 8) (count : ℕ) : sum x count < 2 ^ (8 * count) := by
  induction count with
  | zero => simp [sum]
  | succ count ih =>
    have hx : (x count).toNat < 256 := (x count).isLt
    have hpow : 2 ^ (8 * (count + 1)) = 256 * 2 ^ (8 * count) := by
      rw [Nat.mul_succ, Nat.pow_add]
      ring
    have h256 : 256 ^ count = 2 ^ (8 * count) := by rw [Nat.pow_mul]
    rw [sum_succ, hpow, h256]
    nlinarith

end PlainArray

lemma byteIdx_lt (littleEndian : Bool) {n : ℕ} (h : i < n) :
    byteIdx littleEndian n i < n := by
  unfold byteIdx
  split_ifs <;> omega

namespace APInt

lemma toNat_ofNat {v : ℕ} (h : v < 2 ^ w) : (ofNat w v).toNat = v := by
  rw [ofNat, toNat, BitVec.toNat_ofNat, Nat.mod_eq_of_lt h]

lemma toNat_concat (a b : APInt) : (a.concat b).toNat = a.toNat * 2 ^ b.width + b.toNat := by
  rw [concat, toNat, BitVec.toNat_append, ← Nat.shiftLeft_add_eq_or_of_lt b.bits.isLt,
    Nat.shiftLeft_eq]
  rfl

/-- One more byte in front of the bytes read so far. -/
lemma concat_sum (x : ℕ → BitVec 8) (count : ℕ) :
    (⟨8, x count⟩ : APInt).concat (.ofNat (8 * count) (PlainArray.sum x count)) =
      .ofNat (8 * (count + 1)) (PlainArray.sum x (count + 1)) := by
  refine ext_toNat ?_ ?_
  · simp only [concat, ofNat_width]
    omega
  · rw [toNat_concat, toNat_ofNat (PlainArray.sum_lt _ _), toNat_ofNat (PlainArray.sum_lt _ _),
      PlainArray.sum_succ, ofNat_width, Nat.pow_mul, show (2 : ℕ) ^ 8 = 256 from rfl,
      Nat.add_comm]
    rfl

/-- The byte `i` of a value. -/
lemma extract_byte (a : APInt) (i : ℕ) :
    a.extract (8 * i) 8 = ⟨8, BitVec.ofNat 8 (a.toNat / 2 ^ (8 * i))⟩ := by
  refine ext_toNat rfl ?_
  simp only [extract, toNat, BitVec.extractLsb'_toNat, Nat.shiftRight_eq_div_pow,
    BitVec.toNat_ofNat]

lemma zExt_eq_ofNat (a : APInt) (w : ℕ) : a.zExt w = .ofNat w a.toNat := by
  refine ext_toNat rfl ?_
  simp only [zExt, toNat, ofNat, BitVec.toNat_setWidth, BitVec.toNat_ofNat]

end APInt

/-! ### The values of created expressions -/

section Values

variable {o : Opts} {ρ : Valuation}

lemma HasValue.concat {l r : Expr} {b : APInt} (hl : HasValue o ρ l a)
    (hr : HasValue o ρ r b) : HasValue o ρ (ConcatExpr.create l r) (a.concat b) := by
  have htyped : (Expr.concat l r).Typed := ⟨hl.ofWidth.typed, hr.ofWidth.typed⟩
  refine HasValue.of_refines (ConcatExpr.create_refines htyped)
    (ConcatExpr.createAux_canon l r hl.ofWidth.canon hr.ofWidth.canon) ?_
    (fun ho => ⟨hl.defined ho, hr.defined ho⟩) ?_
  · simp only [Expr.width, hl.ofWidth.width_eq, hr.ofWidth.width_eq, APInt.concat]
  · rw [Expr.eval, hl.eval_eq, hr.eval_eq]

lemma HasValue.extract {off : ℕ} (h : HasValue o ρ e a) (hw : 0 < w)
    (hle : off + w ≤ a.width) : HasValue o ρ (ExtractExpr.create e off w) (a.extract off w) := by
  have htyped : (Expr.extract e off w).Typed :=
    ⟨h.ofWidth.typed, hw, by rw [h.ofWidth.width_eq]; exact hle⟩
  refine HasValue.of_refines (ExtractExpr.create_refines htyped)
    (ExtractExpr.createAux_canon e off w h.ofWidth.canon) rfl h.defined ?_
  rw [Expr.eval, h.eval_eq]

/-- A cast to `w` bits keeps the value modulo `2 ^ w`. -/
lemma HasValue.zExt (h : HasValue o ρ e a) (hw : 0 < w) :
    HasValue o ρ (ZExtExpr.create e w) (.ofNat w a.toNat) := by
  refine HasValue.of_refines (ZExtExpr.create_refines h.ofWidth.typed hw)
    (ZExtExpr.create_canon h.ofWidth.canon w) (Node.toExpr_width (.zExt e w)) (fun ho => ?_) ?_
  · exact Node.toExpr_inRange (n := .zExt e w) (h.defined ho)
  · rw [← zExt_eq_ofNat, ← h.eval_eq]
    exact Node.toExpr_eval (n := .zExt e w) ⟨h.ofWidth.typed, hw⟩ ρ

/-- A symbolic offset plus a constant. -/
lemma HasValue.add_const {k : ℕ} (h : HasValue o ρ e (.ofNat 32 k)) (hc : e.isConst = false) :
    HasValue o ρ (AddExpr.create o e (.const (.ofNat 32 i))) (.ofNat 32 (k + i)) ∧
      (AddExpr.create o e (.const (.ofNat 32 i))).isConst = false := by
  have htyped : (Expr.bin .add e (.const (.ofNat 32 i))).Typed :=
    ⟨h.ofWidth.typed, Nat.succ_pos _, h.ofWidth.width_eq⟩
  refine ⟨HasValue.of_refines (AddExpr.create_refines _ _ htyped)
    (AddExpr.create_canon _ _ h.ofWidth.canon trivial) h.ofWidth.width_eq
    (fun ho => ⟨h.defined ho, trivial⟩) ?_,
    AddExpr.create_const_isConst (by simp) h.ofWidth.canon hc⟩
  rw [Expr.eval_bin, h.eval_eq, Expr.eval, ofNat, ofNat, ofNat,
    BinKind.fold_mk, BinKind.op, BitVec.ofNat_add]

end Values

/-! ### The loops -/

section Loops

variable {o : Opts} {ρ : Valuation} {n : ℕ} {littleEndian : Bool}

/-- The widths that may be read and written. -/
def ValidWidth (width : ℕ) : Prop := width = 1 ∨ (8 ∣ width ∧ 0 < width)

/-- The rounds of a read, by induction on the number of rounds that remain. -/
lemma readLoop_represents {x : ℕ → BitVec 8} {count : ℕ}
    {rd : ObjectState → ℕ → Option (Expr × ObjectState)}
    (hrd : ∀ s i, Represents o ρ n b s.view → i < count →
      ∃ e s', rd s i = some (e, s') ∧ Represents o ρ n b s'.view ∧ HasValue o ρ e ⟨8, x i⟩)
    (todo : ℕ) :
    ∀ i res s, i + todo = count → Represents o ρ n b s.view →
      HasValue o ρ res (.ofNat (8 * i) (PlainArray.sum x i)) →
      ∃ e s', readLoop rd todo i res s = some (e, s') ∧ Represents o ρ n b s'.view ∧
        HasValue o ρ e (.ofNat (8 * count) (PlainArray.sum x count)) := by
  induction todo with
  | zero =>
    intro i res s hi h hres
    obtain rfl : i = count := hi
    exact ⟨res, s, rfl, h, hres⟩
  | succ todo ih =>
    intro i res s hi h hres
    obtain ⟨e, s₁, hs₁, h₁, he⟩ := hrd s i h (by omega)
    have hcat := he.concat hres
    rw [concat_sum] at hcat
    obtain ⟨e', s', hs', h', he'⟩ := ih (i + 1) _ s₁ (by omega) h₁ hcat
    exact ⟨e', s', by rw [readLoop, hs₁]; exact hs', h', he'⟩

/-- A read of whole bytes. -/
lemma readBytes_represents {x : ℕ → BitVec 8}
    {rd : ObjectState → ℕ → ℕ → Option (Expr × ObjectState)} (hw : 8 ∣ width) (hpos : 0 < width)
    (hrd : ∀ s i, Represents o ρ n b s.view → i < width / 8 →
      ∃ e s', rd s (width / 8) i = some (e, s') ∧ Represents o ρ n b s'.view ∧
        HasValue o ρ e ⟨8, x i⟩)
    (h : Represents o ρ n b s.view) :
    ∃ e s', readBytes rd s width = some (e, s') ∧ Represents o ρ n b s'.view ∧
      HasValue o ρ e (.ofNat width (PlainArray.sum x (width / 8))) := by
  obtain ⟨count, rfl⟩ := hw
  have hdiv : 8 * count / 8 = count := by omega
  rw [hdiv] at hrd ⊢
  obtain ⟨m, rfl⟩ : ∃ m, count = m + 1 := ⟨count - 1, by omega⟩
  obtain ⟨e, s₁, hs₁, h₁, he⟩ := hrd s 0 h (by omega)
  have hfirst : HasValue o ρ e (.ofNat (8 * 1) (PlainArray.sum x 1)) := by
    have hone : ofNat (8 * 1) (PlainArray.sum x 1) = ⟨8, x 0⟩ := by
      simp [PlainArray.sum, ofNat]
    rw [hone]
    exact he
  obtain ⟨e', s', hs', h', he'⟩ := readLoop_represents hrd m 1 e s₁ (by omega) h₁ hfirst
  refine ⟨e', s', ?_, h', he'⟩
  rw [readBytes, if_neg (by omega), hdiv]
  simp only [hs₁, Option.bind_some]
  exact hs'

/-- A Boolean read. -/
lemma readBool_represents {r : Option (Expr × ObjectState)} {x : BitVec 8}
    (h : ∃ e s', r = some (e, s') ∧ Represents o ρ n b s'.view ∧ HasValue o ρ e ⟨8, x⟩) :
    ∃ e s', readBool r = some (e, s') ∧ Represents o ρ n b s'.view ∧
      HasValue o ρ e (.ofNat 1 x.toNat) := by
  obtain ⟨e, s', rfl, hs', he⟩ := h
  refine ⟨_, s', rfl, hs', ?_⟩
  have hbit : HasValue o ρ (ExtractExpr.create e 0 1) (extract ⟨8, x⟩ 0 1) :=
    he.extract Nat.one_pos (by simp)
  rwa [extract_zero, zExt_eq_ofNat] at hbit

/-- The rounds of a write. -/
lemma writeLoop_represents {pos : ℕ → ℕ} {y : ℕ → BitVec 8} {count : ℕ}
    {wr : ObjectState → ℕ → Option ObjectState}
    (hwr : ∀ (b : PlainArray) s i, Represents o ρ n b s.view → i < count →
      ∃ s', wr s i = some s' ∧ Represents o ρ n (update b (pos i) (y i)) s'.view)
    (todo : ℕ) :
    ∀ i (b : PlainArray) s, i + todo = count → Represents o ρ n b s.view →
      ∃ s', writeLoop wr todo i s = some s' ∧
        Represents o ρ n ((List.range' i todo).foldl
          (fun b j => update b (pos j) (y j)) b) s'.view := by
  induction todo with
  | zero =>
    intro i b s _ h
    exact ⟨s, rfl, h⟩
  | succ todo ih =>
    intro i b s hi h
    obtain ⟨s₁, hs₁, h₁⟩ := hwr b s i h (by omega)
    obtain ⟨s', hs', h'⟩ := ih (i + 1) _ s₁ (by omega) h₁
    refine ⟨s', by rw [writeLoop, hs₁]; exact hs', ?_⟩
    rwa [List.range'_succ, List.foldl_cons]

/-- A whole write, as a write to the plain array. -/
lemma writeLoop_write {wr : ObjectState → ℕ → Option ObjectState}
    (hwr : ∀ (b : PlainArray) s i, Represents o ρ n b s.view → i < numBytes v.width →
      ∃ s', wr s i = some s' ∧ Represents o ρ n
        (update b (offset + byteIdx littleEndian (numBytes v.width) i)
          (BitVec.ofNat 8 (v.toNat / 2 ^ (8 * i)))) s'.view)
    (h : Represents o ρ n b s.view) :
    ∃ s', writeLoop wr (numBytes v.width) 0 s = some s' ∧
      Represents o ρ n (PlainArray.write littleEndian b offset v) s'.view := by
  obtain ⟨s', hs', h'⟩ := writeLoop_represents hwr (numBytes v.width) 0 b s (Nat.zero_add _) h
  rw [← List.range_eq_range'] at h'
  exact ⟨s', hs', h'⟩

/-! ### Reads -/

variable {b : PlainArray} {s : ObjectState}

lemma numBytes_one : numBytes 1 = 1 := rfl

lemma ValidWidth.numBytes_pos (h : ValidWidth width) : 0 < numBytes width := by
  rcases h with rfl | ⟨hdvd, hpos⟩
  · exact Nat.one_pos
  · unfold numBytes
    split_ifs <;> omega

/-- The constant offset of an access. -/
lemma toNat_of_zExt {offset : Expr} {a c : APInt} (ha : HasValue o ρ offset a)
    (hc : (ZExtExpr.create offset 32).constant? = some c) (hlt : a.toNat < 2 ^ 32) :
    c.toNat = a.toNat := by
  have ha32 : HasValue o ρ _ (.ofNat 32 a.toNat) := ha.zExt (Nat.succ_pos _)
  rw [Expr.constant?_eq_some.mp hc] at ha32
  rw [show c = .ofNat 32 a.toNat from ha32.eval_eq, toNat_ofNat hlt]

lemma numBytes_of_ne (h : width ≠ 1) : numBytes width = width / 8 := if_neg h

/-- A Boolean read from the plain array. -/
lemma PlainArray.read_one (b : PlainArray) (offset : ℕ) :
    PlainArray.read littleEndian b offset 1 = .ofNat 1 (b offset).toNat := by
  have hidx : byteIdx littleEndian 1 0 = 0 := by cases littleEndian <;> rfl
  simp [PlainArray.read, PlainArray.sum, numBytes_one, hidx]

theorem readAt_represents (hn : n ≤ 2 ^ 32) (h : Represents o ρ n b s.view)
    (hw : ValidWidth width) (hin : offset + numBytes width ≤ n) :
    ∃ e s', s.readAt o littleEndian offset width = some (e, s') ∧ Represents o ρ n b s'.view ∧
      HasValue o ρ e (PlainArray.read littleEndian b offset width) := by
  unfold ObjectState.readAt
  by_cases h1 : width = 1
  · subst h1
    rw [if_pos rfl, PlainArray.read_one]
    exact readBool_represents (read8_represents hn h hin)
  · obtain ⟨hdvd, hpos⟩ := hw.resolve_left h1
    rw [if_neg h1, PlainArray.read, numBytes_of_ne h1]
    rw [numBytes_of_ne h1] at hin
    refine readBytes_represents hdvd hpos (fun s i hs hi => read8_represents hn hs ?_) h
    have := byteIdx_lt littleEndian hi
    omega

theorem read_represents (hn : n ≤ 2 ^ 32) (h : Represents o ρ n b s.view) {offset : Expr}
    (ha : HasValue o ρ offset a) (hw : ValidWidth width)
    (hin : a.toNat + numBytes width ≤ n) :
    ∃ e s', s.read o littleEndian offset width = some (e, s') ∧ Represents o ρ n b s'.view ∧
      HasValue o ρ e (PlainArray.read littleEndian b a.toNat width) := by
  have hbytes := hw.numBytes_pos
  have ha32 : HasValue o ρ (ZExtExpr.create offset 32) (.ofNat 32 a.toNat) :=
    ha.zExt (Nat.succ_pos _)
  unfold ObjectState.read
  dsimp only
  cases hc : (ZExtExpr.create offset 32).constant? with
  | some c =>
    simp only [toNat_of_zExt ha hc (by omega)]
    exact readAt_represents hn h hw hin
  | none =>
    have hnc := Expr.constant?_eq_none.mp hc
    by_cases h1 : width = 1
    · subst h1
      rw [if_pos rfl, PlainArray.read_one]
      exact readBool_represents (read8Sym_represents hn h hin ha32 hnc)
    · obtain ⟨hdvd, hpos⟩ := hw.resolve_left h1
      rw [if_neg h1, PlainArray.read, numBytes_of_ne h1]
      rw [numBytes_of_ne h1] at hin
      refine readBytes_represents hdvd hpos (fun s i hs hi => ?_) h
      obtain ⟨hsum, hsumc⟩ :=
        ha32.add_const (i := byteIdx littleEndian (width / 8) i) hnc
      have := byteIdx_lt littleEndian hi
      exact read8Sym_represents hn hs (by omega) hsum hsumc

/-! ### Reads change no bytes

Also under the assignments that put the offset out of bounds: a read may flush the object and
create its array, which other states see too. -/

lemma read8_keeps (hn : n ≤ 2 ^ 32) (h : Represents o ρ n b s.view) {k : ℕ}
    (hread : s.read8 o k = some (e, s')) : Represents o ρ n b s'.view := by
  unfold read8 at hread
  split at hread
  · obtain ⟨-, rfl⟩ := Prod.mk.inj (Option.some.inj hread)
    exact h
  · split at hread
    · obtain ⟨-, rfl⟩ := Prod.mk.inj (Option.some.inj hread)
      exact h
    · split at hread
      · obtain ⟨-, rfl⟩ := Prod.mk.inj (Option.some.inj hread)
        exact (getUpdates_represents hn h).1
      · simp at hread

lemma read8Sym_keeps (hn : n ≤ 2 ^ 32) (h : Represents o ρ n b s.view) {offset : Expr}
    (hread : s.read8Sym o offset = some (e, s')) :
    Represents o ρ n b s'.view := by
  obtain ⟨s₁, hs₁, h₁, -⟩ := flushRangeForRead_represents hn h
  unfold read8Sym at hread
  split at hread
  · simp at hread
  · rw [hs₁] at hread
    obtain ⟨-, rfl⟩ := Prod.mk.inj (Option.some.inj hread)
    exact (getUpdates_represents hn h₁).1

lemma readLoop_keeps {rd : ObjectState → ℕ → Option (Expr × ObjectState)}
    (hrd : ∀ s i e s', Represents o ρ n b s.view → rd s i = some (e, s') →
      Represents o ρ n b s'.view) (todo : ℕ) :
    ∀ i res s e s', Represents o ρ n b s.view →
      readLoop rd todo i res s = some (e, s') → Represents o ρ n b s'.view := by
  induction todo with
  | zero =>
    intro i res s e s' h hread
    obtain ⟨-, rfl⟩ := Prod.mk.inj (Option.some.inj hread)
    exact h
  | succ todo ih =>
    intro i res s e s' h hread
    obtain ⟨⟨e₁, s₁⟩, hs₁, hrest⟩ := Option.bind_eq_some_iff.mp hread
    exact ih _ _ s₁ e s' (hrd s i e₁ s₁ h hs₁) hrest

lemma readBytes_keeps {rd : ObjectState → ℕ → ℕ → Option (Expr × ObjectState)}
    (hrd : ∀ s m i e s', Represents o ρ n b s.view → rd s m i = some (e, s') →
      Represents o ρ n b s'.view) (h : Represents o ρ n b s.view)
    (hread : readBytes rd s width = some (e, s')) :
    Represents o ρ n b s'.view := by
  unfold readBytes at hread
  split at hread
  · simp at hread
  · split at hread
    · simp at hread
    · next m _ =>
      obtain ⟨⟨e₁, s₁⟩, hs₁, hrest⟩ := Option.bind_eq_some_iff.mp hread
      exact readLoop_keeps (fun s i => hrd s (m + 1) i) m 1 e₁ s₁ e s'
        (hrd s (m + 1) 0 e₁ s₁ h hs₁) hrest

lemma readBool_keeps {r : Option (Expr × ObjectState)}
    (h : ∀ e s', r = some (e, s') → Represents o ρ n b s'.view)
    (hread : readBool r = some (e, s')) : Represents o ρ n b s'.view := by
  obtain ⟨⟨e₁, s₁⟩, hr, heq⟩ := Option.map_eq_some_iff.mp hread
  obtain ⟨-, rfl⟩ := Prod.mk.inj heq
  exact h e₁ _ hr

theorem read_keeps (hn : n ≤ 2 ^ 32) (h : Represents o ρ n b s.view) {offset : Expr}
    (hread : s.read o littleEndian offset width = some (e, s')) :
    Represents o ρ n b s'.view := by
  unfold ObjectState.read ObjectState.readAt at hread
  dsimp only at hread
  split at hread
  · split at hread
    · exact readBool_keeps (fun e s' => read8_keeps hn h) hread
    · exact readBytes_keeps (fun s m i e s' hs => read8_keeps hn hs) h hread
  · split at hread
    · exact readBool_keeps (fun e s' => read8Sym_keeps hn h) hread
    · exact readBytes_keeps (fun s m i e s' hs => read8Sym_keeps hn hs) h hread

/-! ### Writes -/

lemma write_one (hv : v.width = 1) (b : PlainArray) : PlainArray.write littleEndian b offset v =
      update b offset (BitVec.ofNat 8 v.toNat) := by
  have hidx : byteIdx littleEndian 1 0 = 0 := by cases littleEndian <;> rfl
  simp [PlainArray.write, hv, numBytes_one, hidx]

/-- The byte `i` of a symbolic value. -/
lemma HasValue.byte (hv : HasValue o ρ value v) (hi : 8 * i + 8 ≤ v.width) :
    HasValue o ρ (ExtractExpr.create value (8 * i) 8)
      ⟨8, BitVec.ofNat 8 (v.toNat / 2 ^ (8 * i))⟩ := by
  rw [← extract_byte]
  exact hv.extract (Nat.succ_pos _) hi

lemma writeAtSlow_represents (h : Represents o ρ n b s.view)
    (hv : HasValue o ρ value v) (hw : ValidWidth v.width) :
    ∃ s', s.writeAtSlow littleEndian offset value = some s' ∧
      Represents o ρ n (PlainArray.write littleEndian b offset v) s'.view := by
  have hwidth : value.width = v.width := hv.ofWidth.width_eq
  unfold writeAtSlow
  dsimp only
  rw [hwidth]
  by_cases h1 : v.width = 1
  · rw [if_pos h1, write_one h1]
    exact ⟨_, rfl, write8Expr_represents h (hv.zExt (Nat.succ_pos _))⟩
  · obtain ⟨hdvd, hpos⟩ := hw.resolve_left h1
    rw [if_neg h1, if_neg (by omega), ← numBytes_of_ne h1]
    refine writeLoop_write (fun b s i hs hi => ⟨_, rfl, ?_⟩) h
    rw [numBytes_of_ne h1] at hi
    exact write8Expr_represents hs (hv.byte (by omega))

theorem writeAt_represents (h : Represents o ρ n b s.view)
    (hv : HasValue o ρ value v) (hw : ValidWidth v.width) :
    ∃ s', s.writeAt littleEndian offset value = some s' ∧
      Represents o ρ n (PlainArray.write littleEndian b offset v) s'.view := by
  unfold writeAt
  cases hc : value.constant? with
  | none => exact writeAtSlow_represents h hv hw
  | some c =>
    obtain rfl := Expr.constant?_eq_some.mp hc
    obtain rfl : c = v := hv.eval_eq
    dsimp only
    split_ifs with hpow hbyte
    · -- the widths that `write8` to `write64` handle
      exact writeLoop_write (fun b s i hs _ => ⟨_, rfl, write8_represents hs _⟩) h
    · exfalso
      rcases hw with hw | ⟨hdvd, hpos⟩
      · exact hbyte (Or.inl hw)
      · exact hbyte (Or.inr (Nat.le_of_dvd hpos hdvd))
    · exact writeAtSlow_represents h hv hw

theorem write_represents (hn : n ≤ 2 ^ 32) (h : Represents o ρ n b s.view) {offset : Expr}
    (ha : HasValue o ρ offset a) (hv : HasValue o ρ value v)
    (hw : ValidWidth v.width) (hin : a.toNat + numBytes v.width ≤ n) :
    ∃ s', s.write o littleEndian offset value = some s' ∧
      Represents o ρ n (PlainArray.write littleEndian b a.toNat v) s'.view := by
  have hbytes := hw.numBytes_pos
  have ha32 : HasValue o ρ (ZExtExpr.create offset 32) (.ofNat 32 a.toNat) :=
    ha.zExt (Nat.succ_pos _)
  have hwidth : value.width = v.width := hv.ofWidth.width_eq
  unfold write
  dsimp only
  cases hc : (ZExtExpr.create offset 32).constant? with
  | some c =>
    simp only [toNat_of_zExt ha hc (by omega)]
    exact writeAt_represents h hv hw
  | none =>
    have hnc := Expr.constant?_eq_none.mp hc
    dsimp only
    rw [hwidth]
    by_cases h1 : v.width = 1
    · rw [if_pos h1, write_one h1]
      rw [h1] at hin
      exact write8Sym_represents hn h hin ha32 hnc (hv.zExt (Nat.succ_pos _))
    · obtain ⟨hdvd, hpos⟩ := hw.resolve_left h1
      rw [if_neg h1, if_neg (by omega), ← numBytes_of_ne h1]
      refine writeLoop_write (fun b s i hs hi => ?_) h
      obtain ⟨hsum, hsumc⟩ :=
        ha32.add_const (i := byteIdx littleEndian (numBytes v.width) i) hnc
      have := byteIdx_lt littleEndian hi
      rw [numBytes_of_ne h1] at hi
      exact write8Sym_represents hn hs (by omega) hsum hsumc (hv.byte (by omega))

end Loops

/-! ### Sequences of accesses -/

/-- A call of one of the functions `read` and `write`, at a concrete or a symbolic offset. -/
inductive Access
  | readAt (offset width : ℕ)
  | read (offset : Expr) (width : ℕ)
  | writeAt (offset : ℕ) (value : Expr)
  | write (offset value : Expr)

namespace Access

/-- The result of an access, if it is a read, and the new state. -/
def step (o : Opts) (littleEndian : Bool) (s : ObjectState) :
    Access → Option (Option Expr × ObjectState)
  | readAt offset width => (s.readAt o littleEndian offset width).map fun p => (some p.1, p.2)
  | read offset width => (s.read o littleEndian offset width).map fun p => (some p.1, p.2)
  | writeAt offset value => (s.writeAt littleEndian offset value).map fun s => (none, s)
  | write offset value => (s.write o littleEndian offset value).map fun s => (none, s)

/-- The results of a sequence of accesses. -/
def run (o : Opts) (littleEndian : Bool) :
    ObjectState → List Access → Option (List (Option Expr) × ObjectState)
  | s, [] => some ([], s)
  | s, a :: as => (a.step o littleEndian s).bind fun p =>
      (run o littleEndian p.2 as).map fun q => (p.1 :: q.1, q.2)

/-- The access on a plain array, with the values that its expressions have under `ρ`. -/
def plainStep (littleEndian : Bool) (ρ : Valuation) (b : PlainArray) :
    Access → Option APInt × PlainArray
  | readAt offset width => (some (b.read littleEndian offset width), b)
  | read offset width => (some (b.read littleEndian (offset.eval ρ).toNat width), b)
  | writeAt offset value => (none, b.write littleEndian offset (value.eval ρ))
  | write offset value => (none, b.write littleEndian (offset.eval ρ).toNat (value.eval ρ))

/-- The results of a sequence of accesses to a plain array. -/
def plainRun (littleEndian : Bool) (ρ : Valuation) : PlainArray → List Access → List (Option APInt)
  | _, [] => []
  | b, a :: as => (a.plainStep littleEndian ρ b).1 ::
      plainRun littleEndian ρ (a.plainStep littleEndian ρ b).2 as

/-- Offsets and values are well-typed canonical expressions, and the width is one bit or
whole bytes. -/
def WellTyped : Access → Prop
  | readAt _ width => ValidWidth width
  | read offset width => offset.Typed ∧ offset.Canon ∧ ValidWidth width
  | writeAt _ value => value.Typed ∧ value.Canon ∧ ValidWidth value.width
  | write offset value => (offset.Typed ∧ offset.Canon) ∧ value.Typed ∧ value.Canon ∧
      ValidWidth value.width

/-- The access stays inside an object of `n` bytes. -/
def InBounds (ρ : Valuation) (n : ℕ) : Access → Prop
  | readAt offset width => offset + numBytes width ≤ n
  | read offset width => (offset.eval ρ).toNat + numBytes width ≤ n
  | writeAt offset value => offset + numBytes value.width ≤ n
  | write offset value => (offset.eval ρ).toNat + numBytes value.width ≤ n

instance (ρ : Valuation) (n : ℕ) (a : Access) : Decidable (a.InBounds ρ n) :=
  match a with
  | readAt _ _ | read _ _ | writeAt _ _ | write _ _ => inferInstanceAs (Decidable (_ ≤ _))

/-- The offset and the value read no constant array out of bounds. -/
def Defined (o : Opts) (ρ : Valuation) : Access → Prop
  | readAt _ _ => True
  | read offset _ => offset.Defined o ρ
  | writeAt _ value => value.Defined o ρ
  | write offset value => offset.Defined o ρ ∧ value.Defined o ρ

end Access

section Runs

variable {o : Opts} {ρ : Valuation} {n : ℕ} {littleEndian : Bool}

lemma hasValue_eval (ht : e.Typed) (hc : e.Canon) (hd : e.Defined o ρ) :
    HasValue o ρ e (e.eval ρ) :=
  ⟨⟨ht, hc, (Expr.eval_width ρ ht).symm⟩, hd, rfl⟩

/-- One access. -/
theorem step_represents (hn : n ≤ 2 ^ 32)
    (h : Represents o ρ n b s.view) {a : Access} (ht : a.WellTyped) (hd : a.Defined o ρ)
    (hin : a.InBounds ρ n) :
    ∃ r s', a.step o littleEndian s = some (r, s') ∧
      Represents o ρ n (a.plainStep littleEndian ρ b).2 s'.view ∧
      r.map (Expr.eval ρ) = (a.plainStep littleEndian ρ b).1 := by
  cases a with
  | readAt offset width =>
    obtain ⟨e, s', hs', h', he⟩ := readAt_represents hn h ht hin
    exact ⟨some e, s', by rw [Access.step, hs']; rfl, h', congrArg some he.eval_eq⟩
  | read offset width =>
    obtain ⟨e, s', hs', h', he⟩ :=
      read_represents hn h (hasValue_eval ht.1 ht.2.1 hd) ht.2.2 hin
    exact ⟨some e, s', by rw [Access.step, hs']; rfl, h', congrArg some he.eval_eq⟩
  | writeAt offset value =>
    have hv := hasValue_eval ht.1 ht.2.1 hd
    obtain ⟨s', hs', h'⟩ := writeAt_represents h hv (hv.ofWidth.width_eq ▸ ht.2.2)
    exact ⟨none, s', by rw [Access.step, hs']; rfl, h', rfl⟩
  | write offset value =>
    have hv := hasValue_eval ht.2.1 ht.2.2.1 hd.2
    have hwidth : value.width = (value.eval ρ).width := hv.ofWidth.width_eq
    obtain ⟨s', hs', h'⟩ := write_represents hn h (hasValue_eval ht.1.1 ht.1.2 hd.1) hv
      (hwidth ▸ ht.2.2.2) (hwidth ▸ hin)
    exact ⟨none, s', by rw [Access.step, hs']; rfl, h', rfl⟩

/-- A run of accesses, by induction on the sequence. -/
theorem run_represents (hn : n ≤ 2 ^ 32) (as : List Access) :
    ∀ (b : PlainArray) (s : ObjectState), Represents o ρ n b s.view →
      (∀ a ∈ as, a.WellTyped ∧ a.Defined o ρ ∧ a.InBounds ρ n) →
      ∃ rs s' b', Access.run o littleEndian s as = some (rs, s') ∧ Represents o ρ n b' s'.view ∧
        rs.map (Option.map (Expr.eval ρ)) = Access.plainRun littleEndian ρ b as := by
  induction as with
  | nil =>
    intro b s h _
    exact ⟨[], s, b, rfl, h, rfl⟩
  | cons a as ih =>
    intro b s h has
    obtain ⟨ht, hd, hin⟩ := has a List.mem_cons_self
    obtain ⟨r, s₁, hs₁, h₁, hr⟩ := step_represents hn h ht hd hin
    obtain ⟨rs, s', b', hs', h', hrs⟩ := ih _ s₁ h₁ fun x hx => has x (List.mem_cons_of_mem _ hx)
    refine ⟨r :: rs, s', b', ?_, h', ?_⟩
    · rw [Access.run, hs₁, Option.bind_some, hs']
      rfl
    · rw [List.map_cons, hr, hrs]
      rfl

/-! ### New objects -/

/-- A new object of `n` bytes and its contents: zeros, or the bytes of a symbolic array. -/
inductive Initial (ρ : Valuation) (n : ℕ) : ObjectState → PlainArray → Prop
  | concrete (id : ℕ) : Initial ρ n (.ofConcrete n id none) fun _ => 0
  | concreteTmp (id : ℕ) (tmp : KArray) (hwf : tmp.WF) (hd : tmp.domain = 32)
      (hr : tmp.range = 8) (hsym : tmp.isSymbolicArray = true) :
      Initial ρ n (.ofConcrete n id (some tmp)) fun _ => 0
  | symbolic (id : ℕ) (array : KArray) (hwf : array.WF) (hd : array.domain = 32)
      (hr : array.range = 8) (hsym : array.isSymbolicArray = true) :
      Initial ρ n (.ofArray n id array) fun i => BitVec.ofNat 8 (ρ array i)

section Concrete

variable {tmp : Option KArray} (htmp : ∀ a, tmp = some a →
  a.WF ∧ a.domain = 32 ∧ a.range = 8 ∧ (a.isSymbolicArray = false → a.size = n))

include htmp

/-- An object that is filled with one byte. -/
lemma filled_represents (id : ℕ) (b : BitVec 8) : Represents o ρ n (fun _ => b)
    { ofConcrete n id tmp with concreteStore := fun _ => b }.view := by
  refine ⟨rfl, htmp, by simp [view, ofConcrete, UpdateNode.ByteChain,
    UpdateNode.writes], fun _ => trivial, fun i _ => ?_⟩
  refine ⟨fun h => ?_, fun _ => Or.inl rfl, fun _ => rfl, fun e he => ?_, fun hf => ?_⟩
  · simp [view, known, ofConcrete] at h
  · simp [view, known, ofConcrete] at he
  · simp [view, isByteFlushed, ofConcrete] at hf

lemma ofConcrete_represents (id : ℕ) : Represents o ρ n (fun _ => 0) (ofConcrete n id tmp).view :=
  filled_represents htmp id 0

end Concrete

/-- The bytes marked so far by `makeSymbolic` stay only in the update list. -/
lemma makeSymbolicLoop_view (is : List ℕ) : ∀ s : ObjectState,
      let t := s.makeSymbolicLoop is
      t.size = s.size ∧ t.root = s.root ∧ t.head = s.head ∧
        ∀ i, i ∈ is ∨ (s.isByteFlushed i = true ∧ s.isByteConcrete i = false ∧ s.known i = none) →
          t.isByteFlushed i = true ∧ t.isByteConcrete i = false ∧ t.known i = none := by
  induction is with
  | nil =>
    intro s
    exact ⟨rfl, rfl, rfl, fun i hi => hi.resolve_left List.not_mem_nil⟩
  | cons k is ih =>
    intro s
    have hflush : ∀ (t : ObjectState) i, i = k ∨ t.isByteFlushed i = true →
        (t.markByteFlushed k).isByteFlushed i = true := by
      intro t i hi
      obtain ⟨n, st, cm, fm, ks, r, h, id⟩ := t
      cases fm with
      | none => rfl
      | some m =>
        rcases eq_or_ne i k with rfl | hik
        · simp [markByteFlushed, isByteFlushed]
        · simpa [markByteFlushed, isByteFlushed, hik] using hi
    have hframe : ∀ t : ObjectState, (t.markByteFlushed k).size = t.size ∧
        (t.markByteFlushed k).root = t.root ∧ (t.markByteFlushed k).head = t.head ∧
        (t.markByteFlushed k).isByteConcrete = t.isByteConcrete ∧
        (t.markByteFlushed k).known = t.known := by
      intro t
      unfold markByteFlushed
      split <;> exact ⟨rfl, rfl, rfl, rfl, rfl⟩
    set t := (s.markByteSymbolic k).setKnownSymbolic k none with ht
    have hview : t.view = { s.view with
        concrete := update s.view.concrete k false
        known := update s.view.known k none } := by
      rw [ht, view_setKnownSymbolic, view_markByteSymbolic]
    obtain ⟨f1, f2, f3, f4, f5⟩ := hframe t
    obtain ⟨h1, h2, h3, h4⟩ := ih (t.markByteFlushed k)
    have hsize : t.size = s.size := congrArg ByteView.size hview
    have hroot : t.root = s.root := congrArg ByteView.root hview
    have hhead : t.head = s.head := congrArg ByteView.head hview
    have hconc : t.isByteConcrete = update s.isByteConcrete k false :=
      congrArg ByteView.concrete hview
    have hknown : t.known = update s.known k none := congrArg ByteView.known hview
    have hfl : t.isByteFlushed = s.isByteFlushed := congrArg ByteView.flushed hview
    refine ⟨h1.trans (f1.trans hsize), h2.trans (f2.trans hroot), h3.trans (f3.trans hhead),
      fun i hi => h4 i ?_⟩
    rw [f4, f5, hconc, hknown]
    rcases eq_or_ne i k with rfl | hik
    · exact Or.inr ⟨hflush t i (Or.inl rfl), by simp, by simp⟩
    · rw [update_of_ne hik, update_of_ne hik]
      rcases hi with hi | ⟨hf, hc, hk⟩
      · exact Or.inl ((List.mem_cons.mp hi).resolve_left hik)
      · exact Or.inr ⟨hflush t i (Or.inr (by rw [hfl]; exact hf)), hc, hk⟩

lemma initial_represents (hn : n < 2 ^ 32) (h : Initial ρ n s b) : Represents o ρ n b s.view := by
  cases h with
  | concrete id => exact ofConcrete_represents (by simp) id
  | concreteTmp id tmp hwf hd hr hsym =>
    refine ofConcrete_represents (fun a ha => ?_) id
    obtain rfl := Option.some.inj ha
    exact ⟨hwf, hd, hr, fun hs => absurd (hs.symm.trans hsym) (by simp)⟩
  | symbolic id array hwf hd hr hsym =>
    obtain ⟨h1, h2, h3, h4⟩ := makeSymbolicLoop_view (List.range n)
      (ofConcrete n id (some array))
    refine ⟨h1, fun a ha => ?_, ?_, fun _ => ?_, fun i hi => ?_⟩
    · obtain rfl := Option.some.inj (h2.symm.trans ha)
      exact ⟨hwf, hd, hr, fun hs => absurd (hs.symm.trans hsym) (by simp)⟩
    · rw [show (ofArray n id array).view.head = .null from h3]
      simp [UpdateNode.ByteChain, UpdateNode.writes]
    · rw [show (ofArray n id array).view.head = .null from h3]
      trivial
    · obtain ⟨hf, hc, hk⟩ := h4 i (Or.inl (List.mem_range.mpr hi))
      have hcell : (ofArray n id array).view.cell ρ i =
          ⟨8, BitVec.ofNat 8 (ρ array i)⟩ := by
        have hnil : array.constantValues = [] := List.isEmpty_iff.mp hsym
        rw [ByteView.cell, show (ofArray n id array).view.head = .null from h3,
          show (ofArray n id array).view.root = some array from h2]
        rw [Option.getD_some, UpdateNode.evalAt, toNat_ofNat (hi.trans hn),
          KArray.initialValue, hnil, hr]
        rfl
      refine ⟨fun _ => hc, fun hu => ?_, fun hcc => ?_, fun e he => ?_, fun _ => hcell⟩
      · exact absurd (hf.symm.trans hu) (by simp)
      · exact absurd (hc.symm.trans hcc) (by simp)
      · exact absurd (hk.symm.trans he) (by simp)

/-- The cache invariants of `Memory.cpp`. -/
def ObjectState.CacheInvariants (s : ObjectState) : Prop :=
  ∀ i < s.size, (s.isByteKnownSymbolic i = true → s.isByteConcrete i = false) ∧
    (s.isByteFlushed i = false → s.isByteConcrete i = true ∨ s.isByteKnownSymbolic i = true)

lemma Represents.cacheInvariants (h : Represents o ρ n b s.view) : s.CacheInvariants := by
  intro i hi
  have hb := h.bytes i (h.size_eq ▸ hi)
  exact ⟨hb.known_not_concrete, hb.unflushed⟩

/-- An object is a byte array: for a new object of `n` bytes and every sequence of accesses that
stay in bounds under `ρ`, no assertion fails, the cache invariants hold after the sequence (and
so after each of its initial pieces), and the values read are those of the plain array. -/
theorem Access.run_correct (o : Opts) (littleEndian : Bool) (ρ : Valuation) (n : ℕ)
    (hn : n < 2 ^ 32) (s : ObjectState) (b : PlainArray) (hs : Initial ρ n s b)
    (as : List Access) (has : ∀ a ∈ as, a.WellTyped ∧ a.Defined o ρ ∧ a.InBounds ρ n) :
    ∃ rs s', Access.run o littleEndian s as = some (rs, s') ∧ s'.CacheInvariants ∧
      rs.map (Option.map (Expr.eval ρ)) = Access.plainRun littleEndian ρ b as := by
  obtain ⟨rs, s', b', hrun, hrep, hval⟩ :=
    run_represents hn.le as b s (initial_represents (o := o) hn hs) has
  exact ⟨rs, s', hrun, hrep.cacheInvariants, hval⟩

/-- A write at the symbolic offset `x[0]` and a read of two bytes. -/
def writeThenRead : List Access :=
  [.write (.zExt ConstraintManager.byteX 32) (.const (.ofNat 8 7)), .readAt 0 16]

/-- With `x[0] = 1` the write goes to the second byte of a zeroed object of two bytes. -/
theorem Access.run_correct_writeThenRead :
    ∃ rs s', Access.run ⟨true, true⟩ true (.ofConcrete 2 0 none) writeThenRead = some (rs, s') ∧
      s'.CacheInvariants ∧
      rs.map (Option.map (Expr.eval fun _ _ => 1)) = [none, some (.ofNat 16 1792)] := by
  have hx : ConstraintManager.byteX.InRange fun _ _ => 1 :=
    ⟨trivial, trivial, fun h => by simp [KArray.bytes, KArray.isSymbolicArray] at h⟩
  obtain ⟨rs, s', hrun, hcache, hval⟩ := Access.run_correct ⟨true, true⟩ true (fun _ _ => 1) 2
    (by decide) _ _ (.concrete 0) writeThenRead (by
      intro a ha
      rcases List.mem_pair.mp ha with rfl | rfl
      · exact ⟨⟨⟨⟨ConstraintManager.byteX_typed, by decide⟩, ⟨trivial, trivial⟩, rfl⟩,
          Nat.succ_pos _, trivial, Or.inr (by decide)⟩, ⟨fun _ => hx, fun _ => trivial⟩,
          by decide⟩
      · exact ⟨Or.inr (by decide), trivial, by decide⟩)
  exact ⟨rs, s', hrun, hcache, hval.trans (by decide)⟩

end Runs

end Castan
