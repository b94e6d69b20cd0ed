/-
# The addresses that the generic cache model picks

With an exact solver, the address that the search for the worst case finds is possible on the
path and the pointer is constrained to it.  It misses at every level if all levels are
set-associative.  If some level has contention sets then the search excludes the wrong blocks:
it compares block numbers with addresses, and looks for the cached blocks of a contention set in
the wrong line.  What it finds can be any line of a contention set that the pointer can be in.
-/
import Castan.Cache.GenericPointer
import Castan.Cache.SymbolicPointerSound
import Castan.Core.Fork

namespace Castan

open GenericCacheModel List
open ConstraintManager (simplifyExpr addConstraint)
open PointerQuery (Probe word lineMask costOrder Exact preferring exact_preferring)

variable {ρ₀ : Valuation} {line : BitVec 32} {a : BitVec 64}

/-! ### Constraints and exact solvers -/

section Solver

variable {o : Opts} {T P : Valuation → Prop} {e : Expr} {cs : List Expr}
  {getValue : GenericQuery.GetValue} {v : APInt}

lemma Tests.not (h : Tests o T e P) : Tests o T (NotExpr.create e) fun ρ => ¬ P ρ := by
  have htyped : (Expr.not e).Typed := h.isConstraint.typed
  have href : Refines o (NotExpr.create e) (.not e) := NotExpr.create_refines htyped
  refine ⟨⟨href.typed, NotExpr.create_canon h.isConstraint.canon,
    href.width_eq.trans h.isConstraint.width_eq⟩, fun ρ hρ ho => ?_, fun ρ hρ => ?_⟩
  · exact href.inRange ρ (h.defined ρ hρ ho)
  · obtain ⟨b, hb⟩ := Expr.eval_bool ρ h.isConstraint.typed h.isConstraint.width_eq
    rw [← h.holds_iff ρ hρ, Expr.Holds, Expr.Holds, href.eval_eq ρ (h.defined ρ hρ), Expr.eval, hb]
    cases b <;> decide

/-- A constraint that simplifies to false is false on the path. -/
lemma Tests.false_of_constant (h : Tests o T e P) (hfalse : e.constant?.any APInt.isFalse = true)
    (ρ : Valuation) (hρ : T ρ) : ¬ P ρ := by
  cases hc : e.constant? with
  | none => rw [hc] at hfalse; cases hfalse
  | some c =>
    rw [hc, Option.any_some, APInt.isFalse_iff] at hfalse
    obtain rfl := Expr.constant?_eq_some.mp hc
    rw [← h.holds_iff ρ hρ, Expr.Holds, Expr.eval, hfalse, APInt.bool_inj]
    exact Bool.false_ne_true

/-- A value that an exact solver returns is possible. -/
lemma exact_some (hsolver : Exact (fun _ => True) getValue) (hcs : Decides o cs T)
    (h : getValue cs e = some v) : ∃ ρ, T ρ ∧ e.eval ρ = v := by
  obtain ⟨ρ, -, hall, hv⟩ := hsolver.some_eval _ _ _ h
  exact ⟨ρ, (hcs.holds_iff ρ).mp hall, hv⟩

lemma preferring_eq (hcs : Decides o cs T) (hρ₀ : T ρ₀) :
    preferring ρ₀ cs e = some (e.eval ρ₀) :=
  SolverImpl.preferring_of_metBy ((hcs.holds_iff ρ₀).mpr hρ₀)

end Solver

namespace GenericQuery

variable {S T : Valuation → Prop} {q : GenericQuery} {x : Valuation → BitVec 64}
  {getValue : GetValue} {c : APInt}

/-- A call on a path with the assignments `S`, where the pointer has the value `x`. -/
structure Asks (S : Valuation → Prop) (q : GenericQuery) (x : Valuation → BitVec 64) :
    Prop where
  path : Decides q.o q.constraints S
  address : Computes q.o S q.address 64 fun ρ => ⟨64, x ρ⟩

lemma ofNat_toNat (value : BitVec 64) : APInt.ofNat 64 value.toNat = ⟨64, value⟩ := by
  rw [APInt.ofNat, BitVec.ofNat_toNat, BitVec.setWidth_eq]

lemma maskedEq_tests (h : Computes q.o T q.address 64 fun ρ => ⟨64, x ρ⟩)
    (mask value : BitVec 64) :
    Tests q.o T (q.maskedEq mask value) fun ρ => mask &&& x ρ = value := by
  rw [maskedEq, h.ofWidth.width_eq, ofNat_toNat, ofNat_toNat]
  have hvalue : Computes q.o T (.const ⟨64, value⟩) 64 fun _ => ⟨64, value⟩ :=
    .const (Nat.succ_pos _)
  have hmask : Computes q.o T (.const ⟨64, mask⟩) 64 fun _ => ⟨64, mask⟩ :=
    .const (Nat.succ_pos _)
  refine (Tests.eq hvalue (hmask.bin .and h)).congr fun ρ _ => ?_
  rw [BinKind.fold_mk]
  show (⟨64, value⟩ : APInt) = ⟨64, mask &&& x ρ⟩ ↔ _
  simp only [APInt.mk.injEq, heq_eq_eq, true_and]
  exact eq_comm

/-! ### Set-associative levels -/

/-- The blocks that are excluded. -/
lemma exclude_decides (h : Computes q.o T q.address 64 fun ρ => ⟨64, x ρ⟩)
    (hits : List (BitVec 64)) :
    ∀ {U : Valuation → Prop} {cs cs' : List Expr}, (∀ ρ, U ρ → T ρ) → Decides q.o cs U →
      q.exclude hits cs = some (some cs') →
      Decides q.o cs' fun ρ => U ρ ∧ ∀ hit ∈ hits,
        ((-1 : BitVec 64) <<< blockBits) &&& x ρ ≠ hit <<< blockBits := by
  induction hits with
  | nil =>
    intro U cs cs' _ hcs hex
    obtain rfl : cs = cs' := by simpa [exclude] using hex
    exact hcs.congr fun ρ => by simp
  | cons hit hits ih =>
    intro U cs cs' hUT hcs hex
    rw [exclude] at hex
    split_ifs at hex with hfalse
    · simp at hex
    · obtain ⟨cs₁, hadd, hrest⟩ := Option.bind_eq_some_iff.mp hex
      have htests : Tests q.o U (simplifyExpr q.o cs (q.notHit hit)) fun ρ =>
          ¬ ((-1 : BitVec 64) <<< blockBits) &&& x ρ = hit <<< blockBits :=
        (maskedEq_tests (h.mono hUT) _ _).not.simplifyExpr hcs
      have hcs₁ := hcs.of_addConstraint htests.isConstraint htests.defined hadd
      refine (ih (fun ρ hρ => hUT ρ hρ.1) hcs₁ hrest).congr fun ρ => ?_
      rw [forall_mem_cons]
      constructor
      · rintro ⟨⟨hU, hhit⟩, hhits⟩
        exact ⟨hU, (htests.holds_iff ρ hU).mp hhit, hhits⟩
      · rintro ⟨hU, hhit, hhits⟩
        exact ⟨⟨hU, (htests.holds_iff ρ hU).mpr hhit⟩, hhits⟩

/-- An address that is found in a line of set-associative levels. -/
lemma tryLine_found (h : Asks S q x) (hsolver : Exact (fun _ => True) getValue)
    (hfound : q.tryLine getValue line = some (some c)) :
    ∃ ρ, S ρ ∧ q.address.eval ρ = c ∧
      ((q.maxLine <<< blockBits).setWidth 64) &&& x ρ = line.setWidth 64 <<< blockBits ∧
      ∀ hit ∈ q.hitBlocks line, ((-1 : BitVec 64) <<< blockBits) &&& x ρ ≠ hit <<< blockBits := by
  rw [tryLine] at hfound
  split_ifs at hfound with hfalse
  · simp at hfound
  · obtain ⟨cs, hadd, hfound⟩ := Option.bind_eq_some_iff.mp hfound
    obtain ⟨r, hr, hfound⟩ := Option.map_eq_some_iff.mp hfound
    obtain ⟨cs', rfl, hvalue⟩ := Option.bind_eq_some_iff.mp hfound
    have htests := (maskedEq_tests h.address ((q.maxLine <<< blockBits).setWidth 64)
      (line.setWidth 64 <<< blockBits)).simplifyExpr h.path
    have hcs := h.path.of_addConstraint htests.isConstraint htests.defined hadd
    have hcs' := exclude_decides h.address _ (fun ρ hρ => hρ.1) hcs hr
    obtain ⟨ρ, ⟨⟨hρ, hline⟩, hhits⟩, heval⟩ := exact_some hsolver hcs' hvalue
    exact ⟨ρ, hρ, heval, (htests.holds_iff ρ hρ).mp hline, hhits⟩

/-- The levels that are set-associative have a power of two of lines. -/
def PowerOfTwoLines (q : GenericQuery) : Prop :=
  ∀ c ∈ q.cacheConfig, c.associativity ≠ 0 → c.SetAssociative ∧ ∃ k, c.lines = 2 ^ k

lemma lines_lt (c : CacheLevel) : c.lines < 2 ^ 26 := by
  have hsize : c.size.toNat < 2 ^ 32 := c.size.isLt
  have hle : c.size.toNat / c.associativity.toNat ≤ c.size.toNat := Nat.div_le_self _ _
  rw [CacheLevel.lines, show 2 ^ blockBits = 64 from rfl]
  omega

/-- The line of an address whose low bits are those of a line. -/
lemma line_of_masked {n : ℕ} {maxLine : BitVec 32} {y : BitVec 64} (hn : 2 ^ n ≤ 2 ^ 26)
    (hmax : maxLine.toNat + 1 = 2 ^ n)
    (h : (maxLine <<< blockBits).setWidth 64 &&& y = line.setWidth 64 <<< blockBits) :
    (y >>> blockBits).toNat % 2 ^ n = line.toNat := by
  have hshift := congrArg (fun v : BitVec 64 => (v >>> blockBits).toNat) h
  simp only [BitVec.ushiftRight_and_distrib, BitVec.toNat_and] at hshift
  have hmask : ((maxLine <<< blockBits).setWidth 64 >>> blockBits).toNat = 2 ^ n - 1 := by
    have hlt : maxLine.toNat < 2 ^ 26 := by omega
    simp only [BitVec.toNat_ushiftRight, BitVec.toNat_setWidth, BitVec.toNat_shiftLeft,
      Nat.shiftLeft_eq, Nat.shiftRight_eq_div_pow, show 2 ^ blockBits = 64 from rfl]
    omega
  have hline : (line.setWidth 64 <<< blockBits >>> blockBits).toNat = line.toNat := by
    have hlt : line.toNat < 2 ^ 32 := line.isLt
    simp only [BitVec.toNat_ushiftRight, BitVec.toNat_setWidth, BitVec.toNat_shiftLeft,
      Nat.shiftLeft_eq, Nat.shiftRight_eq_div_pow, show 2 ^ blockBits = 64 from rfl]
    omega
  rw [hmask, hline, Nat.and_comm, Nat.and_two_pow_sub_one_eq_mod] at hshift
  exact hshift

/-- The mask of the block of an address. -/
lemma masked_block (y : BitVec 64) :
    ((-1 : BitVec 64) <<< blockBits) &&& y = (y >>> blockBits) <<< blockBits := by
  rw [show (-1 : BitVec 64) = BitVec.allOnes 64 from rfl]
  ext i hi
  simp only [BitVec.getElem_and, BitVec.getElem_shiftLeft, BitVec.getElem_ushiftRight,
    BitVec.getElem_allOnes, blockBits]
  by_cases h : i < 6
  · simp [h]
  · simp [h, show 6 + (i - 6) = i by omega, BitVec.getLsbD_eq_getElem hi]

section SetAssociative

variable (hassoc : q.enumeratedSets = false) (hpow : q.PowerOfTwoLines)

include hassoc in
lemma associativity_ne_zero {c : CacheLevel} (hc : c ∈ q.cacheConfig) : c.associativity ≠ 0 := by
  have := any_eq_false.mp hassoc c hc
  simpa using this

include hassoc in
lemma mem_lines : line ∈ q.lines ↔ ∃ c ∈ q.cacheConfig, line.toNat < c.lines := by
  rw [lines, mem_flatMap]
  refine exists_congr fun c => and_congr_right fun hc => ?_
  rw [CacheLevel.lineNumbers, if_pos (associativity_ne_zero hassoc hc), mem_map]
  have hlt := lines_lt c
  constructor
  · rintro ⟨n, hn, rfl⟩
    rw [mem_range] at hn
    rwa [BitVec.toNat_ofNat, Nat.mod_eq_of_lt (by omega)]
  · intro h
    exact ⟨line.toNat, mem_range.mpr h, by simp⟩

include hassoc hpow

/-- The level with the most lines: its number of lines is a multiple of that of every level, and
`maxLine` is its last line. -/
lemma exists_maxLevel (hline : line ∈ q.lines) :
    ∃ n, 2 ^ n ≤ 2 ^ 26 ∧ q.maxLine.toNat + 1 = 2 ^ n ∧ ∀ c ∈ q.cacheConfig, c.lines ∣ 2 ^ n := by
  obtain ⟨c₁, hc₁, -⟩ := (mem_lines hassoc).mp hline
  cases hmax : q.cacheConfig.argmax CacheLevel.lines with
  | none =>
    rw [argmax_eq_none.mp hmax] at hc₁
    cases hc₁
  | some c₀ =>
    have hc₀ : c₀ ∈ q.cacheConfig := argmax_mem hmax
    have hle : ∀ c ∈ q.cacheConfig, c.lines ≤ c₀.lines := fun c hc => le_of_mem_argmax hc hmax
    have hpower : ∀ c ∈ q.cacheConfig, 0 < c.lines ∧ ∃ k, c.lines = 2 ^ k := fun c hc =>
      (hpow c hc (associativity_ne_zero hassoc hc)).imp_left CacheLevel.SetAssociative.lines_pos
    obtain ⟨hpos, n, hn⟩ := hpower c₀ hc₀
    have hlt := lines_lt c₀
    refine ⟨n, by omega, ?_, fun c hc => ?_⟩
    · have hlast : c₀.lines - 1 ∈ q.lines.map BitVec.toNat := by
        refine mem_map.mpr ⟨BitVec.ofNat 32 (c₀.lines - 1), ?_, ?_⟩
        · refine (mem_lines hassoc).mpr ⟨c₀, hc₀, ?_⟩
          rw [BitVec.toNat_ofNat, Nat.mod_eq_of_lt (by omega)]
          omega
        · rw [BitVec.toNat_ofNat, Nat.mod_eq_of_lt (by omega)]
      have hbound : ∀ y ∈ q.lines.map BitVec.toNat, y ≤ c₀.lines - 1 := by
        intro y hy
        obtain ⟨l, hl, rfl⟩ := mem_map.mp hy
        obtain ⟨c, hc, hlc⟩ := (mem_lines hassoc).mp hl
        have := hle c hc
        omega
      have hfold : (q.lines.map BitVec.toNat).foldr max 0 = c₀.lines - 1 :=
        le_antisymm (max_le_of_forall_le _ _ hbound) (le_max_of_le hlast le_rfl)
      rw [maxLine, hfold, BitVec.toNat_ofNat, Nat.mod_eq_of_lt (by omega), ← hn]
      omega
    · obtain ⟨-, k, hk⟩ := hpower c hc
      have := hle c hc
      rw [hk, hn] at this
      rw [hk]
      exact Nat.pow_dvd_pow 2 ((Nat.pow_le_pow_iff_right (by norm_num)).mp this)

/-- A block that is in the line and none of the excluded ones is cached at no level. -/
lemma not_cached (hline : line ∈ q.lines) {y : BitVec 64} (hplaced : q.model.Placed q.cacheConfig)
    (hmask : ((q.maxLine <<< blockBits).setWidth 64) &&& y = line.setWidth 64 <<< blockBits)
    (hhits : ∀ hit ∈ q.hitBlocks line, ((-1 : BitVec 64) <<< blockBits) &&& y ≠ hit <<< blockBits)
    {level : ℕ} {c : CacheLevel} (hc : q.cacheConfig[level]? = some c) (l : BitVec 32) :
    y >>> blockBits ∉ q.model.cache level l := by
  intro hmem
  obtain ⟨n, hn, hmax, hdvd⟩ := exists_maxLevel hassoc hpow hline
  have hcmem : c ∈ q.cacheConfig := mem_of_getElem? hc
  have hne := associativity_ne_zero hassoc hcmem
  obtain ⟨e, he⟩ := Option.isSome_iff_exists.mp (Std.TreeMap.mem_iff_isSome_getElem?.mp hmem)
  -- the block is in its own line, which is the one that was searched for cached blocks
  have hl : c.hitKey line = l := by
    rw [← hplaced level l _ e he c hc, CacheLevel.hitKey, CacheLevel.place, if_pos hne, if_pos hne,
      ← line_of_masked hn hmax hmask, Nat.mod_mod_of_dvd _ (hdvd c hcmem)]
  refine hhits (y >>> blockBits) ?_ (masked_block y)
  refine mem_flatMap.mpr ⟨(c, level), mk_mem_zipIdx_iff_getElem?.mpr hc, ?_⟩
  rw [hl]
  exact Std.TreeMap.mem_keys.mpr hmem

end SetAssociative

/-! ### Levels with contention sets -/

/-- Constraining the pointer to a possible line. -/
lemma addLine (h : Asks S q x) (hρ₀ : S ρ₀) (ha : lineMask &&& x ρ₀ = a) :
    (simplifyExpr q.o q.constraints (q.maskedEq lineMask a)).constant?.any APInt.isFalse = false ∧
      ∃ cs, addConstraint q.o q.constraints
          (simplifyExpr q.o q.constraints (q.maskedEq lineMask a)) = some cs ∧
        Decides q.o cs fun ρ => S ρ ∧ lineMask &&& x ρ = a := by
  have htests := (maskedEq_tests h.address lineMask a).simplifyExpr h.path
  constructor
  · by_contra hf
    exact htests.false_of_constant (by simpa using hf) ρ₀ hρ₀ ha
  · obtain ⟨cs, hadd, hcs⟩ := h.path.addConstraint htests.isConstraint htests.defined
      ⟨ρ₀, hρ₀, (htests.holds_iff ρ₀ hρ₀).mpr ha⟩
    exact ⟨cs, hadd, hcs.congr fun ρ => and_congr_right fun hρ => htests.holds_iff ρ hρ⟩

/-- The solver that prefers an assignment answers with it in the line it is in. -/
lemma probe_preferring (h : Asks S q x) (hρ₀ : S ρ₀) (ha : lineMask &&& x ρ₀ = a) :
    q.probe (preferring ρ₀) a = .value (q.address.eval ρ₀) := by
  obtain ⟨hnf, cs, hadd, hcs⟩ := addLine h hρ₀ ha
  simp only [probe, hnf, Bool.false_eq_true, if_false, hadd, preferring_eq hcs ⟨hρ₀, ha⟩]

/-- A value that an exact solver finds is a possible one in the line. -/
lemma probe_value (h : Asks S q x) (hsolver : Exact (fun _ => True) getValue)
    (hp : q.probe getValue a = .value c) :
    ∃ ρ, S ρ ∧ q.address.eval ρ = c ∧ lineMask &&& x ρ = a := by
  have htests := (maskedEq_tests h.address lineMask a).simplifyExpr h.path
  rw [probe] at hp
  split at hp
  · cases hp
  · split at hp
    · cases hp
    · next cs hadd =>
      split at hp
      · cases hp
      · next v hv =>
        obtain rfl := Probe.value.inj hp
        have hcs := h.path.of_addConstraint htests.isConstraint htests.defined hadd
        obtain ⟨ρ, ⟨hρ, hline⟩, heval⟩ := exact_some hsolver hcs hv
        exact ⟨ρ, hρ, heval, (htests.holds_iff ρ hρ).mp hline⟩

/-- An address that the loop returns is a value in one of the lines. -/
lemma tryAddresses_found {as : List (BitVec 64)} {hitCount : ℕ}
    (hfound : q.tryAddresses getValue line as hitCount = some (some c)) :
    ∃ a ∈ as, q.probe getValue a = .value c := by
  induction as generalizing hitCount with
  | nil => simp [tryAddresses] at hfound
  | cons a as ih =>
    have hskip : ∀ {n}, q.tryAddresses getValue line as n = some (some c) →
        ∃ a' ∈ a :: as, q.probe getValue a' = .value c := fun h =>
      (ih h).imp fun _ => And.imp_left (mem_cons_of_mem _)
    rw [tryAddresses] at hfound
    split at hfound
    · exact hskip hfound
    · cases hp : q.probe getValue a with
      | triviallyUnsat => exact hskip (by simpa only [hp] using hfound)
      | clash => simp [hp] at hfound
      | unsat => exact hskip (by simpa only [hp] using hfound)
      | value c' =>
        simp only [hp] at hfound
        split at hfound
        · obtain rfl : c' = c := by simpa using hfound
          exact ⟨a, mem_cons_self, hp⟩
        · exact hskip hfound

/-- The addresses of the contention sets of a configuration. -/
def InContentionSet (q : GenericQuery) (a : BitVec 64) : Prop :=
  ∃ c ∈ q.cacheConfig, c.associativity = 0 ∧ ∃ s ∈ c.contentionSets, a ∈ s.addresses

/-- The addresses that are tried are those of a contention set. -/
lemma inContentionSet_of_mem (ha : a ∈ q.addresses line) : q.InContentionSet a := by
  have hall : ∀ a ∈ q.addresses line, q.InContentionSet a := by
    refine foldlRecOn (motive := fun as => ∀ a ∈ as, q.InContentionSet a) q.cacheConfig _
      (by simp) fun as has c hc a ha => ?_
    split at ha
    · exact has a ha
    · next hzero =>
      split at ha
      · next s hs =>
        obtain ⟨i, -, hi⟩ := Option.bind_eq_some_iff.1 hs
        exact ⟨c, hc, not_ne_iff.1 hzero, s, mem_of_getElem? hi, ha⟩
      · exact has a ha
  exact hall a ha

/-- The lines that the search goes through are lines of some level. -/
lemma mem_lines_of_lineCosts {fuel : ℕ} {m : Std.TreeMap ((ℤ × ℤ) × ℕ) (BitVec 32) costOrder}
    (hm : q.lineCosts fuel = some m) (hline : line ∈ m.toList.map Prod.snd) : line ∈ q.lines := by
  have hfold : ∀ (ls : List (BitVec 32)) (m₀ : Std.TreeMap ((ℤ × ℤ) × ℕ) (BitVec 32) costOrder),
      (∀ l ∈ ls, l ∈ q.lines) → (∀ (key : (ℤ × ℤ) × ℕ) l, m₀[key]? = some l → l ∈ q.lines) →
      ls.foldlM (fun m line => (q.lineKey fuel line).map fun key => m.insert key line) m₀ = some m →
      ∀ (key : (ℤ × ℤ) × ℕ) l, m[key]? = some l → l ∈ q.lines := by
    intro ls
    induction ls with
    | nil =>
      intro m₀ _ hm₀ h
      obtain rfl : m₀ = m := by simpa using h
      exact hm₀
    | cons l₀ ls ih =>
      intro m₀ hls hm₀ h
      rw [foldlM_cons] at h
      obtain ⟨m₁, h₁, h⟩ := Option.bind_eq_some_iff.1 h
      obtain ⟨key, -, rfl⟩ := Option.map_eq_some_iff.1 h₁
      refine ih _ (fun l hl => hls l (mem_cons_of_mem _ hl)) (fun key' l hl => ?_) h
      rw [Std.TreeMap.getElem?_insert] at hl
      split at hl
      · obtain rfl := Option.some.inj hl
        exact hls _ mem_cons_self
      · exact hm₀ key' l hl
  obtain ⟨⟨key, l⟩, hp, rfl⟩ := mem_map.1 hline
  refine hfold _ ∅ (fun l hl => ?_) (by simp) hm key l
    (Std.TreeMap.mem_toList_iff_getKey?_eq_some_and_getElem?_eq_some.1 hp).2
  exact mem_dedup.1 ((mem_insertionSort _).1 hl)

/-! ### The whole call -/

/-- The call after its first statement. -/
def simplified (q : GenericQuery) : GenericQuery :=
  { q with address := simplifyExpr q.o q.constraints q.address }

lemma Asks.simplified (h : Asks S q x) : Asks S q.simplified x :=
  ⟨h.path, h.address.simplifyExpr h.path⟩

lemma Asks.eval_eq (h : Asks S q x) {ρ : Valuation} (hρ : S ρ) : q.address.eval ρ = ⟨64, x ρ⟩ :=
  (h.address.hasValue ρ hρ).eval_eq

/-- The block is in no line of any level. -/
def Uncached (q : GenericQuery) (block : BitVec 64) : Prop :=
  ∀ level c, q.cacheConfig[level]? = some c → ∀ line, block ∉ q.model.cache level line

/-- What a call that finds an address gives: the address is possible on the path, and the pointer
is constrained to it. -/
structure Picked (q : GenericQuery) (r : GenericResult) : Prop where
  feasible : ∃ ρ, (∀ e ∈ q.constraints, e.Holds ρ) ∧ q.address.eval ρ = r.address
  holds_iff : ∀ ρ, (∀ e ∈ r.constraints, e.Holds ρ) ↔
    (∀ e ∈ q.constraints, e.Holds ρ) ∧ q.address.eval ρ = r.address

/-- Constraining the pointer to a possible value. -/
lemma pick_decides (h : Asks S q x) (hρ₀ : S ρ₀) : ∃ cs, addConstraint q.o q.constraints
        (EqExpr.create q.o (.const (q.address.eval ρ₀)) q.address) = some cs ∧
      Decides q.o cs fun ρ => S ρ ∧ x ρ = x ρ₀ := by
  have hconst : Computes q.o S (.const ⟨64, x ρ₀⟩) 64 fun _ => ⟨64, x ρ₀⟩ :=
    .const (Nat.succ_pos _)
  have htests := Tests.eq hconst h.address
  rw [h.eval_eq hρ₀]
  obtain ⟨cs, hadd, hcs⟩ := h.path.addConstraint htests.isConstraint htests.defined
    ⟨ρ₀, hρ₀, (htests.holds_iff ρ₀ hρ₀).mpr rfl⟩
  refine ⟨cs, hadd, hcs.congr fun ρ => and_congr_right fun hρ => ?_⟩
  rw [htests.holds_iff ρ hρ]
  simp only [APInt.mk.injEq, heq_eq_eq, true_and]
  exact eq_comm

/-- A call that returns an address it found has found it in the search. -/
lemma concretize_found {fuel : ℕ} {r : GenericResult} (hworst : q.worstCaseSymIndices = true)
    (hr : q.concretize getValue fuel = some r) (hfound : r.found = true) :
    q.searchLines getValue fuel = some (some r.address) ∧
      addConstraint q.o q.constraints (EqExpr.create q.o (.const r.address) q.address) =
        some r.constraints := by
  rw [concretize, if_pos hworst] at hr
  obtain ⟨found, hsearch, hr⟩ := Option.bind_eq_some_iff.mp hr
  have hpick : ∀ {b c}, q.pick fuel b c = some r → r.found = b ∧ r.address = c ∧
      addConstraint q.o q.constraints (EqExpr.create q.o (.const c) q.address) =
        some r.constraints := by
    intro b c hp
    obtain ⟨cs, hadd, hp⟩ := Option.bind_eq_some_iff.mp hp
    obtain ⟨model, -, rfl⟩ := Option.map_eq_some_iff.mp hp
    exact ⟨rfl, rfl, hadd⟩
  cases found with
  | some c =>
    obtain ⟨-, rfl, hadd⟩ := hpick hr
    exact ⟨hsearch, hadd⟩
  | none =>
    obtain ⟨c, -, hr⟩ := Option.bind_eq_some_iff.mp hr
    rw [(hpick hr).1] at hfound
    cases hfound

/-- A search that finds an address returns it. -/
lemma concretize_of_search {fuel : ℕ} (h : Asks S q x) (hworst : q.worstCaseSymIndices = true)
    (hlength : q.cacheConfig.length ≤ 255) (hfuel : q.cacheConfig.length < fuel)
    (hρ₀ : S ρ₀) (hsearch : q.searchLines getValue fuel = some (some (q.address.eval ρ₀))) :
    ∃ r, q.concretize getValue fuel = some r ∧ r.found = true ∧ r.address = q.address.eval ρ₀ := by
  obtain ⟨cs, hadd, -⟩ := pick_decides h hρ₀
  obtain ⟨model, hmodel⟩ := updateCache_isSome hlength (Nat.zero_le _) hfuel
    q.model (word (q.address.eval ρ₀)) q.isWrite
  refine ⟨⟨cs, model, q.address.eval ρ₀, true⟩, ?_, rfl, rfl⟩
  rw [concretize, if_pos hworst, hsearch, Option.bind_some]
  show q.pick fuel true _ = _
  rw [pick, hadd, Option.bind_some, access, hmodel]
  rfl

/-- An address that the search finds comes from one of the lines. -/
lemma search_found {order : List (BitVec 32)} (hfound : q.search getValue order = some (some c)) :
    ∃ line ∈ order, (if q.enumeratedSets then
        q.tryAddresses getValue line (q.addresses line) (q.hits line).length
      else q.tryLine getValue line) = some (some c) := by
  induction order with
  | nil => simp [search] at hfound
  | cons line rest ih =>
    rw [search] at hfound
    obtain ⟨r, hr, hfound⟩ := Option.bind_eq_some_iff.mp hfound
    cases r with
    | some c' =>
      obtain rfl : c' = c := by simpa using hfound
      exact ⟨line, mem_cons_self, hr⟩
    | none =>
      obtain ⟨l, hl, hfound⟩ := ih hfound
      exact ⟨l, mem_cons_of_mem _ hl, hfound⟩

/-- The address that a search finds is possible.  Its block is not cached if all levels are
set-associative, and otherwise it is in a line of a contention set. -/
lemma searchLines_sound {fuel : ℕ} (h : Asks S q x) (hsolver : Exact (fun _ => True) getValue)
    (hpow : q.PowerOfTwoLines) (hplaced : q.model.Placed q.cacheConfig)
    (hfound : q.searchLines getValue fuel = some (some c)) :
    ∃ ρ, S ρ ∧ q.address.eval ρ = c ∧ (q.enumeratedSets = false ∧ q.Uncached (x ρ >>> blockBits) ∨
      q.enumeratedSets = true ∧ q.InContentionSet (lineMask &&& x ρ)) := by
  obtain ⟨m, hm, hfound⟩ := Option.bind_eq_some_iff.1 hfound
  split at hfound
  · cases hfound
  obtain ⟨line, hline, htry⟩ := search_found hfound
  cases henum : q.enumeratedSets with
  | true =>
    rw [henum, if_pos rfl] at htry
    obtain ⟨a, ha, hp⟩ := tryAddresses_found htry
    obtain ⟨ρ, hρ, heval, rfl⟩ := probe_value h hsolver hp
    exact ⟨ρ, hρ, heval, .inr ⟨rfl, inContentionSet_of_mem ha⟩⟩
  | false =>
    rw [henum, if_neg Bool.false_ne_true] at htry
    obtain ⟨ρ, hρ, heval, hmask, hhits⟩ := tryLine_found h hsolver htry
    exact ⟨ρ, hρ, heval, .inl ⟨rfl, fun level c hc l =>
      not_cached henum hpow (mem_lines_of_lineCosts hm hline) hplaced hmask hhits hc l⟩⟩

/-- The path constraints and the pointer of a call. -/
structure WellFormed (q : GenericQuery) : Prop where
  path : Decides q.o q.constraints fun ρ => ∀ e ∈ q.constraints, e.Holds ρ
  address : q.address.OfWidth 64
  defined : ∀ ρ, (∀ e ∈ q.constraints, e.Holds ρ) → q.address.Defined q.o ρ

lemma word_mk (y : BitVec 64) : word ⟨64, y⟩ = y := by
  simp [word, APInt.toNat]

lemma WellFormed.asks (h : q.WellFormed) :
    Asks (fun ρ => ∀ e ∈ q.constraints, e.Holds ρ) q fun ρ => word (q.address.eval ρ) where
  path := h.path
  address := by
    have hcomputes := Computes.of_defined h.address h.defined
    refine ⟨hcomputes.ofWidth, fun ρ hρ => ?_⟩
    obtain ⟨y, hy⟩ := Expr.exists_eval_eq h.address.typed h.address.width_eq ρ
    have hvalue := hcomputes.hasValue ρ hρ
    rwa [hy, ← word_mk y, ← hy] at hvalue

lemma memoryOperation_symbolic (getValue : GetValue) (fuel : ℕ) (h : q.address.isConst = false) :
    q.memoryOperation getValue fuel = q.simplified.concretize getValue fuel := by
  have hnone : q.address.constant? = none := Option.not_isSome_iff_eq_none.mp (by
    rw [← Expr.isConst, h]
    exact Bool.false_ne_true)
  rw [memoryOperation, hnone]
  rfl

/-- The pointer can have the value `y` on the path, in a line of a contention set. -/
def Targets (q : GenericQuery) (y : BitVec 64) : Prop :=
  (∃ ρ, (∀ e ∈ q.constraints, e.Holds ρ) ∧ q.address.eval ρ = ⟨64, y⟩) ∧
    q.InContentionSet (lineMask &&& y)

/-- A pointer to one of the first 256 bytes. -/
def byteQuery (cacheConfig : List CacheLevel) (model : GenericCacheModel) : GenericQuery where
  o := ⟨false, true⟩
  worstCaseSymIndices := true
  simplifyExprs := true
  cacheConfig := cacheConfig
  latency := fun level => BitVec.ofNat 64 (4 * level + 1)
  model := model
  constraints := []
  address := pointerX
  isWrite := false
  rand := fun line => line.toNat

lemma byteQuery_wellFormed (cacheConfig : List CacheLevel) (model : GenericCacheModel) :
    (byteQuery cacheConfig model).WellFormed where
  path := .of_defined (by simp [byteQuery]) (by simp [byteQuery])
  address := pointerX_ofWidth
  defined ρ _ := pointerX_defined _ ρ

lemma oneLine_power : (oneLine 1).SetAssociative ∧ ∃ k, (oneLine 1).lines = 2 ^ k :=
  ⟨⟨by decide, by decide⟩, 0, by decide⟩

/-- A level with a contention set of four ways for the address 0 and one of one way for the
address 64. -/
def twoSets : CacheLevel where
  size := 128
  writeBack := true
  associativity := 0
  contentionSets := [⟨[0], 4, by decide, by decide⟩, ⟨[64], 1, sorted_line, Nat.one_pos⟩]
  contentionSetIdx := ((∅ : Std.TreeMap (BitVec 64) ℕ).insert 0 0).insert 64 1

/-- Two levels of one line in front of the contention sets. -/
def threeLevels : List CacheLevel := [oneLine 1, oneLine 1, twoSets]

/-- The state after a read of an address. -/
def afterRead (address : BitVec 64) : GenericCacheModel :=
  (GenericCacheModel.run threeLevels 4 .empty [(address, false)]).getD .empty

lemma afterRead_reachable (address : BitVec 64) :
    run threeLevels 4 .empty [(address, false)] = some (afterRead address) := by
  obtain ⟨s, hs⟩ := updateCache_isSome
    (by decide : threeLevels.length ≤ 255) (Nat.zero_le _) (by decide : threeLevels.length < 4 + 0)
    .empty address false
  have hrun : run threeLevels 4 .empty [(address, false)] = some s := by
    rw [run, hs]
    rfl
  rw [afterRead, hrun, Option.getD_some]

/-- A pointer to one of the first 256 bytes, after a read of an address. -/
def secondAccess (address : BitVec 64) : GenericQuery := byteQuery threeLevels (afterRead address)

lemma secondAccess_power (address : BitVec 64) : (secondAccess address).PowerOfTwoLines := by
  intro c hc hne
  have hc : c ∈ [oneLine 1, oneLine 1, twoSets] := hc
  simp only [mem_cons, not_mem_nil, or_false] at hc
  rcases hc with rfl | rfl | rfl
  · exact oneLine_power
  · exact oneLine_power
  · exact absurd rfl hne

/-- The search starts with the line 1, whose set is closer to an eviction, and finds the address 64
there if one other block is taken for a hit. -/
lemma secondAccess_search (address block : BitVec 64) (hblock : block ≠ 64)
    (hcosts : ((secondAccess address).simplified.lineCosts 4).map
      (fun m => (m.isEmpty, m.toList.map Prod.snd)) = some (false, [1, 0]))
    (hhits : (secondAccess address).simplified.hits 1 = [block]) :
    (secondAccess address).simplified.searchLines (preferring fun _ _ => 64) 4 =
      some (some ((secondAccess address).simplified.address.eval fun _ _ => 64)) := by
  have hasks := (byteQuery_wellFormed threeLevels (afterRead address)).asks.simplified
  have hline : lineMask &&& word ((secondAccess address).address.eval fun _ _ => 64) = 64 := by
    show lineMask &&& word (pointerX.eval fun _ _ => 64) = 64
    decide +kernel
  have hprobe : (secondAccess address).simplified.probe (preferring fun _ _ => 64) 64 =
      .value ((secondAccess address).simplified.address.eval fun _ _ => 64) :=
    probe_preferring hasks (by simp [byteQuery]) hline
  have hassoc : (secondAccess address).simplified.associativity 1 = 1 := by
    show (byteQuery threeLevels .empty).associativity 1 = 1
    decide +kernel
  have haddresses : (secondAccess address).simplified.addresses 1 = [64] := by
    show (byteQuery threeLevels .empty).addresses 1 = [64]
    decide +kernel
  have htry : (secondAccess address).simplified.tryAddresses (preferring fun _ _ => 64) 1 [64] 1 =
      some (some ((secondAccess address).simplified.address.eval fun _ _ => 64)) := by
    simp only [tryAddresses, hhits, mem_singleton, hblock.symm, if_false, hprobe, hassoc]
    rfl
  obtain ⟨m, hm, hfacts⟩ := Option.map_eq_some_iff.1 hcosts
  obtain ⟨hempty, horder⟩ := Prod.mk.inj hfacts
  rw [searchLines, hm, Option.bind_some, hempty, if_neg Bool.false_ne_true, horder, search,
    if_pos (show (secondAccess address).simplified.enumeratedSets = true from rfl), haddresses,
    hhits]
  exact congrArg (Option.bind · _) htry

/-- The call returns the address 64. -/
lemma secondAccess_found {address : BitVec 64}
    (hsearch : (secondAccess address).simplified.searchLines (preferring fun _ _ => 64) 4 =
      some (some ((secondAccess address).simplified.address.eval fun _ _ => 64))) :
    ∃ r, (secondAccess address).memoryOperation (preferring fun _ _ => 64) 4 = some r ∧
      r.found = true ∧ word r.address >>> blockBits = 1 := by
  obtain ⟨r, hr, hfound, haddr⟩ := concretize_of_search
    (byteQuery_wellFormed threeLevels (afterRead address)).asks.simplified rfl
    (by decide : threeLevels.length ≤ 255) (by decide : threeLevels.length < 4)
    (by simp [byteQuery]) hsearch
  refine ⟨r, (memoryOperation_symbolic _ _ rfl).trans hr, hfound, ?_⟩
  rw [haddr]
  show word ((simplifyExpr ⟨false, true⟩ [] pointerX).eval fun _ _ => 64) >>> blockBits = 1
  decide +kernel

end GenericQuery

end Castan
