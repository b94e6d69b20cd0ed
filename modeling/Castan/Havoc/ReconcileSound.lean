/-
# Havoc reconciliation is sound

With an exact solver and a table that holds only pairs of a hash and an input of the havoced
function, `processTestCase` never makes the constraints of a path unsatisfiable.  If it counts all
packets as reconciled, then under every assignment that is left each output is the hash of its
input.
-/
import Castan.Core.Path
import Castan.Havoc.Reconcile

namespace Castan

open List RainbowTable
open ConstraintManager

variable {array : KArray} {rt : RainbowTable} {os : ObjectState} {s : Symbolic}
  {syms : List Symbolic}

namespace Havoc

variable {o : Opts} {ρ : Valuation} {S : Valuation → Prop} {cs : List Expr}

/-! ### Outputs -/

/-- An array for the output of a havoc. -/
structure OutputArray (array : KArray) : Prop where
  wf : array.WF
  domain : array.domain = 32
  range : array.range = 8
  symbolic : array.isSymbolicArray = true
  size : array.size = 1 ∨ array.size = 2 ∨ array.size = 4 ∨ array.size = 8

/-- The bytes of an array under an assignment. -/
def bytesAt (ρ : Valuation) (array : KArray) (i : ℕ) : BitVec 8 := BitVec.ofNat 8 (ρ array i)

/-- The contents of an array under an assignment. -/
def contentsAt (ρ : Valuation) (array : KArray) : List (BitVec 8) :=
  (List.range array.size).map (bytesAt ρ array)

/-- The output of a havoc, in little-endian order. -/
def outputAt (ρ : Valuation) (array : KArray) : ℕ := PlainArray.sum (bytesAt ρ array) array.size

lemma read_hasValue (h : OutputArray array) (ρ : Valuation) {i : ℕ} (hi : i < 8) :
    HasValue o ρ (ReadExpr.create o array .null (.const (.ofNat 32 i))) ⟨8, bytesAt ρ array i⟩ := by
  have htyped : (Expr.read array .null (.const (.ofNat 32 i))).Typed :=
    ⟨h.wf, Nat.succ_pos _, h.domain.symm, trivial⟩
  have hnil : array.constantValues = [] := isEmpty_iff.mp h.symbolic
  refine HasValue.of_refines (ReadExpr.create_refines htyped)
    (ReadExpr.create_canon trivial trivial) h.range (fun _ => ⟨trivial, trivial, fun hs => ?_⟩) ?_
  · rw [h.symbolic] at hs
    cases hs
  · rw [Expr.eval, Expr.eval, UpdateNode.evalAt, APInt.toNat_ofNat (by omega),
      KArray.initialValue, hnil, h.range]
    rfl

lemma sum_one (x : ℕ → BitVec 8) : (⟨8, x 0⟩ : APInt) = .ofNat 8 (PlainArray.sum x 1) := by
  rw [PlainArray.sum, Finset.sum_range_one, pow_zero, mul_one, APInt.ofNat,
    BitVec.ofNat_toNat, BitVec.setWidth_eq]

/-- `createTempRead` reads an output in little-endian order. -/
lemma createTempRead_hasValue (h : OutputArray array) (o : Opts) :
    ∃ e, createTempRead o array (array.size * 8) = some e ∧
      ∀ ρ, HasValue o ρ e (.ofNat (8 * array.size) (outputAt ρ array)) := by
  set rd := fun i => ReadExpr.create o array .null (.const (.ofNat 32 i)) with hrd
  -- one more byte in front
  have hbyte : ∀ ρ {i}, i < 8 → HasValue o ρ (rd i) ⟨8, bytesAt ρ array i⟩ := fun ρ _ hi =>
    read_hasValue h ρ hi
  have hfirst : ∀ ρ, HasValue o ρ (rd 0) (.ofNat (8 * 1) (PlainArray.sum (bytesAt ρ array) 1)) :=
    fun ρ => sum_one (bytesAt ρ array) ▸ hbyte ρ (by decide)
  have hmore : ∀ ρ {n e}, n < 8 →
      HasValue o ρ e (.ofNat (8 * n) (PlainArray.sum (bytesAt ρ array) n)) →
      HasValue o ρ (ConcatExpr.create (rd n) e)
        (.ofNat (8 * (n + 1)) (PlainArray.sum (bytesAt ρ array) (n + 1))) := by
    intro ρ n e hn he
    rw [← APInt.concat_sum]
    exact (hbyte ρ hn).concat he
  have hsecond := fun ρ => hmore ρ (by decide) (hfirst ρ)
  have hfourth := fun ρ => hmore ρ (by decide) (hmore ρ (by decide) (hsecond ρ))
  simp only [outputAt]
  rcases h.size with hs | hs | hs | hs <;> rw [hs]
  · exact ⟨_, rfl, hfirst⟩
  · exact ⟨_, rfl, hsecond⟩
  · exact ⟨_, rfl, hfourth⟩
  · exact ⟨_, rfl, fun ρ => hmore ρ (by decide) (hmore ρ (by decide) (hmore ρ (by decide)
      (hmore ρ (by decide) (hfourth ρ))))⟩

lemma toNat_valueOf_cons {b : BitVec 8} {bytes : List (BitVec 8)}
    (h : (valueOf bytes).toNat < 2 ^ 56) :
    (valueOf (b :: bytes)).toNat = b.toNat + 256 * (valueOf bytes).toNat := by
  have hshift : (valueOf bytes <<< 8).toNat = (valueOf bytes).toNat <<< 8 := by
    rw [BitVec.toNat_shiftLeft, Nat.shiftLeft_eq]
    exact Nat.mod_eq_of_lt (by omega)
  have hbyte : (b.setWidth 64).toNat = b.toNat := by
    rw [BitVec.toNat_setWidth]
    exact Nat.mod_eq_of_lt (b.isLt.trans (by decide))
  rw [valueOf, foldr_cons, ← valueOf, BitVec.toNat_or, hshift, hbyte,
    ← Nat.shiftLeft_add_eq_or_of_lt b.isLt, Nat.shiftLeft_eq]
  ring

lemma sum_succ_front (x : ℕ → BitVec 8) (n : ℕ) :
    PlainArray.sum x (n + 1) = (x 0).toNat + 256 * PlainArray.sum (fun i => x (i + 1)) n := by
  rw [PlainArray.sum, Finset.sum_range_succ', PlainArray.sum, Finset.mul_sum, Nat.add_comm]
  congr 1
  · rw [pow_zero, mul_one]
  · exact Finset.sum_congr rfl fun i _ => by ring

/-- The value of up to eight bytes is the little-endian one. -/
lemma toNat_valueOf (x : ℕ → BitVec 8) {n : ℕ} (hn : n ≤ 8) :
    (valueOf ((List.range n).map x)).toNat = PlainArray.sum x n := by
  induction n generalizing x with
  | zero => rfl
  | succ n ih =>
    have hvalue := ih (fun i => x (i + 1)) (by omega)
    have hlt : PlainArray.sum (fun i => x (i + 1)) n < 2 ^ 56 :=
      (PlainArray.sum_lt _ n).trans_le (Nat.pow_le_pow_right (by decide) (by omega))
    rw [range_succ_eq_map, map_cons, map_map, sum_succ_front]
    have hcomp : (x ∘ Nat.succ) = fun i => x (i + 1) := rfl
    rw [hcomp, toNat_valueOf_cons (by rw [hvalue]; exact hlt), hvalue]

lemma OutputArray.size_le (h : OutputArray array) : array.size ≤ 8 := by
  rcases h.size with hs | hs | hs | hs <;> omega

lemma toNat_valueOf_contentsAt (h : OutputArray array) (ρ : Valuation) :
    (valueOf (contentsAt ρ array)).toNat = outputAt ρ array :=
  toNat_valueOf _ h.size_le

lemma ofNat_outputAt_iff (ρ₀ ρ : Valuation) (a : KArray) :
    APInt.ofNat (8 * a.size) (outputAt ρ₀ a) = .ofNat (8 * a.size) (outputAt ρ a) ↔
      outputAt ρ a = outputAt ρ₀ a := by
  have hlt : ∀ ρ, outputAt ρ a < 2 ^ (8 * a.size) := fun ρ => PlainArray.sum_lt _ _
  constructor
  · intro hofNat
    have htoNat := congrArg APInt.toNat hofNat
    rw [APInt.toNat_ofNat (hlt ρ₀), APInt.toNat_ofNat (hlt ρ)] at htoNat
    exact htoNat.symm
  · intro hout
    rw [hout]

/-- Fixing the outputs to their values under an assignment of the path. -/
lemma fixOutputs_decides {ρ₀ : Valuation} (arrays : List KArray)
    (harrays : ∀ a ∈ arrays, OutputArray a) (hS : S ρ₀) (h : Decides o cs S) :
    ∃ cs', fixOutputs o (arrays.map fun a => (a, contentsAt ρ₀ a)) cs = some cs' ∧
      Decides o cs' fun ρ => S ρ ∧ ∀ a ∈ arrays, outputAt ρ a = outputAt ρ₀ a := by
  induction arrays generalizing cs S with
  | nil => exact ⟨cs, rfl, h.congr fun ρ => by simp⟩
  | cons a arrays ih =>
    rw [forall_mem_cons] at harrays
    obtain ⟨e, hread, he⟩ := createTempRead_hasValue harrays.1 o
    have hlen : (contentsAt ρ₀ a).length * 8 = 8 * a.size := by
      rw [contentsAt, length_map, length_range, Nat.mul_comm]
    set q := EqExpr.create o (.const (.ofNat ((contentsAt ρ₀ a).length * 8)
      (valueOf (contentsAt ρ₀ a)).toNat)) e with hq
    have hvalue : ∀ ρ, HasValue o ρ q (.bool (decide (outputAt ρ a = outputAt ρ₀ a))) := by
      intro ρ
      have hpos : 0 < 8 * a.size := by rcases harrays.1.size with hs | hs | hs | hs <;> omega
      have heq := (HasValue.const (o := o) (ρ := ρ) (.ofNat (8 * a.size) (outputAt ρ₀ a))
        hpos).eq (he ρ) rfl
      rw [hq, hlen, toNat_valueOf_contentsAt harrays.1]
      rwa [decide_eq_decide.mpr (ofNat_outputAt_iff ρ₀ ρ a)] at heq
    have hholds : ∀ ρ, q.Holds ρ ↔ outputAt ρ a = outputAt ρ₀ a := fun ρ =>
      (hvalue ρ).holds_iff.trans decide_eq_true_iff
    obtain ⟨cs₁, hadd, h₁⟩ := h.addConstraint (hvalue ρ₀).isConstraint
      (fun ρ _ => (hvalue ρ).defined) ⟨ρ₀, hS, (hholds ρ₀).mpr rfl⟩
    obtain ⟨cs', hfix, h'⟩ := ih harrays.2 ⟨hS, (hholds ρ₀).mpr rfl⟩ h₁
    refine ⟨cs', ?_, h'.congr fun ρ => ?_⟩
    · rw [map_cons, fixOutputs, hread]
      simp only [Option.bind_eq_bind, Option.bind_some]
      rw [hadd]
      exact hfix
    · rw [hholds, forall_mem_cons, and_assoc]

/-! ### Inputs -/

/-- The bytes of an expression list under an assignment. -/
def BytesHaveValue (o : Opts) (ρ : Valuation) (input : List Expr) (x : List (BitVec 8)) : Prop :=
  List.Forall₂ (fun e b => HasValue o ρ e ⟨8, b⟩) input x

/-- The new query says that the input is the key. -/
lemma newQuery_hasValue {query : Expr} {b : Bool} {input : List Expr} {x key : List (BitVec 8)}
    (hquery : HasValue o ρ query (.bool b)) (hinput : BytesHaveValue o ρ input x)
    (hlen : key.length = input.length) :
    ∃ b', HasValue o ρ (newQuery o query input key) (.bool b') ∧
      (b' = true ↔ x = key ∧ b = true) := by
  induction hinput generalizing query b key with
  | nil =>
    obtain rfl := length_eq_zero_iff.mp hlen
    exact ⟨b, hquery, by simp⟩
  | @cons e y input x he hinput ih =>
    cases key with
    | nil => simp at hlen
    | cons k key =>
      have heq := (HasValue.const (o := o) (ρ := ρ) ⟨8, k⟩ (Nat.succ_pos 7)).eq he rfl
      obtain ⟨b', hvalue, hiff⟩ := ih (heq.and hquery) (by simpa using hlen)
      refine ⟨b', hvalue, hiff.trans ?_⟩
      simp only [Bool.and_eq_true, decide_eq_true_eq, List.cons.injEq, APInt.mk.injEq, heq_eq_eq,
        true_and]
      tauto

/-! ### The solver and the table -/

/-- The solver is exact: it finds the values of the arrays under an assignment of the path, and
knows what may be true. -/
structure ExactSolver (env : Env) : Prop where
  getInitialValues : ∀ cs arrays, (∃ ρ, ∀ c ∈ cs, c.Holds ρ) →
    ∃ ρ, (∀ c ∈ cs, c.Holds ρ) ∧ env.getInitialValues cs arrays = some (arrays.map (contentsAt ρ))
  mayBeTrue : ∀ cs e, ∃ b, env.mayBeTrue cs e = some b ∧
    (b = true ↔ ∃ ρ, (∀ c ∈ cs, c.Holds ρ) ∧ e.Holds ρ)

/-- The table holds only pairs of a hash of `f` and an input of `k` bytes. -/
structure TableOf (f : List (BitVec 8) → ℕ) (k : ℕ) (content : List Char) : Prop where
  exists_records : ∃ records : List Record, content = tableFile records ∧
    ∀ r ∈ records, r.key.length = k ∧ f r.key = r.hash.toNat
  length_lt : RainbowTable.recordLength k < 2 ^ 32

/-- A query that has a truth value on the path and is possible. -/
structure QueryOk (o : Opts) (S : Valuation → Prop) (q : Expr) : Prop where
  hasValue : ∀ ρ, S ρ → ∃ b, HasValue o ρ q (.bool b)
  sat : ∃ ρ, S ρ ∧ q.Holds ρ

section Reverse

variable {env : Env} {f : List (BitVec 8) → ℕ} {k : ℕ} {query : Expr} {input : List Expr}
  {x : Valuation → List (BitVec 8)}

lemma reverseHavoc_of_nil (h : rt.getValue.1 = some []) :
    reverseHavoc env cs query input rt = some none := by
  rw [reverseHavoc]
  split <;> simp_all

lemma reverseHavoc_of_key {key : List (BitVec 8)}
    (h : rt.getValue.1 = some key) (hne : key ≠ []) (hlen : key.length = input.length) :
    reverseHavoc env cs query input rt =
      if (env.mayBeTrue cs (newQuery env.o query input key)).getD false then
        some (some (newQuery env.o query input key))
      else reverseHavoc env cs query input rt.getValue.2 := by
  rw [reverseHavoc]
  split
  · simp_all
  · simp_all
  · next b key' hkey =>
    obtain rfl : b :: key' = key := Option.some.inj (hkey.symm.trans h)
    rw [if_pos hlen]

/-- A table entry that is accepted fixes the input to a preimage of the value. -/
lemma reverseHavoc_spec (hsolver : ExactSolver env) (h : Decides env.o cs S)
    (hquery : QueryOk env.o S query) (hinput : ∀ ρ, S ρ → BytesHaveValue env.o ρ input (x ρ))
    (hlen : input.length = k) {records : List Record}
    (hrt : RainbowTable.Reading k rt records)
    (hrecords : ∀ r ∈ records, r.key.length = k ∧ f r.key = r.hash.toNat) :
    ∃ res, reverseHavoc env cs query input rt = some res ∧ ∀ q, res = some q → QueryOk env.o S q ∧
        ∀ ρ, S ρ → q.Holds ρ → query.Holds ρ ∧ f (x ρ) = rt.value := by
  induction records generalizing rt with
  | nil =>
    obtain ⟨rt', hget, -, -⟩ := getValue_nil hrt
    exact ⟨none, reverseHavoc_of_nil (by rw [hget]), by simp⟩
  | cons r records ih =>
    rw [forall_mem_cons] at hrecords
    obtain ⟨rt', hget, hvalue, hrt'⟩ := getValue_cons hrt hrecords.1.1
    have hfst : rt.getValue.1 = some (answer rt.value r) := by rw [hget]
    by_cases hkey : r.hash.toNat = rt.value ∧ r.key ≠ []
    · obtain ⟨hhash, hne⟩ := hkey
      rw [answer, if_pos hhash] at hfst
      have hklen : r.key.length = input.length := hrecords.1.1.trans hlen.symm
      obtain ⟨b, hb, hmay⟩ := hsolver.mayBeTrue cs (newQuery env.o query input r.key)
      rw [reverseHavoc_of_key hfst hne hklen, hb, Option.getD_some, hget]
      cases b with
      | false =>
        obtain ⟨res, hres, hspec⟩ := ih hrt' hrecords.2
        refine ⟨res, by simpa using hres, fun q hq => ?_⟩
        rw [← hvalue]
        exact hspec q hq
      | true =>
        refine ⟨some (newQuery env.o query input r.key), by simp, fun q hq => ?_⟩
        obtain rfl := Option.some.inj hq
        have hnew : ∀ ρ, S ρ → ∃ b',
            HasValue env.o ρ (newQuery env.o query input r.key) (.bool b') ∧
            (b' = true ↔ x ρ = r.key ∧ query.Holds ρ) := by
          intro ρ hS
          obtain ⟨c, hc⟩ := hquery.hasValue ρ hS
          rw [hc.holds_iff]
          exact newQuery_hasValue hc (hinput ρ hS) hklen
        refine ⟨⟨fun ρ hS => (hnew ρ hS).imp fun _ hb' => hb'.1, ?_⟩, fun ρ hS hholds => ?_⟩
        · obtain ⟨ρ, hρ, hholds⟩ := hmay.mp rfl
          exact ⟨ρ, (h.holds_iff ρ).mp hρ, hholds⟩
        · obtain ⟨b', hb', hiff⟩ := hnew ρ hS
          obtain ⟨hx, hq'⟩ := hiff.mp (hb'.holds_iff.mp hholds)
          exact ⟨hq', by rw [hx, hrecords.1.2, hhash]⟩
    · -- another hash, or nothing to compare with: the table has no more entries
      have hnil : answer rt.value r = [] := by
        rw [answer]
        split_ifs with hhash
        · by_contra hne
          exact hkey ⟨hhash, hne⟩
        · rfl
      rw [hnil] at hfst
      exact ⟨none, reverseHavoc_of_nil hfst, by simp⟩

end Reverse

/-! ### Packets -/

/-- A havoc with what it stands for: its input as a function of the assignment, and the array of
its output. -/
structure Meaning where
  havoc : Havoc
  input : Valuation → List (BitVec 8)
  output : KArray

variable {ms : List Meaning}

/-- The havoc has the input and the output on the path. -/
structure Meaning.Ok (o : Opts) (S : Valuation → Prop) (k : ℕ) (m : Meaning) : Prop where
  output_eq : m.havoc.output = some m.output
  outputArray : OutputArray m.output
  length_input : m.havoc.input.length = k
  hasValue : ∀ ρ, S ρ → BytesHaveValue o ρ m.havoc.input (m.input ρ)

/-- The output is the hash of the input under the assignments in `S`. -/
def Meaning.Reconciled (f : List (BitVec 8) → ℕ) (S : Valuation → Prop) (m : Meaning) : Prop :=
  ∀ ρ, S ρ → f (m.input ρ) = outputAt ρ m.output

section Packets

variable {env : Env} {f : List (BitVec 8) → ℕ} {k : ℕ}

lemma Meaning.Ok.mono {S' : Valuation → Prop} {m : Meaning} (h : m.Ok o S k)
    (hsub : ∀ ρ, S' ρ → S ρ) : m.Ok o S' k :=
  { h with hasValue := fun ρ hS => h.hasValue ρ (hsub ρ hS) }

/-- The loop over the havocs of a packet. -/
lemma reverseHavocs_spec (hsolver : ExactSolver env) (htable : TableOf f k env.rainbowTableFile)
    (h : Decides env.o cs S) {v : Meaning → BitVec 64}
    (hms : ∀ m ∈ ms, m.Ok env.o S k) {query : Expr} (hquery : QueryOk env.o S query) (n : ℕ) :
    ∃ q n', reverseHavocs env cs (ms.map fun m => (m.havoc, v m)) query n = some (q, n') ∧
      QueryOk env.o S q ∧ n' ≤ n + ms.length ∧
      (∀ ρ, S ρ → q.Holds ρ → query.Holds ρ) ∧
      (n + ms.length ≤ n' → ∀ m ∈ ms, ∀ ρ, S ρ → q.Holds ρ → f (m.input ρ) = (v m).toNat) := by
  induction ms generalizing query n with
  | nil => exact ⟨query, n, rfl, hquery, le_rfl, fun _ _ hq => hq, by simp⟩
  | cons m ms ih =>
    rw [forall_mem_cons] at hms
    obtain ⟨records, hcontent, hrecords⟩ := htable.exists_records
    obtain ⟨rt, i, hcreate, hvalue, hreading, -, -⟩ := create_reading
      (fun r hr => (hrecords r hr).1) htable.length_lt (v m).toNat
    obtain ⟨res, hres, hspec⟩ := reverseHavoc_spec hsolver h hquery hms.1.hasValue
      hms.1.length_input hreading fun r hr => hrecords r (mem_of_mem_drop hr)
    have hstep : ∀ r, reverseHavoc env cs query m.havoc.input rt = some r →
        reverseHavocs env cs ((m :: ms).map fun m => (m.havoc, v m)) query n =
          r.elim (reverseHavocs env cs (ms.map fun m => (m.havoc, v m)) query n) fun q =>
            reverseHavocs env cs (ms.map fun m => (m.havoc, v m)) q (n + 1) := by
      intro r hr
      rw [map_cons, reverseHavocs, hcontent, hcreate]
      cases r <;> simp only [Option.bind_eq_bind, Option.bind_some, hr, Option.elim_none,
        Option.elim_some]
    rw [hstep res hres]
    cases res with
    | none =>
      obtain ⟨q, n', hrun, hq, hle, hmono, -⟩ := ih hms.2 hquery n
      refine ⟨q, n', hrun, hq, hle.trans (by simp), hmono, fun hfull => ?_⟩
      rw [length_cons] at hfull
      omega
    | some q₁ =>
      obtain ⟨hq₁, hfix⟩ := hspec q₁ rfl
      obtain ⟨q, n', hrun, hq, hle, hmono, hall⟩ := ih hms.2 hq₁ (n + 1)
      refine ⟨q, n', hrun, hq, ?_, fun ρ hS hholds => (hfix ρ hS (hmono ρ hS hholds)).1, ?_⟩
      · rw [length_cons]
        omega
      · intro hfull
        rw [length_cons] at hfull
        rw [forall_mem_cons]
        refine ⟨fun ρ hS hholds => ?_, hall (by omega)⟩
        rw [(hfix ρ hS (hmono ρ hS hholds)).2, hvalue]

lemma mapM_output (hms : ∀ m ∈ ms, m.Ok o S k) :
    (ms.map Meaning.havoc).mapM Havoc.output = some (ms.map Meaning.output) := by
  induction ms with
  | nil => rfl
  | cons m ms ih =>
    rw [forall_mem_cons] at hms
    rw [map_cons, mapM_cons, hms.1.output_eq, ih hms.2]
    rfl

/-- One packet: the path stays possible, and a packet that counts as reconciled is. -/
lemma processPacket_spec (hsolver : ExactSolver env) (htable : TableOf f k env.rainbowTableFile)
    (h : Decides env.o cs S) (hsat : ∃ ρ, S ρ)
    (hms : ∀ m ∈ ms, m.Ok env.o S k) (array : KArray) :
    ∃ cs' b S', processPacket env cs ⟨array, ms.map Meaning.havoc⟩ = some (cs', b) ∧
      Decides env.o cs' S' ∧ (∃ ρ, S' ρ) ∧ (∀ ρ, S' ρ → S ρ) ∧
      (b = true → ∀ m ∈ ms, m.Reconciled f S') := by
  rw [processPacket]
  by_cases hempty : ms = []
  · subst hempty
    exact ⟨cs, true, S, rfl, h, hsat, fun _ hS => hS, by simp⟩
  obtain ⟨ρ₀, hρ₀, hvalues⟩ := hsolver.getInitialValues cs (ms.map Meaning.output)
    (hsat.imp fun ρ hS => (h.holds_iff ρ).mpr hS)
  have hS₀ := (h.holds_iff ρ₀).mp hρ₀
  obtain ⟨cs₁, hfix, h₁⟩ := fixOutputs_decides (ms.map Meaning.output) (fun a ha => by
    obtain ⟨m, hm, rfl⟩ := mem_map.mp ha
    exact (hms m hm).outputArray) hS₀ h
  set S₁ := fun ρ => S ρ ∧ ∀ a ∈ ms.map Meaning.output, outputAt ρ a = outputAt ρ₀ a with hS₁
  have htrue : QueryOk env.o S₁ (.const (.bool true)) :=
    ⟨fun ρ _ => ⟨true, HasValue.const _ Nat.one_pos⟩, ρ₀, ⟨hS₀, fun _ _ => rfl⟩, rfl⟩
  obtain ⟨q, n, hrun, hq, -, -, hall⟩ := reverseHavocs_spec hsolver htable h₁
    (v := fun m => valueOf (contentsAt ρ₀ m.output))
    (fun m hm => (hms m hm).mono fun ρ hS => hS.1) htrue 0
  obtain ⟨ρ₁, hρ₁, hq₁⟩ := hq.sat
  obtain ⟨b₁, hb₁⟩ := hq.hasValue ρ₁ hρ₁
  obtain ⟨cs₂, hadd, h₂⟩ := h₁.addConstraint hb₁.isConstraint
    (fun ρ hS => (hq.hasValue ρ hS).elim fun _ hb => hb.defined) ⟨ρ₁, hρ₁, hq₁⟩
  refine ⟨cs₂, decide (ms.length ≤ n), _, ?_, h₂, ⟨ρ₁, hρ₁, hq₁⟩, fun ρ hS => hS.1.1, ?_⟩
  · have hzip : (ms.map Meaning.havoc).zip
        (((ms.map Meaning.output).map (contentsAt ρ₀)).map valueOf) =
        ms.map fun m => (m.havoc, valueOf (contentsAt ρ₀ m.output)) := by
      simp only [map_map, zip_map', Function.comp_def]
    have hzip' : (ms.map Meaning.output).zip ((ms.map Meaning.output).map (contentsAt ρ₀)) =
        (ms.map Meaning.output).map fun a => (a, contentsAt ρ₀ a) := by
      conv_lhs => rw [← map_id (ms.map Meaning.output)]
      simp only [map_map, zip_map', Function.comp_def, id_eq]
    rw [if_neg (by simpa using hempty), mapM_output hms]
    simp only [Option.bind_eq_bind, Option.bind_some, hvalues, hzip', hfix, hzip, hrun, hadd,
      length_map]
    rfl
  · intro hfull m hm ρ hS
    have hvalue := hall (by simpa using hfull) m hm ρ hS.1 hS.2
    rw [hvalue, toNat_valueOf_contentsAt (hms m hm).outputArray]
    exact (hS.1.2 m.output (mem_map_of_mem hm)).symm

/-- The loop over the packets. -/
lemma processPackets_spec (hsolver : ExactSolver env) (htable : TableOf f k env.rainbowTableFile)
    (h : Decides env.o cs S) (hsat : ∃ ρ, S ρ) {packets : List (KArray × List Meaning)}
    (hms : ∀ p ∈ packets, ∀ m ∈ p.2, m.Ok env.o S k) :
    ∃ cs' n S', processPackets env
        (packets.map fun p => ⟨p.1, p.2.map Meaning.havoc⟩) cs = some (cs', n) ∧
      Decides env.o cs' S' ∧ (∃ ρ, S' ρ) ∧ (∀ ρ, S' ρ → S ρ) ∧ n ≤ packets.length ∧
      (n = packets.length → ∀ p ∈ packets, ∀ m ∈ p.2, m.Reconciled f S') := by
  induction packets generalizing cs S with
  | nil => exact ⟨cs, 0, S, rfl, h, hsat, fun _ hS => hS, le_rfl, by simp⟩
  | cons p packets ih =>
    rw [forall_mem_cons] at hms
    obtain ⟨cs₁, b, S₁, hp, h₁, hsat₁, hsub₁, hrec₁⟩ :=
      processPacket_spec hsolver htable h hsat hms.1 p.1
    obtain ⟨cs', n, S', hrun, h', hsat', hsub', hle, hrec⟩ :=
      ih h₁ hsat₁ fun p hp m hm => (hms.2 p hp m hm).mono hsub₁
    have hb : b.toNat ≤ 1 := Bool.toNat_le b
    refine ⟨cs', b.toNat + n, S', ?_, h', hsat', fun ρ hS => hsub₁ ρ (hsub' ρ hS), ?_, ?_⟩
    · rw [map_cons, processPackets, hp]
      simp only [Option.bind_eq_bind, Option.bind_some, hrun]
      rfl
    · rw [length_cons]
      omega
    · intro hfull
      rw [length_cons] at hfull
      have hbt : b = true := by
        cases b
        · simp only [Bool.toNat_false] at hfull
          omega
        · rfl
      rw [forall_mem_cons]
      refine ⟨fun m hm ρ hS => hrec₁ hbt m hm ρ (hsub' ρ hS), hrec ?_⟩
      rw [hbt, Bool.toNat_true] at hfull
      omega

end Packets

/-! ### Collecting -/

/-- Where the loop over the symbols stands: before the first packet, after a packet or a complete
havoc, or between the input and the output of a havoc. -/
inductive Mode
  | start
  | idle
  | pending
deriving DecidableEq

/-- After each packet, inputs and outputs of havocs alternate. -/
def WellOrdered : Mode → List Symbolic → Prop
  | m, [] => m ≠ .pending
  | m, s :: ss =>
      if s.name = "castan_packet" then m ≠ .pending ∧ WellOrdered .idle ss
      else if s.name = "castan_havoc_in" then m = .idle ∧ WellOrdered .pending ss
      else if s.name = "castan_havoc_out" then m = .pending ∧ WellOrdered .idle ss
      else WellOrdered m ss

/-- A symbol that has nothing to do with havocs. -/
def Other (s : Symbolic) : Prop :=
  s.name ≠ "castan_packet" ∧ s.name ≠ "castan_havoc_in" ∧ s.name ≠ "castan_havoc_out"

/-- What the memory of a path holds: `content mo ρ` are the bytes of the object `mo` under the
assignment `ρ`. -/
abbrev Content := ℕ → Valuation → ℕ → BitVec 8

/-- The input of a havoc. -/
def inputAt (content : Content) (k : ℕ) (s : Symbolic) (ρ : Valuation) : List (BitVec 8) :=
  (List.range k).map (content s.mo ρ)

/-- The objects of the inputs have `k` bytes, and the arrays of the outputs are as they should
be. -/
structure SymbolsOk (o : Opts) (S : Valuation → Prop) (k : ℕ) (content : Content)
    (objects : ℕ → Option ObjectState) (syms : List Symbolic) : Prop where
  input : ∀ s ∈ syms, s.name = "castan_havoc_in" → ∃ os, objects s.mo = some os ∧ os.size = k ∧
    ∀ ρ, S ρ → Represents o ρ k (content s.mo ρ) os.view
  output : ∀ s ∈ syms, s.name = "castan_havoc_out" → OutputArray s.array

section Collect

variable {k : ℕ} {content : Content} {objects : ℕ → Option ObjectState}

lemma modifyBack_concat {α : Type} (f : α → Option α) (xs : List α) (x : α) :
    modifyBack f (xs ++ [x]) = (f x).map (xs ++ [·]) := by
  induction xs with
  | nil => rfl
  | cons y xs ih =>
    cases xs with
    | nil =>
      simp only [singleton_append, modifyBack, Option.map_map]
      rfl
    | cons z xs =>
      rw [cons_append, cons_append, modifyBack, ← cons_append, ih, Option.map_map]
      rfl

/-- The bytes that are read from an object, simplified. -/
lemma readInput_spec (h : Decides o cs S) (hk : k ≤ 2 ^ 32) {b : ℕ → BitVec 8} (hS : S ρ)
    (is : List ℕ) (his : ∀ i ∈ is, i < k) (hos : Represents o ρ k b os.view) :
    ∃ es os', readInput o cs is os = some (es, os') ∧ Represents o ρ k b os'.view ∧
      BytesHaveValue o ρ es (is.map b) := by
  induction is generalizing os with
  | nil => exact ⟨[], os, rfl, hos, .nil⟩
  | cons i is ih =>
    rw [forall_mem_cons] at his
    obtain ⟨e, os₁, hread, hos₁, he⟩ := read8_represents hk hos his.1
    obtain ⟨es, os', hrest, hos', hes⟩ := ih his.2 hos₁
    refine ⟨simplifyExpr o cs e :: es, os', ?_, hos', .cons (h.simplifyExpr_hasValue hS he) hes⟩
    rw [readInput, hread]
    simp only [Option.bind_eq_bind, Option.bind_some, hrest]
    rfl

/-- The input of a havoc, under all assignments of the path. -/
lemma readInput_range (h : Decides o cs S) (hsat : ∃ ρ, S ρ) (hk : k ≤ 2 ^ 32)
    {b : Valuation → ℕ → BitVec 8} (hsize : os.size = k)
    (hos : ∀ ρ, S ρ → Represents o ρ k (b ρ) os.view) :
    ∃ es os', readInput o cs (List.range os.size) os = some (es, os') ∧ os'.size = k ∧
      es.length = k ∧ ∀ ρ, S ρ → Represents o ρ k (b ρ) os'.view ∧
        BytesHaveValue o ρ es ((List.range k).map (b ρ)) := by
  obtain ⟨ρ₀, hS₀⟩ := hsat
  have hrange : ∀ i ∈ List.range k, i < k := fun i hi => mem_range.mp hi
  obtain ⟨es, os', hread, hos', hes⟩ := readInput_spec h hk hS₀ _ hrange (hos ρ₀ hS₀)
  rw [hsize]
  refine ⟨es, os', hread, hos'.size_eq, ?_, fun ρ hS => ?_⟩
  · rw [hes.length_eq, length_map, length_range]
  · -- the result does not depend on the assignment
    obtain ⟨es', os'', hread', hos'', hes'⟩ := readInput_spec h hk hS _ hrange (hos ρ hS)
    rw [hread] at hread'
    obtain ⟨rfl, rfl⟩ := Prod.mk.inj (Option.some.inj hread')
    exact ⟨hos'', hes'⟩

lemma SymbolsOk.tail
    (h : SymbolsOk o S k content objects (s :: syms)) : SymbolsOk o S k content objects syms :=
  ⟨fun s' hs' => h.input s' (mem_cons_of_mem _ hs'),
    fun s' hs' => h.output s' (mem_cons_of_mem _ hs')⟩

/-- Reading an object keeps the memory. -/
lemma SymbolsOk.update (h : SymbolsOk o S k content objects syms) {mo : ℕ} (hsize : os.size = k)
    (hos : ∀ ρ, S ρ → Represents o ρ k (content mo ρ) os.view) :
    SymbolsOk o S k content (Function.update objects mo (some os)) syms := by
  refine ⟨fun s hs hname => ?_, h.output⟩
  by_cases hmo : s.mo = mo
  · subst hmo
    exact ⟨os, by rw [Function.update_self], hsize, hos⟩
  · rw [Function.update_of_ne hmo]
    exact h.input s hs hname

/-- The packet of a list of meanings. -/
def toPacket (p : KArray × List Meaning) : Packet := ⟨p.1, p.2.map Meaning.havoc⟩

/-- The havoc with this input and this output is among the meanings. -/
def Covered (content : Content) (k : ℕ) (sin sout : Symbolic)
    (ps : List (KArray × List Meaning)) : Prop :=
  ∃ p ∈ ps, ∃ m ∈ p.2, m.input = inputAt content k sin ∧ m.output = sout.array

/-- Two symbols are the input and the output of one havoc if no symbol of a havoc is between
them. -/
structure IsHavoc (syms : List Symbolic) (sin sout : Symbolic) : Prop where
  split : ∃ pre mid post, syms = pre ++ sin :: (mid ++ sout :: post) ∧ ∀ s ∈ mid, Other s
  name_in : sin.name = "castan_havoc_in"
  name_out : sout.name = "castan_havoc_out"

/-- The loop over the symbols `syms` takes the meanings `ps` to the meanings `ps'`. -/
structure Collects (o : Opts) (S : Valuation → Prop) (k : ℕ) (content : Content)
    (cs : List Expr) (st : Collected) (syms : List Symbolic)
    (ps ps' : List (KArray × List Meaning)) : Prop where
  run : ∃ objects, syms.foldlM (collectSymbol o cs) st = some ⟨ps'.map toPacket, objects⟩
  ok : ∀ p ∈ ps', ∀ m ∈ p.2, m.Ok o S k
  keeps : ∀ p ∈ ps, ∀ m ∈ p.2, ∃ p' ∈ ps', m ∈ p'.2
  covers : ∀ sin sout, IsHavoc syms sin sout → Covered content k sin sout ps'

lemma IsHavoc.tail {sin sout : Symbolic}
    (h : IsHavoc (s :: syms) sin sout) (hs : s.name ≠ "castan_havoc_in") :
    IsHavoc syms sin sout := by
  obtain ⟨⟨pre, mid, post, heq, hmid⟩, hin, hout⟩ := h
  cases pre with
  | nil =>
    obtain ⟨rfl, -⟩ := List.cons.inj heq
    exact absurd hin hs
  | cons s' pre => exact ⟨⟨pre, mid, post, (List.cons.inj heq).2, hmid⟩, hin, hout⟩

/-- A step of the loop that does not start a havoc. -/
lemma Collects.cons {st st' : Collected} {ps ps₁ ps' : List (KArray × List Meaning)}
    (hstep : collectSymbol o cs st s = some st') (hs : s.name ≠ "castan_havoc_in")
    (hkeeps : ∀ p ∈ ps, ∀ m ∈ p.2, ∃ p' ∈ ps₁, m ∈ p'.2)
    (h : Collects o S k content cs st' syms ps₁ ps') :
    Collects o S k content cs st (s :: syms) ps ps' where
  run := by
    obtain ⟨objects, hrun⟩ := h.run
    refine ⟨objects, ?_⟩
    rw [foldlM_cons, hstep]
    exact hrun
  ok := h.ok
  keeps p hp m hm := by
    obtain ⟨p₁, hp₁, hm₁⟩ := hkeeps p hp m hm
    exact h.keeps p₁ hp₁ m hm₁
  covers sin sout hhavoc := h.covers sin sout (hhavoc.tail hs)

/-- The input of a havoc is read from its object. -/
lemma collectSymbol_in (h : Decides o cs S) (hsat : ∃ ρ, S ρ) (hk : k ≤ 2 ^ 32)
    (hname : s.name = "castan_havoc_in")
    (hsyms : SymbolsOk o S k content objects (s :: syms)) (init : List (KArray × List Meaning))
    (array : KArray) (ms : List Meaning) :
    ∃ es objects', collectSymbol o cs ⟨(init ++ [(array, ms)]).map toPacket, objects⟩ s =
        some ⟨init.map toPacket ++ [⟨array, ms.map Meaning.havoc ++ [⟨es, none⟩]⟩], objects'⟩ ∧
      SymbolsOk o S k content objects' syms ∧ es.length = k ∧
      ∀ ρ, S ρ → BytesHaveValue o ρ es (inputAt content k s ρ) := by
  obtain ⟨os, hos, hsize, hrep⟩ := hsyms.input s mem_cons_self hname
  obtain ⟨es, os', hread, hsize', hlen, hes⟩ := readInput_range h hsat hk hsize hrep
  refine ⟨es, Function.update objects s.mo (some os'), ?_,
    hsyms.tail.update hsize' fun ρ hS => (hes ρ hS).1, hlen, fun ρ hS => (hes ρ hS).2⟩
  rw [collectSymbol, if_neg (by rw [hname]; decide), if_pos hname]
  simp only [Option.bind_eq_bind, hos, Option.bind_some, hread, map_append,
    map_singleton, modifyBack_concat]
  rfl

/-- The output completes the havoc. -/
lemma collectSymbol_out (hname : s.name = "castan_havoc_out")
    (init : List (KArray × List Meaning)) (array : KArray) (ms : List Meaning) (es : List Expr)
    (x : Valuation → List (BitVec 8)) :
    collectSymbol o cs ⟨init.map toPacket ++ [⟨array, ms.map Meaning.havoc ++ [⟨es, none⟩]⟩],
        objects⟩ s =
      some ⟨(init ++ [(array, ms ++ [(⟨⟨es, some s.array⟩, x, s.array⟩ : Meaning)])]).map toPacket,
        objects⟩ := by
  rw [collectSymbol, if_neg (by rw [hname]; decide), if_neg (by rw [hname]; decide), if_pos hname]
  simp only [Option.bind_eq_bind, modifyBack_concat, Option.map_some, Option.bind_some,
    map_append, map_singleton]
  simp [toPacket]

/-- The loop over the symbols, outside of a havoc and inside of one. -/
lemma collect_run (h : Decides o cs S) (hsat : ∃ ρ, S ρ) (hk : k ≤ 2 ^ 32) :
    ∀ syms : List Symbolic,
      (∀ objects ps mode, mode ≠ .pending → (mode = .idle → ps ≠ []) → WellOrdered mode syms →
        SymbolsOk o S k content objects syms → (∀ p ∈ ps, ∀ m ∈ p.2, m.Ok o S k) →
        ∃ ps', Collects o S k content cs ⟨ps.map toPacket, objects⟩ syms ps ps') ∧
      (∀ objects init array ms input sin, WellOrdered .pending syms →
        SymbolsOk o S k content objects syms →
        (∀ p ∈ init ++ [(array, ms)], ∀ m ∈ p.2, m.Ok o S k) → input.length = k →
        (∀ ρ, S ρ → BytesHaveValue o ρ input (inputAt content k sin ρ)) →
        ∃ ps', Collects o S k content cs
            ⟨init.map toPacket ++ [⟨array, ms.map Meaning.havoc ++ [⟨input, none⟩]⟩], objects⟩
            syms (init ++ [(array, ms)]) ps' ∧
          ∀ mid sout post, syms = mid ++ sout :: post → (∀ s ∈ mid, Other s) →
            sout.name = "castan_havoc_out" → Covered content k sin sout ps') := by
  intro syms
  induction syms with
  | nil =>
    constructor
    · intro objects ps mode _ _ _ _ hok
      refine ⟨ps, ⟨objects, rfl⟩, hok, fun p hp m hm => ⟨p, hp, hm⟩, ?_⟩
      rintro sin sout ⟨⟨pre, mid, post, heq, -⟩, -, -⟩
      simp at heq
    · intro objects init array ms input sin horder
      exact absurd rfl horder
  | cons s syms ih =>
    constructor
    · intro objects ps mode hmode hne horder hsyms hok
      rw [WellOrdered] at horder
      by_cases hpacket : s.name = "castan_packet"
      · -- a new packet
        rw [if_pos hpacket] at horder
        obtain ⟨ps', hps'⟩ := ih.1 objects (ps ++ [(s.array, [])]) .idle (by decide) (by simp)
          horder.2 hsyms.tail (by
            intro p hp
            rcases mem_append.mp hp with hp | hp
            · exact hok p hp
            · rw [mem_singleton.mp hp]
              simp)
        refine ⟨ps', Collects.cons ?_ (by rw [hpacket]; decide)
          (fun p hp m hm => ⟨p, mem_append_left _ hp, hm⟩) hps'⟩
        rw [collectSymbol, if_pos hpacket, map_append]
        rfl
      rw [if_neg hpacket] at horder
      by_cases hin : s.name = "castan_havoc_in"
      · -- the input of a havoc
        rw [if_pos hin] at horder
        obtain ⟨init, ⟨array, ms⟩, rfl⟩ := 
          (eq_nil_or_concat' ps).resolve_left (hne horder.1)
        obtain ⟨es, objects', hstep, hsyms', hlen, hes⟩ :=
          collectSymbol_in h hsat hk hin hsyms init array ms
        obtain ⟨ps', hps', hcov⟩ :=
          ih.2 objects' init array ms es s horder.2 hsyms' hok hlen hes
        obtain ⟨objects'', hrun⟩ := hps'.run
        refine ⟨ps', ⟨objects'', ?_⟩, hps'.ok, hps'.keeps, fun sin sout hhavoc => ?_⟩
        · rw [foldlM_cons, hstep]
          exact hrun
        · obtain ⟨⟨pre, mid, post, heq, hmid⟩, hname, hname'⟩ := hhavoc
          cases pre with
          | nil =>
            obtain ⟨rfl, htail⟩ := List.cons.inj heq
            exact hcov mid sout post htail hmid hname'
          | cons s' pre =>
            exact hps'.covers sin sout
              ⟨⟨pre, mid, post, (List.cons.inj heq).2, hmid⟩, hname, hname'⟩
      rw [if_neg hin] at horder
      by_cases hout : s.name = "castan_havoc_out"
      · rw [if_pos hout] at horder
        exact absurd horder.1 hmode
      rw [if_neg hout] at horder
      obtain ⟨ps', hps'⟩ := ih.1 objects ps mode hmode hne horder hsyms.tail hok
      refine ⟨ps', Collects.cons ?_ hin (fun p hp m hm => ⟨p, hp, hm⟩) hps'⟩
      rw [collectSymbol, if_neg hpacket, if_neg hin, if_neg hout]
    · intro objects init array ms input sin horder hsyms hok hlen hinput
      rw [WellOrdered] at horder
      by_cases hpacket : s.name = "castan_packet"
      · rw [if_pos hpacket] at horder
        exact absurd rfl horder.1
      rw [if_neg hpacket] at horder
      by_cases hin : s.name = "castan_havoc_in"
      · rw [if_pos hin] at horder
        exact absurd horder.1 (by decide)
      rw [if_neg hin] at horder
      by_cases hout : s.name = "castan_havoc_out"
      · -- the output of the havoc
        rw [if_pos hout] at horder
        set m : Meaning := ⟨⟨input, some s.array⟩, inputAt content k sin, s.array⟩ with hm
        have hmok : m.Ok o S k := ⟨rfl, hsyms.output s mem_cons_self hout, hlen, hinput⟩
        obtain ⟨ps', hps'⟩ := ih.1 objects (init ++ [(array, ms ++ [m])]) .idle (by decide)
          (by simp) horder.2 hsyms.tail (by
            intro p hp
            rcases mem_append.mp hp with hp | hp
            · exact hok p (mem_append_left _ hp)
            · rw [mem_singleton.mp hp]
              intro m' hm'
              rcases mem_append.mp hm' with hm' | hm'
              · exact hok (array, ms) (by simp) m' hm'
              · rw [mem_singleton.mp hm']
                exact hmok)
        refine ⟨ps', Collects.cons (collectSymbol_out hout init array ms input _) hin ?_ hps', ?_⟩
        · intro p hp m' hm'
          rcases mem_append.mp hp with hp | hp
          · exact ⟨p, mem_append_left _ hp, hm'⟩
          · rw [mem_singleton.mp hp] at hm'
            exact ⟨(array, ms ++ [m]), by simp, mem_append_left _ hm'⟩
        · intro mid sout post heq hmid hname
          cases mid with
          | nil =>
            obtain ⟨rfl, -⟩ := List.cons.inj heq
            obtain ⟨p', hp', hm'⟩ := hps'.keeps (array, ms ++ [m]) (by simp) m (by simp)
            exact ⟨p', hp', m, hm', rfl, rfl⟩
          | cons s' mid =>
            obtain ⟨rfl, -⟩ := List.cons.inj heq
            exact absurd hout (hmid s mem_cons_self).2.2
      rw [if_neg hout] at horder
      obtain ⟨ps', hps', hcov⟩ :=
        ih.2 objects init array ms input sin horder hsyms.tail hok hlen hinput
      refine ⟨ps', Collects.cons ?_ hin (fun p hp m hm => ⟨p, hp, hm⟩) hps', ?_⟩
      · rw [collectSymbol, if_neg hpacket, if_neg hin, if_neg hout]
      · intro mid sout post heq hmid hname
        cases mid with
        | nil =>
          obtain ⟨rfl, -⟩ := List.cons.inj heq
          exact absurd hname hout
        | cons s' mid =>
          exact hcov mid sout post (List.cons.inj heq).2
            (fun x hx => hmid x (mem_cons_of_mem _ hx)) hname

end Collect

/-! ### Soundness -/

/-- Reconciling the havocs of a path keeps its constraints satisfiable after every packet.  If all
packets count as reconciled then every assignment that satisfies the final constraints gives each
havoc an output that is the hash of its input. -/
theorem processTestCase_sound (env : Env) (f : List (BitVec 8) → ℕ) (k : ℕ) (cs : List Expr)
    (objects : ℕ → Option ObjectState) (syms : List Symbolic) (content : Content)
    (hsolver : ExactSolver env) (htable : TableOf f k env.rainbowTableFile)
    (hcs : Decides env.o cs fun ρ => ∀ c ∈ cs, c.Holds ρ) (hsat : ∃ ρ, ∀ c ∈ cs, c.Holds ρ)
    (horder : WellOrdered .start syms)
    (hsyms : SymbolsOk env.o (fun ρ => ∀ c ∈ cs, c.Holds ρ) k content objects syms) :
    ∃ packets cs' n, collect env.o cs objects syms = some packets ∧
      processTestCase env cs objects syms = some (cs', n, packets.length) ∧
      (∀ pre post, packets = pre ++ post → ∃ cs₁ n₁, processPackets env pre cs = some (cs₁, n₁) ∧
        ∃ ρ, ∀ c ∈ cs₁, c.Holds ρ) ∧
      (n = packets.length → ∀ ρ, (∀ c ∈ cs', c.Holds ρ) → ∀ sin sout, IsHavoc syms sin sout →
        f (inputAt content k sin ρ) = outputAt ρ sout.array) := by
  have hk : k ≤ 2 ^ 32 := by
    have := htable.length_lt
    rw [recordLength] at this
    omega
  obtain ⟨ps, hps⟩ := (collect_run hcs hsat hk syms).1 objects [] .start (by decide) (by decide)
    horder hsyms (by simp)
  obtain ⟨objects', hrun⟩ := hps.run
  have hcollect : collect env.o cs objects syms = some (ps.map toPacket) := by
    rw [collect, ← map_nil (f := toPacket), hrun]
    rfl
  obtain ⟨cs', n, S', hproc, hdec, -, -, -, hrec⟩ :=
    processPackets_spec hsolver htable hcs hsat hps.ok
  refine ⟨ps.map toPacket, cs', n, hcollect, ?_, ?_, ?_⟩
  · rw [processTestCase, hcollect]
    simp only [Option.bind_eq_bind, Option.bind_some]
    rw [show processPackets env (ps.map toPacket) cs = some (cs', n) from hproc]
    rfl
  · intro pre post heq
    obtain ⟨ps₁, ps₂, rfl, rfl, -⟩ := map_eq_append_iff.mp heq
    obtain ⟨cs₁, n₁, S₁, hproc₁, hdec₁, ⟨ρ, hρ⟩, -⟩ := processPackets_spec hsolver htable hcs hsat
      (fun p hp => hps.ok p (mem_append_left _ hp))
    exact ⟨cs₁, n₁, hproc₁, ρ, (hdec₁.holds_iff ρ).mpr hρ⟩
  · intro hfull ρ hρ sin sout hhavoc
    rw [length_map] at hfull
    obtain ⟨p, hp, m, hm, hinput, houtput⟩ := hps.covers sin sout hhavoc
    have hfinal := hrec hfull p hp m hm ρ ((hdec.holds_iff ρ).mp hρ)
    rwa [hinput, houtput] at hfinal

section Example

/-- A hash of the input: the sum of its bytes, plus two. -/
def sumHash (input : List (BitVec 8)) : ℕ := (input.map BitVec.toNat).sum + 2

open Classical in
/-- An exact solver, with a table of the hashes 7 and 9. -/
noncomputable def exactEnv : Env where
  o := ⟨true, true⟩
  rainbowTableFile := tableFile [⟨7, [5]⟩, ⟨9, [7]⟩]
  getInitialValues cs arrays :=
    if h : ∃ ρ, ∀ c ∈ cs, c.Holds ρ then some (arrays.map (contentsAt h.choose)) else none
  mayBeTrue cs e := some (decide (∃ ρ, (∀ c ∈ cs, c.Holds ρ) ∧ e.Holds ρ))

lemma exactEnv_exact : ExactSolver exactEnv where
  getInitialValues cs arrays h := ⟨h.choose, h.choose_spec, dif_pos h⟩
  mayBeTrue cs e := ⟨_, rfl, by classical exact decide_eq_true_iff⟩

lemma exactEnv_table : TableOf sumHash 1 exactEnv.rainbowTableFile :=
  ⟨⟨_, rfl, by decide⟩, by decide⟩

def inArray : KArray := .bytes 1 "castan_havoc_in" 1

def outArray : KArray := .bytes 2 "castan_havoc_out" 1

/-- A packet with a single havoc of one byte. -/
def oneHavoc : List Symbolic :=
  [⟨"castan_packet", 0, .bytes 0 "castan_packet" 64⟩, ⟨"castan_havoc_in", 1, inArray⟩,
    ⟨"castan_havoc_out", 2, outArray⟩]

/-- The memory with the input of the havoc. -/
def oneObject (mo : ℕ) : Option ObjectState :=
  if mo = 1 then some (ObjectState.ofArray 1 0 inArray) else none

/-- The first byte of an array. -/
def byteOf (array : KArray) : Expr := .read array .null (.const (.ofNat 32 0))

/-- The constraint that the first byte of an array is `b`. -/
def byteIs (array : KArray) (b : BitVec 8) : Expr := .bin .eq (.const ⟨8, b⟩) (byteOf array)

lemma oneHavoc_ok (S : Valuation → Prop) :
    SymbolsOk exactEnv.o S 1 (fun _ ρ => bytesAt ρ inArray) oneObject oneHavoc where
  input s hs hname := by
    obtain rfl : s = ⟨"castan_havoc_in", 1, inArray⟩ := by
      simp only [oneHavoc, mem_cons, not_mem_nil, or_false] at hs
      rcases hs with rfl | rfl | rfl <;> simp_all
    refine ⟨_, if_pos rfl, ?_, fun ρ _ => ?_⟩
    · rfl
    · exact initial_represents (by decide)
        (.symbolic 0 _ (KArray.bytes_wf 1 _ (by decide)) rfl rfl rfl)
  output s hs hname := by
    obtain rfl : s = ⟨"castan_havoc_out", 2, outArray⟩ := by
      simp only [oneHavoc, mem_cons, not_mem_nil, or_false] at hs
      rcases hs with rfl | rfl | rfl <;> simp_all
    exact ⟨KArray.bytes_wf 2 _ (by decide), rfl, rfl, rfl, Or.inl rfl⟩

lemma outIs_isConstraint (b : BitVec 8) : (byteIs outArray b).IsConstraint where
  typed := ⟨Nat.succ_pos 7, ⟨KArray.bytes_wf 2 _ (by decide), Nat.succ_pos 31, rfl, trivial⟩, rfl⟩
  canon := ⟨trivial, ⟨trivial, trivial⟩, rfl⟩
  width_eq := rfl

lemma outIs_defined (b : BitVec 8) (ρ : Valuation) : (byteIs outArray b).Defined exactEnv.o ρ :=
  fun _ => ⟨trivial, trivial, trivial, fun _ => Nat.one_pos⟩

lemma outIs_nine_sat : ∃ ρ, ∀ c ∈ [byteIs outArray 9], c.Holds ρ :=
  ⟨fun _ _ => 9, forall_mem_singleton.mpr (by decide +kernel)⟩

lemma getInitialValues_nine :
    exactEnv.getInitialValues [byteIs outArray 9] [outArray] = some [[9]] := by
  obtain ⟨ρ, hρ, hinit⟩ := exactEnv_exact.getInitialValues _ [outArray] outIs_nine_sat
  have hbyte : bytesAt ρ outArray 0 = 9 := by
    by_contra hne
    have heval : (byteIs outArray 9).eval ρ = .bool (9 == bytesAt ρ outArray 0) := rfl
    have hholds := hρ _ (mem_singleton_self _)
    rw [Expr.Holds, heval, beq_false_of_ne (Ne.symm hne)] at hholds
    exact absurd hholds (by decide)
  rw [hinit, ← hbyte]
  rfl

lemma mayBeTrue_seven :
    exactEnv.mayBeTrue [byteIs outArray 9] (byteIs inArray 7) = some true := by
  obtain ⟨b, hb, hiff⟩ := exactEnv_exact.mayBeTrue [byteIs outArray 9] (byteIs inArray 7)
  rw [hb, hiff.mpr ⟨fun array _ => if array = inArray then 7 else 9,
    forall_mem_singleton.mpr (by decide +kernel), by decide +kernel⟩]

/-- The table has the input 7 for the hash 9. -/
lemma reverseHavocs_nine :
    reverseHavocs exactEnv [byteIs outArray 9] [(⟨[byteOf inArray], some outArray⟩, 9)]
      (.const (.bool true)) 0 = some (byteIs inArray 7, 1) := by
  have hkey : ∀ r ∈ ([⟨7, [5]⟩, ⟨9, [7]⟩] : List Record), r.key.length = 1 := by decide
  obtain ⟨t, i, hcreate, hvalue, hreading, -, hdrop⟩ := create_reading hkey (by decide) 9
  rw [hdrop (by decide)] at hreading
  obtain ⟨t', hget, -⟩ := getValue_cons hreading rfl
  have hfirst : t.getValue.1 = some [7] := by
    rw [hget, hvalue]
    rfl
  have hquery : newQuery exactEnv.o (.const (.bool true)) [byteOf inArray] [7] =
      byteIs inArray 7 := by decide +kernel
  have hreverse : reverseHavoc exactEnv [byteIs outArray 9] (.const (.bool true)) [byteOf inArray] t
      = some (some (byteIs inArray 7)) := by
    rw [reverseHavoc_of_key hfirst (by decide) rfl, hquery, mayBeTrue_seven]
    rfl
  rw [reverseHavocs, show create exactEnv.rainbowTableFile (9 : BitVec 64).toNat = some t
    from hcreate, Option.bind_eq_bind, Option.bind_some, hreverse]
  rfl

lemma processTestCase_oneHavoc :
    processTestCase exactEnv [byteIs outArray 9] oneObject oneHavoc =
      some ([byteIs outArray 9, byteIs inArray 7], 1, 1) := by
  have hcollect : collect exactEnv.o [byteIs outArray 9] oneObject oneHavoc =
      some [⟨.bytes 0 "castan_packet" 64, [⟨[byteOf inArray], some outArray⟩]⟩] := rfl
  have hfix : fixOutputs exactEnv.o [(outArray, [9])] [byteIs outArray 9] =
      some [byteIs outArray 9] := by decide +kernel
  have hadd : addConstraint exactEnv.o [byteIs outArray 9] (byteIs inArray 7) =
      some [byteIs outArray 9, byteIs inArray 7] := by decide +kernel
  have hpacket : processPacket exactEnv [byteIs outArray 9]
      ⟨.bytes 0 "castan_packet" 64, [⟨[byteOf inArray], some outArray⟩]⟩ =
        some ([byteIs outArray 9, byteIs inArray 7], true) := by
    have hvalue : valueOf [9] = 9 := by decide
    simp only [processPacket, List.isEmpty_cons, Bool.false_eq_true, if_false, mapM_cons, mapM_nil,
      Option.bind_eq_bind, Option.bind_some, Option.pure_def, getInitialValues_nine, zip_cons_cons,
      zip_nil_right, map_cons, map_nil, hfix, hvalue, reverseHavocs_nine, hadd]
    rfl
  rw [processTestCase, hcollect]
  simp only [Option.bind_eq_bind, Option.bind_some, processPackets, hpacket]
  rfl

theorem processTestCase_sound_oneHavoc :
    processTestCase exactEnv [byteIs outArray 9] oneObject oneHavoc =
      some ([byteIs outArray 9, byteIs inArray 7], 1, 1) ∧
    ∀ ρ, (∀ c ∈ [byteIs outArray 9, byteIs inArray 7], c.Holds ρ) →
      sumHash [bytesAt ρ inArray 0] = outputAt ρ outArray := by
  have horder : WellOrdered .start oneHavoc := by simp [oneHavoc, WellOrdered]
  have hhavoc : IsHavoc oneHavoc (oneHavoc.get ⟨1, by decide⟩) (oneHavoc.get ⟨2, by decide⟩) :=
    ⟨⟨[oneHavoc.get ⟨0, by decide⟩], [], [], rfl, by simp⟩, rfl, rfl⟩
  obtain ⟨packets, cs', n, -, hproc, -, hrec⟩ :=
    processTestCase_sound exactEnv sumHash 1 [byteIs outArray 9] oneObject oneHavoc _
      exactEnv_exact exactEnv_table
      (Decides.of_defined (forall_mem_singleton.mpr (outIs_isConstraint 9))
        (forall_mem_singleton.mpr (outIs_defined 9))) outIs_nine_sat horder (oneHavoc_ok _)
  rw [processTestCase_oneHavoc] at hproc
  simp only [Option.some.injEq, Prod.mk.injEq] at hproc
  obtain ⟨rfl, rfl, hlen⟩ := hproc
  exact ⟨processTestCase_oneHavoc, fun ρ hρ => hrec hlen ρ hρ _ _ hhavoc⟩

end Example

end Havoc

end Castan
