/-
# Seeds

A seed assigns bytes to the symbolic arrays of a state.  When `Executor::addConstraint` adds a
condition that the seed contradicts, `SeedInfo::patchSeed` changes the bytes that the condition
reads at constant places, one after another, and keeps a byte wherever that is possible.  If the
condition then holds it stops, although the other constraints may be violated by now; otherwise it
goes on with all bytes.  Each step takes the byte of a solution of the constraints so far
(`patchByte_spec`).
-/
import Castan.Core.TimingSolver
import Castan.Expr.FindReads
import Castan.Lib.SortedMap

namespace Castan

open List

/-- A byte of an array. -/
abbrev Cell := KArray × ℕ

/-! ### Bytes of an assignment -/

namespace Assignment

variable {a : Assignment} {d e : Cell} {b : BitVec 8}

/-- `bindings[array][i] = value` for a bound array. -/
def setByte (a : Assignment) (d : Cell) (b : BitVec 8) : Assignment :=
  ⟨a.bindings.map fun p => if p.1 = d.1 then (p.1, p.2.set d.2 b) else p⟩

/-- The bytes of the bound arrays, in the order of the loops over them. -/
def cells (a : Assignment) : List Cell :=
  a.bindings.flatMap fun p => (List.range p.1.size).map fun i => (p.1, i)

lemma lookup_setByte (array : KArray) : (a.setByte d b).bindings.lookup array =
      (a.bindings.lookup array).map fun vs => if array = d.1 then vs.set d.2 b else vs := by
  rw [setByte]
  induction a.bindings with
  | nil => rfl
  | cons p ps ih =>
    obtain ⟨x, vs⟩ := p
    rw [map_cons, lookup_cons]
    by_cases hx : array = x
    · subst hx
      by_cases hd : array = d.1 <;> simp [hd]
    · have hne : (array == x) = false := beq_eq_false_iff_ne.2 hx
      by_cases hd : x = d.1
      · rw [if_pos hd, lookup_cons, hne]
        exact ih
      · rw [if_neg hd, lookup_cons, hne]
        exact ih

lemma byte?_setByte : (a.setByte d b).byte? e.1 e.2 =
      if e = d then (a.byte? e.1 e.2).map fun _ => b else a.byte? e.1 e.2 := by
  rw [byte?, lookup_setByte, byte?]
  cases hvs : a.bindings.lookup e.1 with
  | none => simp
  | some vs =>
    by_cases harray : e.1 = d.1
    · by_cases hindex : e.2 = d.2
      · have hed : e = d := Prod.ext harray hindex
        rw [if_pos hed]
        simp [harray, hindex, List.getElem?_set]
        rcases lt_or_ge d.2 vs.length with hlt | hge
        · simp [hlt]
        · simp [hge]
      · have hed : e ≠ d := fun h => hindex (congrArg Prod.snd h)
        simp [harray, hed, List.getElem?_set_ne (Ne.symm hindex)]
    · have hed : e ≠ d := fun h => harray (congrArg Prod.fst h)
      simp [harray, hed]

lemma keys_setByte : (a.setByte d b).bindings.map Prod.fst = a.bindings.map Prod.fst := by
  rw [setByte, map_map]
  refine map_congr_left fun p _ => ?_
  by_cases h : p.1 = d.1 <;> simp [h]

lemma lookup_of_mem {bs : List (KArray × List (BitVec 8))} (hkeys : (bs.map Prod.fst).Nodup)
    {p : KArray × List (BitVec 8)} (hp : p ∈ bs) : bs.lookup p.1 = some p.2 := by
  induction bs with
  | nil => exact nomatch hp
  | cons q qs ih =>
    obtain ⟨hq, hqs⟩ := nodup_cons.1 hkeys
    rcases mem_cons.1 hp with rfl | hmem
    · exact lookup_cons_self
    · have hne : p.1 ≠ q.1 := fun h => hq (h ▸ mem_map_of_mem hmem)
      rw [lookup_cons, beq_eq_false_iff_ne.2 hne]
      exact ih hqs hmem

/-- Setting a byte to what it is. -/
lemma setByte_self (hkeys : (a.bindings.map Prod.fst).Nodup) (hb : a.byte? d.1 d.2 = some b) :
    a.setByte d b = a := by
  have hset : ∀ p ∈ a.bindings, (if p.1 = d.1 then (p.1, p.2.set d.2 b) else p) = p := by
    intro p hp
    split
    · next heq =>
      have hlookup : a.bindings.lookup d.1 = some p.2 := heq ▸ lookup_of_mem hkeys hp
      rw [byte?, hlookup] at hb
      obtain ⟨hlt, hget⟩ := List.getElem?_eq_some_iff.1 hb
      rw [← hget, set_getElem_self]
    · rfl
  rw [setByte, map_congr_left hset, map_id']

end Assignment

/-! ### Patching -/

namespace SeedInfo

open ConstraintManager

/-- The set `directReads`: the bytes that are read at a constant index. -/
def directReads (condition : Expr) : List Cell :=
  (findDirectReads condition).foldl (fun ds r =>
    match r.index.constant? with
    | some c => SortedMap.insert (fun d : Cell => toLex (d.1.addr, d.2)) (r.root, c.toNat) ds
    | none => ds) []

/-- `ReadExpr::create(UpdateList(array, 0), ConstantExpr::alloc(i, Expr::Int32))` -/
def read (o : Opts) (d : Cell) : Expr :=
  ReadExpr.create o d.1 .null (.const (.ofNat 32 d.2))

/-- `EqExpr::create(read, ConstantExpr::alloc(b, Expr::Int8))` -/
def isByte (o : Opts) (d : Cell) (b : BitVec 8) : Expr :=
  EqExpr.create o (read o d) (.const (.ofNat 8 b.toNat))

/-- The body of both loops, with the assignment and the constraints of `tmp`.  The result is `none`
for a failed assertion and for a byte that the assignment does not have. -/
def patchByte (timing : TimingSolver) (s : Assignment × List Expr) (d : Cell) :
    Option (Assignment × List Expr) := do
  let b ← s.1.byte? d.1 d.2
  let res ← timing.mustBeFalse s.2 (isByte timing.opts d b)
  if res then
    let value ← timing.getValue s.2 (read timing.opts d)
    let b' := BitVec.ofNat 8 value.toNat
    let tmp ← addConstraint timing.opts s.2 (isByte timing.opts d b')
    return (s.1.setByte d b', tmp)
  else
    let tmp ← addConstraint timing.opts s.2 (isByte timing.opts d b)
    return (s.1, tmp)

/-- `SeedInfo::patchSeed` -/
def patchSeed (timing : TimingSolver) (constraints : List Expr) (condition : Expr)
    (assignment : Assignment) : Option Assignment := do
  let tmp ← addConstraint timing.opts constraints condition
  let bound := (directReads condition).filter fun d => (assignment.bindings.lookup d.1).isSome
  let s ← bound.foldlM (patchByte timing) (assignment, tmp)
  let res ← timing.mayBeTrue constraints (s.1.evaluateFree timing.opts condition)
  if res then return s.1
  let s ← s.1.cells.foldlM (patchByte timing) s
  let res ← timing.mayBeTrue constraints (s.1.evaluateFree timing.opts condition)
  -- the assertion that seed patching has not failed
  if res then return s.1 else none

/-- The part of `Executor::addConstraint` for one seed. -/
def follow (timing : TimingSolver) (constraints : List Expr) (condition : Expr)
    (assignment : Assignment) : Option Assignment := do
  let res ← timing.mustBeFalse constraints (assignment.evaluateFree timing.opts condition)
  if res then patchSeed timing constraints condition assignment else return assignment

end SeedInfo

/-- `Executor::addConstraint`, with the seeds of the state.  The concretization of implied values
does not change seeds or constraints. -/
def Executor.addConstraintSeeded (timing : TimingSolver) (seeds : List Assignment)
    (constraints : List Expr) (condition : Expr) : Option (List Assignment × List Expr) :=
  match condition.constant? with
  | some c => if c.isTrue then some (seeds, constraints) else none
  | none => do
    let seeds ← seeds.mapM (SeedInfo.follow timing constraints condition)
    let constraints ← ConstraintManager.addConstraint timing.opts constraints condition
    return (seeds, constraints)

/-! ### One byte -/

/-- A symbolic array of bytes with indices of 32 bits. -/
structure KArray.IsByteArray (array : KArray) : Prop where
  wf : array.WF
  symbolic : array.constantValues = []
  domain_eq : array.domain = 32
  range_eq : array.range = 8

/-- Every bound array is an array of bytes, is bound once, and has all its bytes. -/
structure Assignment.BindsBytes (a : Assignment) : Prop where
  nodup : (a.bindings.map Prod.fst).Nodup
  isByteArray : ∀ p ∈ a.bindings, p.1.IsByteArray
  length_eq : ∀ p ∈ a.bindings, p.2.length = p.1.size

/-- The byte of a cell. -/
def Valuation.byteAt (ρ : Valuation) (d : Cell) : BitVec 8 := .ofNat 8 (ρ d.1 d.2)

namespace Assignment.BindsBytes

variable {a : Assignment} {d : Cell} {b : BitVec 8}

lemma exists_of_byte? (h : a.byte? d.1 d.2 = some b) :
    ∃ p ∈ a.bindings, p.1 = d.1 ∧ p.2[d.2]? = some b := by
  obtain ⟨vs, hvs, hb⟩ := Option.bind_eq_some_iff.1 h
  obtain ⟨l, r, hbs, -⟩ := lookup_eq_some_iff.1 hvs
  exact ⟨(d.1, vs), by rw [hbs]; simp, rfl, hb⟩

lemma isByteArray_of_byte? (ha : a.BindsBytes) (h : a.byte? d.1 d.2 = some b) :
    d.1.IsByteArray := by
  obtain ⟨p, hp, hpd, -⟩ := exists_of_byte? h
  exact hpd ▸ ha.isByteArray p hp

lemma lt_of_byte? (ha : a.BindsBytes) (h : a.byte? d.1 d.2 = some b) : d.2 < 2 ^ 32 := by
  obtain ⟨p, hp, hpd, hget⟩ := exists_of_byte? h
  have hsize := (ha.isByteArray p hp).wf.size_le
  rw [(ha.isByteArray p hp).domain_eq] at hsize
  have hlt := (List.getElem?_eq_some_iff.1 hget).1
  rw [ha.length_eq p hp] at hlt
  omega

lemma setByte (ha : a.BindsBytes) : (a.setByte d b).BindsBytes where
  nodup := keys_setByte (a := a) ▸ ha.nodup
  isByteArray p hp := by
    obtain ⟨q, hq, rfl⟩ := mem_map.1 hp
    have harray := ha.isByteArray q hq
    split <;> exact harray
  length_eq p hp := by
    obtain ⟨q, hq, rfl⟩ := mem_map.1 hp
    have hlength := ha.length_eq q hq
    split
    · rw [length_set]
      exact hlength
    · exact hlength

end Assignment.BindsBytes

namespace SeedInfo

open ConstraintManager

variable {o : Opts} {S M : Valuation → Prop} {d : Cell} {b : BitVec 8}

lemma read_computes (hd : d.1.IsByteArray) (hlt : d.2 < 2 ^ 32) :
    Computes o M (read o d) 8 fun ρ => .ofNat 8 (ρ d.1 d.2) := by
  have hcell := ExprEvaluator.create_evaluates (o := o) (S := M) hd.wf d.2
  rw [hd.domain_eq] at hcell
  have hin : ∀ ρ, (Expr.read d.1 .null (.const (.ofNat 32 d.2))).InRange ρ := by
    intro ρ
    refine ⟨trivial, trivial, fun hsym => ?_⟩
    simp [KArray.isSymbolicArray, hd.symbolic] at hsym
  have hwidth : (read o d).width = 8 := hcell.1.width_eq.trans hd.range_eq
  refine ⟨⟨hcell.1.typed, hcell.2, hwidth⟩, fun ρ hρ => ⟨⟨hcell.1.typed, hcell.2, hwidth⟩,
    fun _ => hcell.1.inRangeOn ρ hρ (hin ρ), ?_⟩⟩
  rw [read, hcell.1.evalOn ρ hρ fun _ => hin ρ]
  have hindex : (APInt.ofNat 32 d.2).toNat = d.2 := by
    rw [APInt.toNat, APInt.ofNat, BitVec.toNat_ofNat, Nat.mod_eq_of_lt hlt]
  rw [Expr.eval, Expr.eval, UpdateNode.evalAt, hindex, KArray.initialValue, hd.symbolic,
    hd.range_eq]
  rfl

lemma isByte_tests (hd : d.1.IsByteArray) (hlt : d.2 < 2 ^ 32) :
    Tests o M (isByte o d b) fun ρ => ρ.byteAt d = b := by
  have hconst : Computes o M (.const (.ofNat 8 b.toNat)) 8 fun _ => .ofNat 8 b.toNat :=
    .const (c := .ofNat 8 b.toNat) (Nat.succ_pos 7)
  refine (Tests.eq (read_computes hd hlt) hconst).congr fun ρ _ => ?_
  simp [APInt.ofNat, Valuation.byteAt]

/-- The byte that the body of the loop chooses is that of a solution, and a byte that some solution
keeps is kept. -/
lemma patchByte_spec {timing : TimingSolver} {tmp : List Expr} {a : Assignment}
    (hexact : timing.solver.AlwaysExact) (htmp : Decides timing.opts tmp M) (hsat : ∃ ρ, M ρ)
    (ha : a.BindsBytes) (hb : a.byte? d.1 d.2 = some b) :
    ∃ m tmp', M m ∧ patchByte timing (a, tmp) d = some (a.setByte d (m.byteAt d), tmp') ∧
      Decides timing.opts tmp' (fun ρ => M ρ ∧ ρ.byteAt d = m.byteAt d) ∧
      (m.byteAt d = b ∨ (∀ ρ, M ρ → ρ.byteAt d ≠ b) ∧
        timing.getValue tmp (read timing.opts d) = some (.ofNat 8 (m d.1 d.2))) := by
  have hd := ha.isByteArray_of_byte? hb
  have hlt := ha.lt_of_byte? hb
  -- the constraint that a byte is that of a solution can be added
  have hadd : ∀ m, M m → ∃ tmp', addConstraint timing.opts tmp
      (isByte timing.opts d (m.byteAt d)) = some tmp' ∧
      Decides timing.opts tmp' fun ρ => M ρ ∧ ρ.byteAt d = m.byteAt d := by
    intro m hm
    have htests := isByte_tests (o := timing.opts) (M := M) (b := m.byteAt d) hd hlt
    obtain ⟨tmp', htmp', hdec⟩ := htmp.addConstraint htests.isConstraint htests.defined
      ⟨m, hm, (htests.holds_iff m hm).2 rfl⟩
    refine ⟨tmp', htmp', hdec.congr fun ρ => ?_⟩
    exact and_congr_right fun hρ => htests.holds_iff ρ hρ
  obtain ⟨res, hres, hiff⟩ := TimingSolver.mustBeTrue_spec hexact htmp hsat
    (isByte_tests (b := b) hd hlt).createIsZero
  cases res with
  | true =>
    obtain ⟨v, hv, m, hm, rfl⟩ :=
      TimingSolver.getValue_spec hexact htmp hsat (read_computes hd hlt)
    have hbyte : BitVec.ofNat 8 (APInt.ofNat 8 (m d.1 d.2)).toNat = m.byteAt d :=
      BitVec.eq_of_toNat_eq (by simp [APInt.ofNat, APInt.toNat, Valuation.byteAt])
    obtain ⟨tmp', htmp', hdec⟩ := hadd m hm
    refine ⟨m, tmp', hm, ?_, hdec, .inr ⟨hiff.1 rfl, hv⟩⟩
    simp [patchByte, hb, TimingSolver.mustBeFalse, hres, hv, hbyte, htmp']
  | false =>
    obtain ⟨m, hm, hmb⟩ : ∃ m, M m ∧ m.byteAt d = b := by
      by_contra hno
      exact absurd (hiff.2 fun ρ hρ hρb => hno ⟨ρ, hρ, hρb⟩) (by decide)
    obtain ⟨tmp', htmp', hdec⟩ := hadd m hm
    refine ⟨m, tmp', hm, ?_, hdec, .inl hmb⟩
    rw [hmb] at htmp' ⊢
    simp [patchByte, hb, TimingSolver.mustBeFalse, hres, htmp', a.setByte_self ha.nodup hb]

end SeedInfo

end Castan
