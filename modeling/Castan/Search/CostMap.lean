/-
# The cost map of the directed searcher

The constructor of `CastanSearcher` (`lib/CASTAN/CastanSearcher.cpp`) computes for each
instruction whether a call of `castan_loop` lies ahead in the same call, and the cost of an
expensive path from it to such a call or to the end of its function.  It starts from the exits
and the calls of `castan_loop` and drains a worklist backwards.  We model the loop for every
order in which the worklist and the successors of an instruction are visited, with the entries
that `operator[]` creates and with the two assertions.
-/
import Castan.Lib.CountMap
import Castan.Search.Icfg

namespace Castan

open List LlvmModule
open Relation (ReflTransGen)

/-- The maps that the loop works on.  The costs are of type `double` and the counters of type `int`
in the source: a cost is a sum of ones and of numbers of type `long`, and the loop only looks at the
counters of an instruction on paths of its own function, which stay small. -/
structure CostTables where
  costs : Instruction → Option (Bool × ℕ)
  successorCosts : Instruction → Option ℕ
  paths : Instruction → CountMap Instruction

/-- `NS_PER_MEMORY_INSTRUCTION` and `NS_PER_INSTRUCTION` after the conversion to `long`. -/
structure InstructionCosts where
  memory : ℕ
  instruction : ℕ

/-- The cost of an instruction that is not a call of a defined function. -/
def InstructionCosts.of (w : InstructionCosts) : Option Opcode → ℕ
  | some .load => w.memory
  | some .store => w.memory
  | _ => w.instruction

lemma InstructionCosts.of_le {w : InstructionCosts} (o : Option Opcode) :
    w.of o ≤ w.memory + w.instruction := by
  unfold InstructionCosts.of
  split <;> omega

namespace CostTables

variable (t : CostTables) (i x : Instruction)

def empty : CostTables := ⟨fun _ => none, fun _ => none, fun _ => .empty⟩

/-- The value of `costs[i]`. -/
def cost : Bool × ℕ := (t.costs i).getD (false, 0)

/-- The tables after `costs[i]` was read, which creates the entry. -/
def touch : CostTables := { t with costs := Function.update t.costs i (some (t.cost i)) }

/-- The tables after `paths[x][i]` was read. -/
def touchPath : CostTables :=
  { t with paths := Function.update t.paths x ((t.paths x).add i 0) }

def record (cost : Bool × ℕ) (path : CountMap Instruction) : CostTables :=
  { t with
    costs := Function.update t.costs i (some cost)
    paths := Function.update t.paths i path }

def recordSuccessor (cost : ℕ) : CostTables :=
  { t with successorCosts := Function.update t.successorCosts i (some cost) }

/-- The part of the call rule that compares the cost with the one in the table. -/
def assign (cost : Bool × ℕ) (path : CountMap Instruction) : CostTables × Bool :=
  let t := t.touch i
  if cost = t.cost i then (t, false) else (t.record i cost path, true)

/-- The rule for a call of the defined function `f`.  There is no result when an assertion
fails. -/
def visitCall (m : LlvmModule) (f : ℕ) (i : Instruction) (t : CostTables) :
    Option (CostTables × Bool) :=
  if i ∈ (t.paths (.entry f)).keys then none
  else
    let t := t.touch (.entry f)
    if (t.cost (.entry f)).1 then
      some (t.assign i (true, (t.cost (.entry f)).2 + 1) ((t.paths (.entry f)).add i 1))
    else
      match m.successors i with
      | [x] =>
        let t := t.touch x
        if (t.paths (.entry f)).keys.Nonempty ∧ (t.paths x).keys.Nonempty then
          let path :=
            ((CountMap.empty.add i 1).addAll (t.paths (.entry f))).addAll (t.paths x)
          let t := t.recordSuccessor i (t.cost x).2
          some (t.assign i ((t.cost x).1, 1 + (t.cost (.entry f)).2 + (t.cost x).2) path)
        else
          some (t.assign i ((t.cost x).1, 0) .empty)
      | _ => none

/-- One round of the loop over the successors of a plain instruction. -/
def relax (w : ℕ) (i : Instruction) (s : CostTables × Bool) (x : Instruction) :
    CostTables × Bool :=
  let t := s.1.touchPath i x
  if (t.paths x).count i ≤ 1 then
    let t := (t.touch i).touch x
    if (t.cost i).1 then
      if (t.cost x).1 ∧ (t.cost i).2 < (t.cost x).2 + w then
        (t.record i ((t.cost i).1, (t.cost x).2 + w) ((t.paths x).add i 1), true)
      else (t, s.2)
    else
      if (t.cost x).1 ∨ (t.cost i).2 < (t.cost x).2 + w then
        (t.record i ((t.cost x).1, (t.cost x).2 + w) ((t.paths x).add i 1), true)
      else (t, s.2)
  else (t, s.2)

/-- One round of the worklist loop, with the successors of a plain instruction in the given
order, and whether the cost changed. -/
def visit (m : LlvmModule) (w : InstructionCosts) (order : List Instruction) (i : Instruction)
    (t : CostTables) : Option (CostTables × Bool) :=
  match m.handling i with
  | .target => some (t, false)
  | .direct f => visitCall m f i t
  | .plain => some (order.foldl (relax (w.of (m.opcode? i)) i) (t, false))

end CostTables

/-- The state of the worklist loop. -/
structure CostMapState where
  tables : CostTables
  worklist : Finset Instruction

namespace CostMapState

/-- An exit or a call of `castan_loop` gets its cost before the loop. -/
def seed (m : LlvmModule) (flag : Bool) (s : CostMapState) (i : Instruction) : CostMapState where
  tables := s.tables.record i (flag, 1) ((s.tables.paths i).set i 1)
  worklist :=
    s.worklist ∪ m.predecessors i ∪ if i = .entry i.fn then m.callers i.fn else ∅

/-- The state before the loop. -/
def init (m : LlvmModule) : CostMapState :=
  let s := (m.insts.filter (m.successors · = [])).foldl (seed m false) ⟨.empty, ∅⟩
  (m.insts.filter (m.opcode? · = some (.call (some m.castanLoop)))).foldl (seed m true) s

/-- One round of the loop that passes its assertions. -/
inductive Step (m : LlvmModule) (w : InstructionCosts) : CostMapState → CostMapState → Prop
  | visit {s : CostMapState} {i : Instruction} {order : List Instruction} {t : CostTables}
      {changed : Bool} (hi : i ∈ s.worklist) (horder : order.Perm (m.successors i))
      (hvisit : CostTables.visit m w order i s.tables = some (t, changed)) :
      Step m w s ⟨t, s.worklist.erase i ∪ if changed then m.dependents i else ∅⟩

/-- The states of the loop. -/
def Reachable (m : LlvmModule) (w : InstructionCosts) (s : CostMapState) : Prop :=
  ReflTransGen (Step m w) (init m) s

/-- The constructor ends. -/
def Ends (m : LlvmModule) (w : InstructionCosts) (s : CostMapState) : Prop :=
  Reachable m w s ∧ s.worklist = ∅

end CostMapState

namespace CostTables

variable {m : LlvmModule} {w : InstructionCosts} {t t' : CostTables} {f : ℕ}
  {i j x y : Instruction} {cost : Bool × ℕ} {path : CountMap Instruction}

/-! ### Reading the tables -/

@[simp] lemma cost_touch : (t.touch x).cost y = t.cost y := by
  by_cases h : y = x
  · subst h
    simp [touch, CostTables.cost]
  · simp [touch, CostTables.cost, h]

@[simp] lemma paths_touch : (t.touch x).paths = t.paths := rfl

@[simp] lemma successorCosts_touch : (t.touch x).successorCosts = t.successorCosts := rfl

@[simp] lemma cost_touchPath : (t.touchPath i x).cost y = t.cost y := rfl

@[simp] lemma count_touchPath : ((t.touchPath i x).paths y).count j = (t.paths y).count j := by
  by_cases h : y = x
  · subst h
    simp [touchPath]
  · simp [touchPath, h]

lemma paths_touchPath_of_ne (h : y ≠ x) : (t.touchPath i x).paths y = t.paths y := by
  simp [touchPath, h]

@[simp] lemma successorCosts_touchPath : (t.touchPath i x).successorCosts = t.successorCosts := rfl

@[simp] lemma cost_recordSuccessor {v : ℕ} : (t.recordSuccessor i v).cost y = t.cost y := rfl

@[simp] lemma paths_recordSuccessor {v : ℕ} : (t.recordSuccessor i v).paths = t.paths := rfl

@[simp] lemma cost_record_self : (t.record i cost path).cost i = cost := by
  simp [record, CostTables.cost]

lemma cost_record_of_ne (h : y ≠ i) : (t.record i cost path).cost y = t.cost y := by
  simp [record, CostTables.cost, h]

@[simp] lemma paths_record_self : (t.record i cost path).paths i = path := by
  simp [record]

lemma paths_record_of_ne (h : y ≠ i) : (t.record i cost path).paths y = t.paths y := by
  simp [record, h]

@[simp] lemma successorCosts_record :
    (t.record i cost path).successorCosts = t.successorCosts := rfl

/-! ### What a visit may write -/

/-- The plain instruction `i` would get a higher cost from its successor `x`: a cost with the
flag is higher than one without. -/
def Improves (m : LlvmModule) (w : InstructionCosts) (t : CostTables) (i x : Instruction) : Prop :=
  toLex (t.cost i) < toLex ((t.cost x).1, (t.cost x).2 + w.of (m.opcode? i))

instance : Decidable (t.Improves m w i x) := inferInstanceAs (Decidable (_ < _))

/-- The costs and paths that the loop may record for `i`. -/
inductive Writes (m : LlvmModule) (w : InstructionCosts) (t : CostTables) (i : Instruction) :
    Bool × ℕ → CountMap Instruction → Prop
  | plain {x : Instruction} (hi : m.handling i = .plain) (hx : x ∈ m.successors i)
      (hcount : (t.paths x).count i ≤ 1) (himp : t.Improves m w i x) :
      Writes m w t i ((t.cost x).1, (t.cost x).2 + w.of (m.opcode? i)) ((t.paths x).add i 1)
  | direct {f : ℕ} (hi : m.handling i = .direct f) (he : (t.cost (.entry f)).1 = true)
      (hne : (true, (t.cost (.entry f)).2 + 1) ≠ t.cost i) :
      Writes m w t i (true, (t.cost (.entry f)).2 + 1) ((t.paths (.entry f)).add i 1)
  | through {f : ℕ} {x : Instruction} (hi : m.handling i = .direct f) (hx : x ∈ m.successors i)
      (he : (t.cost (.entry f)).1 = false) (hpe : (t.paths (.entry f)).keys.Nonempty)
      (hpx : (t.paths x).keys.Nonempty)
      (hne : ((t.cost x).1, 1 + (t.cost (.entry f)).2 + (t.cost x).2) ≠ t.cost i) :
      Writes m w t i ((t.cost x).1, 1 + (t.cost (.entry f)).2 + (t.cost x).2)
        (((CountMap.empty.add i 1).addAll (t.paths (.entry f))).addAll (t.paths x))
  | blocked {f : ℕ} {x : Instruction} (hi : m.handling i = .direct f) (hx : x ∈ m.successors i)
      (he : (t.cost (.entry f)).1 = false)
      (hp : ¬ ((t.paths (.entry f)).keys.Nonempty ∧ (t.paths x).keys.Nonempty))
      (hne : ((t.cost x).1, 0) ≠ t.cost i) :
      Writes m w t i ((t.cost x).1, 0) .empty

/-- The single actions of a visit of `i`. -/
inductive Acts (m : LlvmModule) (w : InstructionCosts) (i : Instruction) :
    CostTables → CostTables → Prop
  | touch {t : CostTables} (x : Instruction) : Acts m w i t (t.touch x)
  | touchPath {t : CostTables} {x : Instruction} (hi : m.handling i = .plain)
      (hx : x ∈ m.successors i) : Acts m w i t (t.touchPath i x)
  | recordSuccessor {t : CostTables} {f : ℕ} (hi : m.handling i = .direct f) (v : ℕ) :
      Acts m w i t (t.recordSuccessor i v)
  | record {t : CostTables} {cost : Bool × ℕ} {path : CountMap Instruction}
      (h : Writes m w t i cost path) : Acts m w i t (t.record i cost path)

lemma Writes.not_target (h : Writes m w t i cost path) : m.handling i ≠ .target := by
  cases h with
  | plain hi _ _ _ => simp [hi]
  | direct hi _ _ => simp [hi]
  | through hi _ _ _ _ _ => simp [hi]
  | blocked hi _ _ _ _ => simp [hi]

lemma Writes.successors_ne_nil (h : Writes m w t i cost path) : m.successors i ≠ [] := by
  cases h with
  | plain hi hx _ _ => exact ne_nil_of_mem hx
  | direct hi _ _ => simp [successors_of_direct hi]
  | through hi hx _ _ _ _ => exact ne_nil_of_mem hx
  | blocked hi hx _ _ _ => exact ne_nil_of_mem hx

lemma Writes.mem_insts (h : Writes m w t i cost path) : i ∈ m.insts := by
  obtain ⟨x, hx⟩ := exists_mem_of_ne_nil _ h.successors_ne_nil
  exact mem_insts_of_mem_successors hx

/-- The same costs and the same counters, and possibly more entries. -/
def SameValues (t t' : CostTables) : Prop :=
  (∀ y, t'.cost y = t.cost y) ∧ ∀ y j, (t'.paths y).count j = (t.paths y).count j

lemma SameValues.refl (t : CostTables) : t.SameValues t := ⟨fun _ => rfl, fun _ _ => rfl⟩

lemma SameValues.trans {t'' : CostTables} (h : t.SameValues t') (h' : t'.SameValues t'') :
    t.SameValues t'' :=
  ⟨fun y => (h'.1 y).trans (h.1 y), fun y j => (h'.2 y j).trans (h.2 y j)⟩

lemma SameValues.improves_iff (h : t.SameValues t') :
    t'.Improves m w i x ↔ t.Improves m w i x := by
  rw [Improves, Improves, h.1 i, h.1 x]

lemma Acts.cases (h : Acts m w i t t') : t.SameValues t' ∨
      ∃ cost path, Writes m w t i cost path ∧ t' = t.record i cost path := by
  cases h with
  | touch x => exact .inl ⟨fun y => cost_touch, fun y j => rfl⟩
  | touchPath hi hx => exact .inl ⟨fun y => rfl, fun y j => count_touchPath⟩
  | recordSuccessor hi v => exact .inl ⟨fun y => rfl, fun y j => rfl⟩
  | record h => exact .inr ⟨_, _, h, rfl⟩

lemma Acts.frame (h : Acts m w i t t') (hy : y ≠ i) :
    t'.cost y = t.cost y ∧ ∀ j, (t'.paths y).count j = (t.paths y).count j := by
  obtain ⟨hc, hp⟩ | ⟨cost, path, -, rfl⟩ := h.cases
  · exact ⟨hc y, hp y⟩
  · rw [cost_record_of_ne hy, paths_record_of_ne hy]
    exact ⟨rfl, fun j => rfl⟩

lemma frame_of_acts (h : ReflTransGen (Acts m w i) t t') (hy : y ≠ i) :
    t'.cost y = t.cost y ∧ ∀ j, (t'.paths y).count j = (t.paths y).count j := by
  induction h with
  | refl => exact ⟨rfl, fun j => rfl⟩
  | tail _ hact ih =>
    obtain ⟨hc, hp⟩ := hact.frame hy
    exact ⟨hc.trans ih.1, fun j => (hp j).trans (ih.2 j)⟩

/-! ### The rule for plain instructions -/

lemma improves_iff : t.Improves m w i x ↔
    if (t.cost i).1 then (t.cost x).1 ∧ (t.cost i).2 < (t.cost x).2 + w.of (m.opcode? i)
    else (t.cost x).1 ∨ (t.cost i).2 < (t.cost x).2 + w.of (m.opcode? i) := by
  rw [Improves, Prod.Lex.toLex_lt_toLex]
  cases (t.cost i).1 <;> cases (t.cost x).1 <;> simp

/-- A round that finds `i` at most once on the path of `x` records the cost over `x` if this
raises the cost. -/
lemma relax_eq (s : CostTables × Bool) (hcount : (s.1.paths x).count i ≤ 1) :
    relax (w.of (m.opcode? i)) i s x =
      let t := ((s.1.touchPath i x).touch i).touch x
      if t.Improves m w i x then
        (t.record i ((t.cost x).1, (t.cost x).2 + w.of (m.opcode? i)) ((t.paths x).add i 1), true)
      else (t, s.2) := by
  have hc : ((s.1.touchPath i x).paths x).count i ≤ 1 := by rw [count_touchPath]; exact hcount
  simp only [relax, hc, if_true, improves_iff]
  generalize ((s.1.touchPath i x).touch i).touch x = t
  cases hflag : (t.cost i).1
  · simp
  · by_cases hcond : (t.cost x).1 = true ∧ (t.cost i).2 < (t.cost x).2 + w.of (m.opcode? i)
    · simp [hcond]
    · simp only [hcond, if_true, if_false]

/-- One round of the loop over the successors: it raises the cost of `i`, or this is not possible
over `x` without putting `i` on its path for a third time. -/
lemma relax_spec (hi : m.handling i = .plain) (hx : x ∈ m.successors i) (s : CostTables × Bool) :
    let r := relax (w.of (m.opcode? i)) i s x
    ReflTransGen (Acts m w i) s.1 r.1 ∧ (r.2 = s.2 ∧ s.1.SameValues r.1 ∧
          (2 ≤ (s.1.paths x).count i ∨ ¬ s.1.Improves m w i x) ∨
        r.2 = true ∧ toLex (s.1.cost i) < toLex (r.1.cost i) ∧
          (x ≠ i → ¬ r.1.Improves m w i x)) := by
  have hpath : ReflTransGen (Acts m w i) s.1 (s.1.touchPath i x) := .single (.touchPath hi hx)
  by_cases hcount : (s.1.paths x).count i ≤ 1
  · rw [relax_eq s hcount]
    -- both entries of `costs` are read before they are compared
    set t := ((s.1.touchPath i x).touch i).touch x with ht
    have hchain : ReflTransGen (Acts m w i) s.1 t := (hpath.tail (.touch i)).tail (.touch x)
    have hsame : s.1.SameValues t := ⟨fun y => by simp [ht], fun y j => by simp [ht]⟩
    by_cases himp : t.Improves m w i x
    · have hcount' : (t.paths x).count i ≤ 1 := by rw [hsame.2]; exact hcount
      simp only [if_pos himp]
      refine ⟨hchain.tail (.record (.plain hi hx hcount' himp)), Or.inr ⟨trivial, ?_, ?_⟩⟩
      · rw [cost_record_self, ← hsame.1 i]
        exact himp
      · intro hne
        rw [Improves, cost_record_self, cost_record_of_ne hne]
        exact lt_irrefl _
    · simp only [if_neg himp]
      exact ⟨hchain, Or.inl ⟨trivial, hsame, Or.inr fun h => himp (hsame.improves_iff.2 h)⟩⟩
  · have hsame : s.1.SameValues (s.1.touchPath i x) :=
      ⟨fun y => rfl, fun y j => count_touchPath⟩
    have hc : ¬ ((s.1.touchPath i x).paths x).count i ≤ 1 := by rw [hsame.2]; exact hcount
    simp only [relax, hc, if_false]
    exact ⟨hpath, Or.inl ⟨trivial, hsame, Or.inl (by omega)⟩⟩

/-- The plain instruction `i` cannot get a higher cost from its successor `x`. -/
def Settled (m : LlvmModule) (w : InstructionCosts) (t : CostTables) (i x : Instruction) : Prop :=
  2 ≤ (t.paths x).count i ∨ ¬ t.Improves m w i x

/-- The loop over the successors of a plain instruction. -/
lemma foldl_relax_spec (hi : m.handling i = .plain) (order : List Instruction)
    (horder : ∀ x ∈ order, x ∈ m.successors i) (s : CostTables × Bool) :
    let r := order.foldl (relax (w.of (m.opcode? i)) i) s
    ReflTransGen (Acts m w i) s.1 r.1 ∧
      (r.2 = s.2 ∧ s.1.SameValues r.1 ∨ r.2 = true ∧ toLex (s.1.cost i) < toLex (r.1.cost i)) ∧
      ∀ x ∈ order, x ≠ i → r.1.Settled m w i x := by
  induction order generalizing s with
  | nil => exact ⟨.refl, Or.inl ⟨rfl, .refl _⟩, by simp⟩
  | cons a order ih =>
    have hstep := relax_spec (w := w) hi (horder a mem_cons_self) s
    have hrest := ih (fun x hx => horder x (mem_cons_of_mem a hx))
      (relax (w.of (m.opcode? i)) i s a)
    rw [foldl_cons]
    set s₁ := relax (w.of (m.opcode? i)) i s a
    set r := order.foldl (relax (w.of (m.opcode? i)) i) s₁
    obtain ⟨hchain₁, hstep⟩ := hstep
    obtain ⟨hchain, hrest, hsettled⟩ := hrest
    have hle : toLex (s₁.1.cost i) ≤ toLex (r.1.cost i) := by
      obtain ⟨-, hsame⟩ | ⟨-, hlt⟩ := hrest
      · rw [hsame.1 i]
      · exact hlt.le
    refine ⟨hchain₁.trans hchain, ?_, ?_⟩
    · obtain ⟨h₁, hsame₁, -⟩ | ⟨h₁, hlt₁, -⟩ := hstep
      · obtain ⟨h₂, hsame₂⟩ | ⟨h₂, hlt₂⟩ := hrest
        · exact Or.inl ⟨h₂.trans h₁, hsame₁.trans hsame₂⟩
        · refine Or.inr ⟨h₂, ?_⟩
          rw [← hsame₁.1 i]
          exact hlt₂
      · refine Or.inr ⟨?_, hlt₁.trans_le hle⟩
        obtain ⟨h₂, -⟩ | ⟨h₂, -⟩ := hrest
        · exact h₂.trans h₁
        · exact h₂
    · rintro x hx hne
      obtain rfl | hx := mem_cons.1 hx
      · -- later rounds only raise the cost of `i` and leave its other successors alone
        obtain ⟨hcx, hpx⟩ := frame_of_acts hchain hne
        have hmono : ¬ s₁.1.Improves m w i x → ¬ r.1.Improves m w i x := by
          intro hno himp
          refine hno (lt_of_le_of_lt hle ?_)
          rw [← hcx]
          exact himp
        obtain ⟨-, hsame₁, hcount | hno⟩ | ⟨-, -, hno⟩ := hstep
        · refine Or.inl ?_
          rw [hpx, hsame₁.2]
          exact hcount
        · exact Or.inr (hmono fun h => hno (hsame₁.improves_iff.1 h))
        · exact Or.inr (hmono (hno hne))
      · exact hsettled x hx hne

/-! ### The rule for calls of defined functions -/

lemma assign_spec (cost : Bool × ℕ) (path : CountMap Instruction) {t₁ : CostTables}
    (hchain : ReflTransGen (Acts m w i) t t₁) (hsame : t.SameValues t₁)
    (hw : cost ≠ t.cost i → Writes m w (t₁.touch i) i cost path) :
    let r := t₁.assign i cost path
    ReflTransGen (Acts m w i) t r.1 ∧ r.1.cost i = cost ∧
      (r.2 = false ∧ t.SameValues r.1 ∨ r.2 = true ∧ t.cost i ≠ cost) ∧
      r.1.successorCosts = t₁.successorCosts := by
  have hsame' : t.SameValues (t₁.touch i) :=
    hsame.trans ⟨fun y => cost_touch, fun y j => rfl⟩
  have htouch : ReflTransGen (Acts m w i) t (t₁.touch i) := hchain.tail (.touch i)
  by_cases h : cost = t.cost i
  · have heq : t₁.assign i cost path = (t₁.touch i, false) := by
      rw [assign, hsame'.1 i, if_pos h]
    rw [heq]
    refine ⟨htouch, ?_, Or.inl ⟨rfl, hsame'⟩, rfl⟩
    rw [hsame'.1 i, h]
  · have heq : t₁.assign i cost path = ((t₁.touch i).record i cost path, true) := by
      rw [assign, hsame'.1 i, if_neg h]
    rw [heq]
    exact ⟨htouch.tail (.record (hw h)), cost_record_self, Or.inr ⟨rfl, Ne.symm h⟩, rfl⟩

/-- The cost of a call of `f` that is followed by `x`. -/
def callCost (t : CostTables) (f : ℕ) (x : Instruction) : Bool × ℕ :=
  if (t.cost (.entry f)).1 then (true, (t.cost (.entry f)).2 + 1)
  else if (t.paths (.entry f)).keys.Nonempty ∧ (t.paths x).keys.Nonempty then
    ((t.cost x).1, 1 + (t.cost (.entry f)).2 + (t.cost x).2)
  else ((t.cost x).1, 0)

lemma visitCall_eq (hsucc : m.successors i = [x]) (hkey : i ∉ (t.paths (.entry f)).keys) :
    visitCall m f i t = some (
      if (t.cost (.entry f)).1 then
        (t.touch (.entry f)).assign i (t.callCost f x) ((t.paths (.entry f)).add i 1)
      else if (t.paths (.entry f)).keys.Nonempty ∧ (t.paths x).keys.Nonempty then
        (((t.touch (.entry f)).touch x).recordSuccessor i (t.cost x).2).assign i (t.callCost f x)
          (((CountMap.empty.add i 1).addAll (t.paths (.entry f))).addAll (t.paths x))
      else ((t.touch (.entry f)).touch x).assign i (t.callCost f x) .empty) := by
  simp only [visitCall, if_neg hkey, hsucc, cost_touch, paths_touch, cost_recordSuccessor, callCost]
  split_ifs <;> rfl

/-- A call is visited unless it is on the path of its callee. -/
lemma visitCall_isSome (hi : m.handling i = .direct f) :
    (visitCall m f i t).isSome ↔ i ∉ (t.paths (.entry f)).keys := by
  constructor
  · intro h hkey
    rw [visitCall, if_pos hkey] at h
    exact Bool.noConfusion h
  · intro hkey
    rw [visitCall_eq (successors_of_direct hi) hkey]
    rfl

/-- The visit of a call records the cost of the call, and writes `successorCosts` if it used the
cost of the successor. -/
lemma visitCall_spec {r : CostTables × Bool} (hi : m.handling i = .direct f)
    (hx : x ∈ m.successors i) (hr : visitCall m f i t = some r) :
    ReflTransGen (Acts m w i) t r.1 ∧ r.1.cost i = t.callCost f x ∧
      (r.2 = false ∧ t.SameValues r.1 ∨ r.2 = true ∧ t.cost i ≠ t.callCost f x) ∧
      ((t.cost (.entry f)).1 = false → (t.paths (.entry f)).keys.Nonempty →
        (t.paths x).keys.Nonempty → r.1.successorCosts i = some (t.cost x).2) := by
  have hsucc : m.successors i = [x] := by
    rw [successors_of_direct hi, mem_singleton] at hx
    rw [successors_of_direct hi, hx]
  have hkey : i ∉ (t.paths (.entry f)).keys :=
    (visitCall_isSome hi).1 (by rw [hr]; rfl)
  rw [visitCall_eq hsucc hkey, Option.some.injEq] at hr
  have hentry : ReflTransGen (Acts m w i) t (t.touch (.entry f)) := .single (.touch _)
  have hboth : ReflTransGen (Acts m w i) t ((t.touch (.entry f)).touch x) :=
    hentry.tail (.touch x)
  have hsame : t.SameValues (t.touch (.entry f)) := ⟨fun y => cost_touch, fun y j => rfl⟩
  have hsame' : t.SameValues ((t.touch (.entry f)).touch x) :=
    hsame.trans ⟨fun y => cost_touch, fun y j => rfl⟩
  by_cases he : (t.cost (.entry f)).1 = true
  · -- the callee reaches `castan_loop`
    rw [if_pos he] at hr
    have hcost : t.callCost f x = (true, (t.cost (.entry f)).2 + 1) := if_pos he
    obtain ⟨h₁, h₂, h₃, -⟩ := assign_spec (t.callCost f x) ((t.paths (.entry f)).add i 1) hentry
      hsame (by
        intro hne
        rw [hcost] at hne ⊢
        have := Writes.direct (w := w) (t := (t.touch (.entry f)).touch i) hi
        simp only [cost_touch, paths_touch] at this
        exact this he hne)
    rw [hr] at h₁ h₂ h₃
    refine ⟨h₁, h₂, h₃, ?_⟩
    intro hfalse
    rw [he] at hfalse
    exact Bool.noConfusion hfalse
  · rw [if_neg he] at hr
    have he' : (t.cost (.entry f)).1 = false := Bool.eq_false_iff.2 he
    by_cases hp : (t.paths (.entry f)).keys.Nonempty ∧ (t.paths x).keys.Nonempty
    · rw [if_pos hp] at hr
      have hcost : t.callCost f x = ((t.cost x).1, 1 + (t.cost (.entry f)).2 + (t.cost x).2) := by
        rw [callCost, if_neg he, if_pos hp]
      obtain ⟨h₁, h₂, h₃, h₄⟩ := assign_spec (t.callCost f x)
        (((CountMap.empty.add i 1).addAll (t.paths (.entry f))).addAll (t.paths x))
        (hboth.tail (.recordSuccessor hi (t.cost x).2))
        (hsame'.trans ⟨fun y => rfl, fun y j => rfl⟩) (by
          intro hne
          rw [hcost] at hne ⊢
          have := Writes.through (w := w)
            (t := (((t.touch (.entry f)).touch x).recordSuccessor i (t.cost x).2).touch i) hi hx
          simp only [cost_touch, paths_touch, cost_recordSuccessor, paths_recordSuccessor] at this
          exact this he' hp.1 hp.2 hne)
      rw [hr] at h₁ h₂ h₃ h₄
      refine ⟨h₁, h₂, h₃, fun _ _ _ => ?_⟩
      rw [h₄]
      simp [recordSuccessor]
    · rw [if_neg hp] at hr
      have hcost : t.callCost f x = ((t.cost x).1, 0) := by
        rw [callCost, if_neg he, if_neg hp]
      obtain ⟨h₁, h₂, h₃, -⟩ := assign_spec (t.callCost f x) .empty hboth hsame' (by
          intro hne
          rw [hcost] at hne ⊢
          have := Writes.blocked (w := w) (t := ((t.touch (.entry f)).touch x).touch i) hi hx
          simp only [cost_touch, paths_touch] at this
          exact this he' hp hne)
      rw [hr] at h₁ h₂ h₃
      exact ⟨h₁, h₂, h₃, fun _ hpe hpx => absurd ⟨hpe, hpx⟩ hp⟩

/-- A visit reports a change exactly when it changed the cost. -/
lemma visit_spec {order : List Instruction} {changed : Bool}
    (horder : order.Perm (m.successors i)) (h : visit m w order i t = some (t', changed)) :
    ReflTransGen (Acts m w i) t t' ∧
      (changed = false ∧ t.SameValues t' ∨ changed = true ∧ t'.cost i ≠ t.cost i) := by
  cases hi : m.handling i with
  | target =>
    simp only [visit, hi, Option.some.injEq, Prod.mk.injEq] at h
    obtain ⟨rfl, rfl⟩ := h
    exact ⟨.refl, Or.inl ⟨rfl, .refl t⟩⟩
  | direct f =>
    simp only [visit, hi] at h
    obtain ⟨x, hx⟩ := exists_successor_of_direct hi
    obtain ⟨hchain, hcost, hchanged, -⟩ := visitCall_spec (w := w) hi hx h
    refine ⟨hchain, hchanged.imp_right fun ⟨hb, hne⟩ => ⟨hb, ?_⟩⟩
    rw [hcost]
    exact hne.symm
  | plain =>
    simp only [visit, hi, Option.some.injEq] at h
    obtain ⟨hchain, hchanged, -⟩ :=
      foldl_relax_spec (w := w) hi order (fun x hx => horder.mem_iff.1 hx) (t, false)
    rw [h] at hchain hchanged
    refine ⟨hchain, hchanged.imp_right fun ⟨hb, hlt⟩ => ⟨hb, ?_⟩⟩
    intro heq
    rw [heq] at hlt
    exact lt_irrefl _ hlt

/-- No successor of a plain instruction can raise its cost right after its visit, but perhaps
the instruction itself. -/
lemma settled_of_visit {order : List Instruction} {changed : Bool} (hi : m.handling i = .plain)
    (horder : order.Perm (m.successors i)) (h : visit m w order i t = some (t', changed))
    (hx : x ∈ m.successors i) (hne : x ≠ i) : t'.Settled m w i x := by
  simp only [visit, hi, Option.some.injEq] at h
  obtain ⟨-, -, hsettled⟩ :=
    foldl_relax_spec (w := w) hi order (fun x hx => horder.mem_iff.1 hx) (t, false)
  rw [h] at hsettled
  exact hsettled x (horder.mem_iff.2 hx) hne

end CostTables

/-- An exit of a function or a call of `castan_loop`. -/
def LlvmModule.Base (m : LlvmModule) (i : Instruction) : Prop :=
  m.handling i = .target ∨ i ∈ m.insts ∧ m.successors i = []

/-- The loop does not record anything for the instructions that it starts from. -/
lemma CostTables.Writes.ne_of_base {m : LlvmModule} {w : InstructionCosts} {t : CostTables}
    {i y : Instruction} {cost : Bool × ℕ} {path : CountMap Instruction}
    (h : Writes m w t i cost path) (hy : m.Base y) : y ≠ i := by
  rintro rfl
  obtain ht | ⟨-, he⟩ := hy
  · exact h.not_target ht
  · exact h.successors_ne_nil he

namespace CostMapState

open CostTables

variable {m : LlvmModule} {w : InstructionCosts} {s s' : CostMapState} {i j y : Instruction}

/-! ### The state before the loop -/

lemma foldl_seed (m : LlvmModule) (flag : Bool) (l : List Instruction) (s : CostMapState) :
    let r := l.foldl (seed m flag) s
    (∀ y, r.tables.cost y = if y ∈ l then (flag, 1) else s.tables.cost y) ∧
      (∀ y j, (r.tables.paths y).count j =
        if y ∈ l ∧ j = y then 1 else (s.tables.paths y).count j) ∧
      (∀ y, (r.tables.paths y).keys =
        if y ∈ l then insert y (s.tables.paths y).keys else (s.tables.paths y).keys) ∧
      s.worklist ⊆ r.worklist ∧ ∀ y ∈ l, m.dependents y ⊆ r.worklist := by
  induction l generalizing s with
  | nil => simp
  | cons a l ih =>
    obtain ⟨hc, hp, hk, hw, hd⟩ := ih (seed m flag s a)
    rw [foldl_cons]
    set r := l.foldl (seed m flag) (seed m flag s a)
    have hworklist : s.worklist ⊆ (seed m flag s a).worklist := by
      intro y hy
      simp [seed, hy]
    have hdependents : m.dependents a ⊆ (seed m flag s a).worklist := by
      intro y hy
      rw [dependents] at hy
      simp only [seed, Finset.mem_union]
      split_ifs at hy ⊢
      · exact Or.inr hy
      · exact Or.inl (Or.inr hy)
    refine ⟨fun y => ?_, fun y j => ?_, fun y => ?_, hworklist.trans hw, ?_⟩
    · rw [hc]
      by_cases hya : y = a
      · subst hya
        simp [seed]
      · simp [seed, hya, cost_record_of_ne hya]
    · rw [hp]
      by_cases hya : y = a
      · subst hya
        by_cases hj : j = y
        · simp [seed, hj, CountMap.count_set]
        · simp [seed, hj, CountMap.count_set]
      · simp [seed, hya, paths_record_of_ne hya]
    · rw [hk]
      by_cases hya : y = a
      · subst hya
        simp [seed]
      · simp [seed, hya, paths_record_of_ne hya]
    · intro y hy
      obtain rfl | hy := mem_cons.1 hy
      · exact hdependents.trans hw
      · exact hd y hy

lemma mem_filter_target : y ∈ m.insts.filter (m.opcode? · = some (.call (some m.castanLoop))) ↔
      m.handling y = .target := by
  rw [mem_filter, handling_eq_target]
  simp only [decide_eq_true_eq, and_iff_right_iff_imp]
  exact mem_insts_of_opcode?

lemma mem_filter_exit :
    y ∈ m.insts.filter (m.successors · = []) ↔ y ∈ m.insts ∧ m.successors y = [] := by
  rw [mem_filter]
  simp

open Classical in
lemma cost_init : (init m).tables.cost y =
    if m.handling y = .target then (true, 1) else if m.Base y then (false, 1)
    else (false, 0) := by
  rw [init, (foldl_seed m true _ _).1, (foldl_seed m false _ _).1]
  simp only [mem_filter_target, mem_filter_exit, LlvmModule.Base]
  by_cases ht : m.handling y = .target
  · simp [ht]
  · simp [ht, empty, CostTables.cost]

open Classical in
lemma count_init : ((init m).tables.paths y).count j = if m.Base y ∧ j = y then 1 else 0 := by
  rw [init, (foldl_seed m true _ _).2.1, (foldl_seed m false _ _).2.1]
  simp only [mem_filter_target, mem_filter_exit, LlvmModule.Base]
  by_cases hj : j = y
  · by_cases ht : m.handling y = .target
    · simp [hj, ht]
    · simp [hj, ht, empty]
  · simp [hj, empty]

open Classical in
lemma keys_init : ((init m).tables.paths y).keys = if m.Base y then {y} else ∅ := by
  rw [init, (foldl_seed m true _ _).2.2.1, (foldl_seed m false _ _).2.2.1]
  simp only [mem_filter_target, mem_filter_exit, LlvmModule.Base]
  by_cases ht : m.handling y = .target
  · by_cases he : y ∈ m.insts ∧ m.successors y = []
    · simp [ht, he, empty]
    · simp [ht, he, empty]
  · simp [ht, empty]

/-- The exits and the calls of `castan_loop` have been propagated. -/
lemma dependents_subset_init (h : m.Base y) : m.dependents y ⊆ (init m).worklist := by
  rw [init]
  obtain ht | he := h
  · exact (foldl_seed m true _ _).2.2.2.2 y (mem_filter_target.2 ht)
  · exact ((foldl_seed m false _ _).2.2.2.2 y (mem_filter_exit.2 he)).trans
      (foldl_seed m true _ _).2.2.2.1

/-! ### Runs -/

/-- The tables that the single actions of the loop lead to. -/
def Built (m : LlvmModule) (w : InstructionCosts) (t : CostTables) : Prop :=
  ReflTransGen (fun t t' => ∃ i, Acts m w i t t') (init m).tables t

lemma Built.of_acts {t t' : CostTables} (h : Built m w t) (hacts : ReflTransGen (Acts m w i) t t') :
    Built m w t' := by
  induction hacts with
  | refl => exact h
  | tail _ hact ih => exact ih.tail ⟨i, hact⟩

lemma Step.inv (h : Step m w s s') : ∃ i order changed, i ∈ s.worklist ∧
    order.Perm (m.successors i) ∧
      CostTables.visit m w order i s.tables = some (s'.tables, changed) ∧
      s'.worklist = s.worklist.erase i ∪ if changed then m.dependents i else ∅ := by
  obtain ⟨hi, horder, hvisit⟩ := h
  exact ⟨_, _, _, hi, horder, hvisit, rfl⟩

lemma Reachable.built (h : Reachable m w s) : Built m w s.tables := by
  induction h with
  | refl => exact .refl
  | tail _ hstep ih =>
    obtain ⟨_, _, _, -, horder, hvisit, -⟩ := hstep.inv
    exact ih.of_acts (visit_spec horder hvisit).1

/-- One round with a chosen instruction, and its successors in the order of the module. -/
def next (m : LlvmModule) (w : InstructionCosts) (s : CostMapState) (i : Instruction) :
    Option CostMapState :=
  if i ∈ s.worklist then
    (CostTables.visit m w (m.successors i) i s.tables).map fun (t, changed) =>
      ⟨t, s.worklist.erase i ∪ if changed then m.dependents i else ∅⟩
  else none

/-- The loop with a chosen sequence of instructions. -/
def drain (m : LlvmModule) (w : InstructionCosts) (l : List Instruction) : Option CostMapState :=
  l.foldlM (next m w) (init m)

lemma step_of_next (h : next m w s i = some s') : Step m w s s' := by
  rw [next] at h
  split at h
  · next hi =>
    obtain ⟨⟨t, changed⟩, hvisit, rfl⟩ := Option.map_eq_some_iff.1 h
    exact .visit hi (.refl _) hvisit
  · exact absurd h (by simp)

lemma reachable_of_foldlM {l : List Instruction} (h : l.foldlM (next m w) s = some s') :
    ReflTransGen (Step m w) s s' := by
  induction l generalizing s with
  | nil =>
    obtain rfl := Option.some.inj h
    exact .refl
  | cons a l ih =>
    rw [foldlM_cons] at h
    obtain ⟨s₁, h₁, h₂⟩ := Option.bind_eq_some_iff.1 h
    exact (ih h₂).head (step_of_next h₁)

lemma reachable_of_drain {l : List Instruction} (h : drain m w l = some s) : Reachable m w s :=
  reachable_of_foldlM h

end CostMapState

end Castan
