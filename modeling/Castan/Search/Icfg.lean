/-
# The interprocedural control flow graph

The constructor of `CastanSearcher` (`lib/CASTAN/CastanSearcher.cpp`) first collects the control
flow edges between the instructions of a module and the callers of its functions.  We model what
it asks of an LLVM module: which instructions are direct calls, loads or stores, and where the
terminator of a block goes.
-/
import Mathlib

namespace Castan

open List

/-- The callee of a call is the index of a function, and is missing in an indirect call.  An
index beyond the functions of the module is a function without a body. -/
inductive Opcode where
  | call (callee : Option ℕ)
  | load
  | store
  | other
  deriving DecidableEq, Repr

/-- The function that is called directly. -/
def Opcode.callee? : Opcode → Option ℕ
  | .call callee => callee
  | _ => none

/-- The instructions of the block but the last, which is its terminator, and the indices of the
blocks that the terminator goes to. -/
structure BasicBlock where
  body : List Opcode
  targets : List ℕ
  deriving DecidableEq, Repr

/-- The terminator is not a `CallInst`, a load or a store. -/
def BasicBlock.insts (bb : BasicBlock) : List Opcode := bb.body ++ [.other]

/-- An instruction, by its position in the module. -/
structure Instruction where
  fn : ℕ
  bb : ℕ
  pos : ℕ
  deriving DecidableEq, Repr

/-- The blocks of each function, no blocks for a declaration.  The first block of a function has
no predecessors. -/
structure LlvmModule where
  functions : List (List BasicBlock)
  castanLoop : Fin functions.length
  targets_valid : ∀ bbs ∈ functions, ∀ bb ∈ bbs, ∀ t ∈ bb.targets, 0 < t ∧ t < bbs.length

/-- The first instruction of a function. -/
def Instruction.entry (f : ℕ) : Instruction := ⟨f, 0, 0⟩

@[simp] lemma Instruction.fn_entry (f : ℕ) : (entry f).fn = f := rfl

/-- How the loop of the constructor treats an instruction. -/
inductive Handling where
  | target
  | direct (f : ℕ)
  | plain
  deriving DecidableEq, Repr

namespace LlvmModule

variable (m : LlvmModule) (i : Instruction) (f : ℕ)

def block? : Option BasicBlock := m.functions[i.fn]?.bind (·[i.bb]?)

def opcode? : Option Opcode := (m.block? i).bind (·.insts[i.pos]?)

/-- The instructions in the order of the module. -/
def insts : List Instruction :=
  m.functions.zipIdx.flatMap fun (bbs, f) =>
    bbs.zipIdx.flatMap fun (bb, b) => (List.range bb.insts.length).map (⟨f, b, ·⟩)

def successors : List Instruction :=
  match m.block? i with
  | none => []
  | some bb =>
    if i.pos < bb.body.length then [⟨i.fn, i.bb, i.pos + 1⟩]
    else if i.pos = bb.body.length then (bb.targets.map (⟨i.fn, ·, 0⟩)).dedup
    else []

def predecessors : Finset Instruction := (m.insts.filter (i ∈ m.successors ·)).toFinset

def callers : Finset Instruction :=
  (m.insts.filter (m.opcode? · = some (.call (some f)))).toFinset

/-- `!f->empty()` -/
def Defined : Prop := ((m.functions[f]?).getD []).isEmpty = false

instance : Decidable (m.Defined f) := inferInstanceAs (Decidable (_ = _))

def handling : Handling :=
  match m.opcode? i with
  | some (.call (some f)) =>
    if f = m.castanLoop then .target else if m.Defined f then .direct f else .plain
  | _ => .plain

/-- The instructions that a change of the cost of `i` is propagated to. -/
def dependents : Finset Instruction :=
  if i = .entry i.fn then m.callers i.fn else m.predecessors i

/-- The direct call graph. -/
def Calls (f g : ℕ) : Prop := ∃ i, i.fn = f ∧ m.opcode? i = some (.call (some g))

def Acyclic : Prop := ∀ f, ¬ Relation.TransGen m.Calls f f

/-- A step to a control flow successor, or from a call into the function that it calls. -/
def Goes (i j : Instruction) : Prop :=
  j ∈ m.successors i ∨ ∃ f, m.opcode? i = some (.call (some f)) ∧ m.Defined f ∧ j = .entry f

/-- Some call of `castan_loop` can be reached. -/
def Reaches : Prop :=
  ∃ c, m.opcode? c = some (.call (some m.castanLoop)) ∧ Relation.ReflTransGen m.Goes i c

variable {m i f} {j x c : Instruction} {o : Opcode}

/-! ### Instructions -/

lemma block?_eq_some {bb : BasicBlock} :
    m.block? i = some bb ↔ ∃ bbs, m.functions[i.fn]? = some bbs ∧ bbs[i.bb]? = some bb := by
  rw [block?, Option.bind_eq_some_iff]

lemma opcode?_eq_some :
    m.opcode? i = some o ↔ ∃ bb, m.block? i = some bb ∧ bb.insts[i.pos]? = some o := by
  rw [opcode?, Option.bind_eq_some_iff]

lemma mem_insts_iff_block? :
    i ∈ m.insts ↔ ∃ bb, m.block? i = some bb ∧ i.pos ≤ bb.body.length := by
  simp only [insts, mem_flatMap, Prod.exists, mem_zipIdx_iff_getElem?, mem_map,
    mem_range, block?_eq_some]
  constructor
  · rintro ⟨bbs, f, hf, bb, b, hb, k, hk, rfl⟩
    refine ⟨bb, ⟨bbs, hf, hb⟩, ?_⟩
    simpa [BasicBlock.insts, Nat.lt_succ_iff] using hk
  · rintro ⟨bb, ⟨bbs, hf, hb⟩, hk⟩
    refine ⟨bbs, i.fn, hf, bb, i.bb, hb, i.pos, ?_, rfl⟩
    simpa [BasicBlock.insts, Nat.lt_succ_iff] using hk

lemma mem_insts_of_opcode? (h : m.opcode? i = some o) : i ∈ m.insts := by
  obtain ⟨bb, hbb, hi⟩ := opcode?_eq_some.1 h
  have hlt := (List.getElem?_eq_some_iff.1 hi).1
  refine mem_insts_iff_block?.2 ⟨bb, hbb, ?_⟩
  simpa [BasicBlock.insts, Nat.lt_succ_iff] using hlt

/-- A call is not a terminator. -/
lemma pos_lt_of_call {callee : Option ℕ} (h : m.opcode? i = some (.call callee)) :
    ∃ bb, m.block? i = some bb ∧ i.pos < bb.body.length := by
  obtain ⟨bb, hbb, hi⟩ := opcode?_eq_some.1 h
  refine ⟨bb, hbb, ?_⟩
  by_contra hge
  rw [BasicBlock.insts, List.getElem?_append_right (Nat.not_lt.1 hge)] at hi
  simpa using mem_of_getElem? hi

/-! ### Edges -/

lemma mem_successors : x ∈ m.successors i ↔ ∃ bb, m.block? i = some bb ∧
    (i.pos < bb.body.length ∧ x = ⟨i.fn, i.bb, i.pos + 1⟩ ∨
      i.pos = bb.body.length ∧ ∃ t ∈ bb.targets, x = ⟨i.fn, t, 0⟩) := by
  rw [successors]
  split
  · next h => simp [h]
  · next bb h =>
    simp only [h, Option.some.injEq, exists_eq_left']
    split_ifs with h₁ h₂
    · simp [h₁, Nat.ne_of_lt h₁]
    · simp [h₂, eq_comm]
    · simp [h₁, h₂]

lemma successors_of_call {callee : Option ℕ} (h : m.opcode? i = some (.call callee)) :
    m.successors i = [⟨i.fn, i.bb, i.pos + 1⟩] := by
  obtain ⟨bb, hbb, hlt⟩ := pos_lt_of_call h
  simp only [successors, hbb]
  exact if_pos hlt

lemma fn_of_mem_successors (h : x ∈ m.successors i) : x.fn = i.fn := by
  obtain ⟨bb, -, ⟨-, rfl⟩ | ⟨-, t, -, rfl⟩⟩ := mem_successors.1 h
  · rfl
  · rfl

lemma mem_insts_of_mem_successors (h : x ∈ m.successors i) : i ∈ m.insts := by
  obtain ⟨bb, hbb, ⟨hlt, -⟩ | ⟨heq, -⟩⟩ := mem_successors.1 h
  · exact mem_insts_iff_block?.2 ⟨bb, hbb, hlt.le⟩
  · exact mem_insts_iff_block?.2 ⟨bb, hbb, heq.le⟩

/-- The first instruction of a function has no control flow predecessors. -/
lemma ne_entry_of_mem_successors (h : x ∈ m.successors i) : x ≠ .entry x.fn := by
  obtain ⟨bb, hbb, ⟨-, rfl⟩ | ⟨-, t, ht, rfl⟩⟩ := mem_successors.1 h
  · simp [Instruction.entry]
  · obtain ⟨bbs, hf, hb⟩ := block?_eq_some.1 hbb
    have hpos := (m.targets_valid bbs (mem_of_getElem? hf) bb (mem_of_getElem? hb) t ht).1
    simp [Instruction.entry, hpos.ne']

/-- The instruction after a call has no other predecessor. -/
lemma eq_of_mem_successors_of_call {callee : Option ℕ} (hc : m.opcode? c = some (.call callee))
    (hx : x ∈ m.successors c) (hi : x ∈ m.successors i) : i = c := by
  rw [successors_of_call hc, mem_singleton] at hx
  obtain ⟨bb, -, ⟨-, rfl⟩ | ⟨-, t, -, rfl⟩⟩ := mem_successors.1 hi
  · obtain ⟨h₁, h₂, h₃⟩ := Instruction.mk.inj hx
    cases i
    cases c
    simp_all
  · exact absurd (Instruction.mk.inj hx).2.2 (by simp)

lemma mem_predecessors : i ∈ m.predecessors x ↔ x ∈ m.successors i := by
  simp only [predecessors, mem_toFinset, mem_filter, decide_eq_true_eq, and_iff_right_iff_imp]
  exact mem_insts_of_mem_successors

lemma mem_callers : i ∈ m.callers f ↔ m.opcode? i = some (.call (some f)) := by
  simp only [callers, mem_toFinset, mem_filter, decide_eq_true_eq, and_iff_right_iff_imp]
  exact mem_insts_of_opcode?

/-! ### Kinds of instructions -/

lemma handling_eq_target :
    m.handling i = .target ↔ m.opcode? i = some (.call (some m.castanLoop)) := by
  unfold handling
  split
  · next f h => split_ifs <;> simp_all
  · next h => simp only [reduceCtorEq, false_iff]; exact fun hi => h _ hi

lemma handling_eq_direct : m.handling i = .direct f ↔
    m.opcode? i = some (.call (some f)) ∧ f ≠ m.castanLoop ∧ m.Defined f := by
  unfold handling
  split
  · next g h =>
    rw [h]
    split_ifs with h₁ h₂
    · simp only [Option.some.injEq, Opcode.call.injEq, false_iff, not_and]
      rintro rfl
      simp [h₁]
    · simp only [Handling.direct.injEq, Option.some.injEq, Opcode.call.injEq]
      constructor
      · rintro rfl
        exact ⟨rfl, h₁, h₂⟩
      · exact And.left
    · simp only [Option.some.injEq, Opcode.call.injEq, false_iff, not_and]
      rintro rfl _
      exact h₂
  · next h =>
    simp only [reduceCtorEq, false_iff, not_and]
    exact fun hi => absurd hi (h f)

lemma successors_of_direct (h : m.handling i = .direct f) :
    m.successors i = [⟨i.fn, i.bb, i.pos + 1⟩] :=
  successors_of_call (handling_eq_direct.1 h).1

lemma exists_successor_of_direct (h : m.handling i = .direct f) : ∃ x, x ∈ m.successors i :=
  ⟨_, by rw [successors_of_direct h]; exact mem_singleton_self _⟩

/-- The successor of a direct call is not entered from a plain instruction. -/
lemma not_mem_successors_of_direct (hc : m.handling c = .direct f) (hx : x ∈ m.successors c)
    (hi : m.handling i = .plain) : x ∉ m.successors i := by
  intro h
  have := eq_of_mem_successors_of_call (handling_eq_direct.1 hc).1 hx h
  subst this
  rw [hc] at hi
  exact Handling.noConfusion hi

lemma entry_not_mem_successors : Instruction.entry f ∉ m.successors i :=
  fun h => ne_entry_of_mem_successors h rfl

lemma calls_of_direct (h : m.handling i = .direct f) : m.Calls i.fn f :=
  ⟨i, rfl, (handling_eq_direct.1 h).1⟩

/-- A changed successor puts its predecessors on the worklist. -/
lemma mem_dependents_of_mem_successors (h : x ∈ m.successors i) : i ∈ m.dependents x := by
  rw [dependents, if_neg (ne_entry_of_mem_successors h)]
  exact mem_predecessors.2 h

/-- A changed first instruction puts the callers of its function on the worklist. -/
lemma mem_dependents_entry (h : m.handling i = .direct f) : i ∈ m.dependents (.entry f) := by
  rw [dependents, Instruction.fn_entry, if_pos rfl]
  exact mem_callers.2 (handling_eq_direct.1 h).1

lemma goes_iff_of_plain (h : m.handling i = .plain) : m.Goes i j ↔ j ∈ m.successors i := by
  constructor
  · rintro (hj | ⟨f, hi, hf, -⟩)
    · exact hj
    · by_cases hc : f = m.castanLoop
      · rw [handling_eq_target.2 (hc ▸ hi)] at h
        exact Handling.noConfusion h
      · rw [handling_eq_direct.2 ⟨hi, hc, hf⟩] at h
        exact Handling.noConfusion h
  · exact Or.inl

lemma goes_iff_of_direct (h : m.handling i = .direct f) :
    m.Goes i j ↔ j ∈ m.successors i ∨ j = .entry f := by
  obtain ⟨hi, -, hf⟩ := handling_eq_direct.1 h
  constructor
  · rintro (hj | ⟨g, hg, -, rfl⟩)
    · exact Or.inl hj
    · rw [hi] at hg
      simp only [Option.some.injEq, Opcode.call.injEq] at hg
      exact Or.inr (hg ▸ rfl)
  · rintro (hj | rfl)
    · exact Or.inl hj
    · exact Or.inr ⟨f, hi, hf, rfl⟩

lemma Reaches.of_goes (h : m.Goes i j) (hj : m.Reaches j) : m.Reaches i := by
  obtain ⟨c, hc, hjc⟩ := hj
  exact ⟨c, hc, hjc.head h⟩

/-- A call that reaches `castan_loop` does so in its callee or after it. -/
lemma Reaches.of_direct (h : m.Reaches i) (hi : m.handling i = .direct f)
    (hx : x ∈ m.successors i) : m.Reaches (.entry f) ∨ m.Reaches x := by
  obtain ⟨c, hc, hic⟩ := h
  obtain rfl | ⟨j, hj, hjc⟩ := hic.cases_head
  · rw [handling_eq_target.2 hc] at hi
    exact Handling.noConfusion hi
  · obtain hj | rfl := (goes_iff_of_direct hi).1 hj
    · rw [successors_of_direct hi, mem_singleton] at hj hx
      exact Or.inr ⟨c, hc, hx ▸ hj ▸ hjc⟩
    · exact Or.inl ⟨c, hc, hjc⟩

lemma Reaches.of_target (h : m.handling i = .target) : m.Reaches i :=
  ⟨i, handling_eq_target.1 h, .refl⟩

/-- Functions that call only functions before them. -/
lemma acyclic_of_lt (h : ∀ i ∈ m.insts, ∀ g ∈ (m.opcode? i).bind Opcode.callee?, g < i.fn) :
    m.Acyclic := by
  have hcalls : ∀ {f g}, m.Calls f g → g < f := by
    rintro f g ⟨i, rfl, hi⟩
    refine h i (mem_insts_of_opcode? hi) g ?_
    rw [hi]
    rfl
  intro f hf
  have hlt : ∀ {g}, Relation.TransGen m.Calls f g → g < f := by
    intro g hg
    induction hg with
    | single hg => exact hcalls hg
    | tail _ hg ih => exact (hcalls hg).trans ih
  exact Nat.lt_irrefl f (hlt hf)

/-- The number of instructions between `i` and the terminator of its block. -/
def distance (m : LlvmModule) (i : Instruction) : ℕ :=
  ((m.block? i).map (·.body.length)).getD 0 - i.pos

lemma distance_of_direct (h : m.handling i = .direct f) (hx : x ∈ m.successors i) :
    m.distance i = m.distance x + 1 := by
  obtain ⟨bb, hbb, hlt⟩ := pos_lt_of_call (handling_eq_direct.1 h).1
  rw [successors_of_direct h, mem_singleton] at hx
  have hx' : m.block? x = some bb := by
    rw [hx]
    exact hbb
  simp only [distance, hbb, hx', Option.map_some, Option.getD_some]
  have : x.pos = i.pos + 1 := by rw [hx]
  omega

end LlvmModule

end Castan
