/-
# What a merged state stands for

The constraints of the merged state hold exactly under the assignments that one of the two states
admits.  Under the assignments of a state, its registers and the bytes of its objects have in the
merged state the values they had before.  The object states of the other state may get a new
update list, but keep their bytes.
-/
import Castan.Core.Merge

namespace Castan

open Function List

variable {x : Bool} {inA : Expr} {otherOS : ℕ} {other : AddressSpace}
  {bB : MemoryObject → PlainArray} {mos : List MemoryObject}

variable {o : Opts} {ρ : Valuation}

/-! ### Conditions -/

lemma HasValue.select {c t f : Expr} {a b : APInt} (hc : HasValue o ρ c (.bool x))
    (ht : HasValue o ρ t a) (hf : HasValue o ρ f b) (hw : a.width = b.width) :
    HasValue o ρ (SelectExpr.create o c t f) (if x then a else b) := by
  have htf : t.width = f.width := by rw [ht.ofWidth.width_eq, hf.ofWidth.width_eq, hw]
  have htyped : (Expr.select c t f).Typed :=
    ⟨hc.ofWidth.typed, ht.ofWidth.typed, hf.ofWidth.typed, hc.ofWidth.width_eq, htf⟩
  refine HasValue.of_refines (SelectExpr.create_refines htyped)
    (SelectExpr.create_canon hc.ofWidth.canon ht.ofWidth.canon hf.ofWidth.canon) ?_
    (fun ho => ⟨hc.defined ho, ht.defined ho, hf.defined ho⟩) ?_
  · rw [Expr.width, ht.ofWidth.width_eq]
    cases x
    · exact hw
    · rfl
  · cases x <;> simp [Expr.eval, hc.eval_eq, ht.eval_eq, hf.eval_eq]

lemma HasValue.or {l r : Expr} {a b : Bool} (hl : HasValue o ρ l (.bool a))
    (hr : HasValue o ρ r (.bool b)) : HasValue o ρ (OrExpr.create l r) (.bool (a || b)) := by
  have h := hl.bin .or hr rfl
  rwa [BinKind.fold_bool] at h

namespace Merge

/-- The conjunction is true if all its members are. -/
lemma conjunction_hasValue {es : List Expr} (hes : ∀ e ∈ es, e.IsConstraint)
    (hd : ∀ e ∈ es, e.Defined o ρ) :
    HasValue o ρ (conjunction es) (.bool (decide (∀ e ∈ es, e.Holds ρ))) := by
  have hfold : ∀ (es : List Expr) (acc : Expr) (x : Bool), (∀ e ∈ es, e.IsConstraint) →
      (∀ e ∈ es, e.Defined o ρ) → HasValue o ρ acc (.bool x) →
      HasValue o ρ (es.foldl AndExpr.create acc) (.bool (x && decide (∀ e ∈ es, e.Holds ρ))) := by
    intro es
    induction es with
    | nil =>
      intro acc x _ _ hacc
      simpa using hacc
    | cons e es ih =>
      intro acc x hes hd hacc
      have he := HasValue.of_isConstraint (hes e (by simp)) (hd e (by simp))
      have hrest := ih _ _ (fun e' he' => hes e' (by simp [he']))
        (fun e' he' => hd e' (by simp [he'])) (hacc.and he)
      simpa [Bool.and_assoc] using hrest
  simpa [conjunction] using hfold es _ true hes hd (HasValue.const (.bool true) Nat.one_pos)

end Merge

/-- Adding a list of constraints that are possible together on the path. -/
lemma Decides.addConstraints {S : Valuation → Prop} {cs es : List Expr} (h : Decides o cs S)
    (hes : ∀ e ∈ es, e.IsConstraint) (hd : ∀ e ∈ es, ∀ ρ, e.Defined o ρ)
    (hsat : ∃ ρ, S ρ ∧ ∀ e ∈ es, e.Holds ρ) :
    ∃ cs', ConstraintManager.addConstraints o cs es = some cs' ∧
      Decides o cs' fun ρ => S ρ ∧ ∀ e ∈ es, e.Holds ρ := by
  induction es generalizing cs S with
  | nil => exact ⟨cs, rfl, h.congr (by simp)⟩
  | cons e es ih =>
    obtain ⟨ρ₀, hρ₀, hall⟩ := hsat
    obtain ⟨cs₁, hadd, h₁⟩ := h.addConstraint (hes e (by simp)) (fun ρ _ => hd e (by simp) ρ)
      ⟨ρ₀, hρ₀, hall e (by simp)⟩
    obtain ⟨cs₂, hrest, h₂⟩ := ih h₁ (fun e' he' => hes e' (by simp [he']))
      (fun e' he' => hd e' (by simp [he'])) ⟨ρ₀, ⟨hρ₀, hall e (by simp)⟩, fun e' he' =>
        hall e' (by simp [he'])⟩
    refine ⟨cs₂, ?_, h₂.congr fun ρ => ?_⟩
    · rw [ConstraintManager.addConstraints, hadd]
      exact hrest
    · simp [and_assoc]

namespace Merge

section Constraints

variable [LinearOrder Expr] {as bs : List Expr}

lemma mem_commonConstraints {e : Expr} : e ∈ commonConstraints as bs ↔ e ∈ as ∧ e ∈ bs := by
  simp [commonConstraints]

lemma mem_suffix {e : Expr} : e ∈ suffix as bs ↔ e ∈ as ∧ e ∉ bs := by
  simp only [suffix, Finset.mem_sort, Finset.mem_sdiff, Finset.mem_inter, mem_toFinset]
  tauto

/-- The common constraints and the suffix are all constraints. -/
lemma holds_split (as bs : List Expr) (ρ : Valuation) : (∀ e ∈ as, e.Holds ρ) ↔
    (∀ e ∈ commonConstraints as bs, e.Holds ρ) ∧ ∀ e ∈ suffix as bs, e.Holds ρ := by
  simp only [mem_commonConstraints, mem_suffix]
  constructor
  · intro h
    exact ⟨fun e he => h e he.1, fun e he => h e he.1⟩
  · rintro ⟨hcommon, hsuffix⟩ e he
    by_cases heb : e ∈ bs
    · exact hcommon e ⟨he, heb⟩
    · exact hsuffix e ⟨he, heb⟩

lemma commonConstraints_comm (as bs : List Expr) :
    commonConstraints as bs = commonConstraints bs as := by
  rw [commonConstraints, commonConstraints, Finset.inter_comm]

/-- The constraint set that `merge` builds. -/
lemma constraints_merged (has : ∀ e ∈ as, e.IsConstraint ∧ ∀ ρ, e.Defined o ρ)
    (hbs : ∀ e ∈ bs, e.IsConstraint ∧ ∀ ρ, e.Defined o ρ) (hsat : ∃ ρ, ∀ e ∈ as, e.Holds ρ) :
    ∃ cs cs', ConstraintManager.addConstraints o [] (commonConstraints as bs) = some cs ∧
      ConstraintManager.addConstraint o cs
        (OrExpr.create (conjunction (suffix as bs)) (conjunction (suffix bs as))) = some cs' ∧
      ∀ ρ, (∀ e ∈ cs', e.Holds ρ) ↔ (∀ e ∈ as, e.Holds ρ) ∨ ∀ e ∈ bs, e.Holds ρ := by
  obtain ⟨ρ₀, hρ₀⟩ := hsat
  have hor : ∀ ρ, HasValue o ρ
      (OrExpr.create (conjunction (suffix as bs)) (conjunction (suffix bs as)))
      (.bool (decide (∀ e ∈ suffix as bs, e.Holds ρ) || decide (∀ e ∈ suffix bs as, e.Holds ρ))) :=
    fun ρ => (conjunction_hasValue (fun e he => (has e (mem_suffix.mp he).1).1)
      fun e he => (has e (mem_suffix.mp he).1).2 ρ).or
        (conjunction_hasValue (fun e he => (hbs e (mem_suffix.mp he).1).1)
          fun e he => (hbs e (mem_suffix.mp he).1).2 ρ)
  have hnil : Decides o [] fun _ => True :=
    (Decides.of_defined (by simp) (by simp)).congr (by simp)
  obtain ⟨cs, hcs, hdec⟩ := hnil.addConstraints
    (fun e he => (has e (mem_commonConstraints.mp he).1).1)
    (fun e he => (has e (mem_commonConstraints.mp he).1).2)
    ⟨ρ₀, trivial, ((holds_split as bs ρ₀).mp hρ₀).1⟩
  obtain ⟨cs', hcs', hdec'⟩ := hdec.addConstraint (hor ρ₀).isConstraint
    (fun ρ _ => (hor ρ).defined) ⟨ρ₀, ⟨trivial, ((holds_split as bs ρ₀).mp hρ₀).1⟩,
      (hor ρ₀).holds_iff.mpr (by simpa using Or.inl ((holds_split as bs ρ₀).mp hρ₀).2)⟩
  refine ⟨cs, cs', hcs, hcs', fun ρ => ?_⟩
  rw [hdec'.holds_iff, (hor ρ).holds_iff, holds_split as bs ρ, holds_split bs as ρ,
    commonConstraints_comm bs as]
  simp only [true_and, Bool.or_eq_true, decide_eq_true_eq]
  tauto

end Constraints

/-! ### Registers -/

lemma mergeFrame_locals (inA : Expr) (af bf : StackFrame) (i : ℕ) :
    (mergeFrame o inA af bf).locals i =
      if i < af.kf.numRegisters then mergeRegister o inA (af.locals i) (bf.locals i)
      else af.locals i := by
  have hfold : ∀ n, (List.range n).foldl (fun locals i =>
      update locals i (mergeRegister o inA (locals i) (bf.locals i))) af.locals i =
      if i < n then mergeRegister o inA (af.locals i) (bf.locals i) else af.locals i := by
    intro n
    induction n with
    | zero => rfl
    | succ n ih =>
      rw [range_succ, foldl_append, foldl_cons, foldl_nil]
      by_cases hin : i = n
      · subst hin
        rw [update_self, ih]
        simp
      · rw [update_of_ne hin, ih]
        have hlt : i < n ↔ i < n + 1 := by omega
        simp only [hlt]
  exact hfold _

/-! ### Object states in the heap -/

/-- The object state at `os` is writable and has the bytes `b`. -/
def CellAt (o : Opts) (ρ : Valuation) (heap : ObjectHeap) (os n : ℕ) (b : PlainArray) : Prop :=
  ∃ cell, heap[os]? = some cell ∧ cell.readOnly = false ∧ Represents o ρ n b cell.contents.view

/-- Only the object states in `js` differ. -/
structure Touches (js : Set ℕ) (heap heap' : ObjectHeap) : Prop where
  length_eq : heap'.length = heap.length
  getElem?_eq : ∀ j ∉ js, heap'[j]? = heap[j]?

variable {heap heap' heap'' : ObjectHeap} {js : Set ℕ} {os n i : ℕ} {b : PlainArray}

lemma Touches.trans (h : Touches js heap heap') (h' : Touches js heap' heap'') :
    Touches js heap heap'' :=
  ⟨h'.length_eq.trans h.length_eq, fun j hj => (h'.getElem?_eq j hj).trans (h.getElem?_eq j hj)⟩

lemma Touches.mono {js' : Set ℕ} (h : Touches js heap heap') (hjs : js ⊆ js') :
    Touches js' heap heap' :=
  ⟨h.length_eq, fun j hj => h.getElem?_eq j fun hin => hj (hjs hin)⟩

lemma Touches.refl (js : Set ℕ) (heap : ObjectHeap) : Touches js heap heap :=
  ⟨rfl, fun _ _ => rfl⟩

lemma touches_set (hos : os ∈ js) (cell : ObjectCell ObjectState) :
    Touches js heap (heap.set os cell) := by
  refine ⟨by simp, fun j hj => ?_⟩
  rw [List.getElem?_set_ne]
  rintro rfl
  exact hj hos

lemma CellAt.frame (h : CellAt o ρ heap os n b) (ht : heap'[os]? = heap[os]?) :
    CellAt o ρ heap' os n b := by
  obtain ⟨cell, hcell, hrest⟩ := h
  exact ⟨cell, ht.trans hcell, hrest⟩

lemma CellAt.touches (h : CellAt o ρ heap os n b) (ht : Touches js heap heap') (hos : os ∉ js) :
    CellAt o ρ heap' os n b := h.frame (ht.getElem?_eq os hos)

lemma CellAt.lt (h : CellAt o ρ heap os n b) : os < heap.length := by
  obtain ⟨cell, hcell, -⟩ := h
  exact (List.getElem?_eq_some_iff.mp hcell).1

lemma CellAt.congr {b' : PlainArray} (h : CellAt o ρ heap os n b) (hb : ∀ i < n, b i = b' i) :
    CellAt o ρ heap os n b' := by
  obtain ⟨cell, hcell, hro, hrep⟩ := h
  exact ⟨cell, hcell, hro, hrep.size_eq, hrep.root_ok, hrep.head_ok, hrep.head_defined,
    fun i hi => hb i hi ▸ hrep.bytes i hi⟩

lemma cellAt_set {cell : ObjectCell ObjectState} (hos : os < heap.length)
    (hro : cell.readOnly = false) (hrep : Represents o ρ n b cell.contents.view) :
    CellAt o ρ (heap.set os cell) os n b :=
  ⟨cell, by simp [hos], hro, hrep⟩

lemma readByte_spec (h : CellAt o ρ heap os n b) (hn : n ≤ 2 ^ 32) (hi : i < n) (hos : os ∈ js) :
    ∃ e heap', readByte o heap os i = some (e, heap') ∧ HasValue o ρ e ⟨8, b i⟩ ∧
      CellAt o ρ heap' os n b ∧ Touches js heap heap' := by
  obtain ⟨cell, hcell, hro, hrep⟩ := h
  obtain ⟨e, s', hread, hrep', he⟩ := read8_represents hn hrep hi
  refine ⟨e, heap.set os { cell with contents := s' }, ?_, he, ?_, touches_set hos _⟩
  · simp [readByte, hcell, hread]
  · exact cellAt_set (List.getElem?_eq_some_iff.mp hcell).1 hro hrep'

lemma write_byte (littleEndian : Bool) (b : PlainArray) (i : ℕ) (x : BitVec 8) :
    PlainArray.write littleEndian b i ⟨8, x⟩ = update b i x := by
  have hidx : ObjectState.byteIdx littleEndian 1 0 = 0 := by cases littleEndian <;> rfl
  have hnum : numBytes 8 = 1 := rfl
  simp [PlainArray.write, hnum, hidx, APInt.toNat]

lemma writeByte_spec (h : CellAt o ρ heap os n b) {value : Expr} {x : BitVec 8}
    (hv : HasValue o ρ value ⟨8, x⟩) (littleEndian : Bool) (hos : os ∈ js) :
    ∃ heap', writeByte littleEndian heap os i value = some heap' ∧
      CellAt o ρ heap' os n (update b i x) ∧ Touches js heap heap' := by
  obtain ⟨cell, hcell, hro, hrep⟩ := h
  obtain ⟨s', hwrite, hrep'⟩ : ∃ s', cell.contents.writeAt littleEndian i value = some s' ∧
      Represents o ρ n (PlainArray.write littleEndian b i ⟨8, x⟩) s'.view :=
    writeAt_represents hrep hv (Or.inr ⟨dvd_refl 8, Nat.succ_pos 7⟩)
  rw [write_byte] at hrep'
  refine ⟨heap.set os { cell with contents := s' }, ?_, ?_, touches_set hos _⟩
  · simp [writeByte, hcell, hwrite]
  · exact cellAt_set (List.getElem?_eq_some_iff.mp hcell).1 hro hrep'

/-- One round of the loop over the bytes. -/
lemma mergeByte_spec (hx : HasValue o ρ inA (.bool x))
    (littleEndian : Bool) {wos : ℕ} {bw bo : PlainArray} (hne : wos ≠ otherOS)
    (hn : n ≤ 2 ^ 32) (hi : i < n) (hw : CellAt o ρ heap wos n bw)
    (ho : CellAt o ρ heap otherOS n bo) :
    ∃ heap', mergeByte o littleEndian inA wos otherOS heap i = some heap' ∧
      CellAt o ρ heap' wos n (update bw i (if x then bw i else bo i)) ∧
      CellAt o ρ heap' otherOS n bo ∧ Touches {wos, otherOS} heap heap' := by
  -- the three accesses change at most one of the two object states each
  obtain ⟨av, heap₁, hread, hav, hw₁, ht₁⟩ :=
    readByte_spec hw hn hi (Set.mem_singleton wos)
  have ho₁ := ho.touches ht₁ (by simpa using hne.symm)
  obtain ⟨bv, heap₂, hread', hbv, ho₂, ht₂⟩ :=
    readByte_spec ho₁ hn hi (Set.mem_singleton otherOS)
  have hw₂ := hw₁.touches ht₂ (by simpa using hne)
  have hsel : HasValue o ρ (SelectExpr.create o inA av bv) ⟨8, if x then bw i else bo i⟩ := by
    have h := hx.select hav hbv rfl
    cases x <;> exact h
  obtain ⟨heap₃, hwrite, hw₃, ht₃⟩ : ∃ heap', writeByte littleEndian heap₂ wos i
      (SelectExpr.create o inA av bv) = some heap' ∧ CellAt o ρ heap' wos n
      (update bw i (if x then bw i else bo i)) ∧ Touches {wos} heap₂ heap' :=
    writeByte_spec hw₂ hsel littleEndian (Set.mem_singleton wos)
  refine ⟨heap₃, ?_, hw₃, ho₂.touches ht₃ (by simpa using hne.symm), ?_⟩
  · simp [mergeByte, hread, hread', hwrite]
  · exact ((ht₁.mono (by simp)).trans (ht₂.mono (by simp))).trans (ht₃.mono (by simp))

/-- The loop over the bytes. -/
lemma mergeBytes_spec (hx : HasValue o ρ inA (.bool x))
    (littleEndian : Bool) {wos : ℕ} (hne : wos ≠ otherOS) (hn : n ≤ 2 ^ 32)
    {bo : PlainArray} (is : List ℕ) : ∀ {heap : ObjectHeap} {bw : PlainArray},
      (∀ i ∈ is, i < n) → CellAt o ρ heap wos n bw → CellAt o ρ heap otherOS n bo →
      ∃ heap', is.foldlM (mergeByte o littleEndian inA wos otherOS) heap = some heap' ∧
        CellAt o ρ heap' wos n (fun i => if i ∈ is then if x then bw i else bo i else bw i) ∧
        CellAt o ρ heap' otherOS n bo ∧ Touches {wos, otherOS} heap heap' := by
  induction is with
  | nil =>
    intro heap bw _ hw ho
    exact ⟨heap, rfl, by simpa using hw, ho, .refl _ heap⟩
  | cons i is ih =>
    intro heap bw his hw ho
    obtain ⟨heap₁, hbyte, hw₁, ho₁, ht₁⟩ :=
      mergeByte_spec hx littleEndian hne hn (his i (by simp)) hw ho
    obtain ⟨heap₂, hloop, hw₂, ho₂, ht₂⟩ := ih (fun j hj => his j (by simp [hj])) hw₁ ho₁
    refine ⟨heap₂, ?_, hw₂.congr fun j _ => ?_, ho₂, ht₁.trans ht₂⟩
    · rw [foldlM_cons, hbyte]
      exact hloop
    · by_cases hji : j = i
      · subst hji
        cases x <;> simp
      · simp [hji]

/-! ### Objects -/

/-- The address space maps the object to the object state. -/
def Binds (space : AddressSpace) (mo : MemoryObject) (os : ℕ) : Prop :=
  space.objects.lookup mo.address = some (mo, os)

variable {space : AddressSpace} {mo : MemoryObject}

lemma binds_iff : Binds space mo os ↔ (mo, os) ∈ space.objects.entries := by
  rw [Binds, MemoryMap.lookup, space.objects.sorted.lookup_eq_some]
  simp

lemma Binds.findObject (h : Binds space mo os) : space.findObject mo = some os := by
  have h : space.objects.lookup mo.address = some (mo, os) := h
  rw [AddressSpace.findObject, h]
  rfl

lemma Binds.unique {os' : ℕ} (h : Binds space mo os) (h' : Binds space mo os') : os = os' := by
  have heq := Option.some.inj (h.symm.trans h')
  exact congrArg Prod.snd heq

/-- The objects of both address spaces have the given bytes, and no object state stands for two
objects. -/
structure Holding (o : Opts) (ρ : Valuation) (other : AddressSpace)
    (bA bB : MemoryObject → PlainArray) (m : ObjectHeap × AddressSpace) : Prop where
  object : ∃ object : ℕ → MemoryObject, (∀ mo os, Binds m.2 mo os → object os = mo) ∧
    ∀ mo os, Binds other mo os → object os = mo
  left : ∀ mo os, Binds m.2 mo os → mo.size ≤ 2 ^ 32 ∧ CellAt o ρ m.1 os mo.size (bA mo)
  right : ∀ mo os, Binds other mo os → CellAt o ρ m.1 os mo.size (bB mo)

/-- `getWriteable` gives an object state with the same bytes that no other object uses. -/
lemma getWriteable_holding {bA : MemoryObject → PlainArray}
    {m : ObjectHeap × AddressSpace} (h : Holding o ρ other bA bB m) (hos : Binds m.2 mo os)
    (hother : Binds other mo otherOS) (hne : os ≠ otherOS) :
    ∃ heap space wos, m.2.getWriteable m.1 mo os = some (heap, space, wos) ∧
      Holding o ρ other bA bB (heap, space) ∧ Binds space mo wos ∧ wos ≠ otherOS ∧
      ∀ mo' os', mo' ≠ mo → (Binds space mo' os' ↔ Binds m.2 mo' os') := by
  obtain ⟨hsize, cell, hcell, hro, hrep⟩ := h.left mo os hos
  rw [AddressSpace.getWriteable, hcell, Option.bind_some, if_neg (by simp [hro])]
  split
  · exact ⟨m.1, m.2, os, rfl, h, hos, hne, fun _ _ _ => Iff.rfl⟩
  · -- a copy at the end of the heap
    have hbinds : ∀ mo' os', mo' ≠ mo →
        (Binds { m.2 with objects := m.2.objects.replace mo m.1.length } mo' os' ↔
          Binds m.2 mo' os') := by
      intro mo' os' hmo'
      have hb : m.2.objects.lookup mo.address = some (mo, os) := hos
      rw [Binds, Binds, MemoryMap.lookup_replace]
      split
      · next haddr =>
        rw [← haddr, hb]
        simp [hmo'.symm]
      · rfl
    have hself : Binds { m.2 with objects := m.2.objects.replace mo m.1.length } mo
        m.1.length := by
      rw [Binds, MemoryMap.lookup_replace, if_pos rfl]
    have hkeep : ∀ j, j < m.1.length → (m.1 ++ [{ cell with copyOnWriteOwner := m.2.cowKey }])[j]? =
        m.1[j]? := fun j hj => List.getElem?_append_left hj
    refine ⟨_, _, m.1.length, rfl, ⟨?_, ?_, ?_⟩, hself, (h.right mo _ hother).lt.ne', hbinds⟩
    · obtain ⟨object, hleft, hright⟩ := h.object
      refine ⟨update object m.1.length mo, fun mo' os' hb => ?_, fun mo' os' hb => ?_⟩
      · by_cases hmo' : mo' = mo
        · subst hmo'
          rw [hb.unique hself, update_self]
        · have hb' := (hbinds mo' os' hmo').mp hb
          rw [update_of_ne (h.left mo' os' hb').2.lt.ne, hleft mo' os' hb']
      · rw [update_of_ne (h.right mo' os' hb).lt.ne, hright mo' os' hb]
    · intro mo' os' hb
      by_cases hmo' : mo' = mo
      · subst hmo'
        rw [hb.unique hself]
        exact ⟨hsize, { cell with copyOnWriteOwner := m.2.cowKey }, by simp, hro, hrep⟩
      · obtain ⟨hsize', hat⟩ := h.left mo' os' ((hbinds mo' os' hmo').mp hb)
        exact ⟨hsize', hat.frame (hkeep os' hat.lt)⟩
    · intro mo' os' hb
      have hat := h.right mo' os' hb
      exact hat.frame (hkeep os' hat.lt)

/-- One round of the loop over the mutated objects. -/
lemma mergeObject_holding (hx : HasValue o ρ inA (.bool x))
    (littleEndian : Bool) {bA : MemoryObject → PlainArray}
    {m : ObjectHeap × AddressSpace} (h : Holding o ρ other bA bB m) (hos : Binds m.2 mo os)
    (hother : Binds other mo otherOS) (hne : os ≠ otherOS) :
    ∃ m', mergeObject o littleEndian inA other m mo = some m' ∧
      Holding o ρ other (update bA mo fun i => if x then bA mo i else bB mo i) bB m' ∧
      (∃ wos, Binds m'.2 mo wos) ∧
      ∀ mo' os', mo' ≠ mo → (Binds m'.2 mo' os' ↔ Binds m.2 mo' os') := by
  obtain ⟨heap, space, wos, hget, hw, hwos, hwne, hbinds⟩ :=
    getWriteable_holding h hos hother hne
  obtain ⟨hsize, hcell⟩ := hw.left mo wos hwos
  obtain ⟨heap', hloop, hw', ho', ht⟩ := mergeBytes_spec hx littleEndian hwne hsize
    (List.range mo.size) (fun i hi => mem_range.mp hi) hcell (hw.right mo otherOS hother)
  refine ⟨(heap', space), ?_, ⟨hw.object, ?_, ?_⟩, ⟨wos, hwos⟩, hbinds⟩
  · simp [mergeObject, hos.findObject, hother.findObject, hget, hloop]
  · obtain ⟨object, hleft, hright⟩ := hw.object
    intro mo' os' hb
    by_cases hmo' : mo' = mo
    · subst hmo'
      rw [hb.unique hwos, update_self]
      exact ⟨hsize, hw'.congr fun i hi => by simp [hi]⟩
    · obtain ⟨hsize', hat⟩ := hw.left mo' os' hb
      rw [update_of_ne hmo']
      refine ⟨hsize', hat.touches ht ?_⟩
      rintro (rfl | rfl)
      · exact hmo' ((hleft mo' _ hb).symm.trans (hleft mo _ hwos))
      · exact hmo' ((hleft mo' _ hb).symm.trans (hright mo _ hother))
  · obtain ⟨object, hleft, hright⟩ := hw.object
    intro mo' os' hb
    by_cases hmo' : mo' = mo
    · subst hmo'
      rw [hb.unique hother]
      exact ho'
    · refine (hw.right mo' os' hb).touches ht ?_
      rintro (rfl | rfl)
      · exact hmo' ((hright mo' _ hb).symm.trans (hleft mo _ hwos))
      · exact hmo' ((hright mo' _ hb).symm.trans (hright mo _ hother))

/-- The loop over the mutated objects. -/
lemma mergeObjects_holding (hx : HasValue o ρ inA (.bool x)) (littleEndian : Bool)
    (mos : List MemoryObject) (hnodup : mos.Nodup) :
    ∀ {bA : MemoryObject → PlainArray} {m : ObjectHeap × AddressSpace}, Holding o ρ other bA bB m →
      (∀ mo ∈ mos, ∃ os otherOS, Binds m.2 mo os ∧ Binds other mo otherOS ∧ os ≠ otherOS) →
      ∃ m', mos.foldlM (mergeObject o littleEndian inA other) m = some m' ∧ Holding o ρ other
          (fun mo => if mo ∈ mos then fun i => if x then bA mo i else bB mo i else bA mo) bB m' ∧
        ∀ mo, (∃ os, Binds m'.2 mo os) ↔ ∃ os, Binds m.2 mo os := by
  induction mos with
  | nil =>
    intro bA m h _
    exact ⟨m, rfl, by simpa using h, fun _ => Iff.rfl⟩
  | cons a mos ih =>
    intro bA m h hmos
    obtain ⟨ha, hnodup⟩ := nodup_cons.mp hnodup
    obtain ⟨os, otherOS, hos, hother, hne⟩ := hmos a (by simp)
    obtain ⟨m₁, hstep, h₁, ⟨wos, hwos⟩, hbinds⟩ :=
      mergeObject_holding hx littleEndian h hos hother hne
    obtain ⟨m₂, hloop, h₂, hbinds₂⟩ := ih hnodup h₁ fun mo hmo => by
      obtain ⟨os', otherOS', hos', hrest⟩ := hmos mo (by simp [hmo])
      exact ⟨os', otherOS', (hbinds mo os' (ne_of_mem_of_not_mem hmo ha)).mpr hos', hrest⟩
    refine ⟨m₂, ?_, ?_, fun mo => ?_⟩
    · rw [foldlM_cons, hstep]
      exact hloop
    · convert h₂ using 1
      funext mo
      by_cases hmo : mo = a
      · subst hmo
        simp [ha]
      · simp [hmo]
    · rw [hbinds₂ mo]
      by_cases hmo : mo = a
      · subst hmo
        exact ⟨fun _ => ⟨os, hos⟩, fun _ => ⟨wos, hwos⟩⟩
      · exact exists_congr fun os' => hbinds mo os' hmo

/-- The two maps have the same objects, and the mutated ones have two object states. -/
lemma mutated_spec {as bs : List (MemoryObject × ℕ)}
    (hsorted : SortedMap.Sorted (fun e => e.1.address) as) (h : mutated as bs = some mos) :
    (∀ mo os, (mo, os) ∈ as → ∃ os', (mo, os') ∈ bs ∧ (mo ∈ mos ↔ os ≠ os')) ∧
      ∀ mo ∈ mos, ∃ os, (mo, os) ∈ as := by
  induction as generalizing bs mos with
  | nil =>
    cases bs with
    | nil =>
      obtain rfl := Option.some.inj h
      simp
    | cons => exact absurd h (by simp [mutated])
  | cons ai as ih =>
    cases bs with
    | nil => exact absurd h (by simp [mutated])
    | cons bi bs =>
      obtain ⟨hlt, hsorted⟩ := pairwise_cons.mp hsorted
      rw [mutated] at h
      split at h
      · exact absurd h (by simp)
      next hmo =>
      rw [not_not] at hmo
      obtain ⟨mos', hmos', rfl⟩ := Option.map_eq_some_iff.mp h
      obtain ⟨hall, hmem⟩ := ih hsorted hmos'
      have hhead : ai.1 ∉ mos' := by
        intro hin
        obtain ⟨os, hos⟩ := hmem _ hin
        exact (hlt _ hos).false
      constructor
      · intro mo os hin
        rcases mem_cons.mp hin with rfl | hin
        · refine ⟨bi.2, ?_, ?_⟩
          · rw [show mo = bi.1 from hmo]
            exact mem_cons_self
          · show mo ∈ (if os ≠ bi.2 then mo :: mos' else mos') ↔ os ≠ bi.2
            split
            · next hos => simp [hos]
            · next hos => simpa [hos] using hhead
        · obtain ⟨os', hos', hiff⟩ := hall mo os hin
          refine ⟨os', mem_cons_of_mem _ hos', ?_⟩
          rw [← hiff]
          have hne : mo ≠ ai.1 := by
            rintro rfl
            exact (hlt _ hin).false
          split
          · simp [hne]
          · rfl
      · intro mo hmo'
        split at hmo'
        · rcases mem_cons.mp hmo' with rfl | hin
          · exact ⟨ai.2, mem_cons_self⟩
          · obtain ⟨os, hos⟩ := hmem mo hin
            exact ⟨os, mem_cons_of_mem _ hos⟩
        · obtain ⟨os, hos⟩ := hmem mo hmo'
          exact ⟨os, mem_cons_of_mem _ hos⟩

/-! ### The merged state -/

/-- The value of a byte of an object. -/
def byteValue (o : Opts) (heap : ObjectHeap) (space : AddressSpace) (ρ : Valuation)
    (mo : MemoryObject) (i : ℕ) : Option APInt := do
  let os ← space.findObject mo
  let cell ← heap[os]?
  let (e, _) ← cell.contents.read8 o i
  return e.eval ρ

lemma byteValue_eq (hb : Binds space mo os) (hsize : mo.size ≤ 2 ^ 32)
    (h : CellAt o ρ heap os mo.size b) (hi : i < mo.size) :
    byteValue o heap space ρ mo i = some ⟨8, b i⟩ := by
  obtain ⟨cell, hcell, -, hrep⟩ := h
  obtain ⟨e, s', hread, -, he⟩ := read8_represents hsize hrep hi
  simp [byteValue, hb.findObject, hcell, hread, he.eval_eq]

/-- Two states whose constraints are Boolean, whose registers have the widths of their functions
and whose objects are consistent and writable.  With the option `const-array-opt` no constraint
reads a constant array out of its bounds, and no register or object does so under the
assignments in `T`. -/
structure WellFormed (o : Opts) (T : Valuation → Prop) (heap : ObjectHeap)
    (a b : ExecutionState MachineState) : Prop where
  constraints : ∀ c ∈ a.constraints ++ b.constraints, c.IsConstraint ∧ ∀ ρ, c.Defined o ρ
  registers : ∃ width : KFunction → ℕ → ℕ, ∀ f ∈ a.rest.stack ++ b.rest.stack,
    ∀ i < f.kf.numRegisters, ∀ e, f.locals i = some e →
      e.OfWidth (width f.kf i) ∧ ∀ ρ, T ρ → e.Defined o ρ
  objects : ∃ object : ℕ → MemoryObject,
    ∀ e ∈ a.rest.addressSpace.objects.entries ++ b.rest.addressSpace.objects.entries,
      object e.2 = e.1 ∧ e.1.size ≤ 2 ^ 32 ∧
      ∃ cell, heap[e.2]? = some cell ∧ cell.readOnly = false ∧
        ∀ ρ, T ρ → ∃ bytes, Represents o ρ e.1.size bytes cell.contents.view

/-- What the state `a` stands for after `b` was merged into it. -/
structure Merged (o : Opts) (T : Valuation → Prop) (heap heap' : ObjectHeap)
    (a b a' : ExecutionState MachineState) : Prop where
  admits : ∀ ρ, a'.Admits ρ ↔ a.Admits ρ ∨ b.Admits ρ
  registers : ∀ (k : ℕ) (af bf : StackFrame), a.rest.stack[k]? = some af →
    b.rest.stack[k]? = some bf → ∃ f : StackFrame, a'.rest.stack[k]? = some f ∧
      ∀ i < af.kf.numRegisters, ∀ av bv, af.locals i = some av →
        bf.locals i = some bv → ∃ v, f.locals i = some v ∧
        (∀ ρ, a.Admits ρ → v.eval ρ = av.eval ρ) ∧ ∀ ρ, b.Admits ρ → v.eval ρ = bv.eval ρ
  objects : ∀ mo, (∃ os, (mo, os) ∈ a'.rest.addressSpace.objects.entries) ↔
    ∃ os, (mo, os) ∈ a.rest.addressSpace.objects.entries
  bytes : ∀ e ∈ a.rest.addressSpace.objects.entries, ∀ i < e.1.size,
    (∀ ρ, a.Admits ρ → ∃ x, byteValue o heap a.rest.addressSpace ρ e.1 i = some x ∧
      byteValue o heap' a'.rest.addressSpace ρ e.1 i = some x) ∧
    ∀ ρ, b.Admits ρ → ∃ x, byteValue o heap b.rest.addressSpace ρ e.1 i = some x ∧
      byteValue o heap' a'.rest.addressSpace ρ e.1 i = some x
  other : ∀ ρ, T ρ → ∀ e ∈ b.rest.addressSpace.objects.entries, ∀ i < e.1.size,
    ∃ x, byteValue o heap b.rest.addressSpace ρ e.1 i = some x ∧
      byteValue o heap' b.rest.addressSpace ρ e.1 i = some x

lemma sameFrames_spec {as bs : List StackFrame} (h : sameFrames as bs = true) :
    ∀ (k : ℕ) (af bf : StackFrame), as[k]? = some af → bs[k]? = some bf → af.kf = bf.kf := by
  induction as generalizing bs with
  | nil =>
    cases bs with
    | nil => simp
    | cons => exact absurd h (by simp [sameFrames])
  | cons itA as ih =>
    cases bs with
    | nil => exact absurd h (by simp [sameFrames])
    | cons itB bs =>
      simp only [sameFrames, Bool.and_eq_true, decide_eq_true_eq] at h
      intro k af bf haf hbf
      cases k with
      | zero =>
        rw [List.getElem?_cons_zero, Option.some.injEq] at haf hbf
        rw [← haf, ← hbf]
        exact h.1.2
      | succ k => exact ih h.2 k af bf haf hbf

section Assembly

variable {T : Valuation → Prop} {a b' : ExecutionState MachineState}

/-- The bytes of the object states under one assignment. -/
lemma WellFormed.exists_bytes (h : WellFormed o T heap a b') (hρ : T ρ) :
    ∃ β : ℕ → PlainArray, ∀ mo os,
      Binds a.rest.addressSpace mo os ∨ Binds b'.rest.addressSpace mo os →
      mo.size ≤ 2 ^ 32 ∧ CellAt o ρ heap os mo.size (β os) := by
  obtain ⟨object, hobject⟩ := h.objects
  have hmem : ∀ mo os, Binds a.rest.addressSpace mo os ∨ Binds b'.rest.addressSpace mo os →
      (mo, os) ∈ a.rest.addressSpace.objects.entries ++ b'.rest.addressSpace.objects.entries := by
    intro mo os hb
    rw [binds_iff, binds_iff] at hb
    exact mem_append.mpr hb
  have hex : ∀ os, ∃ bytes : PlainArray, ∀ mo,
      Binds a.rest.addressSpace mo os ∨ Binds b'.rest.addressSpace mo os →
      mo.size ≤ 2 ^ 32 ∧ CellAt o ρ heap os mo.size bytes := by
    intro os
    by_cases hbound : ∃ mo, Binds a.rest.addressSpace mo os ∨ Binds b'.rest.addressSpace mo os
    · obtain ⟨mo, hmo⟩ := hbound
      obtain ⟨hobj, hsize, cell, hcell, hro, hrep⟩ := hobject _ (hmem mo os hmo)
      obtain ⟨bytes, hbytes⟩ := hrep ρ hρ
      refine ⟨bytes, fun mo' hmo' => ?_⟩
      obtain rfl : mo' = mo := (hobject _ (hmem mo' os hmo')).1.symm.trans hobj
      exact ⟨hsize, cell, hcell, hro, hbytes⟩
    · exact ⟨fun _ => 0, fun mo hmo => absurd ⟨mo, hmo⟩ hbound⟩
  choose β hβ using hex
  exact ⟨β, fun mo os hmo => hβ os mo hmo⟩

/-- The loop over the mutated objects from two well-formed states, under one assignment. -/
lemma objects_merged [LinearOrder MemoryObject] (h : WellFormed o T heap a b') (hρ : T ρ)
    (hmos : mutated a.rest.addressSpace.objects.entries b'.rest.addressSpace.objects.entries =
      some mos) (hx : HasValue o ρ inA (.bool x)) (littleEndian : Bool) :
    ∃ m, (mos.toFinset.sort (· ≤ ·)).foldlM
        (mergeObject o littleEndian inA b'.rest.addressSpace) (heap, a.rest.addressSpace) = some m ∧
      (∀ mo, (∃ os, Binds m.2 mo os) ↔ ∃ os, Binds a.rest.addressSpace mo os) ∧
      (∀ mo os, Binds a.rest.addressSpace mo os → ∀ i < mo.size, ∃ xa xb,
        byteValue o heap a.rest.addressSpace ρ mo i = some xa ∧
        byteValue o heap b'.rest.addressSpace ρ mo i = some xb ∧
        byteValue o m.1 m.2 ρ mo i = some (if x then xa else xb)) ∧
      ∀ mo os, Binds b'.rest.addressSpace mo os → ∀ i < mo.size, ∃ y,
        byteValue o heap b'.rest.addressSpace ρ mo i = some y ∧
        byteValue o m.1 b'.rest.addressSpace ρ mo i = some y := by
  obtain ⟨β, hβ⟩ := h.exists_bytes hρ
  obtain ⟨hall, hmem⟩ := mutated_spec a.rest.addressSpace.objects.sorted hmos
  -- the object state of an object in either address space
  let osA mo := (a.rest.addressSpace.findObject mo).getD 0
  let osB mo := (b'.rest.addressSpace.findObject mo).getD 0
  have hosA : ∀ mo os, Binds a.rest.addressSpace mo os → osA mo = os := fun mo os hb => by
    simp [osA, hb.findObject]
  have hosB : ∀ mo os, Binds b'.rest.addressSpace mo os → osB mo = os := fun mo os hb => by
    simp [osB, hb.findObject]
  have hpair : ∀ mo os, Binds a.rest.addressSpace mo os →
      ∃ os', Binds b'.rest.addressSpace mo os' ∧ (mo ∈ mos ↔ os ≠ os') := by
    intro mo os hb
    obtain ⟨os', hos', hiff⟩ := hall mo os (binds_iff.mp hb)
    exact ⟨os', binds_iff.mpr hos', hiff⟩
  have hstart : Holding o ρ b'.rest.addressSpace (fun mo => β (osA mo)) (fun mo => β (osB mo))
      (heap, a.rest.addressSpace) := by
    refine ⟨?_, fun mo os hb => ?_, fun mo os hb => ?_⟩
    · obtain ⟨object, hobject⟩ := h.objects
      refine ⟨object, fun mo os hb => ?_, fun mo os hb => ?_⟩
      · exact (hobject (mo, os) (mem_append_left _ (binds_iff.mp hb))).1
      · exact (hobject (mo, os) (mem_append_right _ (binds_iff.mp hb))).1
    · rw [hosA mo os hb]
      exact hβ mo os (Or.inl hb)
    · rw [hosB mo os hb]
      exact (hβ mo os (Or.inr hb)).2
  obtain ⟨m, hrun, hm, hbinds⟩ := mergeObjects_holding hx littleEndian (mos.toFinset.sort (· ≤ ·))
    (Finset.sort_nodup _ _) hstart fun mo hmo => by
      obtain ⟨os, hos⟩ := hmem mo (by simpa using hmo)
      obtain ⟨os', hos', hiff⟩ := hpair mo os (binds_iff.mpr hos)
      exact ⟨os, os', binds_iff.mpr hos, hos', hiff.mp (by simpa using hmo)⟩
  refine ⟨m, hrun, hbinds, fun mo os hb i hi => ?_, fun mo os hb i hi => ?_⟩
  · obtain ⟨os', hb', hiff⟩ := hpair mo os hb
    obtain ⟨wos, hwos⟩ := (hbinds mo).mpr ⟨os, hb⟩
    obtain ⟨hsize, hcell⟩ := hβ mo os (Or.inl hb)
    refine ⟨⟨8, β os i⟩, ⟨8, β os' i⟩, byteValue_eq hb hsize hcell hi,
      byteValue_eq hb' hsize (hβ mo os' (Or.inr hb')).2 hi, ?_⟩
    rw [byteValue_eq hwos hsize (hm.left mo wos hwos).2 hi, hosA mo os hb, hosB mo os' hb']
    by_cases hmo : mo ∈ mos
    · cases x <;> simp [hmo]
    · obtain rfl : os = os' := by
        by_contra hne
        exact hmo (hiff.mpr hne)
      simp [hmo]
  · obtain ⟨hsize, hcell⟩ := hβ mo os (Or.inr hb)
    refine ⟨⟨8, β os i⟩, byteValue_eq hb hsize hcell hi, ?_⟩
    have hright := hm.right mo os hb
    rw [hosB mo os hb] at hright
    exact byteValue_eq hb hsize hright hi

variable [LinearOrder Expr] [LinearOrder MemoryObject]

omit [LinearOrder Expr] [LinearOrder MemoryObject] in
/-- The registers of a merged frame. -/
lemma registers_merged {width : KFunction → ℕ → ℕ} {af bf : StackFrame}
    (hkf : af.kf = bf.kf) {i : ℕ} (hi : i < af.kf.numRegisters) {av bv : Expr}
    (hav : af.locals i = some av) (hbv : bf.locals i = some bv)
    (hwa : av.OfWidth (width af.kf i)) (hwb : bv.OfWidth (width bf.kf i)) :
    ∃ v, (mergeFrame o inA af bf).locals i = some v ∧
      ∀ ρ x, HasValue o ρ inA (.bool x) → av.Defined o ρ → bv.Defined o ρ →
        v.eval ρ = if x then av.eval ρ else bv.eval ρ := by
  refine ⟨SelectExpr.create o inA av bv, ?_, fun ρ x hx hda hdb => ?_⟩
  · rw [mergeFrame_locals, if_pos hi, hav, hbv]
    rfl
  · have hea := Expr.eval_width ρ hwa.typed
    have heb := Expr.eval_width ρ hwb.typed
    have hva : HasValue o ρ av (av.eval ρ) :=
      ⟨⟨hwa.typed, hwa.canon, hea.symm⟩, hda, rfl⟩
    have hvb : HasValue o ρ bv (bv.eval ρ) :=
      ⟨⟨hwb.typed, hwb.canon, heb.symm⟩, hdb, rfl⟩
    refine (hx.select hva hvb ?_).eval_eq
    rw [hea, heb, hwa.width_eq, hwb.width_eq, hkf]

/-- The part of `merge` that changes the state. -/
lemma mergeInto_merged (littleEndian : Bool) (h : WellFormed o T heap a b')
    (hT : ∀ ρ, a.Admits ρ ∨ b'.Admits ρ → T ρ)
    (hframes : sameFrames a.rest.stack b'.rest.stack = true)
    (hmos : mutated a.rest.addressSpace.objects.entries b'.rest.addressSpace.objects.entries =
      some mos) (hsat : ∃ ρ, a.Admits ρ) (hexcl : ∀ ρ, ¬ (a.Admits ρ ∧ b'.Admits ρ)) :
    ∃ heap' a', mergeInto o littleEndian heap a b' mos = some (heap', a') ∧
      Merged o T heap heap' a b' a' := by
  have hca : ∀ c ∈ a.constraints, c.IsConstraint ∧ ∀ ρ, c.Defined o ρ := fun c hc =>
    h.constraints c (mem_append_left _ hc)
  have hcb : ∀ c ∈ b'.constraints, c.IsConstraint ∧ ∀ ρ, c.Defined o ρ := fun c hc =>
    h.constraints c (mem_append_right _ hc)
  have hin : ∀ ρ, HasValue o ρ (conjunction (suffix a.constraints b'.constraints))
      (.bool (decide (∀ e ∈ suffix a.constraints b'.constraints, e.Holds ρ))) := fun ρ =>
    conjunction_hasValue (fun e he => (hca e (mem_suffix.mp he).1).1)
      fun e he => (hca e (mem_suffix.mp he).1).2 ρ
  -- the condition tells the two states apart
  have hinA : ∀ ρ, a.Admits ρ →
      decide (∀ e ∈ suffix a.constraints b'.constraints, e.Holds ρ) = true := fun ρ hρ =>
    decide_eq_true ((holds_split a.constraints b'.constraints ρ).mp hρ).2
  have hinB : ∀ ρ, b'.Admits ρ →
      decide (∀ e ∈ suffix a.constraints b'.constraints, e.Holds ρ) = false := by
    intro ρ hρ
    refine decide_eq_false fun hsuffix => hexcl ρ ⟨?_, hρ⟩
    refine (holds_split a.constraints b'.constraints ρ).mpr ⟨?_, hsuffix⟩
    rw [commonConstraints_comm]
    exact ((holds_split b'.constraints a.constraints ρ).mp hρ).1
  obtain ⟨cs, cs', hcs, hcs', hadmits⟩ := constraints_merged hca hcb hsat
  obtain ⟨ρ₀, hρ₀⟩ := hsat
  obtain ⟨m, hrun, hbinds, -⟩ := objects_merged h (hT ρ₀ (Or.inl hρ₀)) hmos (hin ρ₀) littleEndian
  refine ⟨m.1, ⟨cs', a.depth, { a.rest with
    stack := List.zipWith (mergeFrame o (conjunction (suffix a.constraints b'.constraints)))
      a.rest.stack b'.rest.stack
    addressSpace := m.2 }⟩, ?_, ?_⟩
  · simp [mergeInto, hrun, hcs, hcs']
  · obtain ⟨width, hwidth⟩ := h.registers
    refine ⟨hadmits, fun k af bf haf hbf => ?_, fun mo => ?_, fun e he i hi => ?_,
      fun ρ hρ e he i hi => ?_⟩
    · refine ⟨mergeFrame o (conjunction (suffix a.constraints b'.constraints)) af bf,
        by simp [List.getElem?_zipWith, haf, hbf], fun i hi av bv hav hbv => ?_⟩
      have hkf := sameFrames_spec hframes k af bf haf hbf
      obtain ⟨hwa, hda⟩ := hwidth af (mem_append_left _ (mem_of_getElem? haf)) i hi av hav
      obtain ⟨hwb, hdb⟩ := hwidth bf (mem_append_right _ (mem_of_getElem? hbf)) i (hkf ▸ hi) bv hbv
      obtain ⟨v, hv, hval⟩ := registers_merged hkf hi hav hbv hwa hwb
      refine ⟨v, hv, fun ρ hρ => ?_, fun ρ hρ => ?_⟩
      · have heval := hval ρ _ (hin ρ) (hda ρ (hT ρ (Or.inl hρ))) (hdb ρ (hT ρ (Or.inl hρ)))
        rwa [hinA ρ hρ, if_pos rfl] at heval
      · have heval := hval ρ _ (hin ρ) (hda ρ (hT ρ (Or.inr hρ))) (hdb ρ (hT ρ (Or.inr hρ)))
        rwa [hinB ρ hρ, if_neg Bool.false_ne_true] at heval
    · simpa only [binds_iff] using hbinds mo
    · constructor
      · intro ρ hρ
        obtain ⟨m', hrun', -, hbytes, -⟩ :=
          objects_merged h (hT ρ (Or.inl hρ)) hmos (hin ρ) littleEndian
        obtain rfl := Option.some.inj (hrun.symm.trans hrun')
        obtain ⟨xa, xb, hxa, -, hx⟩ := hbytes e.1 e.2 (binds_iff.mpr he) i hi
        rw [hinA ρ hρ, if_pos rfl] at hx
        exact ⟨xa, hxa, hx⟩
      · intro ρ hρ
        obtain ⟨m', hrun', -, hbytes, -⟩ :=
          objects_merged h (hT ρ (Or.inr hρ)) hmos (hin ρ) littleEndian
        obtain rfl := Option.some.inj (hrun.symm.trans hrun')
        obtain ⟨xa, xb, -, hxb, hx⟩ := hbytes e.1 e.2 (binds_iff.mpr he) i hi
        rw [hinB ρ hρ, if_neg Bool.false_ne_true] at hx
        exact ⟨xb, hxb, hx⟩
    · obtain ⟨m', hrun', -, -, hother⟩ := objects_merged h hρ hmos (hin ρ) littleEndian
      obtain rfl := Option.some.inj (hrun.symm.trans hrun')
      exact hother e.1 e.2 (binds_iff.mpr he) i hi

end Assembly

end Merge

/-- A merge that is refused changes nothing.  Otherwise, if the states are possible and exclude
each other, no assertion fails and the merged state stands for both. -/
theorem ExecutionState.merge_spec [LinearOrder Expr] [LinearOrder MemoryObject] (o : Opts)
    (littleEndian : Bool) (T : Valuation → Prop) (heap : ObjectHeap)
    (a b : ExecutionState MachineState) (h : Merge.WellFormed o T heap a b)
    (hT : ∀ ρ, a.Admits ρ ∨ b.Admits ρ → T ρ) :
    (∀ heap' a', a.merge o littleEndian heap b = some (false, heap', a') → heap' = heap ∧ a' = a) ∧
    ((∃ ρ, a.Admits ρ) → (∃ ρ, b.Admits ρ) → (∀ ρ, ¬ (a.Admits ρ ∧ b.Admits ρ)) →
      ∃ result heap' a', a.merge o littleEndian heap b = some (result, heap', a') ∧
        (result = true → Merge.Merged o T heap heap' a b a')) := by
  -- all refusals come before the first change
  have hcases : a.merge o littleEndian heap b = some (false, heap, a) ∨
      ∃ mos, Merge.sameFrames a.rest.stack b.rest.stack = true ∧
        Merge.mutated a.rest.addressSpace.objects.entries
          b.rest.addressSpace.objects.entries = some mos ∧
        a.merge o littleEndian heap b =
          (Merge.mergeInto o littleEndian heap a b mos).map fun r => (true, r.1, r.2) := by
    rw [merge]
    split_ifs with hpc hsym hframes
    · exact Or.inl rfl
    · exact Or.inl rfl
    · exact Or.inl rfl
    · split
      · exact Or.inl rfl
      · next mos hmos => exact Or.inr ⟨mos, by simpa using hframes, hmos, rfl⟩
  rcases hcases with hfalse | ⟨mos, hframes, hmos, htrue⟩
  · refine ⟨fun heap' a' heq => ?_, fun _ _ _ => ⟨false, heap, a, hfalse, by simp⟩⟩
    rw [hfalse] at heq
    simp only [Option.some.injEq, Prod.mk.injEq, true_and] at heq
    exact ⟨heq.1.symm, heq.2.symm⟩
  · refine ⟨fun heap' a' heq => ?_, fun hsat _ hexcl => ?_⟩
    · rw [htrue] at heq
      obtain ⟨r, -, hr⟩ := Option.map_eq_some_iff.mp heq
      exact absurd (congrArg Prod.fst hr) (by simp)
    · obtain ⟨heap', a', hinto, hmerged⟩ :=
        Merge.mergeInto_merged littleEndian h hT hframes hmos hsat hexcl
      exact ⟨true, heap', a', by rw [htrue, hinto]; rfl, fun _ => hmerged⟩

namespace Merge

open ConstraintManager (byteX byteX_typed)

/-- Some order of expressions. -/
noncomputable local instance someExprOrder : LinearOrder Expr :=
  @linearOrderOfSTO _ WellOrderingRel _ (Classical.decRel _)

/-- Some order of memory objects. -/
noncomputable local instance someObjectOrder : LinearOrder MemoryObject :=
  @linearOrderOfSTO _ WellOrderingRel _ (Classical.decRel _)

/-- The constraint that the byte has the value `n`. -/
def byteIs (n : ℕ) : Expr := .bin .eq (.const (.ofNat 8 n)) byteX

/-- A state of the path on which the byte has the value `n`: one register and one object. -/
def pathState (n os : ℕ) : ExecutionState MachineState :=
  ⟨[byteIs n], 0, 0, [], [⟨none, ⟨0, 1⟩, fun _ => some (.const (.ofNat 8 n))⟩],
    ⟨1, ⟨[(⟨0, 16, 1⟩, os)], by simp [SortedMap.Sorted]⟩⟩⟩

/-- The object states of the two paths: a zero and a one. -/
def pathHeap : ObjectHeap :=
  [⟨1, false, .ofConcrete 1 0 none⟩, ⟨1, false, (ObjectState.ofConcrete 1 0 none).write8 0 1⟩]

lemma byteIs_isConstraint (n : ℕ) : (byteIs n).IsConstraint :=
  ⟨⟨Nat.succ_pos _, byteX_typed, rfl⟩, ⟨trivial, ⟨trivial, trivial⟩, rfl⟩, rfl⟩

lemma byteIs_holds (n : ℕ) (ρ : Valuation) :
    (byteIs n).Holds ρ ↔ APInt.ofNat 8 n = byteX.eval ρ := by
  have hwidth : (APInt.ofNat 8 n).width = (byteX.eval ρ).width :=
    (Expr.eval_width ρ byteX_typed).symm
  rw [byteIs, Expr.Holds, Expr.eval_bin, Expr.eval, BinKind.eq_fold hwidth, APInt.bool_inj,
    decide_eq_true_eq]

lemma pathState_admits (n os : ℕ) (ρ : Valuation) :
    (pathState n os).Admits ρ ↔ APInt.ofNat 8 n = byteX.eval ρ := by
  rw [← byteIs_holds]
  exact forall_mem_singleton

lemma pathStates_wellFormed (o : Opts) :
    WellFormed o (fun _ => True) pathHeap (pathState 0 0) (pathState 1 1) where
  constraints c hc := by
    rcases mem_pair.mp hc with rfl | rfl
    · exact ⟨byteIs_isConstraint 0, fun ρ ho => ⟨trivial, byteX_defined o ρ ho⟩⟩
    · exact ⟨byteIs_isConstraint 1, fun ρ ho => ⟨trivial, byteX_defined o ρ ho⟩⟩
  registers := by
    refine ⟨fun _ _ => 8, fun f hf i _ e he => ?_⟩
    rcases mem_pair.mp hf with rfl | rfl
    · obtain rfl := Option.some.inj he
      exact ⟨⟨Nat.succ_pos 7, trivial, rfl⟩, fun _ _ _ => trivial⟩
    · obtain rfl := Option.some.inj he
      exact ⟨⟨Nat.succ_pos 7, trivial, rfl⟩, fun _ _ _ => trivial⟩
  objects := by
    have hzero : ∀ ρ, Represents o ρ 1 (fun _ => 0) (ObjectState.ofConcrete 1 0 none).view :=
      fun ρ => ofConcrete_represents (by simp) 0
    refine ⟨fun _ => ⟨0, 16, 1⟩, fun e he => ?_⟩
    rcases mem_pair.mp he with rfl | rfl
    · exact ⟨rfl, by decide, _, rfl, rfl, fun ρ _ => ⟨_, hzero ρ⟩⟩
    · exact ⟨rfl, by decide, _, rfl, rfl, fun ρ _ => ⟨_, write8_represents (hzero ρ) 1⟩⟩

theorem merge_spec_pathStates : ∃ heap' a',
    (pathState 0 0).merge ⟨true, true⟩ true pathHeap (pathState 1 1) = some (true, heap', a') ∧
      Merged ⟨true, true⟩ (fun _ => True) pathHeap heap' (pathState 0 0) (pathState 1 1) a' := by
  have hadmits : ∀ n os, (pathState n os).Admits fun _ _ => n := fun n os =>
    (pathState_admits n os _).mpr rfl
  have hexcl : ∀ ρ, ¬ ((pathState 0 0).Admits ρ ∧ (pathState 1 1).Admits ρ) := by
    intro ρ h
    rw [pathState_admits, pathState_admits] at h
    exact absurd (h.1.trans h.2.symm) (by decide)
  obtain ⟨result, heap', a', hmerge, hmerged⟩ := (ExecutionState.merge_spec ⟨true, true⟩ true
    (fun _ => True) pathHeap (pathState 0 0) (pathState 1 1) (pathStates_wellFormed _)
    fun _ _ => trivial).2 ⟨_, hadmits 0 0⟩ ⟨_, hadmits 1 1⟩ hexcl
  have hmap : (pathState 0 0).merge ⟨true, true⟩ true pathHeap (pathState 1 1) =
      (mergeInto ⟨true, true⟩ true pathHeap (pathState 0 0) (pathState 1 1) [⟨0, 16, 1⟩]).map
        fun r => (true, r.1, r.2) := rfl
  obtain ⟨r, -, hr⟩ := Option.map_eq_some_iff.mp (hmap.symm.trans hmerge)
  obtain rfl : true = result := congrArg Prod.fst hr
  exact ⟨heap', a', hmerge, hmerged rfl⟩

end Merge

end Castan
