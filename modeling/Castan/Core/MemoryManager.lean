/-
# Deterministic allocation

With deterministic allocation `MemoryManager::allocate` takes its objects from a preallocated
space, one behind the other and with red zones in between.  Addresses are 64-bit numbers that wrap
around.  As long as they do not, the objects of every run are where they should be
(`history_sound`).
-/
import Castan.Core.AddressSpace

namespace Castan

namespace MemoryManager

structure Options where
  nullOnZeroMalloc : Bool
  redZoneSpace : BitVec 32

/-- The members of `MemoryManager`, and the counter of `MemoryObject`. -/
structure State where
  deterministicSpace : BitVec 64
  spaceSize : BitVec 64
  nextFreeSlot : BitVec 64
  counter : ℕ
  objects : List MemoryObject

/-- `llvm::RoundUpToAlignment`; this function and the next one stand for those of LLVM. -/
def roundUpToAlignment (value align : BitVec 64) : BitVec 64 := (value + align - 1) / align * align

/-- `llvm::isPowerOf2_64`. -/
def isPowerOf2_64 (value : BitVec 64) : Bool := value ≠ 0 && value &&& (value - 1) = 0

/-- The constructor of `MemoryObject`, whose parameter for the size is an `unsigned`. -/
def newObject (counter : ℕ) (address size : BitVec 64) : MemoryObject :=
  ⟨counter, address.toNat, size.toNat % 2 ^ 32⟩

/-- A call of `allocate`. -/
structure Request where
  size : BitVec 64
  alignment : BitVec 64

/-- The address for a request. -/
def alignedAddress (s : State) (r : Request) : BitVec 64 :=
  roundUpToAlignment (s.nextFreeSlot + r.alignment - 1) r.alignment

/-- Allocations of size 0 are handled as allocations of a byte. -/
def allocSize (r : Request) : BitVec 64 := if r.size < 1 then 1 else r.size

/-- `MemoryManager::allocate` with deterministic allocation. -/
def allocate (o : Options) (s : State) (r : Request) : Option MemoryObject × State :=
  if o.nullOnZeroMalloc && r.size = 0 then (none, s)
  else if isPowerOf2_64 r.alignment = false then (none, s)
  else
    let address := alignedAddress s r
    if address + allocSize r < s.deterministicSpace + s.spaceSize then
      let s := { s with
        nextFreeSlot := address + allocSize r + o.redZoneSpace.setWidth 64 }
      -- the address 0 stands for a failure here too
      if address = 0 then (none, s)
      else
        let mo := newObject s.counter address r.size
        (some mo, { s with counter := s.counter + 1, objects := mo :: s.objects })
    else (none, s)

/-! ### Runs -/

/-- A request with its result and the free pointer before and after. -/
structure Event where
  request : Request
  result : Option MemoryObject
  before : BitVec 64
  after : BitVec 64

/-- The requests of a run, one after the other. -/
def history (o : Options) : State → List Request → List Event
  | _, [] => []
  | s, r :: rs =>
    let (result, s') := allocate o s r
    ⟨r, result, s.nextFreeSlot, s'.nextFreeSlot⟩ :: history o s' rs

/-- A preallocated space of less than `2 ^ 32` bytes below `2 ^ 63` from which nothing has been
allocated. -/
structure Fresh (s : State) : Prop where
  space_pos : 0 < s.deterministicSpace.toNat
  space_end : s.deterministicSpace.toNat + s.spaceSize.toNat ≤ 2 ^ 63
  size_lt : s.spaceSize.toNat < 2 ^ 32
  nextFreeSlot_eq : s.nextFreeSlot = s.deterministicSpace

/-- The request is answered with null before an address is computed. -/
def Request.Refused (o : Options) (r : Request) : Prop :=
  (o.nullOnZeroMalloc = true ∧ r.size = 0) ∨ isPowerOf2_64 r.alignment = false

/-- No address wraps around in the request. -/
def Request.NoWrap (o : Options) (r : Request) (nextFreeSlot : BitVec 64) : Prop :=
  r.Refused o ∨ nextFreeSlot.toNat + 2 * (r.alignment.toNat - 1) + max r.size.toNat 1 < 2 ^ 64

/-- No address wraps around in a request of a run. -/
def Event.NoWrap (o : Options) (e : Event) : Prop := e.request.NoWrap o e.before

/-- A request for which no address wraps around anywhere in the space. -/
def Request.Small (o : Options) (r : Request) : Prop :=
  r.size.toNat + 2 * r.alignment.toNat + o.redZoneSpace.toNat ≤ 2 ^ 63

/-- The object is what was asked for, inside the space. -/
structure Placed (s : State) (r : Request) (mo : MemoryObject) : Prop where
  size_eq : mo.size = r.size.toNat
  aligned : r.alignment.toNat ∣ mo.address
  start_le : s.deterministicSpace.toNat ≤ mo.address
  le_end : mo.address + mo.size ≤ s.deterministicSpace.toNat + s.spaceSize.toNat

/-- There is a red zone between the objects. -/
def Apart (o : Options) (mo mo' : MemoryObject) : Prop :=
  mo.address + mo.size + o.redZoneSpace.toNat ≤ mo'.address ∨
    mo'.address + mo'.size + o.redZoneSpace.toNat ≤ mo.address

/-- All objects of a run are placed and apart from each other, and a failed request leaves the free
pointer alone. -/
structure Sound (o : Options) (s : State) (events : List Event) : Prop where
  placed : ∀ e ∈ events, ∀ mo, e.result = some mo → Placed s e.request mo
  apart : (events.filterMap Event.result).Pairwise (Apart o)
  unchanged : ∀ e ∈ events, e.result = none → e.after = e.before

/-! ### A request -/

section Step

variable {o : Options} {s : State} {r : Request}

/-- What the free pointer keeps to between two requests. -/
structure Ready (o : Options) (s : State) : Prop where
  space_pos : 0 < s.deterministicSpace.toNat
  space_end : s.deterministicSpace.toNat + s.spaceSize.toNat ≤ 2 ^ 63
  size_lt : s.spaceSize.toNat < 2 ^ 32
  start_le : s.deterministicSpace.toNat ≤ s.nextFreeSlot.toNat
  le_end : s.nextFreeSlot.toNat ≤
    s.deterministicSpace.toNat + s.spaceSize.toNat + o.redZoneSpace.toNat

lemma Fresh.ready (h : Fresh s) : Ready o s :=
  ⟨h.space_pos, h.space_end, h.size_lt, by rw [h.nextFreeSlot_eq], by
    rw [h.nextFreeSlot_eq]
    omega⟩

lemma pos_of_isPowerOf2_64 {value : BitVec 64} (h : ¬ isPowerOf2_64 value = false) :
    0 < value.toNat := by
  by_contra hzero
  obtain rfl : value = 0 := BitVec.eq_of_toNat_eq (by simpa using hzero)
  exact h rfl

lemma Ready.noWrap (h : Ready o s) (hr : r.Small o) : r.NoWrap o s.nextFreeSlot := by
  have hspace := h.space_end
  have hend := h.le_end
  rw [Request.Small] at hr
  rcases eq_or_ne (isPowerOf2_64 r.alignment) false with hpow | hpow
  · exact Or.inl (Or.inr hpow)
  · have hpos := pos_of_isPowerOf2_64 hpow
    exact Or.inr (by omega)

lemma allocate_refused (h : r.Refused o) : allocate o s r = (none, s) := by
  rw [allocate]
  rcases h with ⟨hnull, hsize⟩ | halign
  · rw [if_pos (by simp [hnull, hsize])]
  · rw [if_pos halign, ite_self]

lemma allocSize_toNat (r : Request) : (allocSize r).toNat = max r.size.toNat 1 := by
  rw [allocSize]
  split <;> bv_omega

/-- The address is the next multiple of the alignment that is at least `alignment - 1` bytes behind
the free pointer. -/
lemma alignedAddress_toNat (hpos : 0 < r.alignment.toNat)
    (h : s.nextFreeSlot.toNat + 2 * (r.alignment.toNat - 1) < 2 ^ 64) :
    (alignedAddress s r).toNat =
      (s.nextFreeSlot.toNat + 2 * (r.alignment.toNat - 1)) / r.alignment.toNat *
        r.alignment.toNat := by
  have hsum : (s.nextFreeSlot + r.alignment - 1 + r.alignment - 1).toNat =
      s.nextFreeSlot.toNat + 2 * (r.alignment.toNat - 1) := by bv_omega
  have hle := Nat.div_mul_le_self (s.nextFreeSlot.toNat + 2 * (r.alignment.toNat - 1))
    r.alignment.toNat
  rw [alignedAddress, roundUpToAlignment, BitVec.toNat_mul, BitVec.toNat_udiv, hsum,
    Nat.mod_eq_of_lt (hle.trans_lt h)]

lemma le_alignedAddress (hpos : 0 < r.alignment.toNat)
    (h : s.nextFreeSlot.toNat + 2 * (r.alignment.toNat - 1) < 2 ^ 64) :
    s.nextFreeSlot.toNat ≤ (alignedAddress s r).toNat := by
  rw [alignedAddress_toNat hpos h]
  have hdiv := Nat.div_add_mod' (s.nextFreeSlot.toNat + 2 * (r.alignment.toNat - 1))
    r.alignment.toNat
  have hmod := Nat.mod_lt (s.nextFreeSlot.toNat + 2 * (r.alignment.toNat - 1)) hpos
  omega

/-- What a request can do if no address wraps around: it fails and changes nothing, or it places an
object behind the free pointer and moves the pointer behind its red zone. -/
theorem allocate_cases (hs : Ready o s) (hwrap : r.NoWrap o s.nextFreeSlot) :
    allocate o s r = (none, s) ∨ ∃ mo s', allocate o s r = (some mo, s') ∧ Placed s r mo ∧
        s.nextFreeSlot.toNat ≤ mo.address ∧ Ready o s' ∧
        s'.deterministicSpace = s.deterministicSpace ∧ s'.spaceSize = s.spaceSize ∧
        mo.address + mo.size + o.redZoneSpace.toNat ≤ s'.nextFreeSlot.toNat := by
  rcases hwrap with hrefused | hwrap
  · exact .inl (allocate_refused hrefused)
  obtain ⟨hpos, hend, hsize, hstart, -⟩ := hs
  rw [allocate]
  split
  · exact .inl rfl
  · split
    · exact .inl rfl
    · next hpow =>
      have halign := pos_of_isPowerOf2_64 hpow
      have hsum : s.nextFreeSlot.toNat + 2 * (r.alignment.toNat - 1) < 2 ^ 64 := by omega
      have hle := le_alignedAddress halign hsum
      have haddress := alignedAddress_toNat halign hsum
      have hdvd : r.alignment.toNat ∣ (alignedAddress s r).toNat := by
        rw [haddress]
        exact dvd_mul_left _ _
      have hbound := Nat.div_mul_le_self (s.nextFreeSlot.toNat + 2 * (r.alignment.toNat - 1))
        r.alignment.toNat
      rw [← haddress] at hbound
      have halloc := allocSize_toNat r
      have hzone : (o.redZoneSpace.setWidth 64).toNat = o.redZoneSpace.toNat := by
        rw [BitVec.toNat_setWidth, Nat.mod_eq_of_lt (o.redZoneSpace.isLt.trans (by decide))]
      have hzonelt := o.redZoneSpace.isLt
      generalize alignedAddress s r = address at *
      dsimp only
      split
      · next hfits =>
        have htotal : address.toNat + (allocSize r).toNat <
            s.deterministicSpace.toNat + s.spaceSize.toNat := by bv_omega
        have hnonzero : address ≠ 0 := by
          rintro rfl
          simp only [BitVec.ofNat_eq_ofNat, BitVec.toNat_ofNat, Nat.zero_mod] at hle
          omega
        rw [if_neg hnonzero]
        have hnext : (address + allocSize r + o.redZoneSpace.setWidth 64).toNat =
            address.toNat + (allocSize r).toNat + o.redZoneSpace.toNat := by
          rw [BitVec.toNat_add, BitVec.toNat_add, hzone, Nat.mod_eq_of_lt, Nat.mod_eq_of_lt]
          · omega
          · rw [Nat.mod_eq_of_lt] <;> omega
        have hmod : r.size.toNat % 2 ^ 32 = r.size.toNat := Nat.mod_eq_of_lt (by omega)
        refine .inr ⟨_, _, rfl, ⟨hmod, hdvd, ?_, ?_⟩, hle, ⟨hpos, hend, hsize, ?_, ?_⟩, rfl, rfl,
          ?_⟩
        · exact hstart.trans hle
        · simp only [newObject, hmod]
          omega
        · simp only [hnext]
          omega
        · simp only [hnext]
          omega
        · simp only [newObject, hmod, hnext]
          omega
      · exact .inl rfl

end Step

/-! ### All requests of a run -/

lemma history_cons {o : Options} {s s' : State} {r : Request} {result : Option MemoryObject}
    (h : allocate o s r = (result, s')) (rs : List Request) :
    history o s (r :: rs) = ⟨r, result, s.nextFreeSlot, s'.nextFreeSlot⟩ :: history o s' rs := by
  rw [history, h]

lemma Placed.of_space {s s' : State} {r : Request} {mo : MemoryObject} (h : Placed s' r mo)
    (hspace : s'.deterministicSpace = s.deterministicSpace) (hsize : s'.spaceSize = s.spaceSize) :
    Placed s r mo := by
  obtain ⟨hmo, hdvd, hstart, hend⟩ := h
  rw [hspace] at hstart hend
  rw [hsize] at hend
  exact ⟨hmo, hdvd, hstart, hend⟩

/-- A run from a state with a valid free pointer.  Its objects lie behind the free pointer, so that
they are apart from the objects before. -/
lemma history_ready {o : Options} : ∀ {rs : List Request} {s : State}, Ready o s →
    (∀ e ∈ history o s rs, e.NoWrap o) → Sound o s (history o s rs) ∧
      ∀ mo ∈ (history o s rs).filterMap Event.result, s.nextFreeSlot.toNat ≤ mo.address
  | [], s, _, _ => ⟨⟨by simp [history], by simp [history], by simp [history]⟩, by simp [history]⟩
  | r :: rs, s, hs, hwrap => by
    have hfirst : r.NoWrap o s.nextFreeSlot := hwrap _ List.mem_cons_self
    rcases allocate_cases hs hfirst with hrun | ⟨mo, s', hrun, hplaced, hle, hs', hspace,
      hsize, hnext⟩
    · rw [history_cons hrun] at hwrap ⊢
      obtain ⟨⟨hpl, hap, hun⟩, hlow⟩ := history_ready hs (List.forall_mem_cons.mp hwrap).2
      refine ⟨⟨?_, ?_, ?_⟩, ?_⟩
      · exact List.forall_mem_cons.mpr ⟨by simp, hpl⟩
      · simpa using hap
      · exact List.forall_mem_cons.mpr ⟨fun _ => rfl, hun⟩
      · simpa using hlow
    · rw [history_cons hrun] at hwrap ⊢
      obtain ⟨⟨hpl, hap, hun⟩, hlow⟩ := history_ready hs' (List.forall_mem_cons.mp hwrap).2
      have hresults : (Event.mk r (some mo) s.nextFreeSlot s'.nextFreeSlot ::
          history o s' rs).filterMap Event.result =
            mo :: (history o s' rs).filterMap Event.result := by simp
      rw [hresults]
      refine ⟨⟨?_, ?_, ?_⟩, ?_⟩
      · refine List.forall_mem_cons.mpr ⟨?_, fun e he mo hmo => ?_⟩
        · rintro _ ⟨⟩
          exact hplaced
        · exact (hpl e he mo hmo).of_space hspace hsize
      · rw [hresults, List.pairwise_cons]
        exact ⟨fun mo' hmo' => Or.inl (hnext.trans (hlow mo' hmo')), hap⟩
      · refine List.forall_mem_cons.mpr ⟨?_, hun⟩
        rintro ⟨⟩
      · refine List.forall_mem_cons.mpr ⟨hle, fun mo' hmo' => ?_⟩
        have := hlow mo' hmo'
        omega

lemma history_noWrap {o : Options} : ∀ {rs : List Request} {s : State}, Ready o s →
    (∀ r ∈ rs, r.Small o) → ∀ e ∈ history o s rs, e.NoWrap o
  | [], _, _, _ => by simp [history]
  | r :: rs, s, hs, hsmall => by
    rw [List.forall_mem_cons] at hsmall
    have hfirst := hs.noWrap hsmall.1
    rcases allocate_cases hs hfirst with hrun | ⟨mo, s', hrun, -, -, hs', -⟩
    · rw [history_cons hrun]
      exact List.forall_mem_cons.mpr ⟨hfirst, history_noWrap hs hsmall.2⟩
    · rw [history_cons hrun]
      exact List.forall_mem_cons.mpr ⟨hfirst, history_noWrap hs' hsmall.2⟩

/-- All runs of small requests are sound. -/
theorem history_sound_of_small (o : Options) (s : State) (hs : Fresh s) (rs : List Request)
    (hsmall : ∀ r ∈ rs, r.Small o) : Sound o s (history o s rs) :=
  (history_ready hs.ready (history_noWrap hs.ready hsmall)).1

/-- As long as no address wraps around, the objects of a run have the requested sizes and
alignments, lie inside the preallocated space and apart from each other, and a failed request leaves
the free pointer alone. -/
theorem history_sound (o : Options) (s : State) (hs : Fresh s) (rs : List Request)
    (hwrap : ∀ e ∈ history o s rs, e.NoWrap o) : Sound o s (history o s rs) :=
  (history_ready hs.ready hwrap).1

/-- The default start address, size and red zone. -/
def defaultOptions : Options := ⟨false, 10⟩

def defaultState : State := ⟨0x7ff30000000, 100 * 1024 * 1024, 0x7ff30000000, 0, []⟩

lemma defaultState_fresh : Fresh defaultState := ⟨by decide, by decide, by decide, rfl⟩

theorem history_sound_default :
    Sound defaultOptions defaultState
      (history defaultOptions defaultState [⟨16, 8⟩, ⟨-1, 3⟩, ⟨0, 64⟩]) := by
  refine history_sound _ _ defaultState_fresh _ ?_
  unfold Event.NoWrap Request.NoWrap Request.Refused
  decide +kernel

/-- A size close to `2 ^ 64` moves the free pointer backwards, and the third object is where the
first one is.  An alignment of `2 ^ 63` is answered with null, but moves the free pointer to a small
number. -/
theorem history_overlaps : Fresh defaultState ∧
    (history defaultOptions defaultState [⟨16, 8⟩, ⟨-64, 8⟩, ⟨16, 8⟩]).map
        (fun e => e.result.map fun mo => (mo.address, mo.size)) =
      [some (0x7ff30000008, 16), some (0x7ff30000030, 4294967232), some (0x7ff30000008, 16)] ∧
    (history defaultOptions defaultState [⟨16, 1 <<< 63⟩]).map
        (fun e => (e.result.isNone, e.before, e.after)) = [(true, 0x7ff30000000, 26)] ∧
    ¬ Sound defaultOptions defaultState
      (history defaultOptions defaultState [⟨16, 8⟩, ⟨-64, 8⟩, ⟨16, 8⟩]) ∧
    ¬ Sound defaultOptions defaultState (history defaultOptions defaultState [⟨16, 1 <<< 63⟩]) := by
  refine ⟨defaultState_fresh, by decide +kernel, by decide +kernel, fun h => ?_, fun h => ?_⟩
  · have hapart := h.apart
    revert hapart
    unfold Apart
    decide +kernel
  · have hunchanged := h.unchanged
    revert hunchanged
    decide +kernel

end MemoryManager

end Castan
