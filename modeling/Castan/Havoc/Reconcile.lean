/-
# Reconciling havocs

`castan_havoc` replaces the result of a hash function by a fresh symbol and remembers the input.
At the end of a path, `KleeHandler::processTestCase` tries to undo this: packet by packet it fixes
the outputs to values that the path allows, looks for inputs with these hashes in a rainbow table,
and adds what it found to the constraints of the path.
-/
import Castan.Core.Memory
import Castan.Havoc.RainbowTable

namespace Castan

open ConstraintManager

/-! ### Collecting the havocs -/

/-- An entry of `state.symbolics`. -/
structure Symbolic where
  /-- The name of the memory object. -/
  name : String
  /-- The memory object. -/
  mo : ℕ
  array : KArray

/-- The bytes of an input and the array of the output, which is null at first. -/
structure Havoc where
  input : List Expr
  output : Option KArray

structure Packet where
  array : KArray
  havocs : List Havoc

/-- Changes `back()`, which does not exist in an empty vector. -/
def modifyBack {α : Type} (f : α → Option α) : List α → Option (List α)
  | [] => none
  | [x] => (f x).map ([·])
  | x :: y :: xs => (modifyBack f (y :: xs)).map (x :: ·)

namespace Havoc

/-- The loop over the bytes of an input. -/
def readInput (o : Opts) (cs : List Expr) : List ℕ → ObjectState → Option (List Expr × ObjectState)
  | [], os => some ([], os)
  | i :: is, os => do
      let (e, os) ← os.read8 o i
      let (es, os) ← readInput o cs is os
      return (simplifyExpr o cs e :: es, os)

/-- What the loop over `state.symbolics` works on: the packets so far, and the memory, since a
read may change the representation of an object. -/
structure Collected where
  packets : List Packet
  objects : ℕ → Option ObjectState

/-- The body of the loop over `state.symbolics`. -/
def collectSymbol (o : Opts) (cs : List Expr) (st : Collected) (sym : Symbolic) :
    Option Collected :=
  if sym.name = "castan_packet" then
    some { st with packets := st.packets ++ [⟨sym.array, []⟩] }
  else if sym.name = "castan_havoc_in" then do
    let os ← st.objects sym.mo
    let (input, os') ← readInput o cs (List.range os.size) os
    let packets ← modifyBack (fun p => some { p with havocs := p.havocs ++ [⟨input, none⟩] })
      st.packets
    return ⟨packets, Function.update st.objects sym.mo (some os')⟩
  else if sym.name = "castan_havoc_out" then do
    let packets ← modifyBack (fun p => do
      let havocs ← modifyBack (fun h => some { h with output := some sym.array }) p.havocs
      return { p with havocs := havocs }) st.packets
    return { st with packets := packets }
  else some st

def collect (o : Opts) (cs : List Expr) (objects : ℕ → Option ObjectState)
    (symbolics : List Symbolic) : Option (List Packet) :=
  (symbolics.foldlM (collectSymbol o cs) ⟨[], objects⟩).map Collected.packets

/-! ### Reversing the havocs -/

/-- The rainbow table and the solver. -/
structure Env where
  o : Opts
  /-- The contents of `RainbowTableFile`. -/
  rainbowTableFile : List Char
  /-- `solver->getInitialValues`; `none` if it fails. -/
  getInitialValues : List Expr → List KArray → Option (List (List (BitVec 8)))
  /-- `solver->mayBeTrue`; `none` if it fails. -/
  mayBeTrue : List Expr → Expr → Option Bool

/-- The loop that computes `value`, from the last byte to the first. -/
def valueOf (bytes : List (BitVec 8)) : BitVec 64 :=
  bytes.foldr (fun b value => (value <<< 8) ||| b.setWidth 64) 0

/-- `ConcatExpr::create4`. -/
def create4 (k₁ k₂ k₃ k₄ : Expr) : Expr :=
  ConcatExpr.create k₁ (ConcatExpr.create k₂ (ConcatExpr.create k₃ k₄))

/-- `ConcatExpr::create8`. -/
def create8 (k₁ k₂ k₃ k₄ k₅ k₆ k₇ k₈ : Expr) : Expr :=
  ConcatExpr.create k₁ (ConcatExpr.create k₂ (ConcatExpr.create k₃
    (ConcatExpr.create k₄ (create4 k₅ k₆ k₇ k₈))))

/-- `Expr::createTempRead`; `none` for an invalid width. -/
def createTempRead (o : Opts) (array : KArray) (w : ℕ) : Option Expr :=
  let rd := fun i => ReadExpr.create o array .null (.const (.ofNat 32 i))
  match w with
  | 1 => some (ZExtExpr.create (rd 0) 1)
  | 8 => some (rd 0)
  | 16 => some (ConcatExpr.create (rd 1) (rd 0))
  | 32 => some (create4 (rd 3) (rd 2) (rd 1) (rd 0))
  | 64 => some (create8 (rd 7) (rd 6) (rd 5) (rd 4) (rd 3) (rd 2) (rd 1) (rd 0))
  | _ => none

/-- The loop that fixes the outputs to their values. -/
def fixOutputs (o : Opts) : List (KArray × List (BitVec 8)) → List Expr → Option (List Expr)
  | [], cs => some cs
  | (array, bytes) :: rest, cs => do
      let read ← createTempRead o array (array.size * 8)
      let cs ← addConstraint o cs (EqExpr.create o
        (.const (.ofNat (bytes.length * 8) (valueOf bytes).toNat)) read)
      fixOutputs o rest cs

/-- `new_query`: the input has the bytes of the key. -/
def newQuery (o : Opts) (query : Expr) (input : List Expr) (key : List (BitVec 8)) : Expr :=
  (key.zip input).foldl (fun q p =>
    AndExpr.create (EqExpr.create o (.const ⟨8, p.1⟩) p.2) q) query

/-- The loop over the entries of the table: the query with the first entry that is possible, if
there is one.  The outer `none` is a failed assertion. -/
def reverseHavoc (env : Env) (cs : List Expr) (query : Expr) (input : List Expr)
    (rt : RainbowTable) : Option (Option Expr) :=
  match _h : rt.getValue.1 with
  | none => none
  | some [] => some none
  | some (b :: key) =>
      if (b :: key).length = input.length then
        let q := newQuery env.o query input (b :: key)
        if (env.mayBeTrue cs q).getD false then some (some q)
        else reverseHavoc env cs query input rt.getValue.2
      else none
termination_by RainbowTable.remaining rt.file
decreasing_by exact RainbowTable.getValue_lt (by rw [_h]; simp)

/-- The loop over the havocs of a packet: the query and the number of reconciled havocs. -/
def reverseHavocs (env : Env) (cs : List Expr) : List (Havoc × BitVec 64) → Expr → ℕ →
    Option (Expr × ℕ)
  | [], query, reconciled => some (query, reconciled)
  | (havoc, value) :: rest, query, reconciled => do
      let rt ← RainbowTable.create env.rainbowTableFile value.toNat
      match ← reverseHavoc env cs query havoc.input rt with
      | some q => reverseHavocs env cs rest q (reconciled + 1)
      | none => reverseHavocs env cs rest query reconciled

/-- The body of the loop over the packets: the constraints of the state, and whether the packet
is reconciled. -/
def processPacket (env : Env) (cs : List Expr) (packet : Packet) : Option (List Expr × Bool) :=
  if packet.havocs.isEmpty then some (cs, true)
  else do
    let objects ← packet.havocs.mapM Havoc.output
    let valueBytes ← env.getInitialValues cs objects
    let cs ← fixOutputs env.o (objects.zip valueBytes) cs
    let (query, reconciled) ← reverseHavocs env cs
      (packet.havocs.zip (valueBytes.map valueOf)) (.const (.bool true)) 0
    let cs ← addConstraint env.o cs query
    return (cs, decide (objects.length ≤ reconciled))

/-- The loop over the packets: the constraints and the number of reconciled packets. -/
def processPackets (env : Env) : List Packet → List Expr → Option (List Expr × ℕ)
  | [], cs => some (cs, 0)
  | packet :: packets, cs => do
      let (cs, reconciled) ← processPacket env cs packet
      let (cs, n) ← processPackets env packets cs
      return (cs, reconciled.toNat + n)

/-- `KleeHandler::processTestCase` up to the report on the reconciled packets: the constraints of
the state, the number of reconciled packets and the number of packets. -/
def processTestCase (env : Env) (cs : List Expr) (objects : ℕ → Option ObjectState)
    (symbolics : List Symbolic) : Option (List Expr × ℕ × ℕ) := do
  let packets ← collect env.o cs objects symbolics
  let (cs, reconciled) ← processPackets env packets cs
  return (cs, reconciled, packets.length)

end Havoc

end Castan
