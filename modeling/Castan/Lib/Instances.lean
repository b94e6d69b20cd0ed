/-
# Instances by name

What `Finset.sort` asks of the order of a linear order, that the relation of the well-ordering
theorem is a strict order, and that words are compared lawfully.
-/
import Mathlib

instance LinearOrder.isTrans_le {K : Type*} [LinearOrder K] :
    IsTrans K fun x y => x ≤ y := inferInstance

instance LinearOrder.antisymm_le {K : Type*} [LinearOrder K] :
    @Std.Antisymm K fun x y => x ≤ y := inferInstance

instance WellOrderingRel.isStrictTotalOrder {K : Type*} :
    IsStrictTotalOrder K WellOrderingRel := inferInstance

instance BitVec.lawfulBEq_word : LawfulBEq (BitVec 64) := inferInstance
