import Mathlib.Algebra.GroupWithZero.Nat
import Mathlib.Order.Lattice
import Mathlib.Data.List.Range
import Mathlib.Data.List.Nodup
import Mathlib.Logic.Function.Basic

/-! Bytes in order. -/

namespace Holt.Lib

instance byteOrder : LinearOrder UInt8 where
  le_refl _ := UInt8.le_refl _
  le_trans _ _ _ h h' := UInt8.le_trans h h'
  le_antisymm _ _ h h' := UInt8.le_antisymm h h'
  le_total a b := UInt8.le_total a b
  lt_iff_le_not_ge a b := by
    rw [UInt8.lt_iff_toNat_lt, UInt8.le_iff_toNat_le, UInt8.le_iff_toNat_le]
    omega
  toDecidableLE := inferInstance
  toDecidableEq := inferInstance
  toDecidableLT := inferInstance

/-- Every byte once, in ascending order. -/
def allBytes : List UInt8 := (List.range 256).map UInt8.ofNat

@[simp]
theorem mem_allBytes (b : UInt8) : b ∈ allBytes :=
  List.mem_map.mpr ⟨b.toNat, List.mem_range.mpr b.toNat_lt, UInt8.ofNat_toNat⟩

theorem allBytes_ascending : allBytes.Pairwise (· < ·) := by
  rw [allBytes, List.pairwise_map]
  refine (List.pairwise_lt_range (n := 256)).imp_of_mem fun {a b} ha hb hab => ?_
  have ha' := List.mem_range.mp ha
  have hb' := List.mem_range.mp hb
  rw [UInt8.lt_iff_toNat_lt, UInt8.toNat_ofNat', UInt8.toNat_ofNat', Nat.mod_eq_of_lt ha',
    Nat.mod_eq_of_lt hb']
  exact hab

theorem allBytes_nodup : allBytes.Nodup :=
  allBytes_ascending.imp fun h => ne_of_lt h

end Holt.Lib
