import Mathlib.Algebra.Group.Int.Defs
import Mathlib.Algebra.Order.Group.Nat

namespace NetTables.Lib

theorem toInt32_inj {n n' : UInt32} (h : n.toInt32 = n'.toInt32) : n = n' := by
  simpa using congrArg Int32.toUInt32 h

theorem toInt_toInt32 (n : UInt32) :
    n.toInt32.toInt = if n.toNat < 2 ^ 31 then (n.toNat : Int) else n.toNat - 2 ^ 32 := by
  have hcond := BitVec.toInt_eq_toNat_cond n.toBitVec
  have hcast : n.toInt32.toInt = n.toBitVec.toInt := rfl
  have hnat : n.toBitVec.toNat = n.toNat := rfl
  rw [hcast, hcond, hnat]
  split_ifs <;> omega

/-- The cast of an unsigned number is a signed one of 0 or more exactly where it is that number. -/
theorem toInt32_eq_iff {n : UInt32} {k : Int32} (hk : 0 ≤ k) :
    n.toInt32 = k ↔ (n.toNat : Int) = k.toInt := by
  have hk : 0 ≤ k.toInt := Int32.le_iff_toInt_le.mp hk
  have hn := n.toNat_lt
  have hlt := k.toInt_lt
  rw [← Int32.toInt_inj, toInt_toInt32]
  split_ifs <;> omega

end NetTables.Lib
