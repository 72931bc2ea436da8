import Mathlib.Algebra.Group.Nat.Defs
import Mathlib.Order.MinMax

/-!
# Saturating 64-bit arithmetic
-/

namespace Foundations

/-- `u64::saturating_add`. -/
def satAdd (a b : UInt64) : UInt64 := UInt64.ofNat (min (a.toNat+b.toNat) (2^64-1))

/-- `u64::saturating_sub`. -/
def satSub (a b : UInt64) : UInt64 := UInt64.ofNat (a.toNat-b.toNat)

@[simp] theorem satAdd_toNat (a b : UInt64) :
    (satAdd a b).toNat = min (a.toNat+b.toNat) (2^64-1) := by
  have h : min (a.toNat+b.toNat) (2^64-1) < 2^64 := by omega
  rw [satAdd,UInt64.toNat_ofNat_of_lt' h]

@[simp] theorem satSub_toNat (a b : UInt64) : (satSub a b).toNat = a.toNat-b.toNat := by
  have h : a.toNat-b.toNat < 2^64 := by have := a.toNat_lt; omega
  rw [satSub,UInt64.toNat_ofNat_of_lt' h]

/-- A sum that fits is not cut off. -/
theorem satAdd_toNat_of_lt {a b : UInt64} (h : a.toNat+b.toNat < 2^64) :
    (satAdd a b).toNat = a.toNat+b.toNat := by
  rw [satAdd_toNat]
  omega

theorem le_satAdd (a b : UInt64) : a ≤ satAdd a b := by
  have ha := a.toNat_lt
  rw [UInt64.le_iff_toNat_le,satAdd_toNat]
  omega

/-- Taking away what is there and giving it back changes nothing. -/
theorem satAdd_satSub_cancel {a b : UInt64} (h : b ≤ a) : satAdd (satSub a b) b = a := by
  have ha := a.toNat_lt
  rw [UInt64.le_iff_toNat_le] at h
  apply UInt64.toNat_inj.mp
  rw [satAdd_toNat,satSub_toNat]
  omega

@[simp] theorem satSub_zero (a : UInt64) : satSub a 0 = a := by
  apply UInt64.toNat_inj.mp
  rw [satSub_toNat]
  simp

/-- `u64::MAX`. -/
def maxU64 : UInt64 := UInt64.ofNat (2^64-1)

theorem maxU64_toNat : maxU64.toNat = 2^64-1 := by decide

theorem le_maxU64 (a : UInt64) : a ≤ maxU64 := by
  rw [UInt64.le_iff_toNat_le,maxU64_toNat]
  have := a.toNat_lt
  omega

/-- Adding changes nothing when nothing is added or there is no room. -/
theorem satAdd_eq_left {a b : UInt64} : satAdd a b = a ↔ b = 0 ∨ a = maxU64 := by
  simp only [← UInt64.toNat_inj,satAdd_toNat,maxU64_toNat,UInt64.toNat_zero]
  have := a.toNat_lt
  omega

/-- Taking away what is there changes nothing only when it is nothing. -/
theorem satSub_eq_left {a b : UInt64} (h : b ≤ a) : satSub a b = a ↔ b = 0 := by
  rw [UInt64.le_iff_toNat_le] at h
  rw [← UInt64.toNat_inj,← UInt64.toNat_inj,satSub_toNat,UInt64.toNat_zero]
  omega

theorem satAdd_maxU64 (a : UInt64) : satAdd maxU64 a = maxU64 := by
  apply UInt64.toNat_inj.mp
  rw [satAdd_toNat,maxU64_toNat]
  omega

@[simp] theorem satAdd_zero (a : UInt64) : satAdd a 0 = a := by
  simpa using satAdd_satSub_cancel (UInt64.zero_le (a := a))

@[simp] theorem zero_satAdd (a : UInt64) : satAdd 0 a = a := by
  apply UInt64.toNat_inj.mp
  rw [satAdd_toNat,UInt64.toNat_zero]
  have := a.toNat_lt
  omega

end Foundations
