import Nxos.Support.Aligned

/-!
# Page arithmetic

The macros of `base/page.h` on 64-bit words, and what they are as numbers.
-/

namespace Nxos

/-- `NX_PAGE_MASK`. -/
def pageMask : BitVec 64 := 0xFFF#64

/-- `NX_PAGE_ALIGNDOWN`. -/
def pageAlignDown (value : BitVec 64) : BitVec 64 :=
  value &&& ~~~pageMask

/-- `NX_PAGE_ALIGNUP`. -/
def pageAlignUp (value : BitVec 64) : BitVec 64 :=
  (value + pageMask) &&& ~~~pageMask

theorem pageAlignDown_toNat (v : BitVec 64) :
    (pageAlignDown v).toNat = v.toNat / 4096 * 4096 :=
  Aligned.and_not_toNat v 12

theorem pageAlignUp_toNat (v : BitVec 64) :
    (pageAlignUp v).toNat = (v.toNat + 4095) % 2 ^ 64 / 4096 * 4096 := by
  have hup : pageAlignUp v = pageAlignDown (v + pageMask) := rfl
  rw [hup, pageAlignDown_toNat, BitVec.toNat_add]
  rfl

theorem pageAlignDown_aligned (v : BitVec 64) : (pageAlignDown v).toNat % 4096 = 0 := by
  rw [pageAlignDown_toNat]
  exact Nat.mul_mod_left ..

theorem pageAlignUp_aligned (v : BitVec 64) : (pageAlignUp v).toNat % 4096 = 0 := by
  rw [pageAlignUp_toNat]
  exact Nat.mul_mod_left ..

theorem pageAlignDown_of_aligned {v : BitVec 64} (h : v.toNat % 4096 = 0) :
    pageAlignDown v = v := by
  apply BitVec.eq_of_toNat_eq
  rw [pageAlignDown_toNat]
  exact Nat.div_mul_cancel (Nat.dvd_of_mod_eq_zero h)

theorem and_pageMask_eq_zero_iff (v : BitVec 64) :
    v &&& pageMask = 0 ↔ v.toNat % 4096 = 0 := by
  rw [← BitVec.toNat_inj, BitVec.toNat_and]
  have hmask : pageMask.toNat = 2 ^ 12 - 1 := rfl
  rw [hmask, Nat.and_two_pow_sub_one_eq_mod]
  rfl

end Nxos
