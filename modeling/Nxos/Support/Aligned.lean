import Mathlib.Tactic.Ring

/-!
# Rounding words to powers of two

Taking the low bits of a word off rounds it down to a multiple of a power of two.
-/

namespace Nxos.Aligned

variable {w : ℕ}

/-- A mask of the `k` low bits, taken off, rounds down to a multiple of `2 ^ k`. -/
theorem and_not_toNat (v : BitVec w) (k : ℕ) :
    (v &&& ~~~BitVec.ofNat w (2 ^ k - 1)).toNat = v.toNat / 2 ^ k * 2 ^ k := by
  have hshift : v &&& ~~~BitVec.ofNat w (2 ^ k - 1) = v >>> k <<< k := by
    apply BitVec.eq_of_getLsbD_eq
    intro i hi
    rw [BitVec.getLsbD_and, BitVec.getLsbD_not, BitVec.getLsbD_ofNat, Nat.testBit_two_pow_sub_one,
      BitVec.getLsbD_shiftLeft, BitVec.getLsbD_ushiftRight]
    by_cases hlow : i < k
    · simp [hlow]
    · have hback : k + (i - k) = i := by omega
      simp [hlow, hback, hi]
  have hle : v.toNat / 2 ^ k * 2 ^ k ≤ v.toNat := Nat.div_mul_le_self _ _
  rw [hshift, BitVec.toNat_shiftLeft, BitVec.toNat_ushiftRight, Nat.shiftRight_eq_div_pow,
    Nat.shiftLeft_eq, Nat.mod_eq_of_lt (lt_of_le_of_lt hle v.isLt)]

end Nxos.Aligned
