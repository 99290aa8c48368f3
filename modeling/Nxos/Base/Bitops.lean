import Nxos.Base.Kernel
import Mathlib.Data.Nat.Log
import Mathlib.Tactic.Ring

/-!
# Bit scans

The find-last-set and find-first-set functions of `base/bitops.h` and their
64-bit versions in `mm/buddy_common.h`.  The binary search of `NX_FLS` is five
times the same step with another mask, so it is modelled by one step function;
its invariant is that the leading bit moves left by exactly the amount that the
running result goes down.
-/

namespace Nxos

/-! ## `NX_FLS` -/

/-- One `if (!(x & mask)) { x <<= shift; r -= shift; }` of `NX_FLS`. -/
def flsStep (mask : BitVec 32) (shift : ℕ) (xr : BitVec 32 × ℤ) : BitVec 32 × ℤ :=
  if xr.1 &&& mask = 0 then (xr.1 <<< shift, xr.2 - shift) else xr

/-- `NX_FLS`: one plus the index of the highest set bit, or zero. -/
def nxFls (x : BitVec 32) : ℤ :=
  if x = 0 then 0
  else
    (flsStep 0x80000000#32 1
      (flsStep 0xc0000000#32 2
        (flsStep 0xf0000000#32 4
          (flsStep 0xff000000#32 8
            (flsStep 0xffff0000#32 16 (x, 32)))))).2

/-- `NX_FFS`: `NX_FLS` of the lowest set bit. -/
def nxFfs (x : BitVec 32) : ℤ :=
  nxFls (x &&& -x)

/-- A mask of the upper `s` bits tests for `x` being at least `2 ^ (32 - s)`. -/
theorem and_topMask_eq_zero_iff (s : ℕ) (x : BitVec 32) :
    x &&& (BitVec.allOnes 32 <<< (32 - s)) = 0 ↔ x.toNat < 2 ^ (32 - s) := by
  have hbits : x &&& (BitVec.allOnes 32 <<< (32 - s)) = 0 ↔
      ∀ i, 32 - s ≤ i → x.toNat.testBit i = false := by
    rw [BitVec.eq_of_getLsbD_eq_iff]
    constructor
    · intro h i hi
      by_cases hi32 : i < 32
      · have hbit := h i hi32
        simp only [BitVec.getLsbD_and, BitVec.getLsbD_shiftLeft,
          BitVec.getLsbD_allOnes] at hbit
        have hlow : ¬i < 32 - s := by omega
        have hin : i - (32 - s) < 32 := by omega
        rw [BitVec.testBit_toNat]
        simpa [hi32, hlow, hin] using hbit
      · apply Nat.testBit_lt_two_pow
        exact lt_of_lt_of_le x.isLt (Nat.pow_le_pow_right (by decide) (by omega))
    · intro h i hi32
      simp only [BitVec.getLsbD_and, BitVec.getLsbD_shiftLeft,
        BitVec.getLsbD_allOnes]
      by_cases hlow : i < 32 - s
      · simp [hlow]
      · have hbit := h i (by omega)
        simp [BitVec.getLsbD, hbit]
  rw [hbits]
  constructor
  · intro h
    exact Nat.lt_pow_two_of_testBit _ h
  · intro h i hi
    apply Nat.testBit_lt_two_pow
    exact lt_of_lt_of_le h (Nat.pow_le_pow_right (by decide) hi)

/-- What the steps of `NX_FLS` keep: `x` is not zero, has at least `m`
significant bits, and `r` counts the bits of the argument `n`. -/
structure FlsInvariant (n m : ℕ) (xr : BitVec 32 × ℤ) : Prop where
  large : 2 ^ m ≤ xr.1.toNat
  result : xr.2 + xr.1.toNat.log2 = n.log2 + 32

/-- One step keeps the invariant and adds `s` bits to the known length. -/
theorem flsStep_invariant {n m s : ℕ} {xr : BitVec 32 × ℤ}
    (h : FlsInvariant n m xr) (hms : m + s + s = 32) :
    FlsInvariant n (m + s) (flsStep (BitVec.allOnes 32 <<< (32 - s)) s xr) := by
  obtain ⟨x, r⟩ := xr
  have hlarge : 2 ^ m ≤ x.toNat := h.large
  have hresult : r + x.toNat.log2 = n.log2 + 32 := h.result
  have hexp : 32 - s = m + s := by omega
  have hne : x.toNat ≠ 0 := by
    have := Nat.two_pow_pos m
    omega
  by_cases hmask : x &&& (BitVec.allOnes 32 <<< (32 - s)) = 0
  · have hsmall := (and_topMask_eq_zero_iff s x).mp hmask
    have hfit : x.toNat * 2 ^ s < 2 ^ 32 := by
      calc
        x.toNat * 2 ^ s < 2 ^ (32 - s) * 2 ^ s :=
          Nat.mul_lt_mul_of_pos_right hsmall (Nat.two_pow_pos s)
        _ = 2 ^ 32 := by rw [← Nat.pow_add]; congr 1; omega
    have hshift : (x <<< s).toNat = x.toNat * 2 ^ s := by
      rw [BitVec.toNat_shiftLeft, Nat.shiftLeft_eq, Nat.mod_eq_of_lt hfit]
    have hlog : (x.toNat * 2 ^ s).log2 = x.toNat.log2 + s := by
      rw [Nat.log2_eq_iff (Nat.mul_ne_zero hne (Nat.two_pow_pos s).ne')]
      constructor
      · rw [Nat.pow_add]
        exact Nat.mul_le_mul_right _ (Nat.log2_self_le hne)
      · rw [Nat.add_right_comm, Nat.pow_add]
        exact Nat.mul_lt_mul_of_pos_right Nat.lt_log2_self (Nat.two_pow_pos s)
    have hstep : flsStep (BitVec.allOnes 32 <<< (32 - s)) s (x, r) =
        (x <<< s, r - s) := if_pos hmask
    rw [hstep]
    constructor
    · rw [hshift, Nat.pow_add]
      exact Nat.mul_le_mul_right _ hlarge
    · rw [hshift, hlog]
      push_cast
      omega
  · have hbig : ¬x.toNat < 2 ^ (32 - s) := fun hlt =>
      hmask ((and_topMask_eq_zero_iff s x).mpr hlt)
    have hstep : flsStep (BitVec.allOnes 32 <<< (32 - s)) s (x, r) = (x, r) :=
      if_neg hmask
    rw [hstep]
    constructor
    · rw [hexp] at hbig
      exact Nat.le_of_not_lt hbig
    · exact hresult

theorem nxFls_eq {x : BitVec 32} (hx : x ≠ 0) : nxFls x = x.toNat.log2 + 1 := by
  have hne : x.toNat ≠ 0 := fun h => hx (BitVec.eq_of_toNat_eq h)
  have h0 : FlsInvariant x.toNat 0 (x, 32) := ⟨by simp; omega, by simp [add_comm]⟩
  have h1 := flsStep_invariant h0 (s := 16) (by decide)
  have h2 := flsStep_invariant h1 (s := 8) (by decide)
  have h3 := flsStep_invariant h2 (s := 4) (by decide)
  have h4 := flsStep_invariant h3 (s := 2) (by decide)
  have h5 := flsStep_invariant h4 (s := 1) (by decide)
  -- after the last step bit 31 is set, so the logarithm is known
  have hlast := h5.large
  have hresult := h5.result
  have hlog : ∀ y : BitVec 32, 2 ^ 31 ≤ y.toNat → y.toNat.log2 = 31 := by
    intro y hy
    rw [Nat.log2_eq_iff (by omega)]
    exact ⟨hy, y.isLt⟩
  rw [hlog _ hlast] at hresult
  unfold nxFls
  rw [if_neg hx]
  have hres : ∀ r : ℤ, r + (31 : ℕ) = x.toNat.log2 + 32 → r = x.toNat.log2 + 1 := by
    intro r hr
    omega
  exact hres _ hresult

/-- The lowest set bit of a word, as `x & -x` computes it. -/
theorem and_neg_eq_twoPow {x : BitVec 32} {i : ℕ}
    (hi : x.getLsbD i = true) (hlow : ∀ j, j < i → x.getLsbD j = false) :
    x &&& -x = BitVec.twoPow 32 i := by
  apply BitVec.eq_of_getLsbD_eq
  intro j hj
  rw [BitVec.getLsbD_and, BitVec.getLsbD_twoPow, BitVec.getLsbD_neg]
  rcases Nat.lt_trichotomy j i with hlt | heq | hgt
  · have hne : ¬i = j := by omega
    simp [hlow j hlt, hne]
  · subst j
    have hnone : ¬∃ k, k < i ∧ x.getLsbD k = true := by
      rintro ⟨k, hk, hbit⟩
      simp [hlow k hk] at hbit
    simp [hi, hj, hnone]
  · have hsome : ∃ k, k < j ∧ x.getLsbD k = true := ⟨i, hgt, hi⟩
    have hne : ¬i = j := by omega
    simp [hj, hsome, hne]

/-- `NX_FFS` is one plus the index of the lowest set bit. -/
theorem nxFfs_eq {x : BitVec 32} {i : ℕ}
    (hi : x.getLsbD i = true) (hlow : ∀ j, j < i → x.getLsbD j = false) :
    nxFfs x = i + 1 := by
  have hi32 : i < 32 := BitVec.lt_of_getLsbD hi
  have hpow : (BitVec.twoPow 32 i).toNat = 2 ^ i := by
    rw [BitVec.toNat_twoPow]
    exact Nat.mod_eq_of_lt (Nat.pow_lt_pow_right (by decide) hi32)
  have hne : BitVec.twoPow 32 i ≠ 0 := by
    intro h
    have := congrArg BitVec.toNat h
    rw [hpow] at this
    exact (Nat.two_pow_pos i).ne' this
  unfold nxFfs
  rw [and_neg_eq_twoPow hi hlow, nxFls_eq hne, hpow, Nat.log2_two_pow]

/-! ## The 64-bit versions of `mm/buddy_common.h` -/

/-- `BuddyFLS`. -/
def buddyFls (word : BitVec 32) : ℤ :=
  nxFls word - 1

/-- `BuddyFFS`. -/
def buddyFfs (word : BitVec 32) : ℤ :=
  nxFfs word - 1

/-- `BuddyFlsSizet` on a 64-bit machine; the casts to `int` keep the low half. -/
def buddyFlsSizet (size : BitVec 64) : ℤ :=
  let high : BitVec 32 := (size >>> 32).setWidth 32
  if high ≠ 0 then 32 + buddyFls high
  else buddyFls (size.setWidth 32 &&& 0xffffffff#32)

/-- `BuddyFfsSizet` on a 64-bit machine. -/
def buddyFfsSizet (size : BitVec 64) : ℤ :=
  let low : BitVec 32 := size.setWidth 32
  if low ≠ 0 then buddyFfs low
  else 32 + buddyFfs ((size >>> 32).setWidth 32)

theorem log2_div_two_pow {n k : ℕ} (h : n / 2 ^ k ≠ 0) :
    (n / 2 ^ k).log2 + k = n.log2 := by
  have hpos := Nat.two_pow_pos k
  have hn : n ≠ 0 := by
    rintro rfl
    simp at h
  symm
  rw [Nat.log2_eq_iff hn]
  constructor
  · rw [Nat.pow_add]
    calc
      2 ^ (n / 2 ^ k).log2 * 2 ^ k ≤ n / 2 ^ k * 2 ^ k :=
        Nat.mul_le_mul_right _ (Nat.log2_self_le h)
      _ ≤ n := Nat.div_mul_le_self _ _
  · rw [Nat.add_right_comm, Nat.pow_add]
    exact (Nat.div_lt_iff_lt_mul hpos).mp Nat.lt_log2_self

/-- `BuddyFlsSizet` is the binary logarithm of every non-zero word. -/
theorem buddyFlsSizet_eq {size : BitVec 64} (hsize : size ≠ 0) :
    buddyFlsSizet size = size.toNat.log2 := by
  have hne : size.toNat ≠ 0 := fun h => hsize (BitVec.eq_of_toNat_eq h)
  have hhigh : ((size >>> 32).setWidth 32 : BitVec 32).toNat = size.toNat / 2 ^ 32 := by
    rw [BitVec.toNat_setWidth, BitVec.toNat_ushiftRight, Nat.shiftRight_eq_div_pow]
    exact Nat.mod_eq_of_lt (by have := size.isLt; omega)
  have hlow : (size.setWidth 32 &&& 0xffffffff#32).toNat = size.toNat % 2 ^ 32 := by
    have hones : (0xffffffff#32 : BitVec 32) = BitVec.allOnes 32 := by decide
    rw [hones, BitVec.and_allOnes, BitVec.toNat_setWidth]
  unfold buddyFlsSizet buddyFls
  dsimp only
  by_cases hzero : ((size >>> 32).setWidth 32 : BitVec 32) = 0
  · have hdiv : size.toNat / 2 ^ 32 = 0 := by rw [← hhigh, hzero]; rfl
    have hmod : size.toNat % 2 ^ 32 = size.toNat := by omega
    have hlowne : size.setWidth 32 &&& 0xffffffff#32 ≠ 0 := by
      intro h
      have := congrArg BitVec.toNat h
      rw [hlow, hmod] at this
      exact hne this
    rw [if_neg (by simpa using hzero), nxFls_eq hlowne, hlow, hmod]
    omega
  · rw [if_pos hzero, nxFls_eq hzero, hhigh]
    have hdivne : size.toNat / 2 ^ 32 ≠ 0 := by
      rw [← hhigh]
      exact fun h => hzero (BitVec.eq_of_toNat_eq h)
    have hlog := log2_div_two_pow hdivne
    omega

/-- `BuddyFfsSizet` is the index of the lowest set bit of every non-zero word. -/
theorem buddyFfsSizet_eq {size : BitVec 64} {i : ℕ}
    (hi : size.getLsbD i = true) (hlow : ∀ j, j < i → size.getLsbD j = false) :
    buddyFfsSizet size = i := by
  have hi64 : i < 64 := BitVec.lt_of_getLsbD hi
  unfold buddyFfsSizet buddyFfs
  dsimp only
  by_cases hi32 : i < 32
  · have hbit : (size.setWidth 32 : BitVec 32).getLsbD i = true := by
      simp [hi32, hi]
    have hne : (size.setWidth 32 : BitVec 32) ≠ 0 := by
      intro h
      rw [h] at hbit
      simp at hbit
    rw [if_pos hne, nxFfs_eq hbit]
    · omega
    · intro j hj
      simp [BitVec.getLsbD_setWidth, hlow j hj]
  · have hzero : (size.setWidth 32 : BitVec 32) = 0 := by
      apply BitVec.eq_of_getLsbD_eq
      intro j hj
      simp [BitVec.getLsbD_setWidth, hlow j (by omega)]
    have hbit : ((size >>> 32).setWidth 32 : BitVec 32).getLsbD (i - 32) = true := by
      rw [BitVec.getLsbD_setWidth, BitVec.getLsbD_ushiftRight]
      have heq : 32 + (i - 32) = i := by omega
      have hlt : i - 32 < 32 := by omega
      simp [heq, hlt, hi]
    rw [if_neg (by simpa using hzero), nxFfs_eq hbit]
    · omega
    · intro j hj
      rw [BitVec.getLsbD_setWidth, BitVec.getLsbD_ushiftRight, hlow (32 + j) (by omega)]
      simp

/-- `BuddyFlsSizet` returns the index of the highest set bit. -/
theorem buddyFlsSizet_highest {size : BitVec 64} (hsize : size ≠ 0) :
    ∃ i : ℕ, buddyFlsSizet size = i ∧ size.getLsbD i = true ∧
      ∀ j, i < j → size.getLsbD j = false := by
  have hne : size.toNat ≠ 0 := fun h => hsize (BitVec.eq_of_toNat_eq h)
  refine ⟨size.toNat.log2, buddyFlsSizet_eq hsize, Nat.testBit_log2 hne, fun j hj => ?_⟩
  apply Nat.testBit_lt_two_pow
  exact Nat.lt_log2_self.trans_le (Nat.pow_le_pow_right (by decide) hj)

/-- `BuddyFfsSizet` returns the index of the lowest set bit. -/
theorem buddyFfsSizet_lowest {size : BitVec 64} (hsize : size ≠ 0) :
    ∃ i : ℕ, buddyFfsSizet size = i ∧ size.getLsbD i = true ∧
      ∀ j < i, size.getLsbD j = false := by
  have hne : size.toNat ≠ 0 := fun h => hsize (BitVec.eq_of_toNat_eq h)
  have hset : ∃ i, size.getLsbD i = true := Nat.exists_testBit_of_ne_zero hne
  have hlow : ∀ j < Nat.find hset, size.getLsbD j = false := fun j hj =>
    Bool.eq_false_iff.mpr (Nat.find_min hset hj)
  exact ⟨Nat.find hset, buddyFfsSizet_eq (Nat.find_spec hset) hlow, Nat.find_spec hset, hlow⟩

end Nxos
