import Mathlib.Data.Nat.Digits.Lemmas
import Nxos.Utils.Sprintf.Model

/-!
# The layout of a number

`_Number` stores, from left to right: spaces, the sign, the prefix of the base, the padding
character, zeros up to the precision, the digits and spaces.  The three padding loops share one
counter, so that the first of them that runs does all the padding, unless the counter wraps around.
-/

namespace Nxos.Utils

open Nxos.Fs

/-! ## Wrapping integers -/

theorem wrapInt_of_bounds {x : ℤ} (hlow : -2 ^ 31 ≤ x) (hhigh : x < 2 ^ 31) : wrapInt x = x :=
  Int.bmod_eq_of_le (by omega) (by omega)

theorem wrapInt_bounds (x : ℤ) : -2 ^ 31 ≤ wrapInt x ∧ wrapInt x < 2 ^ 31 := by
  have hlow := Int.le_bmod (x := x) (m := 2 ^ 32) (by decide)
  have hhigh := Int.bmod_lt (x := x) (m := 2 ^ 32) (by decide)
  unfold wrapInt
  omega

theorem wrapInt_natCast_le (n : ℕ) : wrapInt n ≤ n := by
  unfold wrapInt
  rw [Int.bmod_eq_emod]
  split <;> omega

/-! ## Digits -/

/-- The digits of a number from the lowest on, at least one. -/
def numerals (base n : ℕ) : List ℕ := if n = 0 then [0] else Nat.digits base n

def digitCount (base n : ℕ) : ℕ := Nat.log base n + 1

theorem length_numerals (base : Base) (n : ℕ) :
    (numerals base.value n).length = digitCount base.value n := by
  have hbase : 1 < base.value := by
    cases base <;> decide
  unfold numerals digitCount
  split
  · next hzero =>
      rw [hzero, Nat.log_zero_right, List.length_singleton]
  · next hne => exact Nat.length_digits base.value n hbase hne

/-- By induction on the room in `tmp`: as many digits as the number has. -/
theorem digitLoop_eq {base : ℕ} (hbase : 1 < base) (hsmall : base < 2 ^ 64) (small : Bool)
    {room : ℕ} {num : BitVec 64} (hroom : num.toNat < base ^ room) :
    digitLoop small base room num = .ok ((Nat.digits base num.toNat).map (digitAt small)) := by
  induction room generalizing num with
  | zero =>
      have hzero : num = 0 := BitVec.eq_of_toNat_eq (by simpa using hroom)
      rw [digitLoop, if_pos hzero, hzero]
      simp
  | succ room ih =>
      rw [digitLoop]
      by_cases hzero : num = 0
      · rw [if_pos hzero, hzero]
        simp
      · have hpos : 0 < num.toNat := by
          rw [Nat.pos_iff_ne_zero]
          exact fun h => hzero (BitVec.eq_of_toNat_eq h)
        have hquot : (divBase num base).1.toNat = num.toNat / base := by
          rw [divBase, BitVec.toNat_udiv, BitVec.toNat_ofNat, Nat.mod_eq_of_lt hsmall]
        have hrem : (divBase num base).2 = num.toNat % base := by
          rw [divBase, BitVec.toNat_umod, BitVec.toNat_ofNat, Nat.mod_eq_of_lt hsmall]
        have hrest : (divBase num base).1.toNat < base ^ room := by
          rw [hquot, Nat.div_lt_iff_lt_mul (by omega), ← Nat.pow_succ]
          exact hroom
        rw [if_neg hzero, ih hrest, exec_ok_bind, exec_pure, hquot, hrem,
          Nat.digits_def' hbase hpos, List.map_cons]

/-- `tmp` has room for the digits of every number. -/
theorem tmpDigits_eq (small : Bool) (base : Base) (num : BitVec 64) :
    tmpDigits small base.value num =
      .ok ((numerals base.value num.toNat).map (digitAt small)) := by
  unfold tmpDigits numerals
  by_cases hzero : num = 0
  · subst hzero
    cases small <;> rfl
  · have hne : num.toNat ≠ 0 := fun h => hzero (BitVec.eq_of_toNat_eq h)
    have hroom : num.toNat < base.value ^ 50 := by
      refine lt_of_lt_of_le num.isLt ?_
      cases base <;> decide
    rw [if_neg hzero, if_neg hne]
    refine digitLoop_eq ?_ ?_ small hroom
    · cases base <;> decide
    · cases base <;> decide

/-! ## Padding -/

/-- The counter behind `while (size-- > 0)`. -/
def behindLoop (size : ℤ) : ℤ := wrapInt (min size 0 - 1)

def pads (flags : Flags) (size : ℤ) : ℕ × ℕ × ℕ :=
  if flags.left then (0, 0, size.toNat)
  else if flags.zeroPad then (0, size.toNat, (behindLoop size).toNat)
  else (size.toNat, (behindLoop size).toNat, (behindLoop (behindLoop size)).toNat)

/-- Far from the smallest `int` the counter does not wrap around. -/
theorem behindLoop_eq {size : ℤ} (hlow : -2 ^ 31 < size) : behindLoop size = min size 0 - 1 :=
  wrapInt_of_bounds (by omega) (by omega)

/-- Behind a loop nothing is left to pad, unless the counter has wrapped around. -/
theorem behindLoop_toNat {size : ℤ} (hsize : -2 ^ 31 ≤ size) :
    (behindLoop size).toNat = 0 ∨ (behindLoop size).toNat = 2 ^ 31 - 1 := by
  by_cases hmin : size = -2 ^ 31
  · subst hmin
    exact Or.inr rfl
  · left
    rw [behindLoop_eq (by omega)]
    omega

def isNegative (flags : Flags) (num : BitVec 64) : Bool := flags.sign && num.slt 0

def magnitude (flags : Flags) (num : BitVec 64) : ℕ :=
  (if isNegative flags num then -num else num).toNat

theorem length_signOf_le (flags : Flags) (negative : Bool) :
    (signOf flags negative).length ≤ 1 := by
  unfold signOf
  split
  · exact le_refl _
  split
  · exact le_refl _
  split
  · exact le_refl _
  · exact Nat.zero_le _

theorem length_prefixOf_le (flags : Flags) (base : ℕ) : (prefixOf flags base).length ≤ 2 := by
  unfold prefixOf
  split
  · split
    · exact Nat.le_succ _
    split
    · exact le_refl _
    · exact Nat.zero_le _
  · exact Nat.zero_le _

def padCounter (num : BitVec 64) (base : Base) (size precision : ℤ) (flags : Flags) : ℤ :=
  wrapInt (wrapInt (wrapInt (size - (signOf flags (isNegative flags num)).length) -
    (prefixOf flags base.value).length) -
      max precision (digitCount base.value (magnitude flags num)))

theorem padCounter_eq (num : BitVec 64) (base : Base) (size precision : ℤ) (flags : Flags)
    (hlow : -1 ≤ size) (hhigh : size < 2 ^ 31)
    (hfits : -2 ^ 31 ≤ size - (signOf flags (isNegative flags num)).length -
      (prefixOf flags base.value).length -
        max precision (digitCount base.value (magnitude flags num))) :
    padCounter num base size precision flags =
      size - (signOf flags (isNegative flags num)).length - (prefixOf flags base.value).length -
        max precision (digitCount base.value (magnitude flags num)) := by
  have hsign := length_signOf_le flags (isNegative flags num)
  have hprefix := length_prefixOf_le flags base.value
  unfold padCounter
  rw [wrapInt_of_bounds (x := size - _) (by omega) (by omega),
    wrapInt_of_bounds (x := size - _ - _) (by omega) (by omega),
    wrapInt_of_bounds hfits (by omega)]

def precisionZeros (num : BitVec 64) (base : Base) (precision : ℤ) (flags : Flags) : ℕ :=
  (max precision (digitCount base.value (magnitude flags num)) -
    digitCount base.value (magnitude flags num)).toNat

def padChar (flags : Flags) : BitVec 8 :=
  if flags.zeroPad && !flags.left then ch '0' else ch ' '

/-- The middle padding is empty or consists of zeros, unless the counter has wrapped around. -/
theorem middle_pads_cases (flags : Flags) {size : ℤ} (hsize : -2 ^ 31 ≤ size) :
    (pads flags size).2.1 = 0 ∨ padChar flags = ch '0' ∨ (pads flags size).2.1 = 2 ^ 31 - 1 := by
  unfold pads padChar
  cases flags.left
  · cases flags.zeroPad
    · rcases behindLoop_toNat hsize with hnone | hwrapped
      · exact Or.inl hnone
      · exact Or.inr (Or.inr hwrapped)
    · exact Or.inr (Or.inl rfl)
  · exact Or.inl rfl

theorem toNat_le_pads (flags : Flags) (size : ℤ) :
    size.toNat ≤ (pads flags size).1 + (pads flags size).2.1 + (pads flags size).2.2 := by
  unfold pads
  split
  · exact Nat.le_add_left _ _
  split
  · exact (Nat.le_add_left _ _).trans (Nat.le_add_right _ _)
  · exact (Nat.le_add_right _ _).trans (Nat.le_add_right _ _)

theorem number_eq (num : BitVec 64) (base : Base) (size precision : ℤ) (flags : Flags) :
    number num base.value size precision flags =
      .ok (List.replicate (pads flags (padCounter num base size precision flags)).1 (ch ' ') ++
        signOf flags (isNegative flags num) ++ prefixOf flags base.value ++
        List.replicate (pads flags (padCounter num base size precision flags)).2.1
          (padChar flags) ++
        List.replicate (precisionZeros num base precision flags) (ch '0') ++
        ((numerals base.value (magnitude flags num)).map (digitAt flags.small)).reverse ++
        List.replicate (pads flags (padCounter num base size precision flags)).2.2 (ch ' ')) := by
  have hbase : ¬(base.value < 2 ∨ 36 < base.value) := by
    cases base <;> decide
  have htmp := tmpDigits_eq flags.small base (if isNegative flags num then -num else num)
  unfold isNegative at htmp
  simp only [number, if_neg hbase, htmp, exec_ok_bind, exec_pure, List.length_map,
    length_numerals, padLoop, Int.sub_zero]
  rcases flags with ⟨zeroPad, sign, plus, space, left, special, small⟩
  cases left <;> cases zeroPad <;> rfl

end Nxos.Utils
