import Mathlib.Algebra.Order.Ring.Int
import Mathlib.Tactic.Ring

/-!
# Integer powers

`NX_PowInt` of `base/math.h`, by repeated squaring.
-/

namespace Nxos

/-- The `while (n)` loop of `NX_PowInt`.  The squaring of `x` after its last use
may leave the range of `int`; its value is not read any more, so it is left
unbounded here. -/
def powIntLoop : ℕ → ℤ → ℤ → ℕ → ℤ
  | 0, res, _, _ => res
  | fuel + 1, res, x, n =>
      if n = 0 then res
      else powIntLoop fuel (if n % 2 = 1 then res * x else res) (x * x) (n / 2)

/-- `NX_PowInt`. -/
def nxPowInt (x n : ℤ) : ℤ :=
  if n < 0 then powIntLoop (n.natAbs + 1) 1 (Int.tdiv 1 x) n.natAbs
  else powIntLoop (n.natAbs + 1) 1 x n.natAbs

theorem powIntLoop_eq {fuel n : ℕ} (hn : n < fuel) (res x : ℤ) :
    powIntLoop fuel res x n = res * x ^ n := by
  induction fuel generalizing n res x with
  | zero => omega
  | succ fuel ih =>
      rw [powIntLoop]
      by_cases hzero : n = 0
      · simp [hzero]
      · rw [if_neg hzero, ih (by omega)]
        rcases Nat.mod_two_eq_zero_or_one n with heven | hodd
        · have hform : n = 2 * (n / 2) := by omega
          have hpow : x ^ n = (x * x) ^ (n / 2) := by
            conv_lhs => rw [hform, pow_mul, pow_two]
          simp [heven, hpow]
        · have hform : n = 2 * (n / 2) + 1 := by omega
          have hpow : x ^ n = (x * x) ^ (n / 2) * x := by
            conv_lhs => rw [hform, pow_succ, pow_mul, pow_two]
          rw [if_pos hodd, hpow]
          ring

theorem nxPowInt_natCast (x : ℤ) (n : ℕ) : nxPowInt x n = x ^ n := by
  unfold nxPowInt
  rw [if_neg (by omega), Int.natAbs_natCast, powIntLoop_eq (Nat.lt_succ_self n)]
  ring

end Nxos
