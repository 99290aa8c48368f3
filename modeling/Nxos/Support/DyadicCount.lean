import Mathlib.Algebra.BigOperators.Group.Finset.Piecewise
import Mathlib.Algebra.BigOperators.Group.Finset.Sigma
import Mathlib.Algebra.Order.BigOperators.Group.Finset
import Mathlib.Order.Interval.Finset.Nat
import Nxos.Support.Dyadic

/-!
# Counting the points of a tiling

A point of the range of a tiling belongs to exactly one block, so the lengths of the
blocks add up to the length of the range.  The points are counted here label by label:
the numbers for all labels sum to the range, the number for one label is the sum over
the orders of its blocks, and a block that gets or loses the label moves the number by
its length.
-/

namespace Nxos.Dyadic.Tiling

open Finset

variable {ω : Type*} {n : ℕ} [DecidableEq ω]

/-- The length of the block that starts at `p`, if it carries the label `w`. -/
def lengthAt (T : Tiling ω n) (w : ω) (p : ℕ) : ℕ :=
  match T.block p with
  | some (v, k) => if v = w then 2 ^ k else 0
  | none => 0

/-- The number of points in the blocks with the label `w`. -/
def points (T : Tiling ω n) (w : ω) : ℕ :=
  ∑ p ∈ range n, T.lengthAt w p

theorem lengthAt_of_block {T : Tiling ω n} {w : ω} {p k : ℕ} (hp : T.block p = some (w, k)) :
    T.lengthAt w p = 2 ^ k := by
  simp [lengthAt, hp]

theorem lengthAt_of_no_block {T : Tiling ω n} {w : ω} {p : ℕ}
    (hp : ∀ k, T.block p ≠ some (w, k)) : T.lengthAt w p = 0 := by
  unfold lengthAt
  cases h : T.block p with
  | none => rfl
  | some b =>
      have hne : b.1 ≠ w := by
        rintro rfl
        exact hp b.2 h
      exact if_neg hne

/-- The length at a point depends on the blocks with that label only. -/
theorem lengthAt_congr {T U : Tiling ω n} {w : ω} {p : ℕ}
    (h : ∀ k, U.block p = some (w, k) ↔ T.block p = some (w, k)) :
    U.lengthAt w p = T.lengthAt w p := by
  by_cases hblock : ∃ k, T.block p = some (w, k)
  · obtain ⟨k, hk⟩ := hblock
    rw [lengthAt_of_block hk, lengthAt_of_block ((h k).mpr hk)]
  · have hT : ∀ k, T.block p ≠ some (w, k) := fun k hk => hblock ⟨k, hk⟩
    have hU : ∀ k, U.block p ≠ some (w, k) := fun k hk => hT k ((h k).mp hk)
    rw [lengthAt_of_no_block hT, lengthAt_of_no_block hU]

/-- A tiling with one more block of a label has as many more points of it. -/
theorem points_insert {T U : Tiling ω n} {w : ω} {p k : ℕ}
    (hnew : U.block p = some (w, k)) (hold : ∀ j, T.block p ≠ some (w, j))
    (hsame : ∀ q j, q ≠ p → (U.block q = some (w, j) ↔ T.block q = some (w, j))) :
    U.points w = T.points w + 2 ^ k := by
  have hp : p ∈ range n := by
    have hin := U.inside hnew
    have hpos := Nat.two_pow_pos k
    exact mem_range.mpr (by omega)
  have hrest : ∑ q ∈ (range n).erase p, U.lengthAt w q =
      ∑ q ∈ (range n).erase p, T.lengthAt w q :=
    sum_congr rfl fun q hq => lengthAt_congr fun j => hsame q j (ne_of_mem_erase hq)
  unfold points
  rw [← sum_erase_add _ _ hp, ← sum_erase_add (range n) (fun q => T.lengthAt w q) hp, hrest,
    lengthAt_of_block hnew, lengthAt_of_no_block hold, Nat.add_zero]

/-- The points of a label, order by order. -/
theorem points_eq_sum_card {T : Tiling ω n} {w : ω} {K : ℕ}
    (hK : ∀ {p k}, T.block p = some (w, k) → k < K) :
    T.points w = ∑ k ∈ range K, #{p ∈ range n | T.block p = some (w, k)} * 2 ^ k := by
  have hpoint : ∀ p, T.lengthAt w p =
      ∑ k ∈ range K, if T.block p = some (w, k) then 2 ^ k else 0 := by
    intro p
    by_cases hblock : ∃ k, T.block p = some (w, k)
    · obtain ⟨k, hk⟩ := hblock
      rw [lengthAt_of_block hk, sum_eq_single_of_mem k (mem_range.mpr (hK hk))]
      · rw [if_pos hk]
      · intro j _ hjk
        rw [if_neg]
        intro hj
        rw [hk] at hj
        simp only [Option.some.injEq, Prod.mk.injEq, true_and] at hj
        exact hjk hj.symm
    · rw [lengthAt_of_no_block fun k hk => hblock ⟨k, hk⟩]
      symm
      apply sum_eq_zero
      intro k _
      exact if_neg fun hk => hblock ⟨k, hk⟩
  unfold points
  rw [sum_congr rfl fun p _ => hpoint p, sum_comm]
  apply sum_congr rfl
  intro k _
  rw [← sum_filter, sum_const, nsmul_eq_mul, Nat.cast_id]

/-- Every point of the range has one label. -/
theorem sum_points (T : Tiling ω n) {L : Finset ω}
    (hL : ∀ {p w k}, T.block p = some (w, k) → w ∈ L) : ∑ w ∈ L, T.points w = n := by
  let cells : ℕ → Finset ℕ := fun p => (T.block p).elim ∅ fun b => Ico p (p + 2 ^ b.2)
  have hlength : ∀ p, ∑ w ∈ L, T.lengthAt w p = #(cells p) := by
    intro p
    cases hb : T.block p with
    | none => simp [lengthAt, cells, hb]
    | some b => simp [lengthAt, cells, hb, hL hb]
  have hmem : ∀ {p x}, x ∈ cells p ↔ ∃ w k, T.block p = some (w, k) ∧ Covers p k x := by
    intro p x
    cases hb : T.block p with
    | none => simp [cells, hb]
    | some b =>
        obtain ⟨v, j⟩ := b
        simp [cells, hb, Covers]
  have hcover : (range n).biUnion cells = range n := by
    ext x
    rw [mem_biUnion, mem_range]
    constructor
    · rintro ⟨p, -, hx⟩
      obtain ⟨w, k, hp, hcov⟩ := hmem.mp hx
      exact hcov.2.trans_le (T.inside hp)
    · intro hx
      obtain ⟨p, w, k, hp, hcov⟩ := T.covered x hx
      exact ⟨p, mem_range.mpr (hcov.1.trans_lt hx), hmem.mpr ⟨w, k, hp, hcov⟩⟩
  have hdisjoint : (range n : Set ℕ).PairwiseDisjoint cells := by
    intro p _ q _ hpq
    rw [Function.onFun, disjoint_left]
    intro x hpx hqx
    obtain ⟨w, k, hp, hpx⟩ := hmem.mp hpx
    obtain ⟨v, j, hq, hqx⟩ := hmem.mp hqx
    exact hpq (T.disjoint hp hq hpx hqx)
  unfold points
  rw [sum_comm, sum_congr rfl fun p _ => hlength p, ← card_biUnion hdisjoint, hcover, card_range]

/-- With two labels in use, the points of the one are the points that the other leaves. -/
theorem points_add_points (T : Tiling ω n) {w v : ω} (hwv : w ≠ v)
    (hall : ∀ {p u k}, T.block p = some (u, k) → u = w ∨ u = v) :
    T.points w + T.points v = n := by
  rw [← sum_pair hwv]
  refine T.sum_points fun hp => ?_
  rw [mem_insert, mem_singleton]
  exact hall hp

end Nxos.Dyadic.Tiling
