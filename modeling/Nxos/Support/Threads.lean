import Mathlib.Algebra.BigOperators.Group.Finset.Basic
import Mathlib.Algebra.Order.BigOperators.Group.Finset

/-!
# Counting threads

Every thread of a finite set is at a point, and a point has a weight.  When one thread goes on to
another point, the sum of the weights changes by the weights of its two points.
-/

namespace Nxos.Threads

variable {τ β : Type*} [Fintype τ] {weight : β → ℕ} {point : τ → β} {t u : τ}

def weigh (weight : β → ℕ) (point : τ → β) : ℕ := ∑ t, weight (point t)

theorem weight_le_weigh : weight (point t) ≤ weigh weight point :=
  Finset.single_le_sum (f := fun t => weight (point t)) (fun _ _ => Nat.zero_le _)
    (Finset.mem_univ t)

variable [DecidableEq τ]

/-- A thread goes on to another point. -/
theorem weigh_update (weight : β → ℕ) (point : τ → β) (t : τ) (x : β) :
    weigh weight (Function.update point t x) + weight (point t) = weigh weight point + weight x := by
  have hrest : ∑ u ∈ Finset.univ.erase t, weight (Function.update point t x u) =
      ∑ u ∈ Finset.univ.erase t, weight (point u) :=
    Finset.sum_congr rfl fun u hu => by
      rw [Function.update_of_ne (Finset.ne_of_mem_erase hu)]
  have hafter := Finset.add_sum_erase Finset.univ (fun u => weight (Function.update point t x u))
    (Finset.mem_univ t)
  have hbefore := Finset.add_sum_erase Finset.univ (fun u => weight (point u)) (Finset.mem_univ t)
  simp only [Function.update_self, hrest] at hafter
  unfold weigh
  omega

/-- Two threads contribute the weights of both. -/
theorem add_weight_le_weigh (hne : t ≠ u) :
    weight (point t) + weight (point u) ≤ weigh weight point := by
  have hfirst := Finset.add_sum_erase Finset.univ (fun u => weight (point u)) (Finset.mem_univ t)
  have hsecond : weight (point u) ≤ ∑ u ∈ Finset.univ.erase t, weight (point u) :=
    Finset.single_le_sum (f := fun u => weight (point u)) (fun _ _ => Nat.zero_le _)
      (Finset.mem_erase.mpr ⟨hne.symm, Finset.mem_univ u⟩)
  unfold weigh
  omega

end Nxos.Threads
