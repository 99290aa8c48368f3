import Mathlib.Data.List.Infix
import Mathlib.Logic.Function.Basic

/-!
# Rings of cells

A queue that writes its elements to `n` cells one after another, and begins with the first cell
again behind the last one.  An element stays in its cell until it is taken.
-/

namespace Nxos.Ring

variable {α : Type*} {n taken : ℕ} {cell : ℕ → α} {written : List α}

/-- The elements that were written and not taken are in their cells, and there are at most `n`
of them. -/
structure Holds (n : ℕ) (cell : ℕ → α) (written : List α) (taken : ℕ) : Prop where
  taken_le : taken ≤ written.length
  room : written.length ≤ taken + n
  cell : ∀ k (hk : k < written.length), taken ≤ k → cell (k % n) = written[k]

namespace Holds

/-- A ring that nothing was written to. -/
theorem empty (n : ℕ) (cell : ℕ → α) : Holds n cell [] 0 where
  taken_le := le_rfl
  room := Nat.zero_le _
  cell k hk := absurd hk (Nat.not_lt_zero k)

/-- Two places that are less than a round apart have different cells. -/
private theorem mod_ne {j k : ℕ} (hlt : j < k) (hnear : k < j + n) : j % n ≠ k % n := by
  intro heq
  have hdvd : n ∣ k - j := Nat.dvd_of_mod_eq_zero (Nat.sub_mod_eq_zero_of_mod_eq heq.symm)
  have hle := Nat.le_of_dvd (by omega) hdvd
  omega

/-- An element is written to the next cell, when fewer than `n` are there. -/
theorem put (hholds : Holds n cell written taken) (hroom : written.length < taken + n) (x : α) :
    Holds n (Function.update cell (written.length % n) x) (written ++ [x]) taken where
  taken_le := hholds.taken_le.trans (by simp)
  room := by
    rw [List.length_append, List.length_singleton]
    omega
  cell k hk htaken := by
    rw [List.length_append, List.length_singleton] at hk
    rcases Nat.lt_succ_iff_lt_or_eq.mp hk with hlt | rfl
    · rw [Function.update_of_ne (mod_ne hlt (by omega)), hholds.cell k hlt htaken,
        List.getElem_append_left hlt]
    · simp

/-- The next element that is taken is in its cell. -/
theorem front (hholds : Holds n cell written taken) (hlt : taken < written.length) :
    cell (taken % n) = written[taken] :=
  hholds.cell taken hlt le_rfl

/-- The cell of an element that was taken is free. -/
theorem pop (hholds : Holds n cell written taken) (hlt : taken < written.length) :
    Holds n cell written (taken + 1) where
  taken_le := hlt
  room := hholds.room.trans (by omega)
  cell k hk htaken := hholds.cell k hk (by omega)

end Holds

end Nxos.Ring
