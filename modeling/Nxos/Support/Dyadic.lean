import Mathlib.Data.Nat.Bitwise
import Mathlib.Data.Nat.Log
import Mathlib.Tactic.Ring

/-!
# Labelled dyadic tilings

A dyadic block of order `k` is an interval of `2 ^ k` consecutive natural
numbers that starts at a multiple of `2 ^ k`.  This module develops the finite
combinatorics of partitions of `{0, ..., n - 1}` into such blocks, each block
carrying a label.  A tiling is a structure that carries its own correctness, so
splitting a block, merging two halves and changing a label return tilings again.

The main result is uniqueness: two tilings of the same length in which no two
blocks of the same order below the limit are buddies have the same blocks.
-/

namespace Nxos.Dyadic

/-- `x` lies in the block of order `k` that starts at `p`. -/
def Covers (p k x : ℕ) : Prop :=
  p ≤ x ∧ x < p + 2 ^ k

theorem covers_self (p k : ℕ) : Covers p k p :=
  ⟨le_refl p, Nat.lt_add_of_pos_right (Nat.two_pow_pos k)⟩

/-- An aligned block is a fibre of division by its length. -/
theorem covers_iff_div {p k x : ℕ} (hp : 2 ^ k ∣ p) :
    Covers p k x ↔ x / 2 ^ k = p / 2 ^ k := by
  obtain ⟨m, rfl⟩ := hp
  have hpos : 0 < 2 ^ k := Nat.two_pow_pos k
  rw [Nat.mul_div_cancel_left m hpos, Nat.div_eq_iff hpos]
  unfold Covers
  rw [Nat.mul_comm m]
  omega

/-- Two aligned blocks with a common point are nested, the one of smaller order
inside the other. -/
theorem covers_of_covers {p q k j x y : ℕ}
    (hp : 2 ^ k ∣ p) (hq : 2 ^ j ∣ q) (hjk : j ≤ k)
    (hpx : Covers p k x) (hqx : Covers q j x) (hqy : Covers q j y) :
    Covers p k y := by
  rw [covers_iff_div hp] at hpx ⊢
  rw [covers_iff_div hq] at hqx hqy
  obtain ⟨d, rfl⟩ := Nat.exists_eq_add_of_le hjk
  rw [Nat.pow_add, ← Nat.div_div_eq_div_mul] at hpx ⊢
  rw [hqy, ← hqx, hpx]

theorem eq_of_covers_same_order {p q k x : ℕ}
    (hp : 2 ^ k ∣ p) (hq : 2 ^ k ∣ q)
    (hpx : Covers p k x) (hqx : Covers q k x) : p = q := by
  rw [covers_iff_div hp] at hpx
  rw [covers_iff_div hq] at hqx
  have hdiv : p / 2 ^ k = q / 2 ^ k := hpx.symm.trans hqx
  calc
    p = 2 ^ k * (p / 2 ^ k) := (Nat.mul_div_cancel' hp).symm
    _ = 2 ^ k * (q / 2 ^ k) := by rw [hdiv]
    _ = q := Nat.mul_div_cancel' hq

/-- The points of a block of order `k + 1` are those of its two halves. -/
theorem covers_succ_iff {p k x : ℕ} :
    Covers p (k + 1) x ↔ Covers p k x ∨ Covers (p + 2 ^ k) k x := by
  unfold Covers
  rw [Nat.pow_succ]
  omega

/-! ## Buddies -/

theorem xor_two_pow_mul (m k : ℕ) :
    2 ^ k * m ^^^ 2 ^ k = 2 ^ k * (m ^^^ 1) := by
  have h := Nat.shiftLeft_xor_distrib (i := k) (a := m) (b := 1)
  simp only [Nat.shiftLeft_eq, one_mul] at h
  rw [Nat.mul_comm, Nat.mul_comm (2 ^ k), h]

theorem xor_two_pow_ne_self (p k : ℕ) : p ^^^ 2 ^ k ≠ p := by
  intro heq
  have hzero : p ^^^ (p ^^^ 2 ^ k) = p ^^^ p := by rw [heq]
  rw [← Nat.xor_assoc, Nat.xor_self, Nat.zero_xor] at hzero
  exact (Nat.two_pow_pos k).ne' hzero

theorem or_two_pow_mul (m l k : ℕ) :
    2 ^ k * m ||| 2 ^ k * l = 2 ^ k * (m ||| l) := by
  have h := Nat.shiftLeft_or_distrib (i := k) (a := m) (b := l)
  simp only [Nat.shiftLeft_eq] at h
  rw [Nat.mul_comm, Nat.mul_comm (2 ^ k) l, Nat.mul_comm (2 ^ k) (m ||| l), h]

theorem and_two_pow_mul (m l k : ℕ) :
    2 ^ k * m &&& 2 ^ k * l = 2 ^ k * (m &&& l) := by
  have h := Nat.shiftLeft_and_distrib (i := k) (a := m) (b := l)
  simp only [Nat.shiftLeft_eq] at h
  rw [Nat.mul_comm, Nat.mul_comm (2 ^ k) l, Nat.mul_comm (2 ^ k) (m &&& l), h]

/-- The two halves of a block of order `k + 1`, seen from the lower one: the
buddy is the upper half, and `or` and `and` select upper and lower half. -/
theorem buddy_of_lower {p k : ℕ} (hp : 2 ^ (k + 1) ∣ p) :
    p ^^^ 2 ^ k = p + 2 ^ k ∧
      (p ^^^ 2 ^ k) ||| p = p + 2 ^ k ∧ (p ^^^ 2 ^ k) &&& p = p := by
  obtain ⟨m, rfl⟩ := hp
  have hform : 2 ^ (k + 1) * m = 2 ^ k * (2 * m) := by ring
  have hxor : 2 * m ^^^ 1 = 2 * m + 1 := Nat.xor_one_of_even (even_two_mul m)
  have hhalf : (2 * m + 1) / 2 = m := by omega
  have hor : (2 * m + 1) ||| 2 * m = 2 * m + 1 := by
    apply Nat.eq_of_testBit_eq
    intro i
    cases i with
    | zero => simp
    | succ i => simp [Nat.testBit_succ, Nat.or_div_two, hhalf]
  have hand : (2 * m + 1) &&& 2 * m = 2 * m := by
    apply Nat.eq_of_testBit_eq
    intro i
    cases i with
    | zero => simp
    | succ i => simp [Nat.testBit_succ, Nat.and_div_two, hhalf]
  rw [hform, xor_two_pow_mul, hxor, or_two_pow_mul, and_two_pow_mul, hor, hand]
  refine ⟨by ring, by ring, rfl⟩

/-- The same facts seen from the upper half. -/
theorem buddy_of_upper {p k : ℕ} (hp : 2 ^ (k + 1) ∣ p) :
    (p + 2 ^ k) ^^^ 2 ^ k = p ∧
      ((p + 2 ^ k) ^^^ 2 ^ k) ||| (p + 2 ^ k) = p + 2 ^ k ∧
      ((p + 2 ^ k) ^^^ 2 ^ k) &&& (p + 2 ^ k) = p := by
  obtain ⟨hxor, hor, hand⟩ := buddy_of_lower hp
  have hback : (p + 2 ^ k) ^^^ 2 ^ k = p := by
    rw [← hxor, Nat.xor_assoc, Nat.xor_self, Nat.xor_zero]
  rw [hback]
  rw [hxor] at hor hand
  exact ⟨rfl, by rw [Nat.or_comm]; exact hor, by rw [Nat.and_comm]; exact hand⟩

/-- An aligned position of order `k` is the lower or the upper half of the
block of order `k + 1` around it. -/
theorem lower_or_upper {p k : ℕ} (hp : 2 ^ k ∣ p) :
    2 ^ (k + 1) ∣ p ∨ ∃ q, 2 ^ (k + 1) ∣ q ∧ p = q + 2 ^ k := by
  obtain ⟨m, rfl⟩ := hp
  rcases Nat.even_or_odd' m with ⟨c, rfl | rfl⟩
  · exact Or.inl ⟨c, by ring⟩
  · exact Or.inr ⟨2 ^ (k + 1) * c, Dvd.intro _ rfl, by ring⟩

theorem dvd_of_dvd_succ {p k : ℕ} (hp : 2 ^ (k + 1) ∣ p) : 2 ^ k ∣ p :=
  (Nat.pow_dvd_pow 2 (Nat.le_succ k)).trans hp

/-! ## Tilings -/

/-- A partition of `{0, ..., n - 1}` into aligned blocks.  `block p` is the
label and the order of the block that starts at `p`, if one does. -/
structure Tiling (ω : Type*) (n : ℕ) where
  block : ℕ → Option (ω × ℕ)
  aligned : ∀ {p w k}, block p = some (w, k) → 2 ^ k ∣ p
  inside : ∀ {p w k}, block p = some (w, k) → p + 2 ^ k ≤ n
  covered : ∀ x, x < n → ∃ p w k, block p = some (w, k) ∧ Covers p k x
  disjoint : ∀ {p q w v k j x}, block p = some (w, k) → block q = some (v, j) →
    Covers p k x → Covers q j x → p = q

namespace Tiling

variable {ω : Type*} {n : ℕ}

def empty (ω : Type*) : Tiling ω 0 where
  block _ := none
  aligned := by simp
  inside := by simp
  covered := by simp
  disjoint := by simp

def snoc (T : Tiling ω n) (w : ω) (k : ℕ) (hn : 2 ^ k ∣ n) :
    Tiling ω (n + 2 ^ k) where
  block q := if q = n then some (w, k) else T.block q
  aligned := by
    intro p v j h
    by_cases hpn : p = n
    · simp only [hpn, if_pos, Option.some.injEq, Prod.mk.injEq] at h
      rw [hpn, ← h.2]
      exact hn
    · rw [if_neg hpn] at h
      exact T.aligned h
  inside := by
    intro p v j h
    by_cases hpn : p = n
    · simp only [hpn, if_pos, Option.some.injEq, Prod.mk.injEq] at h
      rw [hpn, ← h.2]
    · rw [if_neg hpn] at h
      exact (T.inside h).trans (Nat.le_add_right n _)
  covered := by
    intro x hx
    by_cases hxn : x < n
    · obtain ⟨p, v, j, hblock, hcov⟩ := T.covered x hxn
      have hpn : p ≠ n := by
        have := hcov.1
        omega
      exact ⟨p, v, j, by rw [if_neg hpn]; exact hblock, hcov⟩
    · exact ⟨n, w, k, by simp, by unfold Covers; omega⟩
  disjoint := by
    intro p q v u j i x hp hq hpx hqx
    by_cases hpn : p = n
    · by_cases hqn : q = n
      · rw [hpn, hqn]
      · rw [if_neg hqn] at hq
        have hin := T.inside hq
        unfold Covers at hpx hqx
        omega
    · rw [if_neg hpn] at hp
      by_cases hqn : q = n
      · have hin := T.inside hp
        unfold Covers at hpx hqx
        omega
      · rw [if_neg hqn] at hq
        exact T.disjoint hp hq hpx hqx

/-- Give the block at `p` the label `w`. -/
def relabel (T : Tiling ω n) (p : ℕ) (w : ω) : Tiling ω n where
  block q := if q = p then (T.block p).map (fun b => (w, b.2)) else T.block q
  aligned := by
    intro q v k h
    by_cases hqp : q = p
    · subst q
      simp only [if_pos, Option.map_eq_some_iff, Prod.mk.injEq] at h
      obtain ⟨b, hb, -, rfl⟩ := h
      exact T.aligned hb
    · rw [if_neg hqp] at h
      exact T.aligned h
  inside := by
    intro q v k h
    by_cases hqp : q = p
    · subst q
      simp only [if_pos, Option.map_eq_some_iff, Prod.mk.injEq] at h
      obtain ⟨b, hb, -, rfl⟩ := h
      exact T.inside hb
    · rw [if_neg hqp] at h
      exact T.inside h
  covered := by
    intro x hx
    obtain ⟨q, v, k, hblock, hcov⟩ := T.covered x hx
    by_cases hqp : q = p
    · subst q
      exact ⟨p, w, k, by simp [hblock], hcov⟩
    · exact ⟨q, v, k, by rw [if_neg hqp]; exact hblock, hcov⟩
  disjoint := by
    intro q r v u k j x hq hr hqx hrx
    have horder : ∀ {t : ℕ} {l : ω} {i : ℕ},
        (if t = p then (T.block p).map (fun b => (w, b.2)) else T.block t) =
          some (l, i) → ∃ l', T.block t = some (l', i) := by
      intro t l i ht
      by_cases htp : t = p
      · subst t
        simp only [if_pos, Option.map_eq_some_iff, Prod.mk.injEq] at ht
        obtain ⟨b, hb, -, rfl⟩ := ht
        exact ⟨b.1, hb⟩
      · rw [if_neg htp] at ht
        exact ⟨l, ht⟩
    obtain ⟨_, hq'⟩ := horder hq
    obtain ⟨_, hr'⟩ := horder hr
    exact T.disjoint hq' hr' hqx hrx

theorem relabel_block (T : Tiling ω n) {p k : ℕ} {v : ω} (w : ω)
    (hp : T.block p = some (v, k)) (q : ℕ) :
    (T.relabel p w).block q = if q = p then some (w, k) else T.block q := by
  simp [relabel, hp]

theorem apart (T : Tiling ω n) {p q k j : ℕ} {w v : ω} (hp : T.block p = some (w, k))
    (hq : T.block q = some (v, j)) (hne : p ≠ q) : p + 2 ^ k ≤ q ∨ q + 2 ^ j ≤ p := by
  by_contra hmeet
  have hpos := Nat.two_pow_pos k
  have hpos' := Nat.two_pow_pos j
  refine hne (T.disjoint hp hq (x := max p q) ?_ ?_)
  · unfold Covers
    omega
  · unfold Covers
    omega

theorem block_none_of_covers (T : Tiling ω n) {p q k : ℕ} {w : ω}
    (hp : T.block p = some (w, k)) (hq : Covers p k q) (hne : q ≠ p) :
    T.block q = none := by
  cases h : T.block q with
  | none => rfl
  | some b =>
      have heq : p = q := T.disjoint hp h hq (covers_self q b.2)
      exact absurd heq.symm hne

/-- Replace a block of order `k + 1` by its two halves. -/
def split (T : Tiling ω n) (p k : ℕ) (w v : ω)
    (hp : ∃ u, T.block p = some (u, k + 1)) : Tiling ω n where
  block q :=
    if q = p then some (w, k)
    else if q = p + 2 ^ k then some (v, k)
    else T.block q
  aligned := by
    obtain ⟨u, hp⟩ := hp
    have hal := dvd_of_dvd_succ (T.aligned hp)
    intro q l j h
    split_ifs at h with hqp hqu
    · simp only [Option.some.injEq, Prod.mk.injEq] at h
      rw [hqp, ← h.2]
      exact hal
    · simp only [Option.some.injEq, Prod.mk.injEq] at h
      rw [hqu, ← h.2]
      exact Nat.dvd_add hal (dvd_refl _)
    · exact T.aligned h
  inside := by
    obtain ⟨u, hp⟩ := hp
    have hin := T.inside hp
    rw [Nat.pow_succ] at hin
    intro q l j h
    split_ifs at h with hqp hqu
    · simp only [Option.some.injEq, Prod.mk.injEq] at h
      rw [hqp, ← h.2]
      omega
    · simp only [Option.some.injEq, Prod.mk.injEq] at h
      rw [hqu, ← h.2]
      omega
    · exact T.inside h
  covered := by
    obtain ⟨u, hp⟩ := hp
    have hpos := Nat.two_pow_pos k
    intro x hx
    obtain ⟨q, l, j, hq, hqx⟩ := T.covered x hx
    by_cases hqp : q = p
    · subst q
      rw [hp] at hq
      simp only [Option.some.injEq, Prod.mk.injEq] at hq
      rw [← hq.2, covers_succ_iff] at hqx
      rcases hqx with hlow | hup
      · exact ⟨p, w, k, by simp, hlow⟩
      · exact ⟨p + 2 ^ k, v, k, by simp, hup⟩
    · have hqu : q ≠ p + 2 ^ k := by
        intro hqu
        have hcov : Covers p (k + 1) q := by
          rw [covers_succ_iff, hqu]
          exact Or.inr (covers_self _ _)
        exact absurd (T.block_none_of_covers hp hcov hqp) (by simp [hq])
      exact ⟨q, l, j, by simp [hqp, hqu, hq], hqx⟩
  disjoint := by
    obtain ⟨u, hp⟩ := hp
    -- every block of the new tiling lies in an old block, which decides all
    -- cases except the two halves against each other
    have hold : ∀ {q : ℕ} {l : ω} {j x : ℕ},
        (if q = p then some (w, k)
          else if q = p + 2 ^ k then some (v, k) else T.block q) = some (l, j) →
        Covers q j x →
        (q = p ∧ Covers p k x) ∨ (q = p + 2 ^ k ∧ Covers (p + 2 ^ k) k x) ∨
          (T.block q = some (l, j) ∧ q ≠ p) := by
      intro q l j x h hcov
      split_ifs at h with hqp hqu
      · simp only [Option.some.injEq, Prod.mk.injEq] at h
        exact Or.inl ⟨hqp, by rw [h.2, ← hqp]; exact hcov⟩
      · simp only [Option.some.injEq, Prod.mk.injEq] at h
        exact Or.inr (Or.inl ⟨hqu, by rw [← hqu, h.2]; exact hcov⟩)
      · exact Or.inr (Or.inr ⟨h, hqp⟩)
    intro q r l i j m x hq hr hqx hrx
    have hwhole : ∀ {y : ℕ}, Covers p k y ∨ Covers (p + 2 ^ k) k y →
        Covers p (k + 1) y := fun h => covers_succ_iff.mpr h
    rcases hold hq hqx with ⟨rfl, hq1⟩ | ⟨rfl, hq1⟩ | ⟨hq1, hqne⟩ <;>
      rcases hold hr hrx with ⟨rfl, hr1⟩ | ⟨rfl, hr1⟩ | ⟨hr1, hrne⟩
    · rfl
    · unfold Covers at hq1 hr1
      omega
    · exact absurd (T.disjoint hp hr1 (hwhole (Or.inl hq1)) hrx).symm hrne
    · unfold Covers at hq1 hr1
      omega
    · rfl
    · exact absurd (T.disjoint hp hr1 (hwhole (Or.inr hq1)) hrx).symm hrne
    · exact absurd (T.disjoint hq1 hp hqx (hwhole (Or.inl hr1))) hqne
    · exact absurd (T.disjoint hq1 hp hqx (hwhole (Or.inr hr1))) hqne
    · exact T.disjoint hq1 hr1 hqx hrx

/-- Replace the two halves of a block of order `k + 1` by the whole. -/
def merge (T : Tiling ω n) (p k : ℕ) (w : ω) (hal : 2 ^ (k + 1) ∣ p)
    (hlow : ∃ u, T.block p = some (u, k))
    (hup : ∃ u, T.block (p + 2 ^ k) = some (u, k)) : Tiling ω n where
  block q :=
    if q = p then some (w, k + 1)
    else if q = p + 2 ^ k then none
    else T.block q
  aligned := by
    intro q l j h
    split_ifs at h with hqp hqu
    · simp only [Option.some.injEq, Prod.mk.injEq] at h
      rw [hqp, ← h.2]
      exact hal
    · exact T.aligned h
  inside := by
    obtain ⟨u, hup⟩ := hup
    have hin := T.inside hup
    intro q l j h
    split_ifs at h with hqp hqu
    · simp only [Option.some.injEq, Prod.mk.injEq] at h
      rw [hqp, ← h.2, Nat.pow_succ]
      omega
    · exact T.inside h
  covered := by
    obtain ⟨u, hlow⟩ := hlow
    obtain ⟨u', hup⟩ := hup
    intro x hx
    obtain ⟨q, l, j, hq, hqx⟩ := T.covered x hx
    by_cases hqp : q = p
    · subst q
      rw [hlow] at hq
      simp only [Option.some.injEq, Prod.mk.injEq] at hq
      exact ⟨p, w, k + 1, by simp,
        covers_succ_iff.mpr (Or.inl (by rw [hq.2]; exact hqx))⟩
    · by_cases hqu : q = p + 2 ^ k
      · subst q
        rw [hup] at hq
        simp only [Option.some.injEq, Prod.mk.injEq] at hq
        exact ⟨p, w, k + 1, by simp,
          covers_succ_iff.mpr (Or.inr (by rw [← hq.2] at hqx; exact hqx))⟩
      · exact ⟨q, l, j, by simp [hqp, hqu, hq], hqx⟩
  disjoint := by
    obtain ⟨u, hlow⟩ := hlow
    obtain ⟨u', hup⟩ := hup
    have hwhole : ∀ {q : ℕ} {l : ω} {j x : ℕ}, T.block q = some (l, j) →
        q ≠ p → q ≠ p + 2 ^ k → Covers q j x → ¬Covers p (k + 1) x := by
      intro q l j x hq hqp hqu hqx hcov
      rcases covers_succ_iff.mp hcov with h | h
      · exact hqp (T.disjoint hq hlow hqx h)
      · exact hqu (T.disjoint hq hup hqx h)
    intro q r l i j m x hq hr hqx hrx
    split_ifs at hq hr with hqp hrp hru hqu hrp hru
    · rw [hqp, hrp]
    · simp only [Option.some.injEq, Prod.mk.injEq] at hq
      rw [hqp, ← hq.2] at hqx
      exact absurd hqx (hwhole hr hrp hru hrx)
    · simp only [Option.some.injEq, Prod.mk.injEq] at hr
      rw [hrp, ← hr.2] at hrx
      exact absurd hrx (hwhole hq hqp hqu hqx)
    · exact T.disjoint hq hr hqx hrx

/-! ## Uniqueness of coalesced tilings -/

/-- No two blocks of the same order below `K` are buddies, and no block has an
order above `K`. -/
structure Coalesced (T : Tiling ω n) (K : ℕ) : Prop where
  order_le : ∀ {p w k}, T.block p = some (w, k) → k ≤ K
  no_buddies : ∀ {p w k}, T.block p = some (w, k) → k < K →
    ∀ v, T.block (p ^^^ 2 ^ k) ≠ some (v, k)

/-- In a coalesced tiling an aligned range is a block as soon as no block
sticks out of it. -/
theorem Coalesced.block_of_no_larger {T : Tiling ω n} {K : ℕ} (h : T.Coalesced K)
    {k : ℕ} (hk : k ≤ K) :
    ∀ {q : ℕ}, 2 ^ k ∣ q → q + 2 ^ k ≤ n →
      (∀ p w j x, T.block p = some (w, j) → Covers q k x → Covers p j x →
        j ≤ k) →
      ∃ w, T.block q = some (w, k) := by
  induction k with
  | zero =>
      intro q hal hin hle
      obtain ⟨p, w, j, hp, hcov⟩ := T.covered q (by rw [pow_zero] at hin; omega)
      have hj : j = 0 := Nat.le_zero.mp (hle p w j q hp (covers_self q 0) hcov)
      subst j
      have hpq : p = q :=
        eq_of_covers_same_order (T.aligned hp) hal hcov (covers_self q 0)
      exact ⟨w, hpq ▸ hp⟩
  | succ k ih =>
      intro q hal hin hle
      have hhalf : q + 2 ^ k + 2 ^ k ≤ n := by
        rw [Nat.pow_succ] at hin
        omega
      by_cases hwhole : ∃ p w x, T.block p = some (w, k + 1) ∧
          Covers q (k + 1) x ∧ Covers p (k + 1) x
      · obtain ⟨p, w, x, hp, hqx, hpx⟩ := hwhole
        have hpq := eq_of_covers_same_order (T.aligned hp) hal hpx hqx
        exact ⟨w, hpq ▸ hp⟩
      · have hsmall : ∀ p w j x, T.block p = some (w, j) →
            Covers q (k + 1) x → Covers p j x → j ≤ k := by
          intro p w j x hp hqx hpx
          have hj := hle p w j x hp hqx hpx
          rcases Nat.lt_or_eq_of_le hj with hlt | heq
          · omega
          · subst j
            exact (hwhole ⟨p, w, x, hp, hqx, hpx⟩).elim
        obtain ⟨w, hlow⟩ := ih (by omega) (dvd_of_dvd_succ hal) (by omega)
          (fun p w j x hp hqx => hsmall p w j x hp
            (covers_succ_iff.mpr (Or.inl hqx)))
        obtain ⟨v, hup⟩ := ih (by omega)
          (Nat.dvd_add (dvd_of_dvd_succ hal) (dvd_refl _)) hhalf
          (fun p w j x hp hqx => hsmall p w j x hp
            (covers_succ_iff.mpr (Or.inr hqx)))
        have hbuddy := h.no_buddies hlow (by omega) v
        rw [(buddy_of_lower hal).1] at hbuddy
        exact (hbuddy hup).elim

/-- The block of order `k + 1` around a coalesced block of order `k < K` does
not fit into the range. -/
theorem Coalesced.parent_outside {T : Tiling ω n} {K : ℕ} (h : T.Coalesced K)
    {p k : ℕ} {w : ω} (hp : T.block p = some (w, k)) (hk : k < K)
    {q : ℕ} (hal : 2 ^ (k + 1) ∣ q) (hcov : Covers q (k + 1) p) :
    n < q + 2 ^ (k + 1) := by
  by_contra hin
  have hpal := T.aligned hp
  -- a block of larger order that meets the range contains `p`, hence is the
  -- block at `p` itself
  have hle : ∀ r v j x, T.block r = some (v, j) → Covers q (k + 1) x →
      Covers r j x → j ≤ k := by
    intro r v j x hr hqx hrx
    by_contra hj
    have hrp : Covers r j p :=
      covers_of_covers (T.aligned hr) hal (by omega) hrx hqx hcov
    have heq := T.disjoint hr hp hrp (covers_self p k)
    subst r
    rw [hp] at hr
    simp only [Option.some.injEq, Prod.mk.injEq] at hr
    omega
  have hhalves : q + 2 ^ k + 2 ^ k ≤ n := by
    rw [Nat.pow_succ] at hin
    omega
  have hblock : ∀ r, 2 ^ k ∣ r → r + 2 ^ k ≤ n →
      (∀ x, Covers r k x → Covers q (k + 1) x) → ∃ v, T.block r = some (v, k) := by
    intro r hral hrin hsub
    exact h.block_of_no_larger (by omega) hral hrin
      (fun s v j x hs hrx => hle s v j x hs (hsub x hrx))
  obtain ⟨v, hlow⟩ := hblock q (dvd_of_dvd_succ hal) (by omega)
    (fun x hx => covers_succ_iff.mpr (Or.inl hx))
  obtain ⟨u, hup⟩ := hblock (q + 2 ^ k)
    (Nat.dvd_add (dvd_of_dvd_succ hal) (dvd_refl _)) hhalves
    (fun x hx => covers_succ_iff.mpr (Or.inr hx))
  have hbuddy := h.no_buddies hlow hk u
  rw [(buddy_of_lower hal).1] at hbuddy
  exact hbuddy hup

/-- A block of one coalesced tiling cannot be strictly inside a block of
another tiling of the same range. -/
theorem Coalesced.order_ge {T U : Tiling ω n} {K : ℕ} (h : T.Coalesced K)
    (hU : ∀ {p w k}, U.block p = some (w, k) → k ≤ K)
    {p q k j x : ℕ} {w v : ω}
    (hp : T.block p = some (w, k)) (hq : U.block q = some (v, j))
    (hpx : Covers p k x) (hqx : Covers q j x) : j ≤ k := by
  by_contra hj
  have hjK := hU hq
  -- the block of order `k + 1` around `p` lies inside the block at `q`
  have hparent : ∃ r, 2 ^ (k + 1) ∣ r ∧ Covers r (k + 1) p := by
    rcases lower_or_upper (T.aligned hp) with hlow | ⟨r, hr, hpr⟩
    · exact ⟨p, hlow, covers_self _ _⟩
    · exact ⟨r, hr, covers_succ_iff.mpr (Or.inr (hpr ▸ covers_self _ _))⟩
  obtain ⟨r, hral, hrp⟩ := hparent
  have hout := h.parent_outside hp (by omega) hral hrp
  have hqp : Covers q j p :=
    covers_of_covers (U.aligned hq) (T.aligned hp) (by omega) hqx hpx
      (covers_self p k)
  have hlast : Covers r (k + 1) (r + 2 ^ (k + 1) - 1) := by
    have := Nat.two_pow_pos (k + 1)
    unfold Covers
    omega
  have hqlast := covers_of_covers (U.aligned hq) hral (by omega) hqp hrp hlast
  have hin := U.inside hq
  unfold Covers at hqlast
  omega

theorem Coalesced.unique {T U : Tiling ω n} {K : ℕ}
    (hT : T.Coalesced K) (hU : U.Coalesced K) (p k : ℕ) :
    (∃ w, T.block p = some (w, k)) ↔ ∃ w, U.block p = some (w, k) := by
  have hone : ∀ {T U : Tiling ω n}, T.Coalesced K → U.Coalesced K →
      (∃ w, T.block p = some (w, k)) → ∃ w, U.block p = some (w, k) := by
    intro T U hT hU hex
    obtain ⟨w, hp⟩ := hex
    have hpn : p < n := by
      have hin := T.inside hp
      have hpos := Nat.two_pow_pos k
      omega
    obtain ⟨q, v, j, hq, hqp⟩ := U.covered p hpn
    have hjk : j ≤ k := hT.order_ge hU.order_le hp hq (covers_self p k) hqp
    have hkj : k ≤ j := hU.order_ge hT.order_le hq hp hqp (covers_self p k)
    have heq : j = k := le_antisymm hjk hkj
    subst j
    have hqp' : q = p :=
      eq_of_covers_same_order (U.aligned hq) (T.aligned hp) hqp (covers_self p k)
    exact ⟨v, hqp' ▸ hq⟩
  exact ⟨hone hT hU, hone hU hT⟩

end Tiling

end Nxos.Dyadic
