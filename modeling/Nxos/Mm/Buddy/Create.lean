import Nxos.Mm.Buddy.Blocks

/-!
# Building a zone

`NX_BuddyCreate` cuts the pages of a zone into blocks of the largest order as long
as there are enough pages, and then into blocks of strictly decreasing orders, the
binary digits of the rest.  A zone therefore starts with at most one block of each
order below the largest, so that no two of these are buddies.
-/

namespace Nxos.Mm

open Nxos.Dyadic

/-- All blocks are free, and no two have the same order below the largest. -/
structure FreshTiling {n : ℕ} (T : Tiling Owner n) : Prop where
  free : ∀ {p w k}, T.block p = some (w, k) → w = .free
  order_injective : ∀ {p q w v k}, k < maxPageOrder → T.block p = some (w, k) →
    T.block q = some (v, k) → p = q

namespace Represents

variable {s : BuddySystem} {n : ℕ} {T : Tiling Owner n}

/-- Writing an order behind the tiled part starts a new block in hand. -/
theorem setOrder_snoc (h : Represents s T) {k : ℕ} (hk : k ≤ maxPageOrder)
    (hn : 2 ^ k ∣ n)
    (hneg : ∀ x, n < x → x < n + 2 ^ k → (s.map x).order < 0) :
    Represents (s.setOrder n k) (T.snoc .hand k hn) := by
  have hblock : ∀ q, (T.snoc Owner.hand k hn).block q =
      if q = n then some (.hand, k) else T.block q := fun _ => rfl
  have hnone : ∀ {q}, n ≤ q → T.block q = none := by
    intro q hq
    cases hb : T.block q with
    | none => rfl
    | some b =>
        have hin := T.inside (w := b.1) (k := b.2) hb
        have hpos := Nat.two_pow_pos b.2
        omega
  constructor
  · intro p w j hp
    rw [hblock] at hp
    split_ifs at hp with hpn
    · simp only [Option.some.injEq, Prod.mk.injEq] at hp
      omega
    · exact h.order_le hp
  · intro p hp
    rw [hblock]
    split_ifs with hpn
    · trivial
    · have hmap : (s.setOrder n k).map p = s.map p := Function.update_of_ne hpn _ _
      rw [hmap]
      by_cases hlt : p < n
      · exact h.page_ok p hlt
      · rw [hnone (by omega)]
        exact hneg p (by omega) hp
  · intro p j
    rw [hblock]
    split_ifs with hpn
    · have hiff := h.mem_list (p := p) (k := j)
      rw [hnone (q := p) (by omega)] at hiff
      change p ∈ s.pageBuddy j ↔ _
      simpa using hiff
    · exact h.mem_list
  · exact h.nodup
  · exact h.count_eq
  · exact h.bitmap_iff

end Represents

/-- The order of the next block: the logarithm of the count, capped.  The count that is
left has a bit less, or is only bounded as before when the order was capped. -/
theorem next_block_order {count m : ℕ} (hzero : count ≠ 0) (hm : count < 2 ^ m) :
    ∃ e m', e = min count.log2 maxPageOrder ∧ 2 ^ e ≤ count ∧ count - 2 ^ e < 2 ^ m' ∧
      m' ≤ m ∧ min m' maxPageOrder = e ∧
      e ≤ min m maxPageOrder ∧ (e < maxPageOrder → e < min m maxPageOrder) := by
  have hlow := Nat.log2_self_le hzero
  have hup := @Nat.lt_log2_self count
  generalize hl : count.log2 = l at hlow hup ⊢
  have hlm : l < m := by
    by_contra hge
    have : 2 ^ m ≤ 2 ^ l := Nat.pow_le_pow_right (by decide) (by omega)
    omega
  have hsucc : 2 ^ (l + 1) = 2 ^ l * 2 := Nat.pow_succ 2 l
  by_cases hcap : l ≤ maxPageOrder
  · exact ⟨l, l, by omega, hlow, by omega, hlm.le, by omega, by omega, by omega⟩
  · have hpos := Nat.two_pow_pos maxPageOrder
    have hpow : 2 ^ maxPageOrder ≤ 2 ^ l := Nat.pow_le_pow_right (by decide) (by omega)
    exact ⟨maxPageOrder, m, by omega, by omega, by omega, le_refl m, by omega, by omega, by omega⟩

/-- The loop of `NX_BuddyCreate`, started with `i` pages tiled and a remainder
below `2 ^ m`, where the tiled part is a multiple of `2 ^ m` or of the largest
block. -/
theorem buddyCreateLoop_spec {fuel m i count : ℕ} {s : BuddySystem}
    {T : Tiling Owner i} (h : Represents s T) (hfresh : FreshTiling T)
    (hfuel : count ≤ fuel) (hm : count < 2 ^ m) (hm64 : m ≤ 64)
    (hal : 2 ^ min m maxPageOrder ∣ i)
    (hord : ∀ {p w k}, T.block p = some (w, k) → min m maxPageOrder ≤ k)
    (hneg : ∀ x, i ≤ x → x < i + count → (s.map x).order < 0) :
    ∃ s' n, ∃ U : Tiling Owner n, n = i + count ∧
      buddyCreateLoop fuel s i count = .ok s' ∧ Represents s' U ∧ FreshTiling U ∧
      SameZone s s' := by
  induction fuel generalizing m i count s with
  | zero =>
      have hzero : count = 0 := by omega
      subst count
      exact ⟨s, i, T, rfl, rfl, h, hfresh, SameZone.refl s⟩
  | succ fuel ih =>
      rw [buddyCreateLoop]
      by_cases hzero : count = 0
      · subst count
        exact ⟨s, i, T, rfl, if_pos rfl, h, hfresh, SameZone.refl s⟩
      · rw [if_neg hzero]
        have hword : (BitVec.ofNat 64 count).toNat = count := by
          rw [BitVec.toNat_ofNat]
          apply Nat.mod_eq_of_lt
          exact Nat.lt_of_lt_of_le hm (Nat.pow_le_pow_right (by decide) hm64)
        have hne : BitVec.ofNat 64 count ≠ 0 := by
          intro heq
          have := congrArg BitVec.toNat heq
          rw [hword] at this
          exact hzero this
        have horder : buddyFlsSizet (BitVec.ofNat 64 count) = count.log2 := by
          rw [buddyFlsSizet_eq hne, hword]
        obtain ⟨e, m', hcap, hle, hlt, hm', hmin, hem⟩ := next_block_order hzero hm
        -- the next block, of order `e`, at position `i`
        have hali : 2 ^ e ∣ i := (Nat.pow_dvd_pow 2 hem.1).trans hal
        have he20 : e ≤ maxPageOrder := by omega
        have hpos := Nat.two_pow_pos e
        have hrep₁ := h.setOrder_snoc he20 hali
          (fun x hx hxl => hneg x hx.le (by omega))
        have hblock₁ : (T.snoc Owner.hand e hali).block i = some (.hand, e) := if_pos rfl
        obtain ⟨s₂, hrun₂, hrep₂, hzone₂, -, hmap₂⟩ := hrep₁.buddyAddPage hblock₁ (by
          simp [BuddySystem.setOrder, BuddySystem.modifyPage])
        have hblock : ∀ q, ((T.snoc Owner.hand e hali).relabel i .free).block q =
            if q = i then some (.free, e) else T.block q := by
          intro q
          rw [Tiling.relabel_block _ _ hblock₁]
          by_cases hqi : q = i
          · rw [if_pos hqi, if_pos hqi]
          · rw [if_neg hqi, if_neg hqi]
            exact if_neg hqi
        have hfresh₂ :
            FreshTiling ((T.snoc Owner.hand e hali).relabel i Owner.free) := by
          constructor
          · intro p w k hp
            rw [hblock] at hp
            split_ifs at hp with hpi
            · simp only [Option.some.injEq, Prod.mk.injEq] at hp
              exact hp.1.symm
            · exact hfresh.free hp
          · intro p q w v k hk hp hq
            rw [hblock] at hp hq
            split_ifs at hp hq with hpi hqi hqi
            · rw [hpi, hqi]
            · simp only [Option.some.injEq, Prod.mk.injEq] at hp
              have := hord hq
              omega
            · simp only [Option.some.injEq, Prod.mk.injEq] at hq
              have := hord hp
              omega
            · exact hfresh.order_injective hk hp hq
        obtain ⟨s', n, U, hn, hrun, hrep, hfreshU, hzone⟩ :=
          ih hrep₂ hfresh₂ (show count - 2 ^ e ≤ fuel by omega) hlt (by omega)
            (by
              rw [hmin]
              exact Nat.dvd_add hali (dvd_refl _))
            (by
              intro p w k hp
              rw [hblock] at hp
              split_ifs at hp with hpi
              · simp only [Option.some.injEq, Prod.mk.injEq] at hp
                omega
              · have := hord hp
                omega)
            (by
              intro x hx hxc
              have hxi : x ≠ i := by omega
              rw [hmap₂ x hxi]
              have hset : (s.setOrder i e).map x = s.map x :=
                Function.update_of_ne hxi _ _
              rw [hset]
              exact hneg x (by omega) (by omega))
        refine ⟨s', n, U, by omega, ?_, hrep, hfreshU,
          hzone₂.of_setOrder.trans hzone⟩
        have hcapped : (if (maxPageOrder : ℤ) < (count.log2 : ℤ) then (maxPageOrder : ℤ)
            else (count.log2 : ℤ)) = (e : ℤ) := by
          split_ifs <;> omega
        simp only [horder, nxAssert_pos (Int.natCast_nonneg count.log2), exec_ok_bind,
          hcapped, Int.toNat_natCast, hrun₂]
        exact hrun

theorem buddyZoneInit_represents (raw : ℕ → Page) (mem size : ℕ) :
    Represents (buddyZoneInit raw mem size) (Tiling.empty Owner) := by
  constructor
  · intro p w k hp
    simp [Tiling.empty] at hp
  · intro p hp
    omega
  · intro p k
    simp [Tiling.empty, buddyZoneInit]
  · simp [buddyZoneInit]
  · simp [buddyZoneInit]
  · simp [buddyZoneInit]

theorem freshTiling_empty : FreshTiling (Tiling.empty Owner) :=
  { free := fun hp => nomatch hp
    order_injective := fun _ hp => nomatch hp }

theorem sizeSub_one_add_one {a : ℕ} (hpos : 1 ≤ a) (hlt : a < 2 ^ 64) :
    sizeSub a 1 + 1 = a := by
  unfold sizeSub
  omega

/-- The first page of a zone lies at a page boundary behind the given memory. -/
theorem buddyZoneLayout_start (mem size : ℕ) :
    (buddyZoneLayout mem size).1 % pageSize = 0 ∧ mem ≤ (buddyZoneLayout mem size).1 := by
  have hge : ∀ x, x ≤ buddyAlignUp x pageSize := by
    intro x
    unfold buddyAlignUp pageSize
    omega
  have hmod : ∀ x, buddyAlignUp x pageSize % pageSize = 0 := by
    intro x
    unfold buddyAlignUp
    exact Nat.mul_mod_left _ _
  unfold buddyZoneLayout
  dsimp only
  generalize buddyAlignUp
    ((sizeSub size sizeofBuddySystem >>> pageShift) * sizeofPage) pageSize = mapSize
  rw [Nat.add_sub_cancel' (hge _)]
  refine ⟨hmod _, ?_⟩
  have := hge (mem + sizeofBuddySystem + mapSize)
  omega

theorem buddyZonePages_lt (mem size : ℕ) : buddyZonePages mem size < 2 ^ 52 := by
  have hlt : (buddyZoneLayout mem size).2 < 2 ^ 64 := Nat.mod_lt _ (by decide)
  unfold buddyZonePages pageShift
  rw [Nat.shiftRight_eq_div_pow]
  omega

/-- A zone with at least one page is built without a fault, has those pages, and consists
of free blocks. -/
theorem buddyCreate_spec (raw : ℕ → Page) {mem size : ℕ} (hmem : mem ≠ 0)
    (hsize : size ≠ 0) :
    ∃ s, buddyCreate raw mem size = .ok s ∧
      (1 ≤ buddyZonePages mem size → s.maxPFN + 1 = buddyZonePages mem size) ∧
      s.pageStart % pageSize = 0 ∧ s.pageStart ≠ 0 ∧
      ∃ T : Tiling Owner (buddyZonePages mem size), Represents s T ∧ FreshTiling T := by
  have hstart := buddyZoneLayout_start mem size
  have hlt := buddyZonePages_lt mem size
  have hnz : (buddyZoneLayout mem size).1 ≠ 0 := by omega
  obtain ⟨s, n, T, hn, hrun, hrep, hfresh, hzone⟩ :=
    buddyCreateLoop_spec (m := 52) (i := 0)
      (buddyZoneInit_represents raw mem size) freshTiling_empty
      (le_refl (buddyZonePages mem size)) hlt (by decide) (dvd_zero _)
      (fun hp => nomatch hp) (by
        intro x _ hx
        simp only [buddyZoneInit]
        rw [if_pos (by omega)]
        exact Int.negSucc_lt_zero 0)
  rw [Nat.zero_add] at hn
  subst n
  refine ⟨s, ?_, ?_, ?_, ?_, T, hrep, hfresh⟩
  · unfold buddyCreate
    rw [nxAssert_pos ⟨hmem, hsize⟩, nxAssert_pos hstart.1, exec_ok_bind, exec_ok_bind]
    exact hrun
  · intro hpos
    rw [hzone.maxPFN]
    exact sizeSub_one_add_one hpos (hlt.trans (by decide))
  · rw [hzone.pageStart]
    exact hstart.1
  · rw [hzone.pageStart]
    exact hnz

end Nxos.Mm
