import Nxos.Mm.Buddy.Blocks

/-!
# The operations of the buddy allocator on blocks

Each function of `mm/buddy.c` has one specification over the represented
tiling.  Splitting leaves free upper halves behind; merging removes free
buddies until the block's buddy is not free; allocation and release are
assembled from these.
-/

namespace Nxos.Mm

open Nxos.Dyadic

/-! ## The order of a request -/

/-- The order that `NX_BuddyAllocPage` computes. -/
def requestOrder (count : BitVec 64) : ℤ :=
  buddyFlsSizet (count + ((1#64 <<< (buddyFlsSizet count).toNat) - 1))

/-- The order that `NX_BuddyAllocPage` computes is the least one whose block
has `count` pages. -/
theorem requestOrder_eq_clog {count : BitVec 64} (hpos : count ≠ 0)
    (hle : count.toNat ≤ 2 ^ 63) : requestOrder count = Nat.clog 2 count.toNat := by
  unfold requestOrder
  have hne : count.toNat ≠ 0 := fun h => hpos (BitVec.eq_of_toNat_eq h)
  have hlow := Nat.log2_self_le hne
  have hup := @Nat.lt_log2_self count.toNat
  rw [buddyFlsSizet_eq hpos, Int.toNat_natCast]
  generalize hl : count.toNat.log2 = l at hlow hup ⊢
  have hl63 : l ≤ 63 := by
    by_contra hgt
    have h64 : 2 ^ 64 ≤ 2 ^ l := Nat.pow_le_pow_right (by decide) (by omega)
    omega
  have hpow63 : 2 ^ l ≤ 2 ^ 63 := Nat.pow_le_pow_right (by decide) hl63
  have hpow : 0 < 2 ^ l := Nat.two_pow_pos l
  have hshift : ((1#64 <<< l) - 1).toNat = 2 ^ l - 1 := by
    have hone : (1#64 <<< l).toNat = 2 ^ l := by
      have hlit : (1#64).toNat = 1 := rfl
      rw [BitVec.toNat_shiftLeft, Nat.shiftLeft_eq, hlit]
      omega
    have hlit : (1 : BitVec 64).toNat = 1 := rfl
    rw [BitVec.toNat_sub, hone, hlit]
    omega
  have hsucc : 2 ^ (l + 1) = 2 ^ l * 2 := Nat.pow_succ 2 l
  have hsum : (count + ((1#64 <<< l) - 1)).toNat = count.toNat + (2 ^ l - 1) := by
    rw [BitVec.toNat_add, hshift]
    omega
  have hsumne : count + ((1#64 <<< l) - 1) ≠ 0 := by
    intro h
    have hlit : (0 : BitVec 64).toNat = 0 := rfl
    have hzero := congrArg BitVec.toNat h
    rw [hsum, hlit] at hzero
    omega
  rw [buddyFlsSizet_eq hsumne, hsum]
  -- exact powers of two keep their logarithm, other counts round up
  by_cases hexact : count.toNat = 2 ^ l
  · rw [hexact, Nat.clog_pow 2 l (by decide)]
    have hlog : (2 ^ l + (2 ^ l - 1)).log2 = l := by
      rw [Nat.log2_eq_iff (by omega)]
      omega
    rw [hlog]
  · have hlog : (count.toNat + (2 ^ l - 1)).log2 = l + 1 := by
      have hsucc2 : 2 ^ (l + 1 + 1) = 2 ^ l * 2 * 2 := by
        rw [Nat.pow_succ, Nat.pow_succ]
      rw [Nat.log2_eq_iff (by omega)]
      omega
    have hclog : Nat.clog 2 count.toNat = l + 1 := by
      apply le_antisymm
      · exact Nat.clog_le_of_le_pow hup.le
      · exact (Nat.lt_clog_iff_pow_lt (by decide)).mpr (by omega)
    rw [hlog, hclog]

/-- For every count from 1 to `2 ^ 63` the order that `NX_BuddyAllocPage` computes is the least one
whose block has so many pages, and for every word that is not zero `BuddyFfsSizet` and
`BuddyFlsSizet` return the index of the lowest and of the highest set bit. -/
theorem buddyScans_exact :
    (∀ count : BitVec 64, count ≠ 0 → count.toNat ≤ 2 ^ 63 →
      ∃ k : ℕ, requestOrder count = k ∧ count.toNat ≤ 2 ^ k ∧
        ∀ j, count.toNat ≤ 2 ^ j → k ≤ j) ∧
    (∀ word : BitVec 64, word ≠ 0 →
      ∃ i : ℕ, buddyFfsSizet word = i ∧ word.getLsbD i = true ∧
        ∀ j < i, word.getLsbD j = false) ∧
    ∀ word : BitVec 64, word ≠ 0 →
      ∃ i : ℕ, buddyFlsSizet word = i ∧ word.getLsbD i = true ∧
        ∀ j, i < j → word.getLsbD j = false := by
  refine ⟨fun count hpos hle => ?_, fun _ => buddyFfsSizet_lowest, fun _ => buddyFlsSizet_highest⟩
  refine ⟨Nat.clog 2 count.toNat, requestOrder_eq_clog hpos hle, ?_, fun j hj => ?_⟩
  · exact Nat.le_pow_clog (by decide) _
  · exact Nat.clog_le_of_le_pow hj

/-- Five pages take a block of the order three. -/
theorem buddyScans_exact_five : ∃ k : ℕ, requestOrder 5 = k ∧ (5 : BitVec 64).toNat ≤ 2 ^ k ∧
    ∀ j, (5 : BitVec 64).toNat ≤ 2 ^ j → k ≤ j :=
  buddyScans_exact.1 5 (by decide) (by decide)

theorem ofInt_nxPowInt (k : ℕ) :
    BitVec.ofInt 64 (nxPowInt 2 k) = BitVec.ofNat 64 (2 ^ k) := by
  rw [nxPowInt_natCast]
  exact_mod_cast BitVec.ofInt_natCast 64 (2 ^ k)

namespace Represents

variable {s : BuddySystem} {n : ℕ} {T : Tiling Owner n}

/-! ## Locating a free block -/

theorem exists_lowest_bit {b : BitVec 64} (hb : b ≠ 0) :
    ∃ i, b.getLsbD i = true ∧ ∀ j, j < i → b.getLsbD j = false := by
  classical
  have hex : ∃ i, b.getLsbD i = true := by
    by_contra hnone
    apply hb
    apply BitVec.eq_of_getLsbD_eq
    intro i _
    rw [not_exists] at hnone
    simpa using hnone i
  refine ⟨Nat.find hex, Nat.find_spec hex, ?_⟩
  intro j hj
  simpa using Nat.find_min hex hj

/-- `BuddyLocateFree` returns a free block of at least the requested order, or
nothing when there is none. -/
theorem buddyLocateFree (h : Represents s T) {order : ℕ} (ho : order ≤ maxPageOrder) :
    (∃ p k, Mm.buddyLocateFree s order = .ok (some p) ∧
        T.block p = some (.free, k) ∧ order ≤ k) ∨
      (Mm.buddyLocateFree s order = .ok none ∧
        ∀ p k, order ≤ k → T.block p ≠ some (.free, k)) := by
  have hassert : (s.pageBuddy order = []) ↔ s.count order = 0 := by
    rw [h.count_eq, List.length_eq_zero_iff]
  have hbound : ¬(maxPageOrder : ℤ) < (order : ℤ) := by omega
  have hlast : ∀ k, s.pageBuddy k ≠ [] → ∃ p,
      (s.pageBuddy k).getLast? = some p ∧ T.block p = some (.free, k) := by
    intro k hk
    refine ⟨(s.pageBuddy k).getLast hk, List.getLast?_eq_some_getLast hk, ?_⟩
    exact h.mem_list.mp (List.getLast_mem hk)
  unfold Mm.buddyLocateFree
  rw [nxAssert_pos (Int.natCast_nonneg order)]
  simp only [exec_ok_bind, if_neg hbound, Int.toNat_natCast, nxAssert_pos hassert]
  by_cases hempty : s.pageBuddy order = []
  · rw [if_pos hempty]
    have hbit : ∀ j, (s.bitmap &&& (BitVec.allOnes 64 <<< order)).getLsbD j = true ↔
        s.pageBuddy j ≠ [] ∧ order ≤ j := by
      intro j
      rw [BitVec.getLsbD_and, Bool.and_eq_true, h.bitmap_iff,
        BitVec.getLsbD_shiftLeft, BitVec.getLsbD_allOnes]
      by_cases hj : j < 64
      · have hsub : j - order < 64 := by omega
        simp [hj, hsub]
      · have hnil : s.pageBuddy j = [] := h.list_empty_of_gt (by
          unfold maxPageOrder
          omega)
        simp [hnil]
    by_cases hzero : s.bitmap &&& (BitVec.allOnes 64 <<< order) = 0
    · right
      rw [if_pos hzero]
      refine ⟨rfl, ?_⟩
      intro p k hk hp
      have hne : s.pageBuddy k ≠ [] := List.ne_nil_of_mem (h.mem_list.mpr hp)
      have := (hbit k).mpr ⟨hne, hk⟩
      rw [hzero] at this
      simp at this
    · left
      obtain ⟨i, hi, hmin⟩ := exists_lowest_bit hzero
      obtain ⟨hne, hik⟩ := (hbit i).mp hi
      obtain ⟨p, hp, hblock⟩ := hlast i hne
      refine ⟨p, i, ?_, hblock, hik⟩
      have hffs := buddyFfsSizet_eq hi hmin
      have hnonneg : 0 ≤ buddyFfsSizet
          (s.bitmap &&& (BitVec.allOnes 64 <<< order)) := by
        rw [hffs]
        exact Int.natCast_nonneg i
      rw [if_neg hzero, nxAssert_pos hnonneg]
      simp only [exec_ok_bind, hffs, Int.toNat_natCast, hp]
  · left
    obtain ⟨p, hp, hblock⟩ := hlast order hempty
    exact ⟨p, order, by rw [if_neg hempty, hp], hblock, le_refl order⟩

/-! ## Splitting -/

/-- `U` arises from `T` by cutting the block at `p` down to `order` and freeing
the upper halves of the orders below `top`. -/
def SplitFrom (T U : Tiling Owner n) (p order top : ℕ) : Prop :=
  ∀ q w k, q ≠ p → (U.block q = some (w, k) ↔
    T.block q = some (w, k) ∨
      (w = .free ∧ order ≤ k ∧ k < top ∧ q = p + 2 ^ k))

/-- One round of `PageSplit`: the upper half goes to its list. -/
theorem split_round (h : Represents s T) {p k : ℕ}
    (hp : T.block p = some (.hand, k + 1)) :
    ∃ s' U, Mm.buddyAddPage (s.setOrder (p + 2 ^ k) k) (p + 2 ^ k) = .ok s' ∧
      Represents s' (U : Tiling Owner n) ∧ U.block p = some (.hand, k) ∧
      SplitFrom T U p k (k + 1) ∧
      SameZone s s' ∧ s'.usedPage = s.usedPage ∧ s'.map p = s.map p := by
  have hpos := Nat.two_pow_pos k
  have hne : p ≠ p + 2 ^ k := by omega
  have hnone : T.block (p + 2 ^ k) = none :=
    T.block_none_of_covers hp
      (covers_succ_iff.mpr (Or.inr (covers_self _ _))) hne.symm
  have hsplit := h.setOrder_split hp
  have hupper : (T.split p k Owner.hand Owner.hand ⟨.hand, hp⟩).block (p + 2 ^ k) =
      some (.hand, k) := by
    simp [Tiling.split]
  have horder : ((s.setOrder (p + 2 ^ k) k).map (p + 2 ^ k)).order = k := by
    simp [BuddySystem.setOrder, BuddySystem.modifyPage]
  obtain ⟨s', hrun, hrep, hzone, hused, hmap⟩ := hsplit.buddyAddPage hupper horder
  have hblock := Tiling.relabel_block _ Owner.free hupper
  refine ⟨s', _, hrun, hrep, ?_, ?_, hzone.of_setOrder, hused, ?_⟩
  · rw [hblock, if_neg hne]
    simp [Tiling.split]
  · intro q w j hqp
    rw [hblock]
    by_cases hqu : q = p + 2 ^ k
    · subst q
      rw [if_pos rfl, hnone]
      simp only [Option.some.injEq, Prod.mk.injEq, reduceCtorEq, false_or]
      constructor
      · rintro ⟨rfl, rfl⟩
        exact ⟨rfl, le_refl k, Nat.lt_succ_self k, rfl⟩
      · rintro ⟨rfl, hlow, hlt, -⟩
        exact ⟨rfl, by omega⟩
    · rw [if_neg hqu]
      simp only [Tiling.split, if_neg hqp, if_neg hqu]
      constructor
      · exact Or.inl
      · rintro (hq | ⟨-, hlow, hlt, hq⟩)
        · exact hq
        · have hjk : j = k := by omega
          exact absurd (hjk ▸ hq) hqu
  · rw [hmap p hne]
    exact Function.update_of_ne hne _ _

theorem pageSplitLoop (h : Represents s T) {p order m : ℕ}
    (hp : T.block p = some (.hand, order + m)) :
    ∃ s' U, Mm.pageSplitLoop m s p order = .ok s' ∧
      Represents s' (U : Tiling Owner n) ∧ U.block p = some (.hand, order) ∧
      SplitFrom T U p order (order + m) ∧
      SameZone s s' ∧ s'.usedPage = s.usedPage ∧ s'.map p = s.map p := by
  induction m generalizing s T with
  | zero =>
      refine ⟨s, T, rfl, h, hp, ?_, SameZone.refl s, rfl, rfl⟩
      intro q w k _
      constructor
      · exact Or.inl
      · rintro (hq | ⟨-, hlow, hlt, -⟩)
        · exact hq
        · omega
  | succ m ih =>
      obtain ⟨s₁, T₁, hrun₁, hrep₁, hp₁, hsplit₁, hzone₁, hused₁, hmap₁⟩ :=
        h.split_round (k := order + m) hp
      obtain ⟨s₂, T₂, hrun₂, hrep₂, hp₂, hsplit₂, hzone₂, hused₂, hmap₂⟩ :=
        ih hrep₁ hp₁
      refine ⟨s₂, T₂, ?_, hrep₂, hp₂, ?_, hzone₁.trans hzone₂, hused₂.trans hused₁,
        hmap₂.trans hmap₁⟩
      · rw [Mm.pageSplitLoop]
        push_cast at hrun₁ ⊢
        rw [hrun₁]
        exact hrun₂
      · intro q w k hqp
        rw [hsplit₂ q w k hqp, hsplit₁ q w k hqp]
        constructor
        · rintro ((hq | ⟨hw, hlow, hlt, hq⟩) | ⟨hw, hlow, hlt, hq⟩)
          · exact Or.inl hq
          · exact Or.inr ⟨hw, by omega, by omega, hq⟩
          · exact Or.inr ⟨hw, hlow, by omega, hq⟩
        · rintro (hq | ⟨hw, hlow, hlt, hq⟩)
          · exact Or.inl (Or.inl hq)
          · by_cases hk : k < order + m
            · exact Or.inr ⟨hw, hlow, hk, hq⟩
            · exact Or.inl (Or.inr ⟨hw, by omega, by omega, hq⟩)

/-! ## Allocation -/

/-- `PagePrepareUsed` on a free block hands out its lowest part of the requested
order and frees the rest. -/
theorem pagePrepareUsed (h : Represents s T) {p k order : ℕ}
    (hp : T.block p = some (.free, k)) (ho : order ≤ k) :
    ∃ s' U, Mm.pagePrepareUsed s p order = .ok (pageToPtr s p, s') ∧
      Represents s' (U : Tiling Owner n) ∧ U.block p = some (.used, order) ∧
      SplitFrom T U p order k ∧ (s'.map p).reference = 1 ∧
      SameZone s s' ∧
      s'.usedPage = s.usedPage + BitVec.ofNat 64 (2 ^ order) := by
  obtain ⟨s₁, hrun₁, hrep₁, hzone₁, hused₁, hmap₁⟩ := h.buddyDelPage hp
  have hp₁ : (T.relabel p Owner.hand).block p = some (.hand, k) := by
    rw [Tiling.relabel_block _ _ hp, if_pos rfl]
  have horder₁ : (s₁.map p).order = k := by
    rw [hmap₁, Function.update_self]
    exact h.order_of_free hp
  have hflag₁ : ¬doPageFree (s₁.map p) := by
    rw [hmap₁, Function.update_self]
    exact not_doPageFree_clearFlag _ _ _
  -- the split, or no split when the orders agree
  have hsplit : ∃ s₂ U, (if (order : ℤ) < (s₁.map p).order then
        Mm.pageSplit s₁ p order else .ok s₁) = .ok s₂ ∧
      Represents s₂ (U : Tiling Owner n) ∧ U.block p = some (.hand, order) ∧
      SplitFrom (T.relabel p .hand) U p order k ∧
      SameZone s₁ s₂ ∧ s₂.usedPage = s₁.usedPage ∧
      (s₂.map p).order = order ∧ ¬doPageFree (s₂.map p) := by
    rw [horder₁]
    by_cases hlt : order < k
    · obtain ⟨m, rfl⟩ := Nat.exists_eq_add_of_lt hlt
      obtain ⟨s₂, U, hrun₂, hrep₂, hp₂, hfrom, hzone₂, hused₂, hmap₂⟩ :=
        hrep₁.pageSplitLoop (m := m + 1) hp₁
      refine ⟨s₂.setOrder p order, U, ?_, hrep₂.setOrder_hand hp₂ order, hp₂, hfrom,
        ⟨hzone₂.pageStart, hzone₂.maxPFN⟩, hused₂, ?_, ?_⟩
      · have hrounds : ((order + m + 1 : ℕ) - (order : ℤ)).toNat = m + 1 := by omega
        rw [if_pos (by omega)]
        unfold Mm.pageSplit
        rw [nxAssert_pos (Int.natCast_nonneg order), horder₁, hrounds,
          Int.toNat_natCast]
        simp only [exec_ok_bind, hrun₂]
        rfl
      · simp [BuddySystem.setOrder, BuddySystem.modifyPage]
      · have hflags : ((s₂.setOrder p order).map p).flags = (s₁.map p).flags := by
          simp [BuddySystem.setOrder, BuddySystem.modifyPage, hmap₂]
        unfold doPageFree at hflag₁ ⊢
        rw [hflags]
        exact hflag₁
    · have heq : order = k := by omega
      subst order
      refine ⟨s₁, _, if_neg (by omega), hrep₁, hp₁, ?_, SameZone.refl s₁, rfl, horder₁,
        hflag₁⟩
      intro q w j _
      constructor
      · exact Or.inl
      · rintro (hq | ⟨-, hlow, hup, -⟩)
        · exact hq
        · omega
  obtain ⟨s₂, U, hrun₂, hrep₂, hp₂, hfrom, hzone₂, hused₂, horder₂, hflag₂⟩ := hsplit
  refine ⟨_, U.relabel p .used, ?_,
    hrep₂.hand_out hp₂ { s₂.map p with reference := 1 }
      (s₂.usedPage + BitVec.ofInt 64 (nxPowInt 2 order)) horder₂ hflag₂ Int.one_pos, ?_, ?_, ?_, ?_, ?_⟩
  · unfold Mm.pagePrepareUsed
    rw [nxAssert_pos (Int.natCast_nonneg order)]
    simp only [exec_ok_bind, hrun₁, hrun₂]
    have hptr : pageToPtr s₂ p = pageToPtr s p := by
      unfold pageToPtr
      rw [hzone₂.pageStart, hzone₁.pageStart]
    rw [← hptr]
    rfl
  · rw [Tiling.relabel_block _ _ hp₂, if_pos rfl]
  · intro q w j hqp
    rw [Tiling.relabel_block _ _ hp₂, if_neg hqp, hfrom q w j hqp,
      Tiling.relabel_block _ _ hp, if_neg hqp]
  · simp
  · exact ⟨(hzone₁.trans hzone₂).pageStart, (hzone₁.trans hzone₂).maxPFN⟩
  · change s₂.usedPage + BitVec.ofInt 64 (nxPowInt 2 order) = _
    rw [ofInt_nxPowInt, hused₂, hused₁]

/-- `NX_BuddyAllocPage` either hands out a block of the order it computes, or finds no
free block that is large enough and changes nothing. -/
theorem buddyAllocPage_of_order (h : Represents s T) {count : BitVec 64} (hpos : count ≠ 0)
    {order : ℕ} (horder : requestOrder count = order) (hle : order ≤ maxPageOrder) :
    (∃ s' U p k, Mm.buddyAllocPage s count = .ok (some (pageToPtr s p), s') ∧
        Represents s' (U : Tiling Owner n) ∧
        T.block p = some (.free, k) ∧ U.block p = some (.used, order) ∧
        SplitFrom T U p order k ∧ (s'.map p).reference = 1 ∧ SameZone s s' ∧
        s'.usedPage = s.usedPage + BitVec.ofNat 64 (2 ^ order) ∧ order ≤ k) ∨
      (Mm.buddyAllocPage s count = .ok (none, s) ∧
        ∀ p k, order ≤ k → T.block p ≠ some (.free, k)) := by
  unfold requestOrder at horder
  unfold Mm.buddyAllocPage
  rw [nxAssert_pos hpos, exec_ok_bind]
  dsimp only
  rw [horder]
  rcases h.buddyLocateFree hle with ⟨p, k, hrun, hp, hk⟩ | ⟨hrun, hnone⟩
  · left
    obtain ⟨s', U, hprep, hrep, hU, hfrom, href, hzone, hused⟩ :=
      h.pagePrepareUsed hp hk
    refine ⟨s', U, p, k, ?_, hrep, hp, hU, hfrom, href, hzone, hused, hk⟩
    simp only [hrun, exec_ok_bind, hprep]
    rfl
  · right
    refine ⟨?_, hnone⟩
    simp only [hrun, exec_ok_bind]
    rfl

/-- Requests of up to `2 ^ 20` pages get a block of the least sufficient order. -/
theorem buddyAllocPage (h : Represents s T) {count : BitVec 64} (hpos : count ≠ 0)
    (hle : count.toNat ≤ 2 ^ maxPageOrder) :
    (∃ s' U p k, Mm.buddyAllocPage s count = .ok (some (pageToPtr s p), s') ∧
        Represents s' (U : Tiling Owner n) ∧
        T.block p = some (.free, k) ∧
        U.block p = some (.used, Nat.clog 2 count.toNat) ∧
        SplitFrom T U p (Nat.clog 2 count.toNat) k ∧ (s'.map p).reference = 1 ∧
        SameZone s s' ∧
        s'.usedPage = s.usedPage + BitVec.ofNat 64 (2 ^ Nat.clog 2 count.toNat) ∧
        Nat.clog 2 count.toNat ≤ k) ∨
      (Mm.buddyAllocPage s count = .ok (none, s) ∧
        ∀ p k, Nat.clog 2 count.toNat ≤ k → T.block p ≠ some (.free, k)) :=
  h.buddyAllocPage_of_order hpos
    (requestOrder_eq_clog hpos (hle.trans (Nat.pow_le_pow_right (by decide) (by decide))))
    (Nat.clog_le_of_le_pow hle)

/-! ## Merging and release -/

/-- Only the block at `p` is in hand. -/
def HandOnly (T : Tiling Owner n) (p : ℕ) : Prop :=
  ∀ q k, T.block q = some (.hand, k) → q = p

/-- `U` arises from `T` by joining free blocks to the block in hand, which ends
up at `q` with order `k` and with a buddy that is not free. -/
structure MergedInto (T U : Tiling Owner n) (q k : ℕ) : Prop where
  block_eq : U.block q = some (.hand, k)
  used_iff : ∀ r j, U.block r = some (.used, j) ↔ T.block r = some (.used, j)
  hand_only : HandOnly U q
  free_sub : ∀ r j, U.block r = some (.free, j) → T.block r = some (.free, j)
  buddy : U.block (q ^^^ 2 ^ k) ≠ some (.free, k)

/-- The page is free or in the hands of the running operation. -/
def Loose (T : Tiling Owner n) (x : ℕ) : Prop :=
  ∃ q w k, T.block q = some (w, k) ∧ w ≠ .used ∧ Covers q k x

/-- Merging the block of order `k` at `p` with its neighbours stays within the largest
order: the block of that order around it is not loose, or has no free buddy. -/
def MergesWithin (T : Tiling Owner n) (p k : ℕ) : Prop :=
  ∀ b, 2 ^ maxPageOrder ∣ b → Covers b maxPageOrder p →
    (∀ y, Covers b maxPageOrder y → Covers p k y ∨ Loose T y) →
    T.block (b ^^^ 2 ^ maxPageOrder) ≠ some (.free, maxPageOrder)

/-- A zone below twice the largest block has no room for two of them. -/
theorem mergesWithin_of_lt (hn : n < 2 ^ (maxPageOrder + 1)) {p k : ℕ} {w : Owner}
    (hp : T.block p = some (w, k)) : MergesWithin T p k := by
  intro b hb _ hloose hbuddy
  have hpow : 2 ^ (maxPageOrder + 1) = 2 ^ maxPageOrder * 2 := Nat.pow_succ 2 maxPageOrder
  have hpos := Nat.two_pow_pos maxPageOrder
  have hlast : b + 2 ^ maxPageOrder ≤ n := by
    have hcov : Covers b maxPageOrder (b + 2 ^ maxPageOrder - 1) := by
      unfold Covers
      omega
    rcases hloose _ hcov with hself | ⟨q, v, j, hq, -, hqcov⟩
    · have hin := T.inside hp
      unfold Covers at hself
      omega
    · have hin := T.inside hq
      unfold Covers at hqcov
      omega
  have hin := T.inside hbuddy
  rcases lower_or_upper hb with hlow | ⟨l, hl, hbl⟩
  · rw [(buddy_of_lower hlow).1] at hin
    omega
  · omega

theorem MergesWithin.order_lt {p k : ℕ} (hmax : MergesWithin T p k) (h : Represents s T)
    (hp : T.block p = some (.hand, k)) (hb : T.block (p ^^^ 2 ^ k) = some (.free, k)) :
    k < maxPageOrder := by
  refine lt_of_le_of_ne (h.order_le hp) ?_
  rintro rfl
  exact hmax p (T.aligned hp) (covers_self p _) (fun y hy => Or.inl hy) hb

/-- One round of `PageMerge`: the free buddy is joined to the block in hand. -/
theorem merge_round (h : Represents s T) {p k : ℕ} (hk : k < maxPageOrder)
    (hp : T.block p = some (.hand, k)) (honly : HandOnly T p)
    (hb : T.block (p ^^^ 2 ^ k) = some (.free, k)) :
    ∃ s' U, Mm.buddyDelPage s (p ^^^ 2 ^ k) = .ok s' ∧
      Represents (s'.setOrder ((p ^^^ 2 ^ k) ||| p) pageInvalidOrder)
        (U : Tiling Owner n) ∧
      U.block ((p ^^^ 2 ^ k) &&& p) = some (.hand, k + 1) ∧
      HandOnly U ((p ^^^ 2 ^ k) &&& p) ∧
      (∀ y, Covers ((p ^^^ 2 ^ k) &&& p) (k + 1) y ↔
        Covers p k y ∨ Covers (p ^^^ 2 ^ k) k y) ∧
      (∀ r j, U.block r = some (.used, j) ↔ T.block r = some (.used, j)) ∧
      (∀ r j, U.block r = some (.free, j) → T.block r = some (.free, j)) ∧
      SameZone s s' ∧ s'.usedPage = s.usedPage := by
  obtain ⟨s', hrun, hrep, hzone, hused, -⟩ := h.buddyDelPage hb
  have hblock := T.relabel_block .hand hb
  -- the lower half `l`, whichever of the two it is
  have hhalves : ∃ l, 2 ^ (k + 1) ∣ l ∧ (p ^^^ 2 ^ k) &&& p = l ∧
      (p ^^^ 2 ^ k) ||| p = l + 2 ^ k ∧
      ((p = l ∧ p ^^^ 2 ^ k = l + 2 ^ k) ∨ (p = l + 2 ^ k ∧ p ^^^ 2 ^ k = l)) := by
    rcases lower_or_upper (T.aligned hp) with hlow | ⟨l, hl, hpl⟩
    · obtain ⟨hxor, hor, hand⟩ := buddy_of_lower hlow
      exact ⟨p, hlow, hand, hor, Or.inl ⟨rfl, hxor⟩⟩
    · obtain ⟨hxor, hor, hand⟩ := buddy_of_upper hl
      subst p
      exact ⟨l, hl, hand, hor, Or.inr ⟨rfl, hxor⟩⟩
  obtain ⟨l, hl, hand, hor, hcases⟩ := hhalves
  have hne : p ≠ p ^^^ 2 ^ k := by
    have := Nat.two_pow_pos k
    rcases hcases with ⟨h1, h2⟩ | ⟨h1, h2⟩ <;> omega
  have hboth : (T.relabel (p ^^^ 2 ^ k) Owner.hand).block l = some (.hand, k) ∧
      (T.relabel (p ^^^ 2 ^ k) Owner.hand).block (l + 2 ^ k) = some (.hand, k) := by
    have hself : (T.relabel (p ^^^ 2 ^ k) Owner.hand).block p = some (.hand, k) := by
      rw [hblock, if_neg hne]
      exact hp
    have hbuddy : (T.relabel (p ^^^ 2 ^ k) Owner.hand).block (p ^^^ 2 ^ k) =
        some (.hand, k) := by
      rw [hblock, if_pos rfl]
    rcases hcases with ⟨h1, h2⟩ | ⟨h1, h2⟩
    · exact ⟨h1 ▸ hself, h2 ▸ hbuddy⟩
    · exact ⟨h2 ▸ hbuddy, h1 ▸ hself⟩
  have hmerge := hrep.setOrder_merge hl hboth.1 hboth.2 hk
  rw [hand, hor]
  refine ⟨s', _, hrun, hmerge, ?_, ?_, ?_, ?_, ?_, hzone, hused⟩
  · simp [Tiling.merge]
  · intro r j hr
    simp only [Tiling.merge] at hr
    split_ifs at hr with hrl hru
    · exact hrl
    · rw [hblock] at hr
      split_ifs at hr with hrb
      · rcases hcases with ⟨h1, h2⟩ | ⟨h1, h2⟩ <;> omega
      · have := honly r j hr
        rcases hcases with ⟨h1, h2⟩ | ⟨h1, h2⟩ <;> omega
  · -- the pages of the joined block are those of the two halves
    intro y
    rw [covers_succ_iff]
    rcases hcases with ⟨h1, h2⟩ | ⟨h1, h2⟩
    · rw [h2, h1]
    · rw [h2, h1]
      exact or_comm
  · intro r j
    simp only [Tiling.merge]
    have hT : ∀ r, r = l ∨ r = l + 2 ^ k → T.block r ≠ some (.used, j) := by
      intro r hr hused
      have hcase : r = p ∨ r = p ^^^ 2 ^ k := by
        rcases hcases with ⟨h1, h2⟩ | ⟨h1, h2⟩ <;> omega
      rcases hcase with rfl | rfl
      · rw [hp] at hused
        simp at hused
      · rw [hb] at hused
        simp at hused
    split_ifs with hrl hru
    · simpa using hT r (Or.inl hrl)
    · simpa using hT r (Or.inr hru)
    · rw [hblock]
      split_ifs with hrb
      · rcases hcases with ⟨h1, h2⟩ | ⟨h1, h2⟩ <;> omega
      · rfl
  · intro r j hr
    simp only [Tiling.merge] at hr
    split_ifs at hr with hrl hru
    · simp at hr
    · rw [hblock] at hr
      split_ifs at hr with hrb
      · simp at hr
      · exact hr

theorem MergesWithin.joined {U : Tiling Owner n} {p l k : ℕ} (hmax : MergesWithin T p k)
    (hk : k < maxPageOrder) (hb : T.block (p ^^^ 2 ^ k) = some (.free, k))
    (hl : U.block l = some (.hand, k + 1)) (honly : HandOnly U l)
    (hhalf : ∀ y, Covers l (k + 1) y ↔ Covers p k y ∨ Covers (p ^^^ 2 ^ k) k y)
    (hfree : ∀ r j, U.block r = some (.free, j) → T.block r = some (.free, j)) :
    MergesWithin U l (k + 1) := by
  intro b hbal hbl hloose hbuddy
  have hlp : Covers l (k + 1) p := (hhalf p).mpr (Or.inl (covers_self p k))
  refine hmax b hbal (covers_of_covers hbal (U.aligned hl) hk hbl (covers_self _ _) hlp) ?_
    (hfree _ _ hbuddy)
  have hjoined : ∀ y, Covers l (k + 1) y → Covers p k y ∨ Loose T y := by
    intro y hy
    rcases (hhalf y).mp hy with hself | hother
    · exact Or.inl hself
    · exact Or.inr ⟨_, .free, k, hb, by decide, hother⟩
  intro y hy
  rcases hloose y hy with hself | ⟨q, w, j, hq, hw, hqy⟩
  · exact hjoined y hself
  · cases w with
    | used => exact absurd rfl hw
    | free => exact Or.inr ⟨q, .free, j, hfree q j hq, by decide, hqy⟩
    | hand =>
        have hql := honly q j hq
        subst hql
        rw [hl] at hq
        cases hq
        exact hjoined y hqy

/-- The loop of `PageMerge` joins free buddies to the block in hand.  It leaves the
orders of the arrays only where a block of the largest order has a free buddy. -/
theorem pageMergeLoop (h : Represents s T) (hpages : s.maxPFN + 1 = n) {p k rounds : ℕ}
    (hrounds : rounds + k = maxPageOrder + 1) (hp : T.block p = some (.hand, k))
    (honly : HandOnly T p) :
    ∃ s' q j, Mm.pageMergeLoop rounds s p k = .ok (s', q, j) ∧
      (MergesWithin T p k → j ≤ maxPageOrder) ∧
      (j ≤ maxPageOrder → ∃ U : Tiling Owner n, Represents s' U ∧ MergedInto T U q j ∧
        SameZone s s' ∧ s'.usedPage = s.usedPage) := by
  induction rounds generalizing s T p k with
  | zero =>
      have := h.order_le hp
      omega
  | succ rounds ih =>
      have hstop : T.block (p ^^^ 2 ^ k) ≠ some (.free, k) →
          ∃ U : Tiling Owner n, Represents s U ∧ MergedInto T U p k ∧
            SameZone s s ∧ s.usedPage = s.usedPage := fun hbuddy =>
        ⟨T, h, ⟨hp, fun _ _ => Iff.rfl, honly, fun _ _ hr => hr, hbuddy⟩, SameZone.refl s, rfl⟩
      rw [Mm.pageMergeLoop]
      by_cases hvalid : isValidPFN s (p ^^^ 2 ^ k)
      · rw [if_neg (not_not.mpr hvalid)]
        have hbn : p ^^^ 2 ^ k < n := by
          unfold isValidPFN at hvalid
          omega
        by_cases horder : (s.map (p ^^^ 2 ^ k)).order = k
        · rw [if_neg (not_not.mpr horder)]
          by_cases hflag : doPageFree (s.map (p ^^^ 2 ^ k))
          · rw [if_neg (not_not.mpr hflag)]
            have hne := xor_two_pow_ne_self p k
            have hb : T.block (p ^^^ 2 ^ k) = some (.free, k) :=
              h.free_of_order_flag hbn (fun j hj => hne (honly _ j hj)) horder hflag
            by_cases hk : k < maxPageOrder
            · obtain ⟨s₁, U₁, hrun₁, hrep₁, hp₁, honly₁, hhalf₁, hused₁, hfree₁, hzone₁,
                hup₁⟩ := h.merge_round hk hp honly hb
              have hpages₁ : (s₁.setOrder ((p ^^^ 2 ^ k) ||| p) pageInvalidOrder).maxPFN + 1 = n :=
                (congrArg (· + 1) hzone₁.maxPFN).trans hpages
              obtain ⟨s₂, q, j, hrun₂, hfits₂, hrest₂⟩ := ih hrep₁ hpages₁ (by omega) hp₁ honly₁
              refine ⟨s₂, q, j, ?_, fun hmax => hfits₂ ?_, fun hj => ?_⟩
              · simp only [hrun₁, exec_ok_bind]
                exact hrun₂
              · exact hmax.joined hk hb hp₁ honly₁ hhalf₁ hfree₁
              · obtain ⟨U₂, hrep₂, hmerged, hzone₂, hup₂⟩ := hrest₂ hj
                refine ⟨U₂, hrep₂, ?_, hzone₁.trans hzone₂.of_setOrder, hup₂.trans hup₁⟩
                exact
                  { block_eq := hmerged.block_eq
                    used_iff := fun r i => (hmerged.used_iff r i).trans (hused₁ r i)
                    hand_only := hmerged.hand_only
                    free_sub := fun r i hr => hfree₁ r i (hmerged.free_sub r i hr)
                    buddy := hmerged.buddy }
            · -- two blocks of the largest order are joined in the last round
              obtain ⟨s₁, hrun₁, -⟩ := h.buddyDelPage hb
              have hlast : rounds = 0 := by omega
              rw [hlast]
              refine ⟨s₁.setOrder ((p ^^^ 2 ^ k) ||| p) pageInvalidOrder, (p ^^^ 2 ^ k) &&& p,
                k + 1, ?_, fun hmax => absurd (hmax.order_lt h hp hb) hk, ?_⟩
              · simp only [hrun₁, exec_ok_bind]
                rfl
              · intro hj
                omega
          · rw [if_pos hflag]
            exact ⟨s, p, k, rfl, fun _ => h.order_le hp,
              fun _ => hstop fun hb => hflag (h.page_ok_block hb).2⟩
        · rw [if_pos horder]
          exact ⟨s, p, k, rfl, fun _ => h.order_le hp,
            fun _ => hstop fun hb => horder (h.order_of_free hb)⟩
      · rw [if_pos hvalid]
        refine ⟨s, p, k, rfl, fun _ => h.order_le hp, fun _ => hstop fun hb => ?_⟩
        have hbn := h.lt_of_block hb
        unfold isValidPFN at hvalid
        omega

/-- `U` arises from `T` by releasing the block in use at `p`: it is free now,
possibly as part of a larger block at `q`, and its buddy there is not free. -/
structure ReleasedFrom (T U : Tiling Owner n) (p : ℕ) : Prop where
  used_iff : ∀ r j, U.block r = some (.used, j) ↔ r ≠ p ∧ T.block r = some (.used, j)
  hand_none : ∀ r j, U.block r ≠ some (.hand, j)
  free_cases : ∃ q k, U.block (q ^^^ 2 ^ k) ≠ some (.free, k) ∧
    ∀ r j, U.block r = some (.free, j) →
      T.block r = some (.free, j) ∨ (r = q ∧ j = k)

theorem pageFromPtr_pageToPtr (hstart : s.pageStart % pageSize = 0) (p : ℕ) :
    Mm.pageFromPtr s (pageToPtr s p) = .ok p := by
  have hmod : pageToPtr s p % pageSize = 0 := by
    unfold pageToPtr
    rw [Nat.add_mul_mod_self_right]
    exact hstart
  have hdiv : (pageToPtr s p - s.pageStart) / pageSize = p := by
    unfold pageToPtr
    rw [Nat.add_sub_cancel_left]
    exact Nat.mul_div_cancel p (by decide)
  unfold Mm.pageFromPtr
  rw [nxAssert_pos hmod, hdiv]
  rfl

/-- The part of `NX_BuddyFreePage` after the last reference is gone: it returns when
the merge stays within the largest order, and where it returns the block is free. -/
theorem release (h : Represents s T) (hpages : s.maxPFN + 1 = n) {p k : ℕ}
    (hp : T.block p = some (.used, k)) (hnohand : ∀ r j, T.block r ≠ some (.hand, j))
    (page : Page) (horder : page.order = k) (u : BitVec 64) :
    ∃ s₁ q, Mm.pageMerge
        { s with map := Function.update s.map p page, usedPage := u } p = .ok (q, s₁) ∧
      (MergesWithin T p k → ∃ s₂, Mm.buddyAddPage s₁ q = .ok s₂) ∧
      ∀ s₂, Mm.buddyAddPage s₁ q = .ok s₂ → ∃ U : Tiling Owner n,
        Represents s₂ U ∧ ReleasedFrom T U p ∧ SameZone s s₂ ∧ s₂.usedPage = u := by
  have hk := h.order_le hp
  have hrep := h.take_used hp page u
  have hblock := T.relabel_block .hand hp
  have hp₀ : (T.relabel p Owner.hand).block p = some (.hand, k) := by
    rw [hblock, if_pos rfl]
  have honly₀ : HandOnly (T.relabel p Owner.hand) p := by
    intro r j hr
    rw [hblock] at hr
    split_ifs at hr with hrp
    · exact hrp
    · exact absurd hr (hnohand r j)
  have hmax₀ : MergesWithin T p k → MergesWithin (T.relabel p Owner.hand) p k := by
    intro hmax b hb hbp hloose hfree
    rw [hblock] at hfree
    have hne : b ^^^ 2 ^ maxPageOrder ≠ p := by
      intro heq
      rw [if_pos heq] at hfree
      simp at hfree
    rw [if_neg hne] at hfree
    refine hmax b hb hbp ?_ hfree
    intro y hy
    rcases hloose y hy with hself | ⟨q, w, j, hq, hw, hqy⟩
    · exact Or.inl hself
    · rw [hblock] at hq
      split_ifs at hq with hqp
      · simp only [Option.some.injEq, Prod.mk.injEq] at hq
        rw [hqp, ← hq.2] at hqy
        exact Or.inl hqy
      · exact Or.inr ⟨q, w, j, hq, hw, hqy⟩
  obtain ⟨s₁, q, j, hrun₁, hfits, hrest⟩ :=
    hrep.pageMergeLoop hpages (show maxPageOrder + 1 - k + k = maxPageOrder + 1 by omega)
      hp₀ honly₀
  have horder₂ : ((s₁.setOrder q j).map q).order = j := by
    simp [BuddySystem.setOrder, BuddySystem.modifyPage]
  refine ⟨s₁.setOrder q j, q, ?_, fun hmax => ?_, fun s₂ hadd => ?_⟩
  · unfold Mm.pageMerge
    dsimp only
    rw [Function.update_self, horder, if_neg (by omega), Int.toNat_natCast]
    simp only [hrun₁, exec_ok_bind]
    rfl
  · obtain ⟨U, hrep₁, hmerged, -⟩ := hrest (hfits (hmax₀ hmax))
    have hrep₂ := hrep₁.setOrder_hand hmerged.block_eq (j : ℤ)
    obtain ⟨s₂, hrun₂, -⟩ := hrep₂.buddyAddPage hmerged.block_eq horder₂
    exact ⟨s₂, hrun₂⟩
  · have hj : j ≤ maxPageOrder := by
      by_contra hgt
      unfold Mm.buddyAddPage at hadd
      dsimp only at hadd
      rw [if_pos (by omega)] at hadd
      cases hadd
    obtain ⟨U, hrep₁, hmerged, hzone₁, hused₁⟩ := hrest hj
    have hrep₂ := hrep₁.setOrder_hand hmerged.block_eq (j : ℤ)
    obtain ⟨s₃, hrun₂, hrep₃, hzone₂, hused₂, -⟩ :=
      hrep₂.buddyAddPage hmerged.block_eq horder₂
    rw [hadd] at hrun₂
    cases hrun₂
    have hfinal := U.relabel_block .free hmerged.block_eq
    have hzone : SameZone s s₂ :=
      SameZone.trans ⟨hzone₁.pageStart, hzone₁.maxPFN⟩ hzone₂.of_setOrder
    refine ⟨U.relabel q .free, hrep₃, ?_, hzone, hused₂.trans hused₁⟩
    constructor
    · intro r i
      rw [hfinal]
      split_ifs with hrq
      · have hU := hmerged.used_iff q i
        rw [hmerged.block_eq, hblock] at hU
        simp only [Option.some.injEq, Prod.mk.injEq, reduceCtorEq, false_and,
          false_iff] at hU ⊢
        rw [hrq]
        rintro ⟨hne, hused⟩
        rw [if_neg hne] at hU
        exact hU hused
      · rw [hmerged.used_iff, hblock]
        split_ifs with hrp
        · simp [hrp]
        · simp [hrp]
    · intro r i hr
      rw [hfinal] at hr
      split_ifs at hr with hrq
      · simp at hr
      · exact hrq (hmerged.hand_only r i hr)
    · refine ⟨q, j, ?_, ?_⟩
      · rw [hfinal, if_neg (xor_two_pow_ne_self q j)]
        exact hmerged.buddy
      · intro r i hr
        rw [hfinal] at hr
        split_ifs at hr with hrq
        · simp only [Option.some.injEq, Prod.mk.injEq, true_and] at hr
          exact Or.inr ⟨hrq, hr.symm⟩
        · have hT := hmerged.free_sub r i hr
          rw [hblock] at hT
          split_ifs at hT with hrp
          · simp at hT
          · exact Or.inl hT

/-- `NX_BuddyFreePage` on a block in use comes down to its count and its release. -/
theorem buddyFreePage_eq (h : Represents s T) (hpages : s.maxPFN + 1 = n)
    (hstart : s.pageStart % pageSize = 0) (hnz : s.pageStart ≠ 0) {p k : ℕ}
    (hp : T.block p = some (.used, k)) :
    Mm.buddyFreePage s (pageToPtr s p) =
      if 1 < (s.map p).reference then
        .ok (.eagain, s.setReference p ((s.map p).reference - 1))
      else do
        let (page, s') ← Mm.pageMerge
          { s.setReference p ((s.map p).reference - 1) with
            usedPage := s.usedPage - BitVec.ofNat 64 (2 ^ k) } p
        let s' ← Mm.buddyAddPage s' page
        return (.eok, s') := by
  have hok := h.page_ok_block hp
  have hpn := h.lt_of_block hp
  have hvalid : ¬pageInvalidAddr s (pageToPtr s p) := by
    unfold pageInvalidAddr pageToPtr
    have hmul : p * pageSize ≤ s.maxPFN * pageSize :=
      Nat.mul_le_mul_right _ (by omega)
    omega
  have hptr : pageToPtr s p ≠ 0 := by
    unfold pageToPtr
    omega
  have href : 0 < (s.map p).reference := hok.2.2
  have hself : ((s.setReference p ((s.map p).reference - 1)).map p) =
      { s.map p with reference := (s.map p).reference - 1 } := by
    simp [BuddySystem.setReference, BuddySystem.modifyPage]
  have hcount : (0 < (s.map p).reference - 1) = (1 < (s.map p).reference) := by
    apply propext
    omega
  unfold Mm.buddyFreePage
  simp only [nxAssert_pos hptr, exec_ok_bind, if_neg hvalid, pageFromPtr_pageToPtr hstart,
    if_neg hok.2.1, nxAssert_pos href, hself, hcount, hok.1, ofInt_nxPowInt]
  rfl

/-- `NX_BuddyFreePage` on a block in use, where it returns: with further references it
only counts down, otherwise it releases the block. -/
theorem buddyFreePage_of_ok (h : Represents s T) (hpages : s.maxPFN + 1 = n)
    (hstart : s.pageStart % pageSize = 0) (hnz : s.pageStart ≠ 0) {p k : ℕ}
    (hp : T.block p = some (.used, k)) (hnohand : ∀ r j, T.block r ≠ some (.hand, j))
    {err : NxError} {s' : BuddySystem}
    (hrun : Mm.buddyFreePage s (pageToPtr s p) = .ok (err, s')) :
    (1 < (s.map p).reference ∧ err = .eagain ∧
      s' = s.setReference p ((s.map p).reference - 1) ∧ Represents s' T) ∨
    ((s.map p).reference = 1 ∧ err = .eok ∧ ∃ U : Tiling Owner n,
      Represents s' U ∧ ReleasedFrom T U p ∧ SameZone s s' ∧
      s'.usedPage = s.usedPage - BitVec.ofNat 64 (2 ^ k)) := by
  have hok := h.page_ok_block hp
  have href : 0 < (s.map p).reference := hok.2.2
  rw [h.buddyFreePage_eq hpages hstart hnz hp] at hrun
  by_cases hmore : 1 < (s.map p).reference
  · rw [if_pos hmore] at hrun
    cases hrun
    exact .inl ⟨hmore, rfl, rfl, h.setReference_used hp (by omega)⟩
  · obtain ⟨s₁, q, hmerge, -, hadded⟩ := h.release hpages hp hnohand
      { s.map p with reference := (s.map p).reference - 1 } hok.1
      (s.usedPage - BitVec.ofNat 64 (2 ^ k))
    rw [if_neg hmore] at hrun
    simp only [BuddySystem.setReference, BuddySystem.modifyPage, hmerge, exec_ok_bind] at hrun
    obtain ⟨s₂, hadd, hlast⟩ := exec_bind_eq_ok_iff.mp hrun
    cases hlast
    exact .inr ⟨by omega, rfl, hadded _ hadd⟩

/-- `NX_BuddyFreePage` on a block in use returns when its merge stays within the
largest order. -/
theorem buddyFreePage (h : Represents s T) (hpages : s.maxPFN + 1 = n)
    (hstart : s.pageStart % pageSize = 0) (hnz : s.pageStart ≠ 0) {p k : ℕ}
    (hmax : (s.map p).reference = 1 → MergesWithin T p k)
    (hp : T.block p = some (.used, k)) (hnohand : ∀ r j, T.block r ≠ some (.hand, j)) :
    (1 < (s.map p).reference ∧
      Mm.buddyFreePage s (pageToPtr s p) =
        .ok (.eagain, s.setReference p ((s.map p).reference - 1)) ∧
      Represents (s.setReference p ((s.map p).reference - 1)) T) ∨
    ((s.map p).reference = 1 ∧
      ∃ s' U, Mm.buddyFreePage s (pageToPtr s p) = .ok (.eok, s') ∧
        Represents s' (U : Tiling Owner n) ∧ ReleasedFrom T U p ∧
        SameZone s s' ∧ s'.usedPage = s.usedPage - BitVec.ofNat 64 (2 ^ k)) := by
  have hok := h.page_ok_block hp
  have href : 0 < (s.map p).reference := hok.2.2
  have hreturns : ∃ err s', Mm.buddyFreePage s (pageToPtr s p) = .ok (err, s') := by
    rw [h.buddyFreePage_eq hpages hstart hnz hp]
    by_cases hmore : 1 < (s.map p).reference
    · rw [if_pos hmore]
      exact ⟨_, _, rfl⟩
    · obtain ⟨s₁, q, hmerge, hfits, -⟩ := h.release hpages hp hnohand
        { s.map p with reference := (s.map p).reference - 1 } hok.1
        (s.usedPage - BitVec.ofNat 64 (2 ^ k))
      obtain ⟨s₂, hadd⟩ := hfits (hmax (by omega))
      rw [if_neg hmore]
      simp only [BuddySystem.setReference, BuddySystem.modifyPage, hmerge, exec_ok_bind, hadd]
      exact ⟨_, _, rfl⟩
  obtain ⟨err, s', hrun⟩ := hreturns
  rcases h.buddyFreePage_of_ok hpages hstart hnz hp hnohand hrun with
    ⟨hmore, rfl, rfl, hrep⟩ | ⟨hone, rfl, U, hrest⟩
  · exact .inl ⟨hmore, hrun, hrep⟩
  · exact .inr ⟨hone, s', U, hrun, hrest⟩

/-- `NX_BuddyIncreasePage` on a block in use counts up. -/
theorem buddyIncreasePage (h : Represents s T) (hpages : s.maxPFN + 1 = n)
    (hstart : s.pageStart % pageSize = 0) (hnz : s.pageStart ≠ 0) {p k : ℕ}
    (hp : T.block p = some (.used, k)) :
    Mm.buddyIncreasePage s (pageToPtr s p) =
        .ok (.eok, s.setReference p ((s.map p).reference + 1)) ∧
      Represents (s.setReference p ((s.map p).reference + 1)) T := by
  have hok := h.page_ok_block hp
  have hpn := h.lt_of_block hp
  have hvalid : ¬(pageToPtr s p < s.pageStart ∨
      s.pageStart + (s.maxPFN + 1) * pageSize ≤ pageToPtr s p) := by
    have hmul : p * pageSize < (s.maxPFN + 1) * pageSize :=
      Nat.mul_lt_mul_of_pos_right (by omega) (by decide)
    unfold pageToPtr
    omega
  have hptr : pageToPtr s p ≠ 0 := by
    unfold pageToPtr
    omega
  have href : 0 < (s.map p).reference := hok.2.2
  refine ⟨?_, h.setReference_used hp (by omega)⟩
  unfold Mm.buddyIncreasePage
  simp only [nxAssert_pos hptr, exec_ok_bind, if_neg hvalid,
    pageFromPtr_pageToPtr hstart]
  rfl

end Represents

end Nxos.Mm
