import Nxos.Mm.Buddy.Model
import Nxos.Support.Dyadic

/-!
# The block structure behind a buddy system

The abstract state of the allocator is a labelled dyadic tiling of its pages: a
block is free, in use, or in the hands of the operation that is running.
`Represents s T` says that the lists, counters, bitmap, page orders and flags of
`s` describe the tiling `T`.  Each primitive of `mm/buddy.c` is shown to move
from a represented tiling to another one; the operations are assembled from
these steps.

The order stored at the head of a block in hand is left open, because
`PageSplit` and `PageMerge` write it only after their loop.
-/

namespace Nxos.Mm

open Nxos.Dyadic

inductive Owner where
  | free
  | used
  | hand
  deriving DecidableEq, Repr

/-- What a page's descriptor says when `block` starts at the page. -/
def PageOk (page : Page) : Option (Owner × ℕ) → Prop
  | none => page.order < 0
  | some (.free, k) => page.order = k ∧ doPageFree page
  | some (.used, k) => page.order = k ∧ ¬doPageFree page ∧ 0 < page.reference
  | some (.hand, _) => True

structure SameZone (s s' : BuddySystem) : Prop where
  pageStart : s'.pageStart = s.pageStart
  maxPFN : s'.maxPFN = s.maxPFN

theorem SameZone.refl (s : BuddySystem) : SameZone s s :=
  ⟨rfl, rfl⟩

theorem SameZone.trans {s t u : BuddySystem} (h : SameZone s t) (h' : SameZone t u) :
    SameZone s u :=
  ⟨h'.pageStart.trans h.pageStart, h'.maxPFN.trans h.maxPFN⟩

theorem SameZone.of_setOrder {s t : BuddySystem} {p : ℕ} {order : ℤ}
    (h : SameZone (s.setOrder p order) t) : SameZone s t :=
  ⟨h.pageStart, h.maxPFN⟩

/-- The buddy system `s` describes the blocks of `T`.  The range of `T` is the
zone, except while the zone is being built. -/
structure Represents (s : BuddySystem) {n : ℕ} (T : Tiling Owner n) : Prop where
  order_le : ∀ {p w k}, T.block p = some (w, k) → k ≤ maxPageOrder
  page_ok : ∀ p, p < n → PageOk (s.map p) (T.block p)
  mem_list : ∀ {p k}, p ∈ s.pageBuddy k ↔ T.block p = some (.free, k)
  nodup : ∀ k, (s.pageBuddy k).Nodup
  count_eq : ∀ k, s.count k = (s.pageBuddy k).length
  bitmap_iff : ∀ k, s.bitmap.getLsbD k = true ↔ s.pageBuddy k ≠ []

/-! ## Flags and bitmap words -/

theorem doPageFree_setFlag (f : BitVec 32) (o r : ℤ) :
    doPageFree ⟨f ||| pageFlagIsFree, o, r⟩ := by
  intro h
  have hbit := congrArg (fun v : BitVec 32 => v.getLsbD 0) h
  simp [pageFlagIsFree] at hbit

theorem not_doPageFree_clearFlag (f : BitVec 32) (o r : ℤ) :
    ¬doPageFree ⟨f &&& ~~~pageFlagIsFree, o, r⟩ := by
  unfold doPageFree
  rw [not_not]
  dsimp only
  rw [BitVec.and_assoc]
  have hmask : ~~~pageFlagIsFree &&& pageFlagIsFree = 0 := by decide
  rw [hmask]
  exact BitVec.and_zero

theorem getLsbD_setBit {b : BitVec 64} {k : ℕ} (hk : k < 64) (j : ℕ) :
    (b ||| (1#64 <<< k)).getLsbD j = true ↔ b.getLsbD j = true ∨ j = k := by
  rw [BitVec.getLsbD_or, BitVec.getLsbD_shiftLeft, BitVec.getLsbD_one]
  by_cases hjk : j = k
  · subst j
    simp [hk]
  · by_cases hlt : j < k
    · simp [hlt, hjk]
    · have hne : j - k ≠ 0 := by omega
      simp [hne, hjk]

theorem getLsbD_clearBit {b : BitVec 64} {k : ℕ} (hk : k < 64) (j : ℕ) :
    (b &&& ~~~(1#64 <<< k)).getLsbD j = true ↔ b.getLsbD j = true ∧ j ≠ k := by
  rw [BitVec.getLsbD_and, BitVec.getLsbD_not, BitVec.getLsbD_shiftLeft,
    BitVec.getLsbD_one]
  by_cases hj : j < 64
  · by_cases hjk : j = k
    · subst j
      simp [hk]
    · by_cases hlt : j < k
      · simp [hj, hlt, hjk]
      · have hne : j - k ≠ 0 := by omega
        simp [hj, hne, hjk]
  · have hb : b.getLsbD j = false := BitVec.getLsbD_of_ge b j (by omega)
    simp [hb]

namespace Represents

variable {s : BuddySystem} {n : ℕ} {T : Tiling Owner n}

theorem list_empty_of_gt (h : Represents s T) {k : ℕ} (hk : maxPageOrder < k) :
    s.pageBuddy k = [] := by
  apply List.eq_nil_iff_forall_not_mem.mpr
  intro p hp
  have := h.order_le (h.mem_list.mp hp)
  omega

theorem lt_of_block (_h : Represents s T) {p k : ℕ} {w : Owner}
    (hp : T.block p = some (w, k)) : p < n := by
  have hin := T.inside hp
  have hpos := Nat.two_pow_pos k
  omega

theorem page_ok_block (h : Represents s T) {p k : ℕ} {w : Owner}
    (hp : T.block p = some (w, k)) : PageOk (s.map p) (some (w, k)) :=
  hp ▸ h.page_ok p (h.lt_of_block hp)

theorem order_of_free (h : Represents s T) {p k : ℕ}
    (hp : T.block p = some (.free, k)) : (s.map p).order = k :=
  (h.page_ok_block hp).1

theorem order_of_used (h : Represents s T) {p k : ℕ}
    (hp : T.block p = some (.used, k)) : (s.map p).order = k :=
  (h.page_ok_block hp).1

/-- A page with a non-negative order and the free flag is the head of a free
block; a block in hand is the only exception. -/
theorem free_of_order_flag (h : Represents s T) {p k : ℕ} (hp : p < n)
    (hhand : ∀ j, T.block p ≠ some (.hand, j))
    (hk : (s.map p).order = k) (hflag : doPageFree (s.map p)) :
    T.block p = some (.free, k) := by
  have hok := h.page_ok p hp
  cases hb : T.block p with
  | none =>
      have hneg : (s.map p).order < 0 := by
        rw [hb] at hok
        exact hok
      omega
  | some b =>
      obtain ⟨w, j⟩ := b
      rw [hb] at hok
      cases w with
      | free =>
          have hjk : j = k := by
            have := hok.1
            omega
          rw [hjk]
      | used => exact absurd hflag hok.2.1
      | hand => exact absurd hb (hhand j)

/-! ## Taking a block from its list -/

/-- `BuddyDelPage` on a free block takes it in hand and clears its flag.  The
rest of the page map stays as it is. -/
theorem buddyDelPage (h : Represents s T) {p k : ℕ}
    (hp : T.block p = some (.free, k)) :
    ∃ s', Mm.buddyDelPage s p = .ok s' ∧ Represents s' (T.relabel p .hand) ∧
      SameZone s s' ∧ s'.usedPage = s.usedPage ∧
      s'.map = Function.update s.map p
        { s.map p with flags := (s.map p).flags &&& ~~~pageFlagIsFree } := by
  have hk := h.order_le hp
  have horder := h.order_of_free hp
  have hmem : p ∈ s.pageBuddy k := h.mem_list.mpr hp
  have hother : ∀ j, j ≠ k → (s.pageBuddy j).erase p = s.pageBuddy j := by
    intro j hj
    apply List.erase_of_not_mem
    intro hin
    have heq := h.mem_list.mp hin
    rw [hp] at heq
    simp only [Option.some.injEq, Prod.mk.injEq] at heq
    exact hj heq.2.symm
  have hcond : ¬((s.map p).order < 0 ∨ (maxPageOrder : ℤ) < (s.map p).order) := by
    rw [horder]
    omega
  have hrun : Mm.buddyDelPage s p = .ok
      { pageBuddy := fun j => (s.pageBuddy j).erase p
        count := Function.update s.count k (s.count k - 1)
        bitmap := if (s.pageBuddy k).erase p = [] then s.bitmap &&& ~~~(1#64 <<< k)
          else s.bitmap
        pageStart := s.pageStart
        maxPFN := s.maxPFN
        usedPage := s.usedPage
        map := Function.update s.map p
          { s.map p with flags := (s.map p).flags &&& ~~~pageFlagIsFree } } := by
    unfold Mm.buddyDelPage
    rw [if_neg hcond, horder]
    rfl
  refine ⟨_, hrun, ?_, ⟨rfl, rfl⟩, rfl, rfl⟩
  have hblock := T.relabel_block .hand hp
  constructor
  · intro q w j hq
    rw [hblock] at hq
    split_ifs at hq with hqp
    · simp only [Option.some.injEq, Prod.mk.injEq] at hq
      omega
    · exact h.order_le hq
  · intro q hq
    dsimp only
    rw [hblock]
    by_cases hqp : q = p
    · rw [if_pos hqp]
      trivial
    · rw [if_neg hqp, Function.update_of_ne hqp]
      exact h.page_ok q hq
  · intro q j
    dsimp only
    rw [hblock]
    by_cases hqp : q = p
    · subst q
      simp only [if_pos, Option.some.injEq, Prod.mk.injEq, reduceCtorEq, false_and,
        iff_false]
      exact (h.nodup j).not_mem_erase
    · rw [if_neg hqp, List.mem_erase_of_ne hqp]
      exact h.mem_list
  · intro j
    exact (h.nodup j).erase p
  · intro j
    dsimp only
    by_cases hjk : j = k
    · subst j
      rw [Function.update_self, List.length_erase_of_mem hmem, h.count_eq]
    · rw [Function.update_of_ne hjk, hother j hjk, h.count_eq]
  · intro j
    dsimp only
    have hk64 : k < 64 := by unfold maxPageOrder at hk; omega
    by_cases hjk : j = k
    · subst j
      by_cases hempty : (s.pageBuddy k).erase p = []
      · rw [if_pos hempty, getLsbD_clearBit hk64]
        simp [hempty]
      · rw [if_neg hempty]
        have hne : s.pageBuddy k ≠ [] := List.ne_nil_of_mem hmem
        simp [h.bitmap_iff, hne, hempty]
    · rw [hother j hjk]
      split_ifs with hempty
      · rw [getLsbD_clearBit hk64]
        simp [h.bitmap_iff, hjk]
      · exact h.bitmap_iff j

/-! ## Putting a block on its list -/

/-- `BuddyAddPage` on a block in hand whose order is stored makes it free. -/
theorem buddyAddPage (h : Represents s T) {p k : ℕ}
    (hp : T.block p = some (.hand, k)) (horder : (s.map p).order = k) :
    ∃ s', Mm.buddyAddPage s p = .ok s' ∧ Represents s' (T.relabel p .free) ∧
      SameZone s s' ∧ s'.usedPage = s.usedPage ∧
      ∀ q, q ≠ p → s'.map q = s.map q := by
  have hk := h.order_le hp
  have hnotin : ∀ j, p ∉ s.pageBuddy j := by
    intro j hin
    have := h.mem_list.mp hin
    rw [hp] at this
    simp at this
  have hcond : ¬((s.map p).order < 0 ∨ (maxPageOrder : ℤ) < (s.map p).order) := by
    rw [horder]
    omega
  have hrun : Mm.buddyAddPage s p = .ok
      { pageBuddy := Function.update s.pageBuddy k (s.pageBuddy k ++ [p])
        count := Function.update s.count k (s.count k + 1)
        bitmap := s.bitmap ||| (1#64 <<< k)
        pageStart := s.pageStart
        maxPFN := s.maxPFN
        usedPage := s.usedPage
        map := Function.update s.map p
          { s.map p with flags := (s.map p).flags ||| pageFlagIsFree } } := by
    unfold Mm.buddyAddPage
    rw [if_neg hcond, horder]
    rfl
  refine ⟨_, hrun, ?_, ⟨rfl, rfl⟩, rfl,
    fun q hq => by dsimp only; rw [Function.update_of_ne hq]⟩
  have hblock := T.relabel_block .free hp
  constructor
  · intro q w j hq
    rw [hblock] at hq
    split_ifs at hq with hqp
    · simp only [Option.some.injEq, Prod.mk.injEq] at hq
      omega
    · exact h.order_le hq
  · intro q hq
    dsimp only
    rw [hblock]
    by_cases hqp : q = p
    · subst q
      rw [if_pos rfl, Function.update_self]
      exact ⟨horder, doPageFree_setFlag _ _ _⟩
    · rw [if_neg hqp, Function.update_of_ne hqp]
      exact h.page_ok q hq
  · intro q j
    dsimp only
    rw [hblock]
    by_cases hjk : j = k
    · subst j
      rw [Function.update_self, List.mem_append, List.mem_singleton]
      by_cases hqp : q = p
      · simp [hqp]
      · simp [hqp, h.mem_list]
    · rw [Function.update_of_ne hjk]
      by_cases hqp : q = p
      · subst q
        simp only [if_pos, Option.some.injEq, Prod.mk.injEq, true_and]
        constructor
        · intro hin
          exact absurd hin (hnotin j)
        · intro heq
          exact absurd heq.symm hjk
      · rw [if_neg hqp]
        exact h.mem_list
  · intro j
    dsimp only
    by_cases hjk : j = k
    · subst j
      rw [Function.update_self, List.nodup_append]
      refine ⟨h.nodup k, by simp, ?_⟩
      rintro q hq r hr rfl
      rw [List.mem_singleton] at hr
      exact hnotin k (hr ▸ hq)
    · rw [Function.update_of_ne hjk]
      exact h.nodup j
  · intro j
    dsimp only
    by_cases hjk : j = k
    · subst j
      simp [h.count_eq]
    · rw [Function.update_of_ne hjk, Function.update_of_ne hjk, h.count_eq]
  · intro j
    dsimp only
    rw [getLsbD_setBit (by unfold maxPageOrder at hk; omega)]
    by_cases hjk : j = k
    · subst j
      simp
    · rw [Function.update_of_ne hjk]
      simp [h.bitmap_iff, hjk]

/-! ## Writing page descriptors -/

/-- Rewriting descriptors and blocks in hand: the lists stay as they are, so
the free blocks have to stay, and every page has to agree with its new block. -/
theorem of_map (h : Represents s T) {U : Tiling Owner n} {m : ℕ → Page} {u : BitVec 64}
    (hfree : ∀ {q k}, U.block q = some (.free, k) ↔ T.block q = some (.free, k))
    (hle : ∀ {q w k}, U.block q = some (w, k) → k ≤ maxPageOrder)
    (hok : ∀ q, q < n → PageOk (m q) (U.block q)) :
    Represents { s with map := m, usedPage := u } U where
  order_le := hle
  page_ok := hok
  mem_list := h.mem_list.trans hfree.symm
  nodup := h.nodup
  count_eq := h.count_eq
  bitmap_iff := h.bitmap_iff

/-- Writing the order of the upper half cuts a block in hand in two. -/
theorem setOrder_split (h : Represents s T) {p k : ℕ}
    (hp : T.block p = some (.hand, k + 1)) :
    Represents (s.setOrder (p + 2 ^ k) k) (T.split p k .hand .hand ⟨.hand, hp⟩) := by
  have hpos := Nat.two_pow_pos k
  have hk := h.order_le hp
  have hupper : T.block (p + 2 ^ k) = none :=
    T.block_none_of_covers hp
      (covers_succ_iff.mpr (Or.inr (covers_self _ _))) (by omega)
  apply h.of_map
  · intro q j
    simp only [Tiling.split]
    split_ifs with hqp hqu
    · simp [hqp, hp]
    · simp [hqu, hupper]
    · rfl
  · intro q w j hq
    simp only [Tiling.split] at hq
    split_ifs at hq with hqp hqu
    · simp only [Option.some.injEq, Prod.mk.injEq] at hq
      omega
    · simp only [Option.some.injEq, Prod.mk.injEq] at hq
      omega
    · exact h.order_le hq
  · intro q hq
    simp only [Tiling.split]
    split_ifs with hqp hqu
    · trivial
    · trivial
    · rw [Function.update_of_ne hqu]
      exact h.page_ok q hq

/-- Clearing the order of the upper half joins two halves in hand. -/
theorem setOrder_merge (h : Represents s T) {p k : ℕ} (hal : 2 ^ (k + 1) ∣ p)
    (hlow : T.block p = some (.hand, k)) (hup : T.block (p + 2 ^ k) = some (.hand, k))
    (hk : k < maxPageOrder) :
    Represents (s.setOrder (p + 2 ^ k) pageInvalidOrder)
      (T.merge p k .hand hal ⟨.hand, hlow⟩ ⟨.hand, hup⟩) := by
  apply h.of_map
  · intro q j
    simp only [Tiling.merge]
    split_ifs with hqp hqu
    · simp [hqp, hlow]
    · simp [hqu, hup]
    · rfl
  · intro q w j hq
    simp only [Tiling.merge] at hq
    split_ifs at hq with hqp hqu
    · simp only [Option.some.injEq, Prod.mk.injEq] at hq
      omega
    · exact h.order_le hq
  · intro q hq
    simp only [Tiling.merge]
    split_ifs with hqp hqu
    · trivial
    · rw [hqu, Function.update_self]
      exact Int.negSucc_lt_zero 0
    · rw [Function.update_of_ne hqu]
      exact h.page_ok q hq

theorem take_used (h : Represents s T) {p k : ℕ}
    (hp : T.block p = some (.used, k)) (page : Page) (u : BitVec 64) :
    Represents { s with map := Function.update s.map p page, usedPage := u }
      (T.relabel p .hand) := by
  have hblock := T.relabel_block .hand hp
  apply h.of_map
  · intro q j
    rw [hblock]
    split_ifs with hqp
    · simp [hqp, hp]
    · rfl
  · intro q w j hq
    rw [hblock] at hq
    split_ifs at hq with hqp
    · simp only [Option.some.injEq, Prod.mk.injEq] at hq
      have := h.order_le hp
      omega
    · exact h.order_le hq
  · intro q hq
    rw [hblock]
    split_ifs with hqp
    · trivial
    · rw [Function.update_of_ne hqp]
      exact h.page_ok q hq

theorem hand_out (h : Represents s T) {p k : ℕ}
    (hp : T.block p = some (.hand, k)) (page : Page) (u : BitVec 64)
    (horder : page.order = k) (hflag : ¬doPageFree page) (href : 0 < page.reference) :
    Represents { s with map := Function.update s.map p page, usedPage := u }
      (T.relabel p .used) := by
  have hblock := T.relabel_block .used hp
  apply h.of_map
  · intro q j
    rw [hblock]
    split_ifs with hqp
    · simp [hqp, hp]
    · rfl
  · intro q w j hq
    rw [hblock] at hq
    split_ifs at hq with hqp
    · simp only [Option.some.injEq, Prod.mk.injEq] at hq
      have := h.order_le hp
      omega
    · exact h.order_le hq
  · intro q hq
    rw [hblock]
    split_ifs with hqp
    · rw [hqp, Function.update_self]
      exact ⟨horder, hflag, href⟩
    · rw [Function.update_of_ne hqp]
      exact h.page_ok q hq

theorem setOrder_hand (h : Represents s T) {p k : ℕ}
    (hp : T.block p = some (.hand, k)) (order : ℤ) :
    Represents (s.setOrder p order) T := by
  apply h.of_map
  · exact Iff.rfl
  · exact h.order_le
  · intro q hq
    by_cases hqp : q = p
    · rw [hqp, hp]
      trivial
    · rw [Function.update_of_ne hqp]
      exact h.page_ok q hq

/-- Changing the reference count of a block in use to another positive one. -/
theorem setReference_used (h : Represents s T) {p k : ℕ}
    (hp : T.block p = some (.used, k)) {r : ℤ} (hr : 0 < r) :
    Represents (s.setReference p r) T := by
  apply h.of_map
  · exact Iff.rfl
  · exact h.order_le
  · intro q hq
    by_cases hqp : q = p
    · have hok := h.page_ok_block hp
      rw [hqp, hp, Function.update_self]
      exact ⟨hok.1, hok.2.1, hr⟩
    · rw [Function.update_of_ne hqp]
      exact h.page_ok q hq

end Represents

end Nxos.Mm
