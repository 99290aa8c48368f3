import Nxos.Arch.Riscv64.Session

/-!
# The pages of the user part

The tables of a process begin as a copy of those of the kernel; its own pages lie from
the page `base` on.  A leaf there is never one of the tables, and its page has at least
as many references as there are leaves that lead to it.  Pages without references are
therefore in no use by the process, and `NX_PageAlloc` may hand them out.
-/

namespace Nxos.Riscv64

open Nxos.Radix

variable {zone : ℕ → Bool} {platform : Platform} {root base : ℕ} {σ τ : MmuState}
variable {f : ℕ → Option ℕ}

/-! ## Counting leaves -/

theorem rangeTargets_append (f : ℕ → Option ℕ) (start n m : ℕ) :
    rangeTargets f start (n + m) = rangeTargets f start n ++ rangeTargets f (start + n) m := by
  unfold rangeTargets
  rw [List.range_add, List.filterMap_append, List.filterMap_map]
  refine congrArg (_ ++ ·) (List.filterMap_congr fun k _ => ?_)
  exact congrArg f (Nat.add_assoc start n k).symm

theorem rangeTargets_congr {f g : ℕ → Option ℕ} {start n : ℕ}
    (h : ∀ k < n, f (start + k) = g (start + k)) :
    rangeTargets f start n = rangeTargets g start n :=
  List.filterMap_congr fun k hk => h k (List.mem_range.mp hk)

theorem mem_rangeTargets {start n p : ℕ} :
    p ∈ rangeTargets f start n ↔ ∃ k < n, f (start + k) = some p := by
  unfold rangeTargets
  simp only [List.mem_filterMap, List.mem_range]

theorem rangeTargets_eq_nil {start n : ℕ} (h : ∀ k < n, f (start + k) = none) :
    rangeTargets f start n = [] := by
  apply List.eq_nil_iff_forall_not_mem.mpr
  intro p hp
  obtain ⟨k, hk, hkp⟩ := mem_rangeTargets.mp hp
  rw [h k hk] at hkp
  cases hkp

theorem rangeTargets_some {start n : ℕ} {g : ℕ → ℕ}
    (h : ∀ k < n, f (start + k) = some (g k)) :
    rangeTargets f start n = (List.range n).map g := by
  unfold rangeTargets
  rw [← List.filterMap_eq_map]
  exact List.filterMap_congr fun k hk => h k (List.mem_range.mp hk)

/-- The leaves from `base` on that lead to a page. -/
def userCount (base : ℕ) (f : ℕ → Option ℕ) (p : ℕ) : ℕ :=
  (rangeTargets f base (2 ^ 27 - base)).count p

theorem userCount_split {first n : ℕ} (hbase : base ≤ first) (hend : first + n ≤ 2 ^ 27)
    (f : ℕ → Option ℕ) (p : ℕ) :
    userCount base f p = (rangeTargets f base (first - base)).count p +
      (rangeTargets f first n).count p +
      (rangeTargets f (first + n) (2 ^ 27 - (first + n))).count p := by
  have hlen : 2 ^ 27 - base = first - base + (n + (2 ^ 27 - (first + n))) := by omega
  have hfirst : base + (first - base) = first := by omega
  unfold userCount
  rw [hlen, rangeTargets_append, rangeTargets_append, hfirst, List.count_append,
    List.count_append, Nat.add_assoc]

theorem userCount_setRange {first n : ℕ} (hbase : base ≤ first) (hend : first + n ≤ 2 ^ 27)
    (f g : ℕ → Option ℕ) (p : ℕ) :
    userCount base (setRange f first n g) p + (rangeTargets f first n).count p =
      userCount base f p + (rangeTargets (setRange f first n g) first n).count p := by
  have hbefore : rangeTargets (setRange f first n g) base (first - base) =
      rangeTargets f base (first - base) :=
    rangeTargets_congr fun k hk => setRange_outside _ _ (by omega)
  have hafter : rangeTargets (setRange f first n g) (first + n) (2 ^ 27 - (first + n)) =
      rangeTargets f (first + n) (2 ^ 27 - (first + n)) :=
    rangeTargets_congr fun k hk => setRange_outside _ _ (by omega)
  rw [userCount_split hbase hend, userCount_split hbase hend f, hbefore, hafter]
  omega

theorem userCount_add {first n : ℕ} (hbase : base ≤ first) (hend : first + n ≤ 2 ^ 27)
    (hfree : ∀ k < n, f (first + k) = none) (g : ℕ → ℕ) (p : ℕ) :
    userCount base (setRange f first n fun k => some (g k)) p =
      userCount base f p + ((List.range n).map g).count p := by
  have hcount := userCount_setRange hbase hend f (fun k => some (g k)) p
  rw [rangeTargets_eq_nil hfree, rangeTargets_some fun k hk => setRange_inside f first _ hk,
    List.count_nil, Nat.add_zero] at hcount
  exact hcount

theorem userCount_clear {first n : ℕ} (hbase : base ≤ first) (hend : first + n ≤ 2 ^ 27)
    (f : ℕ → Option ℕ) (p : ℕ) :
    userCount base (setRange f first n fun _ => none) p + (rangeTargets f first n).count p =
      userCount base f p := by
  have hcount := userCount_setRange hbase hend f (fun _ => none) p
  rw [rangeTargets_eq_nil fun k hk => setRange_inside f first _ hk, List.count_nil,
    Nat.add_zero] at hcount
  exact hcount

theorem userCount_pos {v p : ℕ} (hbase : base ≤ v) (hv : v < 2 ^ 27) (h : f v = some p) :
    0 < userCount base f p := by
  apply List.count_pos_iff.mpr
  refine mem_rangeTargets.mpr ⟨v - base, by omega, ?_⟩
  rw [← h]
  exact congrArg f (by omega)

theorem userCount_eq_zero {p : ℕ} (h : ∀ v, base ≤ v → v < 2 ^ 27 → f v ≠ some p) :
    userCount base f p = 0 := by
  apply List.count_eq_zero_of_not_mem
  intro hp
  obtain ⟨k, hk, hkp⟩ := mem_rangeTargets.mp hp
  exact h (base + k) (by omega) (by omega) hkp

/-- Clearing a range that was written into a free one gives the old record back. -/
theorem setRange_cancel {first n : ℕ} (h : ∀ k < n, f (first + k) = none)
    (g : ℕ → Option ℕ) :
    setRange (setRange f first n g) first n (fun _ => none) = f := by
  funext p
  unfold setRange
  by_cases hp : first ≤ p ∧ p < first + n
  · rw [if_pos hp, ← h (p - first) (by omega)]
    exact congrArg f (by omega)
  · rw [if_neg hp, if_neg hp]

/-! ## Leaves and references -/

/-- What holds of the leaves `f` of the user part under the tables and the references
of a state. -/
structure LeafInv (zone : ℕ → Bool) (root base : ℕ) (f : ℕ → Option ℕ) (σ : MmuState) :
    Prop where
  leaf : ∀ {v p}, base ≤ v → v < 2 ^ 27 → f v = some p → p ≠ 0 ∧ ¬σ.IsTable root p
  refs : ∀ {p}, zone p = true → userCount base f p ≤ σ.reference p

/-- The pages that `NX_PageAlloc` hands out are free: they have no references and are not
in use as tables. -/
structure FreeSupply (zone : ℕ → Bool) (root : ℕ) (σ : MmuState) : Prop where
  nodup : σ.supply.Nodup
  free : ∀ {p}, p ∈ σ.supply →
    p ≠ 0 ∧ p < 2 ^ 28 ∧ zone p = true ∧ ¬σ.IsTable root p ∧ σ.reference p = 0

theorem FreeSupply.freshSupply (h : FreeSupply zone root σ) : FreshSupply zone root σ where
  nodup := h.nodup
  fresh p hp := by
    obtain ⟨hne, hlt, hzone, htable, -⟩ := h.free hp
    exact ⟨hne, hlt, hzone, htable⟩

namespace LeafInv

theorem count_table (h : LeafInv zone root base f σ) {p : ℕ} (hp : σ.IsTable root p) :
    userCount base f p = 0 :=
  userCount_eq_zero fun _ hbase hv hmapped => (h.leaf hbase hv hmapped).2 hp

theorem count_supply (h : LeafInv zone root base f σ) (hs : FreeSupply zone root σ) {p : ℕ}
    (hp : p ∈ σ.supply) : userCount base f p = 0 := by
  obtain ⟨-, -, hzone, -, href⟩ := hs.free hp
  exact Nat.le_zero.mp (href ▸ h.refs hzone)

theorem not_supply (h : LeafInv zone root base f σ) (hs : FreeSupply zone root σ) {v p : ℕ}
    (hbase : base ≤ v) (hv : v < 2 ^ 27) (hmapped : f v = some p) : p ∉ σ.supply := by
  intro hp
  have hpos := userCount_pos hbase hv hmapped
  rw [h.count_supply hs hp] at hpos
  exact Nat.lt_irrefl 0 hpos

theorem grows (h : LeafInv zone root base f σ) (hs : FreeSupply zone root σ)
    (hgrows : Grows zone root σ τ) : LeafInv zone root base f τ where
  leaf := by
    intro v p hbase hv hmapped
    obtain ⟨hne, htable⟩ := h.leaf hbase hv hmapped
    exact ⟨hne, hgrows.not_isTable (h.not_supply hs hbase hv hmapped) htable⟩
  refs := by
    intro p hzone
    by_cases hsupply : p ∈ σ.supply
    · rw [h.count_supply hs hsupply]
      exact Nat.zero_le _
    by_cases htable : σ.IsTable root p
    · rw [h.count_table htable]
      exact Nat.zero_le _
    · rw [hgrows.reference_eq hsupply htable]
      exact h.refs hzone

theorem add (h : LeafInv zone root base f σ) {first n : ℕ} {g : ℕ → ℕ}
    (hbase : base ≤ first) (hend : first + n ≤ 2 ^ 27)
    (hfree : ∀ k < n, f (first + k) = none)
    (hleaf : ∀ k < n, g k ≠ 0 ∧ ¬σ.IsTable root (g k))
    (hrefs : ∀ k < n, zone (g k) = true →
      userCount base f (g k) + ((List.range n).map g).count (g k) ≤ σ.reference (g k)) :
    LeafInv zone root base (setRange f first n fun k => some (g k)) σ where
  leaf := by
    intro v p hv hlt hmapped
    by_cases hin : first ≤ v ∧ v < first + n
    · unfold setRange at hmapped
      rw [if_pos hin] at hmapped
      cases hmapped
      exact hleaf (v - first) (by omega)
    · rw [setRange_outside _ _ hin] at hmapped
      exact h.leaf hv hlt hmapped
  refs := by
    intro p hzone
    rw [userCount_add hbase hend hfree]
    by_cases hp : p ∈ (List.range n).map g
    · obtain ⟨k, hk, rfl⟩ := List.mem_map.mp hp
      exact hrefs k (List.mem_range.mp hk) hzone
    · rw [List.count_eq_zero_of_not_mem hp]
      exact h.refs hzone

theorem clears (h : LeafInv zone root base f σ) {first n : ℕ} (hbase : base ≤ first)
    (hend : first + n ≤ 2 ^ 27) (hclears : Clears zone root (rangeTargets f first n) σ τ) :
    LeafInv zone root base (setRange f first n fun _ => none) τ where
  leaf := by
    intro v p hv hlt hmapped
    unfold setRange at hmapped
    split_ifs at hmapped
    obtain ⟨hne, htable⟩ := h.leaf hv hlt hmapped
    exact ⟨hne, fun ht => htable (hclears.tables.mp ht)⟩
  refs := by
    intro p hzone
    have hcount := userCount_clear hbase hend f p
    by_cases htable : σ.IsTable root p
    · have hzero := h.count_table htable
      omega
    · have href := h.refs hzone
      rw [hclears.released htable hzone]
      omega

end LeafInv

/-! ## Ranges of the user part -/

structure UserInv (zone : ℕ → Bool) (root base : ℕ) (σ : MmuState) : Prop where
  tree : TableInv zone root σ
  leaves : LeafInv zone root base σ.mapped σ

/-- The pages of a range were mapped to `g`. -/
structure RangeMapped (zone : ℕ → Bool) (root base : ℕ) (σ τ : MmuState) (first n : ℕ)
    (g : ℕ → ℕ) : Prop where
  inv : UserInv zone root base τ
  grows : Grows zone root σ τ
  mapped : τ.mapped = setRange σ.mapped first n fun j => some (g j)
  free : ∀ j < n, σ.mapped (first + j) = none

structure RangeCleared (zone : ℕ → Bool) (root base : ℕ) (σ τ : MmuState) (first n : ℕ) :
    Prop where
  inv : UserInv zone root base τ
  clears : Clears zone root (rangeTargets σ.mapped first n) σ τ
  mapped : τ.mapped = setRange σ.mapped first n fun _ => none

/-- Only leaves were cleared.  The tables are the same, and a page that is no table lost a
reference for every leaf that led to it. -/
structure LeavesReleased (zone : ℕ → Bool) (root base : ℕ) (σ τ : MmuState) : Prop where
  tables : ∀ {t}, τ.IsTable root t ↔ σ.IsTable root t
  balance : ∀ {p}, ¬σ.IsTable root p → zone p = true →
    τ.reference p + userCount base σ.mapped p = σ.reference p + userCount base τ.mapped p

theorem LeavesReleased.refl (zone : ℕ → Bool) (root base : ℕ) (σ : MmuState) :
    LeavesReleased zone root base σ σ :=
  ⟨Iff.rfl, fun _ _ => rfl⟩

theorem LeavesReleased.trans {υ : MmuState} (h₁ : LeavesReleased zone root base σ τ)
    (h₂ : LeavesReleased zone root base τ υ) : LeavesReleased zone root base σ υ where
  tables := h₂.tables.trans h₁.tables
  balance := by
    intro p htable hzone
    have hστ := h₁.balance htable hzone
    have hτυ := h₂.balance (fun ht => htable (h₁.tables.mp ht)) hzone
    omega

theorem RangeCleared.released {first n : ℕ} (h : RangeCleared zone root base σ τ first n)
    (hinv : UserInv zone root base σ) (hbase : base ≤ first) (hend : first + n ≤ 2 ^ 27) :
    LeavesReleased zone root base σ τ where
  tables := h.clears.tables
  balance := by
    intro p htable hzone
    have hrefs := hinv.leaves.refs hzone
    have hcount := userCount_clear hbase hend σ.mapped p
    rw [← h.mapped] at hcount
    rw [h.clears.released htable hzone]
    omega

/-- Some pages of a range were mapped to `pages` and unmapped again. -/
structure RangeGivenUp (zone : ℕ → Bool) (root base : ℕ) (σ τ : MmuState) (pages : List ℕ) :
    Prop where
  inv : UserInv zone root base τ
  between : ∃ υ, Grows zone root σ υ ∧ Clears zone root pages υ τ
  mapped : τ.mapped = σ.mapped

theorem UserInv.unmapPages (h : UserInv zone root base σ) (va : BitVec 64) {n : ℕ}
    (hbase : base ≤ pageOf va) (hend : pageOf va + n ≤ 2 ^ 27)
    (hmapped : ∀ k < n, (σ.mapped (pageOf va + k)).isSome = true) :
    ∃ τ, unmapPages zone root va n σ = .ok τ ∧
      RangeCleared zone root base σ τ (pageOf va) n := by
  have hold : ∀ k < n, ∃ page, σ.mapped (pageOf va + k) = some page ∧ page ≠ 0 ∧
      ¬σ.IsTable root page := by
    intro k hk
    obtain ⟨page, hpage⟩ := Option.isSome_iff_exists.mp (hmapped k hk)
    exact ⟨page, hpage, h.leaves.leaf (by omega) (by omega) hpage⟩
  rcases unmapPages_outcome h.tree hend (fun k hk => by
      obtain ⟨page, hpage, -, htable⟩ := hold k hk
      exact ⟨page, hpage, htable⟩) with
    ⟨⟨k, hk, hzero⟩, -⟩ | ⟨τ, hrun, hclears, hrecord⟩
  · obtain ⟨page, hpage, hne, -⟩ := hold k hk
    rw [hzero] at hpage
    cases hpage
    exact absurd rfl hne
  · refine ⟨τ, hrun, ⟨hclears.inv, ?_⟩, hclears, hrecord⟩
    rw [hrecord]
    exact h.leaves.clears hbase hend hclears

theorem RangeMapped.giveUp {k : ℕ} {g : ℕ → ℕ} {start : BitVec 64}
    (h : RangeMapped zone root base σ τ (pageOf start) k g) (hbase : base ≤ pageOf start)
    (hend : pageOf start + k ≤ 2 ^ 27) :
    ∃ υ, unmapPages zone root start k τ = .ok υ ∧
      RangeGivenUp zone root base σ υ ((List.range k).map g) := by
  have hinside : ∀ j < k, τ.mapped (pageOf start + j) = some (g j) := by
    intro j hj
    rw [h.mapped]
    exact setRange_inside _ _ _ hj
  obtain ⟨υ, hrun, hcleared⟩ := h.inv.unmapPages start hbase hend fun j hj => by
    rw [hinside j hj]
    rfl
  refine ⟨υ, hrun, hcleared.inv, ⟨τ, h.grows, ?_⟩, ?_⟩
  · rw [← rangeTargets_some hinside]
    exact hcleared.clears
  · rw [hcleared.mapped, h.mapped]
    exact setRange_cancel h.free _

/-- `NX_HalUnmapPage` of a range of mapped pages. -/
theorem UserInv.halUnmapPage (h : UserInv zone root base σ) (va size : BitVec 64)
    (hzero : 0 < base) (hbase : base ≤ pageOf va)
    (hend : pageOf va + sizePages size ≤ 2 ^ 27)
    (hmapped : ∀ k < sizePages size, (σ.mapped (pageOf va + k)).isSome = true) :
    ∃ τ, halUnmapPage zone root σ va size = .ok (.eok, τ) ∧
      RangeCleared zone root base σ τ (pageOf va) (sizePages size) := by
  obtain ⟨τ, hrun, hcleared⟩ := h.unmapPages (pageAlignDown va) (n := sizePages size)
    (by rw [pageOf_pageAlignDown]; exact hbase) (by rw [pageOf_pageAlignDown]; exact hend)
    (by rw [pageOf_pageAlignDown]; exact hmapped)
  rw [pageOf_pageAlignDown] at hcleared
  refine ⟨τ, ?_, hcleared⟩
  unfold Riscv64.halUnmapPage
  dsimp only
  rw [rangePages_toNat (hend.trans (by decide)) (by omega), hrun, exec_ok_bind]
  rfl

theorem AttrOk.ne_zero {attr : BitVec 64} (h : AttrOk attr) : attr ≠ 0 := by
  rintro rfl
  exact h.valid rfl

/-- `NX_HalMapPage` maps pages to free ones, and unmaps them when these are not all pages of
the range. -/
theorem TableInv.halMapPage (platform : Platform) (h : TableInv zone root σ)
    (hs : FreshSupply zone root σ) (va size : BitVec 64) {attr : BitVec 64} (hattr : AttrOk attr)
    (hva : 0 < pageOf va) (hend : pageOf va + sizePages size ≤ 2 ^ 27) :
    ∃ k ≤ sizePages size, ∃ (τ : MmuState) (g : ℕ → ℕ), Grows zone root σ τ ∧
      τ.mapped = setRange σ.mapped (pageOf va) k (fun j => some (g j)) ∧
      LeavesTaken root σ τ (pageOf va) k g ∧
      halMapPage zone platform root σ va size attr =
        if k = sizePages size then .ok (some (pageAlignDown va), τ)
        else Riscv64.unmapPages zone root (pageAlignDown va) k τ >>= fun υ => .ok (none, υ) := by
  obtain ⟨k, hk, τ, g, hgrows, hrecord, hleaves, hrun⟩ := mapPages_outcome platform h
    hs (pageAlignDown va) (pageAlignDown va) 0 (n := sizePages size)
    (by rw [pageOf_pageAlignDown]; exact hend) hattr
  rw [pageOf_pageAlignDown] at hrecord hleaves
  refine ⟨k, hk, τ, g, hgrows, hrecord, hleaves, ?_⟩
  unfold Riscv64.halMapPage
  dsimp only
  rw [if_neg hattr.ne_zero, rangePages_toInt (hend.trans (by decide)) (by omega), hrun,
    Nat.zero_add]

/-- `NX_HalMapPage` maps the range to free pages, or changes no leaf. -/
theorem UserInv.halMapPage (platform : Platform) (h : UserInv zone root base σ)
    (hs : FreeSupply zone root σ) (va size : BitVec 64) {attr : BitVec 64} (hattr : AttrOk attr)
    (hzero : 0 < base) (hbase : base ≤ pageOf va)
    (hend : pageOf va + sizePages size ≤ 2 ^ 27) :
    (∃ τ g, halMapPage zone platform root σ va size attr = .ok (some (pageAlignDown va), τ) ∧
      RangeMapped zone root base σ τ (pageOf va) (sizePages size) g ∧
      LeavesTaken root σ τ (pageOf va) (sizePages size) g) ∨
    ∃ τ pages, halMapPage zone platform root σ va size attr = .ok (none, τ) ∧
      (∀ p ∈ pages, p ∈ σ.supply) ∧ RangeGivenUp zone root base σ τ pages := by
  obtain ⟨k, hk, τ, g, hgrows, hrecord, hleaves, hrun⟩ := h.tree.halMapPage platform
    hs.freshSupply va size hattr (by omega) hend
  have hmapped : RangeMapped zone root base σ τ (pageOf va) k g := by
    refine ⟨⟨hgrows.inv, ?_⟩, hgrows, hrecord, fun j hj => hleaves.free hj⟩
    rw [hrecord]
    refine (h.leaves.grows hs hgrows).add hbase (by omega) (fun j hj => hleaves.free hj)
      (fun j hj => ⟨(hs.free (hleaves.supply hj)).1, hleaves.table hj⟩) ?_
    intro j hj _
    rw [hleaves.reference hj, h.leaves.count_supply hs (hleaves.supply hj), Nat.zero_add]
    refine List.nodup_iff_count_le_one.mp ?_ (g j)
    refine List.Nodup.map_on ?_ List.nodup_range
    intro i hi i' hi' heq
    exact hleaves.injective (List.mem_range.mp hi) (List.mem_range.mp hi') heq
  rw [hrun]
  by_cases hkn : k = sizePages size
  · rw [if_pos hkn]
    rw [hkn] at hmapped hleaves
    exact Or.inl ⟨τ, g, rfl, hmapped, hleaves⟩
  · rw [← pageOf_pageAlignDown va] at hmapped
    obtain ⟨υ, hundo, hgiven⟩ := hmapped.giveUp
      (by rw [pageOf_pageAlignDown]; exact hbase) (by rw [pageOf_pageAlignDown]; omega)
    rw [if_neg hkn, hundo, exec_ok_bind]
    refine Or.inr ⟨υ, _, rfl, ?_, hgiven⟩
    intro p hp
    obtain ⟨j, hj, rfl⟩ := List.mem_map.mp hp
    exact hleaves.supply (List.mem_range.mp hj)

/-- The physical pages that are mapped into the user part: they fit an entry, they are
in use by somebody else than the tables, and they have a reference to spare. -/
structure PagesLent (zone : ℕ → Bool) (root base : ℕ) (σ : MmuState) (first n : ℕ) : Prop where
  first_ne : first ≠ 0
  below : first + n ≤ 2 ^ 28
  table : ∀ {j}, j < n → ¬σ.IsTable root (first + j)
  supply : ∀ {j}, j < n → first + j ∉ σ.supply
  refs : ∀ {j}, j < n → zone (first + j) = true →
    userCount base σ.mapped (first + j) + 1 ≤ σ.reference (first + j)

/-- `NX_HalMapPageWithPhy` maps the pages that can be mapped, and unmaps them when these
are not all pages of the range. -/
theorem TableInv.halMapPageWithPhy (platform : Platform) (h : TableInv zone root σ)
    (hs : FreshSupply zone root σ) (va pa size : BitVec 64) {attr : BitVec 64}
    (hattr : AttrOk attr) (hva : 0 < pageOf va) (hend : pageOf va + sizePages size ≤ 2 ^ 27)
    (hpa : pageOf pa + sizePages size ≤ 2 ^ 28) :
    ∃ k ≤ sizePages size, ∃ τ, Grows zone root σ τ ∧
      τ.mapped = setRange σ.mapped (pageOf va) k (fun j => some (pageOf pa + j)) ∧
      CanMap root σ (pageOf va) k ∧
      (k < sizePages size → ¬CanMap root σ (pageOf va) (k + 1)) ∧
      halMapPageWithPhy zone platform root σ va pa size attr =
        if k = sizePages size then .ok (some (pageAlignDown va), τ)
        else Riscv64.unmapPages zone root (pageAlignDown va) k τ >>= fun υ => .ok (none, υ) := by
  have haligned := pageAlignDown_aligned pa
  obtain ⟨k, hk, τ, hgrows, hrecord, hcan, hstop, hrun⟩ := mapPagesWithPhy_outcome platform h hs
    (pageAlignDown va) (pageAlignDown va) (pageAlignDown pa) 0
    (n := sizePages size) (by rw [pageOf_pageAlignDown]; exact hend)
    (by rw [pageOf_pageAlignDown]; exact hpa) haligned hattr
  rw [pageOf_pageAlignDown] at hrecord hcan hstop
  rw [pageOf_pageAlignDown] at hrecord
  refine ⟨k, hk, τ, hgrows, hrecord, hcan, hstop, ?_⟩
  unfold Riscv64.halMapPageWithPhy
  dsimp only
  rw [if_neg hattr.ne_zero, rangePages_toInt (hend.trans (by decide)) (by omega), hrun,
    Nat.zero_add]

/-- `NX_HalMapPageWithPhy` maps the range, or maps some pages and unmaps them. -/
theorem UserInv.halMapPageWithPhy (platform : Platform) (h : UserInv zone root base σ)
    (hs : FreeSupply zone root σ) (va pa size : BitVec 64) {attr : BitVec 64}
    (hattr : AttrOk attr) (hzero : 0 < base) (hbase : base ≤ pageOf va)
    (hend : pageOf va + sizePages size ≤ 2 ^ 27)
    (hlent : PagesLent zone root base σ (pageOf pa) (sizePages size)) :
    ∃ k ≤ sizePages size, ∃ τ, RangeMapped zone root base σ τ (pageOf va) k (pageOf pa + ·) ∧
      ((k = sizePages size ∧ halMapPageWithPhy zone platform root σ va pa size attr =
        .ok (some (pageAlignDown va), τ)) ∨
      k < sizePages size ∧ ∃ υ, halMapPageWithPhy zone platform root σ va pa size attr =
          .ok (none, υ) ∧
        RangeGivenUp zone root base σ υ ((List.range k).map (pageOf pa + ·))) := by
  obtain ⟨k, hk, τ, hgrows, hrecord, hcan, -, hrun⟩ := h.tree.halMapPageWithPhy platform
    hs.freshSupply va pa size hattr (by omega) hend hlent.below
  have hmapped : RangeMapped zone root base σ τ (pageOf va) k (pageOf pa + ·) := by
    refine ⟨⟨hgrows.inv, ?_⟩, hgrows, hrecord, fun _ hj => hcan.free hj⟩
    rw [hrecord]
    refine (h.leaves.grows hs hgrows).add hbase (by omega) (fun _ hj => hcan.free hj)
      (fun j hj => ⟨?_, ?_⟩) ?_
    · have hne := hlent.first_ne
      omega
    · exact hgrows.not_isTable (hlent.supply (by omega)) (hlent.table (by omega))
    · intro j hj hzone
      rw [hgrows.reference_eq (hlent.supply (by omega)) (hlent.table (by omega))]
      refine Nat.le_trans (Nat.add_le_add_left ?_ _) (hlent.refs (by omega) hzone)
      refine List.nodup_iff_count_le_one.mp ?_ _
      exact List.Nodup.map (fun i i' heq => Nat.add_left_cancel heq) List.nodup_range
  refine ⟨k, hk, τ, hmapped, ?_⟩
  rw [hrun]
  by_cases hkn : k = sizePages size
  · rw [if_pos hkn]
    exact Or.inl ⟨hkn, rfl⟩
  · rw [← pageOf_pageAlignDown va] at hmapped
    obtain ⟨υ, hundo, hgiven⟩ := hmapped.giveUp
      (by rw [pageOf_pageAlignDown]; exact hbase) (by rw [pageOf_pageAlignDown]; omega)
    rw [if_neg hkn, hundo, exec_ok_bind]
    exact Or.inr ⟨by omega, υ, rfl, hgiven⟩

end Nxos.Riscv64
