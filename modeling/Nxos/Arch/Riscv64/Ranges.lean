import Mathlib.Data.Finset.Union
import Nxos.Arch.Riscv64.Pages

/-!
# Ranges of pages

The loops of the range functions.  A mapping loop maps the pages of the range in
order; when it fails it unmaps the ones it has mapped.  An unmapping loop clears the
entries of the range.
-/

namespace Nxos.Riscv64

open Nxos.Radix

variable {zone : ℕ → Bool} {root : ℕ} {σ τ : MmuState}

/-! ## Ranges of the record -/

def setRange (f : ℕ → Option ℕ) (start n : ℕ) (g : ℕ → Option ℕ) : ℕ → Option ℕ :=
  fun p => if start ≤ p ∧ p < start + n then g (p - start) else f p

theorem setRange_zero (f : ℕ → Option ℕ) (start : ℕ) (g : ℕ → Option ℕ) :
    setRange f start 0 g = f := by
  funext p
  exact if_neg (by omega)

theorem setRange_succ (f : ℕ → Option ℕ) (start n : ℕ) (g : ℕ → Option ℕ) :
    setRange (Function.update f start (g 0)) (start + 1) n (fun k => g (k + 1)) =
      setRange f start (n + 1) g := by
  funext p
  unfold setRange
  by_cases hp : p = start
  · rw [hp, if_neg (by omega), if_pos (by omega), Function.update_self, Nat.sub_self]
  · by_cases hrange : start + 1 ≤ p ∧ p < start + 1 + n
    · rw [if_pos hrange, if_pos (by omega)]
      exact congrArg g (by omega)
    · rw [if_neg hrange, if_neg (by omega), Function.update_of_ne hp]

theorem setRange_inside (f : ℕ → Option ℕ) (start : ℕ) {n : ℕ} (g : ℕ → Option ℕ) {k : ℕ}
    (hk : k < n) : setRange f start n g (start + k) = g k := by
  unfold setRange
  rw [if_pos (by omega), Nat.add_sub_cancel_left]

theorem setRange_outside (f : ℕ → Option ℕ) {start n : ℕ} (g : ℕ → Option ℕ) {p : ℕ}
    (hp : ¬(start ≤ p ∧ p < start + n)) : setRange f start n g p = f p :=
  if_neg hp

theorem pageOf_next {va : BitVec 64} (h : pageOf va < 2 ^ 51) :
    pageOf (va + 4096) = pageOf va + 1 := by
  unfold pageOf at h ⊢
  rw [BitVec.toNat_add, show (4096 : BitVec 64).toNat = 4096 from rfl,
    Nat.mod_eq_of_lt (by omega)]
  omega

theorem toNat_lt_of_pageOf {va : BitVec 64} {n : ℕ} (h : pageOf va < 2 ^ n) :
    va.toNat < 2 ^ (n + 12) := by
  unfold pageOf at h
  rw [Nat.pow_add]
  omega

/-! ## Unmapping -/

def rangeTargets (f : ℕ → Option ℕ) (start n : ℕ) : List ℕ :=
  (List.range n).filterMap fun k => f (start + k)

theorem rangeTargets_succ {f : ℕ → Option ℕ} {start page : ℕ} (h : f start = some page)
    (x : Option ℕ) (n : ℕ) :
    rangeTargets f start (n + 1) =
      page :: rangeTargets (Function.update f start x) (start + 1) n := by
  unfold rangeTargets
  rw [List.range_succ_eq_map, List.filterMap_cons, Nat.add_zero, h, List.filterMap_map]
  refine congrArg (page :: ·) (List.filterMap_congr fun k _ => ?_)
  have hk : start + 1 + k = start + (k + 1) := by omega
  rw [hk, Function.update_of_ne (by omega)]
  rfl

/-- `__UnmapPage` clears the range, or stops at a page that is mapped to page zero. -/
theorem unmapPages_outcome {n : ℕ} (h : TableInv zone root σ) {va : BitVec 64}
    (hrange : pageOf va + n ≤ 2 ^ 27)
    (hold : ∀ k < n, ∃ page, σ.mapped (pageOf va + k) = some page ∧ ¬σ.IsTable root page) :
    ((∃ k < n, σ.mapped (pageOf va + k) = some 0) ∧
      unmapPages zone root va n σ = .error .assertion) ∨
    ∃ τ, unmapPages zone root va n σ = .ok τ ∧
      Clears zone root (rangeTargets σ.mapped (pageOf va) n) σ τ ∧
      τ.mapped = setRange σ.mapped (pageOf va) n fun _ => none := by
  induction n generalizing va σ with
  | zero =>
      refine Or.inr ⟨σ, rfl, Clears.refl h, ?_⟩
      rw [setRange_zero]
  | succ n ih =>
      have hva : va.toNat < 2 ^ 39 := toNat_lt_of_pageOf (n := 27) (by omega)
      obtain ⟨page, hmapped, htable⟩ := hold 0 (Nat.succ_pos n)
      rw [Nat.add_zero] at hmapped
      rw [unmapPages]
      by_cases hzero : page = 0
      · subst hzero
        refine Or.inl ⟨⟨0, Nat.succ_pos n, hmapped⟩, ?_⟩
        rw [unmapOnePage_zero h hva hmapped, exec_error_bind]
      · obtain ⟨σ₁, hone, hclears, hmapped₁⟩ := unmapOnePage_outcome h hva hmapped hzero htable
        have hnext : pageOf (va + 4096) = pageOf va + 1 := pageOf_next (by omega)
        have hstays : ∀ k, σ₁.mapped (pageOf va + 1 + k) = σ.mapped (pageOf va + (k + 1)) := by
          intro k
          rw [hmapped₁, Function.update_of_ne (by omega)]
          exact congrArg σ.mapped (by omega)
        have hold₁ : ∀ k < n, ∃ page, σ₁.mapped (pageOf (va + 4096) + k) = some page ∧
            ¬σ₁.IsTable root page := by
          intro k hk
          obtain ⟨q, hq, hqtable⟩ := hold (k + 1) (by omega)
          refine ⟨q, ?_, fun ht => hqtable (hclears.tables.mp ht)⟩
          rw [hnext, hstays]
          exact hq
        rw [hone, exec_ok_bind]
        rcases ih hclears.inv (by omega) hold₁ with
          ⟨⟨k, hk, hkzero⟩, hfails⟩ | ⟨τ, hrest, hclears', hmapped'⟩
        · rw [hnext, hstays] at hkzero
          exact Or.inl ⟨⟨k + 1, by omega, hkzero⟩, hfails⟩
        · refine Or.inr ⟨τ, hrest, ?_, ?_⟩
          · rw [rangeTargets_succ hmapped none, ← hmapped₁, ← hnext]
            exact hclears.trans hclears'
          · rw [hmapped', hnext, hmapped₁]
            exact setRange_succ σ.mapped (pageOf va) n fun _ => none

/-! ## Mapping -/

/-- `NX_PageAlloc` for a leaf. -/
theorem Grows.alloc (h : TableInv zone root σ) (hs : FreshSupply zone root σ) {page : ℕ}
    {rest : List ℕ} (hsupply : σ.supply = page :: rest) :
    Grows zone root σ
      { σ with supply := rest, reference := Function.update σ.reference page 1 } := by
  obtain ⟨-, -, hzone, htable⟩ := hs.fresh page (by rw [hsupply]; exact List.mem_cons_self ..)
  constructor
  · refine h.of_reference rfl rfl fun t ht => Nat.le_of_eq (Function.update_of_ne ?_ ..).symm
    rintro rfl
    exact htable ht
  · exact hs.of_suffix [page] hsupply.symm Or.inl
  · rw [hsupply]
    exact List.suffix_cons ..
  · intro q hq
    refine Function.update_of_ne ?_ ..
    rintro rfl
    have hnodup := hs.nodup
    rw [hsupply, List.nodup_cons] at hnodup
    exact hnodup.1 hq
  · exact fun _ ht => ht
  · exact Or.inl
  · exact fun _ _ => rfl
  · intro q hq _
    refine congrArg (· + _) (Function.update_of_ne ?_ ..)
    rintro rfl
    rw [hsupply] at hq
    exact hq (List.mem_cons_self ..)
  · intro q hqzone
    refine Function.update_of_ne ?_ ..
    rintro rfl
    exact Bool.false_ne_true (hqzone.symm.trans hzone)

/-- `NX_PageAlloc` gave `page` for a leaf, and the walk to the entry may have taken tables. -/
structure LeafTried (zone : ℕ → Bool) (root : ℕ) (σ τ : MmuState) (page : ℕ) : Prop where
  grows : Grows zone root σ τ
  supply : page ∈ σ.supply
  taken : page ∉ τ.supply
  table : ¬τ.IsTable root page
  reference : τ.reference page = 1

/-- One round of `__MapPage` up to the answer of `MapOnePage`. -/
theorem mapOnePage_tried (platform : Platform) (h : TableInv zone root σ)
    (hs : FreshSupply zone root σ) {page : ℕ} {rest : List ℕ} (hsupply : σ.supply = page :: rest)
    {va attr : BitVec 64} (hva : va.toNat < 2 ^ 39) (hattr : AttrOk attr) :
    ∃ err τ, mapOnePage zone platform root
        { σ with supply := rest, reference := Function.update σ.reference page 1 } va
        (pageAddr page) attr = .ok (err, τ) ∧
      LeafTried zone root σ τ page ∧
      (err = .eok → σ.mapped (pageOf va) = none ∧
        τ.mapped = Function.update σ.mapped (pageOf va) (some page)) ∧
      (err ≠ .eok → τ.mapped = σ.mapped) := by
  have hmem : page ∈ σ.supply := by
    rw [hsupply]
    exact List.mem_cons_self ..
  have hnodup := hs.nodup
  rw [hsupply, List.nodup_cons] at hnodup
  obtain ⟨-, h28, -, htable⟩ := hs.fresh page hmem
  have haddr := pageAddr_toNat h28
  have halloc := Grows.alloc h hs hsupply
  obtain ⟨err, τ, hone, hgrows, hsuccess, hfailure⟩ :=
    mapOnePage_outcome platform halloc.inv halloc.fresh (pageAddr page) hva (by omega)
      (by omega) hattr
  refine ⟨err, τ, hone, ⟨halloc.trans hgrows, hmem, ?_, ?_, ?_⟩, ?_, ?_⟩
  · exact fun hin => hnodup.1 (hgrows.supply.subset hin)
  · -- the page left the supply before the walk, so no table was put there
    intro ht
    rcases hgrows.newTables ht with hold | hrest
    · exact htable hold
    · exact hnodup.1 hrest
  · rw [hgrows.reference_eq hnodup.1 htable]
    exact Function.update_self ..
  · intro herr
    obtain ⟨hfree, hmapped, -⟩ := hsuccess herr
    rw [pageOf_pageAddr h28] at hmapped
    exact ⟨hfree, hmapped⟩
  · exact fun herr => (hfailure herr).1

/-- `NX_PageFree` of a leaf that was allocated and not mapped. -/
theorem LeafTried.free {page : ℕ} (h : LeafTried zone root σ τ page)
    (hs : FreshSupply zone root σ) :
    ∃ υ, pageFree zone τ page = .ok (.eok, υ) ∧ Grows zone root σ υ ∧ υ.mapped = τ.mapped ∧
      page ∉ υ.supply ∧ ¬υ.IsTable root page ∧ υ.reference page = 0 := by
  obtain ⟨hne, -, hzone, -⟩ := hs.fresh page h.supply
  have hother : ∀ q, q ≠ page → Function.update τ.reference page 0 q = τ.reference q :=
    fun q hq => Function.update_of_ne hq ..
  refine ⟨_, pageFree_last τ hne hzone h.reference, ⟨?_, ?_, h.grows.supply, ?_, h.grows.paths,
    h.grows.newTables, h.grows.frame, ?_, ?_⟩, rfl, h.taken, h.table, Function.update_self ..⟩
  · refine h.grows.inv.of_reference rfl rfl fun t ht => Nat.le_of_eq (hother t ?_).symm
    rintro rfl
    exact h.table ht
  · exact h.grows.fresh.of_suffix [] rfl Or.inl
  · intro q hq
    dsimp only
    rw [hother q fun heq => h.taken (heq ▸ hq)]
    exact h.grows.kept hq
  · intro q hq hqzone
    dsimp only
    rw [hother q fun heq => hq (heq ▸ h.supply)]
    exact h.grows.balance hq hqzone
  · intro q hqzone
    dsimp only
    rw [hother q fun heq => Bool.false_ne_true (hqzone.symm.trans (heq ▸ hzone))]
    exact h.grows.outside hqzone

def rangePaths (first n : ℕ) : Finset (List (Fin 512)) :=
  (Finset.range n).biUnion fun j => tablePaths (pageAddr (first + j))

theorem rangePaths_succ (first n : ℕ) :
    rangePaths first (n + 1) = tablePaths (pageAddr first) ∪ rangePaths (first + 1) n := by
  unfold rangePaths
  ext q
  simp only [Finset.mem_union, Finset.mem_biUnion, Finset.mem_range]
  constructor
  · rintro ⟨j, hj, hq⟩
    cases j with
    | zero => exact Or.inl hq
    | succ j =>
        refine Or.inr ⟨j, by omega, ?_⟩
        rw [Nat.add_assoc, Nat.add_comm 1 j]
        exact hq
  · rintro (hq | ⟨j, hj, hq⟩)
    · exact ⟨0, Nat.succ_pos n, hq⟩
    · refine ⟨j + 1, by omega, ?_⟩
      rw [Nat.add_comm j 1, ← Nat.add_assoc]
      exact hq

theorem length_of_mem_rangePaths {first n : ℕ} {q : List (Fin 512)}
    (h : q ∈ rangePaths first n) : q.length < 3 := by
  obtain ⟨j, -, hq⟩ := Finset.mem_biUnion.mp h
  exact length_of_mem_tablePaths hq

theorem tablePaths_congr {va vb : BitVec 64} (h : pageOf va = pageOf vb) :
    tablePaths va = tablePaths vb := by
  have hpath := path_congr h
  unfold path at hpath
  simp only [List.cons.injEq, and_true] at hpath
  unfold tablePaths
  rw [hpath.1, hpath.2.1]

/-- The pages of a range can be mapped: none of them is mapped, and the supply has a page
for every table that they lack. -/
structure CanMap (root : ℕ) (σ : MmuState) (first n : ℕ) : Prop where
  free : ∀ {j}, j < n → σ.mapped (first + j) = none
  supply : (lacking root σ (rangePaths first n)).card ≤ σ.supply.length

instance (root : ℕ) (σ : MmuState) (first n : ℕ) : Decidable (CanMap root σ first n) :=
  decidable_of_iff ((∀ j < n, σ.mapped (first + j) = none) ∧
      (lacking root σ (rangePaths first n)).card ≤ σ.supply.length)
    ⟨fun h => ⟨fun hj => h.1 _ hj, h.2⟩, fun h => ⟨fun _ hj => h.free hj, h.supply⟩⟩

theorem CanMap.zero (σ : MmuState) (first : ℕ) : CanMap root σ first 0 where
  free := nofun
  supply := Nat.zero_le _

theorem CanMap.of_le {first n k : ℕ} (h : CanMap root σ first n) (hk : k ≤ n) :
    CanMap root σ first k where
  free hj := h.free (Nat.lt_of_lt_of_le hj hk)
  supply := by
    refine Nat.le_trans (Finset.card_le_card (Finset.filter_subset_filter _ ?_)) h.supply
    exact Finset.biUnion_subset_biUnion_of_subset_left _ (Finset.range_subset_range.mpr hk)

theorem canMap_pageIncrease (zone : ℕ → Bool) (σ : MmuState) (page first n : ℕ) :
    CanMap root (pageIncrease zone σ page) first n ↔ CanMap root σ first n := by
  have hmapped : (pageIncrease zone σ page).mapped = σ.mapped := pageIncrease_mapped σ page
  have hlacking : lacking root (pageIncrease zone σ page) (rangePaths first n) =
      lacking root σ (rangePaths first n) := by
    unfold lacking
    rw [pageIncrease_mem]
  have hsupply : (pageIncrease zone σ page).supply = σ.supply := pageIncrease_supply σ page
  constructor
  · intro h
    exact ⟨hmapped ▸ h.free, hlacking ▸ hsupply ▸ h.supply⟩
  · intro h
    refine ⟨?_, ?_⟩
    · rw [hmapped]
      exact h.free
    · rw [hlacking, hsupply]
      exact h.supply

theorem CanMap.succ_iff {first n : ℕ} {x : Option ℕ} (hfree : σ.mapped first = none)
    (hmapped : τ.mapped = Function.update σ.mapped first x)
    (hadded : TablesAdded root σ τ (tablePaths (pageAddr first))) :
    CanMap root σ first (n + 1) ↔ CanMap root τ (first + 1) n := by
  have hcard : (lacking root σ (rangePaths first (n + 1))).card =
      (lacking root σ (tablePaths (pageAddr first))).card +
        (lacking root τ (rangePaths (first + 1) n)).card := by
    rw [rangePaths_succ]
    exact hadded.card_union fun _ hq => length_of_mem_rangePaths hq
  have htaken := hadded.taken
  have hstays : ∀ j, τ.mapped (first + 1 + j) = σ.mapped (first + (j + 1)) := by
    intro j
    rw [hmapped, Function.update_of_ne (by omega)]
    exact congrArg σ.mapped (by omega)
  constructor
  · intro h
    refine ⟨fun hj => ?_, ?_⟩
    · rw [hstays]
      exact h.free (by omega)
    · have hsupply := h.supply
      omega
  · intro h
    refine ⟨fun hj => ?_, ?_⟩
    · rename_i j
      cases j with
      | zero => exact hfree
      | succ j =>
          rw [← hstays]
          exact h.free (by omega)
    · have hsupply := h.supply
      omega

/-- `__MapPageWithPhy` maps the pages that can be mapped, and unmaps them when these are
not all pages of the range. -/
theorem mapPagesWithPhy_outcome {n : ℕ} (platform : Platform) (h : TableInv zone root σ)
    (hs : FreshSupply zone root σ) (start va pa : BitVec 64) {attr : BitVec 64} (m : ℕ)
    (hva : pageOf va + n ≤ 2 ^ 27) (hpa : pageOf pa + n ≤ 2 ^ 28)
    (haligned : pa.toNat % 4096 = 0) (hattr : AttrOk attr) :
    ∃ k ≤ n, ∃ τ, Grows zone root σ τ ∧
      τ.mapped = setRange σ.mapped (pageOf va) k (fun j => some (pageOf pa + j)) ∧
      CanMap root σ (pageOf va) k ∧ (k < n → ¬CanMap root σ (pageOf va) (k + 1)) ∧
      mapPagesWithPhy zone platform root start attr m va pa n σ =
        if k = n then .ok (some start, τ)
        else unmapPages zone root start (m + k) τ >>= fun υ => .ok (none, υ) := by
  induction n generalizing va pa σ m with
  | zero =>
      refine ⟨0, Nat.le_refl 0, σ, Grows.refl h hs, ?_, CanMap.zero σ _, nofun, rfl⟩
      rw [setRange_zero]
  | succ n ih =>
      have hpaths : tablePaths va = tablePaths (pageAddr (pageOf va)) :=
        tablePaths_congr (pageOf_pageAddr (by omega)).symm
      have hva39 : va.toNat < 2 ^ 39 := toNat_lt_of_pageOf (n := 27) (by omega)
      have hpa40 : pa.toNat < 2 ^ 40 := toNat_lt_of_pageOf (n := 28) (by omega)
      obtain ⟨err, σ₁, hone, hgrows, hsuccess, hfailure⟩ :=
        mapOnePage_outcome platform h hs pa hva39 hpa40 haligned hattr
      rw [mapPagesWithPhy, hone, exec_ok_bind]
      by_cases herr : err = .eok
      · subst herr
        obtain ⟨hfree, hmapped₁, hadded⟩ := hsuccess rfl
        rw [hpaths] at hadded
        have hnext : pageOf (va + 4096) = pageOf va + 1 := pageOf_next (by omega)
        have hnextPa : pageOf (pa + 4096) = pageOf pa + 1 := pageOf_next (by omega)
        have haligned' : (pa + 4096).toNat % 4096 = 0 := by
          rw [BitVec.toNat_add, show (4096 : BitVec 64).toNat = 4096 from rfl]
          omega
        obtain ⟨k, hk, τ, hgrows', hmapped', hcan, hstop, hrest⟩ := ih hgrows.inv hgrows.fresh
          (va + 4096) (pa + 4096) (m + 1) (by omega) (by omega) haligned'
        rw [hnext] at hcan hstop
        refine ⟨k + 1, by omega, τ, hgrows.trans hgrows', ?_, ?_, ?_, ?_⟩
        · rw [hmapped', hnext, hnextPa, hmapped₁,
            ← setRange_succ σ.mapped (pageOf va) k fun j => some (pageOf pa + j)]
          refine congrArg (setRange _ _ _) (funext fun j => ?_)
          rw [Nat.add_assoc, Nat.add_comm 1 j]
        · exact (CanMap.succ_iff hfree hmapped₁ hadded).mpr hcan
        · intro hlt hcan'
          exact hstop (by omega) ((CanMap.succ_iff hfree hmapped₁ hadded).mp hcan')
        · dsimp only
          rw [hrest, Nat.add_assoc, Nat.add_comm 1 k]
          simp only [Nat.add_right_cancel_iff]
      · obtain ⟨hmapped₁, hwhy⟩ := hfailure herr
        refine ⟨0, Nat.zero_le _, σ₁, hgrows, ?_, CanMap.zero σ _, ?_, ?_⟩
        · rw [setRange_zero]
          exact hmapped₁
        · intro _ hcan
          rcases hwhy with hold | hless
          · exact hold (hcan.free Nat.one_pos)
          · have hsupply := hcan.supply
            rw [rangePaths_succ, ← hpaths] at hsupply
            refine absurd (Nat.le_trans (Finset.card_le_card ?_) hsupply) (Nat.not_le_of_lt hless)
            exact Finset.filter_subset_filter _ Finset.subset_union_left
        · rw [if_neg (by omega), Nat.add_zero]
          cases err with
          | eok => exact absurd rfl herr
          | _ => rfl

/-- The pages `g` of the supply of `σ` are leaves of `τ` now, one for each page of the
range, with one reference each. -/
structure LeavesTaken (root : ℕ) (σ τ : MmuState) (first k : ℕ) (g : ℕ → ℕ) : Prop where
  supply : ∀ {j}, j < k → g j ∈ σ.supply
  taken : ∀ {j}, j < k → g j ∉ τ.supply
  table : ∀ {j}, j < k → ¬τ.IsTable root (g j)
  reference : ∀ {j}, j < k → τ.reference (g j) = 1
  injective : ∀ {i j}, i < k → j < k → g i = g j → i = j
  free : ∀ {j}, j < k → σ.mapped (first + j) = none

theorem LeavesTaken.zero {first : ℕ} {g : ℕ → ℕ} : LeavesTaken root σ τ first 0 g := by
  constructor <;> exact nofun

theorem LeavesTaken.cons {σ₁ : MmuState} {first k page : ℕ} {g : ℕ → ℕ}
    (hpages : LeavesTaken root σ₁ τ (first + 1) k g) (htried : LeafTried zone root σ σ₁ page)
    (hgrows : Grows zone root σ₁ τ) (hfree : σ.mapped first = none)
    (hmapped : ∀ v, v ≠ first → σ₁.mapped v = σ.mapped v) :
    LeavesTaken root σ τ first (k + 1) fun j => Nat.casesOn j page g := by
  have hother : ∀ {j}, j < k → g j ≠ page := by
    rintro j hj rfl
    exact htried.taken (hpages.supply hj)
  constructor
  · rintro (_ | j) hj
    · exact htried.supply
    · exact htried.grows.supply.subset (hpages.supply (Nat.lt_of_succ_lt_succ hj))
  · rintro (_ | j) hj
    · exact fun hin => htried.taken (hgrows.supply.subset hin)
    · exact hpages.taken (Nat.lt_of_succ_lt_succ hj)
  · rintro (_ | j) hj
    · exact hgrows.not_isTable htried.taken htried.table
    · exact hpages.table (Nat.lt_of_succ_lt_succ hj)
  · rintro (_ | j) hj
    · exact (hgrows.reference_eq htried.taken htried.table).trans htried.reference
    · exact hpages.reference (Nat.lt_of_succ_lt_succ hj)
  · rintro (_ | i) (_ | j) hi hj heq
    · rfl
    · exact absurd heq.symm (hother (Nat.lt_of_succ_lt_succ hj))
    · exact absurd heq (hother (Nat.lt_of_succ_lt_succ hi))
    · exact congrArg Nat.succ (hpages.injective (Nat.lt_of_succ_lt_succ hi)
        (Nat.lt_of_succ_lt_succ hj) heq)
  · rintro (_ | j) hj
    · exact hfree
    · have hj' := hpages.free (Nat.lt_of_succ_lt_succ hj)
      rw [hmapped _ (by omega)] at hj'
      rw [← hj']
      exact congrArg σ.mapped (by omega)

/-- `__MapPage` maps the range to pages of the supply, or unmaps the pages it has
mapped. -/
theorem mapPages_outcome {n : ℕ} (platform : Platform) (h : TableInv zone root σ)
    (hs : FreshSupply zone root σ) (start va : BitVec 64) {attr : BitVec 64} (m : ℕ)
    (hva : pageOf va + n ≤ 2 ^ 27) (hattr : AttrOk attr) :
    ∃ k ≤ n, ∃ (τ : MmuState) (g : ℕ → ℕ), Grows zone root σ τ ∧
      τ.mapped = setRange σ.mapped (pageOf va) k (fun j => some (g j)) ∧
      LeavesTaken root σ τ (pageOf va) k g ∧
      mapPages zone platform root start attr m va n σ =
        if k = n then .ok (some start, τ)
        else unmapPages zone root start (m + k) τ >>= fun υ => .ok (none, υ) := by
  induction n generalizing va σ m with
  | zero =>
      refine ⟨0, Nat.le_refl 0, σ, fun _ => 0, Grows.refl h hs, ?_, .zero, rfl⟩
      rw [setRange_zero]
  | succ n ih =>
      have hva39 : va.toNat < 2 ^ 39 := toNat_lt_of_pageOf (n := 27) (by omega)
      rw [mapPages]
      unfold pageAlloc
      cases hsupply : σ.supply with
      | nil =>
          refine ⟨0, Nat.zero_le _, σ, fun _ => 0, Grows.refl h hs, ?_, .zero, ?_⟩
          · rw [setRange_zero]
          · rw [if_neg (by omega), Nat.add_zero]
            rfl
      | cons page rest =>
          obtain ⟨err, σ₁, hone, htried, hsuccess, hfailure⟩ :=
            mapOnePage_tried platform h hs hsupply hva39 hattr
          dsimp only
          rw [hone, exec_ok_bind]
          by_cases herr : err = .eok
          · subst herr
            obtain ⟨hfree, hmapped₁⟩ := hsuccess rfl
            have hnext : pageOf (va + 4096) = pageOf va + 1 := pageOf_next (by omega)
            obtain ⟨k, hk, τ, g, hgrows', hmapped', hpages, hrest⟩ := ih htried.grows.inv
              htried.grows.fresh (va + 4096) (m + 1) (by omega)
            rw [hnext] at hpages
            refine ⟨k + 1, by omega, τ, fun j => Nat.casesOn j page g,
              htried.grows.trans hgrows', ?_, hpages.cons htried hgrows' hfree ?_, ?_⟩
            · rw [hmapped', hnext, hmapped₁]
              exact setRange_succ σ.mapped (pageOf va) k fun j => some (Nat.casesOn j page g)
            · intro v hv
              rw [hmapped₁, Function.update_of_ne hv]
            · dsimp only
              rw [hrest, Nat.add_assoc, Nat.add_comm 1 k]
              simp only [Nat.add_right_cancel_iff]
          · obtain ⟨τ, hfree, hgrows', hmapped', -⟩ := htried.free hs
            refine ⟨0, Nat.zero_le _, τ, fun _ => 0, hgrows', ?_, .zero, ?_⟩
            · rw [setRange_zero, hmapped']
              exact hfailure herr
            · rw [if_neg (by omega), Nat.add_zero]
              cases err with
              | eok => exact absurd rfl herr
              | _ =>
                  dsimp only
                  rw [hfree, exec_ok_bind]
                  rfl

end Nxos.Riscv64
