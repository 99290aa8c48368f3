import Nxos.Arch.Riscv64.Entries

/-!
# The tree of page tables

The tables form a tree of depth three.  Every table below the root has more
references than used entries, so that clearing an entry never frees a table, and the
recorded mapping is what the tree says.  Three changes keep this: a new table, a new
leaf, a leaf that is cleared.
-/

namespace Nxos.Riscv64

open Nxos.Radix

variable (zone : ℕ → Bool) (root : ℕ)

def MmuState.IsTable (σ : MmuState) (t : ℕ) : Prop :=
  Radix.IsTable (nextPage σ.mem) root 3 t

/-- The invariant of the page table. -/
structure TableInv (σ : MmuState) : Prop where
  root_ne : root ≠ 0
  distinct : Distinct (nextPage σ.mem) root 3
  tables : ∀ {p t}, p ≠ [] → p.length < 3 → follow (nextPage σ.mem) root p = some t →
    t ≠ 0 ∧ zone t = true ∧ usedEntries σ.mem t + 1 ≤ σ.reference t
  leaves : ∀ {p t i}, p.length = 2 → follow (nextPage σ.mem) root p = some t →
    pteUsed (σ.mem t i) = true → pageIsLeaf (σ.mem t i) = true
  record : ∀ va : BitVec 64, va.toNat < 2 ^ 39 →
    σ.mapped (pageOf va) = follow (nextPage σ.mem) root (path va)

/-- The pages that `NX_PageAlloc` will return are fresh: they are pages of the zone below
`2^40`, all different, and none is in use as a table. -/
structure FreshSupply (σ : MmuState) : Prop where
  nodup : σ.supply.Nodup
  fresh : ∀ p ∈ σ.supply, p ≠ 0 ∧ p < 2 ^ 28 ∧ zone p = true ∧ ¬σ.IsTable root p

variable {zone root} {σ τ : MmuState}

/-! ## References -/

theorem TableInv.of_reference (h : TableInv zone root σ) (hmem : τ.mem = σ.mem)
    (hmapped : τ.mapped = σ.mapped)
    (href : ∀ t, σ.IsTable root t → σ.reference t ≤ τ.reference t) : TableInv zone root τ where
  root_ne := h.root_ne
  distinct := by
    rw [hmem]
    exact h.distinct
  tables := by
    rw [hmem]
    intro p t hne hp ht
    obtain ⟨hzero, hzone, hcount⟩ := h.tables hne hp ht
    exact ⟨hzero, hzone, Nat.le_trans hcount (href t ⟨p, hp, ht⟩)⟩
  leaves := by
    rw [hmem]
    exact h.leaves
  record := by
    rw [hmem, hmapped]
    exact h.record

/-- `NX_PageFree` takes one reference away from one page of the zone. -/
theorem pageFree_frame (zone : ℕ → Bool) (σ : MmuState) {page : ℕ} (hpage : page ≠ 0) :
    ∃ err τ, pageFree zone σ page = .ok (err, τ) ∧ τ.mem = σ.mem ∧ τ.mapped = σ.mapped ∧
      τ.supply = σ.supply ∧ τ.reference =
        if zone page then Function.update σ.reference page (σ.reference page - 1)
        else σ.reference := by
  unfold pageFree
  rw [nxAssert_pos hpage, exec_ok_bind]
  dsimp only
  cases hzone : zone page with
  | false => exact ⟨_, _, rfl, rfl, rfl, rfl, rfl⟩
  | true =>
      rw [if_neg (by decide), if_pos rfl]
      split_ifs with hzero
      · refine ⟨_, _, rfl, rfl, rfl, rfl, ?_⟩
        rw [hzero, Nat.zero_sub, ← hzero, Function.update_eq_self]
      · exact ⟨_, _, rfl, rfl, rfl, rfl, rfl⟩
      · exact ⟨_, _, rfl, rfl, rfl, rfl, rfl⟩

/-- `NX_PageFree` of a page with more than one reference. -/
theorem pageFree_shared (σ : MmuState) {page : ℕ} (hpage : page ≠ 0) (hzone : zone page = true)
    (href : 2 ≤ σ.reference page) :
    pageFree zone σ page = .ok (.eagain,
      { σ with reference := Function.update σ.reference page (σ.reference page - 1) }) := by
  unfold pageFree
  rw [nxAssert_pos hpage, exec_ok_bind]
  dsimp only
  have hleft : 0 < Function.update σ.reference page (σ.reference page - 1) page := by
    rw [Function.update_self]
    omega
  rw [if_neg (by rw [hzone]; decide), if_neg (by omega), if_pos hleft]
  rfl

theorem pageFree_last (σ : MmuState) {page : ℕ} (hpage : page ≠ 0) (hzone : zone page = true)
    (href : σ.reference page = 1) :
    pageFree zone σ page =
      .ok (.eok, { σ with reference := Function.update σ.reference page 0 }) := by
  have hleft : ¬0 < Function.update σ.reference page 0 page := by
    rw [Function.update_self]
    exact Nat.lt_irrefl 0
  unfold pageFree
  rw [nxAssert_pos hpage, exec_ok_bind]
  dsimp only
  rw [if_neg (by rw [hzone]; decide), href, if_neg Nat.one_ne_zero, if_neg hleft]
  rfl

theorem pageIncrease_mem (σ : MmuState) (page : ℕ) : (pageIncrease zone σ page).mem = σ.mem := by
  unfold pageIncrease
  split_ifs <;> rfl

theorem pageIncrease_mapped (σ : MmuState) (page : ℕ) :
    (pageIncrease zone σ page).mapped = σ.mapped := by
  unfold pageIncrease
  split_ifs <;> rfl

theorem pageIncrease_supply (σ : MmuState) (page : ℕ) :
    (pageIncrease zone σ page).supply = σ.supply := by
  unfold pageIncrease
  split_ifs <;> rfl

theorem pageIncrease_reference_of_ne (σ : MmuState) {page q : ℕ} (h : q ≠ page) :
    (pageIncrease zone σ page).reference q = σ.reference q := by
  unfold pageIncrease
  split_ifs
  · exact Function.update_of_ne h ..
  · rfl

theorem pageIncrease_reference_self (σ : MmuState) {page : ℕ} (h : zone page = true) :
    (pageIncrease zone σ page).reference page = σ.reference page + 1 := by
  unfold pageIncrease
  rw [if_pos h]
  exact Function.update_self ..

theorem pageIncrease_reference_outside (σ : MmuState) (page : ℕ) {q : ℕ}
    (h : zone q = false) : (pageIncrease zone σ page).reference q = σ.reference q := by
  by_cases hq : q = page
  · unfold pageIncrease
    rw [if_neg]
    rw [← hq, h]
    exact Bool.false_ne_true
  · exact pageIncrease_reference_of_ne σ hq

theorem reference_pageIncrease (σ : MmuState) (page q : ℕ) :
    (pageIncrease zone σ page).reference q =
      σ.reference q + if q = page ∧ zone q = true then 1 else 0 := by
  by_cases hq : q = page
  · subst hq
    cases hzone : zone q with
    | false =>
        rw [pageIncrease_reference_outside σ q hzone, if_neg fun h => Bool.false_ne_true h.2,
          Nat.add_zero]
    | true => rw [pageIncrease_reference_self σ hzone, if_pos ⟨rfl, rfl⟩]
  · rw [pageIncrease_reference_of_ne σ hq, if_neg fun h => hq h.1, Nat.add_zero]

theorem MmuState.isTable_pageIncrease (σ : MmuState) (page t : ℕ) :
    (pageIncrease zone σ page).IsTable root t ↔ σ.IsTable root t := by
  unfold MmuState.IsTable
  rw [pageIncrease_mem]

theorem TableInv.pageIncrease (h : TableInv zone root σ) (page : ℕ) :
    TableInv zone root (pageIncrease zone σ page) := by
  refine h.of_reference (pageIncrease_mem σ page) (pageIncrease_mapped σ page) fun t _ => ?_
  rw [reference_pageIncrease]
  exact Nat.le_add_right ..

/-! ## A written entry -/

theorem follow_write_leaf (h : TableInv zone root σ) {p : List (Fin 512)} {t : ℕ}
    (hp : p.length = 2) (ht : follow (nextPage σ.mem) root p = some t) (i : Fin 512)
    (x : BitVec 64) {q : List (Fin 512)} (hq : q.length < 3) :
    follow (nextPage (σ.write ⟨t, i⟩ x).mem) root q = follow (nextPage σ.mem) root q := by
  rw [nextPage_write]
  exact follow_setEntry_last h.distinct (by omega) ht _ hq

theorem follow_write_path (h : TableInv zone root σ) {va : BitVec 64} {t : ℕ}
    (ht : follow (nextPage σ.mem) root [getLevelOff 2 va, getLevelOff 1 va] = some t)
    (x : BitVec 64) (vb : BitVec 64) :
    follow (nextPage (σ.write ⟨t, getLevelOff 0 va⟩ x).mem) root (path vb) =
      if path vb = path va then entryPage x else follow (nextPage σ.mem) root (path vb) := by
  have hva : path va = [getLevelOff 2 va, getLevelOff 1 va] ++ [getLevelOff 0 va] := rfl
  rw [nextPage_write]
  by_cases heq : path vb = path va
  · rw [if_pos heq, heq, hva]
    exact follow_setEntry_self (p := [getLevelOff 2 va, getLevelOff 1 va]) h.distinct
      (Nat.lt_succ_self 2) ht _
  · rw [if_neg heq]
    refine follow_setEntry_of_not_prefix (p := [getLevelOff 2 va, getLevelOff 1 va])
      (q := path vb) h.distinct (Nat.lt_succ_self 2) ht (Nat.le_refl 3) _ ?_
    intro hpre
    exact heq (hpre.eq_of_length rfl).symm

theorem MmuState.isTable_write_leaf (h : TableInv zone root σ) {p : List (Fin 512)} {t : ℕ}
    (hp : p.length = 2) (ht : follow (nextPage σ.mem) root p = some t) (i : Fin 512)
    (x : BitVec 64) (s : ℕ) : (σ.write ⟨t, i⟩ x).IsTable root s ↔ σ.IsTable root s := by
  constructor
  · rintro ⟨q, hq, hs⟩
    rw [follow_write_leaf h hp ht i x hq] at hs
    exact ⟨q, hq, hs⟩
  · rintro ⟨q, hq, hs⟩
    refine ⟨q, hq, ?_⟩
    rw [follow_write_leaf h hp ht i x hq]
    exact hs

/-- A leaf entry changes and the references follow: the invariant holds with the new
record. -/
theorem TableInv.write_leaf (h : TableInv zone root σ) {va : BitVec 64} {t : ℕ}
    (hva : va.toNat < 2 ^ 39)
    (ht : follow (nextPage σ.mem) root [getLevelOff 2 va, getLevelOff 1 va] = some t)
    {x : BitVec 64} (hmem : τ.mem = (σ.write ⟨t, getLevelOff 0 va⟩ x).mem)
    (hmapped : τ.mapped = Function.update σ.mapped (pageOf va) (entryPage x))
    (hleaf : pteUsed x = true → pageIsLeaf x = true)
    (hself : usedEntries τ.mem t + 1 ≤ τ.reference t)
    (href : ∀ s, s ≠ t → σ.IsTable root s → τ.reference s = σ.reference s) :
    TableInv zone root τ where
  root_ne := h.root_ne
  distinct := by
    rw [hmem, nextPage_write]
    exact Distinct.setEntry_last (p := [getLevelOff 2 va, getLevelOff 1 va]) h.distinct rfl ht _
  tables := by
    intro q s hne hq hs
    rw [hmem, follow_write_leaf h rfl ht _ _ hq] at hs
    obtain ⟨hzero, hzone, hcount⟩ := h.tables hne hq hs
    refine ⟨hzero, hzone, ?_⟩
    by_cases hst : s = t
    · rw [hst]
      exact hself
    · rw [hmem, usedEntries_write_of_ne _ _ _ hst, href s hst ⟨q, hq, hs⟩]
      exact hcount
  leaves := by
    intro q s i hq hs hused
    rw [hmem] at hs hused ⊢
    rw [follow_write_leaf h rfl ht _ _ (by omega)] at hs
    rw [write_mem] at hused ⊢
    split_ifs at hused ⊢
    · exact hleaf hused
    · exact h.leaves hq hs hused
  record := by
    intro vb hvb
    rw [hmem, follow_write_path h ht, hmapped]
    by_cases hpage : pageOf vb = pageOf va
    · rw [hpage, Function.update_self, if_pos (path_congr hpage)]
    · rw [Function.update_of_ne hpage, if_neg fun heq => hpage (path_inj hvb hva heq)]
      exact h.record vb hvb

/-! ## A new table -/

/-- The state after `PageWalk` put a new table `u` behind the entry `i` of `t`. -/
def newTableState (zone : ℕ → Bool) (platform : Platform) (σ : MmuState) (rest : List ℕ)
    (t u : ℕ) (i : Fin 512) : MmuState :=
  (pageIncrease zone
    (({ σ with supply := rest, reference := Function.update σ.reference u 1 } : MmuState).zero u)
    t).write ⟨t, i⟩ (paddr2Pte (pageAddr u) ||| pteV ||| pageAttrExt platform)

section NewTable

variable {platform : Platform} {rest : List ℕ} {t u : ℕ} {i : Fin 512} {p : List (Fin 512)}

theorem entryPage_table (platform : Platform) {u : ℕ} (hu : u < 2 ^ 28) :
    entryPage (paddr2Pte (pageAddr u) ||| pteV ||| pageAttrExt platform) = some u := by
  have hused : pteUsed (paddr2Pte (pageAddr u) ||| pteV ||| pageAttrExt platform) = true :=
    pteUsed_entry (by decide)
  have haddr := pageAddr_toNat hu
  rw [entryPage_of_used hused,
    pte2Paddr_entry platform (by omega) (by omega) (by decide), pageOf_pageAddr hu]

theorem nextPage_newTableState (zone : ℕ → Bool) (platform : Platform) (σ : MmuState)
    (rest : List ℕ) {t u : ℕ} (i : Fin 512) (hu : u < 2 ^ 28) :
    nextPage (newTableState zone platform σ rest t u i).mem =
      setEntry (nextPage (σ.zero u).mem) t i (some u) := by
  unfold newTableState
  rw [nextPage_write, entryPage_table platform hu, pageIncrease_mem]
  rfl

theorem follow_zero (hu : ¬σ.IsTable root u) {q : List (Fin 512)} (hq : q.length ≤ 3) :
    follow (nextPage (σ.zero u).mem) root q = follow (nextPage σ.mem) root q := by
  refine follow_congr_tables (fun s hs => ?_) hq
  refine nextPage_zero_of_ne σ ?_
  rintro rfl
  exact hu hs

theorem distinct_zero (h : TableInv zone root σ) (hu : ¬σ.IsTable root u) :
    Distinct (nextPage (σ.zero u).mem) root 3 := by
  intro q r s hq hr hqs hrs
  rw [follow_zero hu (by omega)] at hqs hrs
  exact h.distinct hq hr hqs hrs

theorem follow_newTableState (h : TableInv zone root σ) (hp : p.length < 2)
    (ht : follow (nextPage σ.mem) root p = some t) (hunused : pteUsed (σ.mem t i) = false)
    (hu28 : u < 2 ^ 28) (hu : ¬σ.IsTable root u) {q : List (Fin 512)} (hq : q.length ≤ 3)
    (hne : q ≠ p ++ [i]) :
    follow (nextPage (newTableState zone platform σ rest t u i).mem) root q =
      follow (nextPage σ.mem) root q := by
  have hut : u ≠ t := by
    rintro rfl
    exact hu ⟨p, by omega, ht⟩
  rw [nextPage_newTableState _ _ _ _ _ hu28, follow_setEntry_new (distinct_zero h hu) (by omega)
    (by rw [follow_zero hu (by omega)]; exact ht) ?_ hut (nextPage_zero_self σ u) hq hne,
    follow_zero hu hq]
  rw [nextPage_zero_of_ne σ (Ne.symm hut)]
  exact entryPage_of_unused hunused

theorem follow_newTableState_self (h : TableInv zone root σ) (hp : p.length < 2)
    (ht : follow (nextPage σ.mem) root p = some t) (hu28 : u < 2 ^ 28)
    (hu : ¬σ.IsTable root u) :
    follow (nextPage (newTableState zone platform σ rest t u i).mem) root (p ++ [i]) =
      some u := by
  rw [nextPage_newTableState _ _ _ _ _ hu28]
  exact follow_setEntry_self (distinct_zero h hu) (by omega)
    (by rw [follow_zero hu (by omega)]; exact ht) _

theorem isTable_newTableState (h : TableInv zone root σ) (hp : p.length < 2)
    (ht : follow (nextPage σ.mem) root p = some t) (hunused : pteUsed (σ.mem t i) = false)
    (hu28 : u < 2 ^ 28) (hu : ¬σ.IsTable root u) {s : ℕ}
    (hs : (newTableState zone platform σ rest t u i).IsTable root s) :
    σ.IsTable root s ∨ s = u := by
  obtain ⟨q, hq, hqs⟩ := hs
  by_cases hne : q = p ++ [i]
  · rw [hne, follow_newTableState_self h hp ht hu28 hu] at hqs
    exact Or.inr (Option.some.inj hqs).symm
  · rw [follow_newTableState h hp ht hunused hu28 hu (Nat.le_of_lt hq) hne] at hqs
    exact Or.inl ⟨q, hq, hqs⟩

theorem newTableState_mem (zone : ℕ → Bool) (platform : Platform) (σ : MmuState)
    (rest : List ℕ) {t u : ℕ} (i : Fin 512) {s : ℕ} (hst : s ≠ t) (k : Fin 512) :
    (newTableState zone platform σ rest t u i).mem s k =
      if s = u then 0 else σ.mem s k := by
  unfold newTableState
  rw [write_mem, if_neg fun heq => hst heq.1, pageIncrease_mem]
  unfold MmuState.zero
  dsimp only
  by_cases hsu : s = u
  · rw [hsu, if_pos rfl, Function.update_self]
  · rw [if_neg hsu, Function.update_of_ne hsu]

theorem usedEntries_newTableState (zone : ℕ → Bool) (platform : Platform) (σ : MmuState)
    (rest : List ℕ) {t u : ℕ} {i : Fin 512} (hut : u ≠ t)
    (hunused : pteUsed (σ.mem t i) = false) :
    usedEntries (newTableState zone platform σ rest t u i).mem t = usedEntries σ.mem t + 1 := by
  have hold : ∀ k, ((pageIncrease zone (({ σ with
      supply := rest, reference := Function.update σ.reference u 1 } : MmuState).zero u)
      t).mem) t k = σ.mem t k := by
    intro k
    rw [pageIncrease_mem]
    unfold MmuState.zero
    dsimp only
    rw [Function.update_of_ne (Ne.symm hut)]
  unfold newTableState
  refine (usedEntries_write_used _ ⟨t, i⟩ ?_ (pteUsed_entry (by decide))).trans ?_
  · exact (congrArg pteUsed (hold i)).trans hunused
  · rw [usedEntries_congr hold]

theorem newTableState_reference_self (platform : Platform) (σ : MmuState) (rest : List ℕ)
    {t u : ℕ} (i : Fin 512) (hut : u ≠ t) (hzone : zone t = true) :
    (newTableState zone platform σ rest t u i).reference t = σ.reference t + 1 := by
  refine (pageIncrease_reference_self _ hzone).trans ?_
  refine congrArg (· + 1) ?_
  exact Function.update_of_ne (Ne.symm hut) ..

theorem newTableState_reference_of_ne (zone : ℕ → Bool) (platform : Platform) (σ : MmuState)
    (rest : List ℕ) {t u : ℕ} (i : Fin 512) {s : ℕ} (hst : s ≠ t) :
    (newTableState zone platform σ rest t u i).reference s =
      Function.update σ.reference u 1 s :=
  pageIncrease_reference_of_ne _ hst

theorem TableInv.newTable (h : TableInv zone root σ) (hp : p.length < 2)
    (ht : follow (nextPage σ.mem) root p = some t) (hunused : pteUsed (σ.mem t i) = false)
    (hu0 : u ≠ 0) (hu28 : u < 2 ^ 28) (huzone : zone u = true) (hu : ¬σ.IsTable root u) :
    TableInv zone root (newTableState zone platform σ rest t u i) := by
  have hut : u ≠ t := by
    rintro rfl
    exact hu ⟨p, by omega, ht⟩
  have hself : follow (nextPage (newTableState zone platform σ rest t u i).mem) root
      (p ++ [i]) = some u :=
    follow_newTableState_self h hp ht hu28 hu
  have hother : ∀ {q : List (Fin 512)}, q.length ≤ 3 → q ≠ p ++ [i] →
      follow (nextPage (newTableState zone platform σ rest t u i).mem) root q =
        follow (nextPage σ.mem) root q :=
    follow_newTableState h hp ht hunused hu28 hu
  constructor
  · exact h.root_ne
  · rw [nextPage_newTableState _ _ _ _ _ hu28]
    refine Distinct.setEntry_new (p := p) (distinct_zero h hu) (by omega)
      (by rw [follow_zero hu (by omega)]; exact ht) ?_ ?_ (nextPage_zero_self σ u)
    · rw [nextPage_zero_of_ne σ (Ne.symm hut)]
      exact entryPage_of_unused hunused
    · rintro ⟨q, hq, hqu⟩
      rw [follow_zero hu (by omega)] at hqu
      exact hu ⟨q, hq, hqu⟩
  · intro q s hne hq hs
    by_cases hqn : q = p ++ [i]
    · rw [hqn, hself] at hs
      cases hs
      have hzero : usedEntries (newTableState zone platform σ rest t u i).mem u = 0 := by
        unfold usedEntries
        rw [Finset.card_eq_zero, Finset.filter_eq_empty_iff]
        intro k _
        rw [newTableState_mem _ _ _ _ _ hut, if_pos rfl, pteUsed_zero]
        exact Bool.false_ne_true
      refine ⟨hu0, huzone, ?_⟩
      rw [hzero, newTableState_reference_of_ne _ _ _ _ _ hut, Function.update_self]
    · rw [hother (Nat.le_of_lt hq) hqn] at hs
      obtain ⟨hs0, hszone, hcount⟩ := h.tables hne hq hs
      have hsu : s ≠ u := by
        rintro rfl
        exact hu ⟨q, hq, hs⟩
      refine ⟨hs0, hszone, ?_⟩
      by_cases hst : s = t
      · subst hst
        rw [usedEntries_newTableState _ _ _ _ hut hunused,
          newTableState_reference_self _ _ _ _ hut hszone]
        omega
      · rw [newTableState_reference_of_ne _ _ _ _ _ hst, Function.update_of_ne hsu]
        refine Nat.le_trans (Nat.le_of_eq ?_) hcount
        rw [usedEntries_congr fun k => ?_]
        rw [newTableState_mem _ _ _ _ _ hst, if_neg hsu]
  · intro q s k hq hs hused
    by_cases hqn : q = p ++ [i]
    · rw [hqn, hself] at hs
      cases hs
      rw [newTableState_mem _ _ _ _ _ hut, if_pos rfl, pteUsed_zero] at hused
      cases hused
    · rw [hother (by omega) hqn] at hs
      have hsu : s ≠ u := by
        rintro rfl
        exact hu ⟨q, by omega, hs⟩
      -- the table that got the new entry is not one of the last level
      have hst : s ≠ t := by
        rintro rfl
        have hpq := h.distinct (by omega) (by omega) hs ht
        rw [hpq] at hq
        omega
      rw [newTableState_mem _ _ _ _ _ hst, if_neg hsu] at hused ⊢
      exact h.leaves hq hs hused
  · intro va hva
    have hne : path va ≠ p ++ [i] := by
      intro heq
      have hlen := congrArg List.length heq
      rw [List.length_append, List.length_singleton] at hlen
      simp only [path, List.length_cons, List.length_nil] at hlen
      omega
    rw [hother (q := path va) (Nat.le_refl 3) hne]
    refine Eq.trans ?_ (h.record va hva)
    unfold newTableState
    exact congrFun (pageIncrease_mapped _ _) _

end NewTable

/-! ## Growth -/

/-- What the mapping functions do to the tables.  They take tables from the supply and
add entries to tables, and count every entry as a reference to its table. -/
structure Grows (zone : ℕ → Bool) (root : ℕ) (σ τ : MmuState) : Prop where
  inv : TableInv zone root τ
  fresh : FreshSupply zone root τ
  supply : τ.supply <:+ σ.supply
  kept : ∀ {q}, q ∈ τ.supply → τ.reference q = σ.reference q
  paths : ∀ {p t}, p.length < 3 → follow (nextPage σ.mem) root p = some t →
    follow (nextPage τ.mem) root p = some t
  newTables : ∀ {t}, τ.IsTable root t → σ.IsTable root t ∨ t ∈ σ.supply
  frame : ∀ {q}, q ∉ σ.supply → ¬σ.IsTable root q → τ.mem q = σ.mem q
  balance : ∀ {q}, q ∉ σ.supply → zone q = true →
    τ.reference q + usedEntries σ.mem q = σ.reference q + usedEntries τ.mem q
  outside : ∀ {q}, zone q = false → τ.reference q = σ.reference q

theorem Grows.refl (h : TableInv zone root σ) (hs : FreshSupply zone root σ) :
    Grows zone root σ σ where
  inv := h
  fresh := hs
  supply := List.suffix_rfl
  kept _ := rfl
  paths _ ht := ht
  newTables := Or.inl
  frame _ _ := rfl
  balance _ _ := rfl
  outside _ := rfl

theorem Grows.tables (h : Grows zone root σ τ) {t : ℕ} (ht : σ.IsTable root t) :
    τ.IsTable root t := by
  obtain ⟨p, hp, hpt⟩ := ht
  exact ⟨p, hp, h.paths hp hpt⟩

theorem Grows.trans {υ : MmuState} (h₁ : Grows zone root σ τ) (h₂ : Grows zone root τ υ) :
    Grows zone root σ υ where
  inv := h₂.inv
  fresh := h₂.fresh
  supply := h₂.supply.trans h₁.supply
  kept hq := (h₂.kept hq).trans (h₁.kept (h₂.supply.subset hq))
  paths hp ht := h₂.paths hp (h₁.paths hp ht)
  newTables ht := by
    rcases h₂.newTables ht with hold | hsupply
    · exact h₁.newTables hold
    · exact Or.inr (h₁.supply.subset hsupply)
  frame := by
    intro q hq htable
    have hq' : q ∉ τ.supply := fun hmem => hq (h₁.supply.subset hmem)
    have htable' : ¬τ.IsTable root q := by
      intro hτ
      rcases h₁.newTables hτ with hold | hsupply
      · exact htable hold
      · exact hq hsupply
    rw [h₂.frame hq' htable', h₁.frame hq htable]
  balance := by
    intro q hq hzone
    have hq' : q ∉ τ.supply := fun hmem => hq (h₁.supply.subset hmem)
    have hστ := h₁.balance hq hzone
    have hτυ := h₂.balance hq' hzone
    omega
  outside hzone := (h₂.outside hzone).trans (h₁.outside hzone)

theorem Grows.reference_eq (h : Grows zone root σ τ) {q : ℕ} (hq : q ∉ σ.supply)
    (htable : ¬σ.IsTable root q) : τ.reference q = σ.reference q := by
  cases hzone : zone q with
  | false => exact h.outside hzone
  | true =>
      have hbalance := h.balance hq hzone
      rw [usedEntries_congr fun k => congrFun (h.frame hq htable) k] at hbalance
      omega

theorem Grows.not_isTable (h : Grows zone root σ τ) {q : ℕ} (hq : q ∉ σ.supply)
    (htable : ¬σ.IsTable root q) : ¬τ.IsTable root q := by
  intro ht
  rcases h.newTables ht with hold | hsupply
  · exact htable hold
  · exact hq hsupply

theorem FreshSupply.of_suffix (hs : FreshSupply zone root σ) (taken : List ℕ)
    (hsupply : taken ++ τ.supply = σ.supply)
    (htables : ∀ {t}, τ.IsTable root t → σ.IsTable root t ∨ t ∈ taken) :
    FreshSupply zone root τ where
  nodup := by
    have hnodup := hs.nodup
    rw [← hsupply] at hnodup
    exact (List.nodup_append.mp hnodup).2.1
  fresh := by
    intro q hq
    have hmem : q ∈ σ.supply := by
      rw [← hsupply]
      exact List.mem_append_right _ hq
    obtain ⟨hq0, hq28, hqzone, hqtable⟩ := hs.fresh q hmem
    refine ⟨hq0, hq28, hqzone, fun htable => ?_⟩
    rcases htables htable with hold | htaken
    · exact hqtable hold
    · have hnodup := hs.nodup
      rw [← hsupply] at hnodup
      exact (List.nodup_append.mp hnodup).2.2 q htaken q hq rfl

theorem FreshSupply.pageIncrease (h : FreshSupply zone root σ) (page : ℕ) :
    FreshSupply zone root (pageIncrease zone σ page) :=
  h.of_suffix [] (pageIncrease_supply σ page) fun ht =>
    Or.inl ((σ.isTable_pageIncrease page _).mp ht)

theorem Grows.newTable (h : TableInv zone root σ) (hs : FreshSupply zone root σ)
    (platform : Platform) {p : List (Fin 512)} (hp : p.length < 2) {t u : ℕ} {i : Fin 512}
    {rest : List ℕ} (ht : follow (nextPage σ.mem) root p = some t)
    (hunused : pteUsed (σ.mem t i) = false) (hsupply : σ.supply = u :: rest) :
    Grows zone root σ (newTableState zone platform σ rest t u i) := by
  obtain ⟨hu0, hu28, huzone, hu⟩ := hs.fresh u (by rw [hsupply]; exact List.mem_cons_self ..)
  have hut : u ≠ t := by
    rintro rfl
    exact hu ⟨p, by omega, ht⟩
  have hrest : (newTableState zone platform σ rest t u i).supply = rest :=
    pageIncrease_supply _ _
  have hnew : ∀ {s}, (newTableState zone platform σ rest t u i).IsTable root s →
      σ.IsTable root s ∨ s ∈ [u] := by
    intro s htable
    rw [List.mem_singleton]
    exact isTable_newTableState h hp ht hunused hu28 hu htable
  constructor
  · exact h.newTable hp ht hunused hu0 hu28 huzone hu
  · refine hs.of_suffix [u] ?_ hnew
    rw [hrest, hsupply]
    rfl
  · rw [hrest, hsupply]
    exact List.suffix_cons u rest
  · intro q hq
    rw [hrest] at hq
    have hmem : q ∈ σ.supply := by
      rw [hsupply]
      exact List.mem_cons_of_mem u hq
    have hqu : q ≠ u := by
      rintro rfl
      have hnodup := hs.nodup
      rw [hsupply, List.nodup_cons] at hnodup
      exact hnodup.1 hq
    have hqt : q ≠ t := by
      rintro rfl
      exact (hs.fresh q hmem).2.2.2 ⟨p, by omega, ht⟩
    rw [newTableState_reference_of_ne _ _ _ _ _ hqt, Function.update_of_ne hqu]
  · intro q s hq hqs
    have hne : q ≠ p ++ [i] := by
      rintro rfl
      rw [follow_concat, ht, Option.bind_some] at hqs
      rw [show nextPage σ.mem t i = none from entryPage_of_unused hunused] at hqs
      cases hqs
    rw [follow_newTableState h hp ht hunused hu28 hu (Nat.le_of_lt hq) hne]
    exact hqs
  · intro s htable
    rcases hnew htable with hold | hmem
    · exact Or.inl hold
    · rw [List.mem_singleton] at hmem
      rw [hmem, hsupply]
      exact Or.inr (List.mem_cons_self ..)
  · intro q hq htable
    have hqt : q ≠ t := by
      rintro rfl
      exact htable ⟨p, by omega, ht⟩
    have hqu : q ≠ u := by
      rintro rfl
      rw [hsupply] at hq
      exact hq (List.mem_cons_self ..)
    funext k
    rw [newTableState_mem _ _ _ _ _ hqt, if_neg hqu]
  · intro q hq hzone
    have hqu : q ≠ u := by
      rintro rfl
      rw [hsupply] at hq
      exact hq (List.mem_cons_self ..)
    by_cases hqt : q = t
    · subst hqt
      rw [usedEntries_newTableState _ _ _ _ hut hunused,
        newTableState_reference_self _ _ _ _ hut hzone]
      omega
    · rw [newTableState_reference_of_ne _ _ _ _ _ hqt, Function.update_of_ne hqu]
      refine congrArg (σ.reference q + ·) (usedEntries_congr fun k => ?_).symm
      rw [newTableState_mem _ _ _ _ _ hqt, if_neg hqu]
  · intro q hzone
    have hqu : q ≠ u := by
      rintro rfl
      exact Bool.false_ne_true (hzone.symm.trans huzone)
    exact (pageIncrease_reference_outside _ t hzone).trans (Function.update_of_ne hqu ..)

/-- The state after `MapOnePage` wrote the entry of `va` in the table `t`. -/
def newLeafState (zone : ℕ → Bool) (σ : MmuState) (t : ℕ) (va x : BitVec 64) : MmuState :=
  { (pageIncrease zone σ t).write ⟨t, getLevelOff 0 va⟩ x with
    mapped := Function.update σ.mapped (pageOf va) (entryPage x) }

section NewLeaf

variable {va x : BitVec 64} {t : ℕ}

theorem newLeafState_mem (zone : ℕ → Bool) (σ : MmuState) (t : ℕ) (va x : BitVec 64) :
    (newLeafState zone σ t va x).mem = (σ.write ⟨t, getLevelOff 0 va⟩ x).mem := by
  unfold newLeafState MmuState.write
  rw [pageIncrease_mem]

theorem usedEntries_newLeafState (zone : ℕ → Bool)
    (hunused : pteUsed (σ.read ⟨t, getLevelOff 0 va⟩) = false) (hused : pteUsed x = true) :
    usedEntries (newLeafState zone σ t va x).mem t = usedEntries σ.mem t + 1 := by
  rw [newLeafState_mem]
  exact usedEntries_write_used σ ⟨t, getLevelOff 0 va⟩ hunused hused

theorem TableInv.newLeaf (h : TableInv zone root σ) (hva : va.toNat < 2 ^ 39)
    (ht : follow (nextPage σ.mem) root [getLevelOff 2 va, getLevelOff 1 va] = some t)
    (hunused : pteUsed (σ.read ⟨t, getLevelOff 0 va⟩) = false) (hused : pteUsed x = true)
    (hleaf : pageIsLeaf x = true) : TableInv zone root (newLeafState zone σ t va x) := by
  obtain ⟨-, hzone, hcount⟩ := h.tables (p := [getLevelOff 2 va, getLevelOff 1 va])
    (List.cons_ne_nil _ _) (Nat.lt_succ_self 2) ht
  refine h.write_leaf hva ht (newLeafState_mem ..) rfl (fun _ => hleaf) ?_ ?_
  · rw [usedEntries_newLeafState zone hunused hused]
    refine Nat.le_trans (Nat.succ_le_succ hcount) (Nat.le_of_eq ?_)
    exact (pageIncrease_reference_self σ hzone).symm
  · intro s hs _
    exact pageIncrease_reference_of_ne σ hs

theorem Grows.newLeaf (h : TableInv zone root σ) (hs : FreshSupply zone root σ)
    (hva : va.toNat < 2 ^ 39)
    (ht : follow (nextPage σ.mem) root [getLevelOff 2 va, getLevelOff 1 va] = some t)
    (hunused : pteUsed (σ.read ⟨t, getLevelOff 0 va⟩) = false) (hused : pteUsed x = true)
    (hleaf : pageIsLeaf x = true) : Grows zone root σ (newLeafState zone σ t va x) := by
  have hsupply : (newLeafState zone σ t va x).supply = σ.supply := pageIncrease_supply σ t
  have htables : ∀ s, (newLeafState zone σ t va x).IsTable root s ↔ σ.IsTable root s := by
    intro s
    unfold MmuState.IsTable
    rw [newLeafState_mem]
    exact MmuState.isTable_write_leaf h (p := [getLevelOff 2 va, getLevelOff 1 va]) rfl ht _ _ s
  constructor
  · exact h.newLeaf hva ht hunused hused hleaf
  · exact hs.of_suffix [] hsupply fun hs' => Or.inl ((htables _).mp hs')
  · rw [hsupply]
  · intro q hq
    rw [hsupply] at hq
    refine pageIncrease_reference_of_ne σ ?_
    rintro rfl
    exact (hs.fresh q hq).2.2.2 ⟨[getLevelOff 2 va, getLevelOff 1 va], Nat.lt_succ_self 2, ht⟩
  · intro p s hp hps
    rw [newLeafState_mem,
      follow_write_leaf h (p := [getLevelOff 2 va, getLevelOff 1 va]) rfl ht _ _ hp]
    exact hps
  · exact fun hs' => Or.inl ((htables _).mp hs')
  · intro q _ hq
    have hqt : q ≠ t := by
      rintro rfl
      exact hq ⟨[getLevelOff 2 va, getLevelOff 1 va], Nat.lt_succ_self 2, ht⟩
    funext k
    rw [newLeafState_mem, write_mem, if_neg fun heq => hqt heq.1]
  · intro q _ hzone
    by_cases hqt : q = t
    · subst hqt
      have href : (newLeafState zone σ q va x).reference q = σ.reference q + 1 :=
        pageIncrease_reference_self σ hzone
      rw [usedEntries_newLeafState zone hunused hused, href]
      omega
    · have href : (newLeafState zone σ t va x).reference q = σ.reference q :=
        pageIncrease_reference_of_ne σ hqt
      rw [href, newLeafState_mem, usedEntries_write_of_ne _ _ _ hqt]
  · intro q hzone
    exact pageIncrease_reference_outside σ t hzone

end NewLeaf

/-! ## Clearing -/

/-- What the unmapping functions do to the tables when they clear entries that lead to
`pages`. -/
structure Clears (zone : ℕ → Bool) (root : ℕ) (pages : List ℕ) (σ τ : MmuState) : Prop where
  inv : TableInv zone root τ
  supply : τ.supply = σ.supply
  tables : ∀ {t}, τ.IsTable root t ↔ σ.IsTable root t
  frame : ∀ {q}, ¬σ.IsTable root q → τ.mem q = σ.mem q
  balance : ∀ {q}, q ∉ pages → zone q = true →
    τ.reference q + usedEntries σ.mem q = σ.reference q + usedEntries τ.mem q
  released : ∀ {q}, ¬σ.IsTable root q → zone q = true →
    τ.reference q = σ.reference q - pages.count q
  outside : ∀ {q}, zone q = false → τ.reference q = σ.reference q

theorem Clears.refl (h : TableInv zone root σ) : Clears zone root [] σ σ where
  inv := h
  supply := rfl
  tables := Iff.rfl
  frame _ := rfl
  balance _ _ := rfl
  released _ _ := rfl
  outside _ := rfl

theorem Clears.trans {υ : MmuState} {ps qs : List ℕ} (h₁ : Clears zone root ps σ τ)
    (h₂ : Clears zone root qs τ υ) : Clears zone root (ps ++ qs) σ υ where
  inv := h₂.inv
  supply := h₂.supply.trans h₁.supply
  tables := h₂.tables.trans h₁.tables
  frame := by
    intro q hq
    rw [h₂.frame fun ht => hq (h₁.tables.mp ht), h₁.frame hq]
  balance := by
    intro q hq hzone
    rw [List.mem_append, not_or] at hq
    have hστ := h₁.balance hq.1 hzone
    have hτυ := h₂.balance hq.2 hzone
    omega
  released := by
    intro q hq hzone
    rw [h₂.released (fun ht => hq (h₁.tables.mp ht)) hzone, h₁.released hq hzone,
      List.count_append, Nat.sub_sub]
  outside hzone := (h₂.outside hzone).trans (h₁.outside hzone)

/-- The state after `UnmapOnePage` freed `page` and cleared the entry of `va` in the
table `t`, which has other references. -/
def clearedState (zone : ℕ → Bool) (σ : MmuState) (t page : ℕ) (va : BitVec 64) : MmuState :=
  let reference := if zone page then Function.update σ.reference page (σ.reference page - 1)
    else σ.reference
  { σ.write ⟨t, getLevelOff 0 va⟩ 0 with
    reference := Function.update reference t (reference t - 1)
    mapped := Function.update σ.mapped (pageOf va) none }

section Cleared

variable {va : BitVec 64} {t page : ℕ}

theorem clearedState_reference_of_ne (zone : ℕ → Bool) (σ : MmuState) {t page : ℕ}
    (va : BitVec 64) {q : ℕ} (ht : q ≠ t) (hpage : q ≠ page) :
    (clearedState zone σ t page va).reference q = σ.reference q := by
  unfold clearedState
  dsimp only
  rw [Function.update_of_ne ht]
  split_ifs
  · exact Function.update_of_ne hpage ..
  · rfl

theorem clearedState_reference_table (zone : ℕ → Bool) (σ : MmuState) {t page : ℕ}
    (va : BitVec 64) (hpage : t ≠ page) :
    (clearedState zone σ t page va).reference t = σ.reference t - 1 := by
  unfold clearedState
  dsimp only
  rw [Function.update_self]
  split_ifs
  · rw [Function.update_of_ne hpage]
  · rfl

theorem clearedState_reference_page (σ : MmuState) {t page : ℕ} (va : BitVec 64)
    (hpage : page ≠ t) (hzone : zone page = true) :
    (clearedState zone σ t page va).reference page = σ.reference page - 1 := by
  unfold clearedState
  dsimp only
  rw [Function.update_of_ne hpage, if_pos hzone, Function.update_self]

theorem Clears.of_clearedState (h : TableInv zone root σ) (hva : va.toNat < 2 ^ 39)
    (ht : follow (nextPage σ.mem) root [getLevelOff 2 va, getLevelOff 1 va] = some t)
    (hused : pteUsed (σ.read ⟨t, getLevelOff 0 va⟩) = true) (hpage : ¬σ.IsTable root page) :
    Clears zone root [page] σ (clearedState zone σ t page va) := by
  obtain ⟨-, hzone, hcount⟩ := h.tables (p := [getLevelOff 2 va, getLevelOff 1 va])
    (List.cons_ne_nil _ _) (Nat.lt_succ_self 2) ht
  have htable : σ.IsTable root t :=
    ⟨[getLevelOff 2 va, getLevelOff 1 va], Nat.lt_succ_self 2, ht⟩
  have htp : t ≠ page := by
    rintro rfl
    exact hpage htable
  have hdrop : usedEntries (clearedState zone σ t page va).mem t + 1 = usedEntries σ.mem t :=
    usedEntries_write_unused σ ⟨t, getLevelOff 0 va⟩ hused pteUsed_zero
  have hother : ∀ q, q ≠ t → (clearedState zone σ t page va).mem q = σ.mem q := by
    intro q hqt
    exact Function.update_of_ne hqt ..
  constructor
  · refine h.write_leaf hva ht rfl rfl (fun hzero => absurd hzero (by decide)) ?_ ?_
    · rw [hdrop, clearedState_reference_table _ _ _ htp]
      omega
    · intro s hst hs
      refine clearedState_reference_of_ne _ _ _ hst ?_
      rintro rfl
      exact hpage hs
  · rfl
  · intro s
    exact MmuState.isTable_write_leaf h (p := [getLevelOff 2 va, getLevelOff 1 va]) rfl ht _ _ s
  · intro q hq
    apply hother
    rintro rfl
    exact hq htable
  · intro q hqp _
    rw [List.mem_singleton] at hqp
    by_cases hqt : q = t
    · subst hqt
      rw [clearedState_reference_table _ _ _ htp]
      omega
    · rw [clearedState_reference_of_ne _ _ _ hqt hqp,
        usedEntries_congr fun k => congrFun (hother q hqt) k]
  · intro q hqtable hqzone
    by_cases hqp : q = page
    · subst hqp
      rw [clearedState_reference_page σ va (Ne.symm htp) hqzone, List.count_singleton_self]
    · have hqt : q ≠ t := by
        rintro rfl
        exact hqtable htable
      rw [clearedState_reference_of_ne _ _ _ hqt hqp,
        List.count_eq_zero_of_not_mem (fun hmem => hqp (List.mem_singleton.mp hmem)), Nat.sub_zero]
  · intro q hqzone
    have hqt : q ≠ t := by
      rintro rfl
      exact Bool.false_ne_true (hqzone.symm.trans hzone)
    by_cases hqp : q = page
    · subst hqp
      unfold clearedState
      dsimp only
      rw [Function.update_of_ne hqt, if_neg (by rw [hqzone]; exact Bool.false_ne_true)]
    · exact clearedState_reference_of_ne _ _ _ hqt hqp

end Cleared

end Nxos.Riscv64
