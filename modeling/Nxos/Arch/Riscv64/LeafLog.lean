import Nxos.Arch.Riscv64.UserPages

/-!
# The leaf pages of a failed mapping

`__MapPage` takes a page for every leaf and, when it fails, gives the pages back: the one it
has in hand to `NX_PageFree`, those that are mapped through `__UnmapPage`.  The functions are
repeated here with a log of these calls.  Taking the log away gives the functions of the
source; on the failure path the log shows every page that was taken exactly once among the
pages that were freed.
-/

namespace Nxos.Riscv64

open Nxos.Radix Nxos.Transition

variable {zone : ℕ → Bool} {platform : Platform} {root : ℕ} {σ τ : MmuState}

/-! ## Logged functions -/

/-- The leaf pages that were taken with `NX_PageAlloc`, and those that were passed to
`NX_PageFree` with its answers. -/
structure LeafLog where
  taken : List ℕ
  freed : List (ℕ × NxError)

section Logged

variable (zone : ℕ → Bool) (platform : Platform) (root : ℕ)

/-- The part of `UnmapOnePage` that frees the leaf: the page and the answer. -/
def leafFree (σ : MmuState) (va : BitVec 64) : Exec (ℕ × NxError) := do
  match pageWalkPte root σ va with
  | none => .error .assertion
  | some (_, _, pte0) =>
      nxAssert (pteUsed (σ.read pte0))
      nxAssert (pageIsLeaf (σ.read pte0))
      let phyPage := pte2Paddr (σ.read pte0)
      nxAssert (phyPage ≠ 0)
      let (err, _) ← pageFree zone σ (pageOf phyPage)
      return (pageOf phyPage, err)

/-- `__UnmapPage` with the leaves that it frees. -/
def unmapPagesLogged (va : BitVec 64) : ℕ → MmuState → Exec (List (ℕ × NxError) × MmuState)
  | 0, σ => .ok ([], σ)
  | pages + 1, σ => do
      let leaf ← leafFree zone root σ va
      let σ ← unmapOnePage zone root σ va
      let (freed, σ) ← unmapPagesLogged (va + 4096) pages σ
      return (leaf :: freed, σ)

/-- The loop of `__MapPage` with its leaves. -/
def mapPagesLogged (start attr : BitVec 64) (mappedPages : ℕ) (va : BitVec 64) :
    ℕ → MmuState → Exec (LeafLog × Option (BitVec 64) × MmuState)
  | 0, σ => .ok (⟨[], []⟩, some start, σ)
  | pages + 1, σ =>
      match pageAlloc σ with
      | (none, σ) => do
          let (freed, σ) ← unmapPagesLogged zone root start mappedPages σ
          return (⟨[], freed⟩, none, σ)
      | (some page, σ) => do
          match ← mapOnePage zone platform root σ va (pageAddr page) attr with
          | (.eok, σ) => do
              let (log, r) ← mapPagesLogged start attr (mappedPages + 1) (va + 4096) pages σ
              return (⟨page :: log.taken, log.freed⟩, r)
          | (_, σ) =>
              let (err, σ) ← pageFree zone σ page
              let (freed, σ) ← unmapPagesLogged zone root start mappedPages σ
              return (⟨[page], (page, err) :: freed⟩, none, σ)

/-- `NX_HalMapPage` with its leaves. -/
def halMapPageLogged (σ : MmuState) (va size attr : BitVec 64) :
    Exec (LeafLog × Option (BitVec 64) × MmuState) :=
  if attr = 0 then .ok (⟨[], []⟩, none, σ)
  else
    let va := pageAlignDown va
    let size := pageAlignUp size
    mapPagesLogged zone platform root va attr 0 va (rangePages va size).toInt.toNat σ

end Logged

/-! ## Taking the log away -/

theorem leafFree_bind_unmapOnePage (σ : MmuState) (va : BitVec 64) :
    (leafFree zone root σ va >>= fun _ => unmapOnePage zone root σ va) =
      unmapOnePage zone root σ va := by
  unfold leafFree unmapOnePage
  cases pageWalkPte root σ va with
  | none => rfl
  | some ptes =>
      obtain ⟨pte2, pte1, pte0⟩ := ptes
      dsimp only
      by_cases hused : pteUsed (σ.read pte0) = true
      · by_cases hleaf : pageIsLeaf (σ.read pte0) = true
        · by_cases hphy : pte2Paddr (σ.read pte0) ≠ 0
          · simp only [nxAssert_pos hused, nxAssert_pos hleaf, nxAssert_pos hphy, exec_ok_bind]
            cases pageFree zone σ (pageOf (pte2Paddr (σ.read pte0))) with
            | error f => rfl
            | ok r => rfl
          · simp only [nxAssert_pos hused, nxAssert_pos hleaf, nxAssert_neg hphy, exec_ok_bind,
              exec_error_bind]
        · simp only [nxAssert_pos hused, nxAssert_neg hleaf, exec_ok_bind, exec_error_bind]
      · simp only [nxAssert_neg hused, exec_error_bind]

theorem unmapPagesLogged_erase (va : BitVec 64) (n : ℕ) (σ : MmuState) :
    (unmapPagesLogged zone root va n σ).map Prod.snd = unmapPages zone root va n σ := by
  induction n generalizing va σ with
  | zero => rfl
  | succ n ih =>
      rw [unmapPagesLogged, unmapPages, ← leafFree_bind_unmapOnePage]
      cases leafFree zone root σ va with
      | error f => rfl
      | ok leaf =>
          rw [exec_ok_bind, exec_ok_bind]
          cases unmapOnePage zone root σ va with
          | error f => rfl
          | ok σ₁ =>
              rw [exec_ok_bind, exec_ok_bind, ← ih]
              cases unmapPagesLogged zone root (va + 4096) n σ₁ with
              | error f => rfl
              | ok r => rfl

theorem mapPagesLogged_erase (start attr : BitVec 64) (m : ℕ) (va : BitVec 64) (n : ℕ)
    (σ : MmuState) :
    (mapPagesLogged zone platform root start attr m va n σ).map Prod.snd =
      mapPages zone platform root start attr m va n σ := by
  induction n generalizing m va σ with
  | zero => rfl
  | succ n ih =>
      rw [mapPagesLogged, mapPages]
      rcases pageAlloc σ with ⟨page, σ₁⟩
      cases page with
      | none =>
          dsimp only
          rw [← unmapPagesLogged_erase]
          cases unmapPagesLogged zone root start m σ₁ with
          | error f => rfl
          | ok r => rfl
      | some page =>
          dsimp only
          cases mapOnePage zone platform root σ₁ va (pageAddr page) attr with
          | error f => rfl
          | ok r =>
              obtain ⟨err, σ₂⟩ := r
              rw [exec_ok_bind, exec_ok_bind]
              by_cases herr : err = .eok
              · subst herr
                dsimp only
                rw [← ih]
                cases mapPagesLogged zone platform root start attr (m + 1) (va + 4096) n σ₂ with
                | error f => rfl
                | ok r => rfl
              · cases err with
                | eok => exact absurd rfl herr
                | _ =>
                    dsimp only
                    cases pageFree zone σ₂ page with
                    | error f => rfl
                    | ok freed =>
                        rw [exec_ok_bind, exec_ok_bind, ← unmapPagesLogged_erase]
                        cases unmapPagesLogged zone root start m freed.2 with
                        | error f => rfl
                        | ok r => rfl

theorem halMapPageLogged_erase (zone : ℕ → Bool) (platform : Platform) (root : ℕ) (σ : MmuState)
    (va size attr : BitVec 64) :
    (halMapPageLogged zone platform root σ va size attr).map Prod.snd =
      halMapPage zone platform root σ va size attr := by
  unfold halMapPageLogged halMapPage
  split_ifs
  · rfl
  · exact mapPagesLogged_erase ..

/-- The answer of a logged function is that of the function of the source. -/
theorem eq_ok_of_erase {α β : Type} {x : Exec (α × β)} {y : Exec β} {a : α} {b : β}
    (herase : x.map Prod.snd = y) (h : x = .ok (a, b)) : y = .ok b := by
  rw [← herase, h]
  rfl

/-! ## Unmapping leaves -/

theorem leafFree_last (h : TableInv zone root σ) {va : BitVec 64} (hva : va.toNat < 2 ^ 39)
    {page : ℕ} (hold : σ.mapped (pageOf va) = some page) (hne : page ≠ 0)
    (hzone : zone page = true) (href : σ.reference page = 1) :
    leafFree zone root σ va = .ok (page, .eok) := by
  obtain ⟨t, ht, hused, hleaf, hentry⟩ := h.entry_of_mapped hva hold
  obtain ⟨pte2, pte1, hwalk⟩ := pageWalkPte_of_follow ht
  have haddr : pte2Paddr (σ.read ⟨t, getLevelOff 0 va⟩) ≠ 0 := by
    intro hzero
    apply hne
    rw [hentry, hzero]
    rfl
  unfold leafFree
  rw [hwalk]
  dsimp only
  rw [nxAssert_pos hused, exec_ok_bind, nxAssert_pos hleaf, exec_ok_bind, nxAssert_pos haddr,
    exec_ok_bind, ← hentry, pageFree_last σ hne hzone href]
  rfl

/-- The leaves of a range are pages of the zone with one reference each, and all different. -/
structure OwnLeaves (zone : ℕ → Bool) (root : ℕ) (σ : MmuState) (first n : ℕ) (g : ℕ → ℕ) :
    Prop where
  mapped : ∀ {k}, k < n → σ.mapped (first + k) = some (g k)
  ne_zero : ∀ {k}, k < n → g k ≠ 0
  zone : ∀ {k}, k < n → zone (g k) = true
  table : ∀ {k}, k < n → ¬σ.IsTable root (g k)
  reference : ∀ {k}, k < n → σ.reference (g k) = 1
  injective : ∀ {i j}, i < n → j < n → g i = g j → i = j

theorem OwnLeaves.tail {first n : ℕ} {g : ℕ → ℕ} (h : OwnLeaves zone root σ first (n + 1) g)
    (hclears : Clears zone root [g 0] σ τ)
    (hmapped : τ.mapped = Function.update σ.mapped first none) :
    OwnLeaves zone root τ (first + 1) n fun k => g (k + 1) where
  mapped := by
    intro k hk
    rw [hmapped, Function.update_of_ne (by omega), ← h.mapped (Nat.succ_lt_succ hk)]
    exact congrArg σ.mapped (by omega)
  ne_zero hk := h.ne_zero (Nat.succ_lt_succ hk)
  zone hk := h.zone (Nat.succ_lt_succ hk)
  table hk ht := h.table (Nat.succ_lt_succ hk) (hclears.tables.mp ht)
  reference := by
    intro k hk
    have hother : g (k + 1) ∉ [g 0] := by
      rw [List.mem_singleton]
      intro heq
      exact Nat.succ_ne_zero k (h.injective (Nat.succ_lt_succ hk) (Nat.succ_pos n) heq)
    rw [hclears.released (h.table (Nat.succ_lt_succ hk)) (h.zone (Nat.succ_lt_succ hk)),
      List.count_eq_zero_of_not_mem hother]
    exact h.reference (Nat.succ_lt_succ hk)
  injective hi hj heq :=
    Nat.succ.inj (h.injective (Nat.succ_lt_succ hi) (Nat.succ_lt_succ hj) heq)

/-- `__UnmapPage` gives every such leaf back to the allocator. -/
theorem unmapPagesLogged_outcome {n : ℕ} (h : TableInv zone root σ) {va : BitVec 64}
    (hrange : pageOf va + n ≤ 2 ^ 27) {g : ℕ → ℕ}
    (hown : OwnLeaves zone root σ (pageOf va) n g) :
    ∃ τ, unmapPagesLogged zone root va n σ = .ok ((List.range n).map fun k => (g k, .eok), τ) ∧
      Clears zone root ((List.range n).map g) σ τ ∧
      τ.mapped = setRange σ.mapped (pageOf va) n fun _ => none := by
  induction n generalizing va σ g with
  | zero =>
      refine ⟨σ, rfl, Clears.refl h, ?_⟩
      rw [setRange_zero]
  | succ n ih =>
      have hva : va.toNat < 2 ^ 39 := toNat_lt_of_pageOf (n := 27) (by omega)
      have hmapped := hown.mapped (Nat.succ_pos n)
      rw [Nat.add_zero] at hmapped
      have hne := hown.ne_zero (Nat.succ_pos n)
      obtain ⟨σ₁, hone, hclears, hmapped₁⟩ :=
        unmapOnePage_outcome h hva hmapped hne (hown.table (Nat.succ_pos n))
      have hnext : pageOf (va + 4096) = pageOf va + 1 := pageOf_next (by omega)
      have hown₁ := hown.tail hclears hmapped₁
      rw [← hnext] at hown₁
      obtain ⟨τ, hrest, hclears', hmapped'⟩ := ih hclears.inv (by omega) hown₁
      refine ⟨τ, ?_, ?_, ?_⟩
      · rw [unmapPagesLogged, leafFree_last h hva hmapped hne (hown.zone (Nat.succ_pos n))
          (hown.reference (Nat.succ_pos n)), exec_ok_bind, hone, exec_ok_bind, hrest,
          List.range_succ_eq_map, List.map_cons, List.map_map]
        rfl
      · rw [List.range_succ_eq_map, List.map_cons, List.map_map]
        exact hclears.trans hclears'
      · rw [hmapped', hnext, hmapped₁]
        exact setRange_succ σ.mapped (pageOf va) n fun _ => none

/-! ## Mapping leaves -/

/-- The page `2 ^ 27` has the entry of page zero. -/
theorem path_end {va : BitVec 64} (h : pageOf va = 2 ^ 27) : path va = path 0 := by
  have hoff : ∀ level ≤ 2, getLevelOff level va = getLevelOff level 0 := by
    intro level hlevel
    apply Fin.ext
    unfold pageOf at h
    rw [getLevelOff_val, getLevelOff_val, show (0 : BitVec 64).toNat = 0 from rfl]
    have hcases : level = 0 ∨ level = 1 ∨ level = 2 := by omega
    rcases hcases with rfl | rfl | rfl <;> omega
  unfold path
  rw [hoff 2 (by decide), hoff 1 (by decide), hoff 0 (by decide)]

/-- One round of `__MapPage`.  A range that goes on at the end of the addresses comes to the
entry of page zero again, which it has mapped. -/
theorem mapOnePage_round (platform : Platform) (h : TableInv zone root σ)
    (hs : FreshSupply zone root σ) {page : ℕ} {rest : List ℕ} (hsupply : σ.supply = page :: rest)
    {va attr : BitVec 64} (hva : pageOf va ≤ 2 ^ 27) (hend : pageOf va = 2 ^ 27 → σ.mapped 0 ≠ none)
    (hattr : AttrOk attr) :
    ∃ err τ, mapOnePage zone platform root
        { σ with supply := rest, reference := Function.update σ.reference page 1 } va
        (pageAddr page) attr = .ok (err, τ) ∧
      LeafTried zone root σ τ page ∧
      (err = .eok → pageOf va < 2 ^ 27 ∧ σ.mapped (pageOf va) = none ∧
        τ.mapped = Function.update σ.mapped (pageOf va) (some page)) ∧
      (err ≠ .eok → τ.mapped = σ.mapped) := by
  by_cases hlt : pageOf va < 2 ^ 27
  · obtain ⟨err, τ, hone, htried, hsuccess, hfailure⟩ := mapOnePage_tried platform h hs hsupply
      (toNat_lt_of_pageOf (n := 27) hlt) hattr
    exact ⟨err, τ, hone, htried, fun herr => ⟨hlt, hsuccess herr⟩, hfailure⟩
  · have heq : pageOf va = 2 ^ 27 := Nat.le_antisymm hva (Nat.le_of_not_lt hlt)
    have hmem : page ∈ σ.supply := by
      rw [hsupply]
      exact List.mem_cons_self ..
    have hnodup := hs.nodup
    rw [hsupply, List.nodup_cons] at hnodup
    have halloc := Grows.alloc h hs hsupply
    have hused : (follow (nextPage σ.mem) root (path va)).isSome = true := by
      have hrecord := h.record 0 (by decide)
      rw [path_end heq, ← hrecord]
      exact Option.isSome_iff_ne_none.mpr (hend heq)
    refine ⟨.einval, _, ?_, ⟨halloc, hmem, hnodup.1, (hs.fresh page hmem).2.2.2,
      Function.update_self ..⟩, nofun, fun _ => rfl⟩
    unfold mapOnePage
    rw [isVirAddrMapped_follow halloc.inv, exec_ok_bind]
    dsimp only
    rw [if_pos hused]
    rfl

/-- The pages `spare` left the supply and were given back without being mapped. -/
structure SpareFreed (root : ℕ) (σ τ : MmuState) (spare : List ℕ) : Prop where
  nodup : spare.Nodup
  supply : ∀ {p}, p ∈ spare → p ∈ σ.supply
  taken : ∀ {p}, p ∈ spare → p ∉ τ.supply
  table : ∀ {p}, p ∈ spare → ¬τ.IsTable root p
  reference : ∀ {p}, p ∈ spare → τ.reference p = 0

theorem SpareFreed.nil : SpareFreed root σ τ [] := by
  constructor
  · exact List.nodup_nil
  all_goals exact nofun

/-- `__MapPage` logs the leaves that it has mapped and the page that it has in hand. -/
theorem mapPagesLogged_outcome {n : ℕ} (platform : Platform) (h : TableInv zone root σ)
    (hs : FreshSupply zone root σ) (start va : BitVec 64) {attr : BitVec 64} (m : ℕ)
    (hva : pageOf va ≤ 2 ^ 27)
    (hend : 2 ^ 27 < pageOf va + n → pageOf va = 0 ∨ σ.mapped 0 ≠ none) (hattr : AttrOk attr) :
    ∃ k ≤ n, ∃ (τ : MmuState) (g : ℕ → ℕ) (spare : List ℕ), pageOf va + k ≤ 2 ^ 27 ∧
      Grows zone root σ τ ∧ τ.mapped = setRange σ.mapped (pageOf va) k (fun j => some (g j)) ∧
      LeavesTaken root σ τ (pageOf va) k g ∧ SpareFreed root σ τ spare ∧
      mapPagesLogged zone platform root start attr m va n σ =
        if k = n then .ok (⟨(List.range n).map g, []⟩, some start, τ)
        else unmapPagesLogged zone root start (m + k) τ >>= fun r =>
          .ok (⟨(List.range k).map g ++ spare, spare.map (·, .eok) ++ r.1⟩, none, r.2) := by
  induction n generalizing va σ m with
  | zero =>
      refine ⟨0, Nat.le_refl 0, σ, fun _ => 0, [], hva, Grows.refl h hs, ?_, .zero, .nil, rfl⟩
      rw [setRange_zero]
  | succ n ih =>
      rw [mapPagesLogged]
      unfold pageAlloc
      cases hsupply : σ.supply with
      | nil =>
          refine ⟨0, Nat.zero_le _, σ, fun _ => 0, [], hva, Grows.refl h hs, ?_, .zero, .nil, ?_⟩
          · rw [setRange_zero]
          · rw [if_neg (by omega), Nat.add_zero]
            rfl
      | cons page rest =>
          obtain ⟨err, σ₁, hone, htried, hsuccess, hfailure⟩ :=
            mapOnePage_round platform h hs hsupply hva
              (fun heq => (hend (by omega)).resolve_left (by omega)) hattr
          dsimp only
          rw [hone, exec_ok_bind]
          by_cases herr : err = .eok
          · subst herr
            obtain ⟨hlt, hfree, hmapped₁⟩ := hsuccess rfl
            have hnext : pageOf (va + 4096) = pageOf va + 1 := pageOf_next (by omega)
            have hend₁ : 2 ^ 27 < pageOf (va + 4096) + n →
                pageOf (va + 4096) = 0 ∨ σ₁.mapped 0 ≠ none := by
              intro hbeyond
              refine Or.inr ?_
              rw [hmapped₁]
              rcases hend (by omega) with hzero | hmapped
              · rw [hzero, Function.update_self]
                exact Option.some_ne_none page
              · by_cases hzero : pageOf va = 0
                · rw [hzero, Function.update_self]
                  exact Option.some_ne_none page
                · rw [Function.update_of_ne (Ne.symm hzero)]
                  exact hmapped
            obtain ⟨k, hk, τ, g, spare, hle, hgrows, hmapped', hpages, hspare, hrest⟩ :=
              ih htried.grows.inv htried.grows.fresh (va + 4096) (m + 1) (by omega) hend₁
            rw [hnext] at hpages
            refine ⟨k + 1, by omega, τ, fun j => Nat.casesOn j page g, spare, by omega,
              htried.grows.trans hgrows, ?_, hpages.cons htried hgrows hfree ?_,
              ⟨hspare.nodup, fun hp => htried.grows.supply.subset (hspare.supply hp),
                hspare.taken, hspare.table, hspare.reference⟩, ?_⟩
            · rw [hmapped', hnext, hmapped₁]
              exact setRange_succ σ.mapped (pageOf va) k fun j => some (Nat.casesOn j page g)
            · intro v hv
              rw [hmapped₁, Function.update_of_ne hv]
            · have htaken : ∀ i, (List.range (i + 1)).map (fun j => Nat.casesOn j page g) =
                  page :: (List.range i).map g := by
                intro i
                rw [List.range_succ_eq_map, List.map_cons, List.map_map]
                rfl
              dsimp only
              rw [hrest, Nat.add_assoc, Nat.add_comm 1 k, htaken, htaken]
              by_cases hkn : k = n
              · rw [if_pos hkn, if_pos (congrArg Nat.succ hkn)]
                rfl
              · rw [if_neg hkn, if_neg (fun heq => hkn (Nat.succ.inj heq))]
                cases unmapPagesLogged zone root start (m + (k + 1)) τ with
                | error f => rfl
                | ok r => rfl
          · obtain ⟨τ, hfree, hgrows, hmapped', htaken, htable, href⟩ := htried.free hs
            refine ⟨0, Nat.zero_le _, τ, fun _ => 0, [page], hva, hgrows, ?_, .zero,
              ⟨List.nodup_singleton page, ?_, ?_, ?_, ?_⟩, ?_⟩
            · rw [setRange_zero, hmapped']
              exact hfailure herr
            · intro p hp
              rw [List.mem_singleton.mp hp]
              exact htried.supply
            · intro p hp
              rw [List.mem_singleton.mp hp]
              exact htaken
            · intro p hp
              rw [List.mem_singleton.mp hp]
              exact htable
            · intro p hp
              rw [List.mem_singleton.mp hp]
              exact href
            · rw [if_neg (by omega), Nat.add_zero]
              cases err with
              | eok => exact absurd rfl herr
              | _ =>
                  dsimp only
                  rw [hfree, exec_ok_bind]
                  rfl

/-- A mapping was undone: the record is the same, and the leaves that were taken are free,
each having been given back once. -/
structure MapUndone (zone : ℕ → Bool) (root : ℕ) (σ τ : MmuState) (log : LeafLog) : Prop where
  inv : TableInv zone root τ
  mapped : τ.mapped = σ.mapped
  nodup : log.taken.Nodup
  freed : log.freed.Perm (log.taken.map fun p => (p, .eok))
  free : ∀ p ∈ log.taken, τ.reference p = 0

/-- The failure path of `__MapPage`. -/
theorem mapPagesLogged_undone (hs : FreshSupply zone root σ) {start : BitVec 64} {k : ℕ}
    {g : ℕ → ℕ} {spare : List ℕ} (hend : pageOf start + k ≤ 2 ^ 27)
    (hgrows : Grows zone root σ τ)
    (hmapped : τ.mapped = setRange σ.mapped (pageOf start) k fun j => some (g j))
    (hleaves : LeavesTaken root σ τ (pageOf start) k g) (hspare : SpareFreed root σ τ spare) :
    ∃ freed υ, unmapPagesLogged zone root start k τ = .ok (freed, υ) ∧
      MapUndone zone root σ υ
        ⟨(List.range k).map g ++ spare, spare.map (fun p => (p, .eok)) ++ freed⟩ := by
  have hown : OwnLeaves zone root τ (pageOf start) k g := by
    refine ⟨?_, ?_, ?_, hleaves.table, hleaves.reference, hleaves.injective⟩
    · intro j hj
      rw [hmapped]
      exact setRange_inside _ _ _ hj
    · exact fun hj => (hs.fresh _ (hleaves.supply hj)).1
    · exact fun hj => (hs.fresh _ (hleaves.supply hj)).2.2.1
  obtain ⟨υ, hrun, hclears, hrecord⟩ := unmapPagesLogged_outcome hgrows.inv hend hown
  have hnodup : ((List.range k).map g).Nodup := by
    refine List.Nodup.map_on ?_ List.nodup_range
    intro i hi j hj heq
    exact hleaves.injective (List.mem_range.mp hi) (List.mem_range.mp hj) heq
  refine ⟨_, υ, hrun, hclears.inv, ?_, ?_, ?_, ?_⟩
  · rw [hrecord, hmapped]
    exact setRange_cancel (fun j hj => hleaves.free hj) _
  · refine List.nodup_append.mpr ⟨hnodup, hspare.nodup, ?_⟩
    rintro p hp q hq rfl
    obtain ⟨j, hj, rfl⟩ := List.mem_map.mp hp
    have hone := hleaves.reference (List.mem_range.mp hj)
    rw [hspare.reference hq] at hone
    exact Nat.zero_ne_one hone
  · rw [List.map_append, List.map_map]
    exact List.perm_append_comm
  · intro p hp
    rcases List.mem_append.mp hp with hin | hin
    · obtain ⟨j, hj, rfl⟩ := List.mem_map.mp hin
      have hj := List.mem_range.mp hj
      rw [hclears.released (hleaves.table hj) (hown.zone hj), hleaves.reference hj,
        List.count_eq_one_of_mem hnodup hin]
    · rw [hclears.released (hspare.table hin) (hs.fresh p (hspare.supply hin)).2.2.1,
        hspare.reference hin, Nat.zero_sub]

def loopPages (va size : BitVec 64) : ℕ :=
  (rangePages (pageAlignDown va) (pageAlignUp size)).toInt.toNat

/-- The pages of a loop are those of the range, if it has pages or does not lie at page zero. -/
theorem loopPages_eq {va size : BitVec 64} (hrange : pageOf va + sizePages size ≤ 2 ^ 27)
    (hempty : sizePages size = 0 → pageOf va ≠ 0) : loopPages va size = sizePages size :=
  rangePages_toInt (hrange.trans (by decide)) hempty

/-- `NX_HalMapPage` returns, and a failed call is undone. -/
theorem halMapPageLogged_outcome (platform : Platform) (h : TableInv zone root σ)
    (hs : FreshSupply zone root σ) (va size : BitVec 64) {attr : BitVec 64} (hattr : AttrOk attr)
    (hrange : pageOf va + sizePages size ≤ 2 ^ 27) :
    ∃ log r τ, halMapPageLogged zone platform root σ va size attr = .ok (log, r, τ) ∧
      TableInv zone root τ ∧ (r = none → MapUndone zone root σ τ log) := by
  have hbeyond : 2 ^ 27 < pageOf (pageAlignDown va) + loopPages va size →
      pageOf (pageAlignDown va) = 0 ∨ σ.mapped 0 ≠ none := by
    intro hlt
    rw [pageOf_pageAlignDown] at hlt ⊢
    by_cases hzero : pageOf va = 0
    · exact Or.inl hzero
    · rw [loopPages_eq hrange fun _ => hzero] at hlt
      omega
  obtain ⟨k, -, τ, g, spare, hend, hgrows, hmapped, hleaves, hspare, hrun⟩ :=
    mapPagesLogged_outcome platform h hs (pageAlignDown va) (pageAlignDown va) 0
      (by rw [pageOf_pageAlignDown]; omega) hbeyond hattr
  unfold halMapPageLogged
  rw [if_neg hattr.ne_zero]
  change ∃ log r τ, mapPagesLogged zone platform root (pageAlignDown va) attr 0
    (pageAlignDown va) (loopPages va size) σ = .ok (log, r, τ) ∧ _
  rw [hrun]
  by_cases hk : k = loopPages va size
  · rw [if_pos hk]
    exact ⟨_, _, τ, rfl, hgrows.inv, nofun⟩
  · obtain ⟨freed, υ, hundo, hundone⟩ :=
      mapPagesLogged_undone hs hend hgrows hmapped hleaves hspare
    rw [if_neg hk, Nat.zero_add, hundo, exec_ok_bind]
    exact ⟨_, none, υ, rfl, hundone.inv, fun _ => hundone⟩

end Nxos.Riscv64
