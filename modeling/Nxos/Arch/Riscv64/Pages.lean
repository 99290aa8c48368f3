import Nxos.Arch.Riscv64.Tables

/-!
# One page

What the functions for one page do to the tree of tables: a walk without allocation
reads it, a walk with allocation adds tables, `MapOnePage` adds a leaf and
`UnmapOnePage` clears one.  `NX_HalVir2Phy` returns what the record says.

A walk takes a page of the supply for every table that its path lacks, and nothing else
stops it than the end of the supply.
-/

namespace Nxos.Riscv64

open Nxos.Radix

variable {zone : ℕ → Bool} {platform : Platform} {root : ℕ} {σ τ : MmuState}

/-! ## The tables of a walk -/

/-- The paths to the tables below the root that the entry of an address needs. -/
def tablePaths (va : BitVec 64) : Finset (List (Fin 512)) :=
  {[getLevelOff 2 va], [getLevelOff 2 va, getLevelOff 1 va]}

theorem length_of_mem_tablePaths {va : BitVec 64} {q : List (Fin 512)}
    (h : q ∈ tablePaths va) : q.length < 3 := by
  unfold tablePaths at h
  rw [Finset.mem_insert, Finset.mem_singleton] at h
  rcases h with rfl | rfl
  · exact Nat.lt_of_sub_eq_succ rfl
  · exact Nat.lt_of_sub_eq_succ rfl

/-- The paths among `paths` that end in no table. -/
def lacking (root : ℕ) (σ : MmuState) (paths : Finset (List (Fin 512))) :
    Finset (List (Fin 512)) :=
  paths.filter fun q => follow (nextPage σ.mem) root q = none

/-- Tables were put at the ends of the paths that had none, and each took a page of the
supply. -/
structure TablesAdded (root : ℕ) (σ τ : MmuState) (paths : Finset (List (Fin 512))) : Prop where
  taken : τ.supply.length + (lacking root σ paths).card = σ.supply.length
  lacks : ∀ {q}, q.length < 3 → (follow (nextPage τ.mem) root q = none ↔
    follow (nextPage σ.mem) root q = none ∧ q ∉ paths)

theorem TablesAdded.card_union {ps qs : Finset (List (Fin 512))} (h : TablesAdded root σ τ ps)
    (hqs : ∀ q ∈ qs, q.length < 3) :
    (lacking root σ (ps ∪ qs)).card = (lacking root σ ps).card + (lacking root τ qs).card := by
  have hdisjoint : Disjoint (lacking root σ ps) (lacking root τ qs) := by
    rw [Finset.disjoint_left]
    intro q hps hq
    unfold lacking at hps hq
    rw [Finset.mem_filter] at hps hq
    exact ((h.lacks (hqs q hq.1)).mp hq.2).2 hps.1
  rw [← Finset.card_union_of_disjoint hdisjoint]
  refine congrArg Finset.card (Finset.ext fun q => ?_)
  unfold lacking
  simp only [Finset.mem_filter, Finset.mem_union]
  constructor
  · rintro ⟨hq | hq, hnone⟩
    · exact Or.inl ⟨hq, hnone⟩
    · by_cases hps : q ∈ ps
      · exact Or.inl ⟨hps, hnone⟩
      · exact Or.inr ⟨hq, (h.lacks (hqs q hq)).mpr ⟨hnone, hps⟩⟩
  · rintro (⟨hq, hnone⟩ | ⟨hq, hnone⟩)
    · exact ⟨Or.inl hq, hnone⟩
    · exact ⟨Or.inr hq, ((h.lacks (hqs q hq)).mp hnone).1⟩

theorem TablesAdded.trans {υ : MmuState} {ps qs : Finset (List (Fin 512))}
    (h₁ : TablesAdded root σ τ ps) (h₂ : TablesAdded root τ υ qs)
    (hqs : ∀ q ∈ qs, q.length < 3) : TablesAdded root σ υ (ps ∪ qs) where
  taken := by
    have hστ := h₁.taken
    have hτυ := h₂.taken
    rw [h₁.card_union hqs]
    omega
  lacks := by
    intro q hq
    rw [h₂.lacks hq, h₁.lacks hq, Finset.mem_union, not_or, and_assoc]

theorem TablesAdded.of_follow_eq {υ : MmuState} {ps : Finset (List (Fin 512))}
    (h : TablesAdded root σ τ ps) (hsupply : υ.supply = τ.supply)
    (hfollow : ∀ {q}, q.length < 3 →
      follow (nextPage υ.mem) root q = follow (nextPage τ.mem) root q) :
    TablesAdded root σ υ ps where
  taken := by
    rw [hsupply]
    exact h.taken
  lacks := by
    intro q hq
    rw [hfollow hq]
    exact h.lacks hq

/-! ## Walks -/

theorem walkLevel_read (h : TableInv zone root σ) {p : List (Fin 512)} (hp : p.length < 2)
    {t : ℕ} (ht : follow (nextPage σ.mem) root p = some t) (i : Fin 512) :
    walkLevel zone platform σ t i false = .ok (nextPage σ.mem t i, σ) := by
  unfold walkLevel
  dsimp only
  cases hused : pteUsed (σ.read ⟨t, i⟩) with
  | false =>
      have hnone : nextPage σ.mem t i = none := entryPage_of_unused hused
      rw [hnone]
      rfl
  | true =>
      have hnext : nextPage σ.mem t i = some (pageOf (pte2Paddr (σ.read ⟨t, i⟩))) :=
        entryPage_of_used hused
      have hfollow : follow (nextPage σ.mem) root (p ++ [i]) =
          some (pageOf (pte2Paddr (σ.read ⟨t, i⟩))) := by
        rw [follow_concat, ht]
        exact hnext
      have hne := (h.tables (by simp) (by simp; omega) hfollow).1
      rw [if_pos rfl, nxAssert_pos hne, exec_ok_bind, hnext]
      rfl

theorem walkLevel_alloc (platform : Platform) (h : TableInv zone root σ)
    (hs : FreshSupply zone root σ) {p : List (Fin 512)} (hp : p.length < 2) {t : ℕ}
    (ht : follow (nextPage σ.mem) root p = some t) (i : Fin 512) :
    ∃ r τ, walkLevel zone platform σ t i true = .ok (r, τ) ∧ Grows zone root σ τ ∧
      τ.mapped = σ.mapped ∧
      (∀ next, r = some next → follow (nextPage τ.mem) root (p ++ [i]) = some next ∧
        TablesAdded root σ τ {p ++ [i]}) ∧
      (r = none → σ.supply.length < (lacking root σ {p ++ [i]}).card) := by
  unfold walkLevel
  dsimp only
  cases hused : pteUsed (σ.read ⟨t, i⟩) with
  | true =>
      have hfollow : follow (nextPage σ.mem) root (p ++ [i]) =
          some (pageOf (pte2Paddr (σ.read ⟨t, i⟩))) := by
        rw [follow_concat, ht]
        exact entryPage_of_used hused
      have hne := (h.tables (by simp) (by simp; omega) hfollow).1
      rw [if_pos rfl, nxAssert_pos hne, exec_ok_bind]
      refine ⟨_, σ, rfl, Grows.refl h hs, rfl, ?_, nofun⟩
      intro next heq
      cases heq
      refine ⟨hfollow, ?_, ?_⟩
      · unfold lacking
        rw [Finset.filter_singleton, if_neg (by rw [hfollow]; exact nofun), Finset.card_empty]
        rfl
      · intro q _
        refine ⟨fun hnone => ⟨hnone, ?_⟩, And.left⟩
        rw [Finset.mem_singleton]
        rintro rfl
        rw [hfollow] at hnone
        cases hnone
  | false =>
      have hnone : follow (nextPage σ.mem) root (p ++ [i]) = none := by
        rw [follow_concat, ht]
        exact entryPage_of_unused hused
      have hcard : (lacking root σ {p ++ [i]}).card = 1 := by
        unfold lacking
        rw [Finset.filter_singleton, if_pos hnone, Finset.card_singleton]
      rw [if_neg Bool.false_ne_true, if_neg (by decide)]
      unfold pageAlloc
      cases hsupply : σ.supply with
      | nil =>
          refine ⟨none, σ, rfl, Grows.refl h hs, rfl, nofun, fun _ => ?_⟩
          rw [hcard]
          exact Nat.one_pos
      | cons u rest =>
          obtain ⟨hu0, hu28, -, hutable⟩ :=
            hs.fresh u (by rw [hsupply]; exact List.mem_cons_self ..)
          dsimp only
          rw [nxAssert_pos hu0, exec_ok_bind]
          have hself : follow (nextPage (newTableState zone platform σ rest t u i).mem) root
              (p ++ [i]) = some u :=
            follow_newTableState_self h hp ht hu28 hutable
          refine ⟨some u, newTableState zone platform σ rest t u i, rfl,
            Grows.newTable h hs platform hp ht hused hsupply, pageIncrease_mapped _ _, ?_, nofun⟩
          intro next heq
          cases heq
          refine ⟨hself, ?_, ?_⟩
          · rw [hcard, hsupply]
            exact congrArg (List.length · + 1) (pageIncrease_supply _ _)
          · intro q hq
            rw [Finset.mem_singleton]
            by_cases hne : q = p ++ [i]
            · subst hne
              rw [hself]
              exact iff_of_false nofun fun hnot => hnot.2 rfl
            · rw [follow_newTableState h hp ht hused hu28 hutable (Nat.le_of_lt hq) hne]
              exact ⟨fun hnone => ⟨hnone, hne⟩, And.left⟩

/-- `PageWalk` without allocation finds the entry of the last level. -/
theorem pageWalk_read (h : TableInv zone root σ) (va : BitVec 64) :
    pageWalk zone platform root σ va false =
      .ok ((follow (nextPage σ.mem) root [getLevelOff 2 va, getLevelOff 1 va]).map
        fun t => ⟨t, getLevelOff 0 va⟩, σ) := by
  unfold pageWalk
  rw [nxAssert_pos h.root_ne, exec_ok_bind, pageWalkLoop,
    walkLevel_read h (p := []) (by decide) rfl, exec_ok_bind]
  cases h2 : nextPage σ.mem root (getLevelOff 2 va) with
  | none => simp [follow, h2]
  | some t =>
      have ht : follow (nextPage σ.mem) root [getLevelOff 2 va] = some t := by
        simp [follow, h2]
      dsimp only
      rw [pageWalkLoop, walkLevel_read h (p := [getLevelOff 2 va]) (by simp) ht, exec_ok_bind]
      cases h1 : nextPage σ.mem t (getLevelOff 1 va) with
      | none => simp [follow, h2, h1]
      | some s =>
          simp [follow, h2, h1, pageWalkLoop]

theorem pageWalk_alloc (platform : Platform) (h : TableInv zone root σ)
    (hs : FreshSupply zone root σ) (va : BitVec 64) :
    ∃ r τ, pageWalk zone platform root σ va true = .ok (r, τ) ∧ Grows zone root σ τ ∧
      τ.mapped = σ.mapped ∧
      (∀ pte, r = some pte → pte.idx = getLevelOff 0 va ∧
        follow (nextPage τ.mem) root [getLevelOff 2 va, getLevelOff 1 va] = some pte.table ∧
        TablesAdded root σ τ (tablePaths va)) ∧
      (r = none → σ.supply.length < (lacking root σ (tablePaths va)).card) := by
  unfold pageWalk
  obtain ⟨r₂, σ₂, hwalk₂, hgrows₂, hmapped₂, hnext₂, hend₂⟩ :=
    walkLevel_alloc (p := []) platform h hs (by decide) rfl (getLevelOff 2 va)
  rw [nxAssert_pos h.root_ne, exec_ok_bind, pageWalkLoop, hwalk₂, exec_ok_bind]
  cases r₂ with
  | none =>
      refine ⟨none, σ₂, rfl, hgrows₂, hmapped₂, nofun, fun _ => ?_⟩
      refine Nat.lt_of_lt_of_le (hend₂ rfl) (Finset.card_le_card (Finset.filter_subset_filter _ ?_))
      exact Finset.singleton_subset_iff.mpr (Finset.mem_insert_self _ _)
  | some t =>
      obtain ⟨ht, hadded₂⟩ := hnext₂ t rfl
      obtain ⟨r₁, σ₁, hwalk₁, hgrows₁, hmapped₁, hnext₁, hend₁⟩ :=
        walkLevel_alloc (p := [getLevelOff 2 va]) platform hgrows₂.inv hgrows₂.fresh (by simp)
          ht (getLevelOff 1 va)
      have hshort : ∀ q ∈ ({[getLevelOff 2 va] ++ [getLevelOff 1 va]} :
          Finset (List (Fin 512))), q.length < 3 := by
        intro q hq
        rw [Finset.mem_singleton] at hq
        rw [hq]
        exact Nat.lt_succ_self 2
      dsimp only
      rw [pageWalkLoop, hwalk₁, exec_ok_bind]
      cases r₁ with
      | none =>
          refine ⟨none, σ₁, rfl, hgrows₂.trans hgrows₁, hmapped₁.trans hmapped₂, nofun, ?_⟩
          intro _
          have htaken := hadded₂.taken
          have hless := hend₁ rfl
          rw [show tablePaths va = {[] ++ [getLevelOff 2 va]} ∪
            {[getLevelOff 2 va] ++ [getLevelOff 1 va]} from rfl, hadded₂.card_union hshort]
          omega
      | some s =>
          obtain ⟨hs, hadded₁⟩ := hnext₁ s rfl
          refine ⟨some ⟨s, getLevelOff 0 va⟩, σ₁, rfl, hgrows₂.trans hgrows₁,
            hmapped₁.trans hmapped₂, ?_, nofun⟩
          intro pte heq
          cases heq
          exact ⟨rfl, hs, hadded₂.trans hadded₁ hshort⟩

/-- The translation goes through the entry of the last level. -/
theorem follow_path (σ : MmuState) (va : BitVec 64) :
    follow (nextPage σ.mem) root (path va) =
      (follow (nextPage σ.mem) root [getLevelOff 2 va, getLevelOff 1 va]).bind
        fun t => nextPage σ.mem t (getLevelOff 0 va) :=
  follow_concat _ _ [getLevelOff 2 va, getLevelOff 1 va] _

theorem isVirAddrMapped_follow (h : TableInv zone root σ) (va : BitVec 64) :
    isVirAddrMapped zone platform root σ va =
      .ok ((follow (nextPage σ.mem) root (path va)).isSome, σ) := by
  unfold isVirAddrMapped
  rw [pageWalk_read h, exec_ok_bind, follow_path]
  cases follow (nextPage σ.mem) root [getLevelOff 2 va, getLevelOff 1 va] with
  | none => rfl
  | some t =>
      refine congrArg (fun b => (Except.ok (b, σ) : Exec (Bool × MmuState))) ?_
      cases hused : pteUsed (σ.read ⟨t, getLevelOff 0 va⟩) with
      | false =>
          exact (congrArg Option.isSome (entryPage_of_unused hused)).symm
      | true =>
          exact (congrArg Option.isSome (entryPage_of_used hused)).symm

theorem isVirAddrMapped_eq (h : TableInv zone root σ) {va : BitVec 64}
    (hva : va.toNat < 2 ^ 39) :
    isVirAddrMapped zone platform root σ va = .ok ((σ.mapped (pageOf va)).isSome, σ) := by
  rw [isVirAddrMapped_follow h, h.record va hva]

/-- `NX_HalVir2Phy` returns what the record says, and stops where nothing is mapped. -/
theorem halVir2Phy_eq (h : TableInv zone root σ) {va : BitVec 64} (hva : va.toNat < 2 ^ 39) :
    halVir2Phy zone platform root σ va =
      match σ.mapped (pageOf va) with
      | some page => .ok (pageAddr page + va % 4096)
      | none => .error .panic := by
  unfold halVir2Phy
  rw [pageWalk_read h, exec_ok_bind, h.record va hva, follow_path]
  cases follow (nextPage σ.mem) root [getLevelOff 2 va, getLevelOff 1 va] with
  | none => rfl
  | some t =>
      cases hused : pteUsed (σ.read ⟨t, getLevelOff 0 va⟩) with
      | false =>
          have hnone : nextPage σ.mem t (getLevelOff 0 va) = none := entryPage_of_unused hused
          simp only [Option.map_some, Option.bind_some, hused, hnone]
          rfl
      | true =>
          have hsome : nextPage σ.mem t (getLevelOff 0 va) =
              some (pageOf (pte2Paddr (σ.read ⟨t, getLevelOff 0 va⟩))) :=
            entryPage_of_used hused
          have haddr : pageAddr (pageOf (pte2Paddr (σ.read ⟨t, getLevelOff 0 va⟩))) =
              pte2Paddr (σ.read ⟨t, getLevelOff 0 va⟩) := by
            unfold pageAddr
            rw [← pte2Paddr_toNat, BitVec.ofNat_toNat, BitVec.setWidth_eq]
          simp only [Option.map_some, Option.bind_some, hused, hsome, haddr]
          rfl

/-- The bits of an address above the three indices do not matter. -/
theorem getLevelOff_low {level : ℕ} (hlevel : level ≤ 2) (va : BitVec 64) :
    getLevelOff level (va % 0x8000000000#64) = getLevelOff level va := by
  have hlow : (va % 0x8000000000#64).toNat = va.toNat % 2 ^ 39 := BitVec.toNat_umod
  apply Fin.ext
  rw [getLevelOff_val, getLevelOff_val, hlow]
  have hcases : level = 0 ∨ level = 1 ∨ level = 2 := by omega
  rcases hcases with rfl | rfl | rfl <;> omega

theorem pageWalk_low (zone : ℕ → Bool) (platform : Platform) (root : ℕ) (σ : MmuState)
    (va : BitVec 64) (allocPage : Bool) :
    pageWalk zone platform root σ (va % 0x8000000000#64) allocPage =
      pageWalk zone platform root σ va allocPage := by
  unfold pageWalk
  simp only [pageWalkLoop, getLevelOff_low (show 2 ≤ 2 by decide),
    getLevelOff_low (show 1 ≤ 2 by decide), getLevelOff_low (show 0 ≤ 2 by decide)]

theorem halVir2Phy_low (zone : ℕ → Bool) (platform : Platform) (root : ℕ) (σ : MmuState)
    (va : BitVec 64) :
    halVir2Phy zone platform root σ (va % 0x8000000000#64) =
      halVir2Phy zone platform root σ va := by
  have hrest : va % 0x8000000000#64 % 4096 = va % 4096 := by
    apply BitVec.eq_of_toNat_eq
    rw [BitVec.toNat_umod, BitVec.toNat_umod, BitVec.toNat_umod]
    exact Nat.mod_mod_of_dvd _ (by decide)
  unfold halVir2Phy
  rw [pageWalk_low, hrest]

theorem halVir2Phy_congr (platform : Platform) (hσ : TableInv zone root σ)
    (hτ : TableInv zone root τ) (hmapped : τ.mapped = σ.mapped) (va : BitVec 64) :
    halVir2Phy zone platform root τ va = halVir2Phy zone platform root σ va := by
  have hlow : (va % 0x8000000000#64).toNat < 2 ^ 39 := by
    rw [BitVec.toNat_umod]
    exact Nat.mod_lt _ (by decide)
  rw [← halVir2Phy_low, ← halVir2Phy_low zone platform root σ, halVir2Phy_eq hτ hlow,
    halVir2Phy_eq hσ hlow, hmapped]

/-! ## Mapping a page -/

/-- The attributes of the callers: within the low ten bits, valid, and a leaf. -/
structure AttrOk (attr : BitVec 64) : Prop where
  low : attr.toNat < 2 ^ 10
  valid : attr &&& pteV ≠ 0
  leaf : attr &&& pageAttrRwx ≠ 0

theorem entryPage_leaf (platform : Platform) {pa attr : BitVec 64} (hpa : pa.toNat < 2 ^ 40)
    (haligned : pa.toNat % 4096 = 0) (hattr : AttrOk attr) :
    entryPage (paddr2Pte pa ||| attr ||| pageAttrExt platform) = some (pageOf pa) := by
  rw [entryPage_of_used (pteUsed_entry hattr.valid), pte2Paddr_entry platform hpa haligned hattr.low]

/-- `MapOnePage` maps the page or leaves the record alone. -/
theorem mapOnePage_outcome (platform : Platform) (h : TableInv zone root σ)
    (hs : FreshSupply zone root σ) {va : BitVec 64} (pa : BitVec 64) {attr : BitVec 64}
    (hva : va.toNat < 2 ^ 39) (hpa : pa.toNat < 2 ^ 40) (haligned : pa.toNat % 4096 = 0)
    (hattr : AttrOk attr) :
    ∃ err τ, mapOnePage zone platform root σ va pa attr = .ok (err, τ) ∧
      Grows zone root σ τ ∧
      (err = .eok → σ.mapped (pageOf va) = none ∧
        τ.mapped = Function.update σ.mapped (pageOf va) (some (pageOf pa)) ∧
        TablesAdded root σ τ (tablePaths va)) ∧
      (err ≠ .eok → τ.mapped = σ.mapped ∧ (σ.mapped (pageOf va) ≠ none ∨
        σ.supply.length < (lacking root σ (tablePaths va)).card)) := by
  unfold mapOnePage
  rw [isVirAddrMapped_eq h hva, exec_ok_bind]
  cases hold : σ.mapped (pageOf va) with
  | some page =>
      exact ⟨.einval, σ, rfl, Grows.refl h hs, nofun, fun _ => ⟨rfl, Or.inl nofun⟩⟩
  | none =>
      obtain ⟨r, σ₁, hwalk, hgrows, hmapped₁, hpte, hend⟩ := pageWalk_alloc platform h hs va
      dsimp only [Option.isSome_none]
      rw [if_neg Bool.false_ne_true, hwalk, exec_ok_bind]
      cases r with
      | none =>
          exact ⟨.efault, σ₁, rfl, hgrows, nofun, fun _ => ⟨hmapped₁, Or.inr (hend rfl)⟩⟩
      | some pte =>
          obtain ⟨hidx, ht, hadded⟩ := hpte pte rfl
          have hpte : pte = ⟨pte.table, getLevelOff 0 va⟩ := by
            rw [← hidx]
          have hunused : pteUsed (σ₁.read ⟨pte.table, getLevelOff 0 va⟩) = false := by
            have hrecord := hgrows.inv.record va hva
            rw [hmapped₁, hold, follow_path, ht, Option.bind_some] at hrecord
            cases hused : pteUsed (σ₁.read ⟨pte.table, getLevelOff 0 va⟩) with
            | false => rfl
            | true =>
                have hsome : nextPage σ₁.mem pte.table (getLevelOff 0 va) = some _ :=
                  entryPage_of_used hused
                rw [hsome] at hrecord
                cases hrecord
          have hentry := entryPage_leaf platform hpa haligned hattr
          have hleaf := Grows.newLeaf hgrows.inv hgrows.fresh hva ht hunused
            (pteUsed_entry (x := paddr2Pte pa) (y := pageAttrExt platform) hattr.valid)
            (decide_eq_true (and_or_ne_zero hattr.leaf))
          dsimp only
          rw [hpte, if_neg (by rw [hunused]; exact Bool.false_ne_true)]
          refine ⟨.eok, newLeafState zone σ₁ pte.table va _, ?_, hgrows.trans hleaf, ?_, nofun⟩
          · unfold newLeafState
            rw [hentry, ← pageIncrease_mapped σ₁ pte.table]
            rfl
          · intro _
            refine ⟨rfl, ?_, ?_⟩
            · rw [← hmapped₁, ← hentry]
              rfl
            · refine hadded.of_follow_eq (pageIncrease_supply σ₁ pte.table) fun hq => ?_
              rw [newLeafState_mem]
              exact follow_write_leaf hgrows.inv (p := [getLevelOff 2 va, getLevelOff 1 va]) rfl
                ht _ _ hq

/-! ## Unmapping a page -/

/-- `PageWalkPTE` finds the entry of the last level. -/
theorem pageWalkPte_of_follow {va : BitVec 64} {t : ℕ}
    (ht : follow (nextPage σ.mem) root [getLevelOff 2 va, getLevelOff 1 va] = some t) :
    ∃ pte2 pte1, pageWalkPte root σ va = some (pte2, pte1, ⟨t, getLevelOff 0 va⟩) := by
  obtain ⟨s, hs, ht⟩ := Option.bind_eq_some_iff.mp ht
  obtain ⟨u, hu, htu⟩ := Option.bind_eq_some_iff.mp ht
  cases htu
  obtain ⟨hused₂, rfl⟩ := used_of_entryPage hs
  obtain ⟨hused₁, rfl⟩ := used_of_entryPage hu
  refine ⟨⟨root, getLevelOff 2 va⟩,
    ⟨pageOf (pte2Paddr (σ.read ⟨root, getLevelOff 2 va⟩)), getLevelOff 1 va⟩, ?_⟩
  unfold pageWalkPte MmuState.read
  dsimp only
  rw [if_neg (by rw [hused₂]; decide), if_neg (by rw [hused₁]; decide)]

theorem TableInv.entry_of_mapped (h : TableInv zone root σ) {va : BitVec 64}
    (hva : va.toNat < 2 ^ 39) {page : ℕ} (hold : σ.mapped (pageOf va) = some page) :
    ∃ t, follow (nextPage σ.mem) root [getLevelOff 2 va, getLevelOff 1 va] = some t ∧
      pteUsed (σ.read ⟨t, getLevelOff 0 va⟩) = true ∧
      pageIsLeaf (σ.read ⟨t, getLevelOff 0 va⟩) = true ∧
      page = pageOf (pte2Paddr (σ.read ⟨t, getLevelOff 0 va⟩)) := by
  rw [h.record va hva, follow_path] at hold
  obtain ⟨t, ht, hentry⟩ := Option.bind_eq_some_iff.mp hold
  obtain ⟨hused, hpage⟩ := used_of_entryPage hentry
  exact ⟨t, ht, hused, h.leaves (p := [getLevelOff 2 va, getLevelOff 1 va]) rfl ht hused, hpage⟩

/-- `UnmapOnePage` of an address whose path does not end. -/
theorem unmapOnePage_of_follow_eq_none {va : BitVec 64}
    (hnone : follow (nextPage σ.mem) root (path va) = none) :
    unmapOnePage zone root σ va = .error .assertion := by
  rw [follow_path] at hnone
  unfold unmapOnePage
  cases hwalk : pageWalkPte root σ va with
  | none => rfl
  | some ptes =>
      unfold pageWalkPte at hwalk
      dsimp only at hwalk
      split_ifs at hwalk with hused₂ hused₁
      cases hwalk
      rw [Bool.not_eq_true, Bool.not_eq_false'] at hused₂ hused₁
      generalize ht₁ : pageOf (pte2Paddr (σ.read ⟨root, getLevelOff 2 va⟩)) = t₁ at hused₁ ⊢
      generalize ht₀ : pageOf (pte2Paddr (σ.read ⟨t₁, getLevelOff 1 va⟩)) = t₀
      have h₂ : nextPage σ.mem root (getLevelOff 2 va) = some t₁ :=
        (entryPage_of_used hused₂).trans (congrArg some ht₁)
      have h₁ : nextPage σ.mem t₁ (getLevelOff 1 va) = some t₀ :=
        (entryPage_of_used hused₁).trans (congrArg some ht₀)
      have hunused : ¬pteUsed (σ.read ⟨t₀, getLevelOff 0 va⟩) = true := by
        intro hused
        have hsome : nextPage σ.mem t₀ (getLevelOff 0 va) = some _ := entryPage_of_used hused
        simp [follow, h₂, h₁, hsome] at hnone
      dsimp only
      rw [nxAssert_neg hunused]
      rfl

theorem unmapOnePage_unmapped (h : TableInv zone root σ) {va : BitVec 64}
    (hva : va.toNat < 2 ^ 39) (hold : σ.mapped (pageOf va) = none) :
    unmapOnePage zone root σ va = .error .assertion :=
  unmapOnePage_of_follow_eq_none ((h.record va hva).symm.trans hold)

theorem unmapOnePage_zero (h : TableInv zone root σ) {va : BitVec 64}
    (hva : va.toNat < 2 ^ 39) (hold : σ.mapped (pageOf va) = some 0) :
    unmapOnePage zone root σ va = .error .assertion := by
  obtain ⟨t, ht, hused, hleaf, hpage⟩ := h.entry_of_mapped hva hold
  obtain ⟨pte2, pte1, hwalk⟩ := pageWalkPte_of_follow ht
  have hzero : ¬pte2Paddr (σ.read ⟨t, getLevelOff 0 va⟩) ≠ 0 := by
    intro hne
    apply hne
    apply BitVec.eq_of_toNat_eq
    rw [pte2Paddr_toNat, ← hpage, Nat.zero_mul]
    rfl
  unfold unmapOnePage
  rw [hwalk]
  dsimp only
  rw [nxAssert_pos hused, exec_ok_bind, nxAssert_pos hleaf, exec_ok_bind, nxAssert_neg hzero]
  rfl

/-- `UnmapOnePage` clears the entry.  The table keeps a reference, so that no entry of
a higher level is cleared. -/
theorem unmapOnePage_outcome (h : TableInv zone root σ) {va : BitVec 64}
    (hva : va.toNat < 2 ^ 39) {page : ℕ} (hold : σ.mapped (pageOf va) = some page)
    (hne : page ≠ 0) (hpage : ¬σ.IsTable root page) :
    ∃ τ, unmapOnePage zone root σ va = .ok τ ∧ Clears zone root [page] σ τ ∧
      τ.mapped = Function.update σ.mapped (pageOf va) none := by
  obtain ⟨t, ht, hused, hleaf, hentry⟩ := h.entry_of_mapped hva hold
  obtain ⟨pte2, pte1, hwalk⟩ := pageWalkPte_of_follow ht
  obtain ⟨htne, hzone, hcount⟩ := h.tables (p := [getLevelOff 2 va, getLevelOff 1 va])
    (List.cons_ne_nil _ _) (Nat.lt_succ_self 2) ht
  have haddr : pte2Paddr (σ.read ⟨t, getLevelOff 0 va⟩) ≠ 0 := by
    intro hzero
    apply hne
    rw [hentry, hzero]
    rfl
  have htp : t ≠ page := by
    rintro rfl
    exact hpage ⟨[getLevelOff 2 va, getLevelOff 1 va], Nat.lt_succ_self 2, ht⟩
  obtain ⟨err, σ₁, hfree, hmem₁, hmapped₁, hsupply₁, href₁⟩ := pageFree_frame zone σ hne
  have hself : σ₁.reference t = σ.reference t := by
    rw [href₁]
    split_ifs
    · exact Function.update_of_ne htp ..
    · rfl
  have hother : 1 ≤ usedEntries σ.mem t := by
    rw [← usedEntries_write_unused σ ⟨t, getLevelOff 0 va⟩ hused pteUsed_zero]
    exact Nat.le_add_left ..
  have hkept := pageFree_shared { σ₁.write ⟨t, getLevelOff 0 va⟩ 0 with
    mapped := Function.update σ₁.mapped (pageOf va) none } htne hzone (by
      change 2 ≤ σ₁.reference t
      omega)
  refine ⟨clearedState zone σ t page va, ?_, Clears.of_clearedState h hva ht hused hpage, rfl⟩
  unfold unmapOnePage
  rw [hwalk]
  dsimp only
  rw [nxAssert_pos hused, exec_ok_bind, nxAssert_pos hleaf, exec_ok_bind, nxAssert_pos haddr,
    exec_ok_bind, ← hentry, hfree, exec_ok_bind]
  dsimp only
  refine (congrArg (· >>= _) hkept).trans ?_
  rw [exec_ok_bind]
  unfold clearedState MmuState.write
  rw [← hmem₁, ← hmapped₁, ← hsupply₁, ← href₁]
  rfl

end Nxos.Riscv64
