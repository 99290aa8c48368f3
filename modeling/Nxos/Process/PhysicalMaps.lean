import Nxos.Process.Memory

/-!
# Physical ranges in a space

`NX_VmspaceMapWithPhy` takes one reference, to the first page of the range, before it
fills the page table.  Every page that is unmapped gives one reference up, in
`NX_VmspaceUnmap` as well as on the way out of a mapping that fails.  The two agree on
ranges of one page, and on a mapping that fails at its second page.
-/

namespace Nxos.Process

open Nxos.Mm Nxos.Riscv64 Nxos.Interval Nxos.Transition

variable {zone : ℕ → Bool} {platform : Platform} {root : ℕ} {s : Vmspace} {m : SpaceMem}
variable {vaddr paddr size attr start : BitVec 64} {flags : BitVec 32}

/-! ## Spaces with pages that are not mapped -/

/-- A space with its page table.  A page of the user part that is mapped lies in a node; a
node may have pages that are not mapped yet, and nothing is said about the references of
the leaves. -/
structure SpaceTree (zone : ℕ → Bool) (root : ℕ) (s : Vmspace) (σ : MmuState) : Prop where
  layout : SpaceLayout s
  tree : TableInv zone root σ
  nodes : NodesOk s.spaceBase sv39Top s.nodes
  aligned : NodesAligned s.nodes
  covered : ∀ {v}, pageOf s.spaceBase ≤ v → v < 2 ^ 27 → (σ.mapped v).isSome = true →
    (nodesLookup s.nodes (v * 4096)).isSome = true

/-- The physical pages of a range fit an entry, and they are neither tables of the space nor
pages that `NX_PageAlloc` will hand out. -/
structure PagesApart (root : ℕ) (σ : MmuState) (first n : ℕ) : Prop where
  below : first + n ≤ 2 ^ 28
  table : ∀ {j}, j < n → ¬σ.IsTable root (first + j)
  supply : ∀ {j}, j < n → first + j ∉ σ.supply

/-! ## The page table -/

/-- The first `k` pages from `first` on were mapped to those from `page` on. -/
structure RangeLent (zone : ℕ → Bool) (root : ℕ) (σ τ : MmuState) (first page k : ℕ) : Prop where
  grows : Grows zone root (pageIncrease zone σ page) τ
  mapped : τ.mapped = setRange σ.mapped first k fun j => some (page + j)
  can : CanMap root σ first k

namespace RangeLent

variable {σ τ : MmuState} {first page k n : ℕ}

theorem reference (h : RangeLent zone root σ τ first page k) (hpages : PagesApart root σ page n)
    {j : ℕ} (hj : j < n) :
    τ.reference (page + j) =
      σ.reference (page + j) + if j = 0 ∧ zone (page + j) = true then 1 else 0 := by
  rw [h.grows.reference_eq (by rw [pageIncrease_supply]; exact hpages.supply hj)
    (by rw [MmuState.isTable_pageIncrease]; exact hpages.table hj), reference_pageIncrease]
  simp only [Nat.add_eq_left]

theorem count_pages (page k j : ℕ) :
    ((List.range k).map (page + ·)).count (page + j) = if j < k then 1 else 0 := by
  rw [List.count_map_of_injective _ _ fun i i' heq => Nat.add_left_cancel heq, List.count_range]

theorem giveUp {va : BitVec 64} (h : RangeLent zone root σ τ (pageOf va) page k)
    (hpages : PagesApart root σ page n) (hk : k ≤ n) (hne : page ≠ 0)
    (hend : pageOf va + k ≤ 2 ^ 27) :
    ∃ υ, unmapPages zone root va k τ = .ok υ ∧ TableInv zone root υ ∧ υ.mapped = σ.mapped ∧
      ∀ j < n, υ.reference (page + j) =
        τ.reference (page + j) - if j < k ∧ zone (page + j) = true then 1 else 0 := by
  have hinside : ∀ j < k, τ.mapped (pageOf va + j) = some (page + j) := by
    intro j hj
    rw [h.mapped]
    exact setRange_inside _ _ _ hj
  have htable : ∀ {j}, j < n → ¬τ.IsTable root (page + j) := by
    intro j hj
    refine h.grows.not_isTable ?_ ?_
    · rw [pageIncrease_supply]
      exact hpages.supply hj
    · rw [MmuState.isTable_pageIncrease]
      exact hpages.table hj
  rcases unmapPages_outcome h.grows.inv hend fun j hj =>
      ⟨page + j, hinside j hj, htable (Nat.lt_of_lt_of_le hj hk)⟩ with
    ⟨⟨j, hj, hzero⟩, -⟩ | ⟨υ, hrun, hclears, hmapped⟩
  · rw [hinside j hj] at hzero
    have hpage := Option.some.inj hzero
    omega
  · refine ⟨υ, hrun, hclears.inv, ?_, ?_⟩
    · rw [hmapped, h.mapped]
      exact setRange_cancel (fun _ hj => h.can.free hj) _
    · intro j hj
      cases hzone : zone (page + j) with
      | false =>
          rw [hclears.outside hzone, if_neg fun h => Bool.false_ne_true h.2, Nat.sub_zero]
      | true =>
          rw [hclears.released (htable hj) hzone, rangeTargets_some hinside, count_pages]
          simp only [and_true]

end RangeLent

/-- `NX_MmuMapPageWithPhy` behind a space: the pages that can be mapped are, and are unmapped
when these are not all. -/
theorem mapPages_lent (platform : Platform) (h : SpaceTree zone root s m.mmu)
    (hs : FreshSupply zone root m.mmu) (hp : Placement s size start) (hattr : AttrOk attr)
    (hpages : PagesApart root m.mmu (pageOf paddr) (sizePages size)) (hne : pageOf paddr ≠ 0)
    {m₁ : SpaceMem} (hm₁ : m₁.mmu = m.mmu) :
    ∃ k ≤ sizePages size, ∃ τ,
      RangeLent zone root m.mmu τ (pageOf start) (pageOf paddr) k ∧
      (k < sizePages size → ¬CanMap root m.mmu (pageOf start) (k + 1)) ∧
      Mm.mapPages (mmuMachine zone platform root) m₁ start paddr (pageAlignUp size) attr =
        if k = sizePages size then .ok (start, { m₁ with mmu := τ })
        else unmapPages zone root start k τ >>= fun υ => .ok (0, { m₁ with mmu := υ }) := by
  have hpaddr : paddr ≠ 0 := by
    rintro rfl
    exact hne rfl
  have hfirst : pageAlignDown paddr ≠ 0 := by
    intro hzero
    apply hne
    rw [← pageOf_pageAlignDown, hzero]
    rfl
  obtain ⟨k, hk, τ, hgrows, hmapped, hcan, hstop, hrun⟩ :=
    (h.tree.pageIncrease (pageOf paddr)).halMapPageWithPhy platform
      (hs.pageIncrease (pageOf paddr)) start paddr (pageAlignUp size) hattr
      (Nat.lt_of_lt_of_le h.layout.pageOf_base_pos hp.base) (by rw [hp.pages_eq]; exact hp.below)
      (by rw [hp.pages_eq]; exact hpages.below)
  rw [hp.pages_eq] at hk hstop hrun
  rw [hp.alignDown] at hrun
  rw [canMap_pageIncrease] at hcan hstop
  rw [pageIncrease_mapped] at hmapped
  refine ⟨k, hk, τ, ⟨hgrows, hmapped, hcan⟩, hstop, ?_⟩
  unfold Mm.mapPages mmuMachine
  rw [if_pos hpaddr]
  dsimp only
  rw [nxAssert_pos hfirst, exec_ok_bind, exec_pure, exec_ok_bind, pageOf_pageAlignDown, hm₁, hrun]
  by_cases hkn : k = sizePages size
  · rw [if_pos hkn, if_pos hkn]
    rfl
  · rw [if_neg hkn, if_neg hkn]
    cases unmapPages zone root start k τ with
    | error f => rfl
    | ok υ => rfl

/-! ## Mapping and unmapping -/

abbrev PageRange := BitVec 64 × BitVec 64

def rangePageList (r : PageRange) : List ℕ :=
  List.range' (pageOf r.1) (sizePages r.2)

/-- The ranges, in any order, make up the `n` pages from `first` on. -/
structure Partition (ranges : List PageRange) (first n : ℕ) : Prop where
  aligned : ∀ r ∈ ranges, r.1.toNat % 4096 = 0
  nonempty : ∀ r ∈ ranges, r.2 ≠ 0
  pages : (ranges.flatMap rangePageList).Perm (List.range' first n)

/-- Calls of `NX_VmspaceUnmap` one after the other, until one fails. -/
def unmapRanges (zone : ℕ → Bool) (platform : Platform) (root : ℕ) :
    List PageRange → Vmspace → SpaceMem → Exec (Bool × Vmspace × SpaceMem)
  | [], s, m => .ok (true, s, m)
  | (addr, size) :: rest, s, m => do
      match ← vmspaceUnmap (mmuMachine zone platform root) s m addr size with
      | (.eok, s, m) => unmapRanges zone platform root rest s m
      | (_, s, m) => return (false, s, m)

/-- However the mapped range is unmapped, the calls return, and when they have unmapped all of
it the physical pages have the references that they had.  With memory for the nodes that are
split off the calls succeed. -/
def Restores (zone : ℕ → Bool) (platform : Platform) (root : ℕ) (a paddr size : BitVec 64)
    (m : SpaceMem) (s' : Vmspace) (m' : SpaceMem) : Prop :=
  ∀ ranges, Partition ranges (pageOf a) (sizePages size) → ∀ nodeMem,
    ∃ done s'' m'', unmapRanges zone platform root ranges s' { m' with nodeMem } =
        .ok (done, s'', m'') ∧
      (done = true → ∀ j < sizePages size,
        m''.mmu.reference (pageOf paddr + j) = m.mmu.reference (pageOf paddr + j)) ∧
      (nodeMem = List.replicate (2 * ranges.length) true → done = true)

theorem partition_single {a : BitVec 64} (haligned : a.toNat % 4096 = 0) (hsize : size ≠ 0) :
    Partition [(a, size)] (pageOf a) (sizePages size) where
  aligned := by
    intro r hr
    rw [List.mem_singleton.mp hr]
    exact haligned
  nonempty := by
    intro r hr
    rw [List.mem_singleton.mp hr]
    exact hsize
  pages := by
    rw [List.flatMap_singleton]
    exact List.Perm.refl _

theorem sizePages_pos {size : BitVec 64} (h : size ≠ 0) : 0 < sizePages size := by
  have hne : size.toNat ≠ 0 := fun heq => h (BitVec.eq_of_toNat_eq heq)
  unfold sizePages
  omega

theorem Partition.eq_single {ranges : List PageRange} {first : ℕ} (h : Partition ranges first 1) :
    ∃ r, ranges = [r] ∧ pageOf r.1 = first ∧ sizePages r.2 = 1 := by
  have hlen : ((ranges.map fun r => sizePages r.2)).sum = 1 := by
    have hperm := h.pages.length_eq
    rw [List.length_flatMap, List.length_range'] at hperm
    rw [← hperm]
    refine congrArg List.sum (List.map_congr_left fun r _ => ?_)
    exact (List.length_range' ..).symm
  cases ranges with
  | nil => cases hlen
  | cons r rest =>
      have hpos := sizePages_pos (h.nonempty r (List.mem_cons_self ..))
      rw [List.map_cons, List.sum_cons] at hlen
      have hrest : rest = [] := by
        cases rest with
        | nil => rfl
        | cons r' rest =>
            have hpos' := sizePages_pos (h.nonempty r' (List.mem_cons_of_mem _ (List.mem_cons_self ..)))
            rw [List.map_cons, List.sum_cons] at hlen
            omega
      subst hrest
      have hone : sizePages r.2 = 1 := by
        rw [List.map_nil, List.sum_nil] at hlen
        omega
      refine ⟨r, rfl, ?_, hone⟩
      have hperm := h.pages
      rw [List.flatMap_singleton] at hperm
      unfold rangePageList at hperm
      rw [hone] at hperm
      exact List.singleton_perm_singleton.mp hperm

/-- The physical pages belong to the allocator and are in use, though not as tables of the
space. -/
structure PagesOwned (zone : ℕ → Bool) (root : ℕ) (σ : MmuState) (first n : ℕ) : Prop where
  first_ne : first ≠ 0
  below : first + n ≤ 2 ^ 28
  zone_eq : ∀ {j}, j < n → zone (first + j) = true
  reference_pos : ∀ {j}, j < n → 0 < σ.reference (first + j)
  table : ∀ {j}, j < n → ¬σ.IsTable root (first + j)

theorem PagesOwned.apart {σ : MmuState} {first n : ℕ} (h : PagesOwned zone root σ first n)
    (hs : FreeSupply zone root σ) : PagesApart root σ first n where
  below := h.below
  table := h.table
  supply := by
    intro j hj hmem
    have hpos := h.reference_pos hj
    have hfree := (hs.free hmem).2.2.2.2
    omega

theorem sizePages_pageAlignUp {size : BitVec 64} (h : sizePages size ≤ 2 ^ 27) :
    sizePages (pageAlignUp size) = sizePages size := by
  have hlt := size.isLt
  unfold sizePages at h ⊢
  rw [pageAlignUp_toNat]
  omega

/-- `NX_MmuUnmapPage` of a range of pages. -/
theorem mmuMachine_unmapPage {m₁ : SpaceMem} {addr : BitVec 64} (haligned : addr.toNat % 4096 = 0)
    (hne : pageOf addr ≠ 0) (hend : pageOf addr + sizePages size ≤ 2 ^ 27) :
    (mmuMachine zone platform root).unmapPage m₁ addr (pageAlignUp size) =
      unmapPages zone root addr (sizePages size) m₁.mmu >>= fun σ =>
        .ok (.eok, { m₁ with mmu := σ }) := by
  have hpages : sizePages (pageAlignUp size) = sizePages size := sizePages_pageAlignUp (by omega)
  have hdown := pageAlignDown_of_aligned haligned
  have hrange : (rangePages (pageAlignDown addr) (pageAlignUp (pageAlignUp size))).toNat =
      sizePages (pageAlignUp size) :=
    rangePages_toNat (by rw [hpages]; exact hend.trans (by decide)) fun _ => hne
  rw [hpages] at hrange
  unfold mmuMachine halUnmapPage
  dsimp only
  rw [hrange, hdown]
  cases unmapPages zone root addr (sizePages size) m₁.mmu with
  | error f => rfl
  | ok σ => rfl

theorem unmapRanges_single {s' : Vmspace} {m' : SpaceMem} {addr : BitVec 64} {err : NxError}
    (h : vmspaceUnmap (mmuMachine zone platform root) s m addr size = .ok (err, s', m')) :
    unmapRanges zone platform root [(addr, size)] s m = .ok (decide (err = .eok), s', m') := by
  rw [unmapRanges, h, exec_ok_bind]
  cases err with
  | eok => rfl
  | _ => rfl

theorem vmspaceUnmap_of_unmapRanges {s' : Vmspace} {m' : SpaceMem} {addr : BitVec 64}
    (h : unmapRanges zone platform root [(addr, size)] s m = .ok (true, s', m')) :
    vmspaceUnmap (mmuMachine zone platform root) s m addr size = .ok (.eok, s', m') := by
  have hsingle := h
  rw [unmapRanges] at hsingle
  obtain ⟨⟨err, s₁, m₁⟩, hrun, -⟩ := exec_bind_eq_ok_iff.mp hsingle
  rw [unmapRanges_single hrun] at h
  simp only [Except.ok.injEq, Prod.mk.injEq, decide_eq_true_eq] at h
  obtain ⟨rfl, rfl, rfl⟩ := h
  exact hrun

theorem Restores.whole {a : BitVec 64} {s' : Vmspace} {m' : SpaceMem}
    (h : Restores zone platform root a paddr size m s' m') (hsize : size ≠ 0)
    (haligned : a.toNat % 4096 = 0) (hne : pageOf a ≠ 0)
    (hend : pageOf a + sizePages size ≤ 2 ^ 27) :
    ∃ υ, unmapPages zone root a (sizePages size) m'.mmu = .ok υ ∧
      ∀ j < sizePages size, υ.reference (pageOf paddr + j) = m.mmu.reference (pageOf paddr + j) := by
  obtain ⟨done, s'', m'', hrun, hrefs, hdone⟩ :=
    h [(a, size)] (partition_single haligned hsize) [true, true]
  have htrue := hdone rfl
  subst htrue
  obtain ⟨m₁, hreach, hunmap⟩ := unmapPage_of_vmspaceUnmap (vmspaceUnmap_of_unmapRanges hrun)
  rw [mmuMachine_unmapPage haligned hne hend] at hunmap
  obtain ⟨υ, hpages, hresult⟩ := exec_bind_eq_ok_iff.mp hunmap
  cases hresult
  refine ⟨υ, ?_, hrefs rfl⟩
  rw [← hpages, mmuMachine_allocReach hreach]

/-- What a successful `NX_VmspaceMapWithPhy` has done. -/
theorem lent_of_vmspaceMapWithPhy {a : BitVec 64} {s' : Vmspace} {m' : SpaceMem}
    (h : SpaceTree zone root s m.mmu) (hs : FreshSupply zone root m.mmu)
    (hsound : MapSound s vaddr size attr)
    (hpages : PagesApart root m.mmu (pageOf paddr) (sizePages size)) (hne : pageOf paddr ≠ 0)
    (hrun : vmspaceMapWithPhy (mmuMachine zone platform root) s m vaddr paddr size attr flags =
      .ok (.ok a, s', m')) :
    MapPlaced s vaddr size attr a ∧
      s' = { s with nodes := mappedNodes s size attr flags a } ∧
      (flags &&& vmspaceDelayMap ≠ 0 ∧ m'.mmu = m.mmu ∨
        flags &&& vmspaceDelayMap = 0 ∧
          RangeLent zone root m.mmu m'.mmu (pageOf a) (pageOf paddr) (sizePages size)) := by
  have hout := vmspaceMapInternal_outcome (mmuMachine zone platform root) h.nodes m vaddr paddr
    size attr flags
  unfold vmspaceMapWithPhy at hrun
  rw [hrun] at hout
  cases hout with
  | delayed start m' hplaced halloc hdelay =>
      refine ⟨hplaced, rfl, Or.inl ⟨hdelay, ?_⟩⟩
      rw [← mmuMachine_memAlloc m, halloc]
  | mapped start a m₁ m' hplaced halloc hmap ha hnow =>
      have hm₁ : m₁.mmu = m.mmu := by
        rw [← mmuMachine_memAlloc m, halloc]
      have hp := hsound.placement h.layout h.nodes.separated.nonempty hplaced
      obtain ⟨k, hk, τ, hlent, -, hcases⟩ := mapPages_lent platform h hs hp
        (hsound start hplaced).1 hpages hne hm₁
      rw [hmap] at hcases
      by_cases hkn : k = sizePages size
      · rw [if_pos hkn] at hcases
        cases hcases
        exact ⟨hplaced, rfl, Or.inr ⟨hnow, hkn ▸ hlent⟩⟩
      · rw [if_neg hkn] at hcases
        obtain ⟨υ, -, hresult⟩ := exec_bind_eq_ok_iff.mp hcases.symm
        cases hresult
        exact absurd rfl ha

theorem mappedNodes_onePage {σ : MmuState} (h : SpaceTree zone root s σ)
    (hplaced : MapPlaced s vaddr size attr start) (hp : Placement s size start)
    (hone : sizePages size = 1) (flags : BitVec 32) :
    NodesOk s.spaceBase sv39Top (mappedNodes s size attr flags start) ∧
      ∃ node ∈ mappedNodes s size attr flags start,
        node.lo ≤ start.toNat ∧ start.toNat + 4096 ≤ node.hi := by
  have hstart := hp.start_eq
  have hsize := hp.size_eq
  have hbelow := hp.below
  have hbase := hp.base
  have hspace := h.layout.pageOf_base
  have htop : sv39Top.toNat = 2 ^ 27 * 4096 := rfl
  rw [hone] at hsize hbelow
  -- a node inside the page would begin and end within it
  have hdisjoint : ∀ n ∈ s.nodes,
      n.hi ≤ start.toNat ∨ start.toNat + (pageAlignUp size).toNat ≤ n.lo := by
    intro n hn
    have haligned := h.aligned n hn
    have hne := h.nodes.separated.nonempty n hn
    exact disjoint_of_checkAddrCollisions hplaced.free (by omega) hn (by omega)
  have hlow : s.spaceBase.toNat ≤ start.toNat := by omega
  obtain ⟨hok, hal, hlookup⟩ := h.nodes.mappedNodes attr flags (by omega) hlow (by omega)
    hdisjoint
  have hself := hlookup start.toNat
  rw [if_pos (by omega)] at hself
  obtain ⟨node, hnode, ⟨hlo, hhi⟩, -⟩ := hok.separated.lookup_eq_some_iff.mp hself
  have haligned := hal (by omega) h.aligned node hnode
  exact ⟨hok, node, hnode, hlo, by omega⟩

namespace SpaceTree

variable {σ : MmuState}

theorem unmapped (h : SpaceTree zone root s σ) (hplaced : MapPlaced s vaddr size attr start)
    (hp : Placement s size start) : σ.mapped (pageOf start) = none := by
  have hpos := hp.pos
  have hbelow := hp.below
  cases hmapped : σ.mapped (pageOf start) with
  | none => rfl
  | some page =>
      have hlookup := h.covered hp.base (by omega) (by rw [hmapped]; rfl)
      rw [← hp.start_eq] at hlookup
      obtain ⟨val, hval⟩ := Option.isSome_iff_exists.mp hlookup
      obtain ⟨n, hn, hin, -⟩ := h.nodes.separated.lookup_eq_some_iff.mp hval
      have hfree := hplaced.free
      unfold vmspaceCheckAddrCollisions at hfree
      refine absurd ?_ (List.any_eq_false.mp hfree n hn)
      exact decide_eq_true (Or.inl ⟨BitVec.le_def.mpr hin.1, BitVec.lt_def.mpr hin.2⟩)

theorem below_top (h : SpaceTree zone root s σ) (hplaced : MapPlaced s vaddr size attr start)
    (hp : Placement s size start) (hone : sizePages size = 1) :
    start.toNat + 4096 ≤ s.spaceTop.toNat := by
  obtain ⟨addr, haddr, hdown⟩ := hplaced.address
  have htop := h.layout.map_top
  have haligned := h.layout.top_aligned
  have hsize : size.toNat ≤ 4096 := by
    unfold sizePages at hone
    omega
  have hlt := h.layout.lt_top h.nodes.separated.nonempty haddr (by omega)
  have hle : start.toNat ≤ addr.toNat := by
    rw [hdown, pageAlignDown_toNat]
    exact Nat.div_mul_le_self ..
  have hstart := hp.start_eq
  omega

end SpaceTree

/-- `NX_VmspaceUnmap` of a range inside a node whose pages can be unmapped. -/
theorem vmspaceUnmap_returns {addr : BitVec 64} {υ : MmuState}
    (hnodes : NodesOk s.spaceBase sv39Top s.nodes) (htop : s.spaceTop.toNat ≤ sv39Top.toNat)
    (hchecked : ¬unmapRefused s addr size)
    (hfits : addr.toNat + pageRoundUp size.toNat < 2 ^ 64)
    (hnode : ∃ n ∈ s.nodes, n.lo ≤ addr.toNat ∧ addr.toNat + pageRoundUp size.toNat ≤ n.hi)
    (hpages : ∀ {m₁ : SpaceMem}, m₁.mmu = m.mmu →
      (mmuMachine zone platform root).unmapPage m₁ addr (pageAlignUp size) =
        .ok (.eok, { m₁ with mmu := υ })) :
    ∃ err s' m', vmspaceUnmap (mmuMachine zone platform root) s m addr size =
        .ok (err, s', m') ∧
      (err = .eok → m'.mmu = υ) ∧
      ((mmuMachine zone platform root).TwoNodes m → err = .eok) := by
  have hwide := vmspaceUnmap_widen (mmuMachine zone platform root) (le_refl s.spaceBase.toNat)
    htop m hchecked
  have hfits' : UnmapFits { s with spaceTop := sv39Top } addr size := fun _ _ => hfits
  have hup : (pageAlignUp size).toNat = pageRoundUp size.toNat :=
    pageAlignUp_toNat_of_lt (by omega)
  have hfound : (vmspaceFindNode s.nodes addr (pageAlignUp size)).isSome = true :=
    vmspaceFindNode_isSome (by rw [hup]; exact hfits) (by rw [hup]; exact hnode)
  have hout := vmspaceUnmap_outcome (mmuMachine zone platform root)
    (s := { s with spaceTop := sv39Top }) hnodes m hfits'
  generalize hr : vmspaceUnmap (mmuMachine zone platform root) { s with spaceTop := sv39Top } m
    addr size = r at hout hwide
  cases hout with
  | refused err m' herr hm =>
      refine ⟨err, _, m', hwide, fun heq => absurd heq herr, fun hmem => ?_⟩
      obtain ⟨s₁, m₁, hrun⟩ := vmspaceUnmap_of_twoNodes (s := { s with spaceTop := sv39Top }) hnodes
        hmem (not_unmapRefused_widen (le_refl _) htop hchecked) hfits' hfound
        fun hreach => ⟨_, hpages (mmuMachine_allocReach hreach)⟩
      rw [hr] at hrun
      cases hrun
      rfl
  | fault m₁ f hm hrange hrun =>
      rw [hpages (mmuMachine_allocReach hm)] at hrun
      cases hrun
  | restored m₁ m' err nodes hm hrange hrun herr =>
      rw [hpages (mmuMachine_allocReach hm)] at hrun
      cases hrun
      exact absurd rfl herr
  | removed m₁ m' nodes hm hrange hrun hremoved =>
      rw [hpages (mmuMachine_allocReach hm)] at hrun
      cases hrun
      exact ⟨.eok, _, _, hwide, fun _ => rfl, fun _ => rfl⟩

theorem restores_onePage {σ : MmuState} {m' : SpaceMem} (h : SpaceTree zone root s σ)
    (hplaced : MapPlaced s vaddr size attr start) (hp : Placement s size start)
    (hone : sizePages size = 1) {υ : MmuState}
    (hunmap : unmapPages zone root start 1 m'.mmu = .ok υ)
    (hrefs : υ.reference (pageOf paddr) = m.mmu.reference (pageOf paddr)) :
    Restores zone platform root start paddr size m
      { s with nodes := mappedNodes s size attr flags start } m' := by
  obtain ⟨hok, hnode⟩ := mappedNodes_onePage h hplaced hp hone flags
  have hstart := hp.start_eq
  have hbelow := hp.below
  have hbase := hp.base
  have hpos := h.layout.pageOf_base_pos
  rw [hone] at hbelow
  intro ranges hpart nodeMem
  rw [hone] at hpart
  obtain ⟨⟨addr, sz⟩, rfl, haddr, hsz⟩ := hpart.eq_single
  dsimp only at haddr hsz
  have haligned : addr.toNat % 4096 = 0 := hpart.aligned _ (List.mem_singleton_self _)
  have heq : addr = start := by
    apply BitVec.eq_of_toNat_eq
    rw [hstart, ← haddr]
    exact (Nat.div_mul_cancel (Nat.dvd_of_mod_eq_zero haligned)).symm
  subst heq
  have hround : pageRoundUp sz.toNat = 4096 := by
    unfold sizePages at hsz
    unfold pageRoundUp
    rw [hsz]
  have hchecked : ¬unmapRefused { s with nodes := mappedNodes s size attr flags addr } addr sz := by
    have hspace := h.layout.pageOf_base
    have htop := h.below_top hplaced hp hone
    have hszle : sz.toNat ≤ 4096 := by
      unfold sizePages at hsz
      omega
    have hend : (addr + sz).toNat = addr.toNat + sz.toNat := by
      rw [BitVec.toNat_add, Nat.mod_eq_of_lt (by omega)]
    unfold unmapRefused
    simp only [not_or, BitVec.lt_def, BitVec.le_def, hend]
    refine ⟨?_, hpart.nonempty _ (List.mem_singleton_self _), ?_, by omega, by omega, by omega⟩
    · exact hp.start_ne h.layout
    · rw [not_not, and_pageMask_eq_zero_iff]
      exact haligned
  have hpage : ∀ {m₁ : SpaceMem}, m₁.mmu = m'.mmu →
      (mmuMachine zone platform root).unmapPage m₁ addr (pageAlignUp sz) =
        .ok (.eok, { m₁ with mmu := υ }) := by
    intro m₁ hm₁
    rw [mmuMachine_unmapPage haligned (by omega) (by rw [hsz]; exact hbelow), hsz, hm₁, hunmap]
    rfl
  obtain ⟨err, s'', m'', hrun, hmmu, hdone⟩ := vmspaceUnmap_returns (m := { m' with nodeMem })
    (s := { s with nodes := mappedNodes s size attr flags addr }) hok h.layout.top_le hchecked
    (by rw [hround]; omega) (by rw [hround]; exact hnode) hpage
  refine ⟨_, s'', m'', unmapRanges_single hrun, ?_, ?_⟩
  · intro heok j hj
    have hzero : j = 0 := by omega
    rw [hzero, Nat.add_zero, hmmu (of_decide_eq_true heok)]
    exact hrefs
  · rintro rfl
    exact decide_eq_true (hdone ⟨rfl, rfl⟩)

/-- Mapping a physical range and unmapping it again leaves its references alone exactly when it
is a single page, and is mapped at once. -/
theorem vmspaceMapWithPhy_restores_iff {a : BitVec 64} {s' : Vmspace} {m' : SpaceMem}
    (h : SpaceTree zone root s m.mmu) (hs : FreeSupply zone root m.mmu)
    (hsound : MapSound s vaddr size attr)
    (howned : PagesOwned zone root m.mmu (pageOf paddr) (sizePages size))
    (hrun : vmspaceMapWithPhy (mmuMachine zone platform root) s m vaddr paddr size attr flags =
      .ok (.ok a, s', m')) :
    Restores zone platform root a paddr size m s' m' ↔
      sizePages size = 1 ∧ flags &&& vmspaceDelayMap = 0 := by
  have hpages := howned.apart hs
  obtain ⟨hplaced, rfl, hcases⟩ := lent_of_vmspaceMapWithPhy h hs.freshSupply hsound hpages
    howned.first_ne hrun
  have hp := hsound.placement h.layout h.nodes.separated.nonempty hplaced
  have hstart := hp.start_eq
  have hbase := hp.base
  have hbelow := hp.below
  have hpos := hp.pos
  have hspace := h.layout.pageOf_base_pos
  constructor
  · intro hall
    obtain ⟨υ, hunmap, hrefs⟩ := hall.whole (by rintro rfl; cases hpos) (by omega) (by omega)
      hp.below
    rcases hcases with ⟨-, hmmu⟩ | ⟨hnow, hlent⟩
    · -- the first page is not mapped, so that it cannot be unmapped
      rw [hmmu, ← Nat.sub_add_cancel hpos, unmapPages, unmapOnePage_unmapped h.tree
        (toNat_lt_of_pageOf (n := 27) (by omega)) (h.unmapped hplaced hp)] at hunmap
      cases hunmap
    · refine ⟨?_, hnow⟩
      obtain ⟨υ', hunmap', -, -, hgiven⟩ := hlent.giveUp hpages (Nat.le_refl _) howned.first_ne
        hp.below
      rw [hunmap'] at hunmap
      cases hunmap
      by_contra hone
      have hlt : 1 < sizePages size := by omega
      have hlost := hrefs 1 hlt
      have href := howned.reference_pos hlt
      rw [hgiven 1 hlt, hlent.reference hpages hlt, if_neg fun h => absurd h.1 Nat.one_ne_zero,
        if_pos ⟨hlt, howned.zone_eq hlt⟩] at hlost
      omega
  · rintro ⟨hone, hnow⟩
    rcases hcases with ⟨hdelay, -⟩ | ⟨-, hlent⟩
    · exact absurd hnow hdelay
    · obtain ⟨υ, hunmap, -, -, hgiven⟩ := hlent.giveUp hpages (Nat.le_refl _) howned.first_ne
        hp.below
      rw [hone] at hunmap
      refine restores_onePage h hplaced hp hone hunmap ?_
      have hzero := hgiven 0 hpos
      have hzone := howned.zone_eq hpos
      rw [hlent.reference hpages hpos, if_pos ⟨rfl, hzone⟩, if_pos ⟨hpos, hzone⟩] at hzero
      exact hzero

section Runs

/-- An empty page table; three pages of somebody else are in use, with one reference each. -/
def lentMmu : MmuState :=
  { emptyMmu with
    reference := fun page => if 0x80010 ≤ page ∧ page ≤ 0x80012 then 1 else 0
    supply := [0x80001, 0x80002] }

theorem lentMmu_emptyTable : EmptyTable 0x80000 lentMmu where
  mem _ := rfl
  mapped _ := rfl

theorem lentMmu_freeSupply : FreeSupply qemuZone 0x80000 lentMmu where
  nodup := by decide
  free := by
    intro p hp
    have hbounds : ∀ p ∈ [0x80001, 0x80002],
        p ≠ 0 ∧ p < 2 ^ 28 ∧ qemuZone p = true ∧ p ≠ 0x80000 ∧ lentMmu.reference p = 0 := by
      decide
    obtain ⟨hne, hlt, hzone, hroot, href⟩ := hbounds p hp
    exact ⟨hne, hlt, hzone, fun ht => hroot (lentMmu_emptyTable.isTable ht), href⟩

theorem userSpace_spaceTree : SpaceTree qemuZone 0x80000 userSpace lentMmu where
  layout := userSpace_layout
  tree := lentMmu_emptyTable.tableInv (by decide)
  nodes := userSpace_spaceInv.nodes
  aligned := userSpace_spaceInv.aligned
  covered := by
    intro v _ _ hmapped
    rw [lentMmu_emptyTable.mapped] at hmapped
    cases hmapped

theorem lentMmu_pagesOwned {n : ℕ} (hn : n ≤ 3) :
    PagesOwned qemuZone 0x80000 lentMmu 0x80010 n where
  first_ne := by decide
  below := by omega
  zone_eq := by
    intro j hj
    have hzone : ∀ j < 3, qemuZone (0x80010 + j) = true := by
      decide
    exact hzone j (by omega)
  reference_pos := by
    intro j hj
    have hpos : ∀ j < 3, 0 < lentMmu.reference (0x80010 + j) := by
      decide
    exact hpos j (by omega)
  table := by
    intro j hj ht
    have hroot := lentMmu_emptyTable.isTable ht
    omega

def mapLent (size : BitVec 64) (flags : BitVec 32) :
    Exec (Except NxError (BitVec 64) × Vmspace × SpaceMem) :=
  vmspaceMapWithPhy (mmuMachine qemuZone .other 0x80000) userSpace ⟨lentMmu, [true]⟩ 0 0x80010000
    size pageAttrUser flags

def mappedAt : Exec (Except NxError (BitVec 64) × Vmspace × SpaceMem) → Option (BitVec 64)
  | .ok (.ok a, _, _) => some a
  | _ => none

theorem eq_ok_of_mappedAt {r : Exec (Except NxError (BitVec 64) × Vmspace × SpaceMem)}
    {a : BitVec 64} (h : mappedAt r = some a) : ∃ s' m', r = .ok (.ok a, s', m') := by
  unfold mappedAt at h
  split at h
  · cases h
    exact ⟨_, _, rfl⟩
  · cases h

theorem userSpace_mapSound {vaddr size : BitVec 64} (addr : BitVec 64)
    (haddr : mapAddress userSpace vaddr size pageAttrUser = .ok addr)
    (hend : (pageAlignDown addr).toNat + pageRoundUp size.toNat ≤ sv39Top.toNat) :
    MapSound userSpace vaddr size pageAttrUser := by
  intro start hplaced
  obtain ⟨addr', haddr', rfl⟩ := hplaced.address
  rw [haddr] at haddr'
  cases haddr'
  exact ⟨⟨by decide, by decide, by decide⟩, hend⟩

theorem vmspaceMapWithPhy_restores_iff_onePage :
    ∃ s' m', mapLent 0x1000 0 = .ok (.ok 0x300000000, s', m') ∧
      Restores qemuZone .other 0x80000 0x300000000 0x80010000 0x1000 ⟨lentMmu, [true]⟩ s' m' := by
  obtain ⟨s', m', hrun⟩ := eq_ok_of_mappedAt (r := mapLent 0x1000 0) (a := 0x300000000)
    (by decide +kernel)
  refine ⟨s', m', hrun, ?_⟩
  refine (vmspaceMapWithPhy_restores_iff userSpace_spaceTree lentMmu_freeSupply
    (userSpace_mapSound 0x300000000 (by decide) (by decide))
    (lentMmu_pagesOwned (by decide)) hrun).mpr ?_
  exact ⟨by decide, by decide⟩

/-- The second page loses the reference of its owner, and a page that was to be mapped later
cannot be unmapped. -/
theorem vmspaceMapWithPhy_loses :
    SpaceTree qemuZone 0x80000 userSpace lentMmu ∧ FreeSupply qemuZone 0x80000 lentMmu ∧
    PagesOwned qemuZone 0x80000 lentMmu 0x80010 2 ∧
    (∃ s' m', mapLent 0x2000 0 = .ok (.ok 0x300000000, s', m') ∧
      ∃ s'' m'', unmapRanges qemuZone .other 0x80000 [(0x300000000, 0x2000)] s' m' =
          .ok (true, s'', m'') ∧
        lentMmu.reference 0x80011 = 1 ∧ m''.mmu.reference 0x80011 = 0) ∧
    ∃ s' m', mapLent 0x1000 vmspaceDelayMap = .ok (.ok 0x300000000, s', m') ∧
      unmapRanges qemuZone .other 0x80000 [(0x300000000, 0x1000)] s' m' = .error .assertion := by
  refine ⟨userSpace_spaceTree, lentMmu_freeSupply, lentMmu_pagesOwned (by decide), ?_, ?_⟩
  · obtain ⟨s', m', hrun⟩ := eq_ok_of_mappedAt (r := mapLent 0x2000 0) (a := 0x300000000)
      (by decide +kernel)
    have hunmap : ((mapLent 0x2000 0 >>= fun r =>
        unmapRanges qemuZone .other 0x80000 [(0x300000000, 0x2000)] r.2.1 r.2.2).map
          fun r => (r.1, r.2.2.mmu.reference 0x80011)) = .ok (true, 0) := by
      decide +kernel
    rw [hrun, exec_ok_bind] at hunmap
    obtain ⟨⟨done, s'', m''⟩, hdone, hresult⟩ := exec_map_eq_ok_iff.mp hunmap
    obtain ⟨rfl, href⟩ := Prod.mk.inj hresult
    exact ⟨s', m', hrun, s'', m'', hdone, rfl, href⟩
  · obtain ⟨s', m', hrun⟩ := eq_ok_of_mappedAt (r := mapLent 0x1000 vmspaceDelayMap)
      (a := 0x300000000) (by decide +kernel)
    have hunmap : faultOf (mapLent 0x1000 vmspaceDelayMap >>= fun r =>
        unmapRanges qemuZone .other 0x80000 [(0x300000000, 0x1000)] r.2.1 r.2.2) =
          some .assertion := by
      decide +kernel
    rw [hrun, exec_ok_bind] at hunmap
    exact ⟨s', m', hrun, eq_error_of_faultOf hunmap⟩

end Runs

end Nxos.Process
