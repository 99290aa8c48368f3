import Nxos.Arch.Riscv64.UserPages
import Nxos.Mm.Vmspace.Heap

/-!
# Spaces over the sv39 page table

`mm/vmspace.c` on the page table of riscv64.  The nodes of a space say which pages of
the user part are mapped; mapping and unmapping keep the two together, so that an
unmapped range always has entries to clear and `NX_VmspaceExit` finds every page it
looks for.
-/

namespace Nxos.Riscv64

open Nxos.Mm Nxos.Interval Nxos.Transition

/-! ## The machine -/

/-- What lies behind a space: the page table, and for every node that is going to be
allocated whether there is memory for it. -/
structure SpaceMem where
  mmu : MmuState
  nodeMem : List Bool

variable {zone : ℕ → Bool} {platform : Platform} {root : ℕ} {s : Vmspace} {m : SpaceMem}

/-- The functions of `arch/riscv64/port/mmu.c` behind `NX_MmuOpsInterface`. -/
def mmuMachine (zone : ℕ → Bool) (platform : Platform) (root : ℕ) : Machine SpaceMem where
  memAlloc m :=
    match m.nodeMem with
    | [] => (false, m)
    | ok :: rest => (ok, { m with nodeMem := rest })
  pageIncrease m ptr := do
    nxAssert (ptr ≠ 0)
    return { m with mmu := pageIncrease zone m.mmu (pageOf ptr) }
  mapPage m va size attr := do
    let (addr, mmu) ← halMapPage zone platform root m.mmu va size attr
    return (addr.getD 0, { m with mmu })
  mapPageWithPhy m va pa size attr := do
    let (addr, mmu) ← halMapPageWithPhy zone platform root m.mmu va pa size attr
    return (addr.getD 0, { m with mmu })
  unmapPage m va size := do
    let (err, mmu) ← halUnmapPage zone root m.mmu va size
    return (err, { m with mmu })

theorem mmuMachine_memAlloc (m : SpaceMem) :
    ((mmuMachine zone platform root).memAlloc m).2.mmu = m.mmu := by
  unfold mmuMachine
  dsimp only
  split <;> rfl

theorem mmuMachine_allocReach {m m' : SpaceMem}
    (h : (mmuMachine zone platform root).AllocReach m m') : m'.mmu = m.mmu := by
  refine Reachable.invariant (P := fun a : SpaceMem => a.mmu = m.mmu) h rfl ?_
  rintro a _ b hab rfl
  exact (mmuMachine_memAlloc a).trans hab

/-! ## The invariant -/

/-- The end of the addresses that the three indices of a page table reach. -/
def sv39Top : BitVec 64 := 0x8000000000#64

structure SpaceLayout (s : Vmspace) : Prop where
  table : s.table = true
  base_aligned : s.spaceBase.toNat % 4096 = 0
  base_pos : 0 < s.spaceBase.toNat
  top_aligned : s.spaceTop.toNat % 4096 = 0
  top_le : s.spaceTop.toNat ≤ sv39Top.toNat
  map_aligned : s.mapStart.toNat % 4096 = 0
  map_base : s.spaceBase.toNat ≤ s.mapStart.toNat
  map_le : s.mapStart.toNat ≤ s.mapEnd.toNat
  map_top : s.mapEnd.toNat < s.spaceTop.toNat

/-- A space with its page table: the nodes are in order, and the pages of the user part
that are mapped are those of the nodes. -/
structure SpaceInv (zone : ℕ → Bool) (root : ℕ) (s : Vmspace) (σ : MmuState) : Prop where
  layout : SpaceLayout s
  user : UserInv zone root (pageOf s.spaceBase) σ
  nodes : NodesOk s.spaceBase sv39Top s.nodes
  aligned : NodesAligned s.nodes
  pages : ∀ {v}, pageOf s.spaceBase ≤ v → v < 2 ^ 27 →
    ((σ.mapped v).isSome = true ↔ (nodesLookup s.nodes (v * 4096)).isSome = true)

theorem SpaceLayout.pageOf_base (h : SpaceLayout s) :
    pageOf s.spaceBase * 4096 = s.spaceBase.toNat := by
  have haligned := h.base_aligned
  unfold pageOf
  omega

theorem SpaceLayout.pageOf_base_pos (h : SpaceLayout s) : 0 < pageOf s.spaceBase := by
  have hbase := h.pageOf_base
  have hpos := h.base_pos
  omega

namespace SpaceInv

variable {σ τ : MmuState}

theorem of_mapped_eq (h : SpaceInv zone root s σ)
    (huser : UserInv zone root (pageOf s.spaceBase) τ) (hmapped : τ.mapped = σ.mapped) :
    SpaceInv zone root s τ where
  layout := h.layout
  user := huser
  nodes := h.nodes
  aligned := h.aligned
  pages := by
    rw [hmapped]
    exact h.pages

theorem node_mapped (h : SpaceInv zone root s σ) {n : Vmnode} (hn : n ∈ s.nodes) {v : ℕ}
    (hlo : n.lo ≤ v * 4096) (hhi : v * 4096 < n.hi) : (σ.mapped v).isSome = true := by
  have hinside := h.nodes.inside n hn
  have hbase := h.layout.pageOf_base
  have htop : sv39Top.toNat = 2 ^ 27 * 4096 := rfl
  refine (h.pages (by omega) (by omega)).mpr ?_
  rw [Option.isSome_iff_exists]
  exact ⟨n.val, h.nodes.separated.lookup_eq_some_iff.mpr ⟨n, hn, ⟨hlo, hhi⟩, rfl⟩⟩

theorem disjoint_of_unmapped (h : SpaceInv zone root s σ) {start size : BitVec 64} {first k : ℕ}
    (hk : 0 < k) (hstart : start.toNat = first * 4096) (hsize : size.toNat = k * 4096)
    (hfree : ∀ j < k, σ.mapped (first + j) = none) :
    ∀ n ∈ s.nodes, n.hi ≤ start.toNat ∨ start.toNat + size.toNat ≤ n.lo := by
  intro n hn
  by_contra hoverlap
  have haligned := h.aligned n hn
  have hne := h.nodes.separated.nonempty n hn
  -- the first page that the node and the range share
  have hpage : ∃ v, n.lo ≤ v * 4096 ∧ v * 4096 < n.hi ∧ first ≤ v ∧ v < first + k := by
    by_cases hle : n.lo ≤ start.toNat
    · exact ⟨first, by omega, by omega, by omega, by omega⟩
    · exact ⟨n.lo / 4096, by omega, by omega, by omega, by omega⟩
  obtain ⟨v, hlo, hhi, hfirst, hlast⟩ := hpage
  have hmapped := h.node_mapped hn hlo hhi
  have hnone := hfree (v - first) (by omega)
  rw [Nat.add_sub_cancel' hfirst] at hnone
  rw [hnone] at hmapped
  cases hmapped

theorem of_rangeMapped (h : SpaceInv zone root s σ) {υ : MmuState} (hrecord : υ.mapped = σ.mapped)
    {size attr start : BitVec 64} {flags : BitVec 32} {first k : ℕ} {g : ℕ → ℕ} (hk : 0 < k)
    (hstart : start.toNat = first * 4096) (hsize : (pageAlignUp size).toNat = k * 4096)
    (hbase : pageOf s.spaceBase ≤ first) (hend : first + k ≤ 2 ^ 27)
    (hmapped : RangeMapped zone root (pageOf s.spaceBase) υ τ first k g) :
    SpaceInv zone root { s with nodes := mappedNodes s size attr flags start } τ := by
  have hspace := h.layout.pageOf_base
  have htop : sv39Top.toNat = 2 ^ 27 * 4096 := rfl
  have hdisjoint := h.disjoint_of_unmapped hk hstart hsize (hrecord ▸ hmapped.free)
  obtain ⟨hnodes, haligned, hlookup⟩ := h.nodes.mappedNodes attr flags (by omega)
    (by omega) (by omega) hdisjoint
  constructor
  · exact { h.layout with }
  · exact hmapped.inv
  · exact hnodes
  · exact haligned (by omega) h.aligned
  · intro v hv hlt
    dsimp only at hv ⊢
    rw [hlookup, hmapped.mapped, hrecord]
    by_cases hin : first ≤ v ∧ v < first + k
    · rw [if_pos (by omega)]
      unfold setRange
      rw [if_pos hin]
      exact iff_of_true rfl rfl
    · rw [if_neg (by omega), setRange_outside _ _ hin]
      exact h.pages hv hlt

theorem of_rangeCleared (h : SpaceInv zone root s σ) {nodes : List Vmnode} {first k : ℕ}
    (hnodes : NodesOk s.spaceBase sv39Top nodes) (haligned : NodesAligned nodes)
    (hlookup : ∀ x, nodesLookup nodes x =
      if first * 4096 ≤ x ∧ x < (first + k) * 4096 then none else nodesLookup s.nodes x)
    (hcleared : RangeCleared zone root (pageOf s.spaceBase) σ τ first k) :
    SpaceInv zone root { s with nodes } τ where
  layout := { h.layout with }
  user := hcleared.inv
  nodes := hnodes
  aligned := haligned
  pages := by
    intro v hv hlt
    dsimp only at hv ⊢
    rw [hlookup, hcleared.mapped]
    by_cases hin : first ≤ v ∧ v < first + k
    · rw [if_pos (by omega)]
      unfold setRange
      rw [if_pos hin]
      exact Iff.rfl
    · rw [if_neg (by omega), setRange_outside _ _ hin]
      exact h.pages hv hlt

end SpaceInv

/-! ## Mapping -/

theorem mapAreaLoop_bounds {size addr : BitVec 64} {nodes : List Vmnode}
    (hnodes : ∀ n ∈ nodes, n.lo < n.hi) {freeAddr : BitVec 64}
    (hfree : s.mapStart.toNat ≤ freeAddr.toNat ∧ freeAddr.toNat ≤ s.mapEnd.toNat)
    (hrun : mapAreaLoop s size freeAddr nodes = some addr) :
    s.mapStart.toNat ≤ addr.toNat ∧ addr.toNat ≤ s.mapEnd.toNat := by
  refine mapAreaLoop_rule (P := fun a => s.mapStart.toNat ≤ a.toNat ∧ a.toNat ≤ s.mapEnd.toNat)
    ?_ hfree hrun
  intro n hn _ _ hlow hhigh _
  exact ⟨(BitVec.le_def.mp hlow).trans (hnodes n hn).le, BitVec.le_def.mp hhigh⟩

/-- A request that the checks let through has the attributes of a leaf and ends, in exact
arithmetic, among the addresses that the page table reaches. -/
def MapSound (s : Vmspace) (vaddr size attr : BitVec 64) : Prop :=
  ∀ start, MapPlaced s vaddr size attr start →
    AttrOk attr ∧ start.toNat + pageRoundUp size.toNat ≤ sv39Top.toNat

structure Placement (s : Vmspace) (size start : BitVec 64) : Prop where
  start_eq : start.toNat = pageOf start * 4096
  base : pageOf s.spaceBase ≤ pageOf start
  size_eq : (pageAlignUp size).toNat = sizePages size * 4096
  pages_eq : sizePages (pageAlignUp size) = sizePages size
  pos : 0 < sizePages size
  below : pageOf start + sizePages size ≤ 2 ^ 27

variable {size start : BitVec 64}

theorem Placement.start_ne (h : Placement s size start) (hs : SpaceLayout s) : start ≠ 0 := by
  have hpos := hs.pageOf_base_pos
  have hbase := h.base
  rintro rfl
  have hzero : pageOf (0 : BitVec 64) = 0 := rfl
  omega

theorem Placement.alignDown (h : Placement s size start) : pageAlignDown start = start := by
  apply BitVec.eq_of_toNat_eq
  rw [pageAlignDown_toNat]
  exact h.start_eq.symm

section Placing

variable {vaddr attr addr : BitVec 64}

theorem SpaceLayout.base_le (h : SpaceLayout s) (hnodes : ∀ n ∈ s.nodes, n.lo < n.hi)
    (haddr : mapAddress s vaddr size attr = .ok addr) :
    s.spaceBase.toNat ≤ addr.toNat := by
  unfold mapAddress at haddr
  split_ifs at haddr with hargs hrange hzero
  · split at haddr
    · cases haddr
    · next addr' hrun =>
        cases haddr
        exact Nat.le_trans h.map_base
          (mapAreaLoop_bounds hnodes ⟨Nat.le_refl _, h.map_le⟩ hrun).1
  · cases haddr
    rw [not_and_or, not_or, BitVec.lt_def] at hrange
    rcases hrange with hne | hrange
    · exact absurd hzero hne
    · omega

theorem SpaceLayout.lt_top (h : SpaceLayout s) (hnodes : ∀ n ∈ s.nodes, n.lo < n.hi)
    (haddr : mapAddress s vaddr size attr = .ok addr)
    (hsize : size.toNat ≤ s.spaceTop.toNat) : addr.toNat < s.spaceTop.toNat := by
  have hpos : 0 < size.toNat := by
    refine Nat.pos_of_ne_zero fun heq => mapAddress_size_ne_zero haddr ?_
    exact BitVec.eq_of_toNat_eq heq
  unfold mapAddress at haddr
  split_ifs at haddr with hargs hrange hzero
  · split at haddr
    · cases haddr
    · next addr' hrun =>
        cases haddr
        exact Nat.lt_of_le_of_lt
          (mapAreaLoop_bounds hnodes ⟨Nat.le_refl _, h.map_le⟩ hrun).2 h.map_top
  · cases haddr
    have hsub : (s.spaceTop - size).toNat = s.spaceTop.toNat - size.toNat :=
      BitVec.toNat_sub_of_le (BitVec.le_def.mpr hsize)
    rw [not_and_or, not_or, BitVec.lt_def, BitVec.lt_def, hsub] at hrange
    rcases hrange with hne | hrange
    · exact absurd hzero hne
    · omega

theorem MapSound.placement (hsound : MapSound s vaddr size attr) (hlayout : SpaceLayout s)
    (hnodes : ∀ n ∈ s.nodes, n.lo < n.hi) (hplaced : MapPlaced s vaddr size attr start) :
    Placement s size start := by
  have hend := (hsound start hplaced).2
  obtain ⟨addr, haddr, hstart⟩ := hplaced.address
  have hpos := pageRoundUp_pos (mapAddress_size_ne_zero haddr)
  have hspace := hlayout.pageOf_base
  have hbase := hlayout.base_le hnodes haddr
  have hdown := pageAlignDown_toNat addr
  rw [← hstart] at hdown
  clear hstart
  have htop : sv39Top.toNat = 2 ^ 27 * 4096 := rfl
  have hup : (pageAlignUp size).toNat = pageRoundUp size.toNat :=
    pageAlignUp_toNat_of_lt (by omega)
  have hpages : pageRoundUp size.toNat = sizePages size * 4096 := rfl
  have hsize : (pageAlignUp size).toNat = sizePages size * 4096 := hup.trans hpages
  have hrounded : sizePages (pageAlignUp size) = sizePages size := by
    unfold sizePages at hsize ⊢
    rw [hsize]
    omega
  have hstartEq : start.toNat = pageOf start * 4096 := by
    unfold pageOf
    rw [hdown, Nat.mul_div_cancel _ (by decide)]
  rw [hpages] at hend hpos
  rw [← hspace] at hbase
  clear hup hpages
  exact ⟨hstartEq, by omega, hsize, hrounded, by omega, by omega⟩

end Placing

namespace SpaceInv

variable {vaddr paddr attr : BitVec 64} {flags : BitVec 32}

theorem placement {σ : MmuState} (h : SpaceInv zone root s σ)
    (hsound : MapSound s vaddr size attr) (hplaced : MapPlaced s vaddr size attr start) :
    Placement s size start :=
  hsound.placement h.layout h.nodes.separated.nonempty hplaced

/-- `NX_VmspaceMap` returns.  Either nothing has changed for the space, or the range is
mapped to free pages. -/
theorem vmspaceMap (platform : Platform) (h : SpaceInv zone root s m.mmu)
    (hs : FreeSupply zone root m.mmu) (hflags : flags &&& vmspaceDelayMap = 0)
    (hsound : MapSound s vaddr size attr) :
    (∃ err m', vmspaceMap (mmuMachine zone platform root) s m vaddr size attr flags =
        .ok (.error err, s, m') ∧ SpaceInv zone root s m'.mmu) ∨
    ∃ a nodes m' g, Mm.vmspaceMap (mmuMachine zone platform root) s m vaddr size attr flags =
        .ok (.ok a, { s with nodes }, m') ∧
      Placement s size a ∧ SpaceInv zone root { s with nodes } m'.mmu ∧
      RangeMapped zone root (pageOf s.spaceBase) m.mmu m'.mmu (pageOf a) (sizePages size) g ∧
      LeavesTaken root m.mmu m'.mmu (pageOf a) (sizePages size) g := by
  have hmmu : ∀ {m₁ start}, MapPlaced s vaddr size attr start → m₁.mmu = m.mmu →
      (∃ m' g, Mm.mapPages (mmuMachine zone platform root) m₁ start 0 (pageAlignUp size) attr =
          .ok (start, m') ∧
        RangeMapped zone root (pageOf s.spaceBase) m.mmu m'.mmu (pageOf start)
          (sizePages size) g ∧
        LeavesTaken root m.mmu m'.mmu (pageOf start) (sizePages size) g) ∨
      ∃ m', Mm.mapPages (mmuMachine zone platform root) m₁ start 0 (pageAlignUp size) attr =
          .ok (0, m') ∧ SpaceInv zone root s m'.mmu := by
    intro m₁ start hplaced hm₁
    have hp := h.placement hsound hplaced
    have hrun := h.user.halMapPage platform hs start (pageAlignUp size)
      (hsound start hplaced).1 h.layout.pageOf_base_pos hp.base (by rw [hp.pages_eq]; exact hp.below)
    rw [hp.pages_eq, hp.alignDown] at hrun
    unfold Mm.mapPages mmuMachine
    rw [if_neg (not_not.mpr rfl)]
    dsimp only
    rw [hm₁]
    rcases hrun with ⟨τ, g, hrun, hmapped, hleaves⟩ | ⟨τ, pages, hrun, -, hgiven⟩
    · rw [hrun, exec_ok_bind]
      exact Or.inl ⟨_, g, rfl, hmapped, hleaves⟩
    · rw [hrun, exec_ok_bind]
      exact Or.inr ⟨_, rfl, h.of_mapped_eq hgiven.inv hgiven.mapped⟩
  have hout := vmspaceMapInternal_outcome (mmuMachine zone platform root) h.nodes m vaddr 0 size
    attr flags
  unfold Mm.vmspaceMap
  generalize vmspaceMapInternal (mmuMachine zone platform root) s m vaddr 0 size attr flags = r
    at hout ⊢
  cases hout with
  | refused err m' hm =>
      refine Or.inl ⟨err, m', rfl, ?_⟩
      have hsame : m'.mmu = m.mmu := by
        rcases hm with rfl | rfl
        · rfl
        · exact mmuMachine_memAlloc m
      rw [hsame]
      exact h
  | delayed start m' _ _ hdelay => exact absurd hflags hdelay
  | fault start m₁ f hplaced halloc hmap =>
      have hm₁ : m₁.mmu = m.mmu := by
        rw [← mmuMachine_memAlloc m, halloc]
      rcases hmmu hplaced hm₁ with ⟨m', g, hrun, -⟩ | ⟨m', hrun, -⟩
      · rw [hmap] at hrun
        cases hrun
      · rw [hmap] at hrun
        cases hrun
  | unmapped start m₁ m' hplaced halloc hmap =>
      have hm₁ : m₁.mmu = m.mmu := by
        rw [← mmuMachine_memAlloc m, halloc]
      rcases hmmu hplaced hm₁ with ⟨m'', g, hrun, -⟩ | ⟨m'', hrun, hinv⟩
      · rw [hmap] at hrun
        cases hrun
        exact absurd rfl ((h.placement hsound hplaced).start_ne h.layout)
      · rw [hmap] at hrun
        cases hrun
        exact Or.inl ⟨_, m', rfl, hinv⟩
  | mapped start a m₁ m' hplaced halloc hmap ha =>
      have hm₁ : m₁.mmu = m.mmu := by
        rw [← mmuMachine_memAlloc m, halloc]
      have hp := h.placement hsound hplaced
      rcases hmmu hplaced hm₁ with ⟨m'', g, hrun, hmapped, hleaves⟩ | ⟨m'', hrun, -⟩
      · rw [hmap] at hrun
        cases hrun
        refine Or.inr ⟨start, _, m', g, rfl, hp, ?_, hmapped, hleaves⟩
        exact h.of_rangeMapped rfl hp.pos hp.start_eq hp.size_eq hp.base hp.below hmapped
      · rw [hmap] at hrun
        cases hrun
        exact absurd rfl ha

/-- `NX_PageIncrease` of a page of somebody else. -/
theorem pageIncrease {σ : MmuState} (h : SpaceInv zone root s σ) (page : ℕ) :
    SpaceInv zone root s (pageIncrease zone σ page) := by
  refine h.of_mapped_eq ⟨h.user.tree.pageIncrease page, ?_, ?_⟩ (pageIncrease_mapped σ page)
  · intro v p hbase hv hmapped
    rw [pageIncrease_mapped] at hmapped
    rw [MmuState.isTable_pageIncrease]
    exact h.user.leaves.leaf hbase hv hmapped
  · intro p hzone
    rw [pageIncrease_mapped, reference_pageIncrease]
    exact Nat.le_add_right_of_le (h.user.leaves.refs hzone)

/-- A successful `NX_VmspaceMapWithPhy` maps the range to the physical pages. -/
theorem vmspaceMapWithPhy {s' : Vmspace} {a : BitVec 64} {m' : SpaceMem}
    (h : SpaceInv zone root s m.mmu) (hs : FreeSupply zone root m.mmu)
    (hflags : flags &&& vmspaceDelayMap = 0) (hsound : MapSound s vaddr size attr)
    (hpaddr : paddr ≠ 0)
    (hlent : PagesLent zone root (pageOf s.spaceBase)
      (Riscv64.pageIncrease zone m.mmu (pageOf paddr)) (pageOf paddr) (sizePages size))
    (hrun : vmspaceMapWithPhy (mmuMachine zone platform root) s m vaddr paddr size attr flags =
      .ok (.ok a, s', m')) :
    ∃ nodes, s' = { s with nodes } ∧ Placement s size a ∧ SpaceInv zone root s' m'.mmu ∧
      RangeMapped zone root (pageOf s.spaceBase) (Riscv64.pageIncrease zone m.mmu (pageOf paddr))
        m'.mmu (pageOf a) (sizePages size) (pageOf paddr + ·) := by
  have hout := vmspaceMapInternal_outcome (mmuMachine zone platform root) h.nodes m vaddr paddr
    size attr flags
  unfold Mm.vmspaceMapWithPhy at hrun
  rw [hrun] at hout
  cases hout with
  | delayed start m' _ _ hdelay => exact absurd hflags hdelay
  | mapped start a m₁ m' hplaced halloc hmap ha =>
      have hm₁ : m₁.mmu = m.mmu := by
        rw [← mmuMachine_memAlloc m, halloc]
      have hp := h.placement hsound hplaced
      have hfirst : pageAlignDown paddr ≠ 0 := by
        intro hzero
        apply hlent.first_ne
        rw [← pageOf_pageAlignDown, hzero]
        rfl
      have hsupply : FreeSupply zone root (Riscv64.pageIncrease zone m.mmu (pageOf paddr)) := by
        refine ⟨by rw [pageIncrease_supply]; exact hs.nodup, ?_⟩
        intro p hmem
        have hne : p ≠ pageOf paddr := by
          rintro rfl
          exact hlent.supply hp.pos hmem
        rw [pageIncrease_supply] at hmem
        unfold MmuState.IsTable
        rw [pageIncrease_mem, pageIncrease_reference_of_ne _ hne]
        exact hs.free hmem
      obtain ⟨k, hk, τ, hmapped, hcases⟩ := (h.pageIncrease (pageOf paddr)).user.halMapPageWithPhy
        platform hsupply start paddr (pageAlignUp size)
        (hsound start hplaced).1 h.layout.pageOf_base_pos hp.base (by rw [hp.pages_eq]; exact hp.below)
        (by rw [hp.pages_eq]; exact hlent)
      unfold Mm.mapPages mmuMachine at hmap
      rw [if_pos hpaddr] at hmap
      dsimp only at hmap
      rw [nxAssert_pos hfirst, exec_ok_bind, exec_pure, exec_ok_bind, pageOf_pageAlignDown, hm₁]
        at hmap
      rw [hp.pages_eq, hp.alignDown] at hcases
      rcases hcases with ⟨rfl, hsuccess⟩ | ⟨-, υ, hfailure, -⟩
      · rw [hsuccess, exec_ok_bind] at hmap
        cases hmap
        refine ⟨_, rfl, hp, ?_, hmapped⟩
        exact h.of_rangeMapped (pageIncrease_mapped _ _) hp.pos hp.start_eq hp.size_eq hp.base
          hp.below hmapped
      · rw [hfailure, exec_ok_bind] at hmap
        cases hmap
        exact absurd rfl ha

/-! ## Unmapping -/

/-- `NX_VmspaceUnmap` returns.  Either nothing has changed, or the range is unmapped. -/
theorem vmspaceUnmap (platform : Platform) (h : SpaceInv zone root s m.mmu) {addr : BitVec 64}
    (hfits : UnmapFits s addr size) :
    (∃ err m', err ≠ .eok ∧ m'.mmu = m.mmu ∧
      vmspaceUnmap (mmuMachine zone platform root) s m addr size = .ok (err, s, m')) ∨
    ∃ nodes m', Mm.vmspaceUnmap (mmuMachine zone platform root) s m addr size =
        .ok (.eok, { s with nodes }, m') ∧
      SpaceInv zone root { s with nodes } m'.mmu ∧ pageOf s.spaceBase ≤ pageOf addr ∧
      pageOf addr + sizePages size ≤ 2 ^ 27 ∧
      RangeCleared zone root (pageOf s.spaceBase) m.mmu m'.mmu (pageOf addr)
        (sizePages size) := by
  by_cases hrefused : unmapRefused s addr size
  · refine Or.inl ⟨.einval, m, by decide, rfl, ?_⟩
    unfold Mm.vmspaceUnmap
    rw [if_pos hrefused]
  have hwide := vmspaceUnmap_widen (mmuMachine zone platform root) (le_refl s.spaceBase.toNat)
    h.layout.top_le m hrefused
  have hout := vmspaceUnmap_outcome (mmuMachine zone platform root)
    (s := { s with spaceTop := sv39Top }) h.nodes m
    (show UnmapFits { s with spaceTop := sv39Top } addr size from
      fun _ hfind => hfits hrefused hfind)
  rw [hwide]
  -- the pages of the range are those of a node, and are mapped
  have hmmu : ∀ {m₁}, m₁.mmu = m.mmu → UnmapRange { s with spaceTop := sv39Top } addr size →
      pageOf s.spaceBase ≤ pageOf addr ∧ pageOf addr + sizePages size ≤ 2 ^ 27 ∧
      addr.toNat = pageOf addr * 4096 ∧
      ∃ m', (mmuMachine zone platform root).unmapPage m₁ addr (pageAlignUp size) =
          .ok (.eok, m') ∧
        RangeCleared zone root (pageOf s.spaceBase) m.mmu m'.mmu (pageOf addr)
          (sizePages size) := by
    intro m₁ hm₁ hrange
    obtain ⟨n, hn, hlo, hhi⟩ := hrange.node
    have hinside := h.nodes.inside n hn
    have hspace := h.layout.pageOf_base
    have htop : sv39Top.toNat = 2 ^ 27 * 4096 := rfl
    have haddr : addr.toNat = pageOf addr * 4096 := by
      unfold pageOf
      exact (Nat.div_mul_cancel (Nat.dvd_of_mod_eq_zero hrange.aligned)).symm
    have hpages : pageRoundUp size.toNat = sizePages size * 4096 := rfl
    have hrounded : sizePages (pageAlignUp size) = sizePages size := by
      have hsize := hrange.size_eq
      rw [hpages] at hsize
      unfold sizePages at hsize ⊢
      rw [hsize]
      omega
    rw [hpages] at hhi
    have hbase : pageOf s.spaceBase ≤ pageOf addr := by omega
    have hend : pageOf addr + sizePages size ≤ 2 ^ 27 := by omega
    obtain ⟨τ, hrun, hcleared⟩ := h.user.halUnmapPage addr (pageAlignUp size)
      h.layout.pageOf_base_pos hbase (by rw [hrounded]; exact hend) (by
        intro k hk
        rw [hrounded] at hk
        exact h.node_mapped hn (by omega) (by omega))
    rw [hrounded] at hcleared
    refine ⟨hbase, hend, haddr, { m₁ with mmu := τ }, ?_, hcleared⟩
    unfold mmuMachine
    dsimp only
    rw [hm₁, hrun, exec_ok_bind]
    rfl
  generalize Mm.vmspaceUnmap (mmuMachine zone platform root) { s with spaceTop := sv39Top } m addr
    size = r at hout ⊢
  cases hout with
  | refused err m' herr hm =>
      exact Or.inl ⟨err, m', herr, mmuMachine_allocReach hm, rfl⟩
  | fault m₁ f hm hrange hrun =>
      obtain ⟨-, -, -, m', hrun', -⟩ := hmmu (mmuMachine_allocReach hm) hrange
      rw [hrun'] at hrun
      cases hrun
  | restored m₁ m' err nodes hm hrange hrun herr =>
      obtain ⟨-, -, -, m'', hrun', -⟩ := hmmu (mmuMachine_allocReach hm) hrange
      rw [hrun'] at hrun
      cases hrun
      exact absurd rfl herr
  | removed m₁ m' nodes hm hrange hrun hremoved =>
      obtain ⟨hbase, hend, haddr, m'', hrun', hcleared⟩ := hmmu (mmuMachine_allocReach hm) hrange
      rw [hrun'] at hrun
      cases hrun
      refine Or.inr ⟨nodes, m', rfl, ?_, hbase, hend, hcleared⟩
      refine h.of_rangeCleared hremoved.ok (hremoved.aligned h.aligned) ?_ hcleared
      intro x
      have hpages : pageRoundUp size.toNat = sizePages size * 4096 := rfl
      rw [hremoved.lookup_eq, haddr, hpages, Nat.add_mul]

/-! ## Exit -/

/-- `NX_MmuUnmapPage` of the range of a node. -/
theorem unmapNode (platform : Platform) (h : SpaceInv zone root s m.mmu) {node : Vmnode}
    (hnode : node ∈ s.nodes) :
    ∃ m', (mmuMachine zone platform root).unmapPage m node.start (node.stop - node.start) =
        .ok (.eok, m') ∧
      SpaceInv zone root { s with nodes := listDel s.nodes node.id } m'.mmu ∧
      LeavesReleased zone root (pageOf s.spaceBase) m.mmu m'.mmu := by
  have hlt : node.start.toNat < node.stop.toNat := h.nodes.separated.nonempty node hnode
  have haligned : node.start.toNat % 4096 = 0 ∧ node.stop.toNat % 4096 = 0 :=
    h.aligned node hnode
  have hinside : s.spaceBase.toNat ≤ node.start.toNat ∧ node.stop.toNat ≤ sv39Top.toNat :=
    h.nodes.inside node hnode
  have hspace := h.layout.pageOf_base
  have htop : sv39Top.toNat = 2 ^ 27 * 4096 := rfl
  have hsub : (node.stop - node.start).toNat = node.stop.toNat - node.start.toNat :=
    BitVec.toNat_sub_of_le (BitVec.le_def.mpr (Nat.le_of_lt hlt))
  have hstart : node.start.toNat = pageOf node.start * 4096 :=
    (Nat.div_mul_cancel (Nat.dvd_of_mod_eq_zero haligned.1)).symm
  have hsize : node.stop.toNat = (pageOf node.start + sizePages (node.stop - node.start)) * 4096 := by
    rw [Nat.add_mul, ← hstart]
    unfold sizePages
    omega
  obtain ⟨τ, hrun, hcleared⟩ := h.user.halUnmapPage node.start
    (node.stop - node.start) h.layout.pageOf_base_pos (by omega) (by omega) (by
      intro k hk
      refine h.node_mapped hnode ?_ ?_
      · change node.start.toNat ≤ _
        omega
      · change _ < node.stop.toNat
        omega)
  refine ⟨{ m with mmu := τ }, ?_, ?_, ?_⟩
  · unfold mmuMachine
    dsimp only
    rw [hrun, exec_ok_bind]
    rfl
  · refine h.of_rangeCleared (h.nodes.listDel node.id) ?_ ?_ hcleared
    · intro n hn
      exact h.aligned n (mem_listDel.mp hn).1
    · intro x
      rw [h.nodes.listDel_lookup hnode, ← hstart, ← hsize]
      rfl
  · exact hcleared.released h.user (by omega) (by omega)

/-- `NX_VmspaceExit` unmaps all nodes. -/
theorem exitNodes (platform : Platform) {nodes : List Vmnode} (h : SpaceInv zone root s m.mmu)
    (hnodes : s.nodes = nodes) :
    ∃ m', exitNodes (mmuMachine zone platform root) nodes s m =
        .ok ({ s with nodes := [] }, m') ∧
      SpaceInv zone root { s with nodes := [] } m'.mmu ∧
      LeavesReleased zone root (pageOf s.spaceBase) m.mmu m'.mmu := by
  induction nodes generalizing s m with
  | nil =>
      have hs : { s with nodes := [] } = s := by
        rw [← hnodes]
      refine ⟨m, ?_, ?_, LeavesReleased.refl ..⟩
      · rw [Mm.exitNodes, hs]
      · rw [hs]
        exact h
  | cons node rest ih =>
      have hmem : node ∈ s.nodes := by
        rw [hnodes]
        exact List.mem_cons_self ..
      obtain ⟨m₁, hrun, hinv, hreleased⟩ := h.unmapNode platform hmem
      have hlinked := h.nodes.linked
      rw [hnodes, List.map_cons, List.nodup_cons] at hlinked
      have hrest : listDel s.nodes node.id = rest := by
        rw [hnodes]
        unfold listDel
        rw [List.filter_cons, if_neg (by simp)]
        refine List.filter_eq_self.mpr fun n hn => ?_
        refine decide_eq_true fun heq => hlinked.1 ?_
        exact heq ▸ List.mem_map_of_mem hn
      rw [hrest] at hinv
      obtain ⟨m', hexit, hinv', hreleased'⟩ := ih hinv rfl
      refine ⟨m', ?_, hinv', hreleased.trans hreleased'⟩
      rw [Mm.exitNodes, hrun, exec_ok_bind]
      dsimp only
      rw [nxAssert_pos rfl, exec_ok_bind, vmspaceRemoveNode,
        if_pos (List.mem_map_of_mem hmem), hrest]
      exact hexit

/-- `NX_VmspaceExit` returns and leaves no page of the user part mapped. -/
theorem vmspaceExit (platform : Platform) (h : SpaceInv zone root s m.mmu) :
    ∃ m', vmspaceExit (mmuMachine zone platform root) s m =
        .ok (.eok, { s with nodes := [] }, m') ∧
      SpaceInv zone root { s with nodes := [] } m'.mmu ∧
      LeavesReleased zone root (pageOf s.spaceBase) m.mmu m'.mmu := by
  obtain ⟨m', hrun, hinv, hreleased⟩ := h.exitNodes platform rfl
  refine ⟨m', ?_, hinv, hreleased⟩
  unfold Mm.vmspaceExit
  rw [hrun, exec_ok_bind]
  dsimp only
  have hfree : processFreePageTable { s with nodes := [] } = .eok := if_pos h.layout.table
  rw [nxAssert_pos hfree, exec_ok_bind]
  rfl

end SpaceInv

end Nxos.Riscv64
