import Nxos.Process.Memory

/-!
# Pages of a process after its exit

A space takes pages from the allocator in two ways: `PageWalk` takes tables, and
`NX_HalMapPage` takes leaves.  Here a run of successful maps and unmaps keeps a ledger of
both.  When the space is taken down all leaves go back.  A table starts with one
reference that stands for no entry, so that none of them ever goes back.
-/

namespace Nxos.Process

open Nxos.Mm Nxos.Riscv64 Nxos.Radix Nxos.Transition

variable {zone : ℕ → Bool} {platform : Platform} {root : ℕ}

/-! ## Runs with a ledger -/

inductive SpaceCall where
  | map (vaddr size attr : BitVec 64) (flags : BitVec 32)
  | mapWithPhy (vaddr paddr size attr : BitVec 64) (flags : BitVec 32)
  | unmap (addr size : BitVec 64)

structure SpaceEvent where
  call : SpaceCall
  supply : List ℕ
  nodeMem : List Bool

/-- A process with the pages that its space has taken as tables and as leaves, each at the
last time it was taken, and with the number of its maps. -/
structure Tenant where
  space : Vmspace
  mmu : MmuState
  tables : List ℕ
  leaves : List ℕ
  maps : ℕ

/-- The machine at the beginning of a call. -/
def Tenant.mem (p : Tenant) (e : SpaceEvent) : SpaceMem :=
  ⟨{ p.mmu with supply := e.supply }, e.nodeMem⟩

/-- Enter a map.  The pages that left the supply and are not among the new leaves were
taken by `PageWalk`. -/
def Tenant.enter (p : Tenant) (e : SpaceEvent) (s : Vmspace) (σ : MmuState)
    (newLeaves : List ℕ) : Tenant :=
  let taken := e.supply.filter fun q => q ∉ σ.supply
  { space := s
    mmu := σ
    tables := p.tables.filter (fun q => q ∉ taken) ++ taken.filter fun q => q ∉ newLeaves
    leaves := p.leaves.filter (fun q => q ∉ taken) ++ newLeaves
    maps := p.maps + 1 }

def spaceStep (zone : ℕ → Bool) (platform : Platform) (root : ℕ) (p : Tenant)
    (e : SpaceEvent) : Option Tenant :=
  match e.call with
  | .map vaddr size attr flags =>
      match vmspaceMap (mmuMachine zone platform root) p.space (p.mem e) vaddr size attr flags with
      | .ok (.ok a, s, m) =>
          some (p.enter e s m.mmu (rangeTargets m.mmu.mapped (pageOf a) (sizePages size)))
      | _ => none
  | .mapWithPhy vaddr paddr size attr flags =>
      match vmspaceMapWithPhy (mmuMachine zone platform root) p.space (p.mem e) vaddr paddr size
        attr flags with
      | .ok (.ok _, s, m) => some (p.enter e s m.mmu [])
      | _ => none
  | .unmap addr size =>
      match vmspaceUnmap (mmuMachine zone platform root) p.space (p.mem e) addr size with
      | .ok (.eok, s, m) => some { p with space := s, mmu := m.mmu }
      | _ => none

/-- What a call is given: a request that `mm/vmspace.c` handles as it should, and physical
pages that are in use by somebody else than the tables. -/
def SpaceCall.Sound (zone : ℕ → Bool) (root : ℕ) (s : Vmspace) (σ : MmuState) :
    SpaceCall → Prop
  | .map vaddr size attr flags => MapSound s vaddr size attr ∧ flags &&& vmspaceDelayMap = 0
  | .mapWithPhy vaddr paddr size attr flags =>
      MapSound s vaddr size attr ∧ flags &&& vmspaceDelayMap = 0 ∧ paddr ≠ 0 ∧
        PagesLent zone root (pageOf s.spaceBase) (pageIncrease zone σ (pageOf paddr))
          (pageOf paddr) (sizePages size)
  | .unmap addr size => UnmapFits s addr size

structure SpaceMove (zone : ℕ → Bool) (platform : Platform) (root : ℕ) (p : Tenant)
    (e : SpaceEvent) (q : Tenant) : Prop where
  supply : FreeSupply zone root (p.mem e).mmu
  sound : e.call.Sound zone root p.space (p.mem e).mmu
  step : spaceStep zone platform root p e = some q

/-- A process whose space is new: there are no nodes, and the root has no entries for the
user part. -/
structure NewTenant (zone : ℕ → Bool) (root : ℕ) (p : Tenant) : Prop where
  space : SpaceInv zone root p.space p.mmu
  nodes : p.space.nodes = []
  root_free : ∀ va : BitVec 64, pageOf p.space.spaceBase ≤ pageOf va → pageOf va < 2 ^ 27 →
    follow (nextPage p.mmu.mem) root [getLevelOff 2 va] = none
  tables : p.tables = []
  leaves : p.leaves = []
  maps : p.maps = 0

/-! ## The invariant -/

/-- The ledger is right about the leaves, and after the first map there is a table. -/
structure TenantInv (zone : ℕ → Bool) (root : ℕ) (p : Tenant) : Prop where
  space : SpaceInv zone root p.space p.mmu
  leaves : ∀ {q}, q ∈ p.leaves → zone q = true ∧ ¬p.mmu.IsTable root q ∧
    p.mmu.reference q = userCount (pageOf p.space.spaceBase) p.mmu.mapped q
  unused : p.maps = 0 → p.space.nodes = [] ∧ p.tables = [] ∧
    ∀ va : BitVec 64, pageOf p.space.spaceBase ≤ pageOf va → pageOf va < 2 ^ 27 →
      follow (nextPage p.mmu.mem) root [getLevelOff 2 va] = none
  used : 0 < p.maps → ∃ q ∈ p.tables, p.mmu.IsTable root q ∧ q ≠ root

theorem NewTenant.tenantInv {p : Tenant} (h : NewTenant zone root p) : TenantInv zone root p where
  space := h.space
  leaves := by
    rw [h.leaves]
    exact nofun
  unused _ := ⟨h.nodes, h.tables, h.root_free⟩
  used hmaps := by
    rw [h.maps] at hmaps
    exact absurd hmaps (Nat.lt_irrefl 0)

theorem exists_newTable {σ τ : MmuState} {base first n : ℕ} {g : ℕ → ℕ} {va : BitVec 64}
    (h : RangeMapped zone root base σ τ first n g) (hn : 0 < n) (hva : pageOf va = first)
    (hlt : first < 2 ^ 27)
    (hnone : follow (nextPage σ.mem) root [getLevelOff 2 va] = none) :
    ∃ u ∈ σ.supply, u ∉ τ.supply ∧ τ.IsTable root u ∧ u ≠ root := by
  have hva39 : va.toNat < 2 ^ 39 := toNat_lt_of_pageOf (n := 27) (hva ▸ hlt)
  have hmapped : follow (nextPage τ.mem) root (path va) = some (g 0) := by
    rw [← h.inv.tree.record va hva39, hva, h.mapped]
    exact setRange_inside _ first _ hn
  obtain ⟨u, hu, -⟩ := Option.bind_eq_some_iff.mp hmapped
  have hu' : follow (nextPage τ.mem) root [getLevelOff 2 va] = some u := by
    rw [follow, hu]
    rfl
  have hlen : [getLevelOff 2 va].length < 3 := Nat.one_lt_succ_succ 1
  have htable : τ.IsTable root u := ⟨[getLevelOff 2 va], hlen, hu'⟩
  refine ⟨u, ?_, ?_, htable, ?_⟩
  · rcases h.grows.newTables htable with ⟨p, hp, hpu⟩ | hsupply
    · have hpath := h.inv.tree.distinct hp hlen (h.grows.paths hp hpu) hu'
      rw [hpath, hnone] at hpu
      cases hpu
    · exact hsupply
  · exact fun hmem => (h.grows.fresh.fresh u hmem).2.2.2 htable
  · rintro rfl
    cases h.inv.tree.distinct (p := []) (by decide) hlen rfl hu'

namespace TenantInv

variable {p : Tenant} {e : SpaceEvent}

theorem enter (h : TenantInv zone root p) (hs : FreeSupply zone root (p.mem e).mmu)
    {υ τ : MmuState} (hmem : υ.mem = p.mmu.mem) (hsupply : υ.supply = e.supply)
    (hmapped : υ.mapped = p.mmu.mapped) {s : Vmspace}
    (hbaseEq : s.spaceBase = p.space.spaceBase) (hspace : SpaceInv zone root s τ)
    {a size : BitVec 64} {g : ℕ → ℕ} (hplace : Placement p.space size a)
    (hrange : RangeMapped zone root (pageOf p.space.spaceBase) υ τ (pageOf a) (sizePages size) g)
    (newLeaves : List ℕ) (htable : ∀ q ∈ newLeaves, ¬τ.IsTable root q)
    (hold : ∀ q ∈ p.leaves, (q ∈ e.supply → q ∈ τ.supply) → υ.reference q =
      p.mmu.reference q + ((List.range (sizePages size)).map g).count q)
    (hnew : ∀ q ∈ newLeaves, zone q = true ∧
      τ.reference q = userCount (pageOf p.space.spaceBase) τ.mapped q) :
    TenantInv zone root (p.enter e s τ newLeaves) := by
  have hisTable : ∀ {q}, υ.IsTable root q ↔ p.mmu.IsTable root q := by
    intro q
    unfold MmuState.IsTable
    rw [hmem]
  have hpos := hplace.pos
  have hbelow := hplace.below
  constructor
  · exact hspace
  · intro q hq
    change zone q = true ∧ ¬τ.IsTable root q ∧
      τ.reference q = userCount (pageOf s.spaceBase) τ.mapped q
    rw [hbaseEq]
    rcases List.mem_append.mp hq with hq | hq
    · obtain ⟨hleaf, htaken⟩ := List.mem_filter.mp hq
      obtain ⟨hzone, hnotTable, href⟩ := h.leaves hleaf
      have hkept : q ∈ e.supply → q ∈ τ.supply := by
        intro hin
        by_contra hout
        exact of_decide_eq_true htaken (List.mem_filter.mpr ⟨hin, decide_eq_true hout⟩)
      rw [← hisTable] at hnotTable
      refine ⟨hzone, ?_, ?_⟩
      · intro ht
        rcases hrange.grows.newTables ht with hold | hin
        · exact hnotTable hold
        · rw [hsupply] at hin
          exact (hrange.grows.fresh.fresh q (hkept hin)).2.2.2 ht
      · have hsame : τ.reference q = υ.reference q := by
          by_cases hin : q ∈ υ.supply
          · exact hrange.grows.kept (hkept (hsupply ▸ hin))
          · exact hrange.grows.reference_eq hin hnotTable
        rw [hsame, hold q hleaf hkept, href, hrange.mapped,
          userCount_add hplace.base hbelow hrange.free, hmapped]
    · exact ⟨(hnew q hq).1, htable q hq, (hnew q hq).2⟩
  · intro hzero
    exact absurd hzero (Nat.succ_ne_zero _)
  · intro _
    by_cases hmaps : p.maps = 0
    · obtain ⟨-, -, hnone⟩ := h.unused hmaps
      obtain ⟨u, hu, huout, hutable, huroot⟩ := exists_newTable hrange hpos rfl (by omega) (by
        rw [hmem]
        exact hnone a hplace.base (by omega))
      rw [hsupply] at hu
      refine ⟨u, List.mem_append_right _ (List.mem_filter.mpr ⟨?_, ?_⟩), hutable, huroot⟩
      · exact List.mem_filter.mpr ⟨hu, decide_eq_true huout⟩
      · exact decide_eq_true fun hin => htable u hin hutable
    · obtain ⟨q, hq, hqtable, hqroot⟩ := h.used (Nat.pos_of_ne_zero hmaps)
      refine ⟨q, List.mem_append_left _ (List.mem_filter.mpr ⟨hq, decide_eq_true ?_⟩),
        hrange.grows.tables (hisTable.mpr hqtable), hqroot⟩
      intro htaken
      exact (hs.free (List.mem_filter.mp htaken).1).2.2.2.1 hqtable

theorem memSpace (h : TenantInv zone root p) (e : SpaceEvent) :
    SpaceInv zone root p.space (p.mem e).mmu :=
  h.space.of_mapped_eq ⟨h.space.user.tree.with_supply e.supply, h.space.user.leaves.leaf,
    h.space.user.leaves.refs⟩ rfl

theorem map (h : TenantInv zone root p) (hs : FreeSupply zone root (p.mem e).mmu)
    {vaddr size attr : BitVec 64} {flags : BitVec 32}
    (hsound : MapSound p.space vaddr size attr) (hflags : flags &&& vmspaceDelayMap = 0)
    {a : BitVec 64} {s : Vmspace} {m : SpaceMem}
    (hrun : vmspaceMap (mmuMachine zone platform root) p.space (p.mem e) vaddr size attr flags =
      .ok (.ok a, s, m)) :
    TenantInv zone root
      (p.enter e s m.mmu (rangeTargets m.mmu.mapped (pageOf a) (sizePages size))) := by
  rcases (h.memSpace e).vmspaceMap platform hs hflags hsound with
    ⟨err, m', hrun', -⟩ | ⟨a', nodes, m', g, hrun', hplace, hspace, hrange, hleaves⟩
  · rw [hrun] at hrun'
    cases hrun'
  · rw [hrun] at hrun'
    cases hrun'
    have htargets : rangeTargets m.mmu.mapped (pageOf a) (sizePages size) =
        (List.range (sizePages size)).map g := by
      refine rangeTargets_some fun k hk => ?_
      rw [hrange.mapped]
      exact setRange_inside _ _ _ hk
    have hdistinct : ((List.range (sizePages size)).map g).Nodup := by
      refine List.Nodup.map_on ?_ List.nodup_range
      intro i hi j hj heq
      exact hleaves.injective (List.mem_range.mp hi) (List.mem_range.mp hj) heq
    rw [htargets]
    refine h.enter hs (υ := (p.mem e).mmu) (s := { p.space with nodes }) rfl rfl rfl rfl hspace
      hplace hrange _ ?_ ?_ ?_
    · intro q hq
      obtain ⟨j, hj, rfl⟩ := List.mem_map.mp hq
      exact hleaves.table (List.mem_range.mp hj)
    · intro q _ hkept
      rw [List.count_eq_zero_of_not_mem]
      · rfl
      intro hq
      obtain ⟨j, hj, rfl⟩ := List.mem_map.mp hq
      have hj := List.mem_range.mp hj
      exact hleaves.taken hj (hkept (hleaves.supply hj))
    · intro q hq
      have hcount := List.count_eq_one_of_mem hdistinct hq
      obtain ⟨j, hj, rfl⟩ := List.mem_map.mp hq
      have hj := List.mem_range.mp hj
      refine ⟨(hs.free (hleaves.supply hj)).2.2.1, ?_⟩
      rw [hleaves.reference hj, hrange.mapped,
        userCount_add hplace.base hplace.below hrange.free, hcount,
        (h.memSpace e).user.leaves.count_supply hs (hleaves.supply hj)]

/-- A map to pages of somebody else.  A leaf of the process among them has to be the first,
for the others no reference is counted. -/
theorem mapWithPhy (h : TenantInv zone root p) (hs : FreeSupply zone root (p.mem e).mmu)
    {vaddr paddr size attr : BitVec 64} {flags : BitVec 32}
    (hsound : (SpaceCall.mapWithPhy vaddr paddr size attr flags).Sound zone root p.space
      (p.mem e).mmu)
    {a : BitVec 64} {s : Vmspace} {m : SpaceMem}
    (hrun : vmspaceMapWithPhy (mmuMachine zone platform root) p.space (p.mem e) vaddr paddr size
      attr flags = .ok (.ok a, s, m)) :
    TenantInv zone root (p.enter e s m.mmu []) := by
  obtain ⟨hmap, hflags, hpaddr, hlent⟩ := hsound
  obtain ⟨nodes, rfl, hplace, hspace, hrange⟩ :=
    (h.memSpace e).vmspaceMapWithPhy hs hflags hmap hpaddr hlent hrun
  have hold : ∀ q ∈ p.leaves, (q ∈ e.supply → q ∈ m.mmu.supply) →
      (pageIncrease zone (p.mem e).mmu (pageOf paddr)).reference q =
        p.mmu.reference q + ((List.range (sizePages size)).map (pageOf paddr + ·)).count q := by
    intro q hq _
    obtain ⟨hzone, -, href⟩ := h.leaves hq
    have hdistinct : ((List.range (sizePages size)).map (pageOf paddr + ·)).Nodup :=
      List.Nodup.map (fun i j heq => Nat.add_left_cancel heq) List.nodup_range
    by_cases hin : q ∈ (List.range (sizePages size)).map (pageOf paddr + ·)
    · rw [List.count_eq_one_of_mem hdistinct hin]
      obtain ⟨j, hj, rfl⟩ := List.mem_map.mp hin
      have hspare := hlent.refs (List.mem_range.mp hj) hzone
      rw [pageIncrease_mapped] at hspare
      cases j with
      | zero => exact pageIncrease_reference_self _ hzone
      | succ j =>
          rw [pageIncrease_reference_of_ne _ (by omega)] at hspare
          change userCount _ p.mmu.mapped _ + 1 ≤ p.mmu.reference _ at hspare
          omega
    · rw [List.count_eq_zero_of_not_mem hin]
      refine pageIncrease_reference_of_ne _ ?_
      rintro rfl
      exact hin (List.mem_map.mpr ⟨0, List.mem_range.mpr hplace.pos, rfl⟩)
  refine h.enter hs (υ := pageIncrease zone (p.mem e).mmu (pageOf paddr))
    (s := { p.space with nodes }) (pageIncrease_mem _ _) (pageIncrease_supply _ _)
    (pageIncrease_mapped _ _) rfl hspace hplace hrange [] ?_ ?_ ?_
  · exact nofun
  · exact hold
  · exact nofun

theorem unmap (h : TenantInv zone root p) {addr size : BitVec 64}
    (hfits : UnmapFits p.space addr size) {s : Vmspace} {m : SpaceMem}
    (hrun : vmspaceUnmap (mmuMachine zone platform root) p.space (p.mem e) addr size =
      .ok (.eok, s, m)) :
    TenantInv zone root { p with space := s, mmu := m.mmu } := by
  rcases (h.memSpace e).vmspaceUnmap platform hfits with
    ⟨err, m', herr, -, hrun'⟩ | ⟨nodes, m', hrun', hspace, hbase, hend, hcleared⟩
  · rw [hrun] at hrun'
    cases hrun'
    exact absurd rfl herr
  · rw [hrun] at hrun'
    cases hrun'
    have hreleased := hcleared.released (h.memSpace e).user hbase hend
    constructor
    · exact hspace
    · intro q hq
      obtain ⟨hzone, htable, href⟩ := h.leaves hq
      have hbalance := hreleased.balance htable hzone
      refine ⟨hzone, fun ht => htable (hreleased.tables.mp ht), ?_⟩
      change m.mmu.reference q = userCount (pageOf p.space.spaceBase) m.mmu.mapped q
      change m.mmu.reference q + userCount _ p.mmu.mapped q = p.mmu.reference q + _ at hbalance
      omega
    · intro hmaps
      -- there is no node that could have been unmapped
      obtain ⟨hnodes, -⟩ := h.unused hmaps
      unfold Mm.vmspaceUnmap at hrun
      rw [hnodes] at hrun
      split_ifs at hrun
      · cases hrun
      · cases hrun
    · intro hmaps
      obtain ⟨q, hq, htable, hroot⟩ := h.used hmaps
      exact ⟨q, hq, hreleased.tables.mpr htable, hroot⟩

theorem step {q : Tenant} (h : TenantInv zone root p)
    (hmove : SpaceMove zone platform root p e q) : TenantInv zone root q := by
  obtain ⟨hs, hsound, hstep⟩ := hmove
  unfold spaceStep at hstep
  cases hcall : e.call with
  | map vaddr size attr flags =>
      rw [hcall] at hstep hsound
      dsimp only at hstep
      split at hstep
      · next a s m hrun =>
          cases hstep
          exact h.map hs hsound.1 hsound.2 hrun
      · cases hstep
  | mapWithPhy vaddr paddr size attr flags =>
      rw [hcall] at hstep hsound
      dsimp only at hstep
      split at hstep
      · next a s m hrun =>
          cases hstep
          exact h.mapWithPhy hs hsound hrun
      · cases hstep
  | unmap addr size =>
      rw [hcall] at hstep hsound
      dsimp only at hstep
      split at hstep
      · next s m hrun =>
          cases hstep
          exact h.unmap hsound hrun
      · cases hstep

end TenantInv

/-! ## Exit -/

/-- `NX_VmspaceExit` at the end of a run. -/
def Tenant.exit (zone : ℕ → Bool) (platform : Platform) (root : ℕ) (p : Tenant) :
    Exec (NxError × Vmspace × SpaceMem) :=
  memExit zone platform root (p.space, p.mmu)

/-- After any successful maps and unmaps and the exit every leaf that the space has taken is
free.  The tables are free exactly when nothing was mapped. -/
theorem tenantReachable_returned_iff {start p : Tenant} (hstart : NewTenant zone root start)
    (hreach : Reachable (SpaceMove zone platform root) start p) :
    ∃ s m, p.exit zone platform root = .ok (.eok, s, m) ∧
      (∀ q ∈ p.leaves, m.mmu.reference q = 0) ∧
      ((∀ q ∈ p.tables, m.mmu.reference q = 0) ↔ p.maps = 0) := by
  have hinv : TenantInv zone root p :=
    hreach.invariant hstart.tenantInv fun hp hmove => hp.step hmove
  obtain ⟨m, hrun, hspace, hreleased⟩ :=
    SpaceInv.vmspaceExit platform (m := ⟨p.mmu, []⟩) hinv.space
  have hunmapped : ∀ q, userCount (pageOf p.space.spaceBase) m.mmu.mapped q = 0 := by
    intro q
    refine userCount_eq_zero fun v hv hlt hmapped => ?_
    have hnode := (hspace.pages hv hlt).mp (by rw [hmapped]; rfl)
    cases hnode
  refine ⟨_, m, hrun, ?_, ?_, ?_⟩
  · intro q hq
    obtain ⟨hzone, htable, href⟩ := hinv.leaves hq
    have hbalance := hreleased.balance htable hzone
    rw [hunmapped] at hbalance
    change _ + userCount _ p.mmu.mapped q = p.mmu.reference q + 0 at hbalance
    omega
  · intro hall
    by_contra hmaps
    obtain ⟨q, hq, htable, hroot⟩ := hinv.used (Nat.pos_of_ne_zero hmaps)
    obtain ⟨path, hlen, hpath⟩ := hreleased.tables.mpr htable
    have hne : path ≠ [] := by
      rintro rfl
      exact hroot (Option.some.inj hpath).symm
    have hrefs := (hspace.user.tree.tables hne hlen hpath).2.2
    rw [hall q hq] at hrefs
    omega
  · intro hmaps q hq
    rw [(hinv.unused hmaps).2.1] at hq
    cases hq

section Runs

def newTenant : Tenant :=
  ⟨userSpace, emptyMmu, [], [], 0⟩

theorem newTenant_new : NewTenant qemuZone 0x80000 newTenant where
  space := userSpace_spaceInv
  nodes := rfl
  root_free _ _ _ := emptyMmu_emptyTable.follow_eq_none (List.cons_ne_nil _ _)
  tables := rfl
  leaves := rfl
  maps := rfl

/-- Map one page, at the address `0x300000000`. -/
def mapOne : SpaceEvent :=
  ⟨.map 0 4096 0x3F 0, [0x80001, 0x80002, 0x80003], [true]⟩

def unmapOne : SpaceEvent :=
  ⟨.unmap 0x300000000 4096, [], []⟩

def tenantAfter (events : List SpaceEvent) : Tenant :=
  (perform (spaceStep qemuZone .other 0x80000) newTenant events).getD newTenant

theorem tenantAfter_concat (events : List SpaceEvent) {e : SpaceEvent}
    (h : (perform (spaceStep qemuZone .other 0x80000) newTenant (events ++ [e])).isSome = true) :
    spaceStep qemuZone .other 0x80000 (tenantAfter events) e =
      some (tenantAfter (events ++ [e])) := by
  obtain ⟨q, hq⟩ := Option.isSome_iff_exists.mp h
  have hstep := hq
  rw [perform_concat] at hstep
  obtain ⟨p, hp, he⟩ := Option.bind_eq_some_iff.mp hstep
  unfold tenantAfter
  rw [hp, hq]
  exact he

theorem tenantAfter_reachable :
    Reachable (SpaceMove qemuZone .other 0x80000) newTenant (tenantAfter [mapOne, unmapOne]) := by
  have hmap : SpaceMove qemuZone .other 0x80000 newTenant mapOne (tenantAfter [mapOne]) := by
    refine ⟨emptyMmu_freeSupply, ⟨?_, rfl⟩, tenantAfter_concat [] (by decide +kernel)⟩
    intro start hplaced
    obtain ⟨addr, haddr, rfl⟩ := hplaced.address
    have hstart : mapAddress userSpace 0 4096 0x3F = .ok 0x300000000 := by
      decide
    change mapAddress userSpace 0 4096 0x3F = .ok addr at haddr
    rw [hstart] at haddr
    cases haddr
    exact ⟨⟨by decide, by decide, by decide⟩, by decide⟩
  have hunmap : SpaceMove qemuZone .other 0x80000 (tenantAfter [mapOne]) unmapOne
      (tenantAfter [mapOne, unmapOne]) := by
    refine ⟨emptyMmu_noSupply, ?_, tenantAfter_concat [mapOne] (by decide +kernel)⟩
    intro _ _
    decide
  exact .tail (.tail .refl hmap) hunmap

theorem tenantReachable_returned_iff_mapOne :
    (tenantAfter [mapOne, unmapOne]).leaves = [0x80001] ∧
    ∃ s m, (tenantAfter [mapOne, unmapOne]).exit qemuZone .other 0x80000 = .ok (.eok, s, m) ∧
      m.mmu.reference 0x80001 = 0 ∧
      ¬∀ q ∈ (tenantAfter [mapOne, unmapOne]).tables, m.mmu.reference q = 0 := by
  have hleaves : (tenantAfter [mapOne, unmapOne]).leaves = [0x80001] := by
    decide +kernel
  obtain ⟨s, m, hrun, hfree, htables⟩ :=
    tenantReachable_returned_iff newTenant_new tenantAfter_reachable
  refine ⟨hleaves, s, m, hrun, hfree _ (by rw [hleaves]; exact List.mem_singleton_self _), ?_⟩
  rw [htables]
  decide +kernel

/-- The page is unmapped again, and the exit has nothing left to do.  The two tables that the
map has taken stay: each keeps the reference of its allocation, and the upper one that of its
entry for the lower. -/
theorem tenantReachable_leaks :
    ∃ p, Reachable (SpaceMove qemuZone .other 0x80000) newTenant p ∧ p.space.nodes = [] ∧
      p.tables = [0x80002, 0x80003] ∧
      ∃ s m, p.exit qemuZone .other 0x80000 = .ok (.eok, s, m) ∧
        m.mmu.reference 0x80002 = 2 ∧ m.mmu.reference 0x80003 = 1 := by
  have hnodes : (tenantAfter [mapOne, unmapOne]).space.nodes = [] := by
    decide +kernel
  have hexit : (tenantAfter [mapOne, unmapOne]).exit qemuZone .other 0x80000 =
      .ok (.eok, (tenantAfter [mapOne, unmapOne]).space,
        ⟨(tenantAfter [mapOne, unmapOne]).mmu, []⟩) := by
    unfold Tenant.exit memExit vmspaceExit
    dsimp only
    rw [hnodes, exitNodes, exec_ok_bind]
    dsimp only
    rw [nxAssert_pos (by decide +kernel), exec_ok_bind]
    rfl
  exact ⟨_, tenantAfter_reachable, hnodes, by decide +kernel, _, _, hexit, by decide +kernel,
    by decide +kernel⟩

end Runs

end Nxos.Process
