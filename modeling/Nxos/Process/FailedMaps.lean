import Nxos.Process.PhysicalMaps

/-!
# Mappings that fail

A call of `NX_VmspaceMapWithPhy` can fail at any page of the range.  The node is taken
back and the pages are unmapped, so that the node list and the translations are what they
were.  The references are not: the reference that was taken to the first page stays when no
page was mapped, and the pages behind the first lose one each when they were mapped.
-/

namespace Nxos.Process

open Nxos.Mm Nxos.Riscv64 Nxos.Transition

variable {zone : ℕ → Bool} {platform : Platform} {root : ℕ} {s : Vmspace} {m : SpaceMem}
variable {vaddr paddr size attr start : BitVec 64} {flags : BitVec 32}

/-- What a failed call must not change: the nodes, the translation of every address, and the
references of the physical pages. -/
structure MapUndone (zone : ℕ → Bool) (platform : Platform) (root : ℕ) (s s' : Vmspace)
    (σ τ : MmuState) (page n : ℕ) : Prop where
  nodes : s'.nodes = s.nodes
  translation : ∀ va, halVir2Phy zone platform root τ va = halVir2Phy zone platform root σ va
  references : ∀ j < n, τ.reference (page + j) = σ.reference (page + j)

/-- A request that comes to the page table and cannot be mapped there as a whole: the first
page can be mapped, and no other page can be mapped to a page with references.  Pages outside
the zone have none that count. -/
def FailsClean (zone : ℕ → Bool) (root : ℕ) (s : Vmspace) (m : SpaceMem)
    (vaddr paddr size attr : BitVec 64) (flags : BitVec 32) : Prop :=
  ∀ start, MapPlaced s vaddr size attr start → m.nodeMem.head? = some true →
    flags &&& vmspaceDelayMap = 0 → pageOf paddr ≠ 0 →
    ¬CanMap root m.mmu (pageOf start) (sizePages size) →
    (zone (pageOf paddr) = true → CanMap root m.mmu (pageOf start) 1) ∧
    ∀ j, 0 < j → CanMap root m.mmu (pageOf start) (j + 1) →
      zone (pageOf paddr + j) = true → m.mmu.reference (pageOf paddr + j) = 0

/-! ## Plain mappings -/

theorem halMapPage_undone (platform : Platform) {σ τ : MmuState} (h : TableInv zone root σ)
    (hs : FreshSupply zone root σ) {va size attr : BitVec 64} (hattr : AttrOk attr)
    (hva : 0 < pageOf va) (hend : pageOf va + sizePages size ≤ 2 ^ 27)
    {r : Option (BitVec 64)} (hrun : halMapPage zone platform root σ va size attr = .ok (r, τ))
    (hr : r ≠ some (pageAlignDown va)) :
    TableInv zone root τ ∧ τ.mapped = σ.mapped ∧
      ∀ q, q ∉ σ.supply → ¬σ.IsTable root q → τ.reference q = σ.reference q := by
  obtain ⟨k, hk, υ, g, hgrows, hmapped, hleaves, hcases⟩ := h.halMapPage platform hs va size hattr
    hva hend
  rw [hrun] at hcases
  by_cases hkn : k = sizePages size
  · rw [if_pos hkn] at hcases
    cases hcases
    exact absurd rfl hr
  rw [if_neg hkn] at hcases
  obtain ⟨τ', hunmap, hresult⟩ := exec_bind_eq_ok_iff.mp hcases.symm
  cases hresult
  have hinside : ∀ j < k, υ.mapped (pageOf va + j) = some (g j) := by
    intro j hj
    rw [hmapped]
    exact setRange_inside _ _ _ hj
  have hold : ∀ j < k, ∃ page, υ.mapped (pageOf (pageAlignDown va) + j) = some page ∧
      ¬υ.IsTable root page := by
    intro j hj
    rw [pageOf_pageAlignDown]
    exact ⟨g j, hinside j hj, hleaves.table hj⟩
  rcases unmapPages_outcome hgrows.inv (by rw [pageOf_pageAlignDown]; omega) hold with
    ⟨⟨j, hj, hzero⟩, -⟩ | ⟨ω, hrun', hclears, hcleared⟩
  · rw [pageOf_pageAlignDown, hinside j hj] at hzero
    have hpage := Option.some.inj hzero
    exact absurd hpage (hs.fresh _ (hleaves.supply hj)).1
  · rw [hunmap] at hrun'
    cases hrun'
    rw [pageOf_pageAlignDown] at hcleared hclears
    refine ⟨hclears.inv, ?_, ?_⟩
    · rw [hcleared, hmapped]
      exact setRange_cancel (fun _ hj => hleaves.free hj) _
    · intro q hsupply htable
      have hkept := hgrows.reference_eq hsupply htable
      have htable' := hgrows.not_isTable hsupply htable
      cases hzone : zone q with
      | false => rw [hclears.outside hzone, hkept]
      | true =>
          have hcount : (rangeTargets υ.mapped (pageOf va) k).count q = 0 := by
            refine List.count_eq_zero_of_not_mem fun hmem => ?_
            rw [rangeTargets_some hinside] at hmem
            obtain ⟨j, hj, rfl⟩ := List.mem_map.mp hmem
            exact hsupply (hleaves.supply (List.mem_range.mp hj))
          rw [hclears.released htable' hzone, hcount, hkept, Nat.sub_zero]

theorem mapPage_undone (h : SpaceTree zone root s m.mmu) (hs : FreshSupply zone root m.mmu)
    (hp : Placement s size start) (hattr : AttrOk attr) {m₁ m' : SpaceMem} (hm₁ : m₁.mmu = m.mmu)
    (hmap : Mm.mapPages (mmuMachine zone platform root) m₁ start 0 (pageAlignUp size) attr =
      .ok (0, m')) :
    TableInv zone root m'.mmu ∧ m'.mmu.mapped = m.mmu.mapped ∧
      ∀ q, q ∉ m.mmu.supply → ¬m.mmu.IsTable root q →
        m'.mmu.reference q = m.mmu.reference q := by
  unfold Mm.mapPages mmuMachine at hmap
  rw [if_neg (not_not.mpr rfl)] at hmap
  dsimp only at hmap
  obtain ⟨⟨addr, τ⟩, hrun, hresult⟩ := exec_bind_eq_ok_iff.mp hmap
  rw [hm₁] at hrun
  obtain ⟨haddr, rfl⟩ := Prod.mk.inj (Except.ok.inj hresult)
  refine halMapPage_undone platform h.tree hs hattr
    (Nat.lt_of_lt_of_le h.layout.pageOf_base_pos hp.base) (by rw [hp.pages_eq]; exact hp.below)
    hrun ?_
  rintro rfl
  exact hp.start_ne h.layout (hp.alignDown.symm.trans haddr)

/-! ## Physical mappings -/

/-- A physical range must not begin in page zero. -/
theorem mapPages_first {m₁ : SpaceMem} (hpaddr : paddr ≠ 0) (hzero : pageOf paddr = 0) :
    Mm.mapPages (mmuMachine zone platform root) m₁ start paddr size attr =
      .error .assertion := by
  have hdown : ¬pageAlignDown paddr ≠ 0 := by
    rw [not_not]
    apply BitVec.eq_of_toNat_eq
    rw [pageAlignDown_toNat]
    exact (congrArg (· * 4096) hzero).trans (Nat.zero_mul _)
  unfold Mm.mapPages mmuMachine
  rw [if_pos hpaddr]
  dsimp only
  rw [nxAssert_neg hdown]
  rfl

theorem head_of_memAlloc {m₁ : SpaceMem}
    (h : (mmuMachine zone platform root).memAlloc m = (true, m₁)) :
    m.nodeMem.head? = some true := by
  unfold mmuMachine at h
  dsimp only at h
  cases hmem : m.nodeMem with
  | nil =>
      rw [hmem] at h
      cases h
  | cons ok rest =>
      rw [hmem] at h
      rw [List.head?_cons, (Prod.mk.inj h).1]

/-- The page table behind a request that was placed and cannot be mapped as a whole. -/
theorem mapPages_undone (platform : Platform) (h : SpaceTree zone root s m.mmu)
    (hs : FreshSupply zone root m.mmu) (hp : Placement s size start) (hattr : AttrOk attr)
    (hpages : PagesApart root m.mmu (pageOf paddr) (sizePages size)) (hne : pageOf paddr ≠ 0)
    {m₁ : SpaceMem} (hm₁ : m₁.mmu = m.mmu)
    (hcannot : ¬CanMap root m.mmu (pageOf start) (sizePages size)) :
    ∃ k < sizePages size, CanMap root m.mmu (pageOf start) k ∧
      ¬CanMap root m.mmu (pageOf start) (k + 1) ∧
      ∃ υ, Mm.mapPages (mmuMachine zone platform root) m₁ start paddr (pageAlignUp size) attr =
          .ok (0, { m₁ with mmu := υ }) ∧
        TableInv zone root υ ∧ υ.mapped = m.mmu.mapped ∧
        ∀ j < sizePages size, υ.reference (pageOf paddr + j) =
          m.mmu.reference (pageOf paddr + j) +
            (if j = 0 ∧ zone (pageOf paddr + j) = true then 1 else 0) -
            if j < k ∧ zone (pageOf paddr + j) = true then 1 else 0 := by
  obtain ⟨k, hk, τ, hlent, hstop, hrun⟩ := mapPages_lent platform h hs hp hattr hpages hne hm₁
  have hbelow := hp.below
  have hkn : k ≠ sizePages size := by
    rintro rfl
    exact hcannot hlent.can
  have hlt : k < sizePages size := by omega
  obtain ⟨υ, hunmap, hinv, hmapped, hrefs⟩ := hlent.giveUp hpages hk hne (by omega)
  refine ⟨k, hlt, hlent.can, hstop hlt, υ, ?_, hinv, hmapped, ?_⟩
  · rw [hrun, if_neg hkn, hunmap, exec_ok_bind]
  · intro j hj
    rw [hrefs j hj, hlent.reference hpages hj]

section Runs

/-- Map `size` bytes at the end of an area that one table of the last level serves. -/
def mapAcross (vaddr size : BitVec 64) :
    Exec (Except NxError (BitVec 64) × Vmspace × SpaceMem) :=
  vmspaceMapWithPhy (mmuMachine qemuZone .other 0x80000) userSpace ⟨lentMmu, [true]⟩ vaddr
    0x80010000 size pageAttrUser 0

def failedWith : Exec (Except NxError (BitVec 64) × Vmspace × SpaceMem) →
    Option (NxError × List ℕ)
  | .ok (.error err, _, m) => some (err, (List.range 3).map fun j => m.mmu.reference (0x80010 + j))
  | _ => none

theorem eq_ok_of_failedWith {r : Exec (Except NxError (BitVec 64) × Vmspace × SpaceMem)}
    {err : NxError} {refs : List ℕ} (h : failedWith r = some (err, refs)) :
    ∃ s' m', r = .ok (.error err, s', m') ∧
      (List.range 3).map (fun j => m'.mmu.reference (0x80010 + j)) = refs := by
  unfold failedWith at h
  split at h
  · cases h
    exact ⟨_, _, rfl, rfl⟩
  · cases h

theorem mapAcross_failsClean :
    FailsClean qemuZone 0x80000 userSpace ⟨lentMmu, [true]⟩ 0x3001FF000 0x80010000 0x2000
      pageAttrUser 0 := by
  intro start hplaced _ _ _ _
  obtain ⟨addr, haddr, rfl⟩ := hplaced.address
  have hstart : mapAddress userSpace 0x3001FF000 0x2000 pageAttrUser = .ok 0x3001FF000 := by
    decide
  rw [hstart] at haddr
  cases haddr
  have hsecond : ¬CanMap 0x80000 lentMmu (pageOf (pageAlignDown 0x3001FF000)) 2 := by
    decide +kernel
  refine ⟨fun _ => by decide +kernel, fun j hj hcan => ?_⟩
  exact absurd (hcan.of_le (by omega)) hsecond

end Runs

end Nxos.Process
