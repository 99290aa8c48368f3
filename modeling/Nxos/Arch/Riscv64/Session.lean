import Nxos.Arch.Riscv64.Ranges
import Nxos.Support.Transition

/-!
# Runs of the page table operations

A run starts with an empty page table and maps and unmaps ranges.  After every run
`NX_HalVir2Phy` gives the page that an address was mapped to, and every operation
leaves the translation of the addresses outside its range alone.
-/

namespace Nxos.Riscv64

open Nxos.Radix Nxos.Transition

variable {zone : ℕ → Bool} {platform : Platform} {root : ℕ} {σ τ : MmuState}

/-! ## The number of pages -/

/-- The number of pages that a size takes. -/
def sizePages (size : BitVec 64) : ℕ :=
  (size.toNat + 4095) / 4096

theorem pageOf_pageAlignDown (va : BitVec 64) : pageOf (pageAlignDown va) = pageOf va := by
  unfold pageOf
  rw [pageAlignDown_toNat]
  omega

/-- The range functions go over the pages of the range.  A range without pages at page
zero is the one exception: there they count the pages of all addresses. -/
theorem rangePages_toNat {va size : BitVec 64} (hrange : pageOf va + sizePages size ≤ 2 ^ 52)
    (hempty : sizePages size = 0 → pageOf va ≠ 0) :
    (rangePages (pageAlignDown va) (pageAlignUp size)).toNat = sizePages size := by
  have hva := pageAlignDown_toNat va
  have hsize := pageAlignUp_toNat size
  have hlt := size.isLt
  unfold pageOf sizePages at *
  unfold rangePages
  rw [BitVec.toNat_add, BitVec.toNat_sub, BitVec.toNat_ushiftRight, BitVec.toNat_ushiftRight,
    BitVec.toNat_sub, BitVec.toNat_add, Nat.shiftRight_eq_div_pow, Nat.shiftRight_eq_div_pow, hva,
    hsize]
  simp only [BitVec.ofNat_eq_ofNat, BitVec.toNat_ofNat]
  omega

theorem rangePages_toInt {va size : BitVec 64} (hrange : pageOf va + sizePages size ≤ 2 ^ 52)
    (hempty : sizePages size = 0 → pageOf va ≠ 0) :
    (rangePages (pageAlignDown va) (pageAlignUp size)).toInt.toNat = sizePages size := by
  have hnat := rangePages_toNat hrange hempty
  rw [BitVec.toInt_eq_toNat_of_lt (by omega), Int.toNat_natCast, hnat]

/-! ## Operations -/

/-- The operations, each with the pages that `NX_PageAlloc` hands out during it. -/
inductive MmuOp where
  | mapPage (va size attr : BitVec 64) (supply : List ℕ)
  | mapPageWithPhy (va pa size attr : BitVec 64) (supply : List ℕ)
  | unmapPage (va size : BitVec 64)

def mapResult : Exec (Option (BitVec 64) × MmuState) → Option MmuState
  | .ok (some _, τ) => some τ
  | _ => none

/-- A mapping loop succeeded only if it went over all pages. -/
theorem mapResult_eq_some {k n : ℕ} {start : BitVec 64} {υ : MmuState} {undo : Exec MmuState}
    (h : mapResult (if k = n then .ok (some start, υ)
      else undo >>= fun ω => .ok (none, ω)) = some τ) : k = n ∧ υ = τ := by
  by_cases hkn : k = n
  · rw [if_pos hkn] at h
    exact ⟨hkn, Option.some.inj h⟩
  · rw [if_neg hkn] at h
    cases undo <;> cases h

def mmuStep (zone : ℕ → Bool) (platform : Platform) (root : ℕ) (σ : MmuState) :
    MmuOp → Option MmuState
  | .mapPage va size attr supply =>
      mapResult (halMapPage zone platform root { σ with supply } va size attr)
  | .mapPageWithPhy va pa size attr supply =>
      mapResult (halMapPageWithPhy zone platform root { σ with supply } va pa size attr)
  | .unmapPage va size =>
      match halUnmapPage zone root σ va size with
      | .ok (.eok, τ) => some τ
      | _ => none

def MmuOp.first : MmuOp → ℕ
  | .mapPage va _ _ _ => pageOf va
  | .mapPageWithPhy va _ _ _ _ => pageOf va
  | .unmapPage va _ => pageOf va

def MmuOp.pages : MmuOp → ℕ
  | .mapPage _ size _ _ => sizePages size
  | .mapPageWithPhy _ _ size _ _ => sizePages size
  | .unmapPage _ size => sizePages size

/-- The page lies in the range of the operation. -/
def MmuOp.Covers (op : MmuOp) (page : ℕ) : Prop :=
  op.first ≤ page ∧ page < op.first + op.pages

/-- What is assumed of `NX_PageAlloc`: fresh pages below `2^40`, in use neither as a
table nor as a mapped page. -/
structure SupplyOk (zone : ℕ → Bool) (root : ℕ) (σ : MmuState) (supply : List ℕ) : Prop where
  nodup : supply.Nodup
  fresh : ∀ p ∈ supply, p ≠ 0 ∧ p < 2 ^ 28 ∧ zone p = true ∧ ¬σ.IsTable root p ∧
    ∀ v, σ.mapped v ≠ some p

def MmuOp.ArgsOk (zone : ℕ → Bool) (root : ℕ) (σ : MmuState) : MmuOp → Prop
  | .mapPage va size attr supply => AttrOk attr ∧ SupplyOk zone root σ supply ∧
      ∀ k < sizePages size, σ.mapped (pageOf va + k) = none
  | .mapPageWithPhy va _ size attr supply => AttrOk attr ∧ SupplyOk zone root σ supply ∧
      ∀ k < sizePages size, σ.mapped (pageOf va + k) = none
  | .unmapPage va size => ∀ k < sizePages size, (σ.mapped (pageOf va + k)).isSome = true

/-- The operation maps an unmapped range, or unmaps a mapped range, of addresses below
`2^39`. -/
structure MmuOp.Legal (zone : ℕ → Bool) (root : ℕ) (σ : MmuState) (op : MmuOp) : Prop where
  below : op.first + op.pages ≤ 2 ^ 27
  empty : op.pages = 0 → op.first ≠ 0
  args : op.ArgsOk zone root σ

/-- Physical pages fit an entry, and pages in use as tables are not given up through a
mapping of them. -/
def MmuOp.Proper (root : ℕ) (σ : MmuState) : MmuOp → Prop
  | .mapPage _ _ _ _ => True
  | .mapPageWithPhy _ pa size _ _ => pageOf pa + sizePages size ≤ 2 ^ 28
  | .unmapPage va size =>
      ∀ k < sizePages size, ∀ page, σ.mapped (pageOf va + k) = some page → ¬σ.IsTable root page

/-- What an operation does to the record. -/
def MmuOp.Records (σ τ : MmuState) : MmuOp → Prop
  | .mapPage va size _ supply => ∃ g : ℕ → ℕ, (∀ k < sizePages size, g k ∈ supply) ∧
      τ.mapped = setRange σ.mapped (pageOf va) (sizePages size) fun k => some (g k)
  | .mapPageWithPhy va pa size _ _ =>
      τ.mapped = setRange σ.mapped (pageOf va) (sizePages size) fun k => some (pageOf pa + k)
  | .unmapPage va size =>
      τ.mapped = setRange σ.mapped (pageOf va) (sizePages size) fun _ => none

theorem MmuOp.Records.outside {op : MmuOp} (h : op.Records σ τ) {page : ℕ}
    (hpage : ¬op.Covers page) : τ.mapped page = σ.mapped page := by
  cases op with
  | mapPage va size attr supply =>
      obtain ⟨g, -, hmapped⟩ := h
      rw [hmapped]
      exact setRange_outside _ _ hpage
  | mapPageWithPhy va pa size attr supply =>
      rw [show τ.mapped = _ from h]
      exact setRange_outside _ _ hpage
  | unmapPage va size =>
      rw [show τ.mapped = _ from h]
      exact setRange_outside _ _ hpage

/-! ## One operation -/

theorem TableInv.with_supply (h : TableInv zone root σ) (supply : List ℕ) :
    TableInv zone root { σ with supply } :=
  h.of_reference rfl rfl fun _ _ => Nat.le_refl _

theorem SupplyOk.freshSupply {supply : List ℕ} (h : SupplyOk zone root σ supply) :
    FreshSupply zone root { σ with supply } where
  nodup := h.nodup
  fresh p hp := by
    obtain ⟨hne, hlt, hzone, htable, -⟩ := h.fresh p hp
    exact ⟨hne, hlt, hzone, htable⟩

/-- A successful operation keeps the tables in order and does to the record what it
is called for. -/
theorem mmuStep_sound (h : TableInv zone root σ) {op : MmuOp} (hlegal : op.Legal zone root σ)
    (hproper : op.Proper root σ) (hstep : mmuStep zone platform root σ op = some τ) :
    TableInv zone root τ ∧ op.Records σ τ := by
  obtain ⟨hbelow, hempty, hargs⟩ := hlegal
  cases op with
  | mapPage va size attr supply =>
      obtain ⟨hattr, hsupply, -⟩ := hargs
      have hne : attr ≠ 0 := by
        rintro rfl
        exact hattr.valid rfl
      obtain ⟨k, hk, υ, g, hgrows, hmapped, hpages, hrun⟩ := mapPages_outcome platform
        (h.with_supply supply) hsupply.freshSupply (pageAlignDown va) (pageAlignDown va) 0
        (n := sizePages size) (by rw [pageOf_pageAlignDown]; exact hbelow) hattr
      simp only [mmuStep, halMapPage] at hstep
      rw [if_neg hne, rangePages_toInt (hbelow.trans (by decide)) hempty, hrun] at hstep
      obtain ⟨rfl, rfl⟩ := mapResult_eq_some hstep
      rw [pageOf_pageAlignDown] at hmapped
      exact ⟨hgrows.inv, g, fun j hj => hpages.supply hj, hmapped⟩
  | mapPageWithPhy va pa size attr supply =>
      obtain ⟨hattr, hsupply, -⟩ := hargs
      have hne : attr ≠ 0 := by
        rintro rfl
        exact hattr.valid rfl
      have haligned := pageAlignDown_aligned pa
      obtain ⟨k, hk, υ, hgrows, hmapped, -, -, hrun⟩ := mapPagesWithPhy_outcome platform
        (h.with_supply supply) hsupply.freshSupply (pageAlignDown va) (pageAlignDown va) (pageAlignDown pa) 0
        (n := sizePages size) (by rw [pageOf_pageAlignDown]; exact hbelow)
        (by rw [pageOf_pageAlignDown]; exact hproper) haligned hattr
      simp only [mmuStep, halMapPageWithPhy] at hstep
      rw [if_neg hne, rangePages_toInt (hbelow.trans (by decide)) hempty, hrun] at hstep
      obtain ⟨rfl, rfl⟩ := mapResult_eq_some hstep
      rw [pageOf_pageAlignDown, pageOf_pageAlignDown] at hmapped
      exact ⟨hgrows.inv, hmapped⟩
  | unmapPage va size =>
      have hold : ∀ k < sizePages size, ∃ page,
          σ.mapped (pageOf (pageAlignDown va) + k) = some page ∧ ¬σ.IsTable root page := by
        intro k hk
        obtain ⟨page, hpage⟩ := Option.isSome_iff_exists.mp (hargs k hk)
        rw [pageOf_pageAlignDown]
        exact ⟨page, hpage, hproper k hk page hpage⟩
      simp only [mmuStep, halUnmapPage] at hstep
      rw [rangePages_toNat (hbelow.trans (by decide)) hempty] at hstep
      rcases unmapPages_outcome h (by rw [pageOf_pageAlignDown]; exact hbelow) hold with
        ⟨-, hrun⟩ | ⟨υ, hrun, hclears, hmapped⟩
      · rw [hrun] at hstep
        cases hstep
      · rw [hrun] at hstep
        cases hstep
        rw [pageOf_pageAlignDown] at hmapped
        exact ⟨hclears.inv, hmapped⟩

/-! ## Runs -/

/-- Nothing is mapped, and the table of the root is zero. -/
structure EmptyTable (root : ℕ) (σ : MmuState) : Prop where
  mem : ∀ i, σ.mem root i = 0
  mapped : ∀ page, σ.mapped page = none

theorem EmptyTable.follow_eq_none (h : EmptyTable root σ) {p : List (Fin 512)} (hp : p ≠ []) :
    follow (nextPage σ.mem) root p = none := by
  cases p with
  | nil => exact absurd rfl hp
  | cons i p =>
      have hnone : nextPage σ.mem root i = none := by
        apply entryPage_of_unused
        rw [h.mem i]
        exact pteUsed_zero
      rw [follow, hnone]
      rfl

theorem EmptyTable.isTable (h : EmptyTable root σ) {t : ℕ} (ht : σ.IsTable root t) : t = root := by
  obtain ⟨p, -, hp⟩ := ht
  by_cases hne : p = []
  · rw [hne] at hp
    exact (Option.some.inj hp).symm
  · rw [h.follow_eq_none hne] at hp
    cases hp

theorem EmptyTable.tableInv (h : EmptyTable root σ) (hroot : root ≠ 0) :
    TableInv zone root σ where
  root_ne := hroot
  distinct := by
    intro p q t _ _ hp hq
    by_cases hpne : p = [] <;> by_cases hqne : q = []
    · rw [hpne, hqne]
    · rw [h.follow_eq_none hqne] at hq
      cases hq
    · rw [h.follow_eq_none hpne] at hp
      cases hp
    · rw [h.follow_eq_none hpne] at hp
      cases hp
  tables := by
    intro p t hne _ hp
    rw [h.follow_eq_none hne] at hp
    cases hp
  leaves := by
    intro p t i hlen hp
    rw [h.follow_eq_none (by rintro rfl; cases hlen)] at hp
    cases hp
  record := by
    intro va _
    rw [h.mapped, h.follow_eq_none (p := path va) (List.cons_ne_nil _ _)]

def MmuMove (zone : ℕ → Bool) (platform : Platform) (root : ℕ) (σ : MmuState) (op : MmuOp)
    (τ : MmuState) : Prop :=
  op.Legal zone root σ ∧ mmuStep zone platform root σ op = some τ

/-- One operation of a run that keeps to the bounds of the entries and does not give
up tables. -/
def ProperMove (zone : ℕ → Bool) (platform : Platform) (root : ℕ) (σ : MmuState) (op : MmuOp)
    (τ : MmuState) : Prop :=
  MmuMove zone platform root σ op τ ∧ op.Proper root σ

/-- What `NX_HalVir2Phy` says about an address when the record is right. -/
def translation (σ : MmuState) (va : BitVec 64) : Exec (BitVec 64) :=
  match σ.mapped (pageOf va) with
  | some page => .ok (pageAddr page + va % 4096)
  | none => .error .panic

/-- In every state of a run `NX_HalVir2Phy` gives the page that an address was mapped
to, and an operation changes the translations in its range only. -/
theorem mmuReachable_translates {start : MmuState} (hroot : root ≠ 0)
    (hstart : EmptyTable root start)
    (hreach : Reachable (ProperMove zone platform root) start σ) :
    (∀ va : BitVec 64, va.toNat < 2 ^ 39 →
      halVir2Phy zone platform root σ va = translation σ va) ∧
    ∀ op τ, ProperMove zone platform root σ op τ → op.Records σ τ ∧
      ∀ va : BitVec 64, va.toNat < 2 ^ 39 → ¬op.Covers (pageOf va) →
        halVir2Phy zone platform root τ va = halVir2Phy zone platform root σ va := by
  have hinv : TableInv zone root σ := by
    refine hreach.invariant (hstart.tableInv hroot) ?_
    rintro s op t hs ⟨⟨hlegal, hstep⟩, hproper⟩
    exact (mmuStep_sound hs hlegal hproper hstep).1
  refine ⟨fun va hva => halVir2Phy_eq hinv hva, ?_⟩
  rintro op τ ⟨⟨hlegal, hstep⟩, hproper⟩
  obtain ⟨hinvτ, hrecords⟩ := mmuStep_sound hinv hlegal hproper hstep
  refine ⟨hrecords, fun va hva hout => ?_⟩
  rw [halVir2Phy_eq hinvτ hva, halVir2Phy_eq hinv hva, hrecords.outside hout]

section Runs

/-- An empty page table at `0x80000000`. -/
def emptyMmu : MmuState where
  mem _ _ := 0
  reference _ := 0
  supply := []
  mapped _ := none

theorem emptyMmu_emptyTable : EmptyTable 0x80000 emptyMmu where
  mem _ := rfl
  mapped _ := rfl

def qemuZone (page : ℕ) : Bool :=
  0x80000 ≤ page

def mapImage : MmuOp :=
  .mapPage 0x100000000 4096 0x1F [0x80001, 0x80002, 0x80003]

theorem attrOk_user : AttrOk 0x1F where
  low := by decide
  valid := by decide
  leaf := by decide

theorem mapImage_legal : mapImage.Legal qemuZone 0x80000 emptyMmu where
  below := by decide
  empty := nofun
  args := by
    refine ⟨attrOk_user, ⟨by decide, ?_⟩, fun _ _ => rfl⟩
    intro p hp
    have hbounds : ∀ p ∈ [0x80001, 0x80002, 0x80003],
        p ≠ 0 ∧ p < 2 ^ 28 ∧ qemuZone p = true ∧ p ≠ 0x80000 := by
      decide
    obtain ⟨hne, hlt, hzone, hroot⟩ := hbounds p hp
    exact ⟨hne, hlt, hzone, fun ht => hroot (emptyMmu_emptyTable.isTable ht), nofun⟩

def stateAfter (ops : List MmuOp) : MmuState :=
  (perform (mmuStep qemuZone .other 0x80000) emptyMmu ops).getD emptyMmu

theorem stateAfter_concat (ops : List MmuOp) {op : MmuOp}
    (h : (perform (mmuStep qemuZone .other 0x80000) emptyMmu (ops ++ [op])).isSome = true) :
    mmuStep qemuZone .other 0x80000 (stateAfter ops) op = some (stateAfter (ops ++ [op])) := by
  obtain ⟨τ, hτ⟩ := Option.isSome_iff_exists.mp h
  have hstep := hτ
  rw [perform_concat] at hstep
  obtain ⟨σ, hσ, hop⟩ := Option.bind_eq_some_iff.mp hstep
  unfold stateAfter
  rw [hσ, hτ]
  exact hop

/-- Map the next page to the device at the address `0x10000000`. -/
def mapDevice : MmuOp :=
  .mapPageWithPhy 0x100001000 0x10000000 4096 0x1F []

theorem legal_mapPageWithPhy {σ : MmuState} {pa : BitVec 64} (h : σ.mapped 0x100001 = none) :
    (MmuOp.mapPageWithPhy 0x100001000 pa 4096 0x1F []).Legal qemuZone 0x80000 σ where
  below := show pageOf 0x100001000 + sizePages 4096 ≤ 2 ^ 27 by decide
  empty := nofun
  args := by
    refine ⟨attrOk_user, ⟨List.nodup_nil, nofun⟩, ?_⟩
    intro k hk
    have hzero : k = 0 := Nat.lt_one_iff.mp hk
    rw [hzero]
    exact h

theorem mapImage_move :
    MmuMove qemuZone .other 0x80000 emptyMmu mapImage (stateAfter [mapImage]) :=
  ⟨mapImage_legal, stateAfter_concat [] (by decide +kernel)⟩

theorem mmuReachable_translates_image :
    halVir2Phy qemuZone .other 0x80000 (stateAfter [mapImage]) 0x100000123 =
      .ok 0x80001123 ∧
    halVir2Phy qemuZone .other 0x80000 (stateAfter [mapImage, mapDevice]) 0x100000123 =
      halVir2Phy qemuZone .other 0x80000 (stateAfter [mapImage]) 0x100000123 := by
  obtain ⟨htranslates, hframe⟩ := mmuReachable_translates (by decide) emptyMmu_emptyTable
    (Reachable.tail .refl ⟨mapImage_move, trivial⟩)
  have hdevice : ProperMove qemuZone .other 0x80000 (stateAfter [mapImage]) mapDevice
      (stateAfter [mapImage, mapDevice]) :=
    ⟨⟨legal_mapPageWithPhy (by decide +kernel),
      stateAfter_concat [mapImage] (by decide +kernel)⟩,
      show pageOf 0x10000000 + sizePages 4096 ≤ 2 ^ 28 by decide⟩
  refine ⟨(htranslates _ (by decide)).trans (by decide +kernel), ?_⟩
  exact (hframe mapDevice _ hdevice).2 _ (by decide) (by unfold MmuOp.Covers; decide)

def mapTable : MmuOp :=
  .mapPageWithPhy 0x100001000 0x80003000 4096 0x1F []

def unmapNext : MmuOp :=
  .unmapPage 0x100001000 4096

theorem legal_unmapNext {σ : MmuState} (h : (σ.mapped 0x100001).isSome = true) :
    unmapNext.Legal qemuZone 0x80000 σ where
  below := by decide
  empty := nofun
  args := by
    intro k hk
    have hzero : k = 0 := Nat.lt_one_iff.mp hk
    rw [hzero]
    exact h

/-- A page beyond `2^40` does not fit an entry.  A page in use as a table loses a
reference each time a mapping of it is unmapped; the table is freed under the mappings
that need it. -/
theorem mmuReachable_lost :
    (∃ σ, Reachable (MmuMove qemuZone .other 0x80000) emptyMmu σ ∧
      σ.mapped 0x100001 = some (2 ^ 28) ∧
      halVir2Phy qemuZone .other 0x80000 σ 0x100001000 = .ok 0) ∧
    ∃ σ τ, Reachable (MmuMove qemuZone .other 0x80000) emptyMmu σ ∧
      MmuMove qemuZone .other 0x80000 σ unmapNext τ ∧ ¬unmapNext.Covers 0x100000 ∧
      halVir2Phy qemuZone .other 0x80000 σ 0x100000123 = .ok 0x80001123 ∧
      halVir2Phy qemuZone .other 0x80000 τ 0x100000123 = .error .panic := by
  have himage : Reachable (MmuMove qemuZone .other 0x80000) emptyMmu (stateAfter [mapImage]) :=
    .tail .refl mapImage_move
  constructor
  · refine ⟨stateAfter [mapImage, .mapPageWithPhy 0x100001000 0x10000000000 4096 0x1F []],
      himage.tail ⟨legal_mapPageWithPhy (by decide +kernel),
        stateAfter_concat [mapImage] (by decide +kernel)⟩, ?_, ?_⟩
    · decide +kernel
    · decide +kernel
  · have hmapped : Reachable (MmuMove qemuZone .other 0x80000) emptyMmu
        (stateAfter [mapImage, mapTable]) :=
      himage.tail ⟨legal_mapPageWithPhy (by decide +kernel),
        stateAfter_concat [mapImage] (by decide +kernel)⟩
    have hunmapped : Reachable (MmuMove qemuZone .other 0x80000) emptyMmu
        (stateAfter [mapImage, mapTable, unmapNext]) :=
      hmapped.tail ⟨legal_unmapNext (by decide +kernel),
        stateAfter_concat [mapImage, mapTable] (by decide +kernel)⟩
    have hagain : Reachable (MmuMove qemuZone .other 0x80000) emptyMmu
        (stateAfter [mapImage, mapTable, unmapNext, mapTable]) :=
      hunmapped.tail ⟨legal_mapPageWithPhy (by decide +kernel),
        stateAfter_concat [mapImage, mapTable, unmapNext] (by decide +kernel)⟩
    refine ⟨_, stateAfter [mapImage, mapTable, unmapNext, mapTable, unmapNext], hagain,
      ⟨legal_unmapNext (by decide +kernel), stateAfter_concat [mapImage, mapTable, unmapNext, mapTable] (by decide +kernel)⟩, ?_, ?_, ?_⟩
    · unfold MmuOp.Covers
      decide
    · decide +kernel
    · decide +kernel

end Runs

end Nxos.Riscv64
