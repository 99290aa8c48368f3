import Mathlib.Logic.Function.Basic
import Nxos.Base.Kernel
import Nxos.Base.Page

/-!
# The sv39 page table

The embedding of `arch/riscv64/port/mmu.c`, with `NX_KVADDR_OFFSET = 0`.  Physical
pages are named by their number.  A page that holds a table has 512 words, and a
pointer to an entry is the page of the table with an index.

Pages have the reference counts that the buddy allocator keeps for them.  What
`NX_PageAlloc` returns is given from outside, as a list of pages that are handed out
in order; at the end of the list there is no memory.

The state also records which physical page each virtual page was mapped to.  No
function reads the record.
-/

namespace Nxos.Riscv64

/-! ## Entries -/

/-- The platforms that differ in `NX_PAGE_ATTR_EXT`. -/
inductive Platform where
  | d1
  | hifiveUnmached
  | other
  deriving DecidableEq, Repr

/-- `PTE_V`. -/
def pteV : BitVec 64 := 0x001#64

/-- `NX_PAGE_ATTR_RWX`. -/
def pageAttrRwx : BitVec 64 := 0x00E#64

/-- `NX_PAGE_ATTR_EXT`. -/
def pageAttrExt : Platform → BitVec 64
  | .d1 => 0x70000000000000C0#64
  | .hifiveUnmached => 0xC0#64
  | .other => 0

/-- `PTE_USED`. -/
def pteUsed (pte : BitVec 64) : Bool :=
  pte &&& pteV ≠ 0

/-- `PAGE_IS_LEAF`. -/
def pageIsLeaf (pte : BitVec 64) : Bool :=
  pte &&& pageAttrRwx ≠ 0

/-- `PTE2PADDR`. -/
def pte2Paddr (pte : BitVec 64) : BitVec 64 :=
  ((pte >>> 10) &&& 0xFFFFFFF#64) <<< 12

/-- `PADDR2PTE`. -/
def paddr2Pte (pa : BitVec 64) : BitVec 64 :=
  (pa >>> 12) <<< 10

/-- The number of the page at an address. -/
def pageOf (addr : BitVec 64) : ℕ :=
  addr.toNat / 4096

def pageAddr (page : ℕ) : BitVec 64 :=
  BitVec.ofNat 64 (page * 4096)

/-- `GET_LEVEL_OFF`. -/
def getLevelOff (level : ℕ) (va : BitVec 64) : Fin 512 :=
  ⟨((va >>> (12 + 9 * level)) &&& 0x1FF#64).toNat, by
    rw [BitVec.toNat_and]
    exact Nat.lt_of_le_of_lt Nat.and_le_right (by decide)⟩

/-! ## Memory and pages -/

/-- The machine as the page table code sees it. -/
structure MmuState where
  mem : ℕ → Fin 512 → BitVec 64
  reference : ℕ → ℕ
  supply : List ℕ
  mapped : ℕ → Option ℕ

/-- A pointer to an entry: `&pageTable[idx]`. -/
structure PtePtr where
  table : ℕ
  idx : Fin 512
  deriving DecidableEq

def MmuState.read (σ : MmuState) (pte : PtePtr) : BitVec 64 :=
  σ.mem pte.table pte.idx

def MmuState.write (σ : MmuState) (pte : PtePtr) (x : BitVec 64) : MmuState :=
  { σ with
    mem := Function.update σ.mem pte.table (Function.update (σ.mem pte.table) pte.idx x) }

/-- `NX_MemZero` of a page. -/
def MmuState.zero (σ : MmuState) (page : ℕ) : MmuState :=
  { σ with mem := Function.update σ.mem page fun _ => 0 }

section Operations

-- `zone` says which pages belong to the zone of the allocator, `platform` selects
-- `NX_PAGE_ATTR_EXT`, and `root` is the page of `mmu->table`
variable (zone : ℕ → Bool) (platform : Platform) (root : ℕ)

/-- `NX_PageAlloc(1)`. -/
def pageAlloc (σ : MmuState) : Option ℕ × MmuState :=
  match σ.supply with
  | [] => (none, σ)
  | page :: rest =>
      (some page, { σ with
        supply := rest
        reference := Function.update σ.reference page 1 })

/-- `NX_PageIncrease`.  Its result is not used. -/
def pageIncrease (σ : MmuState) (page : ℕ) : MmuState :=
  if zone page then
    { σ with reference := Function.update σ.reference page (σ.reference page + 1) }
  else σ

/-- `NX_PageFree`.  A page without references is a free one here; the allocator stops in
an assertion when such a page lies within a larger block. -/
def pageFree (σ : MmuState) (page : ℕ) : Exec (NxError × MmuState) := do
  nxAssert (page ≠ 0)
  if !zone page then return (.einval, σ)
  else if σ.reference page = 0 then return (.efault, σ)
  else
    let σ := { σ with reference := Function.update σ.reference page (σ.reference page - 1) }
    if 0 < σ.reference page then return (.eagain, σ)
    else return (.eok, σ)

/-- One round of `PageWalk`: the table behind the entry `idx` of a table. -/
def walkLevel (σ : MmuState) (table : ℕ) (idx : Fin 512) (allocPage : Bool) :
    Exec (Option ℕ × MmuState) :=
  let pte : PtePtr := ⟨table, idx⟩
  if pteUsed (σ.read pte) then do
    let next := pageOf (pte2Paddr (σ.read pte))
    nxAssert (next ≠ 0)
    return (some next, σ)
  else if !allocPage then .ok (none, σ)
  else
    match pageAlloc σ with
    | (none, σ) => .ok (none, σ)
    | (some next, σ) => do
        let σ := σ.zero next
        nxAssert (next ≠ 0)
        let σ := pageIncrease zone σ table
        return (some next,
          σ.write pte (paddr2Pte (pageAddr next) ||| pteV ||| pageAttrExt platform))

/-- The loop of `PageWalk`. -/
def pageWalkLoop (va : BitVec 64) (allocPage : Bool) :
    ℕ → ℕ → MmuState → Exec (Option PtePtr × MmuState)
  | 0, table, σ => .ok (some ⟨table, getLevelOff 0 va⟩, σ)
  | level + 1, table, σ => do
      match ← walkLevel zone platform σ table (getLevelOff (level + 1) va) allocPage with
      | (none, σ) => return (none, σ)
      | (some next, σ) => pageWalkLoop va allocPage level next σ

/-- `PageWalk`. -/
def pageWalk (σ : MmuState) (va : BitVec 64) (allocPage : Bool) :
    Exec (Option PtePtr × MmuState) := do
  nxAssert (root ≠ 0)
  pageWalkLoop zone platform va allocPage 2 root σ

/-- `PageWalkPTE`: the entries of the levels 2, 1 and 0, if the tables are there. -/
def pageWalkPte (σ : MmuState) (va : BitVec 64) : Option (PtePtr × PtePtr × PtePtr) :=
  let pte2 : PtePtr := ⟨root, getLevelOff 2 va⟩
  if !pteUsed (σ.read pte2) then none
  else
    let pte1 : PtePtr := ⟨pageOf (pte2Paddr (σ.read pte2)), getLevelOff 1 va⟩
    if !pteUsed (σ.read pte1) then none
    else some (pte2, pte1, ⟨pageOf (pte2Paddr (σ.read pte1)), getLevelOff 0 va⟩)

/-- `IsVirAddrMapped`. -/
def isVirAddrMapped (σ : MmuState) (va : BitVec 64) : Exec (Bool × MmuState) := do
  match ← pageWalk zone platform root σ va false with
  | (none, σ) => return (false, σ)
  | (some pte, σ) => return (pteUsed (σ.read pte), σ)

/-- `MapOnePage`. -/
def mapOnePage (σ : MmuState) (va pa attr : BitVec 64) : Exec (NxError × MmuState) := do
  let (isMapped, σ) ← isVirAddrMapped zone platform root σ va
  if isMapped then return (.einval, σ)
  else
    match ← pageWalk zone platform root σ va true with
    | (none, σ) => return (.efault, σ)
    | (some pte, σ) =>
        if pteUsed (σ.read pte) then .error .panic
        else
          let σ := pageIncrease zone σ pte.table
          let σ := σ.write pte (paddr2Pte pa ||| attr ||| pageAttrExt platform)
          return (.eok, { σ with
            mapped := Function.update σ.mapped (pageOf va) (some (pageOf pa)) })

/-- The checks that `UnmapOnePage` makes before it clears an entry of a higher level. -/
def checkedClear (σ : MmuState) (pte : PtePtr) (levelPageTable : ℕ) : Exec MmuState := do
  nxAssert (pteUsed (σ.read pte))
  nxAssert (¬pageIsLeaf (σ.read pte))
  nxAssert (pageAddr levelPageTable = pte2Paddr (σ.read pte))
  return σ.write pte 0

/-- `UnmapOnePage`. -/
def unmapOnePage (σ : MmuState) (va : BitVec 64) : Exec MmuState := do
  match pageWalkPte root σ va with
  | none => .error .assertion
  | some (pte2, pte1, pte0) =>
      nxAssert (pteUsed (σ.read pte0))
      nxAssert (pageIsLeaf (σ.read pte0))
      let phyPage := pte2Paddr (σ.read pte0)
      nxAssert (phyPage ≠ 0)
      let (_, σ) ← pageFree zone σ (pageOf phyPage)
      let σ := σ.write pte0 0
      let σ := { σ with mapped := Function.update σ.mapped (pageOf va) none }
      let (err, σ) ← pageFree zone σ pte0.table
      if err = .eok then
        let σ ← checkedClear σ pte1 pte0.table
        let (err, σ) ← pageFree zone σ pte1.table
        if err = .eok then checkedClear σ pte2 pte1.table
        else return σ
      else return σ

/-- `__UnmapPage`. -/
def unmapPages (va : BitVec 64) : ℕ → MmuState → Exec MmuState
  | 0, σ => .ok σ
  | pages + 1, σ => do
      let σ ← unmapOnePage zone root σ va
      unmapPages (va + 4096) pages σ

/-- The loop of `__MapPageWithPhy`.  `mappedPages` pages from `start` on are mapped
already; they are unmapped again after a failure. -/
def mapPagesWithPhy (start attr : BitVec 64) (mappedPages : ℕ) (va pa : BitVec 64) :
    ℕ → MmuState → Exec (Option (BitVec 64) × MmuState)
  | 0, σ => .ok (some start, σ)
  | pages + 1, σ => do
      match ← mapOnePage zone platform root σ va pa attr with
      | (.eok, σ) =>
          mapPagesWithPhy start attr (mappedPages + 1) (va + 4096) (pa + 4096) pages σ
      | (_, σ) =>
          let σ ← unmapPages zone root start mappedPages σ
          return (none, σ)

/-- The loop of `__MapPage`. -/
def mapPages (start attr : BitVec 64) (mappedPages : ℕ) (va : BitVec 64) :
    ℕ → MmuState → Exec (Option (BitVec 64) × MmuState)
  | 0, σ => .ok (some start, σ)
  | pages + 1, σ =>
      match pageAlloc σ with
      | (none, σ) => do
          let σ ← unmapPages zone root start mappedPages σ
          return (none, σ)
      | (some page, σ) => do
          match ← mapOnePage zone platform root σ va (pageAddr page) attr with
          | (.eok, σ) => mapPages start attr (mappedPages + 1) (va + 4096) pages σ
          | (_, σ) =>
              let (_, σ) ← pageFree zone σ page
              let σ ← unmapPages zone root start mappedPages σ
              return (none, σ)

/-- The number of pages that the range functions compute from an aligned address and
size. -/
def rangePages (va size : BitVec 64) : BitVec 64 :=
  ((va + size - 1) >>> 12) - (va >>> 12) + 1

/-- `NX_HalMapPage`.  The number of pages is signed there. -/
def halMapPage (σ : MmuState) (va size attr : BitVec 64) :
    Exec (Option (BitVec 64) × MmuState) :=
  if attr = 0 then .ok (none, σ)
  else
    let va := pageAlignDown va
    let size := pageAlignUp size
    mapPages zone platform root va attr 0 va (rangePages va size).toInt.toNat σ

/-- `NX_HalMapPageWithPhy`. -/
def halMapPageWithPhy (σ : MmuState) (va pa size attr : BitVec 64) :
    Exec (Option (BitVec 64) × MmuState) :=
  if attr = 0 then .ok (none, σ)
  else
    let va := pageAlignDown va
    let pa := pageAlignDown pa
    let size := pageAlignUp size
    mapPagesWithPhy zone platform root va attr 0 va pa (rangePages va size).toInt.toNat σ

/-- `NX_HalUnmapPage`. -/
def halUnmapPage (σ : MmuState) (va size : BitVec 64) : Exec (NxError × MmuState) := do
  let va := pageAlignDown va
  let size := pageAlignUp size
  let σ ← unmapPages zone root va (rangePages va size).toNat σ
  return (.eok, σ)

/-- `NX_HalVir2Phy`. -/
def halVir2Phy (σ : MmuState) (va : BitVec 64) : Exec (BitVec 64) := do
  match ← pageWalk zone platform root σ va false with
  | (none, _) => .error .panic
  | (some pte, σ) =>
      if !pteUsed (σ.read pte) then .error .panic
      else return pte2Paddr (σ.read pte) + va % 4096

end Operations

end Nxos.Riscv64
