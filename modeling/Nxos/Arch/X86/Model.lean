import Mathlib.Logic.Function.Basic
import Nxos.Base.Kernel

/-!
# The page directory of x86

The embedding of mapping and unmapping in `arch/x86/port/mmu.c`, with
`NX_KVADDR_OFFSET = 0`.  Physical pages are named by their number; a page with the
directory or with a table has 1024 words of 32 bits.  What `NX_PageAlloc` returns is
given from outside, as a list of pages that are handed out in order.

The state also records with which attributes each virtual page was mapped; a page
without `PTE_P` is not mapped.  No function reads the record.
-/

namespace Nxos.X86

/-! ## Entries -/

/-- `PTE_P`. -/
def pteP : BitVec 32 := 0x001#32

/-- `PTE_W`. -/
def pteW : BitVec 32 := 0x002#32

/-- `PTE_U`. -/
def pteU : BitVec 32 := 0x004#32

/-- `NX_PAGE_MASK`. -/
def pageMask : BitVec 32 := 0xFFF#32

/-- `PTE_USED`. -/
def pteUsed (pte : BitVec 32) : Bool :=
  pte &&& pteP ≠ 0

/-- `PTE2PADDR`. -/
def pte2Paddr (pte : BitVec 32) : BitVec 32 :=
  pte &&& ~~~pageMask

/-- `PADDR2PTE`. -/
def paddr2Pte (pa : BitVec 32) : BitVec 32 :=
  pa &&& ~~~pageMask

/-- The number of the page at an address. -/
def pageOf (addr : BitVec 32) : ℕ :=
  addr.toNat / 4096

def pageAddr (page : ℕ) : BitVec 32 :=
  BitVec.ofNat 32 (page * 4096)

/-- `__PAGE_PARTBIT` with ten bits. -/
def partBit (value : BitVec 32) (startBit : ℕ) : Fin 1024 :=
  ⟨((value >>> startBit) &&& 0x3FF#32).toNat, by
    rw [BitVec.toNat_and]
    exact Nat.lt_of_le_of_lt Nat.and_le_right (by decide)⟩

/-- `GET_PDE_OFF`. -/
def getPdeOff (va : BitVec 32) : Fin 1024 :=
  partBit va 22

/-- `GET_PTE_OFF`. -/
def getPteOff (va : BitVec 32) : Fin 1024 :=
  partBit va 12

/-! ## Memory and pages -/

/-- A virtual page: its entry in the directory, and the one in the table. -/
abbrev VirPage := Fin 1024 × Fin 1024

def virPage (va : BitVec 32) : VirPage :=
  (getPdeOff va, getPteOff va)

/-- The machine as the page table code sees it. -/
structure MmuState where
  mem : ℕ → Fin 1024 → BitVec 32
  reference : ℕ → ℕ
  supply : List ℕ
  mapped : VirPage → Option (BitVec 32)

structure PtePtr where
  table : ℕ
  idx : Fin 1024
  deriving DecidableEq

def MmuState.read (σ : MmuState) (pte : PtePtr) : BitVec 32 :=
  σ.mem pte.table pte.idx

def MmuState.write (σ : MmuState) (pte : PtePtr) (x : BitVec 32) : MmuState :=
  { σ with
    mem := Function.update σ.mem pte.table (Function.update (σ.mem pte.table) pte.idx x) }

/-- `NX_MemZero` of a page. -/
def MmuState.zero (σ : MmuState) (page : ℕ) : MmuState :=
  { σ with mem := Function.update σ.mem page fun _ => 0 }

section Operations

-- `zone` says which pages belong to the zone of the allocator, and `root` is the page
-- of `mmu->table`
variable (zone : ℕ → Bool) (root : ℕ)

/-- `NX_PageAlloc(1)`. -/
def pageAlloc (σ : MmuState) : Option ℕ × MmuState :=
  match σ.supply with
  | [] => (none, σ)
  | page :: rest =>
      (some page, { σ with
        supply := rest
        reference := Function.update σ.reference page 1 })

/-- `NX_PageIncrease`.  Its result is not used. -/
def pageIncrease (σ : MmuState) (page : ℕ) : MmuState :=
  if zone page then
    { σ with reference := Function.update σ.reference page (σ.reference page + 1) }
  else σ

/-- `NX_PageFree`.  A page without references is a free one here; the allocator stops in
an assertion when such a page lies within a larger block. -/
def pageFree (σ : MmuState) (page : ℕ) : Exec (NxError × MmuState) := do
  nxAssert (page ≠ 0)
  if !zone page then return (.einval, σ)
  else if σ.reference page = 0 then return (.efault, σ)
  else
    let σ := { σ with reference := Function.update σ.reference page (σ.reference page - 1) }
    if 0 < σ.reference page then return (.eagain, σ)
    else return (.eok, σ)

/-- `PageWalk`. -/
def pageWalk (σ : MmuState) (va : BitVec 32) (allocPage : Bool) (attr : BitVec 32) :
    Exec (Option PtePtr × MmuState) := do
  nxAssert (root ≠ 0)
  let pte : PtePtr := ⟨root, getPdeOff va⟩
  if pteUsed (σ.read pte) then
    let table := pageOf (pte2Paddr (σ.read pte))
    nxAssert (table ≠ 0)
    return (some ⟨table, getPteOff va⟩, σ)
  else if !allocPage then return (none, σ)
  else
    match pageAlloc σ with
    | (none, σ) => return (none, σ)
    | (some table, σ) =>
        let σ := σ.zero table
        let σ := pageIncrease zone σ root
        return (some ⟨table, getPteOff va⟩,
          σ.write pte (paddr2Pte (pageAddr table) ||| attr))

/-- `PageWalkPTE`: the entries of the table and of the directory. -/
def pageWalkPte (σ : MmuState) (va : BitVec 32) : Option (PtePtr × PtePtr) :=
  let pde : PtePtr := ⟨root, getPdeOff va⟩
  if pteUsed (σ.read pde) then
    some (⟨pageOf (pte2Paddr (σ.read pde)), getPteOff va⟩, pde)
  else none

/-- `IsVirAddrMapped`. -/
def isVirAddrMapped (σ : MmuState) (va : BitVec 32) : Exec (Bool × MmuState) := do
  match ← pageWalk zone root σ va false 0 with
  | (none, σ) => return (false, σ)
  | (some pte, σ) => return (pteUsed (σ.read pte), σ)

/-- `MapOnePage`. -/
def mapOnePage (σ : MmuState) (va pa attr : BitVec 32) : Exec (NxError × MmuState) := do
  let (isMapped, σ) ← isVirAddrMapped zone root σ va
  if isMapped then return (.einval, σ)
  else
    match ← pageWalk zone root σ va true attr with
    | (none, σ) => return (.efault, σ)
    | (some pte, σ) =>
        if pteUsed (σ.read pte) then .error .panic
        else
          let σ := pageIncrease zone σ pte.table
          let σ := σ.write pte (paddr2Pte pa ||| attr)
          return (.eok, { σ with
            mapped := Function.update σ.mapped (virPage va)
              (if pteUsed attr then some attr else none) })

/-- `UnmapOnePage`. -/
def unmapOnePage (σ : MmuState) (va : BitVec 32) : Exec MmuState := do
  match pageWalkPte root σ va with
  | none => .error .assertion
  | some (pte, pde) =>
      nxAssert (pteUsed (σ.read pte))
      let phyPage := pte2Paddr (σ.read pte)
      nxAssert (phyPage ≠ 0)
      let (_, σ) ← pageFree zone σ (pageOf phyPage)
      let σ := σ.write pte 0
      let σ := { σ with mapped := Function.update σ.mapped (virPage va) none }
      let (err, σ) ← pageFree zone σ pte.table
      if err = .eok then
        nxAssert (pteUsed (σ.read pde))
        nxAssert (pageAddr pte.table = pte2Paddr (σ.read pde))
        return σ.write pde 0
      else return σ

/-- `__UnmapPage`. -/
def unmapPages (va : BitVec 32) : ℕ → MmuState → Exec MmuState
  | 0, σ => .ok σ
  | pages + 1, σ => do
      let σ ← unmapOnePage zone root σ va
      unmapPages (va + 4096) pages σ

/-- The loop of `__MapPage`.  `mappedPages` pages from `start` on are mapped already; they
are unmapped again after a failure. -/
def mapPages (start attr : BitVec 32) (mappedPages : ℕ) (va : BitVec 32) :
    ℕ → MmuState → Exec (Option (BitVec 32) × MmuState)
  | 0, σ => .ok (some start, σ)
  | pages + 1, σ =>
      match pageAlloc σ with
      | (none, σ) => do
          let σ ← unmapPages zone root start mappedPages σ
          return (none, σ)
      | (some page, σ) => do
          match ← mapOnePage zone root σ va (pageAddr page) attr with
          | (.eok, σ) => mapPages start attr (mappedPages + 1) (va + 4096) pages σ
          | (_, σ) =>
              let (_, σ) ← pageFree zone σ page
              let σ ← unmapPages zone root start mappedPages σ
              return (none, σ)

/-- The number of pages that the range functions compute from an aligned address and
size. -/
def rangePages (va size : BitVec 32) : BitVec 32 :=
  ((va + size - 1) >>> 12) - (va >>> 12) + 1

/-- `NX_PAGE_ALIGNUP`. -/
def pageAlignUp (value : BitVec 32) : BitVec 32 :=
  (value + pageMask) &&& ~~~pageMask

/-- `NX_HalMapPage`.  The number of pages is signed there. -/
def halMapPage (σ : MmuState) (va size attr : BitVec 32) :
    Exec (Option (BitVec 32) × MmuState) :=
  if attr = 0 then .ok (none, σ)
  else
    let va := va &&& ~~~pageMask
    let size := pageAlignUp size
    mapPages zone root va attr 0 va (rangePages va size).toInt.toNat σ

/-- `NX_HalUnmapPage`. -/
def halUnmapPage (σ : MmuState) (va size : BitVec 32) : Exec (NxError × MmuState) := do
  let va := va &&& ~~~pageMask
  let size := pageAlignUp size
  let σ ← unmapPages zone root va (rangePages va size).toNat σ
  return (.eok, σ)

end Operations

end Nxos.X86
