import Nxos.Base.Kernel
import Nxos.Base.Page
import Nxos.Support.Interval

/-!
# Virtual memory spaces

The embedding of `mm/vmspace.c`.  Addresses and sizes are 64-bit words and wrap
around as they do in the source.  A node of the space is a record with the
identity of its allocation; the linked list of nodes is a list of such records,
and a node is linked into the space exactly when the list holds its identity.

The page tables, the kernel heap and the page references lie behind the
interface of the machine.  They are an abstract state with the operations that
`mm/vmspace.c` calls, each of which may fail.
-/

namespace Nxos.Mm

/-! ## The machine behind a space -/

/-- What `mm/vmspace.c` calls.  A mapping operation returns an address, zero for
failure. -/
structure Machine (μ : Type) where
  /-- `NX_MemAlloc(sizeof(NX_Vmnode))`: whether there was memory. -/
  memAlloc : μ → Bool × μ
  /-- `NX_PageIncrease`.  Its result is not used; it asserts that the page is not null. -/
  pageIncrease : μ → BitVec 64 → Exec μ
  /-- `NX_MmuMapPage`: address, size, attributes. -/
  mapPage : μ → BitVec 64 → BitVec 64 → BitVec 64 → Exec (BitVec 64 × μ)
  /-- `NX_MmuMapPageWithPhy`: address, physical address, size, attributes. -/
  mapPageWithPhy : μ → BitVec 64 → BitVec 64 → BitVec 64 → BitVec 64 →
    Exec (BitVec 64 × μ)
  /-- `NX_MmuUnmapPage`: address, size. -/
  unmapPage : μ → BitVec 64 → BitVec 64 → Exec (NxError × μ)

/-! ## Spaces and nodes -/

/-- `struct NX_Vmnode`; `stop` is the field `end`, `id` the node's identity. -/
structure Vmnode where
  id : ℕ
  start : BitVec 64
  stop : BitVec 64
  attr : BitVec 64
  flags : BitVec 32
  deriving DecidableEq, Repr

/-- `struct NX_Vmspace`; `table` says whether the space has a page table.  The
bounds of the image and of the stack are used by no function modelled here. -/
structure Vmspace where
  nodes : List Vmnode
  table : Bool
  spaceBase : BitVec 64
  spaceTop : BitVec 64
  heapStart : BitVec 64
  heapEnd : BitVec 64
  heapCurrent : BitVec 64
  mapStart : BitVec 64
  mapEnd : BitVec 64
  deriving DecidableEq, Repr

/-- `NX_VMSPACE_DELAY_MAP`. -/
def vmspaceDelayMap : BitVec 32 := 0x01#32

/-- `VmnodeCreate`, once there is memory for the node.  The new node is different
from those in use. -/
def vmnodeCreate (inUse : List Vmnode) (addr size attr : BitVec 64) (flags : BitVec 32) :
    Vmnode where
  id := (inUse.map Vmnode.id).foldr max 0 + 1
  start := addr
  stop := addr + size
  attr := attr
  flags := flags

/-! ## The node list -/

/-- The better of two nodes to insert behind: the one that ends later. -/
def laterPrev (prev : Option Vmnode) (tmp : Vmnode) : Vmnode :=
  match prev with
  | none => tmp
  | some p => if p.stop < tmp.stop then tmp else p

/-- The search of `VmspaceInsertLinearOrder` for the node to insert behind. -/
def insertPrev (node : Vmnode) : Option Vmnode → List Vmnode → Option Vmnode
  | prev, [] => prev
  | prev, tmp :: rest =>
      if tmp.stop ≤ node.start then insertPrev node (some (laterPrev prev tmp)) rest
      else insertPrev node prev rest

/-- `NX_ListAddAfter`. -/
def listAddAfter (node : Vmnode) (prev : ℕ) : List Vmnode → List Vmnode
  | [] => []
  | n :: rest =>
      if n.id = prev then n :: node :: rest else n :: listAddAfter node prev rest

/-- `VmspaceInsertLinearOrder`. -/
def vmspaceInsertLinearOrder (nodes : List Vmnode) (node : Vmnode) : List Vmnode :=
  match insertPrev node none nodes with
  | none => node :: nodes
  | some prev => listAddAfter node prev.id nodes

/-- `NX_ListDel` of a node. -/
def listDel (nodes : List Vmnode) (id : ℕ) : List Vmnode :=
  nodes.filter fun n => n.id ≠ id

def writeNode (nodes : List Vmnode) (node : Vmnode) : List Vmnode :=
  nodes.map fun n => if n.id = node.id then node else n

/-- `VmspaceRemoveNode`: the list without the node, or nothing when the node is
not in the space. -/
def vmspaceRemoveNode (nodes : List Vmnode) (node : Vmnode) : Option (List Vmnode) :=
  if node.id ∈ nodes.map Vmnode.id then some (listDel nodes node.id) else none

/-- The first half of `VmspaceMergeNode`.  It returns the node as it reads then;
a node that merges with itself is read after it left the list. -/
def mergePrev (nodes : List Vmnode) (node : Vmnode) : List Vmnode × Vmnode :=
  match nodes.find? fun p =>
      p.stop = node.start ∧ p.attr = node.attr ∧ p.flags = node.flags with
  | none => (nodes, node)
  | some prev =>
      let node := { node with start := prev.start }
      (listDel (writeNode nodes node) prev.id, node)

/-- The second half of `VmspaceMergeNode`. -/
def mergeNext (nodes : List Vmnode) (node : Vmnode) : List Vmnode :=
  match nodes.find? fun n =>
      n.start = node.stop ∧ n.attr = node.attr ∧ n.flags = node.flags with
  | none => nodes
  | some next => listDel (writeNode nodes { node with stop := next.stop }) next.id

/-- `VmspaceMergeNode`. -/
def vmspaceMergeNode (nodes : List Vmnode) (node : Vmnode) : List Vmnode :=
  let (nodes, node) := mergePrev nodes node
  mergeNext nodes node

section Operations

variable {μ : Type} (M : Machine μ)

/-- The optional node of `VmspaceSplitNode` for the range `[start, stop)`: none
when the range is empty, an error when there is no memory. -/
def splitPart (inUse : List Vmnode) (m : μ) (node : Vmnode) (start stop : BitVec 64) :
    Except NxError (Option Vmnode) × μ :=
  if start = stop then (.ok none, m)
  else
    match M.memAlloc m with
    | (false, m) => (.error .enomem, m)
    | (true, m) =>
        (.ok (some (vmnodeCreate inUse start (stop - start) node.attr node.flags)), m)

/-- `VmspaceSplitNode` inserts the part before the node, which starts at `start`
then.  The insertion cannot fail, since neither the space nor the part is null. -/
def splitPrev (nodes : List Vmnode) (node : Vmnode) (start : BitVec 64) :
    Option Vmnode → List Vmnode × Vmnode
  | none => (nodes, node)
  | some prev =>
      let node := { node with start }
      (vmspaceInsertLinearOrder (writeNode nodes node) prev, node)

/-- `VmspaceSplitNode` inserts the part behind the node, which ends at `stop` then. -/
def splitNext (nodes : List Vmnode) (node : Vmnode) (stop : BitVec 64) :
    Option Vmnode → List Vmnode × Vmnode
  | none => (nodes, node)
  | some next =>
      let node := { node with stop }
      (vmspaceInsertLinearOrder (writeNode nodes node) next, node)

/-- `VmspaceSplitNode`: the list after the split and the node as it reads then. -/
def vmspaceSplitNode (nodes : List Vmnode) (m : μ) (node : Vmnode)
    (addr size : BitVec 64) : Except NxError (List Vmnode × Vmnode) × μ :=
  if node.start = addr ∧ node.stop = addr + size then (.ok (nodes, node), m)
  else
    match splitPart M nodes m node node.start addr with
    | (.error err, m) => (.error err, m)
    | (.ok prev, m) =>
        match splitPart M (prev.toList ++ nodes) m node (addr + size) node.stop with
        | (.error err, m) => (.error err, m)
        | (.ok next, m) =>
            let (nodes, node) := splitPrev nodes node addr prev
            (.ok (splitNext nodes node (addr + size) next), m)

/-- `VmspaceFindNode`. -/
def vmspaceFindNode (nodes : List Vmnode) (addr size : BitVec 64) : Option Vmnode :=
  nodes.find? fun n => n.start ≤ addr ∧ addr + size ≤ n.stop

/-- `VmspaceCheckAddrCollisions`. -/
def vmspaceCheckAddrCollisions (nodes : List Vmnode) (addr size : BitVec 64) : Bool :=
  nodes.any fun n => (n.start ≤ addr ∧ addr < n.stop) ∨
    (n.start < addr + size ∧ addr + size ≤ n.stop)

/-- The loop of `GetAddrFromMapArea`. -/
def mapAreaLoop (s : Vmspace) (size : BitVec 64) :
    BitVec 64 → List Vmnode → Option (BitVec 64)
  | freeAddr, [] => some freeAddr
  | freeAddr, n :: rest =>
      if s.mapStart ≤ n.start ∧ n.stop ≤ s.mapEnd then
        if s.mapEnd < freeAddr + size then none
        else if freeAddr + size ≤ n.start then some freeAddr
        else mapAreaLoop s size n.stop rest
      else mapAreaLoop s size freeAddr rest

/-- `GetAddrFromMapArea`.  Its assertion on `size` repeats a check of its only
caller. -/
def getAddrFromMapArea (s : Vmspace) (size : BitVec 64) : Option (BitVec 64) :=
  mapAreaLoop s size s.mapStart s.nodes

/-! ## Mapping -/

/-- The address that `__VmspaceMap` works on, before alignment: the checks of the
arguments, and the search when no address is given. -/
def mapAddress (s : Vmspace) (vaddr size attr : BitVec 64) : Except NxError (BitVec 64) :=
  if size = 0 ∨ attr = 0 then .error .einval
  else if vaddr ≠ 0 ∧ (vaddr < s.spaceBase ∨ s.spaceTop - size < vaddr) then
    .error .einval
  else if vaddr = 0 then
    match getAddrFromMapArea s size with
    | none => .error .enomem
    | some addr => .ok addr
  else .ok vaddr

/-- The part of `__VmspaceMap` that fills the page table. -/
def mapPages (m : μ) (vaddr paddr size attr : BitVec 64) : Exec (BitVec 64 × μ) :=
  if paddr ≠ 0 then do
    let m ← M.pageIncrease m (pageAlignDown paddr)
    M.mapPageWithPhy m vaddr paddr size attr
  else M.mapPage m vaddr size attr

/-- The part of `__VmspaceMap` behind the insertion of the node: fill the page
table unless that is delayed, and take the node back when it fails. -/
def mapInserted (s : Vmspace) (m : μ) (node : Vmnode) (paddr size : BitVec 64) :
    Exec (Except NxError (BitVec 64) × Vmspace × μ) :=
  if node.flags &&& vmspaceDelayMap ≠ 0 then
    .ok (.ok node.start, { s with nodes := vmspaceMergeNode s.nodes node }, m)
  else do
    let (mapAddr, m) ← mapPages M m node.start paddr size node.attr
    if mapAddr = 0 then
      match vmspaceRemoveNode s.nodes node with
      | none => .error .assertion
      | some nodes => .ok (.error .enomem, { s with nodes }, m)
    else
      .ok (.ok mapAddr, { s with nodes := vmspaceMergeNode s.nodes node }, m)

/-- `__VmspaceMap`. -/
def vmspaceMapInternal (s : Vmspace) (m : μ) (vaddr paddr size attr : BitVec 64)
    (flags : BitVec 32) : Exec (Except NxError (BitVec 64) × Vmspace × μ) :=
  match mapAddress s vaddr size attr with
  | .error err => .ok (.error err, s, m)
  | .ok addr =>
      let vaddr := pageAlignDown addr
      let size := pageAlignUp size
      if vmspaceCheckAddrCollisions s.nodes vaddr size then .ok (.error .einval, s, m)
      else
        match M.memAlloc m with
        | (false, m) => .ok (.error .enomem, s, m)
        | (true, m) =>
            let node := vmnodeCreate s.nodes vaddr size attr flags
            let s := { s with nodes := vmspaceInsertLinearOrder s.nodes node }
            mapInserted M s m node paddr size

/-- `NX_VmspaceMap`. -/
def vmspaceMap (s : Vmspace) (m : μ) (addr size attr : BitVec 64) (flags : BitVec 32) :
    Exec (Except NxError (BitVec 64) × Vmspace × μ) :=
  vmspaceMapInternal M s m addr 0 size attr flags

/-- `NX_VmspaceMapWithPhy`. -/
def vmspaceMapWithPhy (s : Vmspace) (m : μ) (vaddr paddr size attr : BitVec 64)
    (flags : BitVec 32) : Exec (Except NxError (BitVec 64) × Vmspace × μ) :=
  vmspaceMapInternal M s m vaddr paddr size attr flags

/-! ## Unmapping -/

/-- The checks of `NX_VmspaceUnmap` on its arguments. -/
def unmapRefused (s : Vmspace) (addr size : BitVec 64) : Prop :=
  addr = 0 ∨ size = 0 ∨ addr &&& pageMask ≠ 0 ∨ addr < s.spaceBase ∨
    s.spaceTop ≤ addr ∨ s.spaceTop < addr + size

instance (s : Vmspace) (addr size : BitVec 64) : Decidable (unmapRefused s addr size) :=
  inferInstanceAs (Decidable (_ ∨ _))

/-- The part of `NX_VmspaceUnmap` behind the split. -/
def unmapSplit (s : Vmspace) (m : μ) (node : Vmnode) (addr size : BitVec 64) :
    Exec (NxError × Vmspace × μ) :=
  match vmspaceRemoveNode s.nodes node with
  | none => .ok (.efault, { s with nodes := vmspaceMergeNode s.nodes node }, m)
  | some nodes => do
      let (err, m) ← M.unmapPage m addr size
      if err ≠ .eok then
        let nodes := vmspaceMergeNode (vmspaceInsertLinearOrder nodes node) node
        .ok (.efault, { s with nodes }, m)
      else .ok (.eok, { s with nodes }, m)

/-- `NX_VmspaceUnmap`. -/
def vmspaceUnmap (s : Vmspace) (m : μ) (addr size : BitVec 64) :
    Exec (NxError × Vmspace × μ) :=
  if unmapRefused s addr size then .ok (.einval, s, m)
  else
    let size := pageAlignUp size
    match vmspaceFindNode s.nodes addr size with
    | none => .ok (.efault, s, m)
    | some node =>
        match vmspaceSplitNode M s.nodes m node addr size with
        | (.error _, m) => .ok (.enomem, s, m)
        | (.ok (nodes, node), m) => unmapSplit M { s with nodes } m node addr size

/-! ## The heap -/

/-- `NX_PAGE_ATTR_USER` of riscv64: valid, readable, writable, executable, user,
global. -/
def pageAttrUser : BitVec 64 := 0x3F#64

/-- `NX_VmspaceUpdateHeap` maps the pages up to the new position. -/
def heapGrow (s : Vmspace) (m : μ) (virAddr oldHeap newHeap : BitVec 64) :
    Exec (Except NxError (BitVec 64) × Vmspace × μ) := do
  match ← vmspaceMap M s m oldHeap (newHeap - oldHeap) pageAttrUser 0 with
  | (.error err, s, m) => .ok (.error err, s, m)
  | (.ok mapped, s, m) =>
      -- the error that is reported here is the success of the mapping
      if mapped ≠ oldHeap then .ok (.error .eok, s, m)
      else .ok (.ok virAddr, { s with heapCurrent := virAddr }, m)

/-- `NX_VmspaceUpdateHeap` unmaps the pages behind the new position. -/
def heapShrink (s : Vmspace) (m : μ) (virAddr oldHeap newHeap : BitVec 64) :
    Exec (Except NxError (BitVec 64) × Vmspace × μ) := do
  let (err, s, m) ← vmspaceUnmap M s m newHeap (oldHeap - newHeap)
  if err ≠ .eok then .ok (.error err, s, m)
  else .ok (.ok virAddr, { s with heapCurrent := virAddr }, m)

/-- `NX_VmspaceUpdateHeap`.  A failure is the null pointer with an error. -/
def vmspaceUpdateHeap (s : Vmspace) (m : μ) (virAddr : BitVec 64) :
    Exec (Except NxError (BitVec 64) × Vmspace × μ) :=
  if ¬s.table then .ok (.error .efault, s, m)
  else if virAddr = 0 then .ok (.ok s.heapCurrent, s, m)
  else if virAddr < s.heapStart then .ok (.error .einval, s, m)
  else if s.heapEnd ≤ virAddr then .ok (.error .enomem, s, m)
  else
    let newHeap := pageAlignUp virAddr
    let oldHeap := pageAlignUp s.heapCurrent
    if newHeap = oldHeap then
      .ok (.ok virAddr, { s with heapCurrent := virAddr }, m)
    else if oldHeap < newHeap then heapGrow M s m virAddr oldHeap newHeap
    else heapShrink M s m virAddr oldHeap newHeap

/-! ## Exit -/

/-- `NX_ProcessFreePageTable`.  The table of the root is memory of the kernel heap; the
tables below it are not looked at. -/
def processFreePageTable (s : Vmspace) : NxError :=
  if s.table then .eok else .efault

/-- The loop of `NX_VmspaceExit` over the nodes of the list. -/
def exitNodes : List Vmnode → Vmspace → μ → Exec (Vmspace × μ)
  | [], s, m => .ok (s, m)
  | node :: rest, s, m => do
      let (err, m) ← M.unmapPage m node.start (node.stop - node.start)
      nxAssert (err = .eok)
      match vmspaceRemoveNode s.nodes node with
      | none => .error .assertion
      | some nodes => exitNodes rest { s with nodes } m

/-- `NX_VmspaceExit`. -/
def vmspaceExit (s : Vmspace) (m : μ) : Exec (NxError × Vmspace × μ) := do
  let (s, m) ← exitNodes M s.nodes s m
  nxAssert (processFreePageTable s = .eok)
  return (.eok, s, m)

end Operations

end Nxos.Mm
