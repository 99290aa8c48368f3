import Nxos.Ipc.Hub.Model
import Nxos.Mm.Vmspace.Copy

/-!
# Memory descriptions of a hub

The embedding of `NX_HubTranslate` with `CreateMdl` and `MapMdl`: the server maps the buffer of
a client into its own space, one page after the other and each at an address that the space
chooses.

The spaces of the processes lie over one memory, which holds the page tables of all of them and
the kernel heap.
-/

namespace Nxos.Ipc

open Nxos.Mm

/-! ## Data -/

/-- What the functions of the hub call: the machine behind the space of a process, the
translation of its addresses, and the memory for descriptions. -/
structure HubMemory (π μ : Type) where
  machine : π → Machine μ
  /-- `NX_MmuVir2Phy` -/
  mmuVir2Phy : π → μ → BitVec 64 → Exec (BitVec 64)
  /-- `NX_MemAllocEx(NX_HubMdl)`: whether there was memory. -/
  memAllocMdl : μ → Bool × μ
  /-- `NX_MemFree` of a description -/
  memFreeMdl : μ → μ

/-- The spaces of the processes over the memory. -/
structure Spaces (π μ : Type) where
  vmspace : π → Vmspace
  memory : μ

/-- `struct NX_HubMdl`; `vmspace` is the process of the space. -/
structure HubMdl (π : Type) where
  startAddr : BitVec 64
  mappedAddr : BitVec 64
  byteOffset : BitVec 64
  byteCount : BitVec 64
  vmspace : π

/-- `NX_HubChannel` with its list of memory descriptions. -/
structure MdlChannel (ι π : Type) extends HubChannel ι where
  mdlList : List (HubMdl π)

/-- `NX_HUB_MDL_LEN_MAX` -/
def hubMdlLenMax : BitVec 64 := 0x2000000#64

/-- `NX_HUB_PARAM_NR` -/
def hubParamNr : ℕ := 8

/-! ## Descriptions -/

section Operations

variable {ι π μ : Type} [DecidableEq ι] [DecidableEq π] (H : HubMemory π μ)

def Spaces.write (σ : Spaces π μ) (proc : π) (s : Vmspace) (m : μ) : Spaces π μ where
  vmspace := Function.update σ.vmspace proc s
  memory := m

/-- `NX_VmspaceVirToPhy` in the space of a process. -/
def spaceVirToPhy (proc : π) (σ : Spaces π μ) (virAddr : BitVec 64) : Exec (BitVec 64) :=
  vmspaceVirToPhy (H.mmuVir2Phy proc σ.memory) (σ.vmspace proc) virAddr

/-- `CreateMdl`, once there is memory for the description. -/
def createMdl (addr len : BitVec 64) (space : π) : HubMdl π where
  startAddr := pageAlignDown addr
  mappedAddr := 0
  byteOffset := addr - pageAlignDown addr
  byteCount := if hubMdlLenMax < len then hubMdlLenMax else len
  vmspace := space

/-- The number of pages of a description: `NX_DIV_ROUND_UP` in `MapMdl`. -/
def HubMdl.pageCount (mdl : HubMdl π) : ℕ :=
  ((mdl.byteOffset + mdl.byteCount + (4096 - 1)) / 4096).toNat

/-- The first loop of `MapMdl`: whether all pages are in the space of the source. -/
def checkMdlPages (source : π) (σ : Spaces π μ) : ℕ → BitVec 64 → Exec Bool
  | 0, _ => .ok true
  | pages + 1, virAddr => do
      let phyAddr ← spaceVirToPhy H source σ virAddr
      if phyAddr = 0 then .ok false
      else checkMdlPages source σ pages (virAddr + 4096)

/-- The second loop of `MapMdl`.  When a page cannot be mapped, the null pointer is returned
after an attempt to unmap those before it. -/
def mapMdlPages (source target : π) :
    ℕ → BitVec 64 → BitVec 64 → HubMdl π → Spaces π μ → Exec (Option (HubMdl π) × Spaces π μ)
  | 0, _, _, mdl, σ => .ok (some mdl, σ)
  | pages + 1, pageCountMapped, virAddr, mdl, σ => do
      let phyAddr ← spaceVirToPhy H source σ virAddr
      nxAssert (phyAddr ≠ 0)
      match ← vmspaceMapWithPhy (H.machine target) (σ.vmspace target) σ.memory 0 phyAddr 4096
          pageAttrUser 0 with
      | (.error _, s, m) =>
          if 0 < pageCountMapped then do
            -- the address is the one of the source
            let (_, s, m) ← vmspaceUnmap (H.machine target) s m mdl.startAddr
              (pageCountMapped * 4096)
            .ok (none, σ.write target s m)
          else .ok (none, σ.write target s m)
      | (.ok mapAddr, s, m) =>
          mapMdlPages source target pages (pageCountMapped + 1) (virAddr + 4096)
            (if mdl.mappedAddr = 0 then { mdl with mappedAddr := mapAddr } else mdl)
            (σ.write target s m)

/-- `MapMdl`: the address, zero for failure, and the description as it reads then. -/
def mapMdl (mdl : HubMdl π) (source target : π) (σ : Spaces π μ) :
    Exec (BitVec 64 × HubMdl π × Spaces π μ) := do
  if ← checkMdlPages H source σ mdl.pageCount mdl.startAddr then
    match ← mapMdlPages H source target mdl.pageCount 0 mdl.startAddr mdl σ with
    | (none, σ) => .ok (0, mdl, σ)
    | (some mdl, σ) => do
        nxAssert (mdl.mappedAddr ≠ 0)
        .ok (mdl.mappedAddr + mdl.byteOffset, mdl, σ)
  else .ok (0, mdl, σ)

/-! ## Translation -/

/-- `NX_HubMapAddr` -/
def hubMapAddr (process : HubThread ι → Option π) (channel : MdlChannel ι π)
    (source target : HubThread ι) (addr size : BitVec 64) (σ : Spaces π μ) :
    Exec (BitVec 64 × MdlChannel ι π × Spaces π μ) :=
  match process target, process source with
  | some targetProc, some sourceProc =>
      if hubParamNr ≤ channel.mdlList.length then .ok (0, channel, σ)
      else
        match H.memAllocMdl σ.memory with
        | (false, m) => .ok (0, channel, { σ with memory := m })
        | (true, m) => do
            let (mapAddr, mdl, σ) ← mapMdl H (createMdl addr size targetProc) sourceProc targetProc
              { σ with memory := m }
            if mapAddr = 0 then .ok (0, channel, { σ with memory := H.memFreeMdl σ.memory })
            else .ok (mapAddr, { channel with mdlList := mdl :: channel.mdlList }, σ)
  | _, _ => .ok (0, channel, σ)

/-- `ChannelMatchParam` -/
def channelMatchParam (arg : BitVec 64) (channel : MdlChannel ι π) : Bool :=
  channel.param.args.toList.any fun a => arg = a

/-- `NX_HubTranslate` of the thread `cur`; `hub` says whether it has a hub, `activeChannel` is
its channel.  The null pointer is zero. -/
def hubTranslate (process : HubThread ι → Option π) (cur : HubThread ι) (hub : Bool)
    (activeChannel : Option (MdlChannel ι π)) (addr size : BitVec 64) (σ : Spaces π μ) :
    Exec (BitVec 64 × Option (MdlChannel ι π) × Spaces π μ) :=
  if addr = 0 ∨ size = 0 then .ok (0, activeChannel, σ)
  else if hub = false then .ok (0, activeChannel, σ)
  else
    match activeChannel with
    | none => .ok (0, none, σ)
    | some channel =>
        if channel.targetThread ≠ some cur then .ok (0, some channel, σ)
        else
          match channel.sourceThread with
          | none => .ok (0, some channel, σ)
          | some source =>
              if channelMatchParam addr channel = false then .ok (0, some channel, σ)
              else do
                let (p, channel, σ) ← hubMapAddr H process channel source cur addr size σ
                .ok (p, some channel, σ)

end Operations

end Nxos.Ipc
