import Nxos.Base.Ram
import Nxos.Mm.Vmspace.Model

/-!
# Loading an executable

The embedding of the ELF loader of `process/process.c` on a 64-bit platform.  A first pass over
the program headers maps the segments, a second one reads them in and clears what the file does
not hold.

The file system delivers the bytes of the file.  Physical memory is addressed by numbers; the
kernel reaches it through `NX_Phy2Virt`, which adds an offset.
-/

namespace Nxos.Process

open Nxos.Mm

/-! ## The file -/

/-- `NX_VfsFileSeek` with `NX_VFS_SEEK_SET`: the position is kept inside the file. -/
def vfsFileSeek (file : List (BitVec 8)) (off : BitVec 64) : BitVec 64 :=
  if off.toInt < 0 then 0
  else if (file.length : ℤ) < off.toInt then BitVec.ofNat 64 file.length
  else off

/-- The bytes that `NX_VfsRead` delivers: fewer than asked for at the end of the file. -/
def vfsRead (file : List (BitVec 8)) (pos len : ℕ) : List (BitVec 8) :=
  (file.drop pos).take len

def bytesValue : List (BitVec 8) → ℕ
  | [] => 0
  | byte :: rest => byte.toNat + 256 * bytesValue rest

def headerField (header : List (BitVec 8)) (off size : ℕ) : ℕ :=
  bytesValue ((header.drop off).take size)

/-- `Elf64_Ehdr`, as far as the loader reads it. -/
structure ElfEhdr where
  ident : List (BitVec 8)
  machine : BitVec 16
  entry : BitVec 64
  phoff : BitVec 64
  phnum : BitVec 16

/-- `Elf64_Phdr`, as far as the loader reads it. -/
structure ElfPhdr where
  type : BitVec 32
  offset : BitVec 64
  vaddr : BitVec 64
  filesz : BitVec 64
  memsz : BitVec 64
  deriving DecidableEq

/-- `sizeof(Elf_Ehdr)` -/
def ehdrSize : ℕ := 64

/-- `sizeof(Elf_Phdr)` -/
def phdrSize : ℕ := 56

def elfEhdr (header : List (BitVec 8)) : ElfEhdr where
  ident := header.take 16
  machine := BitVec.ofNat 16 (headerField header 18 2)
  entry := BitVec.ofNat 64 (headerField header 24 8)
  phoff := BitVec.ofNat 64 (headerField header 32 8)
  phnum := BitVec.ofNat 16 (headerField header 56 2)

def elfPhdr (header : List (BitVec 8)) : ElfPhdr where
  type := BitVec.ofNat 32 (headerField header 0 4)
  offset := BitVec.ofNat 64 (headerField header 8 8)
  vaddr := BitVec.ofNat 64 (headerField header 16 8)
  filesz := BitVec.ofNat 64 (headerField header 32 8)
  memsz := BitVec.ofNat 64 (headerField header 40 8)

/-- `PT_LOAD` -/
def ptLoad : BitVec 32 := 1

/-- `EM_RISCV` -/
def emRiscv : BitVec 16 := 243

/-! ## The space of a process -/

/-- `NX_Vmspace`, with the bounds of the image. -/
structure UserSpace extends Vmspace where
  imageStart : BitVec 64
  imageEnd : BitVec 64
  deriving DecidableEq

/-- `NX_VmspaceResizeImage` -/
def vmspaceResizeImage (space : UserSpace) (newImageSize : BitVec 64) : UserSpace :=
  let imageEnd := pageAlignUp (space.imageStart + newImageSize)
  let heapStart :=
    if imageEnd + 4096 < space.heapStart then imageEnd + 4096 else space.heapStart
  { space with imageEnd, heapStart, heapCurrent := heapStart }

/-! ## Checks -/

/-- `NX_LoadCheckMachine` on riscv64. -/
def loadCheckMachine (machineType : BitVec 16) : NxError :=
  if machineType ≠ emRiscv then .einval else .eok

/-- The checks of `NX_LoadCheck` on the header it has read. -/
def checkEhdr (space : UserSpace) (ehdr : ElfEhdr) : NxError :=
  if loadCheckMachine ehdr.machine ≠ .eok then .einval
  else if ehdr.ident[4]? ≠ some 2 then .einval
  else if ehdr.ident[6]? ≠ some 1 then .einval
  else if ehdr.entry ≠ space.imageStart then .einval
  else .eok

/-- `NX_LoadCheck` -/
def loadCheck (file : List (BitVec 8)) (len : BitVec 64) (space : UserSpace) :
    Except NxError ElfEhdr :=
  if len < BitVec.ofNat 64 ehdrSize then .error .einval
  else
    let magic := vfsRead file 0 4
    if magic.length ≠ 4 then .error .eio
    else if magic ≠ [0x7f, 0x45, 0x4c, 0x46] then .error .einval
    else
      let header := vfsRead file 0 ehdrSize
      if header.length ≠ ehdrSize then .error .eio
      else
        let ehdr := elfEhdr header
        let err := checkEhdr space ehdr
        if err ≠ .eok then .error err else .ok ehdr

def readPhdr (file : List (BitVec 8)) (len off : BitVec 64) : Except NxError ElfPhdr :=
  if len < off then .error .efault
  else if vfsFileSeek file off ≠ off then .error .efault
  else
    let header := vfsRead file off.toNat phdrSize
    if header.length ≠ phdrSize then .error .eio else .ok (elfPhdr header)

/-! ## Mapping the segments -/

section Loading

variable {μ : Type} (M : Machine μ) (mmuVir2Phy : μ → BitVec 64 → Exec (BitVec 64))

def ElfPhdr.size (ph : ElfPhdr) : BitVec 64 :=
  if ph.filesz < ph.memsz then ph.memsz else ph.filesz

/-- The rounds of the loop of `NX_LoadMapUserSpace`. -/
def mapHeaders (file : List (BitVec 8)) (len : BitVec 64) :
    ℕ → BitVec 64 → Vmspace → μ → Exec (NxError × Vmspace × μ)
  | 0, _, s, m => .ok (.eok, s, m)
  | count + 1, off, s, m =>
      match readPhdr file len off with
      | .error err => .ok (err, s, m)
      | .ok ph =>
          if ph.type ≠ ptLoad then
            mapHeaders file len count (off + BitVec.ofNat 64 phdrSize) s m
          else do
            match ← vmspaceMap M s m ph.vaddr ph.size pageAttrUser 0 with
            | (.error _, s, m) => .ok (.enomem, s, m)
            | (.ok mappedAddr, s, m) =>
                if mappedAddr ≠ ph.vaddr then .ok (.efault, s, m)
                else mapHeaders file len count (off + BitVec.ofNat 64 phdrSize) s m

/-- `NX_LoadMapUserSpace` -/
def loadMapUserSpace (file : List (BitVec 8)) (len : BitVec 64) (s : Vmspace) (m : μ)
    (ehdr : ElfEhdr) : Exec (NxError × Vmspace × μ) :=
  mapHeaders M file len ehdr.phnum.toNat ehdr.phoff s m

/-! ## Reading the segments in -/

/-- How often a loop runs that handles the bytes of one page in a round. -/
def pageRounds (size : ℕ) : ℕ := (size + 4095) / 4096

/-- The loop of `NX_LoadFileData` that reads a segment, with `NX_MmuVir2Phy` for every page:
its error, the bytes read and the memory. -/
def readChunks (file : List (BitVec 8)) (m : μ) : ℕ → ℕ → BitVec 64 → BitVec 64 → BitVec 64 →
    (ℕ → BitVec 8) → Exec (NxError × BitVec 64 × (ℕ → BitVec 8))
  | 0, _, _, _, readLen, ram => .ok (.eok, readLen, ram)
  | rounds + 1, pos, size, vaddr, readLen, ram => do
      let paddr ← mmuVir2Phy m vaddr
      nxAssert (paddr ≠ 0)
      let chunk : BitVec 64 := if size < 4096 then size else 4096
      let bytes := vfsRead file pos chunk.toNat
      let ram := storeBytes ram paddr.toNat bytes
      if bytes.length ≠ chunk.toNat then .ok (.eio, readLen, ram)
      else
        readChunks file m rounds (pos + chunk.toNat) (size - chunk) (vaddr + chunk)
          (readLen + chunk) ram

/-- The loop of `NX_LoadFileData` that clears the end of a segment. -/
def clearBss (m : μ) : ℕ → BitVec 64 → BitVec 64 → BitVec 64 → (ℕ → BitVec 8) →
    Exec (ℕ → BitVec 8)
  | 0, _, _, _, ram => .ok ram
  | rounds + 1, bssOff, bssSize, vaddr, ram => do
      let chunk : BitVec 64 := if bssSize < 4096 - bssOff then bssSize else 4096 - bssOff
      let paddr ← mmuVir2Phy m vaddr
      nxAssert (paddr ≠ 0)
      let ram := storeBytes ram (paddr + bssOff).toNat (List.replicate chunk.toNat 0)
      clearBss m rounds 0 (bssSize - chunk) (vaddr + 4096) ram

/-- What `NX_LoadFileData` does for a segment. -/
def loadSegment (file : List (BitVec 8)) (len : BitVec 64) (m : μ) (ram : ℕ → BitVec 8)
    (ph : ElfPhdr) : Exec (NxError × (ℕ → BitVec 8)) :=
  if ph.memsz < ph.filesz then .ok (.error, ram)
  else if len < ph.offset then .ok (.error, ram)
  else if vfsFileSeek file ph.offset ≠ ph.offset then .ok (.eio, ram)
  else do
    let (err, readLen, ram) ← readChunks mmuVir2Phy file m (pageRounds ph.filesz.toNat)
      ph.offset.toNat ph.filesz ph.vaddr 0 ram
    if err ≠ .eok then .ok (err, ram)
    else if readLen ≠ ph.filesz then .ok (.eio, ram)
    else if ph.filesz < ph.memsz then
      let bssOff := ph.filesz &&& pageMask
      let bssSize := ph.memsz - ph.filesz
      let ram ← clearBss mmuVir2Phy m (pageRounds (bssOff.toNat + bssSize.toNat)) bssOff bssSize
        (pageAlignDown (ph.vaddr + ph.filesz)) ram
      .ok (.eok, ram)
    else .ok (.eok, ram)

/-- The rounds of the loop of `NX_LoadFileData`: its error, the sum of the sizes in memory and
the memory. -/
def loadHeaders (file : List (BitVec 8)) (len : BitVec 64) (m : μ) :
    ℕ → BitVec 64 → BitVec 64 → (ℕ → BitVec 8) → Exec (NxError × BitVec 64 × (ℕ → BitVec 8))
  | 0, _, memSize, ram => .ok (.eok, memSize, ram)
  | count + 1, progOff, memSize, ram =>
      match readPhdr file len progOff with
      | .error err => .ok (err, memSize, ram)
      | .ok ph =>
          if ph.type ≠ ptLoad then
            loadHeaders file len m count (progOff + BitVec.ofNat 64 phdrSize) memSize ram
          else do
            let (err, ram) ← loadSegment mmuVir2Phy file len m ram ph
            if err ≠ .eok then .ok (err, memSize, ram)
            else
              loadHeaders file len m count (progOff + BitVec.ofNat 64 phdrSize)
                (memSize + ph.memsz) ram

/-- `NX_LoadFileData` -/
def loadFileData (file : List (BitVec 8)) (len : BitVec 64) (space : UserSpace) (m : μ)
    (ram : ℕ → BitVec 8) (ehdr : ElfEhdr) : Exec (NxError × UserSpace × (ℕ → BitVec 8)) := do
  let (err, memSize, ram) ← loadHeaders mmuVir2Phy file len m ehdr.phnum.toNat ehdr.phoff 0 ram
  if err ≠ .eok then .ok (err, space, ram)
  else .ok (.eok, vmspaceResizeImage space memSize, ram)

/-- `NX_LoadElf` of an open file. -/
def loadElf (file : List (BitVec 8)) (len : BitVec 64) (space : UserSpace) (m : μ)
    (ram : ℕ → BitVec 8) : Exec (NxError × UserSpace × μ × (ℕ → BitVec 8)) :=
  if len = 0 then .ok (.einval, space, m, ram)
  else
    match loadCheck file len space with
    | .error err => .ok (err, space, m, ram)
    | .ok ehdr => do
        let (err, s, m) ← loadMapUserSpace M file len space.toVmspace m ehdr
        let space := { space with toVmspace := s }
        if err ≠ .eok then .ok (err, space, m, ram)
        else do
          let (err, space, ram) ← loadFileData mmuVir2Phy file len space m ram ehdr
          .ok (err, space, m, ram)

end Loading

end Nxos.Process
