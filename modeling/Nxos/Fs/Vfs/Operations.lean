import Nxos.Fs.Vfs.Model

/-!
# Mounting, opening and closing

The embedding of `NX_VfsMountFileSystem`, `NX_VfsUnmountFileSystem`, `NX_VfsOpen`,
`NX_VfsOpenDir`, `NX_VfsClose` and `NX_VfsCloseDir`, from the absolute path that
`NX_VfsBuildAbsPath` has built.  Each is one step here: no other thread interferes.

A mount starts with the block device that was opened for it, if there is one.
-/

namespace Nxos.Fs

variable {σ : Type}

/-! ## Flags and modes -/

/-- `NX_VFS_O_RDONLY` -/
def oRdonly : BitVec 32 := 1 <<< 0

/-- `NX_VFS_O_WRONLY` -/
def oWronly : BitVec 32 := 1 <<< 1

/-- `NX_VFS_O_ACCMODE` -/
def oAccmode : BitVec 32 := oRdonly ||| oWronly

/-- `NX_VFS_O_CREAT` -/
def oCreat : BitVec 32 := 1 <<< 8

/-- `NX_VFS_O_EXCL` -/
def oExcl : BitVec 32 := 1 <<< 9

/-- `NX_VFS_O_TRUNC` -/
def oTrunc : BitVec 32 := 1 <<< 11

/-- `NX_VFS_S_IRUSR | NX_VFS_S_IRGRP | NX_VFS_S_IROTH` -/
def sRead : BitVec 32 := 0x124

/-- `NX_VFS_S_IWUSR | NX_VFS_S_IWGRP | NX_VFS_S_IWOTH` -/
def sWrite : BitVec 32 := 0x092

/-- `NX_VFS_S_IXUSR | NX_VFS_S_IXGRP | NX_VFS_S_IXOTH` -/
def sExec : BitVec 32 := 0x049

/-- `NX_VFS_S_IFDIR` -/
def sIfdir : BitVec 32 := 1 <<< 16

/-- `NX_VFS_S_IFREG` -/
def sIfreg : BitVec 32 := 1 <<< 19

/-- `NX_VFS_S_IFMT` -/
def sIfmt : BitVec 32 := 0x7f <<< 16

/-- `NX_VFS_R_OK`, `NX_VFS_W_OK` and `NX_VFS_X_OK` -/
def rOk : BitVec 32 := 1 <<< 2

@[inherit_doc rOk] def wOk : BitVec 32 := 1 <<< 1

@[inherit_doc rOk] def xOk : BitVec 32 := 1 <<< 0

/-- `NX_VFS_MOUNT_RO`, which is `NX_VFS_MOUNT_MASK` too. -/
def mountRo : BitVec 32 := 1

def hasFlag (flags flag : BitVec 32) : Bool := flags &&& flag != 0

/-- `VfsNodeAccess`: whether it returns `0`. -/
def vfsNodeAccess (v : Vfs σ) (n : ℕ) (mode : BitVec 32) : Bool :=
  let node := v.node n
  if hasFlag mode rOk && !hasFlag node.inode.mode sRead then false
  else if hasFlag mode wOk && hasFlag (v.mount node.mount).flags mountRo then false
  else if hasFlag mode wOk && !hasFlag node.inode.mode sWrite then false
  else if hasFlag mode xOk && !hasFlag node.inode.mode sExec then false
  else true

/-! ## Mounts -/

def Vfs.setRoot (v : Vfs σ) (m n : ℕ) : Vfs σ :=
  { v with mount := Function.update v.mount m { v.mount m with root := some n } }

def Vfs.setCovered (v : Vfs σ) (m : ℕ) (covered : Option ℕ) : Vfs σ :=
  { v with mount := Function.update v.mount m { v.mount m with covered := covered } }

/-- `VfsNodeRelease`, unless the pointer is null. -/
def releaseNode (v : Vfs σ) : Option ℕ → Vfs σ
  | none => v
  | some n => vfsNodeRelease v n

/-- The covered directory of a new mount: none for `"/"`. -/
def acquireCovered (v : Vfs σ) (absPath : Str) : Except NxError (Option ℕ) × Vfs σ :=
  if absPath = [slash] then (.ok none, v)
  else
    match vfsNodeAcquire v absPath with
    | (.error _, v) => (.error .enores, v)
    | (.ok n, v) =>
        if (v.node n).inode.type ≠ .dir then (.error .efault, vfsNodeRelease v n)
        else (.ok (some n), v)

def rootMode (flags mode : BitVec 32) : BitVec 32 :=
  if hasFlag flags mountRo then mode &&& ~~~sWrite else mode

/-- A mount of the list has the path or the device of the new one. -/
def Vfs.occupied (v : Vfs σ) (absPath : Str) (bdev : Option ℕ) : Bool :=
  v.mounts.any fun tm =>
    (v.mount tm).path == absPath || (bdev.isSome && (v.mount tm).dev == bdev)

/-- `NX_VfsMountFileSystem` from the root node of the mount on. -/
def mountRoot (v : Vfs σ) (m root : ℕ) (absPath : Str) (bdev : Option ℕ) : NxError × Vfs σ :=
  let fs := (v.mount m).fs
  let covered := (v.mount m).covered
  let inode := { (v.node root).inode with
    type := .dir, mode := sIfdir ||| sRead ||| sWrite ||| sExec }
  let v := (v.setRoot m root).setInode root inode
  let (err, inode, s) := fs.mount v.fsState m inode
  let v := ({ v with fsState := s } : Vfs σ).setInode root inode
  if err ≠ .eok then (err, releaseNode (vfsNodeRelease v root) covered)
  else
    let v := v.setInode root { inode with mode := rootMode (v.mount m).flags inode.mode }
    if v.occupied absPath bdev then
      let v : Vfs σ := { v with fsState := fs.unmount v.fsState m }
      (.eagain, releaseNode (vfsNodeRelease v root) covered)
    else (.eok, { v with mounts := m :: v.mounts })

/-- `NX_VfsMountFileSystem` from the covered directory on. -/
def mountFilled (v : Vfs σ) (m : ℕ) (absPath : Str) (bdev : Option ℕ) : NxError × Vfs σ :=
  match acquireCovered v absPath with
  | (.error err, v) => (err, v)
  | (.ok covered, v) =>
      match vfsNodeGet (v.setCovered m covered) m [slash] with
      | (none, v) => (.efault, releaseNode v covered)
      | (some root, v) => mountRoot v m root absPath bdev

/-- `NX_VfsMountFileSystem` -/
def vfsMountFileSystem (v : Vfs σ) (bdev : Option ℕ) (absPath : Str) (fs : VfsFileSystem σ)
    (flags : BitVec 32) : NxError × Vfs σ :=
  match memAlloc v with
  | (none, v) => (.enomem, v)
  | (some m, v) =>
      if vfsMaxPath ≤ absPath.length then (.efault, v)
      else
        let v : Vfs σ :=
          { v with
            mount := Function.update v.mount m
              ⟨fs, bdev, absPath, flags &&& mountRo, 0, none, none⟩ }
        mountFilled v m absPath bdev

/-- The mount of a path, as the loop of `NX_VfsUnmountFileSystem` finds it. -/
def Vfs.findMount (v : Vfs σ) (absPath : Str) : Option ℕ :=
  v.mounts.find? fun m => (v.mount m).path == absPath

/-- `NX_VfsUnmountFileSystem` -/
def vfsUnmountFileSystem (v : Vfs σ) (absPath : Str) : NxError × Vfs σ :=
  match v.findMount absPath with
  | none => (.enosrch, v)
  | some m =>
      if (v.mount m).refcnt > 1 then (.ebusy, v)
      else
        let fs := (v.mount m).fs
        let covered := (v.mount m).covered
        let v : Vfs σ := { v with mounts := v.mounts.erase m }
        let (err, s) := fs.msync v.fsState m
        let v : Vfs σ := { v with fsState := fs.unmount s m }
        (err, releaseNode (releaseNode v (v.mount m).root) covered)

/-! ## Opening a node -/

/-- `VfsLookupDir`: the directory of a path and the name in it. -/
def vfsLookupDir (v : Vfs σ) (path : Str) : Option (ℕ × Str) × Vfs σ :=
  if vfsMaxPath ≤ path.length then (none, v)
  else
    match cutAtSlash path with
    | none => (none, v)
    | some dir =>
        match vfsNodeAcquire v (if dir = [] then [slash] else dir) with
        | (.error _, v) => (none, v)
        | (.ok n, v) =>
            if (v.node n).inode.type ≠ .dir then (none, vfsNodeRelease v n)
            else (some (n, (path.reverse.takeWhile (· != slash)).reverse), v)

/-- The truncation in `NX_VfsOpen`, and the node and flags to store in a descriptor. -/
def openTruncate (v : Vfs σ) (n : ℕ) (flags : BitVec 32) :
    Except NxError (ℕ × BitVec 32) × Vfs σ :=
  if hasFlag flags oTrunc then
    if !hasFlag flags oWronly || (v.node n).inode.type == .dir then
      (.error .eperm, vfsNodeRelease v n)
    else
      let (err, inode, s) := (v.mount (v.node n).mount).fs.truncate v.fsState (v.node n)
      let v := ({ v with fsState := s } : Vfs σ).setInode n inode
      if err ≠ .eok then (.error err, vfsNodeRelease v n) else (.ok (n, flags), v)
  else (.ok (n, flags), v)

/-- `create` and `sync` of a file in a directory, as `NX_VfsOpen` calls them. -/
def createFile (v : Vfs σ) (dn : ℕ) (filename : Str) (mode : BitVec 32) : NxError × Vfs σ :=
  let fs := (v.mount (v.node dn).mount).fs
  let (err, s) := fs.create v.fsState (v.node dn) filename ((mode &&& ~~~sIfmt) ||| sIfreg)
  if err = .eok then
    let (err, s) := fs.sync s (v.node dn)
    (err, { v with fsState := s })
  else (err, { v with fsState := s })

/-- The branch of `NX_VfsOpen` for a path that could not be acquired, with
`NX_VFS_O_CREAT`. -/
def openCreate (v : Vfs σ) (absPath : Str) (flags mode : BitVec 32) :
    Except NxError (ℕ × BitVec 32) × Vfs σ :=
  match vfsLookupDir v absPath with
  | (none, v) => (.error .enosrch, v)
  | (some (dn, filename), v) =>
      if vfsNodeAccess v dn wOk = false then (.error .eperm, vfsNodeRelease v dn)
      else
        let (err, v) := createFile v dn filename mode
        let v := vfsNodeRelease v dn
        if err ≠ .eok then (.error err, v)
        else
          match vfsNodeAcquire v absPath with
          | (.error _, v) => (.error .enores, v)
          | (.ok n, v) => openTruncate v n (flags &&& ~~~oTrunc)

/-- The branch of `NX_VfsOpen` for a path that was acquired. -/
def openExisting (v : Vfs σ) (n : ℕ) (flags : BitVec 32) :
    Except NxError (ℕ × BitVec 32) × Vfs σ :=
  if hasFlag flags oCreat then
    if hasFlag flags oExcl then (.error .eagain, vfsNodeRelease v n)
    else openTruncate v n (flags &&& ~~~oCreat)
  else if hasFlag flags oWronly || hasFlag flags oTrunc then
    if vfsNodeAccess v n wOk = false then (.error .eperm, vfsNodeRelease v n)
    else if (v.node n).inode.type = .dir then (.error .eperm, vfsNodeRelease v n)
    else openTruncate v n flags
  else openTruncate v n flags

/-- `NX_VfsOpen` up to the allocation of a descriptor. -/
def openNode (v : Vfs σ) (absPath : Str) (flags mode : BitVec 32) :
    Except NxError (ℕ × BitVec 32) × Vfs σ :=
  match vfsNodeAcquire v absPath with
  | (.ok n, v) => openExisting v n flags
  | (.error _, v) =>
      if hasFlag flags oCreat then openCreate v absPath flags mode else (.error .enores, v)

/-! ## Descriptors -/

/-- `NX_VFS_MAX_FD` -/
def vfsMaxFd : ℕ := 256

/-- `NX_VfsFile`, without its lock and offset. -/
structure VfsFile where
  node : Option ℕ
  flags : BitVec 32
  deriving DecidableEq

def VfsFile.free : VfsFile := ⟨none, 0⟩

/-- The node cache, and the file tables of the processes. -/
structure FileSystems (σ : Type) where
  vfs : Vfs σ
  file : ℕ → ℕ → VfsFile

def FileSystems.setFile (s : FileSystems σ) (ft fd : ℕ) (file : VfsFile) : FileSystems σ :=
  { s with file := Function.update s.file ft (Function.update (s.file ft) fd file) }

/-- `VfsFileAlloc` -/
def vfsFileAlloc (file : ℕ → VfsFile) : Option ℕ :=
  (List.range' 3 (vfsMaxFd - 3)).find? fun fd => (file fd).node == none

/-- `VfsFileFree` -/
def vfsFileFree (s : FileSystems σ) (ft fd : ℕ) : FileSystems σ :=
  if 3 ≤ fd ∧ fd < vfsMaxFd ∧ (s.file ft fd).node.isSome then s.setFile ft fd .free else s

/-- `NX_VfsOpen` -/
def vfsOpen (s : FileSystems σ) (ft : ℕ) (absPath : Str) (flags mode : BitVec 32) :
    Except NxError ℕ × FileSystems σ :=
  if !hasFlag flags oAccmode then (.error .einval, s)
  else
    match openNode s.vfs absPath flags mode with
    | (.error err, v) => (.error err, { s with vfs := v })
    | (.ok (n, flags), v) =>
        match vfsFileAlloc (s.file ft) with
        | none => (.error .enores, { s with vfs := vfsNodeRelease v n })
        | some fd => (.ok fd, ({ s with vfs := v } : FileSystems σ).setFile ft fd ⟨some n, flags⟩)

/-- `NX_VfsClose` of a descriptor below `NX_VFS_MAX_FD`. -/
def vfsClose (s : FileSystems σ) (ft fd : ℕ) : NxError × FileSystems σ :=
  if vfsMaxFd ≤ fd then (.efault, s)
  else
    match (s.file ft fd).node with
    | none => (.efault, s)
    | some n =>
        let v := s.vfs
        let (err, state) := (v.mount (v.node n).mount).fs.sync v.fsState (v.node n)
        let v : Vfs σ := { v with fsState := state }
        if err ≠ .eok then (err, { s with vfs := v })
        else (.eok, vfsFileFree { s with vfs := vfsNodeRelease v n } ft fd)

/-- `NX_VfsOpenDir` -/
def vfsOpenDir (s : FileSystems σ) (ft : ℕ) (absPath : Str) : Except NxError ℕ × FileSystems σ :=
  match vfsOpen s ft absPath oRdonly 0 with
  | (.error err, s) => (.error err, s)
  | (.ok fd, s) =>
      match (s.file ft fd).node with
      | none => (.error .efault, s)
      | some n =>
          if (s.vfs.node n).inode.type ≠ .dir then (.error .enores, (vfsClose s ft fd).2)
          else (.ok fd, s)

/-- `NX_VfsCloseDir` -/
def vfsCloseDir (s : FileSystems σ) (ft fd : ℕ) : NxError × FileSystems σ :=
  if vfsMaxFd ≤ fd then (.enores, s)
  else
    match (s.file ft fd).node with
    | none => (.efault, s)
    | some n =>
        if (s.vfs.node n).inode.type ≠ .dir then (.enores, s) else vfsClose s ft fd

end Nxos.Fs
