import Nxos.Fs.Vfs.Operations

/-!
# File systems that cannot be written

The functions of `fs/devfs/devfs.c`, which finds a device by its name in any directory.  The
initial archive of `fs/cpio/cpio.c` has another lookup; both refuse to create and to truncate.
-/

namespace Nxos.Fs

/-- A node as `NX_MemAlloc` gives it, before a lookup fills it in. -/
def VfsInode.blank : VfsInode := ⟨.unk, 0, 0⟩

/-- The functions that both file systems share, around a lookup that keeps no state. -/
def readOnlyFs (lookup : VfsNode → Str → Option VfsInode) : VfsFileSystem Unit where
  mount _ _ root := (.eok, { root with data := 0 }, ())
  unmount _ _ := ()
  msync _ _ := (.eok, ())
  vget _ _ _ := (.eok, .blank, ())
  vput _ _ := ()
  truncate _ n := (.eperm, n.inode, ())
  sync _ _ := (.eok, ())
  lookup _ dn name n :=
    match lookup dn name with
    | none => (.enosrch, n.inode, ())
    | some inode => (.eok, inode, ())
  create _ _ _ _ := (.eperm, ())

/-- A registered device: whether its driver can read and write, and its address. -/
structure Device where
  read : Bool
  write : Bool
  address : ℕ
  deriving DecidableEq

/-- What `DevLookup` stores in the node of a device. -/
def Device.inode (dev : Device) : VfsInode where
  type := .reg
  mode := sIfreg ||| (if dev.read then sRead else 0) ||| (if dev.write then sWrite else 0)
  data := dev.address

/-- `DevLookup`, over `NX_DeviceSearch`: the directory is not looked at. -/
def devLookup (deviceSearch : Str → Option Device) (_ : VfsNode) (name : Str) : Option VfsInode :=
  (deviceSearch name).map Device.inode

/-- `devfs` -/
def devfs (deviceSearch : Str → Option Device) : VfsFileSystem Unit :=
  readOnlyFs (devLookup deviceSearch)

end Nxos.Fs
