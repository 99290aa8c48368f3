import Mathlib.Logic.Function.Basic
import Nxos.Base.Kernel
import Nxos.Fs.Path

/-!
# Mounts and cached nodes

The embedding of the node cache of `fs/vfs.c`: the list of mounts, the hash lists of nodes and
the reference counts that the operations take and drop.

The functions of a file system read and change a state `σ` of their own.  Nodes and mounts are
named by the number of their allocation, so a name is not given again after it is freed.
-/

namespace Nxos.Fs

/-! ## Data -/

/-- `enum NX_VfsNodeType` -/
inductive VfsNodeType where
  | unk
  | dir
  | chr
  | blk
  | reg
  | lnk
  | fifo
  | sock
  deriving DecidableEq, Repr

/-- What a file system stores in a node.  Size, times and private data are one value here. -/
structure VfsInode where
  type : VfsNodeType
  mode : BitVec 32
  data : ℕ
  deriving DecidableEq

/-- `NX_VfsNode` -/
structure VfsNode where
  mount : ℕ
  refcnt : ℤ
  path : Str
  inode : VfsInode
  deriving DecidableEq

/-- `NX_VfsFileSystem`, with the functions that mounting, opening and closing call.  What a
function writes to a node is part of its result. -/
structure VfsFileSystem (σ : Type) where
  mount : σ → ℕ → VfsInode → NxError × VfsInode × σ
  unmount : σ → ℕ → σ
  msync : σ → ℕ → NxError × σ
  vget : σ → ℕ → Str → NxError × VfsInode × σ
  vput : σ → VfsNode → σ
  truncate : σ → VfsNode → NxError × VfsInode × σ
  sync : σ → VfsNode → NxError × σ
  lookup : σ → VfsNode → Str → VfsNode → NxError × VfsInode × σ
  create : σ → VfsNode → Str → BitVec 32 → NxError × σ

/-- `NX_VfsMount` -/
structure VfsMount (σ : Type) where
  fs : VfsFileSystem σ
  dev : Option ℕ
  path : Str
  flags : BitVec 32
  refcnt : ℤ
  root : Option ℕ
  covered : Option ℕ

/-- The lists `fileSystemMountList` and `fileSystemNodeList` and what is on them.  Allocation
`k` succeeds when `memory k` says so. -/
structure Vfs (σ : Type) where
  fsState : σ
  mounts : List ℕ
  mount : ℕ → VfsMount σ
  nodeList : ℕ → List ℕ
  node : ℕ → VfsNode
  allocs : ℕ
  memory : ℕ → Bool

/-! ## Mounts -/

/-- The loop of `CountMatch`: the matched length and the two rests. -/
def matchLoop : Str → Str → ℕ × Str × Str
  | c :: path, d :: mountRoot =>
      if c ≠ d then (0, c :: path, d :: mountRoot)
      else
        let r := matchLoop path mountRoot
        (r.1 + 1, r.2)
  | path, mountRoot => (0, path, mountRoot)

/-- `CountMatch` -/
def countMatch (path mountRoot : Str) : ℕ :=
  let (len, rest, restRoot) := matchLoop path mountRoot
  if restRoot ≠ [] then 0
  else if len = 1 ∧ path.head? = some slash then 1
  else if rest = [] ∨ rest.head? = some slash then len
  else 0

section Nodes

variable {σ : Type}

/-- One round of the loop of `VfsFindRoot`, with the longest match and its mount. -/
def longerMatch (v : Vfs σ) (path : Str) (best : ℕ × Option ℕ) (pos : ℕ) : ℕ × Option ℕ :=
  let len := countMatch path (v.mount pos).path
  if best.1 < len then (len, some pos) else best

/-- `VfsFindRoot`: the mount and the rest of the path. -/
def vfsFindRoot (v : Vfs σ) (path : Str) : Option (ℕ × Str) :=
  let best := v.mounts.foldl (longerMatch v path) (0, none)
  best.2.map fun m => (m, (path.drop best.1).dropWhile (· == slash))

/-! ## Cached nodes -/

/-- `VfsNodeHash`, where a `char` is signed. -/
def vfsNodeHash (m : ℕ) (path : Str) : ℕ :=
  let val : BitVec 32 :=
    path.foldl (fun (val : BitVec 32) c => (val <<< (5 : ℕ)) + val + c.signExtend 32) 0
  ((val ^^^ BitVec.ofNat 32 m) &&& 255).toNat

def Vfs.bucket (v : Vfs σ) (n : ℕ) : ℕ := vfsNodeHash (v.node n).mount (v.node n).path

/-- `NX_MemAlloc` for a node or a mount. -/
def memAlloc (v : Vfs σ) : Option ℕ × Vfs σ :=
  (if v.memory v.allocs then some v.allocs else none, { v with allocs := v.allocs + 1 })

def Vfs.addNodeRef (v : Vfs σ) (n : ℕ) (k : ℤ) : Vfs σ :=
  { v with node := Function.update v.node n { v.node n with refcnt := (v.node n).refcnt + k } }

def Vfs.addMountRef (v : Vfs σ) (m : ℕ) (k : ℤ) : Vfs σ :=
  { v with
    mount := Function.update v.mount m { v.mount m with refcnt := (v.mount m).refcnt + k } }

def Vfs.setInode (v : Vfs σ) (n : ℕ) (inode : VfsInode) : Vfs σ :=
  { v with node := Function.update v.node n { v.node n with inode := inode } }

/-- `NX_ListAdd` of a node that was filled in. -/
def Vfs.addNode (v : Vfs σ) (n : ℕ) (node : VfsNode) : Vfs σ :=
  let hash := vfsNodeHash node.mount node.path
  { v with
    node := Function.update v.node n node
    nodeList := Function.update v.nodeList hash (n :: v.nodeList hash) }

/-- `NX_ListDel` of a node. -/
def Vfs.unlinkNode (v : Vfs σ) (n : ℕ) : Vfs σ :=
  { v with
    nodeList := Function.update v.nodeList (v.bucket n) ((v.nodeList (v.bucket n)).erase n) }

/-- `VfsNodeGet` -/
def vfsNodeGet (v : Vfs σ) (m : ℕ) (path : Str) : Option ℕ × Vfs σ :=
  match memAlloc v with
  | (none, v) => (none, v)
  | (some n, v) =>
      if vfsMaxPath ≤ path.length then (none, v)
      else
        let (err, inode, s) := (v.mount m).fs.vget v.fsState m path
        let v : Vfs σ := { v with fsState := s }
        if err ≠ .eok then (none, v)
        else (some n, (v.addMountRef m 1).addNode n ⟨m, 1, path, inode⟩)

/-- The node that the loop of `VfsNodeLookup` stops at. -/
def Vfs.findNode (v : Vfs σ) (m : ℕ) (path : Str) : Option ℕ :=
  (v.nodeList (vfsNodeHash m path)).find? fun n =>
    (v.node n).mount == m && strEqualN (v.node n).path path vfsMaxPath

/-- `VfsNodeLookup` -/
def vfsNodeLookup (v : Vfs σ) (m : ℕ) (path : Str) : Option ℕ × Vfs σ :=
  match v.findNode m path with
  | none => (none, v)
  | some n => (some n, v.addNodeRef n 1)

/-- `VfsNodePut` -/
def vfsNodePut (v : Vfs σ) (n : ℕ) : Vfs σ :=
  let v := v.addNodeRef n (-1)
  if (v.node n).refcnt ≠ 0 then v
  else
    let m := (v.node n).mount
    let v := v.unlinkNode n
    ({ v with fsState := (v.mount m).fs.vput v.fsState (v.node n) } : Vfs σ).addMountRef m (-1)

/-- The rounds of the loop of `VfsNodeRelease`. -/
def releaseParents : ℕ → Vfs σ → ℕ → Str → Vfs σ
  | 0, v, _, _ => v
  | rounds + 1, v, m, path =>
      match cutAtSlash path with
      | none => v
      | some path =>
          if path = [] then v
          else
            match vfsNodeLookup v m path with
            | (none, v) => releaseParents rounds v m path
            | (some n, v) => releaseParents rounds (vfsNodePut (vfsNodePut v n) n) m path

/-- `VfsNodePut(m->root)` -/
def putRoot (v : Vfs σ) (m : ℕ) : Vfs σ :=
  match (v.mount m).root with
  | none => v
  | some root => vfsNodePut v root

/-- `VfsNodeRelease`.  Each round of its loop cuts the path, so its length bounds them. -/
def vfsNodeRelease (v : Vfs σ) (n : ℕ) : Vfs σ :=
  let m := (v.node n).mount
  let path := (v.node n).path
  if (v.mount m).root = some n then vfsNodePut v n
  else if vfsMaxPath ≤ path.length then v
  else putRoot (releaseParents path.length (vfsNodePut v n) m path) m

/-- Why `VfsNodeAcquire` returned `-1`. -/
inductive AcquireFailure where
  /-- `VfsFindRoot` found no mount, or one without a root. -/
  | mount
  /-- `VfsNodeGet` failed. -/
  | get
  /-- The file system does not have the component, or a slash follows a component that is
  not a directory. -/
  | lookup
  deriving DecidableEq, Repr

/-- The rounds of the loop of `VfsNodeAcquire`: the node reached, its path, and the components
that are left. -/
def acquireLoop (v : Vfs σ) (m dn : ℕ) (path : Str) :
    List Token → Except AcquireFailure ℕ × Vfs σ
  | [] => (.ok dn, v)
  | token :: rest =>
      let path := path ++ slash :: token.name
      match vfsNodeLookup v m path with
      | (some n, v) => acquireLoop v m n path rest
      | (none, v) =>
          match vfsNodeGet v m path with
          | (none, v) => (.error .get, vfsNodePut v dn)
          | (some n, v) =>
              let fs := (v.mount (v.node dn).mount).fs
              let (err, inode, s) := fs.lookup v.fsState (v.node dn) token.name (v.node n)
              let v := ({ v with fsState := s } : Vfs σ).setInode n inode
              if err ≠ .eok ∨ (token.followed = true ∧ inode.type ≠ .dir) then
                (.error .lookup, vfsNodeRelease v n)
              else acquireLoop v m n path rest

/-- `VfsNodeAcquire` -/
def vfsNodeAcquire (v : Vfs σ) (path : Str) : Except AcquireFailure ℕ × Vfs σ :=
  match vfsFindRoot v path with
  | none => (.error .mount, v)
  | some (m, p) =>
      match (v.mount m).root with
      | none => (.error .mount, v)
      | some root => acquireLoop (v.addNodeRef root 1) m root [] (tokens p)

end Nodes

end Nxos.Fs
