import Nxos.Fs.Cpio.Model
import Nxos.Fs.Vfs.Busy
import Nxos.Fs.Vfs.Rename

/-!
# Calls on paths

The embedding of `NX_VfsMakeDir`, `NX_VfsRemoveDir`, `NX_VfsUnlink`, `NX_VfsAccess`, `NX_VfsChmod`,
`NX_VfsStat` and `NX_VfsFileChmod`, from the absolute path that `NX_VfsBuildAbsPath` has built.
Each is one step here, and gives back every node that it acquires.

`VfsNodeGet` leaves the flags of a node as its memory was, and mounting marks the root.
-/

namespace Nxos.Fs

open Logged

variable {σ : Type}

/-! ## Data -/

/-- The functions of `NX_VfsFileSystem` that only calls on paths and directories use. -/
structure VfsDirFunctions (σ : Type) where
  readdir : σ → VfsNode → BitVec 64 → NxError × VfsDirent × σ
  remove : σ → VfsNode → VfsNode → Str → NxError × σ
  rename : σ → VfsNode → Str → VfsNode → VfsNode → Str → NxError × σ
  mkdir : σ → VfsNode → Str → BitVec 32 → NxError × σ
  rmdir : σ → VfsNode → VfsNode → Str → NxError × σ
  chmod : σ → VfsNode → BitVec 32 → NxError × VfsInode × σ

/-- `NX_VFS_S_IRWXU | NX_VFS_S_IRWXG | NX_VFS_S_IRWXO` -/
def sRwx : BitVec 32 := sRead ||| sWrite ||| sExec

/-- The file type of a mode, which `VfsNodeStat` adds. -/
def VfsNodeType.mode : VfsNodeType → Option (BitVec 32)
  | .unk => none
  | .dir => some sIfdir
  | .chr => some (1 <<< 17)
  | .blk => some (1 <<< 18)
  | .reg => some sIfreg
  | .lnk => some (1 <<< 20)
  | .fifo => some (1 <<< 21)
  | .sock => some (1 <<< 22)

/-- `NX_VfsStatInfo`.  Size, times and device are one value here. -/
structure VfsStatInfo where
  ino : ℕ
  mode : BitVec 32
  data : ℕ
  deriving DecidableEq

/-- A directory, a name in it, and the node of the name. -/
structure DirEntry where
  dn : ℕ
  name : Str
  n : ℕ
  deriving DecidableEq

section Calls

-- The functions of the file systems of the mounts, and the nodes whose memory held
-- `NX_VFS_NODE_FLAG_ROOT` when they were allocated.
variable (ops : ℕ → VfsDirFunctions σ) (flagged : ℕ → Bool)

/-! ## Nodes -/

/-- `VfsNodeStat` -/
def vfsNodeStat (v : Vfs σ) (n : ℕ) : Except NxError VfsStatInfo :=
  let inode := (v.node n).inode
  match inode.type.mode with
  | none => .error .enores
  | some type => .ok ⟨n, inode.mode &&& sRwx ||| type, inode.data⟩

/-- `n->flags == NX_VFS_NODE_FLAG_ROOT` -/
def Vfs.flagRoot (v : Vfs σ) (n : ℕ) : Bool :=
  (v.mount (v.node n).mount).root == some n || flagged n

/-- `sync` of a node, unless the call before it failed. -/
def syncNode (v : Vfs σ) (n : ℕ) (answer : NxError × σ) : NxError × σ :=
  if answer.1 ≠ .eok then answer
  else (v.mount (v.node n).mount).fs.sync answer.2 (v.node n)

/-- `chmod` of a node. -/
def chmodNode (v : Vfs σ) (n : ℕ) (mode : BitVec 32) : NxError × Vfs σ :=
  let (err, inode, s) := (ops (v.node n).mount).chmod v.fsState (v.node n) (mode &&& sRwx)
  (err, ({ v with fsState := s } : Vfs σ).setInode n inode)

/-- `NX_VfsAccess` -/
def vfsAccess (v : Vfs σ) (absPath : Str) (mode : BitVec 32) : NxError × Vfs σ :=
  match vfsNodeAcquire v absPath with
  | (.error _, v) => (.enosrch, v)
  | (.ok n, v) => (if vfsNodeAccess v n mode then .eok else .eperm, vfsNodeRelease v n)

/-- `NX_VfsChmod` -/
def vfsChmod (v : Vfs σ) (absPath : Str) (mode : BitVec 32) : NxError × Vfs σ :=
  match vfsNodeAcquire v absPath with
  | (.error _, v) => (.enosrch, v)
  | (.ok n, v) =>
      let (err, v) := chmodNode ops v n mode
      let (err, s) := syncNode v n (err, v.fsState)
      (err, vfsNodeRelease { v with fsState := s } n)

/-- `NX_VfsStat` -/
def vfsStat (v : Vfs σ) (absPath : Str) : Except NxError VfsStatInfo × Vfs σ :=
  match vfsNodeAcquire v absPath with
  | (.error _, v) => (.error .enosrch, v)
  | (.ok n, v) => (vfsNodeStat v n, vfsNodeRelease v n)

/-- `NX_VfsMakeDir` -/
def vfsMakeDir (v : Vfs σ) (absPath : Str) (mode : BitVec 32) : NxError × Vfs σ :=
  match vfsNodeAcquire v absPath with
  | (.ok n, v) => (.eagain, vfsNodeRelease v n)
  | (.error _, v) =>
      match vfsLookupDir v absPath with
      | (none, v) => (.enosrch, v)
      | (some (dn, name), v) =>
          if vfsNodeAccess v dn wOk = false then (.eperm, vfsNodeRelease v dn)
          else
            let made := (ops (v.node dn).mount).mkdir v.fsState (v.node dn) name
              ((mode &&& ~~~sIfmt) ||| sIfdir)
            let (err, s) := syncNode v dn made
            (err, vfsNodeRelease { v with fsState := s } dn)

/-! ## Removing a node -/

/-- The tests that `NX_VfsUnlink` and `NX_VfsRemoveDir` share, of a node that was acquired. -/
def entryToRemove (v : Vfs σ) (absPath : Str) (n : ℕ) : Except NxError DirEntry × Vfs σ :=
  if v.flagRoot flagged n ∨ 2 ≤ (v.node n).refcnt then (.error .ebusy, vfsNodeRelease v n)
  else if vfsNodeAccess v n wOk = false then (.error .eperm, vfsNodeRelease v n)
  else
    match vfsLookupDir v absPath with
    | (none, v) => (.error .enosrch, vfsNodeRelease v n)
    | (some (dn, name), v) => (.ok ⟨dn, name, n⟩, v)

/-- `NX_VfsUnlink` up to the file system. -/
def unlinkEntry (v : Vfs σ) (absPath : Str) : Except NxError DirEntry × Vfs σ :=
  match vfsNodeAcquire v absPath with
  | (.error _, v) => (.error .enosrch, v)
  | (.ok n, v) =>
      if (v.node n).inode.type = .dir then (.error .enores, vfsNodeRelease v n)
      else entryToRemove flagged v absPath n

/-- `truncate` and `sync` of the node, then `remove` and `sync` of its directory. -/
def unlinkNode (v : Vfs σ) (e : DirEntry) : NxError × Vfs σ :=
  let (err, inode, s) := (v.mount (v.node e.n).mount).fs.truncate v.fsState (v.node e.n)
  let v := ({ v with fsState := s } : Vfs σ).setInode e.n inode
  let (err, s) := syncNode v e.n (err, s)
  if err ≠ .eok then (err, { v with fsState := s })
  else
    let removed := (ops (v.node e.dn).mount).remove s (v.node e.dn) (v.node e.n) e.name
    let (err, s) := syncNode v e.dn removed
    (err, { v with fsState := s })

/-- `NX_VfsUnlink` -/
def vfsUnlink (v : Vfs σ) (absPath : Str) : NxError × Vfs σ :=
  match unlinkEntry flagged v absPath with
  | (.error err, v) => (err, v)
  | (.ok e, v) =>
      let (err, v) := unlinkNode ops v e
      (err, vfsNodeRelease (vfsNodeRelease v e.dn) e.n)

/-! ## Removing a directory -/

/-- The loop of `VfsCheckDirEmpty`: whether it stopped at a name, when it stopped. -/
def readNames (readdir : σ → BitVec 64 → NxError × VfsDirent × σ) :
    ℕ → σ → BitVec 64 → Option Bool × σ
  | 0, s, _ => (none, s)
  | rounds + 1, s, offset =>
      let (err, dir, s) := readdir s offset
      if err ≠ .eok then (some false, s)
      else if dir.name ≠ [dot] ∧ dir.name ≠ [dot, dot] then (some true, s)
      else readNames readdir rounds s (offset + dir.reclen.setWidth 64)

/-- `VfsCheckDirEmpty`, which a file system can keep from its end.  The offset of its descriptor is
the one of the loop. -/
def vfsCheckDirEmpty (s : FileSystems σ) (ft : ℕ) (absPath : Str) (rounds : ℕ) :
    Option NxError × FileSystems σ :=
  match vfsOpenDir s ft absPath with
  | (.error err, s) => (some err, s)
  | (.ok fd, s) =>
      match (s.file ft fd).node with
      | none => (some .eok, (vfsCloseDir s ft fd).2)
      | some n =>
          let node := s.vfs.node n
          let (found, state) :=
            readNames (fun state => (ops node.mount).readdir state node) rounds s.vfs.fsState 0
          let s : FileSystems σ := { s with vfs := { s.vfs with fsState := state } }
          match found with
          | none => (none, s)
          | some found => (some (if found then .eagain else .eok), (vfsCloseDir s ft fd).2)

/-- `NX_VfsRemoveDir` up to the file system. -/
def removeDirEntry (s : FileSystems σ) (ft : ℕ) (absPath : Str) (rounds : ℕ) :
    Option (Except NxError DirEntry) × FileSystems σ :=
  match vfsCheckDirEmpty ops s ft absPath rounds with
  | (none, s) => (none, s)
  | (some err, s) =>
      if err ≠ .eok then (some (.error err), s)
      else
        match vfsNodeAcquire s.vfs absPath with
        | (.error _, v) => (some (.error .enores), { s with vfs := v })
        | (.ok n, v) =>
            let (result, v) := entryToRemove flagged v absPath n
            (some result, { s with vfs := v })

/-- `rmdir`, then `sync` of the node and of its directory. -/
def removeDirNode (v : Vfs σ) (e : DirEntry) : NxError × Vfs σ :=
  let removed := (ops (v.node e.dn).mount).rmdir v.fsState (v.node e.dn) (v.node e.n) e.name
  let (err, s) := syncNode v e.dn (syncNode v e.n removed)
  (err, { v with fsState := s })

/-- `NX_VfsRemoveDir` -/
def vfsRemoveDir (s : FileSystems σ) (ft : ℕ) (absPath : Str) (rounds : ℕ) :
    Option NxError × FileSystems σ :=
  match removeDirEntry ops flagged s ft absPath rounds with
  | (none, s) => (none, s)
  | (some (.error err), s) => (some err, s)
  | (some (.ok e), s) =>
      let (err, v) := removeDirNode ops s.vfs e
      (some err, { s with vfs := vfsNodeRelease (vfsNodeRelease v e.n) e.dn })

/-! ## Moving a node -/

/-- `NX_VfsRename` behind its tests of the strings.  A call that waits for a lock that it has does
not end, and keeps its nodes. -/
def vfsRenamePaths (v : Vfs σ) (srcAbsPath dstAbsPath : Str) : Option NxError × Vfs σ :=
  match renameNodes v srcAbsPath dstAbsPath with
  | (.error err, v) => (some err, v)
  | (.ok nodes, v) =>
      match (renameLocked (fun m => (ops m).rename) v nodes).result with
      | .error _ => (none, v)
      | .ok (err, v) => (some err, v)

/-! ## Descriptors -/

/-- `NX_VfsFileChmod` of a descriptor that is not negative. -/
def vfsFileChmod (s : FileSystems σ) (ft fd : ℕ) (mode : BitVec 32) : NxError × FileSystems σ :=
  if vfsMaxFd ≤ fd then (.enores, s)
  else
    match (s.file ft fd).node with
    | none => (.efault, s)
    | some n =>
        let (err, v) := chmodNode ops s.vfs n mode
        (err, { s with vfs := v })

end Calls

/-! ## What the calls leave -/

section Frames

variable {ops : ℕ → VfsDirFunctions σ} {flagged : ℕ → Bool} {v w : Vfs σ} {absPath : Str}
  {held : List Acquisition} {a b : Acquisition} {mode : BitVec 32} {n : ℕ} {e : DirEntry}

/-- The nodes change, and the outstanding acquisitions stay those there were. -/
def Vfs.Settled (v w : Vfs σ) (held : List Acquisition) : Prop := v.Frame w ∧ HeldInv w held

theorem Vfs.Settled.of_frame (hframe : v.Frame w) {x : Vfs σ} (hsettled : w.Settled x held) :
    v.Settled x held :=
  ⟨hframe.trans hsettled.1, hsettled.2⟩

theorem HeldInv.settled_release {s : σ} (hinv : HeldInv v (a :: held)) :
    v.Settled (vfsNodeRelease { v with fsState := s } a.node) held :=
  ⟨.trans .fsState .vfsNodeRelease, hinv.fsState.release⟩

theorem HeldInv.acquired (hinv : HeldInv v held) (absPath : Str) :
    match vfsNodeAcquire v absPath with
    | (.ok n, w) => v.Frame w ∧ ∃ a : Acquisition, a.node = n ∧ HeldInv w (a :: held)
    | (.error _, w) => v.Settled w held := by
  have hacquired := hinv.acquire absPath
  have hframe : v.Frame (vfsNodeAcquire v absPath).2 := .vfsNodeAcquire
  rcases hresult : vfsNodeAcquire v absPath with ⟨failure | n, w⟩ <;>
    rw [hresult] at hacquired hframe
  · exact ⟨hframe, hacquired⟩
  · exact ⟨hframe, hacquired⟩

variable (ops) in
theorem chmodNode_eq (v : Vfs σ) (n : ℕ) (mode : BitVec 32) : ∃ s inode,
    (chmodNode ops v n mode).2 = ({ v with fsState := s } : Vfs σ).setInode n inode :=
  ⟨_, _, rfl⟩

/-- `NX_VfsAccess` gives back what it acquires. -/
theorem HeldInv.vfsAccess (hinv : HeldInv v held) :
    v.Settled (vfsAccess v absPath mode).2 held := by
  unfold Fs.vfsAccess
  have hacquired := hinv.acquired absPath
  rcases hresult : vfsNodeAcquire v absPath with ⟨failure | n, w⟩ <;> rw [hresult] at hacquired
  · exact hacquired
  · obtain ⟨hframe, a, rfl, ha⟩ := hacquired
    exact ⟨hframe.trans .vfsNodeRelease, ha.release⟩

/-- So does `NX_VfsStat`. -/
theorem HeldInv.vfsStat (hinv : HeldInv v held) : v.Settled (vfsStat v absPath).2 held := by
  unfold Fs.vfsStat
  have hacquired := hinv.acquired absPath
  rcases hresult : vfsNodeAcquire v absPath with ⟨failure | n, w⟩ <;> rw [hresult] at hacquired
  · exact hacquired
  · obtain ⟨hframe, a, rfl, ha⟩ := hacquired
    exact ⟨hframe.trans .vfsNodeRelease, ha.release⟩

/-- So does `NX_VfsChmod`. -/
theorem HeldInv.vfsChmod (hinv : HeldInv v held) :
    v.Settled (vfsChmod ops v absPath mode).2 held := by
  unfold Fs.vfsChmod
  have hacquired := hinv.acquired absPath
  rcases hresult : vfsNodeAcquire v absPath with ⟨failure | n, w⟩ <;> rw [hresult] at hacquired
  · exact hacquired
  · obtain ⟨hframe, a, rfl, ha⟩ := hacquired
    obtain ⟨s, inode, hchmod⟩ := chmodNode_eq ops w a.node mode
    have hchanged : HeldInv (chmodNode ops w a.node mode).2 (a :: held) := by
      rw [hchmod]
      exact ha.fsState.setInode
    have hframe' : w.Frame (chmodNode ops w a.node mode).2 := by
      rw [hchmod]
      exact .trans .fsState .setInode
    exact (hchanged.settled_release).of_frame (hframe.trans hframe')

/-- So does `NX_VfsMakeDir`. -/
theorem HeldInv.vfsMakeDir (hinv : HeldInv v held) :
    v.Settled (vfsMakeDir ops v absPath mode).2 held := by
  unfold Fs.vfsMakeDir
  have hacquired := hinv.acquired absPath
  rcases hresult : vfsNodeAcquire v absPath with ⟨failure | n, w⟩ <;> rw [hresult] at hacquired
  · have hdir := HeldInv.vfsLookupDir hacquired.2 absPath
    simp only
    rcases hlookup : Fs.vfsLookupDir w absPath with ⟨_ | ⟨dn, name⟩, x⟩ <;> rw [hlookup] at hdir
    · exact ⟨hacquired.1.trans hdir.1, hdir.2⟩
    · obtain ⟨hframe, a, rfl, ha⟩ := hdir
      simp only
      split
      · exact ⟨(hacquired.1.trans hframe).trans .vfsNodeRelease, ha.release⟩
      · exact ha.settled_release.of_frame (hacquired.1.trans hframe)
  · obtain ⟨hframe, a, rfl, ha⟩ := hacquired
    exact ⟨hframe.trans .vfsNodeRelease, ha.release⟩

/-- The tests leave an acquisition of the node and one of its directory, or neither. -/
def Vfs.FindsEntry (v : Vfs σ) (held : List Acquisition) :
    Except NxError DirEntry × Vfs σ → Prop
  | (.error _, w) => v.Settled w held
  | (.ok e, w) => v.Frame w ∧
      ∃ a b : Acquisition, a.node = e.n ∧ b.node = e.dn ∧ HeldInv w (b :: a :: held)

theorem Vfs.FindsEntry.of_frame {r : Except NxError DirEntry × Vfs σ} (hframe : v.Frame w)
    (hfinds : w.FindsEntry held r) : v.FindsEntry held r := by
  rcases r with ⟨err | e, x⟩
  · exact Vfs.Settled.of_frame hframe hfinds
  · exact ⟨hframe.trans hfinds.1, hfinds.2⟩

theorem HeldInv.entryToRemove (hinv : HeldInv v (a :: held)) :
    v.FindsEntry held (entryToRemove flagged v absPath a.node) := by
  have hreleased : v.Settled (vfsNodeRelease v a.node) held := ⟨.vfsNodeRelease, hinv.release⟩
  unfold Fs.entryToRemove
  split
  · exact hreleased
  · split
    · exact hreleased
    · have hdir := hinv.vfsLookupDir absPath
      rcases hlookup : Fs.vfsLookupDir v absPath with ⟨_ | ⟨dn, name⟩, x⟩ <;> rw [hlookup] at hdir
      · exact ⟨hdir.1.trans .vfsNodeRelease, HeldInv.release hdir.2⟩
      · obtain ⟨hframe, b, hb, hheld⟩ := hdir
        exact ⟨hframe, a, b, rfl, hb, hheld⟩

theorem HeldInv.unlinkEntry (hinv : HeldInv v held) :
    v.FindsEntry held (unlinkEntry flagged v absPath) := by
  unfold Fs.unlinkEntry
  have hacquired := hinv.acquired absPath
  rcases hresult : vfsNodeAcquire v absPath with ⟨failure | n, w⟩ <;> rw [hresult] at hacquired
  · exact hacquired
  · obtain ⟨hframe, a, rfl, ha⟩ := hacquired
    simp only
    split
    · exact ⟨hframe.trans .vfsNodeRelease, ha.release⟩
    · exact ha.entryToRemove.of_frame hframe

variable (ops) in
theorem unlinkNode_eq (v : Vfs σ) (e : DirEntry) : ∃ s inode t, (unlinkNode ops v e).2 =
    { ({ v with fsState := s } : Vfs σ).setInode e.n inode with fsState := t } := by
  unfold unlinkNode
  simp only
  split
  · exact ⟨_, _, _, rfl⟩
  · exact ⟨_, _, _, rfl⟩

/-- `NX_VfsUnlink` gives back the node and its directory. -/
theorem HeldInv.vfsUnlink (hinv : HeldInv v held) :
    v.Settled (vfsUnlink ops flagged v absPath).2 held := by
  unfold Fs.vfsUnlink
  have hentry : v.FindsEntry held (Fs.unlinkEntry flagged v absPath) := hinv.unlinkEntry
  rcases hresult : Fs.unlinkEntry flagged v absPath with ⟨err | e, w⟩ <;> rw [hresult] at hentry
  · exact hentry
  · obtain ⟨hframe, a, b, hn, hdn, hheld⟩ := hentry
    obtain ⟨s, inode, t, hunlink⟩ := unlinkNode_eq ops w e
    have hchanged : HeldInv (unlinkNode ops w e).2 (b :: a :: held) := by
      rw [hunlink]
      exact hheld.fsState.setInode.fsState
    have hframe' : w.Frame (unlinkNode ops w e).2 := by
      rw [hunlink]
      exact .trans (.trans .fsState .setInode) .fsState
    simp only
    rw [← hn, ← hdn]
    exact ⟨(hframe.trans hframe').trans (.trans .vfsNodeRelease .vfsNodeRelease),
      hchanged.release.release⟩

theorem HeldInv.forget (hinv : HeldInv v (a :: held)) : HeldInv v held := by
  obtain ⟨leaked, hleaked⟩ := hinv
  exact ⟨leaked ++ [a], by rwa [List.append_assoc]⟩

/-- The tests of `NX_VfsRename` leave the acquisitions of its three nodes, or none. -/
theorem HeldInv.renameNodes (hinv : HeldInv v held) (src dst : Str) :
    match renameNodes v src dst with
    | (.error _, w) => v.Settled w held
    | (.ok nodes, w) => v.Frame w ∧ ∃ a b c : Acquisition, a.node = nodes.n1 ∧ b.node = nodes.sn ∧
        c.node = nodes.dn ∧ HeldInv w (c :: b :: a :: held) := by
  unfold Fs.renameNodes
  have hsrc := hinv.acquired src
  rcases hresult : vfsNodeAcquire v src with ⟨failure | n, v₁⟩ <;> rw [hresult] at hsrc
  · exact hsrc
  obtain ⟨hframe₁, a, rfl, ha⟩ := hsrc
  simp only
  split_ifs
  · exact ⟨hframe₁.trans .vfsNodeRelease, ha.release⟩
  · exact ⟨hframe₁.trans .vfsNodeRelease, ha.release⟩
  have hdir := ha.vfsLookupDir src
  rcases hlookup : Fs.vfsLookupDir v₁ src with ⟨_ | ⟨sn, sname⟩, v₂⟩ <;> rw [hlookup] at hdir
  · exact ⟨hframe₁.trans (hdir.1.trans .vfsNodeRelease), HeldInv.release hdir.2⟩
  obtain ⟨hframe₂, b, rfl, hb⟩ := hdir
  have hdst := hb.acquired dst
  simp only
  rcases hresult' : vfsNodeAcquire v₂ dst with ⟨failure | n2, v₃⟩ <;> rw [hresult'] at hdst
  · have hdir' := HeldInv.vfsLookupDir hdst.2 dst
    have hframe₃ := (hframe₁.trans hframe₂).trans hdst.1
    simp only
    rcases hlookup' : Fs.vfsLookupDir v₃ dst with ⟨_ | ⟨dn, dname⟩, v₄⟩ <;> rw [hlookup'] at hdir'
    · exact ⟨hframe₃.trans (hdir'.1.trans (.trans .vfsNodeRelease .vfsNodeRelease)),
        (HeldInv.release hdir'.2).release⟩
    · obtain ⟨hframe₄, c, rfl, hc⟩ := hdir'
      simp only
      by_cases hmount : (v₄.node b.node).mount ≠ (v₄.node c.node).mount
      · rw [if_pos hmount]
        exact ⟨(hframe₃.trans hframe₄).trans
          (.trans .vfsNodeRelease (.trans .vfsNodeRelease .vfsNodeRelease)),
          hc.release.release.release⟩
      · rw [if_neg hmount]
        exact ⟨hframe₃.trans hframe₄, a, b, c, rfl, rfl, rfl, hc⟩
  · obtain ⟨hframe₃, c, rfl, hc⟩ := hdst
    exact ⟨((hframe₁.trans hframe₂).trans hframe₃).trans
      (.trans .vfsNodeRelease (.trans .vfsNodeRelease .vfsNodeRelease)), hc.release.release.release⟩

/-- A call that gets its locks calls the file system and releases its nodes. -/
theorem renameLocked_ok {rename : FsRename σ} {nodes : RenameNodes} {err : NxError}
    (hresult : (renameLocked rename v nodes).result = .ok (err, w)) :
    ∃ s, w = vfsNodeRelease (vfsNodeRelease (vfsNodeRelease { v with fsState := s } nodes.dn)
      nodes.sn) nodes.n1 := by
  unfold renameLocked at hresult
  by_cases hne : nodes.dn ≠ nodes.sn
  · simp only [if_pos hne, result_bind_eq_ok_iff, result_pure, Except.ok.injEq] at hresult
    obtain ⟨-, -, -, -, -, -, -, -, -, -, -, -, -, -, hresult⟩ := hresult
    exact ⟨_, (Prod.ext_iff.mp hresult).2.symm⟩
  · simp only [if_neg hne, result_bind_eq_ok_iff, result_pure, Except.ok.injEq] at hresult
    obtain ⟨-, -, -, -, -, -, -, -, -, -, hresult⟩ := hresult
    exact ⟨_, (Prod.ext_iff.mp hresult).2.symm⟩

/-- `NX_VfsRename` gives back its nodes, unless it does not end. -/
theorem HeldInv.vfsRenamePaths {src dst : Str} (hinv : HeldInv v held) :
    v.Settled (vfsRenamePaths ops v src dst).2 held := by
  unfold Fs.vfsRenamePaths
  have hnodes := hinv.renameNodes src dst
  rcases hresult : Fs.renameNodes v src dst with ⟨err | nodes, w⟩ <;> rw [hresult] at hnodes
  · exact hnodes
  · obtain ⟨hframe, a, b, c, hn1, hsn, hdn, hheld⟩ := hnodes
    simp only
    rcases hlocked : (renameLocked (fun m => (ops m).rename) w nodes).result with
      fault | ⟨err, x⟩
    · exact ⟨hframe, hheld.forget.forget.forget⟩
    · obtain ⟨s, rfl⟩ := renameLocked_ok hlocked
      rw [← hn1, ← hsn, ← hdn]
      exact ⟨hframe.trans (.trans (.trans .fsState .vfsNodeRelease)
        (.trans .vfsNodeRelease .vfsNodeRelease)), hheld.fsState.release.release.release⟩

end Frames

/-! ## Descriptors and covered directories -/

/-- A call leaves the mounts, and an acquisition for every descriptor and covered directory. -/
def FileSystems.Kept (s t : FileSystems σ) : Prop :=
  s.vfs.Frame t.vfs ∧ ∃ held, FileInv t held

theorem FileSystems.Kept.trans {s t u : FileSystems σ} (hkept : s.Kept t) (hkept' : t.Kept u) :
    s.Kept u :=
  ⟨hkept.1.trans hkept'.1, hkept'.2⟩

@[simp] theorem vfsFileFree_vfs {s : FileSystems σ} {ft fd : ℕ} :
    (vfsFileFree s ft fd).vfs = s.vfs := by
  unfold vfsFileFree
  split <;> rfl

namespace FileInv

variable {ops : ℕ → VfsDirFunctions σ} {flagged : ℕ → Bool} {s : FileSystems σ} {v : Vfs σ}
  {held : List (Owner × Acquisition)} {absPath : Str}

theorem kept_refl (hinv : FileInv s held) : s.Kept s := ⟨.refl _, held, hinv⟩

theorem of_settled (hinv : FileInv s held) (hsettled : s.vfs.Settled v (held.map Prod.snd)) :
    FileInv { s with vfs := v } held :=
  hinv.of_frame hsettled.1 hsettled.2 fun _ he => he

theorem kept_of_settled (hinv : FileInv s held)
    (hsettled : s.vfs.Settled v (held.map Prod.snd)) : s.Kept { s with vfs := v } :=
  ⟨hsettled.1, held, hinv.of_settled hsettled⟩

theorem kept_vfsOpen (hinv : FileInv s held) (ft : ℕ) (absPath : Str) (flags mode : BitVec 32) :
    s.Kept (Fs.vfsOpen s ft absPath flags mode).2 := by
  refine ⟨?_, hinv.vfsOpen ft absPath flags mode⟩
  unfold Fs.vfsOpen
  split
  · exact .refl _
  · have hopened : Opened s.vfs (held.map Prod.snd) (openNode s.vfs absPath flags mode) :=
      hinv.inv.openNode
    rcases hresult : openNode s.vfs absPath flags mode with ⟨err | ⟨n, flags'⟩, v⟩ <;>
      rw [hresult] at hopened
    · exact hopened.1
    · simp only
      cases vfsFileAlloc (s.file ft) with
      | none => exact hopened.1.trans .vfsNodeRelease
      | some fd => exact hopened.1

theorem kept_vfsClose (hinv : FileInv s held) (ft fd : ℕ) : s.Kept (Fs.vfsClose s ft fd).2 := by
  refine ⟨?_, hinv.vfsClose ft fd⟩
  rcases vfsClose_cases s ft fd with heq | ⟨n, state, -, heq | heq⟩ <;> rw [heq]
  · exact .refl _
  · exact .fsState
  · rw [vfsFileFree_vfs]
    exact .trans .fsState .vfsNodeRelease

theorem kept_vfsCloseDir (hinv : FileInv s held) (ft fd : ℕ) :
    s.Kept (Fs.vfsCloseDir s ft fd).2 := by
  unfold Fs.vfsCloseDir
  split
  · exact hinv.kept_refl
  · split
    · exact hinv.kept_refl
    · split
      · exact hinv.kept_refl
      · exact hinv.kept_vfsClose ft fd

theorem kept_vfsOpenDir (hinv : FileInv s held) (ft : ℕ) (absPath : Str) :
    s.Kept (Fs.vfsOpenDir s ft absPath).2 := by
  unfold Fs.vfsOpenDir
  have hopened := hinv.kept_vfsOpen ft absPath oRdonly 0
  rcases hresult : Fs.vfsOpen s ft absPath oRdonly 0 with ⟨err | fd, t⟩ <;>
    rw [hresult] at hopened
  · exact hopened
  · obtain ⟨-, held', hopen⟩ := id hopened
    simp only
    split
    · exact hopened
    · split
      · exact hopened.trans (hopen.kept_vfsClose ft fd)
      · exact hopened

variable (ops) in
/-- `VfsCheckDirEmpty` opens the directory and closes it again. -/
theorem kept_vfsCheckDirEmpty (hinv : FileInv s held) (ft : ℕ) (absPath : Str) (rounds : ℕ) :
    s.Kept (vfsCheckDirEmpty ops s ft absPath rounds).2 := by
  unfold Fs.vfsCheckDirEmpty
  have hopened := hinv.kept_vfsOpenDir ft absPath
  rcases hresult : Fs.vfsOpenDir s ft absPath with ⟨err | fd, t⟩ <;> rw [hresult] at hopened
  · exact hopened
  · obtain ⟨-, held', hopen⟩ := id hopened
    simp only
    split
    · exact hopened.trans (hopen.kept_vfsCloseDir ft fd)
    · next n _ =>
      have hread : ∀ state, FileInv { t with vfs := { t.vfs with fsState := state } } held' :=
        fun state => hopen.of_settled ⟨.fsState, hopen.inv.fsState⟩
      have hstate : ∀ state, s.Kept { t with vfs := { t.vfs with fsState := state } } :=
        fun state => hopened.trans ⟨.fsState, held', hread state⟩
      split
      · exact hstate _
      · exact (hstate _).trans ((hread _).kept_vfsCloseDir ft fd)

variable (ops flagged) in
/-- The tests of `NX_VfsRemoveDir` leave an acquisition of the node and one of its directory, or
neither. -/
theorem removeDirEntry (hinv : FileInv s held) (ft : ℕ) (absPath : Str) (rounds : ℕ) :
    match removeDirEntry ops flagged s ft absPath rounds with
    | (some (.ok e), t) => s.vfs.Frame t.vfs ∧ ∃ held', ∃ a b : Acquisition, FileInv t held' ∧
        a.node = e.n ∧ b.node = e.dn ∧ HeldInv t.vfs (b :: a :: held'.map Prod.snd)
    | (_, t) => s.Kept t := by
  unfold Fs.removeDirEntry
  have hchecked := hinv.kept_vfsCheckDirEmpty ops ft absPath rounds
  rcases hresult : Fs.vfsCheckDirEmpty ops s ft absPath rounds with ⟨_ | err, t⟩ <;>
    rw [hresult] at hchecked
  · exact hchecked
  · by_cases herr : err ≠ .eok
    · simp only [if_pos herr]
      exact hchecked
    · obtain ⟨hframe, held', hfile⟩ := id hchecked
      simp only [if_neg herr]
      have hacquired := hfile.inv.acquired absPath
      rcases hnode : vfsNodeAcquire t.vfs absPath with ⟨failure | n, w⟩ <;>
        rw [hnode] at hacquired
      · exact hchecked.trans (hfile.kept_of_settled hacquired)
      · obtain ⟨hframe', a, rfl, ha⟩ := hacquired
        have hentry : t.vfs.FindsEntry (held'.map Prod.snd)
            (entryToRemove flagged w absPath a.node) := ha.entryToRemove.of_frame hframe'
        simp only
        rcases hfound : entryToRemove flagged w absPath a.node with ⟨err | e, x⟩ <;>
          rw [hfound] at hentry
        · exact hchecked.trans (hfile.kept_of_settled hentry)
        · obtain ⟨hframe'', a, b, hn, hdn, hheld⟩ := hentry
          exact ⟨hframe.trans hframe'', held', a, b,
            hfile.of_settled ⟨hframe'', hheld.forget.forget⟩, hn, hdn, hheld⟩

/-- `NX_VfsRemoveDir` gives back the node and its directory. -/
theorem kept_vfsRemoveDir (hinv : FileInv s held) (ft : ℕ) (absPath : Str) (rounds : ℕ) :
    s.Kept (vfsRemoveDir ops flagged s ft absPath rounds).2 := by
  unfold Fs.vfsRemoveDir
  have hentry := hinv.removeDirEntry ops flagged ft absPath rounds
  rcases hresult : Fs.removeDirEntry ops flagged s ft absPath rounds with ⟨_ | err | e, t⟩ <;>
    rw [hresult] at hentry
  · exact hentry
  · exact hentry
  · obtain ⟨hframe, held', a, b, hfile, hn, hdn, hheld⟩ := hentry
    have hreleased : t.vfs.Settled (vfsNodeRelease (vfsNodeRelease
        (removeDirNode ops t.vfs e).2 e.n) e.dn) (held'.map Prod.snd) := by
      rw [← hn, ← hdn]
      exact ⟨.trans .fsState (.trans .vfsNodeRelease .vfsNodeRelease),
        (hheld.perm (.swap a b _)).fsState.release.release⟩
    exact ⟨hframe.trans hreleased.1, held', hfile.of_settled hreleased⟩

/-- `NX_VfsFileChmod` changes a node. -/
theorem kept_vfsFileChmod (hinv : FileInv s held) (ft fd : ℕ) (mode : BitVec 32) :
    s.Kept (vfsFileChmod ops s ft fd mode).2 := by
  unfold Fs.vfsFileChmod
  split
  · exact hinv.kept_refl
  · split
    · exact hinv.kept_refl
    · next n _ =>
      obtain ⟨state, inode, hchmod⟩ := chmodNode_eq ops s.vfs n mode
      simp only [hchmod]
      exact hinv.kept_of_settled ⟨.trans .fsState .setInode, hinv.inv.fsState.setInode⟩

end FileInv

end Nxos.Fs
