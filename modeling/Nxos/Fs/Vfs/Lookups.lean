import Nxos.Fs.Vfs.Busy

/-!
# What the node cache answers for the file system

In a mount whose lookup is a fixed function, every cached node carries what the lookups along
its path give.  An acquisition asks the file system only for the components that are not cached,
and only these are checked to be directories where a slash follows.
-/

namespace Nxos.Fs

variable {σ : Type}

/-! ## Fixed lookups -/

/-- A lookup that depends on the directory and the name only, and for which paths a node can be
had. -/
structure FixedFs where
  vget : Str → Bool
  lookup : Str → VfsInode → Str → Option VfsInode

/-- The functions of a file system are the fixed ones, whatever its state. -/
structure VfsFileSystem.Fixed (fs : VfsFileSystem σ) (fixed : FixedFs) : Prop where
  vget : ∀ s m path, (fs.vget s m path).1 = .eok ↔ fixed.vget path = true
  found : ∀ s dn name n inode, fixed.lookup dn.path dn.inode name = some inode →
    (fs.lookup s dn name n).1 = .eok ∧ (fs.lookup s dn name n).2.1 = inode
  missing : ∀ s dn name n, fixed.lookup dn.path dn.inode name = none →
    (fs.lookup s dn name n).1 ≠ .eok

def resolveBack (fixed : FixedFs) (root : VfsInode) : List Str → Option VfsInode
  | [] => some root
  | name :: parents =>
      (resolveBack fixed root parents).bind fun inode =>
        fixed.lookup (dirPath parents.reverse) inode name

/-- What the lookups along a chain of components give, from the root of the mount. -/
def resolve (fixed : FixedFs) (root : VfsInode) (names : List Str) : Option VfsInode :=
  resolveBack fixed root names.reverse

@[simp] theorem resolve_nil (fixed : FixedFs) (root : VfsInode) :
    resolve fixed root [] = some root := rfl

theorem resolve_concat (fixed : FixedFs) (root : VfsInode) (names : List Str) (name : Str) :
    resolve fixed root (names ++ [name]) =
      (resolve fixed root names).bind fun inode => fixed.lookup (dirPath names) inode name := by
  simp [resolve, resolveBack]

/-- Every cached node of a mount with a fixed lookup is what the lookups give. -/
def Vfs.Resolved (v : Vfs σ) (m : ℕ) : Prop :=
  ∀ fixed, (v.mount m).fs.Fixed fixed → ∀ r names n,
    v.NodeAt m [slash] r → (∀ name ∈ names, NameOk name) → v.NodeAt m (dirPath names) n →
      resolve fixed (v.node r).inode names = some (v.node n).inode

def InodeInv (v : Vfs σ) : Prop := ∀ m ∈ v.mounts, v.Resolved m

/-! ## What an operation keeps -/

/-- The file system of a mount is the same, and its cached nodes were cached before, with the
same contents. -/
structure Vfs.Keeps (v w : Vfs σ) (m : ℕ) : Prop where
  fs : (w.mount m).fs = (v.mount m).fs
  node : ∀ n, w.Cached n → (w.node n).mount = m → v.Cached n ∧ (v.node n).mount = m ∧
    (v.node n).path = (w.node n).path ∧ (v.node n).inode = (w.node n).inode

namespace Vfs.Keeps

variable {v w x : Vfs σ} {m m' n : ℕ}

theorem refl (v : Vfs σ) (m : ℕ) : v.Keeps v m :=
  ⟨rfl, fun _ hcached hmount => ⟨hcached, hmount, rfl, rfl⟩⟩

theorem trans (hkeeps : v.Keeps w m) (hkeeps' : w.Keeps x m) : v.Keeps x m := by
  refine ⟨hkeeps'.fs.trans hkeeps.fs, fun n hcached hmount => ?_⟩
  obtain ⟨hw, hwmount, hwpath, hwinode⟩ := hkeeps'.node n hcached hmount
  obtain ⟨hv, hvmount, hvpath, hvinode⟩ := hkeeps.node n hw hwmount
  exact ⟨hv, hvmount, hvpath.trans hwpath, hvinode.trans hwinode⟩

theorem nodeAt {path : Str} (hkeeps : v.Keeps w m) (hat : w.NodeAt m path n) :
    v.NodeAt m path n ∧ (v.node n).inode = (w.node n).inode := by
  obtain ⟨hcached, hmount, hpath, hinode⟩ := hkeeps.node n hat.cached hat.mount
  exact ⟨⟨hcached, hmount, hpath.trans hat.path⟩, hinode⟩

theorem of_same (hfs : (w.mount m).fs = (v.mount m).fs) (hlist : w.nodeList = v.nodeList)
    (hmount : ∀ n, (w.node n).mount = (v.node n).mount)
    (hpath : ∀ n, (w.node n).path = (v.node n).path)
    (hinode : ∀ n, (w.node n).mount = m → (w.node n).inode = (v.node n).inode) :
    v.Keeps w m := by
  refine ⟨hfs, fun n hcached hm => ?_⟩
  have hbucket : w.bucket n = v.bucket n := by
    rw [Vfs.bucket, Vfs.bucket, hmount, hpath]
  rw [Vfs.Cached, hbucket, hlist] at hcached
  exact ⟨hcached, (hmount n).symm.trans hm, (hpath n).symm, (hinode n hm).symm⟩

theorem of_nodes (hfs : (w.mount m).fs = (v.mount m).fs) (hlist : w.nodeList = v.nodeList)
    (hnode : w.node = v.node) : v.Keeps w m :=
  of_same hfs hlist (fun _ => by rw [hnode]) (fun _ => by rw [hnode]) fun _ _ => by rw [hnode]

theorem setRoot (hne : m ≠ m') : v.Keeps (v.setRoot m' n) m :=
  of_nodes (by simp [Vfs.setRoot, hne]) rfl rfl

theorem setCovered {covered : Option ℕ} (hne : m ≠ m') : v.Keeps (v.setCovered m' covered) m :=
  of_nodes (by simp [Vfs.setCovered, hne]) rfl rfl

theorem fsState {s : σ} : v.Keeps { v with fsState := s } m := of_nodes rfl rfl rfl

theorem addNodeRef {k : ℤ} : v.Keeps (v.addNodeRef n k) m := by
  refine of_same rfl rfl addNodeRef_agree.nodeMount addNodeRef_agree.nodePath fun x _ => ?_
  by_cases hx : x = n
  · subst hx
    simp [Vfs.addNodeRef]
  · rw [addNodeRef_node_of_ne hx]

theorem setInode {inode : VfsInode} (hother : (v.node n).mount ≠ m) :
    v.Keeps (v.setInode n inode) m := by
  refine of_same rfl rfl setInode_agree.nodeMount setInode_agree.nodePath fun x hx => ?_
  by_cases hxn : x = n
  · subst hxn
    rw [setInode_agree.nodeMount] at hx
    exact absurd hx hother
  · simp [Vfs.setInode, hxn]

theorem dropNode {s : σ} : v.Keeps (v.dropNode n s) m := by
  refine ⟨Vfs.Frame.addMountRef.fs m, fun x hcached hmount => ⟨?_, hmount, rfl, rfl⟩⟩
  change x ∈ (Function.update v.nodeList (v.bucket n) ((v.nodeList (v.bucket n)).erase n))
    (v.bucket x) at hcached
  by_cases hbucket : v.bucket x = v.bucket n
  · rw [hbucket, Function.update_self] at hcached
    rw [Vfs.Cached, hbucket]
    exact List.mem_of_mem_erase hcached
  · rwa [Function.update_of_ne hbucket] at hcached

theorem joinNode {path : Str} {inode : VfsInode} (hfresh : ∀ hash, n ∉ v.nodeList hash)
    (hother : m' ≠ m) : v.Keeps (v.joinNode n m' path inode) m := by
  refine ⟨Vfs.Frame.joinNode.fs m, fun x hcached hmount => ?_⟩
  rcases (CacheInv.cached_joinNode_iff hfresh).mp hcached with rfl | hold
  · rw [CacheInv.joinNode_node_self] at hmount
    exact absurd hmount hother
  · have hne : x ≠ n := fun heq => hfresh _ (heq ▸ hold)
    rw [CacheInv.joinNode_node_of_ne hne] at hmount ⊢
    exact ⟨hold, hmount, rfl, rfl⟩

theorem vfsNodePut : v.Keeps (vfsNodePut v n) m := by
  by_cases hlast : (v.node n).refcnt = 1
  · obtain ⟨s, hs⟩ := vfsNodePut_last hlast
    rw [hs]
    exact addNodeRef.trans dropNode
  · rw [vfsNodePut_of_ne hlast]
    exact addNodeRef

theorem putRoot : v.Keeps (putRoot v m') m := by
  unfold Fs.putRoot
  split
  · exact refl v m
  · exact vfsNodePut

theorem releaseParents {rounds : ℕ} {path : Str} :
    v.Keeps (releaseParents rounds v m' path) m := by
  induction rounds generalizing v path with
  | zero => exact refl v m
  | succ rounds ih =>
      rw [Fs.releaseParents]
      split
      · exact refl v m
      · split
        · exact refl v m
        · unfold vfsNodeLookup
          split
          · next heq =>
            split at heq
            · cases heq
              exact ih
            · cases heq
          · next heq =>
            split at heq
            · cases heq
            · cases heq
              exact ((addNodeRef.trans vfsNodePut).trans vfsNodePut).trans ih

theorem vfsNodeRelease : v.Keeps (vfsNodeRelease v n) m := by
  unfold Fs.vfsNodeRelease
  simp only
  split
  · exact vfsNodePut
  · split
    · exact refl v m
    · exact (vfsNodePut.trans releaseParents).trans putRoot

theorem releaseNode {covered : Option ℕ} : v.Keeps (releaseNode v covered) m := by
  cases covered with
  | none => exact refl v m
  | some n => exact vfsNodeRelease

theorem getNone {path : Str} (hget : vfsNodeGet v m' path = (none, w)) : v.Keeps w m := by
  rcases vfsNodeGet_cases v m' path with ⟨s, hs⟩ | ⟨s, inode, -, hs⟩
  · rw [hs] at hget
    cases hget
    exact of_nodes rfl rfl rfl
  · rw [hs] at hget
    cases hget

/-- `VfsNodeGet` for another mount. -/
theorem getSome {path : Str} (hinv : CacheInv v) (hget : vfsNodeGet v m' path = (some n, w))
    (hother : m' ≠ m) : v.Keeps w m ∧ (w.node n).mount = m' := by
  rcases vfsNodeGet_cases v m' path with ⟨s, hs⟩ | ⟨s, inode, -, hs⟩
  · rw [hs] at hget
    cases hget
  · rw [hs] at hget
    cases hget
    have hstate : v.Keeps { v with fsState := s, allocs := v.allocs + 1 } m := of_nodes rfl rfl rfl
    refine ⟨hstate.trans (joinNode (fun hash hmem => ?_) hother), ?_⟩
    · exact (hinv.listed hash _ hmem).2.ne rfl
    · rw [CacheInv.joinNode_node_self]

end Vfs.Keeps

/-- Cached contents stay right where the nodes of a mount are kept. -/
theorem Vfs.Resolved.of_keeps {v w : Vfs σ} {m : ℕ} (hresolved : v.Resolved m)
    (hkeeps : v.Keeps w m) : w.Resolved m := by
  intro fixed hfixed r names n hr hnames hn
  obtain ⟨hvr, hrinode⟩ := hkeeps.nodeAt hr
  obtain ⟨hvn, hninode⟩ := hkeeps.nodeAt hn
  rw [← hrinode, ← hninode]
  exact hresolved fixed (hkeeps.fs ▸ hfixed) r names n hvr hnames hvn

theorem InodeInv.of_keeps {v w : Vfs σ} (hinodes : InodeInv v) (hmounts : w.mounts = v.mounts)
    (hkeeps : ∀ m, v.Keeps w m) : InodeInv w :=
  fun m hm => (hinodes m (hmounts ▸ hm)).of_keeps (hkeeps m)

/-! ## A node that is created -/

/-- A node has joined with contents, and nothing else has changed. -/
structure Vfs.Filled (v w : Vfs σ) (m : ℕ) (path : Str) (n : ℕ) (inode : VfsInode) : Prop where
  frame : v.Frame w
  allocs : w.allocs = v.allocs + 1
  fresh : ¬v.Cached n
  nodeAt_iff : ∀ m' path' x, w.NodeAt m' path' x ↔
    (x = n ∧ m' = m ∧ path' = path) ∨ v.NodeAt m' path' x
  inode : (w.node n).inode = inode
  other : ∀ x, x ≠ n → w.node x = v.node x

section Creating

variable {v w : Vfs σ} {m n dn : ℕ} {path : Str} {inode : VfsInode} {names : List Str}
  {name : Str} {held : List Acquisition} {fixed : FixedFs}

/-- `VfsNodeGet` and a lookup fill a node in. -/
theorem CacheInv.filled {s : σ} (hinv : CacheInv v)
    (hget : vfsNodeGet v m path = (some n, w)) (inode : VfsInode) :
    v.Filled (({ w with fsState := s } : Vfs σ).setInode n inode) m path n inode := by
  have hfresh : ∀ hash, v.allocs ∉ v.nodeList hash := fun hash hmem =>
    (hinv.listed hash _ hmem).2.ne rfl
  rcases vfsNodeGet_cases v m path with ⟨s', hs⟩ | ⟨s', inode', -, hs⟩
  · rw [hs] at hget
    cases hget
  · have hframe : v.Frame w := by
      have hget' : v.Frame (vfsNodeGet v m path).2 := .vfsNodeGet
      rwa [hget] at hget'
    rw [hs] at hget
    cases hget
    refine ⟨(hframe.trans .fsState).trans .setInode, rfl, hfresh _, fun m' path' x => ?_, ?_,
      fun x hx => ?_⟩
    · have hold : v.Agree { v with fsState := s', allocs := v.allocs + 1 } :=
        agree_fsState (Nat.le_succ _)
      have hnew : (({ v with fsState := s', allocs := v.allocs + 1 } : Vfs σ).joinNode v.allocs m
          path inode').Agree _ := agree_fsState (s := s) (le_refl _)
      rw [setInode_agree.nodeAt_iff, ← hold.nodeAt_iff]
      exact hnew.nodeAt_iff.trans (CacheInv.nodeAt_joinNode_iff hfresh)
    · simp [Vfs.setInode]
    · simp only [Vfs.setInode, Function.update_of_ne hx]
      exact CacheInv.joinNode_node_of_ne hx

theorem VfsFileSystem.Fixed.resolve_found {fs : VfsFileSystem σ} (hfixed : fs.Fixed fixed)
    {root : VfsInode} {s : σ} {d n : VfsNode} (hdir : resolve fixed root names = some d.inode)
    (hpath : d.path = dirPath names) (hok : (fs.lookup s d name n).1 = .eok) :
    resolve fixed root (names ++ [name]) = some (fs.lookup s d name n).2.1 := by
  rw [resolve_concat, hdir, Option.bind_some, ← hpath]
  cases hlookup : fixed.lookup d.path d.inode name with
  | none => exact absurd hok (hfixed.missing s d name n hlookup)
  | some inode => rw [(hfixed.found s d name n inode hlookup).2]

theorem InodeInv.filled (hinodes : InodeInv v)
    (hfilled : v.Filled w m (nodePath (names ++ [name])) n inode)
    (hnames : ∀ x ∈ names ++ [name], NameOk x)
    (hresolve : ∀ fixed, (v.mount m).fs.Fixed fixed → ∀ r, v.NodeAt m [slash] r →
      resolve fixed (v.node r).inode (names ++ [name]) = some inode) : InodeInv w := by
  intro m' hm' fixed hfixed r names' x hr hnames' hx
  rw [hfilled.frame.mounts] at hm'
  rw [hfilled.frame.fs] at hfixed
  have hrold : v.NodeAt m' [slash] r := ((hfilled.nodeAt_iff m' [slash] r).mp hr).resolve_left
    fun hnew => nodePath_ne_root hnames hnew.2.2.symm
  have hrne : r ≠ n := fun heq => hfilled.fresh (heq ▸ hrold.cached)
  rw [hfilled.other r hrne]
  rcases (hfilled.nodeAt_iff m' (dirPath names') x).mp hx with ⟨rfl, rfl, hpath⟩ | hold
  · rw [← dirPath_concat] at hpath
    obtain rfl := dirPath_injective hnames' hnames hpath
    rw [hfilled.inode]
    exact hresolve fixed hfixed r hrold
  · have hxne : x ≠ n := fun heq => hfilled.fresh (heq ▸ hold.cached)
    rw [hfilled.other x hxne]
    exact hinodes m' hm' fixed hfixed r names' x hrold hnames' hold

theorem InodeInv.released {z : Vfs σ} (hinodes : InodeInv v)
    (hfilled : v.Filled w m path n inode) (hframe : w.Frame z) (hkeeps : ∀ m, w.Keeps z m)
    (hgone : ∀ x, ¬z.NodeAt m path x) : InodeInv z := by
  refine hinodes.of_keeps (hframe.mounts.trans hfilled.frame.mounts) fun m' =>
    ⟨(hframe.fs m').trans (hfilled.frame.fs m'), fun x hcached hmount => ?_⟩
  have hat : z.NodeAt m' (z.node x).path x := ⟨hcached, hmount, rfl⟩
  obtain ⟨hw, hwinode⟩ := (hkeeps m').nodeAt hat
  rcases (hfilled.nodeAt_iff m' (z.node x).path x).mp hw with ⟨rfl, rfl, hpath⟩ | hold
  · exact absurd ⟨hcached, hmount, hpath⟩ (hgone x)
  · have hne : x ≠ n := fun heq => hfilled.fresh (heq ▸ hold.cached)
    rw [hfilled.other x hne] at hwinode
    exact ⟨hold.cached, hold.mount, hold.path, hwinode⟩

theorem NodeInv.not_nodeAt_longer (hinv : NodeInv v held) {more : List Str}
    (hok : ChainOk names) (hokMore : ∀ x ∈ names ++ more, NameOk x) (hm : m ∈ v.mounts)
    (hnone : ∀ x, ¬v.NodeAt m (nodePath names) x) (x : ℕ) :
    ¬v.NodeAt m (nodePath (names ++ more)) x := by
  intro hat
  have hne : names ++ more ≠ [] := fun hnil => hok.ne_nil (List.append_eq_nil_iff.mp hnil).1
  have hpos := hinv.prefixCount_pos_of_nodeAt ⟨hne, hokMore⟩ hm hat
  obtain ⟨a, ha, hkey⟩ := List.countP_pos_iff.mp hpos
  simp only [decide_eq_true_eq] at hkey
  obtain ⟨y, hy⟩ := (hinv.anchored a ha).chain names
    ((List.prefix_append names more).trans hkey.2)
  rw [hkey.1, Vfs.NodeOf, if_neg hok.ne_nil] at hy
  exact hnone y hy

end Creating

/-! ## Acquisitions keep the contents -/

section Acquiring

variable {v : Vfs σ} {m dn : ℕ} {names : List Str} {held : List Acquisition} {rest : List Token}
  {absPath : Str}

theorem NodeInv.nodeAt_head (hinv : NodeInv v (⟨m, names, dn⟩ :: held)) :
    v.NodeAt m (dirPath names) dn := by
  have ha := hinv.anchored _ List.mem_cons_self
  exact hinv.nodeAt_of_nodeOf ha.mount ha.node

theorem InodeInv.resolve_head {fixed : FixedFs} {r : ℕ} (hinodes : InodeInv v)
    (hinv : NodeInv v (⟨m, names, dn⟩ :: held)) (hfixed : (v.mount m).fs.Fixed fixed)
    (hr : v.NodeAt m [slash] r) :
    resolve fixed (v.node r).inode names = some (v.node dn).inode := by
  have ha := hinv.anchored _ List.mem_cons_self
  exact hinodes m ha.mount fixed hfixed r names dn hr ha.nameOk hinv.nodeAt_head

theorem NodeInv.getChild_directory {w : Vfs σ} {n : ℕ} {path : Str}
    (hinv : NodeInv v (⟨m, names, dn⟩ :: held)) (hget : vfsNodeGet v m path = (some n, w)) :
    w.node dn = v.node dn ∧ (w.mount (w.node dn).mount).fs = (v.mount m).fs := by
  have hfilled := hinv.toCacheInv.filled (s := w.fsState) hget .blank
  have hdn := hinv.nodeAt_head
  have hne : dn ≠ n := fun heq => hfilled.fresh (heq ▸ hdn.cached)
  have hnode : w.node dn = v.node dn := by
    simpa [Vfs.setInode, hne] using hfilled.other dn hne
  rw [hnode, hdn.mount]
  exact ⟨rfl, hfilled.frame.fs m⟩

theorem InodeInv.lookupChild {w : Vfs σ} {n : ℕ} {name : Str} (hinodes : InodeInv v)
    (hinv : NodeInv v (⟨m, names, dn⟩ :: held)) (hname : NameOk name)
    (hget : vfsNodeGet v m (nodePath (names ++ [name])) = (some n, w)) (s s' : σ) (node : VfsNode)
    (hok : ((w.mount (w.node dn).mount).fs.lookup s (w.node dn) name node).1 = .eok) :
    InodeInv (({ w with fsState := s' } : Vfs σ).setInode n
      ((w.mount (w.node dn).mount).fs.lookup s (w.node dn) name node).2.1) := by
  have ha := hinv.anchored _ List.mem_cons_self
  obtain ⟨hwdn, hfs⟩ := hinv.getChild_directory hget
  refine hinodes.filled (hinv.toCacheInv.filled hget _) (ChainOk.concat ha.nameOk hname).nameOk
    fun fixed hfixed r hr => ?_
  rw [hfs, hwdn] at hok ⊢
  exact hfixed.resolve_found (hinodes.resolve_head hinv hfixed hr) hinv.nodeAt_head.path hok

/-- The node of a failed lookup is released, and no acquisition goes through its path. -/
theorem InodeInv.releaseChild {w : Vfs σ} {n : ℕ} {name : Str} (hinodes : InodeInv v)
    (hinv : NodeInv v (⟨m, names, dn⟩ :: held)) (hname : NameOk name)
    (hfind : v.findNode m (nodePath (names ++ [name])) = none)
    (hget : vfsNodeGet v m (nodePath (names ++ [name])) = (some n, w)) (s : σ)
    (inode : VfsInode) :
    InodeInv (vfsNodeRelease (({ w with fsState := s } : Vfs σ).setInode n inode) n) := by
  have ha := hinv.anchored _ List.mem_cons_self
  have hok := ChainOk.concat ha.nameOk hname
  have hfilled := hinv.toCacheInv.filled (s := s) hget inode
  have hreleased := ((hinv.getChild hname hfind hget).setInode n s inode).vfsNodeRelease
  refine hinodes.released hfilled .vfsNodeRelease (fun _ => .vfsNodeRelease) fun x hx => ?_
  have hm := ha.mount
  rw [← hfilled.frame.mounts, ← (Vfs.Frame.vfsNodeRelease (n := n)).mounts] at hm
  have hpos : 0 < prefixCount held m (names ++ [name]) :=
    hreleased.prefixCount_pos_of_nodeAt hok hm hx
  have hle : prefixCount held m (names ++ [name]) ≤
      prefixCount (⟨m, names, dn⟩ :: held) m (names ++ [name]) :=
    (List.sublist_cons_self _ _).countP_le
  have hzero : prefixCount (⟨m, names, dn⟩ :: held) m (names ++ [name]) = 0 :=
    hinv.prefixCount_eq_zero hok (hinv.findNode_eq_none_iff.mp hfind)
  omega

/-- Every node that `VfsNodeAcquire` creates is filled in with what its path resolves to, and
a node of a failed lookup is gone. -/
theorem InodeInv.acquireLoop (hinodes : InodeInv v)
    (hinv : NodeInv v (⟨m, names, dn⟩ :: held)) (htokens : ∀ token ∈ rest, NameOk token.name) :
    InodeInv (acquireLoop v m dn (nodePath names) rest).2 := by
  induction rest generalizing v names dn with
  | nil => exact hinodes
  | cons token rest ih =>
      have hname := htokens token List.mem_cons_self
      have hrest : ∀ token ∈ rest, NameOk token.name := fun token hmem =>
        htokens token (List.mem_cons_of_mem _ hmem)
      rw [Fs.acquireLoop]
      simp only [← nodePath_concat, vfsNodeLookup]
      cases hfind : v.findNode m (nodePath (names ++ [token.name])) with
      | some n =>
          simp only
          exact ih (hinodes.of_keeps rfl fun _ => .addNodeRef)
            (hinv.acquireChild hname (hinv.findNode_eq_some_iff.mp hfind)) hrest
      | none =>
          simp only
          rcases hget : vfsNodeGet v m (nodePath (names ++ [token.name])) with ⟨_ | n, w⟩
          · have hframe : v.Frame (vfsNodeGet v m (nodePath (names ++ [token.name]))).2 :=
              .vfsNodeGet
            rw [hget] at hframe
            exact hinodes.of_keeps (hframe.trans .vfsNodePut).mounts fun m' =>
              (Vfs.Keeps.getNone hget).trans .vfsNodePut
          · simp only
            have hgot := hinv.getChild hname hfind hget
            split
            · exact hinodes.releaseChild hinv hname hfind hget _ _
            · next hlookup =>
              rw [not_or, not_not] at hlookup
              exact ih (hinodes.lookupChild hinv hname hget _ _ _ hlookup.1)
                (hgot.setInode n _ _) hrest

theorem InodeInv.vfsNodeAcquire (hinodes : InodeInv v) (hinv : NodeInv v held) (path : Str) :
    InodeInv (vfsNodeAcquire v path).2 := by
  unfold Fs.vfsNodeAcquire
  split
  · exact hinodes
  · next m p hfind =>
    split
    · exact hinodes
    · next root hroot =>
      have hm := mem_mounts_of_vfsFindRoot hfind
      have hreferred : InodeInv (v.addNodeRef root 1) :=
        hinodes.of_keeps rfl fun _ => .addNodeRef
      exact hreferred.acquireLoop (hinv.acquireRoot hm hroot) fun token hmem =>
        nameOk_of_mem_tokens hmem

theorem InodeInv.acquireCovered (hinodes : InodeInv v) (hinv : NodeInv v held)
    (absPath : Str) : InodeInv (acquireCovered v absPath).2 := by
  unfold Fs.acquireCovered
  split
  · exact hinodes
  · have hacquired := hinodes.vfsNodeAcquire hinv absPath
    rcases hresult : Fs.vfsNodeAcquire v absPath with ⟨failure | n, w⟩ <;> rw [hresult] at hacquired
    · exact hacquired
    · simp only
      split
      · exact hacquired.of_keeps Vfs.Frame.vfsNodeRelease.mounts fun _ => .vfsNodeRelease
      · exact hacquired

theorem Vfs.Keeps.writeRoot {w : Vfs σ} {m' r : ℕ} (hkeeps : v.Keeps w m' ∧ (w.node r).mount = m)
    (hne : m' ≠ m) (inode : VfsInode) :
    v.Keeps (w.setInode r inode) m' ∧ ((w.setInode r inode).node r).mount = m :=
  ⟨hkeeps.1.trans (setInode fun heq => hne (heq.symm.trans hkeeps.2)),
    (setInode_agree.nodeMount r).trans hkeeps.2⟩

theorem Vfs.Keeps.mountRoot {m' r : ℕ} {bdev : Option ℕ} (hne : m' ≠ m)
    (hr : (v.node r).mount = m) : v.Keeps (mountRoot v m r absPath bdev).2 m' := by
  have hroot : v.Keeps (v.setRoot m r) m' ∧ ((v.setRoot m r).node r).mount = m :=
    ⟨setRoot hne, hr⟩
  unfold Fs.mountRoot
  simp only
  generalize hfirst : (v.setRoot m r).setInode r _ = w
  have hw : v.Keeps w m' ∧ (w.node r).mount = m := hfirst ▸ writeRoot hroot hne _
  have hstate : ∀ s, v.Keeps { w with fsState := s } m' ∧
      ((({ w with fsState := s } : Vfs σ)).node r).mount = m := fun s =>
    ⟨hw.1.trans fsState, hw.2⟩
  have hwritten := fun s inode => writeRoot (hstate s) hne inode
  split
  · exact ((hwritten _ _).1.trans vfsNodeRelease).trans releaseNode
  · have hagain := fun s inode last => writeRoot (hwritten s inode) hne last
    split
    · exact (((hagain _ _ _).1.trans fsState).trans vfsNodeRelease).trans releaseNode
    · exact (hagain _ _ _).1.trans (of_nodes rfl rfl rfl)

theorem InodeInv.mountFilled {m' : ℕ} {bdev : Option ℕ} (hinodes : InodeInv v)
    (hinv : NodeInv v held) (hm' : m' ∈ v.mounts) (hne : m' ≠ m) :
    (mountFilled v m absPath bdev).2.Resolved m' := by
  have hcovered := hinodes.acquireCovered hinv absPath
  have hcoveredInv := hinv.acquireCovered absPath
  have hframe : v.Frame (Fs.acquireCovered v absPath).2 := Vfs.Frame.acquireCovered
  unfold Fs.mountFilled
  rcases hresult : Fs.acquireCovered v absPath with ⟨err | covered, x⟩ <;>
    rw [hresult] at hcovered hframe hcoveredInv
  · exact hcovered m' (hframe.mounts ▸ hm')
  · have hset : x.Keeps (x.setCovered m covered) m' := .setCovered hne
    have hcache := (hcoveredInv.1.setCovered m covered).toCacheInv
    have hresolved := (hcovered m' (hframe.mounts ▸ hm')).of_keeps hset
    simp only
    rcases hget : vfsNodeGet (x.setCovered m covered) m [slash] with ⟨_ | root, y⟩
    · exact hresolved.of_keeps ((Vfs.Keeps.getNone hget).trans .releaseNode)
    · obtain ⟨hkeeps, hroot⟩ := Vfs.Keeps.getSome hcache hget hne.symm
      exact hresolved.of_keeps (hkeeps.trans (.mountRoot hne hroot))

/-- `NX_VfsMountFileSystem` leaves the nodes of the other mounts right. -/
theorem InodeInv.vfsMountFileSystem_other (hinodes : InodeInv v)
    (hinv : NodeInv v held) (m' : ℕ) (hm' : m' ∈ v.mounts) (bdev : Option ℕ) (absPath : Str)
    (fs : VfsFileSystem σ) (flags : BitVec 32) :
    (vfsMountFileSystem v bdev absPath fs flags).2.Resolved m' := by
  have hne : m' ≠ v.allocs := (hinv.allocated m' hm').ne
  have hkeep : ∀ w : Vfs σ, w.nodeList = v.nodeList → w.node = v.node →
      (w.mount m').fs = (v.mount m').fs → w.Resolved m' := fun w hlist hnode hfs =>
    (hinodes m' hm').of_keeps (.of_nodes hfs hlist hnode)
  unfold Fs.vfsMountFileSystem memAlloc
  by_cases hmemory : v.memory v.allocs = true
  · simp only [hmemory, if_true]
    split
    · exact hkeep _ rfl rfl rfl
    · have hnew : NodeInv ({ v with
          allocs := v.allocs + 1
          mount := Function.update v.mount v.allocs
            ⟨fs, bdev, absPath, flags &&& mountRo, 0, none, none⟩ } : Vfs σ) held :=
        hinv.newMount rfl rfl
      refine InodeInv.mountFilled (fun m hm => ?_) hnew hm' hne
      have hother : m ≠ v.allocs := (hinv.allocated m hm).ne
      exact (hinodes m hm).of_keeps (.of_nodes (by simp [hother]) rfl rfl)
  · simp only [hmemory]
    exact hkeep _ rfl rfl rfl

/-- `NX_VfsMountFileSystem` leaves the nodes right: the new mount has its root only. -/
theorem InodeInv.vfsMountFileSystem (hinodes : InodeInv v) (hinv : NodeInv v held)
    (bdev : Option ℕ) (absPath : Str) (fs : VfsFileSystem σ) (flags : BitVec 32) :
    InodeInv (vfsMountFileSystem v bdev absPath fs flags).2 := by
  have hothers := fun m' hm' =>
    hinodes.vfsMountFileSystem_other hinv m' hm' bdev absPath fs flags
  rcases hinv.vfsMountFileSystem bdev absPath fs flags with ⟨w, heq, hmounts, -, hw, -⟩ |
    ⟨w, err, heq, -, hmounts, -, -⟩ <;> rw [heq] at hothers ⊢
  · intro m' hm'
    rcases List.mem_cons.mp hm' with rfl | hold
    · intro fixed _ r names n hr hnames hn
      -- No acquisition is in the new mount, so no component of it is cached.
      have hnil : names = [] := by
        by_contra hne
        rw [dirPath, if_neg hne] at hn
        have hpos := hw.prefixCount_pos_of_nodeAt ⟨hne, hnames⟩ List.mem_cons_self hn
        obtain ⟨a, ha, hkey⟩ := List.countP_pos_iff.mp hpos
        simp only [decide_eq_true_eq] at hkey
        have hmem : a.mount ∈ v.mounts := by
          rcases List.mem_append.mp ha with ha | ha
          · exact mem_mounts_of_coveredAcquisition ha
          · exact (hinv.anchored a ha).mount
        exact (hinv.allocated _ hmem).ne hkey.1
      subst hnil
      rw [resolve_nil, hw.keyed _ _ r n hr hn]
    · exact hothers m' (hmounts ▸ hold)
  · exact fun m' hm' => hothers m' (hmounts ▸ hm')

end Acquiring

/-! ## Runs -/

/-- Runs of mounting, acquiring and releasing with any outcome, and the outstanding
acquisitions. -/
inductive CacheRun : Vfs σ → List Acquisition → Prop
  | boot {v : Vfs σ} : v.Booted → CacheRun v []
  | mount {v v' : Vfs σ} {held : List Acquisition} {bdev : Option ℕ} {absPath : Str}
      {fs : VfsFileSystem σ} {flags : BitVec 32} : CacheRun v held →
      vfsMountFileSystem v bdev absPath fs flags = (.eok, v') →
      CacheRun v' (coveredAcquisition v absPath (v'.mount v.allocs).covered ++ held)
  | mountFail {v v' : Vfs σ} {held : List Acquisition} {bdev : Option ℕ} {absPath : Str}
      {fs : VfsFileSystem σ} {flags : BitVec 32} {err : NxError} : CacheRun v held →
      vfsMountFileSystem v bdev absPath fs flags = (err, v') → err ≠ .eok → CacheRun v' held
  | acquire {v v' : Vfs σ} {held : List Acquisition} {path p : Str} {m n : ℕ} :
      CacheRun v held → vfsFindRoot v path = some (m, p) → vfsNodeAcquire v path = (.ok n, v') →
      CacheRun v' (⟨m, pathNames p, n⟩ :: held)
  | acquireFail {v v' : Vfs σ} {held : List Acquisition} {path : Str}
      {failure : AcquireFailure} : CacheRun v held →
      vfsNodeAcquire v path = (.error failure, v') → CacheRun v' held
  | release {v : Vfs σ} {held : List Acquisition} {a : Acquisition} :
      CacheRun v held → a ∈ held → CacheRun (vfsNodeRelease v a.node) (held.erase a)
  | change {v : Vfs σ} {held : List Acquisition} (s : σ) :
      CacheRun v held → CacheRun { v with fsState := s } held

theorem CacheRun.inv {v : Vfs σ} {held : List Acquisition} (hrun : CacheRun v held) :
    HeldInv v held ∧ InodeInv v := by
  induction hrun with
  | @boot v hboot =>
      refine ⟨hboot.nodeInv.heldInv, fun m hm => ?_⟩
      rw [hboot.mounts] at hm
      cases hm
  | @mount v _ held bdev absPath fs flags _ hmount ih =>
      obtain ⟨⟨leaked, hleaked⟩, hinodes⟩ := ih
      have hcontents := hinodes.vfsMountFileSystem hleaked bdev absPath fs flags
      rw [hmount] at hcontents
      refine ⟨?_, hcontents⟩
      rcases hleaked.vfsMountFileSystem bdev absPath fs flags with ⟨w, heq, -, -, hw, -⟩ |
        ⟨w, err, heq, herr, -⟩
      · rw [hmount] at heq
        obtain rfl := (Prod.ext_iff.mp heq).2
        refine ⟨leaked, hw.perm ?_⟩
        rw [← List.append_assoc, ← List.append_assoc]
        exact List.perm_append_comm.append_right held
      · rw [hmount] at heq
        exact absurd (Prod.ext_iff.mp heq).1.symm herr
  | @mountFail v _ held bdev absPath fs flags _ _ hmount herr ih =>
      obtain ⟨⟨leaked, hleaked⟩, hinodes⟩ := ih
      have hcontents := hinodes.vfsMountFileSystem hleaked bdev absPath fs flags
      rw [hmount] at hcontents
      refine ⟨?_, hcontents⟩
      rcases hleaked.vfsMountFileSystem bdev absPath fs flags with ⟨w, heq, -⟩ |
        ⟨w, err, heq, -, -, -, more, hmore⟩
      · rw [hmount] at heq
        exact absurd (Prod.ext_iff.mp heq).1 herr
      · rw [hmount] at heq
        obtain rfl := (Prod.ext_iff.mp heq).2
        exact ⟨more ++ leaked, by rwa [List.append_assoc]⟩
  | @acquire v _ held path p m n _ hfind hacquire ih =>
      obtain ⟨⟨leaked, hleaked⟩, hinodes⟩ := ih
      have hcontents := hinodes.vfsNodeAcquire hleaked path
      have hacquired := hleaked.vfsNodeAcquire hfind
      rw [hacquire] at hcontents hacquired
      exact ⟨⟨leaked, NodeInv.perm hacquired List.perm_middle.symm⟩, hcontents⟩
  | @acquireFail v _ held path _ _ hacquire ih =>
      have hacquired := ih.1.acquire path
      obtain ⟨⟨leaked, hleaked⟩, hinodes⟩ := ih
      have hcontents := hinodes.vfsNodeAcquire hleaked path
      rw [hacquire] at hcontents hacquired
      exact ⟨hacquired, hcontents⟩
  | release _ ha ih =>
      exact ⟨(ih.1.perm (List.perm_cons_erase ha)).release,
        ih.2.of_keeps Vfs.Frame.vfsNodeRelease.mounts fun _ => .vfsNodeRelease⟩
  | change s _ ih => exact ⟨ih.1.fsState, ih.2.of_keeps rfl fun _ => .fsState⟩

end Nxos.Fs
