import Nxos.Fs.Vfs.Lookups

/-!
# Two caches over the same mounts

When `VfsNodeAcquire` succeeds, given which components are cached, and when two caches give the
same answer.  A component is checked to be a directory when its node is created, and no more when
its node is found.
-/

namespace Nxos.Fs

variable {σ : Type}

/-! ## What has to be created -/

/-- The file system has a component: a node for its path and what the lookups along it find,
which is a directory where a slash follows. -/
structure FixedFs.Has (fixed : FixedFs) (root : VfsInode) (names : List Str)
    (followed : Bool) : Prop where
  short : (nodePath names).length < vfsMaxPath
  vget : fixed.vget (nodePath names) = true
  found : ∃ inode, resolve fixed root names = some inode ∧ (followed = true → inode.type = .dir)

/-- The components after `names` can be created, from allocation `k` on. -/
def FixedFs.HasAll (fixed : FixedFs) (root : VfsInode) (memory : ℕ → Bool) :
    ℕ → List Str → List Token → Prop
  | _, _, [] => True
  | k, names, token :: rest =>
      memory k = true ∧ fixed.Has root (names ++ [token.name]) token.followed ∧
        fixed.HasAll root memory (k + 1) (names ++ [token.name]) rest

/-- How many components after `names` are cached, up to the first one that is not. -/
def cachedDepth (v : Vfs σ) (m : ℕ) : List Str → List Token → ℕ
  | _, [] => 0
  | names, token :: rest =>
      if (v.findNode m (nodePath (names ++ [token.name]))).isSome then
        cachedDepth v m (names ++ [token.name]) rest + 1
      else 0

/-- The components that are not cached can be created. -/
def FixedFs.Grants (fixed : FixedFs) (root : VfsInode) (v : Vfs σ) (m : ℕ)
    (components : List Token) : Prop :=
  let depth := cachedDepth v m [] components
  fixed.HasAll root v.memory v.allocs ((components.take depth).map Token.name)
    (components.drop depth)

/-! ## Contents that stay -/

section Contents

variable {v : Vfs σ} {m n x : ℕ} {path : Str} {rest : List Token}

@[simp] theorem addNodeRef_inode {k : ℤ} :
    ((v.addNodeRef n k).node x).inode = (v.node x).inode := by
  by_cases hx : x = n
  · subst hx
    simp [Vfs.addNodeRef]
  · rw [addNodeRef_node_of_ne hx]

theorem vfsNodePut_inode : ((vfsNodePut v n).node x).inode = (v.node x).inode := by
  by_cases hlast : (v.node n).refcnt = 1
  · obtain ⟨s, hs⟩ := vfsNodePut_last hlast
    rw [hs]
    exact addNodeRef_inode
  · rw [vfsNodePut_of_ne hlast, addNodeRef_inode]

theorem putRoot_inode : ((putRoot v m).node x).inode = (v.node x).inode := by
  unfold putRoot
  split
  · rfl
  · exact vfsNodePut_inode

theorem releaseParents_inode {rounds : ℕ} :
    ((releaseParents rounds v m path).node x).inode = (v.node x).inode := by
  induction rounds generalizing v path with
  | zero => rfl
  | succ rounds ih =>
      rw [releaseParents]
      split
      · rfl
      · split
        · rfl
        · next cut _ _ =>
          cases hfind : v.findNode m cut with
          | none => simp only [vfsNodeLookup, hfind, ih]
          | some n => simp only [vfsNodeLookup, hfind, ih, vfsNodePut_inode, addNodeRef_inode]

theorem vfsNodeRelease_inode : ((vfsNodeRelease v n).node x).inode = (v.node x).inode := by
  unfold vfsNodeRelease
  simp only
  split
  · exact vfsNodePut_inode
  · split
    · rfl
    · rw [putRoot_inode, releaseParents_inode, vfsNodePut_inode]

/-- `VfsNodeGet` writes to the new node only. -/
theorem vfsNodeGet_node (m : ℕ) (path : Str) (hx : x ≠ v.allocs) : (vfsNodeGet v m path).2.node x = v.node x := by
  rcases vfsNodeGet_cases v m path with ⟨s, hs⟩ | ⟨s, inode, -, hs⟩
  · rw [hs]
  · rw [hs]
    exact CacheInv.joinNode_node_of_ne hx

theorem acquireLoop_inode {dn : ℕ} (hx : x < v.allocs) :
    ((acquireLoop v m dn path rest).2.node x).inode = (v.node x).inode := by
  induction rest generalizing v dn path with
  | nil => rfl
  | cons token rest ih =>
      rw [acquireLoop]
      simp only [vfsNodeLookup]
      cases hfind : v.findNode m (path ++ slash :: token.name) with
      | some n =>
          refine (ih ?_).trans addNodeRef_inode
          exact hx
      | none =>
          simp only
          have hframe : v.Frame (vfsNodeGet v m (path ++ slash :: token.name)).2 := .vfsNodeGet
          have hnode := vfsNodeGet_node m (path ++ slash :: token.name) hx.ne
          rcases hget : vfsNodeGet v m (path ++ slash :: token.name) with ⟨_ | n, w⟩ <;>
            rw [hget] at hframe hnode
          · rw [vfsNodePut_inode, hnode]
          · have hne : x ≠ n := by
              rcases vfsNodeGet_cases v m (path ++ slash :: token.name) with ⟨s, hs⟩ |
                ⟨s, inode, -, hs⟩ <;> rw [hs] at hget
              · cases hget
              · cases hget
                exact hx.ne
            have hset : ∀ s inode,
                ((({ w with fsState := s } : Vfs σ).setInode n inode).node x).inode =
                  (v.node x).inode := fun s inode => by
              have hw : w.node x = v.node x := hnode
              simp [Vfs.setInode, hne, hw]
            simp only
            split
            · rw [vfsNodeRelease_inode, hset]
            · refine (ih ?_).trans (hset _ _)
              exact hx.trans_le hframe.allocs

theorem vfsNodeAcquire_inode (path : Str) (hx : x < v.allocs) :
    ((vfsNodeAcquire v path).2.node x).inode = (v.node x).inode := by
  unfold vfsNodeAcquire
  split
  · rfl
  · split
    · rfl
    · refine (acquireLoop_inode ?_).trans addNodeRef_inode
      exact hx

end Contents

section Creating

variable {v w : Vfs σ} {m n dn r : ℕ} {path : Str} {names : List Str} {held : List Acquisition}
  {rest : List Token} {fixed : FixedFs}

theorem VfsFileSystem.Fixed.passed_iff {fs : VfsFileSystem σ} {root : VfsInode} {d : VfsNode}
    (hfixed : fs.Fixed fixed) (hdir : resolve fixed root names = some d.inode)
    (hpath : d.path = dirPath names) (s : σ) (token : Token) (node : VfsNode) :
    ¬((fs.lookup s d token.name node).1 ≠ .eok ∨
        (token.followed = true ∧ (fs.lookup s d token.name node).2.1.type ≠ .dir)) ↔
      ∃ inode, resolve fixed root (names ++ [token.name]) = some inode ∧
        (token.followed = true → inode.type = .dir) := by
  rw [not_or, not_not, not_and, not_not]
  constructor
  · rintro ⟨hok, htype⟩
    exact ⟨_, hfixed.resolve_found hdir hpath hok, htype⟩
  · rintro ⟨inode, hresolve, htype⟩
    rw [resolve_concat, hdir, Option.bind_some, ← hpath] at hresolve
    obtain ⟨hok, hinode⟩ := hfixed.found s d token.name node inode hresolve
    rw [hinode]
    exact ⟨hok, htype⟩

/-- Where no component is cached, `VfsNodeAcquire` succeeds when all can be created. -/
theorem InodeInv.acquireLoop_uncached (hinodes : InodeInv v)
    (hinv : NodeInv v (⟨m, names, dn⟩ :: held)) (htokens : ∀ token ∈ rest, NameOk token.name)
    (hfixed : (v.mount m).fs.Fixed fixed) (hr : v.NodeAt m [slash] r)
    (hnone : ∀ token ∈ rest.head?, ∀ x, ¬v.NodeAt m (nodePath (names ++ [token.name])) x) :
    (Fs.acquireLoop v m dn (nodePath names) rest).1.isOk = true ↔
      fixed.HasAll (v.node r).inode v.memory v.allocs names rest := by
  induction rest generalizing v names dn with
  | nil => exact iff_of_true rfl trivial
  | cons token rest ih =>
      have hname := htokens token List.mem_cons_self
      have hrest : ∀ token ∈ rest, NameOk token.name := fun token hmem =>
        htokens token (List.mem_cons_of_mem _ hmem)
      have ha := hinv.anchored _ List.mem_cons_self
      have hok := ChainOk.concat ha.nameOk hname
      have hchild := hnone token rfl
      have hfind := hinv.findNode_eq_none_iff.mpr hchild
      have hgetIff := vfsNodeGet_isSome_iff v m (nodePath (names ++ [token.name]))
      rw [hfixed.vget] at hgetIff
      rw [Fs.acquireLoop, FixedFs.HasAll]
      simp only [← nodePath_concat, vfsNodeLookup, hfind]
      rcases hget : vfsNodeGet v m (nodePath (names ++ [token.name])) with ⟨_ | n, w⟩
      · rw [hget] at hgetIff
        refine iff_of_false (by simp [Except.isOk, Except.toBool]) fun hall => ?_
        exact absurd (hgetIff.mpr ⟨hall.1, hall.2.1.short, hall.2.1.vget⟩) (by simp)
      · rw [hget] at hgetIff
        obtain ⟨hmemory, hshort, hvget⟩ := hgetIff.mp rfl
        obtain ⟨hwdn, hfs⟩ := hinv.getChild_directory hget
        have hpassed := hfixed.passed_iff (hinodes.resolve_head hinv hfixed hr)
          hinv.nodeAt_head.path w.fsState token (w.node n)
        rw [← hwdn, ← hfs] at hpassed
        simp only
        split
        · next hfailed =>
          refine iff_of_false (by simp [Except.isOk, Except.toBool]) fun hall => ?_
          exact hpassed.mpr hall.2.1.found hfailed
        · next hlookup =>
          have hhas : fixed.Has (v.node r).inode (names ++ [token.name]) token.followed :=
            ⟨hshort, hvget, hpassed.mp hlookup⟩
          rw [not_or, not_not] at hlookup
          generalize hs : ((w.mount (w.node dn).mount).fs.lookup w.fsState (w.node dn)
            token.name (w.node n)).2.2 = s
          have hnew := hinodes.lookupChild hinv hname hget _ s _ hlookup.1
          generalize hi : ((w.mount (w.node dn).mount).fs.lookup w.fsState (w.node dn)
            token.name (w.node n)).2.1 = inode at hnew
          have hfilled := hinv.toCacheInv.filled (s := s) hget inode
          have hrne : r ≠ n := fun heq => hfilled.fresh (heq ▸ hr.cached)
          rw [ih hnew ((hinv.getChild hname hfind hget).setInode n s inode) hrest
            ((hfilled.frame.fs m) ▸ hfixed) ((hfilled.nodeAt_iff m [slash] r).mpr (.inr hr)) ?_,
            hfilled.other r hrne, hfilled.frame.memory, hfilled.allocs]
          · exact ⟨fun hall => ⟨hmemory, hhas, hall⟩, fun hall => hall.2.2⟩
          · -- A longer path than that of the new node is not cached.
            intro next hnext x hx
            rcases (hfilled.nodeAt_iff m _ x).mp hx with ⟨-, -, hpath⟩ | hold
            · rw [nodePath_concat] at hpath
              exact absurd (List.append_right_eq_self.mp hpath) (List.cons_ne_nil _ _)
            · have hnextOk : NameOk next.name :=
                hrest next (List.mem_of_mem_head? hnext)
              exact hinv.not_nodeAt_longer hok (ChainOk.concat hok.nameOk hnextOk).nameOk
                ha.mount hchild x hold

/-- Which nodes are found depends on the lists and the keys of the nodes only. -/
theorem Vfs.Agree.cachedDepth {names : List Str} (hagree : v.Agree w) :
    cachedDepth w m names rest = cachedDepth v m names rest := by
  induction rest generalizing names with
  | nil => rfl
  | cons token rest ih =>
      have hfind : ∀ path, w.findNode m path = v.findNode m path := fun path => by
        simp only [Vfs.findNode, hagree.nodeList, hagree.nodeMount, hagree.nodePath]
      rw [Fs.cachedDepth, Fs.cachedDepth, ih, hfind]

/-- `VfsNodeAcquire` succeeds when the components that are not cached can be created. -/
theorem InodeInv.acquireLoop_isOk_iff (hinodes : InodeInv v)
    (hinv : NodeInv v (⟨m, names, dn⟩ :: held)) (htokens : ∀ token ∈ rest, NameOk token.name)
    (hfixed : (v.mount m).fs.Fixed fixed) (hr : v.NodeAt m [slash] r) :
    (Fs.acquireLoop v m dn (nodePath names) rest).1.isOk = true ↔
      fixed.HasAll (v.node r).inode v.memory v.allocs
        (names ++ (rest.take (cachedDepth v m names rest)).map Token.name)
        (rest.drop (cachedDepth v m names rest)) := by
  induction rest generalizing v names dn with
  | nil => exact iff_of_true rfl trivial
  | cons token rest ih =>
      have hname := htokens token List.mem_cons_self
      have hrest : ∀ token ∈ rest, NameOk token.name := fun token hmem =>
        htokens token (List.mem_cons_of_mem _ hmem)
      cases hfind : v.findNode m (nodePath (names ++ [token.name])) with
      | some n =>
          have hagree : v.Agree (v.addNodeRef n 1) := addNodeRef_agree
          have hat := hinv.findNode_eq_some_iff.mp hfind
          have hreferred : InodeInv (v.addNodeRef n 1) :=
            hinodes.of_keeps rfl fun _ => .addNodeRef
          have hloop := ih hreferred (hinv.acquireChild hname hat) hrest hfixed
            (hagree.nodeAt_iff.mpr hr)
          rw [hagree.cachedDepth, addNodeRef_inode] at hloop
          rw [Fs.acquireLoop, Fs.cachedDepth]
          simp only [← nodePath_concat, vfsNodeLookup, hfind, Option.isSome_some, if_true,
            List.take_succ_cons, List.map_cons, List.drop_succ_cons]
          rw [hloop, List.append_assoc]
          rfl
      | none =>
          have hchild := hinv.findNode_eq_none_iff.mp hfind
          have hdepth : Fs.cachedDepth v m names (token :: rest) = 0 := by
            rw [Fs.cachedDepth, hfind]
            rfl
          rw [hdepth, List.take_zero, List.map_nil, List.append_nil, List.drop_zero]
          refine hinodes.acquireLoop_uncached hinv htokens hfixed hr fun next hnext => ?_
          cases hnext
          exact hchild

end Creating

/-! ## What an acquisition gives -/

section Acquiring

variable {v w : Vfs σ} {m n r : ℕ} {path p : Str} {held : List Acquisition} {fixed : FixedFs}

/-- When `VfsNodeAcquire` succeeds. -/
theorem InodeInv.vfsNodeAcquire_isOk_iff (hinodes : InodeInv v) (hinv : NodeInv v held)
    (hfind : vfsFindRoot v path = some (m, p)) (hfixed : (v.mount m).fs.Fixed fixed)
    (hroot : (v.mount m).root = some r) :
    (Fs.vfsNodeAcquire v path).1.isOk = true ↔
      fixed.Grants (v.node r).inode v m (tokens p) := by
  have hm := mem_mounts_of_vfsFindRoot hfind
  have hacquired := hinv.acquireRoot hm hroot
  have hagree : v.Agree (v.addNodeRef r 1) := addNodeRef_agree
  have hr : v.NodeAt m [slash] r := hinv.nodeAt_root hm hroot
  have hreferred : InodeInv (v.addNodeRef r 1) := hinodes.of_keeps rfl fun _ => .addNodeRef
  have hloop := hreferred.acquireLoop_isOk_iff hacquired
    (fun token hmem => nameOk_of_mem_tokens (p := p) hmem) hfixed (hagree.nodeAt_iff.mpr hr)
  rw [hagree.cachedDepth, addNodeRef_inode, List.nil_append, nodePath_nil] at hloop
  unfold Fs.vfsNodeAcquire FixedFs.Grants
  simp only [hfind, hroot]
  exact hloop

theorem InodeInv.acquired_component (hinodes : InodeInv v) (hinv : NodeInv v held)
    (hfind : vfsFindRoot v path = some (m, p)) (hfixed : (v.mount m).fs.Fixed fixed)
    (hroot : (v.mount m).root = some r) (hok : (Fs.vfsNodeAcquire v path).1 = .ok n)
    {names : List Str} (hpart : names <+: pathNames p) :
    (∃ x, (Fs.vfsNodeAcquire v path).2.NodeAt m (dirPath names) x) ∧
    ∀ x, (Fs.vfsNodeAcquire v path).2.NodeAt m (dirPath names) x →
      resolve fixed (v.node r).inode names =
        some ((Fs.vfsNodeAcquire v path).2.node x).inode := by
  have hm := mem_mounts_of_vfsFindRoot hfind
  have hframe : v.Frame (Fs.vfsNodeAcquire v path).2 := .vfsNodeAcquire
  have hcontents := hinodes.vfsNodeAcquire hinv path
  have hnew : NodeInv (Fs.vfsNodeAcquire v path).2 (⟨m, pathNames p, n⟩ :: held) := by
    have hacquired := hinv.vfsNodeAcquire hfind
    rwa [hok] at hacquired
  have ha := hnew.anchored _ List.mem_cons_self
  have hroot' : ((Fs.vfsNodeAcquire v path).2.mount m).root = some r :=
    (hframe.root m).trans hroot
  have hr := hnew.nodeAt_root ha.mount hroot'
  have hlt : r < v.allocs :=
    hinv.lt_allocs (hinv.nodeAt_root hm hroot).cached
  refine ⟨?_, fun x hx => ?_⟩
  · obtain ⟨x, hx⟩ := ha.chain names hpart
    exact ⟨x, hnew.nodeAt_of_nodeOf ha.mount hx⟩
  · rw [← vfsNodeAcquire_inode path hlt]
    exact hcontents m ha.mount fixed ((hframe.fs m) ▸ hfixed) r names x hr
      (fun name hmem => ha.nameOk name (hpart.subset hmem)) hx

theorem InodeInv.acquired_node (hinodes : InodeInv v) (hinv : NodeInv v held)
    (hfind : vfsFindRoot v path = some (m, p)) (hfixed : (v.mount m).fs.Fixed fixed)
    (hroot : (v.mount m).root = some r) (hok : (Fs.vfsNodeAcquire v path).1 = .ok n) :
    ((Fs.vfsNodeAcquire v path).2.node n).mount = m ∧
    ((Fs.vfsNodeAcquire v path).2.node n).path = dirPath (pathNames p) ∧
    resolve fixed (v.node r).inode (pathNames p) =
      some ((Fs.vfsNodeAcquire v path).2.node n).inode := by
  have hnew : NodeInv (Fs.vfsNodeAcquire v path).2 (⟨m, pathNames p, n⟩ :: held) := by
    have hacquired := hinv.vfsNodeAcquire hfind
    rwa [hok] at hacquired
  have hat := hnew.nodeAt_head
  exact ⟨hat.mount, hat.path,
    (hinodes.acquired_component hinv hfind hfixed hroot hok List.prefix_rfl).2 n hat⟩

end Acquiring

/-! ## Two caches -/

/-- The same mounts, with the same roots. -/
structure Vfs.SameMounts (v w : Vfs σ) : Prop where
  mounts : w.mounts = v.mounts
  path : ∀ m, (w.mount m).path = (v.mount m).path
  fs : ∀ m, (w.mount m).fs = (v.mount m).fs
  root : ∀ m ∈ v.mounts, ∀ r, (v.mount m).root = some r →
    (w.mount m).root = some r ∧ (w.node r).inode = (v.node r).inode

theorem Vfs.SameMounts.vfsNodeAcquire {v : Vfs σ} {held : List Acquisition} {path : Str}
    (hinv : NodeInv v held) : v.SameMounts (vfsNodeAcquire v path).2 where
  mounts := Vfs.Frame.vfsNodeAcquire.mounts
  path m := Vfs.Frame.vfsNodeAcquire.mountPath m
  fs m := Vfs.Frame.vfsNodeAcquire.fs m
  root m hm r hroot := by
    refine ⟨(Vfs.Frame.vfsNodeAcquire.root m).trans hroot, vfsNodeAcquire_inode path ?_⟩
    exact hinv.lt_allocs (hinv.nodeAt_root hm hroot).cached

/-- An acquisition that succeeds goes through directories only: where a slash follows a
component, its node is one. -/
def ThroughDirectories (v : Vfs σ) (path : Str) : Prop :=
  ∀ m p, vfsFindRoot v path = some (m, p) → (vfsNodeAcquire v path).1.isOk = true →
    ∀ parents token rest, tokens p = parents ++ token :: rest → token.followed = true →
      ∀ x, (vfsNodeAcquire v path).2.NodeAt m
          (nodePath (parents.map Token.name ++ [token.name])) x →
        ((vfsNodeAcquire v path).2.node x).inode.type = .dir

/-- Two caches have the same answer for a path. -/
structure SameAnswer (v w : Vfs σ) (path : Str) : Prop where
  success : (vfsNodeAcquire v path).1.isOk = (vfsNodeAcquire w path).1.isOk
  node : ∀ n k, (vfsNodeAcquire v path).1 = .ok n → (vfsNodeAcquire w path).1 = .ok k →
    ((vfsNodeAcquire v path).2.node n).mount = ((vfsNodeAcquire w path).2.node k).mount ∧
    ((vfsNodeAcquire v path).2.node n).path = ((vfsNodeAcquire w path).2.node k).path ∧
    ((vfsNodeAcquire v path).2.node n).inode.type =
      ((vfsNodeAcquire w path).2.node k).inode.type
  through : ThroughDirectories v path
  through' : ThroughDirectories w path

/-- The components that a slash follows are directories, as far as they are there. -/
def FixedFs.DirectoriesIn (fixed : FixedFs) (root : VfsInode) (components : List Token) : Prop :=
  ∀ parents token rest, components = parents ++ token :: rest → token.followed = true →
    ∀ inode, resolve fixed root (parents.map Token.name ++ [token.name]) = some inode →
      inode.type = .dir

section Answers

variable {v w : Vfs σ} {m n r : ℕ} {path p : Str} {held held' : List Acquisition}
  {fixed : FixedFs}

theorem Vfs.SameMounts.vfsFindRoot (hsame : v.SameMounts w) :
    vfsFindRoot w path = vfsFindRoot v path := by
  have hmatch : longerMatch w path = longerMatch v path := by
    funext best pos
    rw [longerMatch, longerMatch, hsame.path]
  rw [Fs.vfsFindRoot, Fs.vfsFindRoot, hsame.mounts, hmatch]

/-- An acquisition goes through directories exactly if its components are directories. -/
theorem InodeInv.throughDirectories_iff (hinodes : InodeInv v) (hinv : NodeInv v held)
    (hfind : Fs.vfsFindRoot v path = some (m, p)) (hfixed : (v.mount m).fs.Fixed fixed)
    (hroot : (v.mount m).root = some r) :
    ThroughDirectories v path ↔
      (fixed.Grants (v.node r).inode v m (tokens p) →
        fixed.DirectoriesIn (v.node r).inode (tokens p)) := by
  rw [← hinodes.vfsNodeAcquire_isOk_iff hinv hfind hfixed hroot]
  have hcomponent : ∀ {parents : List Token} {token : Token} {rest : List Token},
      (Fs.vfsNodeAcquire v path).1.isOk = true → tokens p = parents ++ token :: rest →
      (∃ x, (Fs.vfsNodeAcquire v path).2.NodeAt m
        (nodePath (parents.map Token.name ++ [token.name])) x) ∧
      ∀ x, (Fs.vfsNodeAcquire v path).2.NodeAt m
          (nodePath (parents.map Token.name ++ [token.name])) x →
        resolve fixed (v.node r).inode (parents.map Token.name ++ [token.name]) =
          some ((Fs.vfsNodeAcquire v path).2.node x).inode := by
    intro parents token rest hok hsplit
    have hpart : parents.map Token.name ++ [token.name] <+: pathNames p := by
      rw [pathNames, hsplit]
      exact ⟨rest.map Token.name, by simp⟩
    cases hresult : (Fs.vfsNodeAcquire v path).1 with
    | error failure =>
        rw [hresult] at hok
        cases hok
    | ok n =>
        rw [← dirPath_concat]
        exact hinodes.acquired_component hinv hfind hfixed hroot hresult hpart
  constructor
  · intro hthrough hok parents token rest hsplit hfollowed inode hresolve
    obtain ⟨⟨x, hx⟩, hall⟩ := hcomponent hok hsplit
    rw [hall x hx] at hresolve
    cases hresolve
    exact hthrough m p hfind hok parents token rest hsplit hfollowed x hx
  · intro hdirs m' p' hfind' hok parents token rest hsplit hfollowed x hx
    rw [hfind] at hfind'
    cases hfind'
    exact hdirs hok parents token rest hsplit hfollowed _ ((hcomponent hok hsplit).2 x hx)

/-- Two caches over the same mounts give the same answer exactly if the components that are not
cached can be created with both or with neither, and, where they can, every component that a
slash follows is a directory. -/
theorem cacheRun_sameAnswer_iff (hrun : CacheRun v held) (hrun' : CacheRun w held')
    (hsame : v.SameMounts w) (hfind : vfsFindRoot v path = some (m, p))
    (hfixed : (v.mount m).fs.Fixed fixed) (hroot : (v.mount m).root = some r) :
    SameAnswer v w path ↔
      (fixed.Grants (v.node r).inode v m (tokens p) ↔
        fixed.Grants (v.node r).inode w m (tokens p)) ∧
      (fixed.Grants (v.node r).inode v m (tokens p) →
        fixed.DirectoriesIn (v.node r).inode (tokens p)) := by
  obtain ⟨⟨leaked, hinv⟩, hinodes⟩ := hrun.inv
  obtain ⟨⟨leaked', hinv'⟩, hinodes'⟩ := hrun'.inv
  obtain ⟨hroot', hinode⟩ := hsame.root m (mem_mounts_of_vfsFindRoot hfind) r hroot
  have hfind' : vfsFindRoot w path = some (m, p) := hsame.vfsFindRoot.trans hfind
  have hfixed' : (w.mount m).fs.Fixed fixed := (hsame.fs m).symm ▸ hfixed
  have hok := hinodes.vfsNodeAcquire_isOk_iff hinv hfind hfixed hroot
  have hok' := hinodes'.vfsNodeAcquire_isOk_iff hinv' hfind' hfixed' hroot'
  have hthrough := hinodes.throughDirectories_iff hinv hfind hfixed hroot
  have hthrough' := hinodes'.throughDirectories_iff hinv' hfind' hfixed' hroot'
  rw [hinode] at hok' hthrough'
  constructor
  · intro hanswer
    refine ⟨?_, hthrough.mp hanswer.through⟩
    rw [← hok, ← hok', hanswer.success]
  · rintro ⟨hgrants, hdirs⟩
    refine ⟨?_, fun n k hn hk => ?_, hthrough.mpr hdirs, hthrough'.mpr fun hw =>
      hdirs (hgrants.mpr hw)⟩
    · rw [Bool.eq_iff_iff, hok, hok', hgrants]
    · obtain ⟨hmount, hpath, hresolve⟩ := hinodes.acquired_node hinv hfind hfixed hroot hn
      obtain ⟨hmount', hpath', hresolve'⟩ :=
        hinodes'.acquired_node hinv' hfind' hfixed' hroot' hk
      rw [hinode, hresolve, Option.some.injEq] at hresolve'
      exact ⟨hmount.trans hmount'.symm, hpath.trans hpath'.symm, by rw [hresolve']⟩

end Answers

/-! ## A device that is left open -/

theorem readOnlyFs_fixed {lookup : VfsNode → Str → Option VfsInode}
    (answer : Str → VfsInode → Str → Option VfsInode)
    (hanswer : ∀ dn name, lookup dn name = answer dn.path dn.inode name) :
    (readOnlyFs lookup).Fixed ⟨fun _ => true, answer⟩ where
  vget _ _ _ := iff_of_true rfl rfl
  found s dn name n inode hfound := by
    have hlookup : lookup dn name = some inode := (hanswer dn name).trans hfound
    simp [readOnlyFs, hlookup]
  missing s dn name n hmissing := by
    have hlookup : lookup dn name = none := (hanswer dn name).trans hmissing
    simp [readOnlyFs, hlookup]

/-- `DevLookup` is fixed while no device is registered or removed. -/
theorem devfs_fixed (deviceSearch : Str → Option Device) :
    (devfs deviceSearch).Fixed ⟨fun _ => true, fun _ _ name =>
      (deviceSearch name).map Device.inode⟩ :=
  readOnlyFs_fixed _ fun _ _ => rfl

theorem demoMounted_run : CacheRun demoMounted [] :=
  .mount (.boot demoStart_booted) (Prod.ext (by decide) rfl)

/-- What `demoLookup` answers. -/
def demoFixed : FixedFs := ⟨fun _ => true, fun path inode => demoLookup ⟨0, 0, path, inode⟩⟩

/-- With and without the nodes of `/d/t`. -/
theorem demo_sameAnswer_iff :
    SameAnswer demoMounted demoAcquired [slash, 0x64, slash, 0x74] ↔
      (demoFixed.Grants (demoMounted.node 1).inode demoMounted 0 (tokens [0x64, slash, 0x74]) ↔
        demoFixed.Grants (demoMounted.node 1).inode demoAcquired 0
          (tokens [0x64, slash, 0x74])) ∧
      (demoFixed.Grants (demoMounted.node 1).inode demoMounted 0 (tokens [0x64, slash, 0x74]) →
        demoFixed.DirectoriesIn (demoMounted.node 1).inode (tokens [0x64, slash, 0x74])) := by
  obtain ⟨⟨leaked, hinv⟩, -⟩ := demoMounted_run.inv
  have hfind : vfsFindRoot demoMounted [slash, 0x64, slash, 0x74] =
      some (0, [0x64, slash, 0x74]) := by decide
  have hacquire : vfsNodeAcquire demoMounted [slash, 0x64, slash, 0x74] =
      (.ok 3, demoAcquired) := Prod.ext rfl rfl
  exact cacheRun_sameAnswer_iff demoMounted_run (.acquire demoMounted_run hfind hacquire)
    (.vfsNodeAcquire hinv) hfind (readOnlyFs_fixed _ fun _ _ => rfl) rfl

/-- The devices `d` and `t`. -/
def demoDevices (name : Str) : Option Device :=
  if name = [0x64] ∨ name = [0x74] then some ⟨true, true, 0⟩ else none

def devMounted : Vfs Unit := (vfsMountFileSystem demoStart none [slash] (devfs demoDevices) 0).2

/-- The device `/d` is acquired. -/
def devAcquired : Vfs Unit := (vfsNodeAcquire devMounted [slash, 0x64]).2

theorem devMounted_run : CacheRun devMounted [] :=
  .mount (.boot demoStart_booted) (Prod.ext (by decide) rfl)

/-- While the device `/d` is open, the path `/d/t` is the device `/t`. -/
theorem not_cacheRun_sameAnswer :
    ¬∀ (v w : Vfs Unit) (held held' : List Acquisition) (path p : Str) (m : ℕ)
      (fixed : FixedFs), CacheRun v held → CacheRun w held' → v.SameMounts w →
      vfsFindRoot v path = some (m, p) → (v.mount m).fs.Fixed fixed → SameAnswer v w path := by
  intro hall
  obtain ⟨⟨leaked, hinv⟩, -⟩ := devMounted_run.inv
  have hacquire : vfsNodeAcquire devMounted [slash, 0x64] = (.ok 2, devAcquired) :=
    Prod.ext rfl rfl
  have hanswer := hall devMounted devAcquired [] _ [slash, 0x64, slash, 0x74]
    [0x64, slash, 0x74] 0 _ devMounted_run
    (.acquire (p := [0x64]) (m := 0) devMounted_run (by decide) hacquire)
    (.vfsNodeAcquire hinv) (by decide) (devfs_fixed demoDevices)
  have hsuccess := hanswer.success
  revert hsuccess
  decide

end Nxos.Fs
