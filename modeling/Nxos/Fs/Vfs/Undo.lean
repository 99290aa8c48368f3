import Nxos.Fs.Vfs.Counts
import Nxos.Fs.Vfs.Leaks

/-!
# Undoing an acquisition

What an acquisition takes and creates, and what a release gives back and drops, both within some
mounts.  A release behind an acquisition leaves the counts as they were when the outstanding
acquisitions are the same again.
-/

namespace Nxos.Fs

variable {σ : Type}

/-- Nodes of the mounts `ms` were referenced and created, and no others. -/
structure Vfs.Acquires (ms : Set ℕ) (v w : Vfs σ) : Prop where
  mount : ∀ n, v.Cached n → (w.node n).mount = (v.node n).mount
  path : ∀ n, v.Cached n → (w.node n).path = (v.node n).path
  cached : ∀ n, v.Cached n → w.Cached n
  created : ∀ n, w.Cached n → v.Cached n ∨ (w.node n).mount ∈ ms
  refcnt : ∀ n, v.Cached n → (v.node n).mount ∉ ms → (w.node n).refcnt = (v.node n).refcnt

/-- Nodes of the mounts `ms` were put and dropped, and no others. -/
structure Vfs.Releases (ms : Set ℕ) (v w : Vfs σ) : Prop where
  mount : ∀ n, (w.node n).mount = (v.node n).mount
  path : ∀ n, (w.node n).path = (v.node n).path
  cached : ∀ n, w.Cached n → v.Cached n
  kept : ∀ n, v.Cached n → (v.node n).mount ∉ ms → w.Cached n
  refcnt : ∀ n, (v.node n).mount ∉ ms → (w.node n).refcnt = (v.node n).refcnt

/-! ## Acquiring -/

namespace Vfs.Acquires

variable {ms : Set ℕ} {v v' v'' : Vfs σ} {m n : ℕ} {path : Str}

theorem trans (h : v.Acquires ms v') (h' : v'.Acquires ms v'') : v.Acquires ms v'' where
  mount n hn := (h'.mount n (h.cached n hn)).trans (h.mount n hn)
  path n hn := (h'.path n (h.cached n hn)).trans (h.path n hn)
  cached n hn := h'.cached n (h.cached n hn)
  created n hn := by
    rcases h'.created n hn with hn' | hmem
    · rw [h'.mount n hn']
      exact h.created n hn'
    · exact .inr hmem
  refcnt n hn hmem :=
    (h'.refcnt n (h.cached n hn) ((h.mount n hn).symm ▸ hmem)).trans (h.refcnt n hn hmem)

theorem of_agree (hagree : v.Agree v')
    (hrefcnt : ∀ n, (v.node n).mount ∉ ms → (v'.node n).refcnt = (v.node n).refcnt) :
    v.Acquires ms v' where
  mount n _ := hagree.nodeMount n
  path n _ := hagree.nodePath n
  cached _ hn := hagree.cached_iff.mpr hn
  created _ hn := .inl (hagree.cached_iff.mp hn)
  refcnt n _ := hrefcnt n

theorem refl (v : Vfs σ) : v.Acquires ms v :=
  of_agree ⟨rfl, rfl, fun _ => rfl, fun _ => rfl, fun _ => rfl, fun _ => rfl, le_rfl⟩ fun _ _ => rfl

theorem fsState {s : σ} {allocs : ℕ} (hallocs : v.allocs ≤ allocs) :
    v.Acquires ms { v with fsState := s, allocs := allocs } :=
  of_agree (agree_fsState hallocs) fun _ _ => rfl

theorem setInode {inode : VfsInode} : v.Acquires ms (v.setInode n inode) :=
  of_agree setInode_agree fun _ _ => setInode_refcnt

theorem addNodeRef {k : ℤ} (hn : (v.node n).mount ∈ ms) : v.Acquires ms (v.addNodeRef n k) :=
  of_agree addNodeRef_agree fun x hx => by
    have hne : x ≠ n := fun heq => hx (heq ▸ hn)
    rw [addNodeRef_node_of_ne hne]

theorem joinNode {inode : VfsInode} (hfresh : ∀ hash, n ∉ v.nodeList hash) (hm : m ∈ ms) :
    v.Acquires ms (v.joinNode n m path inode) where
  mount x hx := by rw [CacheInv.joinNode_node_of_ne fun heq => hfresh _ (heq ▸ hx)]
  path x hx := by rw [CacheInv.joinNode_node_of_ne fun heq => hfresh _ (heq ▸ hx)]
  cached x hx := (CacheInv.cached_joinNode_iff hfresh).mpr (.inr hx)
  created x hx := by
    rcases (CacheInv.cached_joinNode_iff hfresh).mp hx with rfl | hx
    · rw [CacheInv.joinNode_node_self]
      exact .inr hm
    · exact .inl hx
  refcnt x hx _ := by rw [CacheInv.joinNode_node_of_ne fun heq => hfresh _ (heq ▸ hx)]

theorem setCovered {u : Vfs σ} {covered : Option ℕ} (h : u.Acquires ms v) :
    u.Acquires ms (v.setCovered m covered) :=
  ⟨h.mount, h.path, h.cached, h.created, h.refcnt⟩

theorem setRoot {u : Vfs σ} (h : u.Acquires ms v) : u.Acquires ms (v.setRoot m n) :=
  ⟨h.mount, h.path, h.cached, h.created, h.refcnt⟩

/-- `VfsNodeGet` creates a node at most. -/
theorem vfsNodeGet (hinv : CacheInv v) (hm : m ∈ ms) :
    v.Acquires ms (vfsNodeGet v m path).2 := by
  rcases vfsNodeGet_cases v m path with ⟨s, hs⟩ | ⟨s, inode, -, hs⟩
  · rw [hs]
    exact fsState (Nat.le_succ _)
  · rw [hs]
    refine trans (fsState (Nat.le_succ _)) (joinNode (fun hash hmem => ?_) hm)
    exact (hinv.listed hash _ hmem).2.ne rfl

end Vfs.Acquires

/-! ## Releasing -/

namespace Vfs.Releases

variable {ms : Set ℕ} {v v' v'' : Vfs σ} {m n : ℕ} {path : Str}

theorem trans (h : v.Releases ms v') (h' : v'.Releases ms v'') : v.Releases ms v'' where
  mount n := (h'.mount n).trans (h.mount n)
  path n := (h'.path n).trans (h.path n)
  cached n hn := h.cached n (h'.cached n hn)
  kept n hn hmem := h'.kept n (h.kept n hn hmem) ((h.mount n).symm ▸ hmem)
  refcnt n hmem := (h'.refcnt n ((h.mount n).symm ▸ hmem)).trans (h.refcnt n hmem)

theorem of_agree (hagree : v.Agree v')
    (hrefcnt : ∀ n, (v.node n).mount ∉ ms → (v'.node n).refcnt = (v.node n).refcnt) :
    v.Releases ms v' where
  mount := hagree.nodeMount
  path := hagree.nodePath
  cached _ hn := hagree.cached_iff.mp hn
  kept _ hn _ := hagree.cached_iff.mpr hn
  refcnt := hrefcnt

theorem refl (v : Vfs σ) : v.Releases ms v :=
  of_agree ⟨rfl, rfl, fun _ => rfl, fun _ => rfl, fun _ => rfl, fun _ => rfl, le_rfl⟩ fun _ _ => rfl

theorem addNodeRef {k : ℤ} (hn : (v.node n).mount ∈ ms) : v.Releases ms (v.addNodeRef n k) :=
  of_agree addNodeRef_agree fun x hx => by
    have hne : x ≠ n := fun heq => hx (heq ▸ hn)
    rw [addNodeRef_node_of_ne hne]

theorem dropNode {s : σ} (hn : (v.node n).mount ∈ ms) : v.Releases ms (v.dropNode n s) where
  mount _ := rfl
  path _ := rfl
  cached x hx := by
    change x ∈ (Function.update v.nodeList (v.bucket n) ((v.nodeList (v.bucket n)).erase n))
      (v.bucket x) at hx
    by_cases hbucket : v.bucket x = v.bucket n
    · rw [hbucket, Function.update_self] at hx
      rw [Vfs.Cached, hbucket]
      exact List.mem_of_mem_erase hx
    · rwa [Function.update_of_ne hbucket] at hx
  kept x hx hmem := by
    have hne : x ≠ n := fun heq => hmem (heq ▸ hn)
    change x ∈ (Function.update v.nodeList (v.bucket n) ((v.nodeList (v.bucket n)).erase n))
      (v.bucket x)
    by_cases hbucket : v.bucket x = v.bucket n
    · rw [hbucket, Function.update_self]
      rw [Vfs.Cached, hbucket] at hx
      exact (List.mem_erase_of_ne hne).mpr hx
    · rwa [Function.update_of_ne hbucket]
  refcnt _ _ := rfl

theorem vfsNodePut (hn : (v.node n).mount ∈ ms) : v.Releases ms (vfsNodePut v n) := by
  by_cases hlast : (v.node n).refcnt = 1
  · obtain ⟨s, hs⟩ := vfsNodePut_last hlast
    rw [hs]
    refine (addNodeRef hn).trans (dropNode ?_)
    rwa [addNodeRef_agree.nodeMount]
  · rw [vfsNodePut_of_ne hlast]
    exact addNodeRef hn

/-- The loop of `VfsNodeRelease` puts nodes of one mount. -/
theorem releaseParents {rounds : ℕ} (hm : m ∈ ms) :
    v.Releases ms (releaseParents rounds v m path) := by
  induction rounds generalizing v path with
  | zero => exact refl v
  | succ rounds ih =>
      rw [Fs.releaseParents]
      split
      · exact refl v
      · next parent _ =>
        split
        · exact refl v
        · simp only [vfsNodeLookup]
          cases hfind : v.findNode m parent with
          | none => exact ih
          | some n =>
              have hn : (v.node n).mount ∈ ms := by
                have htest := List.find?_some hfind
                rw [Bool.and_eq_true, beq_iff_eq] at htest
                exact htest.1 ▸ hm
              have hlooked : v.Releases ms (v.addNodeRef n 1) := addNodeRef hn
              have hput : v.Releases ms (Fs.vfsNodePut (v.addNodeRef n 1) n) :=
                hlooked.trans (vfsNodePut ((hlooked.mount n).symm ▸ hn))
              exact (hput.trans (vfsNodePut ((hput.mount n).symm ▸ hn))).trans ih

/-- `VfsNodeRelease` puts nodes of the mount of its node. -/
theorem vfsNodeRelease (hn : (v.node n).mount ∈ ms)
    (hroot : ∀ r, (v.mount (v.node n).mount).root = some r → (v.node r).mount ∈ ms) :
    v.Releases ms (vfsNodeRelease v n) := by
  unfold Fs.vfsNodeRelease
  simp only
  split
  · exact vfsNodePut hn
  · split
    · exact refl v
    · have hparents : v.Releases ms (Fs.releaseParents (v.node n).path.length
          (Fs.vfsNodePut v n) (v.node n).mount (v.node n).path) :=
        (vfsNodePut hn).trans (releaseParents hn)
      have hframe : v.Frame (Fs.releaseParents (v.node n).path.length
          (Fs.vfsNodePut v n) (v.node n).mount (v.node n).path) :=
        Frame.vfsNodePut.trans .releaseParents
      refine hparents.trans ?_
      unfold putRoot
      split
      · exact refl _
      · next r hr =>
        rw [hframe.root] at hr
        exact vfsNodePut ((hparents.mount r).symm ▸ hroot r hr)

theorem vfsNodeRelease_mem (hinv : CacheInv v) (hm : (v.node n).mount ∈ v.mounts)
    (hn : (v.node n).mount ∈ ms) : v.Releases ms (Fs.vfsNodeRelease v n) := by
  refine vfsNodeRelease hn fun r hr => ?_
  rwa [(hinv.nodeAt_root hm hr).mount]

end Vfs.Releases

/-! ## An acquisition that fails in a lookup -/

/-- An acquisition that succeeds takes references; one that does not find a component takes some
and gives some back. -/
def Vfs.Undone (ms : Set ℕ) (v : Vfs σ) : Except AcquireFailure ℕ × Vfs σ → Prop
  | (.ok _, w) => v.Acquires ms w
  | (.error .get, _) => True
  | (.error _, w) => ∃ x, CacheInv x ∧ v.Acquires ms x ∧ x.Releases ms w

section Acquire

variable {ms : Set ℕ} {v u : Vfs σ} {m dn : ℕ} {names : List Str} {held : List Acquisition}
  {rest : List Token} {path : Str}

theorem Vfs.Undone.of_acquires {r : Except AcquireFailure ℕ × Vfs σ} (h : v.Acquires ms u)
    (hundone : u.Undone ms r) : v.Undone ms r := by
  obtain ⟨_ | _, w⟩ := r
  · rename_i failure
    cases failure with
    | get => trivial
    | mount | lookup =>
        obtain ⟨x, hx, hacquires, hreleases⟩ := hundone
        exact ⟨x, hx, h.trans hacquires, hreleases⟩
  · exact h.trans hundone

theorem NodeInv.releases (hinv : NodeInv v (⟨m, names, dn⟩ :: held)) (hm : m ∈ ms) :
    v.Releases ms (Fs.vfsNodeRelease v dn) := by
  have ha := hinv.anchored _ List.mem_cons_self
  have hat := hinv.nodeAt_of_nodeOf ha.mount ha.node
  exact .vfsNodeRelease_mem hinv.toCacheInv (hat.mount.symm ▸ ha.mount) (hat.mount.symm ▸ hm)

/-- The rounds of `VfsNodeAcquire`. -/
theorem NodeInv.acquireLoop_undone (hinv : NodeInv v (⟨m, names, dn⟩ :: held)) (hm : m ∈ ms)
    (htokens : ∀ token ∈ rest, NameOk token.name) :
    v.Undone ms (Fs.acquireLoop v m dn (nodePath names) rest) := by
  induction rest generalizing v names dn with
  | nil => exact Vfs.Acquires.refl v
  | cons token rest ih =>
      have hname := htokens token List.mem_cons_self
      have hrest : ∀ token ∈ rest, NameOk token.name := fun token hmem =>
        htokens token (List.mem_cons_of_mem _ hmem)
      rw [Fs.acquireLoop]
      simp only [← nodePath_concat, vfsNodeLookup]
      cases hfind : v.findNode m (nodePath (names ++ [token.name])) with
      | some n =>
          have hat := hinv.findNode_eq_some_iff.mp hfind
          exact .of_acquires (.addNodeRef (hat.mount.symm ▸ hm))
            (ih (hinv.acquireChild hname hat) hrest)
      | none =>
          simp only
          have hget : v.Acquires ms (Fs.vfsNodeGet v m (nodePath (names ++ [token.name]))).2 :=
            .vfsNodeGet hinv.toCacheInv hm
          rcases hresult : Fs.vfsNodeGet v m (nodePath (names ++ [token.name])) with ⟨_ | n, v'⟩
          · trivial
          · rw [hresult] at hget
            have hnew := hinv.getChild hname hfind hresult
            simp only
            split
            · exact ⟨_, (hnew.setInode n _ _).toCacheInv,
                hget.trans ((Vfs.Acquires.fsState le_rfl).trans .setInode),
                (hnew.setInode n _ _).releases hm⟩
            · exact .of_acquires (hget.trans ((Vfs.Acquires.fsState le_rfl).trans .setInode))
                (ih (hnew.setInode n _ _) hrest)

/-- `VfsNodeAcquire` stays within the mounts of the list. -/
theorem NodeInv.vfsNodeAcquire_undone (hinv : NodeInv v held) (path : Str)
    (hms : ∀ m ∈ v.mounts, m ∈ ms) : v.Undone ms (Fs.vfsNodeAcquire v path) := by
  unfold Fs.vfsNodeAcquire
  cases hfind : vfsFindRoot v path with
  | none => exact ⟨v, hinv.toCacheInv, .refl v, .refl v⟩
  | some found =>
      obtain ⟨m, p⟩ := found
      have hm := mem_mounts_of_vfsFindRoot hfind
      obtain ⟨r, hroot, hr⟩ := hinv.root m hm
      simp only [hroot]
      exact .of_acquires (.addNodeRef (hr.mount.symm ▸ hms m hm))
        ((hinv.acquireRoot hm hroot).acquireLoop_undone (hms m hm)
          fun token hmem => nameOk_of_mem_tokens hmem)

end Acquire

/-! ## The counts afterwards -/

section Afterwards

variable {v w x : Vfs σ} {held : List Acquisition} {n : ℕ}

theorem NodeInv.cached_of_cached (hv : NodeInv v held) (hw : NodeInv w held) (hx : CacheInv x)
    (hvx : ∀ m path n, v.NodeAt m path n → x.NodeAt m path n)
    (hwx : ∀ m path n, w.NodeAt m path n → x.NodeAt m path n)
    (hroot : ∀ m ∈ v.mounts, (w.mount m).root = (v.mount m).root)
    (hm : (w.node n).mount ∈ v.mounts) (hcached : w.Cached n) : v.Cached n := by
  rcases hw.shaped n hcached with hpath | ⟨names, hnames, hpath, -⟩
  · have hrooted := hw.rooted _ n ⟨hcached, rfl, hpath⟩
    rw [hroot _ hm] at hrooted
    exact (hv.nodeAt_root hm hrooted).cached
  · -- both states have a node of this path, and it is the same one in between
    have hpos := (hw.countsExact.cached_iff _ names hnames).mp ⟨n, hcached, rfl, hpath⟩
    obtain ⟨n', hn'⟩ := (hv.countsExact.cached_iff _ names hnames).mpr hpos
    obtain rfl := hx.keyed _ _ n n' (hwx _ _ n ⟨hcached, rfl, hpath⟩) (hvx _ _ n' hn')
    exact hn'.cached

/-- The outstanding acquisitions decide the count of a node of a mount on the list. -/
theorem NodeInv.refcnt_eq (hv : NodeInv v held) (hw : NodeInv w held)
    (hmounts : w.mounts = v.mounts)
    (hroot : ∀ m ∈ v.mounts, (w.mount m).root = (v.mount m).root)
    (hmount : (w.node n).mount = (v.node n).mount) (hpath : (w.node n).path = (v.node n).path)
    (hm : (v.node n).mount ∈ v.mounts) (hcached : v.Cached n) (hcached' : w.Cached n) :
    (w.node n).refcnt = (v.node n).refcnt := by
  have hsame : ∀ names, (∀ name ∈ names, NameOk name) → v.NodeOf (v.node n).mount names n →
      w.NodeOf (v.node n).mount names n → (w.node n).refcnt = (v.node n).refcnt := by
    intro names hnames hof hof'
    exact (hw.counted _ (hmounts.symm ▸ hm) names hnames n hof').1.trans
      (hv.counted _ hm names hnames n hof).1.symm
  rcases hv.shaped n hcached with hslash | ⟨names, hnames, hnode, -⟩
  · have hrooted := hv.rooted _ n ⟨hcached, rfl, hslash⟩
    exact hsame [] (by simp) hrooted ((hroot _ hm).trans hrooted)
  · refine hsame names hnames.nameOk ?_ ?_
    · rw [Vfs.NodeOf, if_neg hnames.ne_nil]
      exact ⟨hcached, rfl, hnode⟩
    · rw [Vfs.NodeOf, if_neg hnames.ne_nil]
      exact ⟨hcached', hmount, hpath.trans hnode⟩

theorem sameCounts_of_undone {ms : Set ℕ} (hv : NodeInv v held) (hw : NodeInv w held)
    (hx : CacheInv x) (hacquires : v.Acquires ms x) (hreleases : x.Releases ms w)
    (hmounts : w.mounts = v.mounts)
    (hroot : ∀ m ∈ v.mounts, (w.mount m).root = (v.mount m).root)
    (hidle : ∀ m ∈ ms, m ∉ v.mounts → ∀ n, (v.Cached n → (v.node n).mount ≠ m) ∧
      (w.Cached n → (w.node n).mount ≠ m)) : SameCounts v w := by
  have hnode : ∀ n, v.Cached n → (w.node n).mount = (v.node n).mount ∧
      (w.node n).path = (v.node n).path := fun n hn =>
    ⟨(hreleases.mount n).trans (hacquires.mount n hn),
      (hreleases.path n).trans (hacquires.path n hn)⟩
  have hvx : ∀ m path n, v.NodeAt m path n → x.NodeAt m path n := fun m path n hat =>
    ⟨hacquires.cached n hat.cached, (hacquires.mount n hat.cached).trans hat.mount,
      (hacquires.path n hat.cached).trans hat.path⟩
  have hwx : ∀ m path n, w.NodeAt m path n → x.NodeAt m path n := fun m path n hat =>
    ⟨hreleases.cached n hat.cached, (hreleases.mount n).symm.trans hat.mount,
      (hreleases.path n).symm.trans hat.path⟩
  have hroot' : ∀ m ∈ w.mounts, (v.mount m).root = (w.mount m).root := fun m hm =>
    (hroot m (hmounts ▸ hm)).symm
  have hcached : ∀ n, w.Cached n ↔ v.Cached n := by
    intro n
    constructor
    · intro hn
      by_cases hm : (w.node n).mount ∈ v.mounts
      · exact hv.cached_of_cached hw hx hvx hwx hroot hm hn
      · refine (hacquires.created n (hreleases.cached n hn)).resolve_right fun hmem => ?_
        rw [← hreleases.mount n] at hmem
        exact (hidle _ hmem hm n).2 hn rfl
    · intro hn
      by_cases hm : (v.node n).mount ∈ v.mounts
      · exact hw.cached_of_cached hv hx hwx hvx hroot' (hmounts.symm ▸ hm) hn
      · refine hreleases.kept n (hacquires.cached n hn) fun hmem => ?_
        rw [hacquires.mount n hn] at hmem
        exact (hidle _ hmem hm n).1 hn rfl
  refine ⟨hcached, fun n hn => ?_, fun m _ => ?_⟩
  · by_cases hm : (v.node n).mount ∈ v.mounts
    · exact hv.refcnt_eq hw hmounts hroot (hnode n hn).1 (hnode n hn).2 hm hn ((hcached n).mpr hn)
    · have hmem : (v.node n).mount ∉ ms := fun hmem => (hidle _ hmem hm n).1 hn rfl
      have hmem' : (x.node n).mount ∉ ms := (hacquires.mount n hn).symm ▸ hmem
      exact (hreleases.refcnt n hmem').trans (hacquires.refcnt n hn hmem)
  · rw [hw.population m, hv.population m]
    congr 2
    ext n
    rw [hw.mem_population, hv.mem_population, hcached n]
    exact and_congr_right fun hn => by rw [(hnode n hn).1]

end Afterwards

end Nxos.Fs
