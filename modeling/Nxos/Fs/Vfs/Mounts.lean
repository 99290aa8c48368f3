import Nxos.Fs.Vfs.Acquire
import Nxos.Fs.Vfs.Operations

/-!
# References while mounting and unmounting

A mount is off the list before it is mounted and after it is unmounted, and its root is the one
node it has.  The invariant of the node cache holds throughout, with the acquisitions that are
outstanding and those that failing operations have left.
-/

namespace Nxos.Fs

variable {σ : Type}

/-! ## Mounts off the list -/

/-- A mount that is not on the list has its root alone, with one reference. -/
structure Vfs.Detached (v : Vfs σ) (m r : ℕ) : Prop where
  notMem : m ∉ v.mounts
  allocated : m < v.allocs
  root : (v.mount m).root = some r
  nodeAt : v.NodeAt m [slash] r
  refcnt : (v.node r).refcnt = 1
  alone : ∀ n, v.Cached n → (v.node n).mount = m → n = r

theorem Vfs.Detached.of_agree {v v' : Vfs σ} {m r : ℕ} (hdetached : v.Detached m r)
    (hagree : v.Agree v') (hrefcnt : ∀ n, (v'.node n).refcnt = (v.node n).refcnt) :
    v'.Detached m r where
  notMem := hagree.mounts ▸ hdetached.notMem
  allocated := hdetached.allocated.trans_le hagree.allocs
  root := (hagree.root m).trans hdetached.root
  nodeAt := hagree.nodeAt_iff.mpr hdetached.nodeAt
  refcnt := (hrefcnt r).trans hdetached.refcnt
  alone n hcached hmount :=
    hdetached.alone n (hagree.cached_iff.mp hcached) ((hagree.nodeMount n).symm.trans hmount)

namespace NodeInv

variable {v v' : Vfs σ} {m n r : ℕ} {held : List Acquisition}

theorem ne_of_nodeOf {names : List Str} {n' : ℕ} (hinv : NodeInv v held) (hm : m ∈ v.mounts)
    (hof : v.NodeOf m names n') (hn : (v.node n).mount ∉ v.mounts) : n' ≠ n := by
  rintro rfl
  rw [(hinv.nodeAt_of_nodeOf hm hof).mount] at hn
  exact hn hm

theorem putDetached (hinv : NodeInv v held) (hcached : v.Cached n)
    (hn : (v.node n).mount ∉ v.mounts) : NodeInv (Fs.vfsNodePut v n) held := by
  have hagree : v.Agree (v.addNodeRef n (-1)) := addNodeRef_agree
  have hcache := hinv.toCacheInv.of_agree hagree
  by_cases hlast : (v.node n).refcnt = 1
  · obtain ⟨s, hs⟩ := vfsNodePut_last hlast
    rw [hs]
    refine ⟨hcache.dropNode (hagree.cached_iff.mpr hcached) fun m' hm' hroot => ?_,
      fun m' hm' names' hnames' n' hof' => ?_, fun a ha => ?_⟩
    · have hof : v.NodeOf m' [] n := hroot
      exact hinv.ne_of_nodeOf hm' hof hn rfl
    · have hold := hagree.nodeOf_iff.mp (hcache.nodeOf_dropNode_iff.mp hof').1
      change ((v.addNodeRef n (-1)).node n').refcnt = _ ∧ _
      rw [addNodeRef_node_of_ne (hinv.ne_of_nodeOf hm' hold hn)]
      exact hinv.counted m' hm' names' hnames' n' hold
    · refine (hinv.anchored a ha).of_nodeOf rfl fun names' n' _ hof' => ?_
      exact hcache.nodeOf_dropNode_iff.mpr ⟨hagree.nodeOf_iff.mpr hof',
        fun _ => hinv.ne_of_nodeOf (hinv.anchored a ha).mount hof' hn⟩
  · rw [vfsNodePut_of_ne hlast]
    refine ⟨hcache, fun m' hm' names' hnames' n' hof' => ?_, fun a ha => ?_⟩
    · have hold := hagree.nodeOf_iff.mp hof'
      rw [addNodeRef_node_of_ne (hinv.ne_of_nodeOf hm' hold hn)]
      exact hinv.counted m' hm' names' hnames' n' hold
    · exact (hinv.anchored a ha).of_nodeOf rfl fun names' n' _ => hagree.nodeOf_iff.mpr

/-- `VfsNodeRelease` of such a root puts it. -/
theorem releaseDetached (hinv : NodeInv v held) (hdetached : v.Detached m r) :
    NodeInv (Fs.vfsNodeRelease v r) held := by
  unfold Fs.vfsNodeRelease
  simp only [hdetached.nodeAt.mount]
  rw [if_pos hdetached.root]
  exact hinv.putDetached hdetached.nodeAt.cached (hdetached.nodeAt.mount ▸ hdetached.notMem)

/-! ## A new mount -/

theorem newMount {mount : VfsMount σ} (hinv : NodeInv v held) (hroot : mount.root = none)
    (hrefcnt : mount.refcnt = 0) :
    NodeInv { v with
      allocs := v.allocs + 1
      mount := Function.update v.mount v.allocs mount } held := by
  have hempty : v.population v.allocs = ∅ := by
    rw [Finset.eq_empty_iff_forall_notMem]
    intro n hn
    obtain ⟨hcached, hmount⟩ := hinv.mem_population.mp hn
    exact (hinv.owned n hcached).ne hmount
  have hzero := hinv.population v.allocs
  rw [hempty, Finset.card_empty] at hzero
  refine hinv.of_agree ⟨rfl, rfl, fun _ => rfl, fun _ => rfl, fun m => ?_, fun m => ?_,
    Nat.le_succ _⟩ fun _ => rfl
  · by_cases hm : m = v.allocs
    · subst hm
      simp [hroot, hinv.unborn v.allocs (le_refl _)]
    · simp [hm]
  · by_cases hm : m = v.allocs
    · subst hm
      simp [hrefcnt, hzero]
    · simp [hm]

theorem setCovered (hinv : NodeInv v held) (m : ℕ) (covered : Option ℕ) :
    NodeInv (v.setCovered m covered) held := by
  refine hinv.of_agree ⟨rfl, rfl, fun _ => rfl, fun _ => rfl, fun m' => ?_, fun m' => ?_,
    le_refl _⟩ fun _ => rfl
  · by_cases hm : m' = m
    · subst hm
      simp [Vfs.setCovered]
    · simp [Vfs.setCovered, hm]
  · by_cases hm : m' = m
    · subst hm
      simp [Vfs.setCovered]
    · simp [Vfs.setCovered, hm]

theorem setRoot (hinv : NodeInv v held) (hm : m ∉ v.mounts) (hborn : m < v.allocs)
    (hnone : ∀ n, ¬v.NodeAt m [slash] n) : NodeInv (v.setRoot m r) held := by
  have hmount : ∀ m', m' ≠ m → (v.setRoot m r).mount m' = v.mount m' := fun m' hne => by
    simp [Vfs.setRoot, hne]
  have hat : ∀ {m' path n}, (v.setRoot m r).NodeAt m' path n ↔ v.NodeAt m' path n :=
    ⟨fun h => ⟨h.cached, h.mount, h.path⟩, fun h => ⟨h.cached, h.mount, h.path⟩⟩
  have hne : ∀ m' ∈ v.mounts, m' ≠ m := fun m' hm' heq => hm (heq ▸ hm')
  have hof : ∀ m' ∈ v.mounts, ∀ names n,
      (v.setRoot m r).NodeOf m' names n ↔ v.NodeOf m' names n := by
    intro m' hm' names n
    unfold Vfs.NodeOf
    rw [hmount m' (hne m' hm'), hat]
  refine ⟨⟨hinv.nodup, hinv.listed, hinv.short, ?_, hinv.shaped, ?_, ?_, ?_, hinv.mounts,
    hinv.allocated, hinv.owned, ?_⟩, ?_, ?_⟩
  · exact fun m' path n n' h h' => hinv.keyed m' path n n' (hat.mp h) (hat.mp h')
  · intro m' hm'
    obtain ⟨root, hroot, hr⟩ := hinv.root m' hm'
    rw [hmount m' (hne m' hm')]
    exact ⟨root, hroot, hat.mpr hr⟩
  · intro m' n h
    have hother : m' ≠ m := by
      rintro rfl
      exact hnone n (hat.mp h)
    rw [hmount m' hother]
    exact hinv.rooted m' n (hat.mp h)
  · intro m'
    have hrefcnt : ((v.setRoot m r).mount m').refcnt = (v.mount m').refcnt := by
      by_cases heq : m' = m
      · subst heq
        simp [Vfs.setRoot]
      · rw [hmount m' heq]
    rw [hrefcnt]
    exact hinv.population m'
  · intro m' hm'
    rw [hmount m' fun heq => (heq ▸ hm').not_gt hborn]
    exact hinv.unborn m' hm'
  · intro m' hm' names hnames n hn
    exact hinv.counted m' hm' names hnames n ((hof m' hm' names n).mp hn)
  · exact fun a ha => (hinv.anchored a ha).of_nodeOf rfl fun names n _ =>
      (hof a.mount (hinv.anchored a ha).mount names n).mpr

theorem joinNode_setRoot {path : Str} {inode : VfsInode} :
    (v.joinNode n m path inode).setRoot m r = (v.setRoot m r).joinNode n m path inode := by
  simp [Vfs.joinNode, Vfs.setRoot, Vfs.addNode, Vfs.addMountRef]

theorem getRoot (hinv : NodeInv v held) (hm : m ∉ v.mounts) (hborn : m < v.allocs)
    (hempty : ∀ n, v.Cached n → (v.node n).mount ≠ m)
    (hget : vfsNodeGet v m [slash] = (some r, v')) :
    NodeInv (v'.setRoot m r) held ∧ (v'.setRoot m r).Detached m r := by
  rcases vfsNodeGet_cases v m [slash] with ⟨s, hs⟩ | ⟨s, inode, hshort, hs⟩
  · rw [hs] at hget
    cases hget
  · rw [hs] at hget
    cases hget
    have hlt : m < v.allocs + 1 := Nat.lt_succ_of_lt hborn
    have hfresh : ∀ hash, v.allocs ∉ v.nodeList hash := fun hash hmem =>
      (hinv.listed hash _ hmem).2.ne rfl
    have hstate : NodeInv ({ v with fsState := s, allocs := v.allocs + 1 } : Vfs σ) held :=
      hinv.fsState (Nat.le_succ _)
    have hset := hstate.setRoot (r := v.allocs) hm hlt fun n hn =>
      hempty n hn.cached hn.mount
    rw [joinNode_setRoot]
    generalize hw : ({ v with fsState := s, allocs := v.allocs + 1 } : Vfs σ).setRoot m v.allocs
      = w at hset ⊢
    have hwroot : (w.mount m).root = some v.allocs := by
      subst hw
      simp [Vfs.setRoot]
    have hwcached : ∀ n, w.Cached n → (w.node n).mount ≠ m := by
      subst hw
      exact hempty
    have hwfresh : ∀ hash, v.allocs ∉ w.nodeList hash := by
      subst hw
      exact hfresh
    have hwallocs : w.allocs = v.allocs + 1 := by
      subst hw
      rfl
    have hwmounts : m ∉ w.mounts := by
      subst hw
      exact hm
    have hcache : CacheInv (w.joinNode v.allocs m [slash] inode) :=
      hset.toCacheInv.joinNode hwfresh (hwallocs ▸ Nat.lt_succ_self _) (hwallocs ▸ hlt) hshort
        (fun x hx => hwcached x hx.cached hx.mount) (.inl ⟨rfl, hwroot⟩)
    have hother : ∀ n, w.Cached n → n ≠ v.allocs := by
      rintro n hcached rfl
      exact hwfresh _ hcached
    have hof : ∀ m' ∈ w.mounts, ∀ names n, (w.joinNode v.allocs m [slash] inode).NodeOf m' names n ↔
        w.NodeOf m' names n := by
      intro m' hm' names n
      unfold Vfs.NodeOf
      rw [show ((w.joinNode v.allocs m [slash] inode).mount m').root = (w.mount m').root from
        addMountRef_root, CacheInv.nodeAt_joinNode_iff hwfresh]
      have hne : m' ≠ m := fun heq => hwmounts (heq ▸ hm')
      simp [hne]
    refine ⟨⟨hcache, fun m' hm' names hnames n hn => ?_, fun a ha => ?_⟩, ?_⟩
    · have hold := (hof m' hm' names n).mp hn
      have hcached := (hset.nodeAt_of_nodeOf hm' hold).cached
      rw [CacheInv.joinNode_node_of_ne (hother n hcached)]
      exact hset.counted m' hm' names hnames n hold
    · exact (hset.anchored a ha).of_nodeOf rfl fun names n _ =>
        (hof a.mount (hset.anchored a ha).mount names n).mpr
    · refine ⟨hwmounts, ?_, addMountRef_root.trans hwroot,
        (CacheInv.nodeAt_joinNode_iff hwfresh).mpr (.inl ⟨rfl, rfl, rfl⟩), ?_, ?_⟩
      · exact hwallocs ▸ hlt
      · rw [CacheInv.joinNode_node_self]
      · intro n hcached hmount
        by_contra hne
        rw [CacheInv.joinNode_node_of_ne hne] at hmount
        exact hwcached n (((CacheInv.cached_joinNode_iff hwfresh).mp hcached).resolve_left hne)
          hmount

theorem addMount (hinv : NodeInv v held) (hdetached : v.Detached m r) :
    NodeInv { v with mounts := m :: v.mounts } held := by
  have hat : ∀ {m' path n}, ({ v with mounts := m :: v.mounts } : Vfs σ).NodeAt m' path n ↔
      v.NodeAt m' path n :=
    ⟨fun h => ⟨h.cached, h.mount, h.path⟩, fun h => ⟨h.cached, h.mount, h.path⟩⟩
  have hof : ∀ {m' names n}, ({ v with mounts := m :: v.mounts } : Vfs σ).NodeOf m' names n ↔
      v.NodeOf m' names n := by
    intro m' names n
    unfold Vfs.NodeOf
    rw [hat]
  refine ⟨⟨hinv.nodup, hinv.listed, hinv.short, ?_, ?_, ?_, ?_, hinv.population,
    List.nodup_cons.mpr ⟨hdetached.notMem, hinv.mounts⟩, ?_, hinv.owned, hinv.unborn⟩, ?_, ?_⟩
  · exact fun m' path n n' h h' => hinv.keyed m' path n n' (hat.mp h) (hat.mp h')
  · intro n hcached
    refine (hinv.shaped n hcached).imp id ?_
    rintro ⟨names, hnames, hpath, hmem⟩
    exact ⟨names, hnames, hpath, List.mem_cons_of_mem _ hmem⟩
  · intro m' hm'
    rcases List.mem_cons.mp hm' with rfl | hm'
    · exact ⟨r, hdetached.root, hat.mpr hdetached.nodeAt⟩
    · obtain ⟨root, hroot, hr⟩ := hinv.root m' hm'
      exact ⟨root, hroot, hat.mpr hr⟩
  · exact fun m' n h => hinv.rooted m' n (hat.mp h)
  · intro m' hm'
    rcases List.mem_cons.mp hm' with rfl | hm'
    · exact hdetached.allocated
    · exact hinv.allocated m' hm'
  · intro m' hm' names hnames n hn
    have hold := hof.mp hn
    rcases List.mem_cons.mp hm' with rfl | hm'
    · -- The new mount has its root only, and no acquisition.
      have hzero : prefixCount held m' names = 0 := by
        by_contra hpos
        obtain ⟨a, ha, hkey⟩ := List.countP_pos_iff.mp (Nat.pos_of_ne_zero hpos)
        simp only [decide_eq_true_eq] at hkey
        exact hdetached.notMem (hkey.1 ▸ (hinv.anchored a ha).mount)
      by_cases hnil : names = []
      · subst hnil
        have hroot : (v.mount m').root = some n := hold
        rw [hdetached.root, Option.some.injEq] at hroot
        subst hroot
        rw [hzero]
        exact ⟨hdetached.refcnt, by simp [baseCount]⟩
      · rw [Vfs.NodeOf, if_neg hnil] at hold
        have heq := hdetached.alone n hold.cached hold.mount
        subst heq
        exact absurd (hold.path.symm.trans hdetached.nodeAt.path) (nodePath_ne_root hnames)
    · exact hinv.counted m' hm' names hnames n hold
  · intro a ha
    have hanchored := hinv.anchored a ha
    exact ⟨List.mem_cons_of_mem _ hanchored.mount, hanchored.nameOk, hof.mpr hanchored.node,
      fun names hpart => (hanchored.chain names hpart).imp fun n => hof.mpr⟩

end NodeInv

theorem CacheInv.mount_ne {v : Vfs σ} {m : ℕ} (hinv : CacheInv v) (hm : m ∉ v.mounts)
    (hroot : (v.mount m).root = none) (n : ℕ) (hcached : v.Cached n) :
    (v.node n).mount ≠ m := by
  rintro rfl
  rcases hinv.shaped n hcached with hpath | ⟨names, -, -, hmem⟩
  · rw [hinv.rooted _ n ⟨hcached, rfl, hpath⟩] at hroot
    cases hroot
  · exact hm hmem

/-! ## References that were left behind -/

/-- The references are those of the outstanding acquisitions and of some that failing
operations have left. -/
def HeldInv (v : Vfs σ) (held : List Acquisition) : Prop :=
  ∃ leaked, NodeInv v (leaked ++ held)

theorem NodeInv.heldInv {v : Vfs σ} {held : List Acquisition} (hinv : NodeInv v held) :
    HeldInv v held :=
  ⟨[], hinv⟩

namespace HeldInv

variable {v v' : Vfs σ} {n : ℕ} {a : Acquisition} {held held' : List Acquisition}

theorem perm (hinv : HeldInv v held) (hperm : held.Perm held') : HeldInv v held' := by
  obtain ⟨leaked, hleaked⟩ := hinv
  exact ⟨leaked, hleaked.perm (hperm.append_left leaked)⟩

theorem of_agree (hinv : HeldInv v held) (hagree : v.Agree v')
    (hrefcnt : ∀ n, (v'.node n).refcnt = (v.node n).refcnt) : HeldInv v' held := by
  obtain ⟨leaked, hleaked⟩ := hinv
  exact ⟨leaked, hleaked.of_agree hagree hrefcnt⟩

theorem fsState {s : σ} (hinv : HeldInv v held) : HeldInv { v with fsState := s } held :=
  hinv.of_agree (agree_fsState (le_refl _)) fun _ => rfl

theorem release (hinv : HeldInv v (a :: held)) : HeldInv (vfsNodeRelease v a.node) held := by
  obtain ⟨leaked, hleaked⟩ := hinv
  exact ⟨leaked, (hleaked.perm List.perm_middle).vfsNodeRelease⟩

/-- `VfsNodeAcquire` adds one acquisition, or leaves those there are. -/
theorem acquire (hinv : HeldInv v held) (path : Str) :
    match vfsNodeAcquire v path with
    | (.ok n, v') => ∃ a : Acquisition, a.node = n ∧ HeldInv v' (a :: held)
    | (.error _, v') => HeldInv v' held := by
  obtain ⟨leaked, hleaked⟩ := hinv
  cases hfind : vfsFindRoot v path with
  | none =>
      rw [vfsNodeAcquire_of_findRoot_none hfind]
      exact ⟨leaked, hleaked⟩
  | some mp =>
      have hacquired := hleaked.vfsNodeAcquire hfind
      rcases hresult : vfsNodeAcquire v path with ⟨failure | n, v'⟩ <;> rw [hresult] at hacquired
      · cases failure with
        | get =>
            obtain ⟨more, hmore⟩ := hacquired
            exact ⟨more ++ leaked, by rwa [List.append_assoc]⟩
        | lookup => exact ⟨leaked, hacquired⟩
        | mount => exact ⟨leaked, hacquired⟩
      · exact ⟨⟨mp.1, pathNames mp.2, n⟩, rfl, leaked, NodeInv.perm hacquired
          List.perm_middle.symm⟩

end HeldInv

/-! ## Mounting -/

/-- A mount is ready to join the list, and the others are as they were. -/
structure Vfs.Ready (v v' : Vfs σ) (m r : ℕ) (held : List Acquisition) : Prop where
  inv : NodeInv v' held
  detached : v'.Detached m r
  frame : v.Frame v'

namespace Vfs.Ready

variable {v v' : Vfs σ} {m r : ℕ} {held : List Acquisition}

theorem setInode {inode : VfsInode} (hready : v.Ready v' m r held) :
    v.Ready (v'.setInode r inode) m r held where
  inv := hready.inv.of_agree setInode_agree fun _ => setInode_refcnt
  detached := hready.detached.of_agree setInode_agree fun _ => setInode_refcnt
  frame := hready.frame.trans .setInode

theorem fsState {s : σ} (hready : v.Ready v' m r held) :
    v.Ready { v' with fsState := s } m r held where
  inv := hready.inv.fsState (le_refl _)
  detached := hready.detached.of_agree (agree_fsState (le_refl _)) fun _ => rfl
  frame := hready.frame.trans .fsState

end Vfs.Ready

section Mounting

variable {v v' : Vfs σ} {m r : ℕ} {held : List Acquisition} {absPath : Str} {bdev : Option ℕ}

/-- What the file system writes to its state and to the new root keeps `P`; then the mount joins the
list, or its root is released and then the covered directory. -/
theorem mountRoot_keeps {P : Vfs σ → Prop} (hstart : P (v.setRoot m r))
    (hinode : ∀ w inode, P w → P (w.setInode r inode))
    (hstate : ∀ w s, P w → P { w with fsState := s }) (absPath : Str) (bdev : Option ℕ) :
    (∃ w, P w ∧ w.occupied absPath bdev = false ∧
      mountRoot v m r absPath bdev = (.eok, { w with mounts := m :: w.mounts })) ∨
    ∃ w err, P w ∧ err ≠ .eok ∧ mountRoot v m r absPath bdev =
      (err, releaseNode (vfsNodeRelease w r) (v.mount m).covered) := by
  have hmounted : ∀ s inode, P (({ (v.setRoot m r).setInode r inode with fsState := s } :
      Vfs σ)) := fun s inode => hstate _ s (hinode _ inode hstart)
  unfold mountRoot
  simp only
  split
  · next herr => exact .inr ⟨_, _, hinode _ _ (hmounted _ _), herr, rfl⟩
  · split
    · exact .inr ⟨_, _, hstate _ _ (hinode _ _ (hinode _ _ (hmounted _ _))), by simp, rfl⟩
    · next hfree =>
      exact .inl ⟨_, hinode _ _ (hinode _ _ (hmounted _ _)), Bool.not_eq_true _ ▸ hfree, rfl⟩

theorem mountRoot_cases (hready : (v.setRoot m r).Ready (v.setRoot m r) m r held)
    (absPath : Str) (bdev : Option ℕ) :
    (∃ w, (v.setRoot m r).Ready w m r held ∧
      mountRoot v m r absPath bdev = (.eok, { w with mounts := m :: w.mounts })) ∨
    ∃ w err, (v.setRoot m r).Ready w m r held ∧ err ≠ .eok ∧ mountRoot v m r absPath bdev =
      (err, releaseNode (vfsNodeRelease w r) (v.mount m).covered) :=
  (mountRoot_keeps hready (fun _ _ => Vfs.Ready.setInode) (fun _ _ => Vfs.Ready.fsState) absPath
    bdev).imp_left fun ⟨w, hw, _, heq⟩ => ⟨w, hw, heq⟩

/-- What `NX_VfsMountFileSystem` does to the mounts that were there: they stay. -/
structure Vfs.Stays (v v' : Vfs σ) : Prop where
  allocs : v.allocs ≤ v'.allocs
  mount : ∀ m < v.allocs, (v'.mount m).uncounted = (v.mount m).uncounted

theorem Vfs.Frame.stays (hframe : v.Frame v') : v.Stays v' :=
  ⟨hframe.allocs, fun m _ => hframe.mount m⟩

theorem Vfs.Stays.trans {v'' : Vfs σ} (hstays : v.Stays v') (hstays' : v'.Stays v'') :
    v.Stays v'' :=
  ⟨hstays.allocs.trans hstays'.allocs, fun m hm =>
    (hstays'.mount m (hm.trans_le hstays.allocs)).trans (hstays.mount m hm)⟩

theorem Vfs.Stays.setCovered {covered : Option ℕ} (hstays : v.Stays v') (hm : v.allocs ≤ m) :
    v.Stays (v'.setCovered m covered) where
  allocs := hstays.allocs
  mount m' hm' := by
    have hne : m' ≠ m := (hm'.trans_le hm).ne
    simp only [Vfs.setCovered, Function.update_of_ne hne]
    exact hstays.mount m' hm'

theorem Vfs.Stays.setRoot (hstays : v.Stays v') (hm : v.allocs ≤ m) :
    v.Stays (v'.setRoot m r) where
  allocs := hstays.allocs
  mount m' hm' := by
    have hne : m' ≠ m := (hm'.trans_le hm).ne
    simp only [Vfs.setRoot, Function.update_of_ne hne]
    exact hstays.mount m' hm'

theorem Vfs.Stays.covered (hstays : v.Stays v') (hm : m < v.allocs) :
    (v'.mount m).covered = (v.mount m).covered := by
  have hmount := congrArg VfsMount.covered (hstays.mount m hm)
  exact hmount

def coveredAcquisition (v : Vfs σ) (absPath : Str) : Option ℕ → List Acquisition
  | none => []
  | some n =>
      match vfsFindRoot v absPath with
      | none => []
      | some (m, p) => [⟨m, pathNames p, n⟩]

theorem mem_mounts_of_coveredAcquisition {a : Acquisition} {covered : Option ℕ}
    (ha : a ∈ coveredAcquisition v absPath covered) : a.mount ∈ v.mounts := by
  cases covered with
  | none => cases ha
  | some n =>
      rw [coveredAcquisition] at ha
      split at ha
      · cases ha
      · next hfind =>
        rw [List.mem_singleton.mp ha]
        exact mem_mounts_of_vfsFindRoot hfind

/-- The covered directory is acquired; if it cannot be, nothing is. -/
theorem NodeInv.acquireCovered (hinv : NodeInv v held) (absPath : Str) :
    match acquireCovered v absPath with
    | (.ok covered, v') =>
        NodeInv v' (coveredAcquisition v absPath covered ++ held) ∧
          (covered = none ∨ ∃ n a, covered = some n ∧ a.node = n ∧
            coveredAcquisition v absPath covered = [a])
    | (.error err, v') => HeldInv v' held ∧ err ≠ .eok := by
  unfold Fs.acquireCovered
  by_cases hslash : absPath = [slash]
  · rw [if_pos hslash]
    exact ⟨hinv, .inl rfl⟩
  · rw [if_neg hslash]
    cases hfind : vfsFindRoot v absPath with
    | none =>
        rw [vfsNodeAcquire_of_findRoot_none hfind]
        exact ⟨hinv.heldInv, by simp⟩
    | some mp =>
        have hacquired := hinv.vfsNodeAcquire hfind
        rcases hresult : Fs.vfsNodeAcquire v absPath with ⟨failure | n, v'⟩ <;>
          rw [hresult] at hacquired
        · refine ⟨?_, by simp⟩
          cases failure with
          | get => exact hacquired
          | lookup => exact NodeInv.heldInv hacquired
          | mount => exact NodeInv.heldInv hacquired
        · have hheld : NodeInv v' (⟨mp.1, pathNames mp.2, n⟩ :: held) := hacquired
          simp only
          by_cases hdir : (v'.node n).inode.type ≠ .dir
          · rw [if_pos hdir]
            exact ⟨hheld.vfsNodeRelease.heldInv, by simp⟩
          · rw [if_neg hdir]
            simp only [coveredAcquisition, hfind]
            exact ⟨hheld, .inr ⟨n, _, rfl, rfl, rfl⟩⟩

theorem Vfs.Frame.acquireCovered : v.Frame (acquireCovered v absPath).2 := by
  unfold Fs.acquireCovered
  split
  · exact refl v
  · have hframe : v.Frame (Fs.vfsNodeAcquire v absPath).2 := Vfs.Frame.vfsNodeAcquire
    rcases hresult : Fs.vfsNodeAcquire v absPath with ⟨failure | n, v'⟩ <;> rw [hresult] at hframe
    · exact hframe
    · simp only
      split
      · exact hframe.trans Vfs.Frame.vfsNodeRelease
      · exact hframe

theorem Vfs.Frame.releaseNode {covered : Option ℕ} : v.Frame (releaseNode v covered) := by
  cases covered with
  | none => exact refl v
  | some n => exact vfsNodeRelease

theorem NodeInv.releaseCovered {w : Vfs σ} {covered : Option ℕ}
    (hinv : NodeInv v (coveredAcquisition w absPath covered ++ held))
    (hcovered : covered = none ∨ ∃ n a, covered = some n ∧ a.node = n ∧
      coveredAcquisition w absPath covered = [a]) : NodeInv (releaseNode v covered) held := by
  rcases hcovered with rfl | ⟨n, a, rfl, rfl, ha⟩
  · exact hinv
  · rw [ha] at hinv
    exact hinv.vfsNodeRelease

theorem vfsFindRoot_congr (hmounts : v'.mounts = v.mounts)
    (hpath : ∀ m ∈ v.mounts, (v'.mount m).path = (v.mount m).path) :
    vfsFindRoot v' absPath = vfsFindRoot v absPath := by
  unfold vfsFindRoot
  rw [hmounts]
  have hfold := List.foldl_ext (longerMatch v' absPath) (longerMatch v absPath) (0, none)
    (l := v.mounts) fun best pos hpos => by
      unfold longerMatch
      rw [hpath pos hpos]
  rw [hfold]

/-- `NX_VfsMountFileSystem` once the mount is filled in. -/
theorem NodeInv.mountFilled {u : Vfs σ} {m : ℕ} (hinv : NodeInv u held) (hstays : v.Stays u)
    (hmounts : u.mounts = v.mounts) (hroot : (u.mount m).root = none) (hborn : m < u.allocs)
    (hm : v.allocs ≤ m) (hnotMem : m ∉ v.mounts)
    (hfind : vfsFindRoot u absPath = vfsFindRoot v absPath) :
    (∃ w, Fs.mountFilled u m absPath bdev = (.eok, { w with mounts := m :: w.mounts }) ∧
      w.mounts = v.mounts ∧ v.Stays w ∧
      NodeInv { w with mounts := m :: w.mounts }
        (coveredAcquisition v absPath (w.mount m).covered ++ held) ∧
      ((w.mount m).covered = none ∨ ∃ n a, (w.mount m).covered = some n ∧
        a.node = n ∧ coveredAcquisition v absPath (w.mount m).covered = [a])) ∨
    ∃ w err, Fs.mountFilled u m absPath bdev = (err, w) ∧ err ≠ .eok ∧
      w.mounts = v.mounts ∧ v.Stays w ∧ HeldInv w held := by
  have hsame : ∀ covered, coveredAcquisition u absPath covered =
      coveredAcquisition v absPath covered := by
    intro covered
    cases covered with
    | none => rfl
    | some n => rw [coveredAcquisition, coveredAcquisition, hfind]
  have hcovered := hinv.acquireCovered absPath
  have hframe : u.Frame (Fs.acquireCovered u absPath).2 := Vfs.Frame.acquireCovered
  unfold Fs.mountFilled
  rcases hresult : Fs.acquireCovered u absPath with ⟨err | covered, x⟩ <;>
    rw [hresult] at hcovered hframe
  · exact .inr ⟨x, err, rfl, hcovered.2, hframe.mounts.trans hmounts,
      hstays.trans hframe.stays, hcovered.1⟩
  · obtain ⟨hx, hshape⟩ := hcovered
    simp only [hsame] at hx hshape
    have hxstays : v.Stays (x.setCovered m covered) :=
      (hstays.trans hframe.stays).setCovered hm
    have hxinv := hx.setCovered m covered
    have hxmounts : (x.setCovered m covered).mounts = v.mounts := hframe.mounts.trans hmounts
    have hxroot : ((x.setCovered m covered).mount m).root = none := by
      rw [← hroot, ← hframe.root m]
      simp [Vfs.setCovered]
    have hempty := hxinv.toCacheInv.mount_ne (hxmounts ▸ hnotMem) hxroot
    have hget : (x.setCovered m covered).Frame
        (Fs.vfsNodeGet (x.setCovered m covered) m [slash]).2 := Vfs.Frame.vfsNodeGet
    simp only
    rcases hnode : Fs.vfsNodeGet (x.setCovered m covered) m [slash] with ⟨_ | root, y⟩ <;>
      rw [hnode] at hget
    · refine .inr ⟨_, _, rfl, by simp, ?_, ?_, ?_⟩
      · exact Vfs.Frame.releaseNode.mounts.trans (hget.mounts.trans hxmounts)
      · exact (hxstays.trans hget.stays).trans Vfs.Frame.releaseNode.stays
      · exact ((hxinv.getNone hnode).releaseCovered hshape).heldInv
    · have hyborn : m < (x.setCovered m covered).allocs := hborn.trans_le hframe.allocs
      obtain ⟨hyinv, hdetached⟩ :=
        hxinv.getRoot (hxmounts ▸ hnotMem) hyborn hempty hnode
      have hystays : v.Stays (y.setRoot m root) := (hxstays.trans hget.stays).setRoot hm
      have hycovered : (y.mount m).covered = covered := by
        rw [hget.covered]
        simp [Vfs.setCovered]
      have hysetcovered : ((y.setRoot m root).mount m).covered = covered := by
        rw [← hycovered]
        simp [Vfs.setRoot]
      have hymounts : (y.setRoot m root).mounts = v.mounts := hget.mounts.trans hxmounts
      simp only
      rcases mountRoot_cases ⟨hyinv, hdetached, Vfs.Frame.refl _⟩ absPath bdev with
        ⟨w, hw, heq⟩ | ⟨w, err, hw, herr, heq⟩
      · have hwcovered : (w.mount m).covered = covered := (hw.frame.covered m).trans hysetcovered
        refine .inl ⟨w, heq, hw.frame.mounts.trans hymounts, hystays.trans hw.frame.stays, ?_, ?_⟩
        · rw [hwcovered]
          exact hw.inv.addMount hw.detached
        · rw [hwcovered]
          exact hshape
      · refine .inr ⟨_, err, heq, herr, ?_, ?_, ?_⟩
        · exact Vfs.Frame.releaseNode.mounts.trans (Vfs.Frame.vfsNodeRelease.mounts.trans
            (hw.frame.mounts.trans hymounts))
        · exact ((hystays.trans hw.frame.stays).trans Vfs.Frame.vfsNodeRelease.stays).trans
            Vfs.Frame.releaseNode.stays
        · rw [hycovered]
          exact ((hw.inv.releaseDetached hw.detached).releaseCovered hshape).heldInv

/-- `NX_VfsMountFileSystem` adds a mount and the acquisition of the directory that it covers,
or leaves the mounts and acquisitions that were there. -/
theorem NodeInv.vfsMountFileSystem (hinv : NodeInv v held) (bdev : Option ℕ) (absPath : Str)
    (fs : VfsFileSystem σ) (flags : BitVec 32) :
    (∃ w, vfsMountFileSystem v bdev absPath fs flags =
        (.eok, { w with mounts := v.allocs :: w.mounts }) ∧
      w.mounts = v.mounts ∧ v.Stays w ∧
      NodeInv { w with mounts := v.allocs :: w.mounts }
        (coveredAcquisition v absPath (w.mount v.allocs).covered ++ held) ∧
      ((w.mount v.allocs).covered = none ∨ ∃ n a, (w.mount v.allocs).covered = some n ∧
        a.node = n ∧ coveredAcquisition v absPath (w.mount v.allocs).covered = [a])) ∨
    ∃ w err, vfsMountFileSystem v bdev absPath fs flags = (err, w) ∧ err ≠ .eok ∧
      w.mounts = v.mounts ∧ v.Stays w ∧ HeldInv w held := by
  have hgrow : ∀ record : VfsMount σ, v.Stays { v with
      allocs := v.allocs + 1
      mount := Function.update v.mount v.allocs record } := fun record =>
    ⟨Nat.le_succ _, fun m hm => by simp [hm.ne]⟩
  unfold Fs.vfsMountFileSystem memAlloc
  by_cases hmemory : v.memory v.allocs = true
  · simp only [hmemory, if_true]
    by_cases hlong : vfsMaxPath ≤ absPath.length
    · rw [if_pos hlong]
      exact .inr ⟨_, _, rfl, by simp, rfl, ⟨Nat.le_succ _, fun m _ => rfl⟩,
        (hinv.fsState (Nat.le_succ _)).heldInv⟩
    · rw [if_neg hlong]
      generalize hrecord : (⟨fs, bdev, absPath, flags &&& mountRo, 0, none, none⟩ : VfsMount σ) =
        record
      have hnew : NodeInv ({ v with
          allocs := v.allocs + 1
          mount := Function.update v.mount v.allocs record } : Vfs σ) held :=
        hinv.newMount (by rw [← hrecord]) (by rw [← hrecord])
      have hstays := hgrow record
      have hfind : vfsFindRoot ({ v with
          allocs := v.allocs + 1
          mount := Function.update v.mount v.allocs record } : Vfs σ) absPath =
          vfsFindRoot v absPath :=
        vfsFindRoot_congr rfl fun m hm => by simp [(hinv.allocated m hm).ne]
      have hroot : (Function.update v.mount v.allocs record v.allocs).root = none := by
        rw [Function.update_self, ← hrecord]
      have hborn : v.allocs < v.allocs + 1 := Nat.lt_succ_self _
      have hnotMem : v.allocs ∉ v.mounts := fun hm => (hinv.allocated _ hm).ne rfl
      generalize hu : ({ v with
          allocs := v.allocs + 1
          mount := Function.update v.mount v.allocs record } : Vfs σ) = u at hnew hstays hfind
      have humounts : u.mounts = v.mounts := by rw [← hu]
      have huroot : (u.mount v.allocs).root = none := by rw [← hu]; exact hroot
      have huborn : v.allocs < u.allocs := by rw [← hu]; exact hborn
      exact hnew.mountFilled hstays humounts huroot huborn (le_refl _) hnotMem hfind
  · simp only [hmemory]
    exact .inr ⟨_, _, rfl, by simp, rfl, ⟨Nat.le_succ _, fun m _ => rfl⟩,
      (hinv.fsState (Nat.le_succ _)).heldInv⟩

end Mounting

end Nxos.Fs
