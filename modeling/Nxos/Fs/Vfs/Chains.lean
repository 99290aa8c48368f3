import Nxos.Fs.Vfs.Nodes

/-!
# References along a path

Each operation on nodes is proved against the outstanding acquisitions: acquiring a path adds
one, releasing its node takes it away again, and a failing lookup leaves what there was.  An
acquisition that fails in `VfsNodeGet` keeps the references of an earlier component.
-/

namespace Nxos.Fs

variable {σ : Type}

/-! ## The node of a path -/

/-- The node of a chain of components in a mount, which is the root for the empty chain. -/
def Vfs.NodeOf (v : Vfs σ) (m : ℕ) (names : List Str) (n : ℕ) : Prop :=
  if names = [] then (v.mount m).root = some n else v.NodeAt m (nodePath names) n

/-- The nodes of an acquisition and of all prefixes of its path are there. -/
structure Vfs.Anchored (v : Vfs σ) (a : Acquisition) : Prop where
  mount : a.mount ∈ v.mounts
  nameOk : ∀ name ∈ a.names, NameOk name
  node : v.NodeOf a.mount a.names a.node
  chain : ∀ names, names <+: a.names → ∃ n, v.NodeOf a.mount names n

/-- The references of a chain that no acquisition takes: the one of a mount on its root. -/
def baseCount (names : List Str) : ℕ := if names = [] then 1 else 0

/-- The references of each node are those of the acquisitions through it, and there is one. -/
structure NodeInv (v : Vfs σ) (held : List Acquisition) : Prop extends CacheInv v where
  counted : ∀ m ∈ v.mounts, ∀ names, (∀ name ∈ names, NameOk name) → ∀ n, v.NodeOf m names n →
    (v.node n).refcnt = baseCount names + prefixCount held m names ∧
      0 < baseCount names + prefixCount held m names
  anchored : ∀ a ∈ held, v.Anchored a

/-- The counts of two lists of acquisitions differ for one chain only. -/
def CountShift (held held' : List Acquisition) (m : ℕ) (names : List Str) (k : ℤ) : Prop :=
  ∀ m' names', (prefixCount held' m' names' : ℤ) =
    prefixCount held m' names' + if m' = m ∧ names' = names then k else 0

theorem Vfs.Agree.nodeOf_iff {v v' : Vfs σ} {m n : ℕ} {names : List Str} (hagree : v.Agree v') :
    v'.NodeOf m names n ↔ v.NodeOf m names n := by
  unfold Vfs.NodeOf
  rw [hagree.root, hagree.nodeAt_iff]

namespace CacheInv

variable {v v' : Vfs σ} {m m' n n' : ℕ} {names names' : List Str}

theorem nodeOf_dropNode_iff {s : σ} (hinv : CacheInv v) :
    (v.dropNode n s).NodeOf m names n' ↔ v.NodeOf m names n' ∧ (names ≠ [] → n' ≠ n) := by
  unfold Vfs.NodeOf
  by_cases hnil : names = []
  · rw [if_pos hnil, if_pos hnil, Vfs.dropNode, addMountRef_root]
    change (v.mount m).root = some n' ↔ _
    simp [hnil]
  · rw [if_neg hnil, if_neg hnil, hinv.nodeAt_dropNode_iff]
    simp [hnil]

theorem nodeAt_root (hinv : CacheInv v) (hm : m ∈ v.mounts) (hroot : (v.mount m).root = some n) :
    v.NodeAt m [slash] n := by
  obtain ⟨r, hroot', hr⟩ := hinv.root m hm
  rw [hroot', Option.some.injEq] at hroot
  exact hroot ▸ hr

theorem nodeAt_of_nodeOf (hinv : CacheInv v) (hm : m ∈ v.mounts) (hof : v.NodeOf m names n) :
    v.NodeAt m (if names = [] then [slash] else nodePath names) n := by
  unfold Vfs.NodeOf at hof
  split at hof
  · next hnil =>
    rw [if_pos hnil]
    exact hinv.nodeAt_root hm hof
  · next hne =>
    rw [if_neg hne]
    exact hof

theorem nodeOf_injective (hinv : CacheInv v) (hm : m ∈ v.mounts) (hm' : m' ∈ v.mounts)
    (hnames : ∀ name ∈ names, NameOk name) (hnames' : ∀ name ∈ names', NameOk name)
    (hof : v.NodeOf m names n) (hof' : v.NodeOf m' names' n) : m' = m ∧ names' = names := by
  have hat := hinv.nodeAt_of_nodeOf hm hof
  have hat' := hinv.nodeAt_of_nodeOf hm' hof'
  refine ⟨hat'.mount.symm.trans hat.mount, ?_⟩
  have hpath := hat'.path.symm.trans hat.path
  split at hpath
  · next hnil' =>
    split at hpath
    · next hnil => rw [hnil, hnil']
    · exact absurd hpath.symm (nodePath_ne_root hnames)
  · split at hpath
    · exact absurd hpath (nodePath_ne_root hnames')
    · exact nodePath_injective hnames' hnames hpath

theorem nodeOf_unique (hinv : CacheInv v) (hof : v.NodeOf m names n)
    (hof' : v.NodeOf m names n') : n = n' := by
  unfold Vfs.NodeOf at hof hof'
  split at hof
  · next hnil =>
    rw [if_pos hnil, hof] at hof'
    exact Option.some.inj hof'
  · next hne =>
    rw [if_neg hne] at hof'
    exact hinv.keyed m _ n n' hof hof'

end CacheInv

section Anchored

variable {v v' : Vfs σ} {m n dn : ℕ} {names : List Str} {name : Str} {a : Acquisition}

theorem Vfs.Anchored.of_nodeOf (ha : v.Anchored a) (hmounts : v'.mounts = v.mounts)
    (hof : ∀ names n, names <+: a.names → v.NodeOf a.mount names n → v'.NodeOf a.mount names n) :
    v'.Anchored a where
  mount := hmounts ▸ ha.mount
  nameOk := ha.nameOk
  node := hof _ _ (List.prefix_refl _) ha.node
  chain names hpart := (ha.chain names hpart).imp fun n hn => hof names n hpart hn

theorem Vfs.Anchored.parent (ha : v.Anchored ⟨m, names ++ [name], n⟩) :
    ∃ n', v.Anchored ⟨m, names, n'⟩ := by
  obtain ⟨n', hn'⟩ := ha.chain names (List.prefix_append names [name])
  exact ⟨n', ha.mount, fun x hx => ha.nameOk x (List.mem_append_left _ hx), hn',
    fun names' hpart => ha.chain names' (hpart.trans (List.prefix_append names [name]))⟩

theorem Vfs.Anchored.child (ha : v.Anchored ⟨m, names, dn⟩) (hname : NameOk name)
    (hat : v.NodeAt m (nodePath (names ++ [name])) n) : v.Anchored ⟨m, names ++ [name], n⟩ := by
  have hok := ChainOk.concat ha.nameOk hname
  have hof : v.NodeOf m (names ++ [name]) n := by
    rw [Vfs.NodeOf, if_neg hok.ne_nil]
    exact hat
  refine ⟨ha.mount, hok.nameOk, hof, fun names' hpart => ?_⟩
  rcases List.prefix_concat_iff.mp hpart with rfl | hshorter
  · exact ⟨n, hof⟩
  · exact ha.chain names' hshorter

end Anchored

/-! ## One reference more or less -/

theorem vfsNodePut_of_ne {v : Vfs σ} {n : ℕ} (hrefcnt : (v.node n).refcnt ≠ 1) :
    vfsNodePut v n = v.addNodeRef n (-1) := by
  rw [vfsNodePut]
  simp only [addNodeRef_refcnt_self]
  rw [if_pos (by omega)]

theorem vfsNodePut_last {v : Vfs σ} {n : ℕ} (hrefcnt : (v.node n).refcnt = 1) :
    ∃ s, vfsNodePut v n = (v.addNodeRef n (-1)).dropNode n s := by
  rw [vfsNodePut]
  simp only [addNodeRef_refcnt_self]
  rw [if_neg (by omega)]
  exact ⟨_, rfl⟩

namespace NodeInv

variable {v v' : Vfs σ} {m n dn : ℕ} {k : ℤ} {names : List Str} {name path : Str}
  {held held' : List Acquisition} {inode : VfsInode}

theorem perm (hinv : NodeInv v held) (hperm : held.Perm held') : NodeInv v held' where
  toCacheInv := hinv.toCacheInv
  counted m hm names hnames n hof := by
    rw [← prefixCount_perm hperm]
    exact hinv.counted m hm names hnames n hof
  anchored a ha := hinv.anchored a (hperm.mem_iff.mpr ha)

theorem of_agree (hinv : NodeInv v held) (hagree : v.Agree v')
    (hrefcnt : ∀ n, (v'.node n).refcnt = (v.node n).refcnt) : NodeInv v' held := by
  refine ⟨hinv.toCacheInv.of_agree hagree, fun m hm names hnames n hn => ?_, fun a ha => ?_⟩
  · rw [hrefcnt]
    exact hinv.counted m (hagree.mounts ▸ hm) names hnames n (hagree.nodeOf_iff.mp hn)
  · exact (hinv.anchored a ha).of_nodeOf hagree.mounts fun names n _ => hagree.nodeOf_iff.mpr

/-- The count of the chain of a cached node is its reference count. -/
theorem refcnt_pos (hinv : NodeInv v held) (hm : m ∈ v.mounts)
    (hnames : ∀ name ∈ names, NameOk name) (hof : v.NodeOf m names n) :
    0 < (v.node n).refcnt := by
  obtain ⟨hcount, hpos⟩ := hinv.counted m hm names hnames n hof
  omega

theorem addNodeRef (hinv : NodeInv v held) (hm : m ∈ v.mounts)
    (hnames : ∀ name ∈ names, NameOk name) (hof : v.NodeOf m names n)
    (hshift : CountShift held held' m names k)
    (hpos : 0 < baseCount names + prefixCount held' m names)
    (hanchored : ∀ a ∈ held', v.Anchored a) : NodeInv (v.addNodeRef n k) held' := by
  have hagree : v.Agree (v.addNodeRef n k) := addNodeRef_agree
  refine ⟨hinv.toCacheInv.of_agree hagree, fun m' hm' names' hnames' n' hof' => ?_,
    fun a ha => ?_⟩
  · have hold : v.NodeOf m' names' n' := hagree.nodeOf_iff.mp hof'
    obtain ⟨hcount, hpos'⟩ := hinv.counted m' hm' names' hnames' n' hold
    have hshift' := hshift m' names'
    by_cases hkey : m' = m ∧ names' = names
    · obtain ⟨rfl, rfl⟩ := hkey
      rw [if_pos ⟨rfl, rfl⟩] at hshift'
      obtain rfl := hinv.nodeOf_unique hof hold
      rw [addNodeRef_refcnt_self]
      omega
    · rw [if_neg hkey] at hshift'
      have hne : n' ≠ n := by
        rintro rfl
        exact hkey (hinv.nodeOf_injective hm hm' hnames hnames' hof hold)
      rw [addNodeRef_node_of_ne hne]
      omega
  · exact (hanchored a ha).of_nodeOf rfl fun names n _ => hagree.nodeOf_iff.mpr

/-- `VfsNodePut` drops a reference, and with the last one the node. -/
theorem vfsNodePut (hinv : NodeInv v held) (hm : m ∈ v.mounts)
    (hnames : ∀ name ∈ names, NameOk name) (hof : v.NodeOf m names n)
    (hshift : CountShift held held' m names (-1)) (hanchored : ∀ a ∈ held', v.Anchored a) :
    NodeInv (vfsNodePut v n) held' := by
  obtain ⟨hcount, hpos⟩ := hinv.counted m hm names hnames n hof
  have hself := hshift m names
  rw [if_pos ⟨rfl, rfl⟩] at hself
  by_cases hlast : (v.node n).refcnt = 1
  · -- The last reference: no remaining acquisition goes through the node.
    have hne : names ≠ [] := by
      rintro rfl
      simp [baseCount] at hcount
      omega
    have hbase : baseCount names = 0 := if_neg hne
    have hgone : prefixCount held' m names = 0 := by omega
    have hagree : v.Agree (v.addNodeRef n (-1)) := addNodeRef_agree
    have hcache := hinv.toCacheInv.of_agree hagree
    have hat : v.NodeAt m (nodePath names) n := by
      rwa [Vfs.NodeOf, if_neg hne] at hof
    have hat' := hagree.nodeAt_iff.mpr hat
    have hnot : ∀ m' ∈ v.mounts, (v.mount m').root ≠ some n := by
      intro m' hm' hroot
      have hof' : v.NodeOf m' [] n := hroot
      exact hne (hinv.nodeOf_injective hm' hm (by simp) hnames hof' hof).2
    obtain ⟨s, hs⟩ := vfsNodePut_last hlast
    rw [hs]
    refine ⟨hcache.dropNode hat'.cached hnot, fun m' hm' names' hnames' n' hof' => ?_,
      fun a ha => ?_⟩
    · obtain ⟨hstay, hneq⟩ := hcache.nodeOf_dropNode_iff.mp hof'
      have hold := hagree.nodeOf_iff.mp hstay
      obtain ⟨hcount', hpos'⟩ := hinv.counted m' hm' names' hnames' n' hold
      have hn' : n' ≠ n := by
        by_cases hnil : names' = []
        · rintro rfl
          exact hne ((hinv.nodeOf_injective hm' hm hnames' hnames hold hof).2.trans hnil)
        · exact hneq hnil
      have hkey : ¬(m' = m ∧ names' = names) := by
        rintro ⟨rfl, rfl⟩
        exact hn' (hinv.nodeOf_unique hold hof)
      have hshift' := hshift m' names'
      rw [if_neg hkey] at hshift'
      change ((v.addNodeRef n (-1)).node n').refcnt = _ ∧ _
      rw [addNodeRef_node_of_ne hn']
      omega
    · refine (hanchored a ha).of_nodeOf rfl fun names' n' hpart hn' => ?_
      refine hcache.nodeOf_dropNode_iff.mpr ⟨hagree.nodeOf_iff.mpr hn', fun _ heq => ?_⟩
      subst heq
      have hok : ∀ name ∈ names', NameOk name := fun name hmem =>
        (hanchored a ha).nameOk name (hpart.subset hmem)
      obtain ⟨rfl, rfl⟩ := hinv.nodeOf_injective hm (hanchored a ha).mount hnames hok hof hn'
      exact absurd hgone (prefixCount_pos ha hpart).ne'
  · rw [vfsNodePut_of_ne hlast]
    exact hinv.addNodeRef hm hnames hof hshift (by omega) hanchored

theorem prefixCount_eq_zero (hinv : NodeInv v held) (hnames : ChainOk names)
    (hnone : ∀ x, ¬v.NodeAt m (nodePath names) x) : prefixCount held m names = 0 := by
  by_contra hpos
  obtain ⟨a, ha, hkey⟩ := List.countP_pos_iff.mp (Nat.pos_of_ne_zero hpos)
  simp only [decide_eq_true_eq] at hkey
  obtain ⟨n', hn'⟩ := (hinv.anchored a ha).chain names hkey.2
  rw [hkey.1, Vfs.NodeOf, if_neg hnames.ne_nil] at hn'
  exact hnone n' hn'

theorem prefixCount_pos_of_nodeAt (hinv : NodeInv v held) (hnames : ChainOk names)
    (hm : m ∈ v.mounts) (hat : v.NodeAt m (nodePath names) n) : 0 < prefixCount held m names := by
  have hof : v.NodeOf m names n := by
    rw [Vfs.NodeOf, if_neg hnames.ne_nil]
    exact hat
  have hpos := (hinv.counted m hm names hnames.nameOk n hof).2
  rwa [baseCount, if_neg hnames.ne_nil, zero_add] at hpos

theorem joinNode (hinv : NodeInv v held) (hfresh : ∀ hash, n ∉ v.nodeList hash)
    (hn : n < v.allocs) (hm : m ∈ v.mounts) (hnames : ChainOk names)
    (hshort : (nodePath names).length < vfsMaxPath)
    (hnone : ∀ x, ¬v.NodeAt m (nodePath names) x) (hshift : CountShift held held' m names 1)
    (hanchored : ∀ a ∈ held', (v.joinNode n m (nodePath names) inode).Anchored a) :
    NodeInv (v.joinNode n m (nodePath names) inode) held' := by
  have hnot : ¬v.Cached n := hfresh _
  have hzero := hinv.prefixCount_eq_zero hnames hnone
  refine ⟨hinv.toCacheInv.joinNode hfresh hn (hinv.allocated m hm) hshort hnone
    (.inr ⟨names, hnames, rfl, hm⟩), fun m' hm' names' hnames' n' hof' => ?_, hanchored⟩
  have hshift' := hshift m' names'
  unfold Vfs.NodeOf at hof'
  by_cases hnil : names' = []
  · rw [if_pos hnil] at hof'
    have hold : v.NodeOf m' names' n' := by
      rw [Vfs.NodeOf, if_pos hnil]
      exact addMountRef_root.symm.trans hof'
    obtain ⟨hcount, hpos⟩ := hinv.counted m' hm' names' hnames' n' hold
    rw [if_neg fun hkey => hnames.ne_nil (hkey.2.symm.trans hnil)] at hshift'
    have hne : n' ≠ n := by
      rintro rfl
      exact hnot (hinv.nodeAt_of_nodeOf hm' hold).cached
    rw [CacheInv.joinNode_node_of_ne hne]
    omega
  · rw [if_neg hnil, CacheInv.nodeAt_joinNode_iff hfresh] at hof'
    rcases hof' with ⟨rfl, rfl, hpath⟩ | hat
    · obtain rfl := nodePath_injective hnames' hnames.nameOk hpath
      have hbase : baseCount names' = 0 := if_neg hnil
      rw [if_pos ⟨rfl, rfl⟩] at hshift'
      rw [CacheInv.joinNode_node_self]
      simp only
      omega
    · have hold : v.NodeOf m' names' n' := by
        rw [Vfs.NodeOf, if_neg hnil]
        exact hat
      obtain ⟨hcount, hpos⟩ := hinv.counted m' hm' names' hnames' n' hold
      have hkey : ¬(m' = m ∧ names' = names) := by
        rintro ⟨rfl, rfl⟩
        exact hnone n' hat
      rw [if_neg hkey] at hshift'
      have hne : n' ≠ n := by
        rintro rfl
        exact hnot hat.cached
      rw [CacheInv.joinNode_node_of_ne hne]
      omega

/-! ## Longer and shorter acquisitions -/

theorem countShift_child :
    CountShift (⟨m, names, dn⟩ :: held) (⟨m, names ++ [name], n⟩ :: held) m (names ++ [name])
      1 := by
  intro m' names'
  rw [prefixCount_concat dn]
  push_cast
  rfl

theorem countShift_parent :
    CountShift (⟨m, names ++ [name], n⟩ :: held) (⟨m, names, dn⟩ :: held) m (names ++ [name])
      (-1) := by
  intro m' names'
  rw [prefixCount_concat dn]
  push_cast
  split <;> omega

theorem countShift_root : CountShift held (⟨m, [], n⟩ :: held) m [] 1 := by
  intro m' names'
  rw [prefixCount_root]
  push_cast
  rfl

theorem countShift_drop_root : CountShift (⟨m, [], n⟩ :: held) held m [] (-1) := by
  intro m' names'
  rw [prefixCount_root]
  push_cast
  split <;> omega

theorem acquireRoot (hinv : NodeInv v held) (hm : m ∈ v.mounts)
    (hroot : (v.mount m).root = some n) :
    NodeInv (v.addNodeRef n 1) (⟨m, [], n⟩ :: held) := by
  have hof : v.NodeOf m [] n := hroot
  refine hinv.addNodeRef hm (by simp) hof countShift_root (by simp [baseCount]) ?_
  intro a ha
  rcases List.mem_cons.mp ha with rfl | ha
  · refine ⟨hm, by simp, hof, fun names' hpart => ?_⟩
    rw [List.prefix_nil] at hpart
    exact ⟨n, hpart ▸ hof⟩
  · exact hinv.anchored a ha

theorem putRoot (hinv : NodeInv v (⟨m, [], n⟩ :: held)) : NodeInv (Fs.vfsNodePut v n) held := by
  have ha := hinv.anchored _ List.mem_cons_self
  exact hinv.vfsNodePut ha.mount (by simp) ha.node countShift_drop_root
    fun a hmem => hinv.anchored a (List.mem_cons_of_mem _ hmem)

theorem acquireChild (hinv : NodeInv v (⟨m, names, dn⟩ :: held)) (hname : NameOk name)
    (hat : v.NodeAt m (nodePath (names ++ [name])) n) :
    NodeInv (v.addNodeRef n 1) (⟨m, names ++ [name], n⟩ :: held) := by
  have hchild := (hinv.anchored _ List.mem_cons_self).child hname hat
  refine hinv.addNodeRef hchild.mount hchild.nameOk hchild.node countShift_child ?_ ?_
  · exact Nat.add_pos_right _ (prefixCount_pos List.mem_cons_self (List.prefix_refl _))
  · intro a ha
    rcases List.mem_cons.mp ha with rfl | ha
    · exact hchild
    · exact hinv.anchored a (List.mem_cons_of_mem _ ha)

theorem putChild (hinv : NodeInv v (⟨m, names ++ [name], n⟩ :: held)) :
    ∃ n', NodeInv (Fs.vfsNodePut v n) (⟨m, names, n'⟩ :: held) := by
  have ha := hinv.anchored _ List.mem_cons_self
  obtain ⟨n', hn'⟩ := ha.parent
  refine ⟨n', hinv.vfsNodePut ha.mount ha.nameOk ha.node countShift_parent ?_⟩
  intro a hmem
  rcases List.mem_cons.mp hmem with rfl | hmem
  · exact hn'
  · exact hinv.anchored a (List.mem_cons_of_mem _ hmem)

end NodeInv

end Nxos.Fs
