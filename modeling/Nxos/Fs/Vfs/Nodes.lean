import Mathlib.Algebra.Order.Ring.Int
import Mathlib.Data.Finset.Card
import Nxos.Fs.Vfs.Model

/-!
# Invariants of the node cache

An acquisition takes a reference of the root of its mount and one of the node of every component
of its path.  `CacheInv` says which nodes are on the hash lists, and `NodeInv` counts their
references against the outstanding acquisitions.
-/

namespace Nxos.Fs

variable {σ : Type}

/-! ## Acquisitions and their counts -/

/-- An acquisition that was not released: its mount, the components of its path in the mount,
and its node. -/
structure Acquisition where
  mount : ℕ
  names : List Str
  node : ℕ
  deriving DecidableEq

/-- The acquisitions in a mount whose path has the given one as a prefix. -/
def prefixCount (held : List Acquisition) (m : ℕ) (names : List Str) : ℕ :=
  held.countP fun a => a.mount = m ∧ names <+: a.names

structure ChainOk (names : List Str) : Prop where
  ne_nil : names ≠ []
  nameOk : ∀ name ∈ names, NameOk name

theorem ChainOk.concat {names : List Str} {name : Str} (hnames : ∀ x ∈ names, NameOk x)
    (hname : NameOk name) : ChainOk (names ++ [name]) where
  ne_nil := by simp
  nameOk := by
    intro x hx
    rcases List.mem_append.mp hx with hx | hx
    · exact hnames x hx
    · exact List.mem_singleton.mp hx ▸ hname

section Counts

variable {held held' : List Acquisition} {m m' n : ℕ} {names names' : List Str} {name : Str}

theorem prefixCount_perm (hperm : held.Perm held') :
    prefixCount held m names = prefixCount held' m names :=
  hperm.countP_eq _

theorem prefixCount_concat (dn : ℕ) :
    prefixCount (⟨m, names ++ [name], n⟩ :: held) m' names' =
      prefixCount (⟨m, names, dn⟩ :: held) m' names' +
        if m' = m ∧ names' = names ++ [name] then 1 else 0 := by
  have hno : ¬names ++ [name] <+: names := fun hpart => by
    simpa using hpart.length_le
  simp only [prefixCount, List.countP_cons, List.prefix_concat_iff, decide_eq_true_eq]
  by_cases hm : m = m'
  · subst hm
    by_cases hnames : names' = names ++ [name]
    · subst hnames
      simp [hno]
    · simp [hnames]
  · have hm' : m' ≠ m := fun heq => hm heq.symm
    simp [hm, hm']

theorem prefixCount_root :
    prefixCount (⟨m, [], n⟩ :: held) m' names' =
      prefixCount held m' names' + if m' = m ∧ names' = [] then 1 else 0 := by
  simp only [prefixCount, List.countP_cons, List.prefix_nil, decide_eq_true_eq]
  by_cases hm : m = m'
  · subst hm
    by_cases hnames : names' = [] <;> simp [hnames]
  · have hm' : m' ≠ m := fun heq => hm heq.symm
    simp [hm, hm']

theorem prefixCount_pos {a : Acquisition} (ha : a ∈ held) (hpart : names <+: a.names) :
    0 < prefixCount held a.mount names :=
  List.countP_pos_iff.mpr ⟨a, ha, by simpa using hpart⟩

end Counts

/-! ## The nodes on the hash lists -/

/-- A node is on the hash list of its mount and path. -/
def Vfs.Cached (v : Vfs σ) (n : ℕ) : Prop := n ∈ v.nodeList (v.bucket n)

instance (v : Vfs σ) (n : ℕ) : Decidable (v.Cached n) :=
  inferInstanceAs (Decidable (n ∈ v.nodeList (v.bucket n)))

/-- A node is the cached one of a mount and a path. -/
structure Vfs.NodeAt (v : Vfs σ) (m : ℕ) (path : Str) (n : ℕ) : Prop where
  cached : v.Cached n
  mount : (v.node n).mount = m
  path : (v.node n).path = path

def Vfs.population (v : Vfs σ) (m : ℕ) : Finset ℕ :=
  (Finset.range v.allocs).filter fun n => v.Cached n ∧ (v.node n).mount = m

/-- The hash lists hold each node once, in its list, and one node for a mount and a path.  Every
mount has its root, and counts its nodes; so does a mount that has left the list. -/
structure CacheInv (v : Vfs σ) : Prop where
  nodup : ∀ hash, (v.nodeList hash).Nodup
  listed : ∀ hash n, n ∈ v.nodeList hash → v.bucket n = hash ∧ n < v.allocs
  short : ∀ n, v.Cached n → (v.node n).path.length < vfsMaxPath
  keyed : ∀ m path n n', v.NodeAt m path n → v.NodeAt m path n' → n = n'
  shaped : ∀ n, v.Cached n → (v.node n).path = [slash] ∨
    ∃ names, ChainOk names ∧ (v.node n).path = nodePath names ∧ (v.node n).mount ∈ v.mounts
  root : ∀ m ∈ v.mounts, ∃ r, (v.mount m).root = some r ∧ v.NodeAt m [slash] r
  rooted : ∀ m n, v.NodeAt m [slash] n → (v.mount m).root = some n
  population : ∀ m, (v.mount m).refcnt = (v.population m).card
  mounts : v.mounts.Nodup
  allocated : ∀ m ∈ v.mounts, m < v.allocs
  owned : ∀ n, v.Cached n → (v.node n).mount < v.allocs
  unborn : ∀ m, v.allocs ≤ m → (v.mount m).root = none

/-- What an operation on nodes leaves as it is. -/
structure Vfs.Agree (v v' : Vfs σ) : Prop where
  nodeList : v'.nodeList = v.nodeList
  mounts : v'.mounts = v.mounts
  nodeMount : ∀ n, (v'.node n).mount = (v.node n).mount
  nodePath : ∀ n, (v'.node n).path = (v.node n).path
  root : ∀ m, (v'.mount m).root = (v.mount m).root
  refcnt : ∀ m, (v'.mount m).refcnt = (v.mount m).refcnt
  allocs : v.allocs ≤ v'.allocs

namespace Vfs.Agree

variable {v v' : Vfs σ} {m n : ℕ} {path : Str}

theorem bucket (hagree : v.Agree v') : v'.bucket n = v.bucket n := by
  rw [Vfs.bucket, Vfs.bucket, hagree.nodeMount, hagree.nodePath]

theorem cached_iff (hagree : v.Agree v') : v'.Cached n ↔ v.Cached n := by
  rw [Vfs.Cached, Vfs.Cached, hagree.bucket, hagree.nodeList]

theorem nodeAt_iff (hagree : v.Agree v') : v'.NodeAt m path n ↔ v.NodeAt m path n := by
  constructor
  · rintro ⟨hcached, hmount, hpath⟩
    exact ⟨hagree.cached_iff.mp hcached, hagree.nodeMount n ▸ hmount, hagree.nodePath n ▸ hpath⟩
  · rintro ⟨hcached, hmount, hpath⟩
    exact ⟨hagree.cached_iff.mpr hcached, (hagree.nodeMount n).trans hmount,
      (hagree.nodePath n).trans hpath⟩

end Vfs.Agree

namespace CacheInv

variable {v v' : Vfs σ} {m n : ℕ} {path : Str}

theorem lt_allocs (hinv : CacheInv v) (hcached : v.Cached n) : n < v.allocs :=
  (hinv.listed _ n hcached).2

theorem mem_population (hinv : CacheInv v) :
    n ∈ v.population m ↔ v.Cached n ∧ (v.node n).mount = m := by
  simp only [Vfs.population, Finset.mem_filter, Finset.mem_range, and_iff_right_iff_imp, and_imp]
  intro hcached _
  exact hinv.lt_allocs hcached

/-- `VfsNodeLookup` finds the cached node of a path. -/
theorem findNode_eq_some_iff (hinv : CacheInv v) :
    v.findNode m path = some n ↔ v.NodeAt m path n := by
  have hmatch : ∀ n, v.findNode m path = some n → v.NodeAt m path n := by
    intro n hfind
    rw [Vfs.findNode] at hfind
    have hmem := List.mem_of_find?_eq_some hfind
    have htest := List.find?_some hfind
    simp only [strEqualN, Bool.and_eq_true, beq_iff_eq] at htest
    obtain ⟨hbucket, hlt⟩ := hinv.listed _ n hmem
    have hcached : v.Cached n := by
      rw [Vfs.Cached, hbucket]
      exact hmem
    have hshort := hinv.short n hcached
    have hpath : (v.node n).path = path := by
      have htake := htest.2
      rw [List.take_of_length_le hshort.le] at htake
      have hlen := congrArg List.length htake
      rw [List.length_take] at hlen
      rw [htake, List.take_of_length_le (by omega)]
    exact ⟨hcached, htest.1, hpath⟩
  constructor
  · exact hmatch n
  · intro hat
    have hmem : n ∈ v.nodeList (vfsNodeHash m path) := by
      have hcached := hat.cached
      rwa [Vfs.Cached, Vfs.bucket, hat.mount, hat.path] at hcached
    have hsome : (v.findNode m path).isSome := by
      rw [Vfs.findNode, List.find?_isSome]
      exact ⟨n, hmem, by simp [hat.mount, hat.path, strEqualN]⟩
    obtain ⟨n', hn'⟩ := Option.isSome_iff_exists.mp hsome
    rw [hn', hinv.keyed m path n' n (hmatch n' hn') hat]

theorem findNode_eq_none_iff (hinv : CacheInv v) :
    v.findNode m path = none ↔ ∀ n, ¬v.NodeAt m path n := by
  rw [Option.eq_none_iff_forall_ne_some]
  exact forall_congr' fun n => not_congr hinv.findNode_eq_some_iff

theorem of_agree (hinv : CacheInv v) (hagree : v.Agree v') : CacheInv v' where
  nodup hash := by
    rw [hagree.nodeList]
    exact hinv.nodup hash
  listed hash n hmem := by
    rw [hagree.nodeList] at hmem
    rw [hagree.bucket]
    exact ⟨(hinv.listed hash n hmem).1, (hinv.listed hash n hmem).2.trans_le hagree.allocs⟩
  short n hcached := by
    rw [hagree.nodePath]
    exact hinv.short n (hagree.cached_iff.mp hcached)
  keyed m path n n' hat hat' :=
    hinv.keyed m path n n' (hagree.nodeAt_iff.mp hat) (hagree.nodeAt_iff.mp hat')
  shaped n hcached := by
    rw [hagree.nodePath, hagree.nodeMount, hagree.mounts]
    exact hinv.shaped n (hagree.cached_iff.mp hcached)
  root m hm := by
    rw [hagree.mounts] at hm
    obtain ⟨r, hroot, hr⟩ := hinv.root m hm
    exact ⟨r, (hagree.root m).trans hroot, hagree.nodeAt_iff.mpr hr⟩
  rooted m n hat := (hagree.root m).trans (hinv.rooted m n (hagree.nodeAt_iff.mp hat))
  population m := by
    rw [hagree.refcnt, hinv.population m]
    congr 2
    ext n
    simp only [Vfs.population, Finset.mem_filter, Finset.mem_range, hagree.cached_iff,
      hagree.nodeMount]
    constructor
    · rintro ⟨hlt, hn⟩
      exact ⟨hlt.trans_le hagree.allocs, hn⟩
    · rintro ⟨-, hn⟩
      exact ⟨hinv.lt_allocs hn.1, hn⟩
  mounts := hagree.mounts ▸ hinv.mounts
  allocated m hm := (hinv.allocated m (hagree.mounts ▸ hm)).trans_le hagree.allocs
  owned n hcached := by
    rw [hagree.nodeMount]
    exact (hinv.owned n (hagree.cached_iff.mp hcached)).trans_le hagree.allocs
  unborn m hm := (hagree.root m).trans (hinv.unborn m (hagree.allocs.trans hm))

end CacheInv

/-! ## Updates -/

section Updates

variable {v : Vfs σ} {m m' n n' : ℕ} {k : ℤ} {inode : VfsInode}

@[simp] theorem addNodeRef_refcnt_self :
    ((v.addNodeRef n k).node n).refcnt = (v.node n).refcnt + k := by
  simp [Vfs.addNodeRef]

@[simp] theorem addNodeRef_node_of_ne (hne : n' ≠ n) :
    (v.addNodeRef n k).node n' = v.node n' := by
  simp [Vfs.addNodeRef, hne]

theorem addNodeRef_agree : v.Agree (v.addNodeRef n k) where
  nodeList := rfl
  mounts := rfl
  nodeMount n' := by
    by_cases hn : n' = n
    · subst hn
      simp [Vfs.addNodeRef]
    · rw [addNodeRef_node_of_ne hn]
  nodePath n' := by
    by_cases hn : n' = n
    · subst hn
      simp [Vfs.addNodeRef]
    · rw [addNodeRef_node_of_ne hn]
  root _ := rfl
  refcnt _ := rfl
  allocs := le_refl _

@[simp] theorem setInode_refcnt : ((v.setInode n inode).node n').refcnt = (v.node n').refcnt := by
  by_cases hn : n' = n
  · subst hn
    simp [Vfs.setInode]
  · simp [Vfs.setInode, hn]

theorem setInode_agree : v.Agree (v.setInode n inode) where
  nodeList := rfl
  mounts := rfl
  nodeMount n' := by
    by_cases hn : n' = n
    · subst hn
      simp [Vfs.setInode]
    · simp [Vfs.setInode, hn]
  nodePath n' := by
    by_cases hn : n' = n
    · subst hn
      simp [Vfs.setInode]
    · simp [Vfs.setInode, hn]
  root _ := rfl
  refcnt _ := rfl
  allocs := le_refl _

@[simp] theorem addMountRef_root :
    ((v.addMountRef m k).mount m').root = (v.mount m').root := by
  by_cases hm : m' = m
  · subst hm
    simp [Vfs.addMountRef]
  · simp [Vfs.addMountRef, hm]

@[simp] theorem addMountRef_refcnt_self :
    ((v.addMountRef m k).mount m).refcnt = (v.mount m).refcnt + k := by
  simp [Vfs.addMountRef]

@[simp] theorem addMountRef_mount_of_ne (hne : m' ≠ m) :
    (v.addMountRef m k).mount m' = v.mount m' := by
  simp [Vfs.addMountRef, hne]

end Updates

/-! ## Nodes that leave and join the lists -/

/-- The end of `VfsNodePut`: a node leaves its list and its mount. -/
def Vfs.dropNode (v : Vfs σ) (n : ℕ) (s : σ) : Vfs σ :=
  ({ v.unlinkNode n with fsState := s } : Vfs σ).addMountRef (v.node n).mount (-1)

/-- The end of `VfsNodeGet`: a node joins its list and its mount. -/
def Vfs.joinNode (v : Vfs σ) (n m : ℕ) (path : Str) (inode : VfsInode) : Vfs σ :=
  (v.addMountRef m 1).addNode n ⟨m, 1, path, inode⟩

namespace CacheInv

variable {v : Vfs σ} {m n x : ℕ} {s : σ} {path : Str} {inode : VfsInode}

theorem cached_dropNode_iff (hinv : CacheInv v) :
    (v.dropNode n s).Cached x ↔ v.Cached x ∧ x ≠ n := by
  change x ∈ (Function.update v.nodeList (v.bucket n) ((v.nodeList (v.bucket n)).erase n))
    (v.bucket x) ↔ _
  by_cases hbucket : v.bucket x = v.bucket n
  · rw [hbucket, Function.update_self, (hinv.nodup _).mem_erase_iff, Vfs.Cached, hbucket]
    exact and_comm
  · rw [Function.update_of_ne hbucket]
    constructor
    · intro hmem
      exact ⟨hmem, fun heq => hbucket (heq ▸ rfl)⟩
    · exact And.left

theorem nodeAt_dropNode_iff (hinv : CacheInv v) :
    (v.dropNode n s).NodeAt m path x ↔ v.NodeAt m path x ∧ x ≠ n := by
  constructor
  · rintro ⟨hcached, hmount, hpath⟩
    rw [hinv.cached_dropNode_iff] at hcached
    exact ⟨⟨hcached.1, hmount, hpath⟩, hcached.2⟩
  · rintro ⟨⟨hcached, hmount, hpath⟩, hne⟩
    exact ⟨hinv.cached_dropNode_iff.mpr ⟨hcached, hne⟩, hmount, hpath⟩

theorem dropNode (hinv : CacheInv v) (hcached : v.Cached n)
    (hnot : ∀ m ∈ v.mounts, (v.mount m).root ≠ some n) :
    CacheInv (v.dropNode n s) where
  nodup hash := by
    change ((Function.update v.nodeList (v.bucket n)
      ((v.nodeList (v.bucket n)).erase n)) hash).Nodup
    by_cases hhash : hash = v.bucket n
    · subst hhash
      rw [Function.update_self]
      exact (hinv.nodup _).erase n
    · rw [Function.update_of_ne hhash]
      exact hinv.nodup hash
  listed hash x hmem := by
    change x ∈ (Function.update v.nodeList (v.bucket n)
      ((v.nodeList (v.bucket n)).erase n)) hash at hmem
    by_cases hhash : hash = v.bucket n
    · subst hhash
      rw [Function.update_self] at hmem
      exact hinv.listed _ x (List.mem_of_mem_erase hmem)
    · rw [Function.update_of_ne hhash] at hmem
      exact hinv.listed hash x hmem
  short x hx := hinv.short x (hinv.cached_dropNode_iff.mp hx).1
  keyed m path x x' hx hx' :=
    hinv.keyed m path x x' (hinv.nodeAt_dropNode_iff.mp hx).1 (hinv.nodeAt_dropNode_iff.mp hx').1
  shaped x hx := hinv.shaped x (hinv.cached_dropNode_iff.mp hx).1
  root m hm := by
    obtain ⟨r, hroot, hr⟩ := hinv.root m hm
    refine ⟨r, addMountRef_root.trans hroot, hinv.nodeAt_dropNode_iff.mpr ⟨hr, ?_⟩⟩
    rintro rfl
    exact hnot m hm hroot
  rooted m x hat :=
    addMountRef_root.trans (hinv.rooted m x (hinv.nodeAt_dropNode_iff.mp hat).1)
  population m := by
    have hset : (v.dropNode n s).population m = (v.population m).erase n := by
      ext x
      rw [Finset.mem_erase, hinv.mem_population]
      simp only [Vfs.population, Finset.mem_filter, Finset.mem_range, hinv.cached_dropNode_iff]
      constructor
      · rintro ⟨-, ⟨hx, hne⟩, hmount⟩
        exact ⟨hne, hx, hmount⟩
      · rintro ⟨hne, hx, hmount⟩
        exact ⟨hinv.lt_allocs hx, ⟨hx, hne⟩, hmount⟩
    have hcount := hinv.population m
    by_cases hmount : m = (v.node n).mount
    · have hmem : n ∈ v.population m := hinv.mem_population.mpr ⟨hcached, hmount.symm⟩
      have hcard := Finset.card_erase_add_one hmem
      rw [hset, hmount, Vfs.dropNode, addMountRef_refcnt_self, ← hmount]
      change (v.mount m).refcnt + -1 = _
      omega
    · have hmem : n ∉ v.population m := fun hin =>
        hmount (hinv.mem_population.mp hin).2.symm
      rw [hset, Vfs.dropNode, addMountRef_mount_of_ne hmount, Finset.erase_eq_of_notMem hmem]
      exact hcount
  mounts := hinv.mounts
  allocated := hinv.allocated
  owned x hx := hinv.owned x (hinv.cached_dropNode_iff.mp hx).1
  unborn m hm := addMountRef_root.trans (hinv.unborn m hm)

theorem joinNode_node_self : (v.joinNode n m path inode).node n = ⟨m, 1, path, inode⟩ := by
  simp [Vfs.joinNode, Vfs.addNode]

theorem joinNode_node_of_ne (hne : x ≠ n) : (v.joinNode n m path inode).node x = v.node x := by
  simp [Vfs.joinNode, Vfs.addNode, Vfs.addMountRef, hne]

theorem joinNode_nodeList {hash : ℕ} :
    (v.joinNode n m path inode).nodeList hash =
      if hash = vfsNodeHash m path then n :: v.nodeList hash else v.nodeList hash := by
  by_cases hhash : hash = vfsNodeHash m path
  · subst hhash
    simp [Vfs.joinNode, Vfs.addNode, Vfs.addMountRef]
  · simp [Vfs.joinNode, Vfs.addNode, Vfs.addMountRef, hhash]

theorem cached_joinNode_iff (hfresh : ∀ hash, n ∉ v.nodeList hash) :
    (v.joinNode n m path inode).Cached x ↔ x = n ∨ v.Cached x := by
  by_cases hx : x = n
  · subst hx
    simp [Vfs.Cached, Vfs.bucket, joinNode_node_self, joinNode_nodeList]
  · rw [Vfs.Cached, Vfs.bucket, joinNode_node_of_ne hx, joinNode_nodeList, Vfs.Cached, Vfs.bucket]
    split <;> simp [hx]

theorem nodeAt_joinNode_iff {m' : ℕ} {path' : Str} (hfresh : ∀ hash, n ∉ v.nodeList hash) :
    (v.joinNode n m path inode).NodeAt m' path' x ↔
      (x = n ∧ m' = m ∧ path' = path) ∨ v.NodeAt m' path' x := by
  have hnot : ¬v.Cached n := hfresh _
  by_cases hx : x = n
  · subst hx
    constructor
    · rintro ⟨-, hmount, hpath⟩
      rw [joinNode_node_self] at hmount hpath
      exact .inl ⟨rfl, hmount.symm, hpath.symm⟩
    · rintro (⟨-, rfl, rfl⟩ | hat)
      · exact ⟨(cached_joinNode_iff hfresh).mpr (.inl rfl), by rw [joinNode_node_self],
          by rw [joinNode_node_self]⟩
      · exact absurd hat.cached hnot
  · constructor
    · rintro ⟨hcached, hmount, hpath⟩
      rw [joinNode_node_of_ne hx] at hmount hpath
      exact .inr ⟨((cached_joinNode_iff hfresh).mp hcached).resolve_left hx, hmount, hpath⟩
    · rintro (⟨rfl, -⟩ | ⟨hcached, hmount, hpath⟩)
      · exact absurd rfl hx
      · refine ⟨(cached_joinNode_iff hfresh).mpr (.inr hcached), ?_, ?_⟩
        · rwa [joinNode_node_of_ne hx]
        · rwa [joinNode_node_of_ne hx]

/-- A node that joins its bucket joins the nodes of its mount point, and of no other. -/
theorem mem_population_joinNode (hinv : CacheInv v) (hfresh : ∀ hash, n ∉ v.nodeList hash)
    (hn : n < v.allocs) {m' : ℕ} : x ∈ (v.joinNode n m path inode).population m' ↔
      (x = n ∧ m' = m) ∨ x ∈ v.population m' := by
  have hnot : ¬v.Cached n := hfresh _
  rw [hinv.mem_population]
  change x ∈ (Finset.range v.allocs).filter _ ↔ _
  rw [Finset.mem_filter, Finset.mem_range, cached_joinNode_iff hfresh]
  by_cases hx : x = n
  · subst hx
    rw [joinNode_node_self]
    simp only [hn, hnot, true_and, or_false, false_and]
    exact eq_comm
  · rw [joinNode_node_of_ne hx]
    simp only [hx, false_or, false_and, and_iff_right_iff_imp, and_imp]
    intro hcached _
    exact hinv.lt_allocs hcached

theorem refcnt_joinNode (hinv : CacheInv v) (hfresh : ∀ hash, n ∉ v.nodeList hash)
    (hn : n < v.allocs) (m' : ℕ) : ((v.addMountRef m 1).mount m').refcnt =
      ((v.joinNode n m path inode).population m').card := by
  have hcount := hinv.population m'
  by_cases hmount : m' = m
  · subst hmount
    have hset : (v.joinNode n m' path inode).population m' = insert n (v.population m') := by
      ext x
      rw [hinv.mem_population_joinNode hfresh hn, Finset.mem_insert]
      simp
    have hnotMem : n ∉ v.population m' := fun hin => hfresh _ (hinv.mem_population.mp hin).1
    rw [hset, Finset.card_insert_of_notMem hnotMem, addMountRef_refcnt_self, hcount]
    push_cast
    rfl
  · have hset : (v.joinNode n m path inode).population m' = v.population m' := by
      ext x
      rw [hinv.mem_population_joinNode hfresh hn]
      simp [hmount]
    rw [hset, addMountRef_mount_of_ne hmount]
    exact hcount

theorem joinNode (hinv : CacheInv v) (hfresh : ∀ hash, n ∉ v.nodeList hash) (hn : n < v.allocs)
    (hm : m < v.allocs) (hshort : path.length < vfsMaxPath) (hnone : ∀ x, ¬v.NodeAt m path x)
    (hshape : (path = [slash] ∧ (v.mount m).root = some n) ∨
      ∃ names, ChainOk names ∧ path = nodePath names ∧ m ∈ v.mounts) :
    CacheInv (v.joinNode n m path inode) where
  nodup hash := by
    rw [joinNode_nodeList]
    split
    · exact List.nodup_cons.mpr ⟨hfresh hash, hinv.nodup hash⟩
    · exact hinv.nodup hash
  listed hash x hmem := by
    rw [joinNode_nodeList] at hmem
    by_cases hx : x = n
    · subst hx
      refine ⟨?_, hn⟩
      rw [Vfs.bucket, joinNode_node_self]
      split at hmem
      · next hhash => exact hhash.symm
      · exact absurd hmem (hfresh hash)
    · rw [Vfs.bucket, joinNode_node_of_ne hx]
      have hmem' : x ∈ v.nodeList hash := by
        split at hmem
        · exact (List.mem_cons.mp hmem).resolve_left hx
        · exact hmem
      exact hinv.listed hash x hmem'
  short x hx := by
    rcases (cached_joinNode_iff hfresh).mp hx with rfl | hold
    · rwa [joinNode_node_self]
    · have hne : x ≠ n := fun heq => hfresh _ (heq ▸ hold)
      rw [joinNode_node_of_ne hne]
      exact hinv.short x hold
  keyed m' path' x x' hx hx' := by
    rcases (nodeAt_joinNode_iff hfresh).mp hx with ⟨rfl, rfl, rfl⟩ | hold
    · rcases (nodeAt_joinNode_iff hfresh).mp hx' with ⟨rfl, -⟩ | hold'
      · rfl
      · exact absurd hold' (hnone x')
    · rcases (nodeAt_joinNode_iff hfresh).mp hx' with ⟨rfl, rfl, rfl⟩ | hold'
      · exact absurd hold (hnone x)
      · exact hinv.keyed m' path' x x' hold hold'
  shaped x hx := by
    rcases (cached_joinNode_iff hfresh).mp hx with rfl | hold
    · rw [joinNode_node_self]
      exact hshape.imp And.left id
    · have hne : x ≠ n := fun heq => hfresh _ (heq ▸ hold)
      rw [joinNode_node_of_ne hne]
      exact hinv.shaped x hold
  root m' hm' := by
    obtain ⟨r, hroot, hr⟩ := hinv.root m' hm'
    exact ⟨r, addMountRef_root.trans hroot, (nodeAt_joinNode_iff hfresh).mpr (.inr hr)⟩
  rooted m' x hat := by
    refine addMountRef_root.trans ?_
    rcases (nodeAt_joinNode_iff hfresh).mp hat with ⟨rfl, rfl, hpath⟩ | hold
    · rcases hshape with ⟨-, hroot⟩ | ⟨names, hnames, hchain, -⟩
      · exact hroot
      · exact absurd (hchain.symm.trans hpath.symm) (nodePath_ne_root hnames.nameOk)
    · exact hinv.rooted m' x hold
  population := hinv.refcnt_joinNode hfresh hn
  mounts := hinv.mounts
  allocated := hinv.allocated
  owned x hx := by
    rcases (cached_joinNode_iff hfresh).mp hx with rfl | hold
    · rw [joinNode_node_self]
      exact hm
    · have hne : x ≠ n := fun heq => hfresh _ (heq ▸ hold)
      rw [joinNode_node_of_ne hne]
      exact hinv.owned x hold
  unborn m' hm' := addMountRef_root.trans (hinv.unborn m' hm')

end CacheInv

end Nxos.Fs
