import Nxos.Fs.Devfs
import Nxos.Fs.Vfs.Mounts

/-!
# Reference counts over whole runs

Runs of mounting, acquiring and releasing, with the acquisitions that are outstanding: every
reference count is the number of acquisitions that it stands for.
-/

namespace Nxos.Fs

variable {σ : Type}

/-- The state before the first mount. -/
structure Vfs.Booted (v : Vfs σ) : Prop where
  mounts : v.mounts = []
  nodeList : ∀ hash, v.nodeList hash = []
  refcnt : ∀ m, (v.mount m).refcnt = 0
  root : ∀ m, (v.mount m).root = none

/-- Runs in which every acquisition succeeds or fails in a lookup, with the outstanding
acquisitions.  The file systems may change between two calls. -/
inductive NodeRun : Vfs σ → List Acquisition → Prop
  | boot {v : Vfs σ} : v.Booted → NodeRun v []
  | mount {v v' : Vfs σ} {held : List Acquisition} {bdev : Option ℕ} {absPath : Str}
      {fs : VfsFileSystem σ} {flags : BitVec 32} : NodeRun v held →
      vfsMountFileSystem v bdev absPath fs flags = (.eok, v') →
      NodeRun v' (coveredAcquisition v absPath (v'.mount v.allocs).covered ++ held)
  | acquire {v v' : Vfs σ} {held : List Acquisition} {path p : Str} {m n : ℕ} :
      NodeRun v held → vfsFindRoot v path = some (m, p) → vfsNodeAcquire v path = (.ok n, v') →
      NodeRun v' (⟨m, pathNames p, n⟩ :: held)
  | fail {v v' : Vfs σ} {held : List Acquisition} {path : Str} :
      NodeRun v held → vfsNodeAcquire v path = (.error .lookup, v') → NodeRun v' held
  | release {v : Vfs σ} {held : List Acquisition} {a : Acquisition} :
      NodeRun v held → a ∈ held → NodeRun (vfsNodeRelease v a.node) (held.erase a)
  | change {v : Vfs σ} {held : List Acquisition} (s : σ) :
      NodeRun v held → NodeRun { v with fsState := s } held

/-- The counts of nodes and mounts, and the hash lists, are those of the acquisitions. -/
structure CountsExact (v : Vfs σ) (held : List Acquisition) : Prop where
  node : ∀ n, v.Cached n → (v.mount (v.node n).mount).root ≠ some n →
    ∃ names, ChainOk names ∧ (v.node n).path = nodePath names ∧
      (v.node n).refcnt = held.countP fun a => a.mount = (v.node n).mount ∧ names <+: a.names
  cached_iff : ∀ m names, ChainOk names → ((∃ n, v.NodeAt m (nodePath names) n) ↔
    0 < held.countP fun a => a.mount = m ∧ names <+: a.names)
  nodup : ∀ hash, (v.nodeList hash).Nodup
  once : ∀ hash hash' n n', n ∈ v.nodeList hash → n' ∈ v.nodeList hash' →
    (v.node n).mount = (v.node n').mount → (v.node n).path = (v.node n').path →
    n = n' ∧ hash = hash'
  root : ∀ m ∈ v.mounts, ∃ r, (v.mount m).root = some r ∧ v.NodeAt m [slash] r ∧
    (v.node r).refcnt = 1 + held.countP fun a => a.mount = m
  mount : ∀ m ∈ v.mounts, (v.mount m).refcnt = (v.population m).card

section Runs

variable {v v' : Vfs σ} {held : List Acquisition}

theorem Vfs.Booted.nodeInv (hboot : v.Booted) : NodeInv v [] := by
  have hno : ∀ n, ¬v.Cached n := fun n hcached => by
    rw [Vfs.Cached, hboot.nodeList] at hcached
    exact List.not_mem_nil hcached
  have hmounts : ∀ m, m ∉ v.mounts := fun m hm => by
    rw [hboot.mounts] at hm
    exact List.not_mem_nil hm
  refine ⟨⟨fun hash => ?_, fun hash n hn => ?_, fun n hn => absurd hn (hno n),
    fun m path n n' hn => absurd hn.cached (hno n), fun n hn => absurd hn (hno n),
    fun m hm => absurd hm (hmounts m), fun m n hn => absurd hn.cached (hno n), fun m => ?_, ?_,
    fun m hm => absurd hm (hmounts m), fun n hn => absurd hn (hno n), fun m _ => hboot.root m⟩,
    fun m hm => absurd hm (hmounts m), fun a ha => absurd ha List.not_mem_nil⟩
  · rw [hboot.nodeList]
    exact List.nodup_nil
  · rw [hboot.nodeList] at hn
    exact absurd hn List.not_mem_nil
  · have hempty : v.population m = ∅ := by
      rw [Finset.eq_empty_iff_forall_notMem]
      exact fun n hn => hno n (Finset.mem_filter.mp hn).2.1
    rw [hboot.refcnt, hempty, Finset.card_empty]
    rfl
  · rw [hboot.mounts]
    exact List.nodup_nil

theorem NodeRun.nodeInv (hrun : NodeRun v held) : NodeInv v held := by
  induction hrun with
  | boot hboot => exact hboot.nodeInv
  | mount _ hmount ih =>
      rcases ih.vfsMountFileSystem _ _ _ _ with ⟨w, heq, -, -, hw, -⟩ | ⟨w, err, heq, herr, -⟩
      · rw [hmount] at heq
        obtain rfl := (Prod.ext_iff.mp heq).2
        exact hw
      · rw [hmount] at heq
        exact absurd (Prod.ext_iff.mp heq).1.symm herr
  | acquire _ hfind hacquire ih =>
      have hacquired := ih.vfsNodeAcquire hfind
      rw [hacquire] at hacquired
      exact hacquired
  | fail _ hacquire ih =>
      obtain ⟨leaked, hw, hnone⟩ := ih.acquire_error hacquire
      rwa [hnone nofun, List.nil_append] at hw
  | release _ ha ih => exact (ih.perm (List.perm_cons_erase ha)).vfsNodeRelease
  | change s _ ih => exact ih.fsState (le_refl _)

theorem NodeInv.countsExact (hinv : NodeInv v held) : CountsExact v held where
  node n hcached hnot := by
    rcases hinv.shaped n hcached with hpath | ⟨names, hnames, hpath, hm⟩
    · exact absurd (hinv.rooted _ n ⟨hcached, rfl, hpath⟩) hnot
    · have hof : v.NodeOf (v.node n).mount names n := by
        rw [Vfs.NodeOf, if_neg hnames.ne_nil]
        exact ⟨hcached, rfl, hpath⟩
      have hcount := (hinv.counted _ hm names hnames.nameOk n hof).1
      rw [baseCount, if_neg hnames.ne_nil, Nat.cast_zero, zero_add] at hcount
      exact ⟨names, hnames, hpath, hcount⟩
  cached_iff m names hnames := by
    constructor
    · rintro ⟨n, hn⟩
      rcases hinv.shaped n hn.cached with hpath | ⟨names', -, -, hm⟩
      · exact absurd (hn.path.symm.trans hpath) (nodePath_ne_root hnames.nameOk)
      · exact hinv.prefixCount_pos_of_nodeAt hnames (hn.mount ▸ hm) hn
    · intro hpos
      obtain ⟨a, ha, hkey⟩ := List.countP_pos_iff.mp hpos
      simp only [decide_eq_true_eq] at hkey
      obtain ⟨n, hn⟩ := (hinv.anchored a ha).chain names hkey.2
      rw [hkey.1, Vfs.NodeOf, if_neg hnames.ne_nil] at hn
      exact ⟨n, hn⟩
  nodup := hinv.nodup
  once hash hash' n n' hn hn' hmount hpath := by
    obtain ⟨hbucket, -⟩ := hinv.listed hash n hn
    obtain ⟨hbucket', -⟩ := hinv.listed hash' n' hn'
    have hcached : v.Cached n := by
      rwa [Vfs.Cached, hbucket]
    have hcached' : v.Cached n' := by
      rwa [Vfs.Cached, hbucket']
    have heq : n = n' := hinv.keyed _ _ n n' ⟨hcached, hmount, hpath⟩ ⟨hcached', rfl, rfl⟩
    exact ⟨heq, by rw [← hbucket, ← hbucket', heq]⟩
  root m hm := by
    obtain ⟨r, hroot, hr⟩ := hinv.root m hm
    have hof : v.NodeOf m [] r := hroot
    have hcount := (hinv.counted m hm [] (by simp) r hof).1
    refine ⟨r, hroot, hr, ?_⟩
    simpa [baseCount, prefixCount] using hcount
  mount m _ := hinv.population m

/-- In every run of mounts, acquisitions and releases, with acquisitions that fail in a lookup,
the reference counts are exact: of a node, the outstanding acquisitions whose path goes through
it; of a root, one more than those in its mount; of a mount, its live nodes.  A node is listed,
once, as long as an acquisition goes through it. -/
theorem nodeRun_countsExact (hrun : NodeRun v held) : CountsExact v held :=
  hrun.nodeInv.countsExact

end Runs

/-! ## A run -/

/-- The names `d`, a directory, and `t`, a file in it. -/
def demoLookup (dn : VfsNode) (name : Str) : Option VfsInode :=
  if name = [0x64] then some ⟨.dir, 0, 0⟩
  else if dn.path = [slash, 0x64] ∧ name = [0x74] then some ⟨.reg, 0, 0⟩
  else none

def demoStart : Vfs Unit where
  fsState := ()
  mounts := []
  mount _ := ⟨readOnlyFs demoLookup, none, [], 0, 0, none, none⟩
  nodeList _ := []
  node _ := ⟨0, 0, [], .blank⟩
  allocs := 0
  memory _ := true

theorem demoStart_booted : demoStart.Booted :=
  ⟨rfl, fun _ => rfl, fun _ => rfl, fun _ => rfl⟩

def demoMounted : Vfs Unit :=
  (vfsMountFileSystem demoStart none [slash] (readOnlyFs demoLookup) 0).2

/-- The path `/d/t` is acquired. -/
def demoAcquired : Vfs Unit := (vfsNodeAcquire demoMounted [slash, 0x64, slash, 0x74]).2

theorem demo_countsExact : CountsExact demoAcquired [⟨0, [[0x64], [0x74]], 3⟩] := by
  have hmounted : NodeRun demoMounted [] :=
    .mount (.boot demoStart_booted) (Prod.ext (by decide) rfl)
  have hfind : vfsFindRoot demoMounted [slash, 0x64, slash, 0x74] =
      some (0, [0x64, slash, 0x74]) := by decide
  have hacquire : vfsNodeAcquire demoMounted [slash, 0x64, slash, 0x74] =
      (.ok 3, demoAcquired) := Prod.ext rfl rfl
  have hnames : pathNames [0x64, slash, 0x74] = [[0x64], [0x74]] := by decide
  rw [← hnames]
  exact nodeRun_countsExact (.acquire hmounted hfind hacquire)

end Nxos.Fs
