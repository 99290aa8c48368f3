import Nxos.Fs.Vfs.Counts
import Nxos.Fs.Vfs.FindRoot
import Nxos.Support.Logged

/-!
# Renaming

The embedding of `NX_VfsRename`, with the locks that it takes and its call of the file system.

Whether the destination is beneath the source is tested on the strings of the caller, before they
are normalised.
-/

namespace Nxos.Fs

open Logged

variable {σ : Type}

/-! ## The call -/

/-- What a call does with the locks of nodes that it holds together, and with the file system. -/
inductive RenameEvent where
  | lock (n : ℕ)
  | unlock (n : ℕ)
  | rename (sn : ℕ) (sname : Str) (n1 dn : ℕ) (dname : Str)
  deriving DecidableEq

structure RenameNodes where
  n1 : ℕ
  sn : ℕ
  sname : Str
  dn : ℕ
  dname : Str

/-- The functions `rename` of the file systems of the mounts. -/
abbrev FsRename (σ : Type) := ℕ → σ → VfsNode → Str → VfsNode → VfsNode → Str → NxError × σ

/-- `NX_MutexLock` of a node.  A lock that the thread has itself is waited for without an end. -/
def lockNode (locked : List ℕ) (n : ℕ) : Logged RenameEvent Fault Unit := do
  emit (.lock n)
  if n ∈ locked then stop .deadlock else pure ()

/-- The tests of `NX_VfsRename` on the strings of the caller, which end it with `NX_EINVAL`. -/
def renameRefused (src dst : Str) : Bool :=
  strEqualN src dst vfsMaxPath || src == [slash] ||
    (decide (src.length < dst.length) && strEqualN src dst src.length &&
      dst[src.length]? == some slash)

/-- `NX_VfsRename` from the absolute paths up to the locks. -/
def renameNodes (v : Vfs σ) (srcAbsPath dstAbsPath : Str) :
    Except NxError RenameNodes × Vfs σ :=
  match vfsNodeAcquire v srcAbsPath with
  | (.error _, v) => (.error .enores, v)
  | (.ok n1, v) =>
      if vfsNodeAccess v n1 wOk = false then (.error .eperm, vfsNodeRelease v n1)
      else if (v.node n1).refcnt ≥ 2 then (.error .ebusy, vfsNodeRelease v n1)
      else
        match vfsLookupDir v srcAbsPath with
        | (none, v) => (.error .enosrch, vfsNodeRelease v n1)
        | (some (sn, sname), v) =>
            match vfsNodeAcquire v dstAbsPath with
            | (.ok n2, v) =>
                (.error .ebusy, vfsNodeRelease (vfsNodeRelease (vfsNodeRelease v n2) sn) n1)
            | (.error _, v) =>
                match vfsLookupDir v dstAbsPath with
                | (none, v) => (.error .enosrch, vfsNodeRelease (vfsNodeRelease v sn) n1)
                | (some (dn, dname), v) =>
                    if (v.node sn).mount ≠ (v.node dn).mount then
                      (.error .efault,
                        vfsNodeRelease (vfsNodeRelease (vfsNodeRelease v dn) sn) n1)
                    else (.ok ⟨n1, sn, sname, dn, dname⟩, v)

/-- `rename`, then `sync` of the directories. -/
def renameAndSync (rename : FsRename σ) (v : Vfs σ) (nodes : RenameNodes) : NxError × σ :=
  let sn := v.node nodes.sn
  let dn := v.node nodes.dn
  let (err, s) := rename sn.mount v.fsState sn nodes.sname (v.node nodes.n1) dn nodes.dname
  if err ≠ .eok then (err, s)
  else
    let (err, s) := (v.mount sn.mount).fs.sync s sn
    if err ≠ .eok then (err, s)
    else if nodes.dn ≠ nodes.sn then (v.mount dn.mount).fs.sync s dn
    else (err, s)

/-- `NX_VfsRename` from the locks on. -/
def renameLocked (rename : FsRename σ) (v : Vfs σ) (nodes : RenameNodes) :
    Logged RenameEvent Fault (NxError × Vfs σ) := do
  lockNode [] nodes.n1
  lockNode [nodes.n1] nodes.sn
  if nodes.dn ≠ nodes.sn then lockNode [nodes.n1, nodes.sn] nodes.dn else pure ()
  emit (.rename nodes.sn nodes.sname nodes.n1 nodes.dn nodes.dname)
  let (err, s) := renameAndSync rename v nodes
  if nodes.dn ≠ nodes.sn then emit (.unlock nodes.dn) else pure ()
  emit (.unlock nodes.sn)
  emit (.unlock nodes.n1)
  let v : Vfs σ := { v with fsState := s }
  pure (err, vfsNodeRelease (vfsNodeRelease (vfsNodeRelease v nodes.dn) nodes.sn) nodes.n1)

/-- `NX_VfsRename`; `stale` and `stale'` are what the buffers of `NX_VfsBuildAbsPath` held. -/
def vfsRename (rename : FsRename σ) (stale stale' : Buffer) (cwd : Option Str) (v : Vfs σ)
    (src dst : Str) : Logged RenameEvent Fault (NxError × Vfs σ) :=
  if renameRefused src dst then pure (.einval, v)
  else
    match vfsBuildAbsPath stale cwd src with
    | .error fault => stop fault
    | .ok (.error err) => pure (err, v)
    | .ok (.ok srcAbsPath) =>
        match vfsBuildAbsPath stale' cwd dst with
        | .error fault => stop fault
        | .ok (.error err) => pure (err, v)
        | .ok (.ok dstAbsPath) =>
            match renameNodes v srcAbsPath dstAbsPath with
            | (.error err, v) => pure (err, v)
            | (.ok nodes, v) => renameLocked rename v nodes

/-! ## What is asked of a call -/

def RenameEvent.locked : RenameEvent → Option ℕ
  | .lock n => some n
  | _ => none

/-- The file system is not called when the destination is the source or beneath it, and no lock that
is held is taken. -/
structure RenameSafe (srcNames dstNames : List Str) (log : List RenameEvent) : Prop where
  unrelated : srcNames <+: dstNames →
    ∀ sn sname n1 dn dname, .rename sn sname n1 dn dname ∉ log
  lockedOnce : (log.filterMap RenameEvent.locked).Nodup

/-- The tests between the paths and the locks pass: the source is acquired, writable and not used
by others, its directory is acquired, the destination is not, but its directory is, and both
directories are in one mount. -/
def Vfs.RenameTests (v : Vfs σ) (src dst : Str) (nodes : RenameNodes) (w : Vfs σ) : Prop :=
  ∃ v₁ v₂ failure v₃,
    vfsNodeAcquire v src = (.ok nodes.n1, v₁) ∧ vfsNodeAccess v₁ nodes.n1 wOk = true ∧
    (v₁.node nodes.n1).refcnt < 2 ∧
    vfsLookupDir v₁ src = (some (nodes.sn, nodes.sname), v₂) ∧
    vfsNodeAcquire v₂ dst = (.error failure, v₃) ∧
    vfsLookupDir v₃ dst = (some (nodes.dn, nodes.dname), w) ∧
    (w.node nodes.sn).mount = (w.node nodes.dn).mount

/-! ## The locks -/

section Locks

variable {rename : FsRename σ} {v : Vfs σ} {nodes : RenameNodes} {n : ℕ} {locked : List ℕ}
  {srcNames dstNames : List Str}

theorem renameLocked_log_of_sn_eq (hsn : nodes.sn = nodes.n1) :
    (renameLocked rename v nodes).log = [.lock nodes.n1, .lock nodes.n1] := by
  unfold renameLocked lockNode
  simp only [List.not_mem_nil, List.mem_singleton, hsn, if_true, if_false]
  rfl

theorem renameLocked_log_of_dn_eq (hsn : nodes.sn ≠ nodes.n1) (hdn : nodes.dn = nodes.n1) :
    (renameLocked rename v nodes).log =
      [.lock nodes.n1, .lock nodes.sn, .lock nodes.n1] := by
  unfold renameLocked lockNode
  simp only [List.not_mem_nil, List.mem_cons, hsn, hdn, hsn.symm, ne_eq, not_false_eq_true, true_or,
    if_true, if_false]
  rfl

theorem renameLocked_log_of_same (hsn : nodes.sn ≠ nodes.n1) (hdn : nodes.dn = nodes.sn) :
    (renameLocked rename v nodes).log =
      [.lock nodes.n1, .lock nodes.sn,
        .rename nodes.sn nodes.sname nodes.n1 nodes.dn nodes.dname,
        .unlock nodes.sn, .unlock nodes.n1] := by
  unfold renameLocked lockNode
  simp only [List.not_mem_nil, List.mem_singleton, hsn, hdn, ne_eq, not_true_eq_false, if_false]
  rfl

theorem renameLocked_log_of_ne (hsn : nodes.sn ≠ nodes.n1) (hdn : nodes.dn ≠ nodes.n1)
    (hne : nodes.dn ≠ nodes.sn) :
    (renameLocked rename v nodes).log =
      [.lock nodes.n1, .lock nodes.sn, .lock nodes.dn,
        .rename nodes.sn nodes.sname nodes.n1 nodes.dn nodes.dname,
        .unlock nodes.dn, .unlock nodes.sn, .unlock nodes.n1] := by
  unfold renameLocked lockNode
  simp only [List.not_mem_nil, List.mem_cons, hsn, hdn, hne, ne_eq, or_self,
    not_false_eq_true, if_true, if_false]
  rfl

/-- A call that reaches the locks is safe when the source is neither of the directories and the
destination is not beneath it. -/
theorem renameLocked_safe_iff : RenameSafe srcNames dstNames (renameLocked rename v nodes).log ↔
    nodes.sn ≠ nodes.n1 ∧ nodes.dn ≠ nodes.n1 ∧ ¬srcNames <+: dstNames := by
  by_cases hsn : nodes.sn = nodes.n1
  · refine iff_of_false (fun hsafe => ?_) fun h => h.1 hsn
    have honce := hsafe.lockedOnce
    rw [renameLocked_log_of_sn_eq hsn] at honce
    simp [RenameEvent.locked] at honce
  · by_cases hdn : nodes.dn = nodes.n1
    · refine iff_of_false (fun hsafe => ?_) fun h => h.2.1 hdn
      have honce := hsafe.lockedOnce
      rw [renameLocked_log_of_dn_eq hsn hdn] at honce
      simp [RenameEvent.locked] at honce
    · have hsn' : nodes.n1 ≠ nodes.sn := Ne.symm hsn
      have hdn' : nodes.n1 ≠ nodes.dn := Ne.symm hdn
      simp only [hsn, hdn, ne_eq, not_false_eq_true, true_and]
      -- the file system is called, and the locks differ
      obtain ⟨hrename, honce⟩ : .rename nodes.sn nodes.sname nodes.n1 nodes.dn nodes.dname ∈
          (renameLocked rename v nodes).log ∧
          ((renameLocked rename v nodes).log.filterMap RenameEvent.locked).Nodup := by
        by_cases hsame : nodes.dn = nodes.sn
        · have hlocked : [nodes.n1, nodes.sn].Nodup := by simp [hsn']
          rw [renameLocked_log_of_same hsn hsame]
          exact ⟨by simp, hlocked⟩
        · have hlocked : [nodes.n1, nodes.sn, nodes.dn].Nodup := by
            simp [hsn', hdn', Ne.symm hsame]
          rw [renameLocked_log_of_ne hsn hdn hsame]
          exact ⟨by simp, hlocked⟩
      exact ⟨fun hsafe hpart => hsafe.unrelated hpart _ _ _ _ _ hrename,
        fun hnot => ⟨fun hpart => absurd hpart hnot, honce⟩⟩

theorem renameSafe_nil : RenameSafe srcNames dstNames [] :=
  ⟨fun _ _ _ _ _ _ => List.not_mem_nil, List.nodup_nil⟩

end Locks

/-! ## The tests -/

section Tests

variable {v w : Vfs σ} {src dst : Str} {nodes : RenameNodes}

/-- The tests pass exactly when the nodes are found. -/
theorem renameNodes_eq_ok_iff :
    renameNodes v src dst = (.ok nodes, w) ↔ v.RenameTests src dst nodes w := by
  unfold Vfs.RenameTests
  constructor
  · intro hnodes
    unfold renameNodes at hnodes
    rcases hsrc : vfsNodeAcquire v src with ⟨failure | n1, v₁⟩
    · simp [hsrc] at hnodes
    simp only [hsrc] at hnodes
    split at hnodes
    · cases hnodes
    next haccess =>
    split at hnodes
    · cases hnodes
    next hrefcnt =>
    rcases hdir : vfsLookupDir v₁ src with ⟨_ | ⟨sn, sname⟩, v₂⟩
    · simp [hdir] at hnodes
    simp only [hdir] at hnodes
    rcases hdst : vfsNodeAcquire v₂ dst with ⟨failure | n2, v₃⟩
    · simp only [hdst] at hnodes
      rcases hdir' : vfsLookupDir v₃ dst with ⟨_ | ⟨dn, dname⟩, v₄⟩
      · simp [hdir'] at hnodes
      · simp only [hdir'] at hnodes
        split at hnodes
        · cases hnodes
        next hmount =>
        cases hnodes
        exact ⟨v₁, v₂, failure, v₃, rfl, by simpa using haccess, not_le.mp hrefcnt, hdir, hdst,
          hdir', not_not.mp hmount⟩
    · simp [hdst] at hnodes
  · rintro ⟨v₁, v₂, failure, v₃, hsrc, haccess, hrefcnt, hdir, hdst, hdir', hmount⟩
    unfold renameNodes
    simp [hsrc, haccess, not_le.mpr hrefcnt, hdir, hdst, hdir', hmount]

end Tests

/-! ## The nodes of the paths -/

section Paths

variable {v w : Vfs σ} {m n dn : ℕ} {names : List Str} {name : Str} {rest : List Token}
  {held : List Acquisition} {a : Acquisition}

theorem pathNames_intercalate (hnames : ∀ name ∈ names, NameOk name) :
    pathNames (List.intercalate [slash] names) = names := by
  cases names with
  | nil => rfl
  | cons name rest =>
      have hpath : nodePath (name :: rest) =
          slash :: List.intercalate [slash] (name :: rest) := by
        rw [← dirPath_eq_intercalate, dirPath_of_ne_nil (List.cons_ne_nil _ _)]
      have hlen : (name :: rest).length ≤ (List.intercalate [slash] (name :: rest)).length := by
        have hchars := congrArg List.length hpath
        rw [nodePath_cons] at hchars
        simp only [List.length_cons, List.length_append] at hchars ⊢
        have hname := List.length_pos_iff.mpr (hnames name List.mem_cons_self).1
        have hrest := length_le_nodePath rest
        omega
      have htokens := tokensFrom_nodePath hnames hlen
      rwa [hpath, tokensFrom_slash] at htokens

def AbsolutePath.parent (p : AbsolutePath) : AbsolutePath where
  names := p.names.dropLast
  plain name hmem := p.plain name (List.mem_of_mem_dropLast hmem)
  noZero name hmem := p.noZero name (List.mem_of_mem_dropLast hmem)
  short := by
    rcases p.names.eq_nil_or_concat' with hnil | ⟨parents, last, hlast⟩
    · rw [hnil]
      decide
    · refine lt_of_le_of_lt (dirPath_length_lt p.nameOk (List.dropLast_prefix _) ?_).le p.short
      rw [hlast, List.dropLast_concat]
      simp

/-- What `VfsLookupDir` makes of a normalised path. -/
theorem cutAtSlash_dirPath (hnames : ∀ name ∈ names, NameOk name) :
    ∃ dir, cutAtSlash (dirPath names) = some dir ∧
      (if dir = [] then [slash] else dir) = dirPath names.dropLast := by
  rcases names.eq_nil_or_concat' with rfl | ⟨parents, last, rfl⟩
  · exact ⟨[], by decide, rfl⟩
  · rw [List.dropLast_concat, dirPath_concat]
    refine ⟨nodePath parents, cutAtSlash_nodePath (hnames last (by simp)), ?_⟩
    simp only [nodePath_eq_nil_iff]
    rfl

theorem vfsLookupDir_acquire {p : AbsolutePath}
    (hlookup : vfsLookupDir v p.path = (some (n, name), w)) :
    vfsNodeAcquire v p.parent.path = (.ok n, w) := by
  obtain ⟨dir, hdir, hparent⟩ : ∃ dir, cutAtSlash p.path = some dir ∧
      (if dir = [] then [slash] else dir) = p.parent.path := cutAtSlash_dirPath p.nameOk
  have hshort : ¬vfsMaxPath ≤ p.path.length := not_le.mpr p.short
  unfold vfsLookupDir at hlookup
  rw [if_neg hshort] at hlookup
  simp only [hdir, hparent] at hlookup
  rcases hacquire : vfsNodeAcquire v p.parent.path with ⟨failure | n', w'⟩
  · simp [hacquire] at hlookup
  · simp only [hacquire] at hlookup
    split at hlookup
    · cases hlookup
    · simp only [Prod.mk.injEq, Option.some.injEq] at hlookup
      obtain ⟨⟨rfl, -⟩, rfl⟩ := hlookup
      rfl

theorem Vfs.Frame.of_acquire {path : Str} {r : Except AcquireFailure ℕ}
    (hacquire : Fs.vfsNodeAcquire v path = (r, w)) : v.Frame w := by
  have hframe : v.Frame (Fs.vfsNodeAcquire v path).2 := Vfs.Frame.vfsNodeAcquire
  rwa [hacquire] at hframe

theorem Vfs.Frame.mountNames (hframe : v.Frame w) (m : ℕ) : w.mountNames m = v.mountNames m := by
  rw [Vfs.mountNames, Vfs.mountNames, hframe.mountPath]

theorem Vfs.Frame.longestMount (hframe : v.Frame w) (hlongest : v.LongestMount names m) :
    w.LongestMount names m := by
  refine ⟨hframe.mounts ▸ hlongest.mem, hframe.mountNames m ▸ hlongest.isPrefix,
    fun m' hm' hpart => ?_⟩
  rw [hframe.mountNames] at hpart ⊢
  rw [hframe.mountNames]
  exact hlongest.longest m' (hframe.mounts ▸ hm') hpart

theorem Vfs.Frame.mountsNormal (hframe : v.Frame w) (hnormal : v.MountsNormal) :
    w.MountsNormal where
  normal m hm := by
    rw [hframe.mountPath]
    exact hnormal.normal m (hframe.mounts ▸ hm)
  distinct := by
    have hpaths : (fun m => (w.mount m).path) = fun m => (v.mount m).path :=
      funext hframe.mountPath
    rw [hpaths, hframe.mounts]
    exact hnormal.distinct

/-- `NX_VfsUnmountFileSystem` keeps the mounts at distinct normalised paths. -/
theorem Vfs.MountsNormal.vfsUnmountFileSystem (hnormal : v.MountsNormal) (absPath : Str) :
    (vfsUnmountFileSystem v absPath).2.MountsNormal := by
  unfold Fs.vfsUnmountFileSystem
  split
  · exact hnormal
  · next m _ =>
    split
    · exact hnormal
    · refine Vfs.Frame.mountsNormal (Vfs.Frame.releaseNode.trans Vfs.Frame.releaseNode) ⟨?_, ?_⟩
      · exact fun m' hm' => hnormal.normal m' (List.mem_of_mem_erase hm')
      · exact hnormal.distinct.sublist (List.erase_sublist.map _)

theorem NodeInv.acquire_path (hinv : NodeInv v held) (hnormal : v.MountsNormal)
    (p : AbsolutePath) (hacquire : Fs.vfsNodeAcquire v p.path = (.ok n, w)) :
    ∃ m names, v.LongestMount p.names m ∧ v.mountNames m ++ names = p.names ∧
      NodeInv w (⟨m, names, n⟩ :: held) := by
  rcases hnormal.scan p with ⟨hnone, -⟩ | ⟨m, hlongest, hfind⟩
  · rw [vfsNodeAcquire_of_findRoot_none hnone] at hacquire
    cases hacquire
  · have hacquired := hinv.vfsNodeAcquire hfind
    rw [hacquire, pathNames_intercalate fun name hmem => p.nameOk name (List.mem_of_mem_drop hmem)]
      at hacquired
    refine ⟨m, _, hlongest, ?_, hacquired⟩
    obtain ⟨rest, hrest⟩ := hlongest.isPrefix
    rw [← hrest, List.drop_left]

theorem NodeInv.acquireLoop_cached (hinv : NodeInv v (⟨m, names, dn⟩ :: held)) (ha : a ∈ held)
    (hm : a.mount = m) (hpart : names ++ rest.map Token.name <+: a.names) :
    ∃ n w, Fs.acquireLoop v m dn (nodePath names) rest = (.ok n, w) := by
  induction rest generalizing v names dn with
  | nil => exact ⟨dn, v, rfl⟩
  | cons token rest ih =>
      have hsplit : names ++ (token :: rest).map Token.name =
          (names ++ [token.name]) ++ rest.map Token.name := by simp
      rw [hsplit] at hpart
      have hanchored := hinv.anchored a (List.mem_cons_of_mem _ ha)
      have hshorter : names ++ [token.name] <+: a.names := (List.prefix_append _ _).trans hpart
      obtain ⟨n, hn⟩ := hanchored.chain _ hshorter
      rw [Vfs.NodeOf, if_neg (by simp), hm] at hn
      have hname : NameOk token.name := hanchored.nameOk _ (hshorter.subset (by simp))
      rw [Fs.acquireLoop]
      simp only [← nodePath_concat, vfsNodeLookup, hinv.findNode_eq_some_iff.mpr hn]
      exact ih (hinv.acquireChild hname hn) hpart

theorem NodeInv.acquire_again (hinv : NodeInv v held) (hnormal : v.MountsNormal)
    (p : AbsolutePath) (hlongest : v.LongestMount p.names m)
    (hnames : v.mountNames m ++ names = p.names) (ha : ⟨m, names, n⟩ ∈ held) :
    ∃ n' w, Fs.vfsNodeAcquire v p.path = (.ok n', w) := by
  have hrest : p.names.drop (v.mountNames m).length = names := by
    rw [← hnames, List.drop_left]
  have hfind := (hnormal.vfsFindRoot_eq_some_iff p).mpr ⟨hlongest, rfl⟩
  have hread : pathNames (List.intercalate [slash] names) = names :=
    pathNames_intercalate (hinv.anchored _ ha).nameOk
  rw [hrest] at hfind
  obtain ⟨r, hroot, -⟩ := hinv.root m hlongest.mem
  unfold Fs.vfsNodeAcquire
  simp only [hfind, hroot]
  exact (hinv.acquireRoot hlongest.mem hroot).acquireLoop_cached ha rfl
    (hread.symm ▸ List.prefix_refl names : pathNames (List.intercalate [slash] names) <+: names)

end Paths

/-! ## Which nodes are found -/

section Found

variable {v w : Vfs σ} {m n : ℕ} {names : List Str} {held : List Acquisition}
  {nodes : RenameNodes}

theorem NodeInv.names_ne_nil (hinv : NodeInv v (⟨m, names, n⟩ :: held))
    (hrefcnt : (v.node n).refcnt < 2) : names ≠ [] := by
  rintro rfl
  have ha := hinv.anchored _ List.mem_cons_self
  have hcount := (hinv.counted m ha.mount [] (by simp) n ha.node).1
  have hone : 0 < prefixCount (⟨m, [], n⟩ :: held) m [] :=
    prefixCount_pos List.mem_cons_self (List.prefix_refl _)
  rw [hcount, baseCount, if_pos rfl] at hrefcnt
  omega

theorem NodeInv.names_eq {b c : Acquisition} (hinv : NodeInv v held) (hb : b ∈ held) (hc : c ∈ held)
    (hnode : b.node = c.node) : b.mount = c.mount ∧ b.names = c.names := by
  have hb' := hinv.anchored b hb
  have hc' := hinv.anchored c hc
  have hof := hb'.node
  rw [hnode] at hof
  exact hinv.nodeOf_injective hc'.mount hb'.mount hc'.nameOk hb'.nameOk hc'.node hof

/-- When the tests pass, the source is not its own directory, the destination is another path, and
its directory is the source only beneath the source. -/
theorem NodeInv.renameTests_paths (hinv : NodeInv v held) (hnormal : v.MountsNormal)
    {p q : AbsolutePath} (htests : v.RenameTests p.path q.path nodes w) :
    nodes.sn ≠ nodes.n1 ∧ p.names ≠ q.names ∧
      (nodes.dn = nodes.n1 → p.names = q.parent.names) := by
  obtain ⟨v₁, v₂, failure, v₃, hsrc, -, hrefcnt, hdir, hdst, hdir', -⟩ := htests
  have hsdir := vfsLookupDir_acquire hdir
  have hddir := vfsLookupDir_acquire hdir'
  have hframe₁ : v.Frame v₁ := .of_acquire hsrc
  have hframe₂ : v.Frame v₂ := hframe₁.trans (.of_acquire hsdir)
  have hframe₃ : v.Frame v₃ := hframe₂.trans (.of_acquire hdst)
  obtain ⟨m, names, hlongest, hnames, hinv₁⟩ := hinv.acquire_path hnormal p hsrc
  have hne := hinv₁.names_ne_nil hrefcnt
  obtain ⟨ms, snames, -, hsnames, hinv₂⟩ :=
    hinv₁.acquire_path (hframe₁.mountsNormal hnormal) p.parent hsdir
  obtain ⟨leaked, hinv₃, -⟩ := hinv₂.acquire_error hdst
  obtain ⟨md, dnames, -, hdnames, hinv₄⟩ :=
    hinv₃.acquire_path (hframe₃.mountsNormal hnormal) q.parent hddir
  rw [hframe₁.mountNames] at hsnames
  rw [hframe₃.mountNames] at hdnames
  refine ⟨fun hnode => ?_, fun heq => ?_, fun hnode => ?_⟩
  · obtain ⟨rfl, rfl⟩ := hinv₂.names_eq List.mem_cons_self
      (List.mem_cons_of_mem _ List.mem_cons_self) hnode
    -- the source would be as long as its directory
    have hlen : p.names.length = (p.names.dropLast).length :=
      congrArg List.length (hnames.symm.trans hsnames)
    rw [List.length_dropLast] at hlen
    have hnil : p.names = [] := List.length_eq_zero_iff.mp (by omega)
    exact hne (List.append_eq_nil_iff.mp (hnames.trans hnil)).2
  · -- the source is acquired already, so the destination is
    have hpath : q.path = p.path := congrArg dirPath heq.symm
    obtain ⟨n', w', hagain⟩ := hinv₂.acquire_again (hframe₂.mountsNormal hnormal) p
      (hframe₂.longestMount hlongest) ((hframe₂.mountNames m).symm ▸ hnames)
      (List.mem_cons_of_mem _ List.mem_cons_self)
    rw [hpath, hagain] at hdst
    cases hdst
  · obtain ⟨rfl, rfl⟩ := hinv₄.names_eq List.mem_cons_self
      (List.mem_cons_of_mem _ (List.mem_append_right _ (List.mem_cons_of_mem _ List.mem_cons_self)))
      hnode
    exact hnames.symm.trans hdnames

end Found

/-! ## Every spelling of two paths -/

/-- The call gets to the locks although the destination is beneath the source. -/
def Vfs.RenamesBeneath (v : Vfs σ) (stale stale' : Buffer) (cwd : Option AbsolutePath)
    (src dst : Str) : Prop :=
  callerNames cwd src <+: callerNames cwd dst ∧ callerNames cwd src ≠ callerNames cwd dst ∧
    renameRefused src dst = false ∧ ∃ srcAbsPath dstAbsPath nodes w,
      vfsBuildAbsPath stale (cwd.map AbsolutePath.path) src = .ok (.ok srcAbsPath) ∧
      vfsBuildAbsPath stale' (cwd.map AbsolutePath.path) dst = .ok (.ok dstAbsPath) ∧
      v.RenameTests srcAbsPath dstAbsPath nodes w

/-- The name `d`, of a directory that may be written, in every directory. -/
def writableLookup (_ : VfsNode) (name : Str) : Option VfsInode :=
  if name = [0x64] then some ⟨.dir, sWrite, 0⟩ else none

def writableMounted : Vfs Unit :=
  (vfsMountFileSystem demoStart none [slash] (readOnlyFs writableLookup) 0).2

theorem writableMounted_nodeInv : NodeInv writableMounted [] :=
  NodeRun.nodeInv (.mount (.boot demoStart_booted) (Prod.ext (by decide) rfl))

theorem writableMounted_normal : writableMounted.MountsNormal where
  normal m hm := by
    rw [show writableMounted.mounts = [0] from rfl, List.mem_singleton] at hm
    subst hm
    exact ⟨.root, rfl⟩
  distinct := by decide

def renameAll : FsRename Unit := fun _ s _ _ _ _ _ => (.eok, s)

/-- From `/d/` to `/d/e` the directory of the destination is the source, and is locked twice. -/
example : (vfsRename renameAll (fun _ => 0) (fun _ => 0) none writableMounted
    [slash, 0x64, slash] [slash, 0x64, slash, 0x65]).log = [.lock 2, .lock 1, .lock 2] := by
  decide +kernel

end Nxos.Fs
