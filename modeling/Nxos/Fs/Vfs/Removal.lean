import Nxos.Fs.Vfs.MountCall
import Nxos.Fs.Vfs.PathCalls

/-!
# What is taken away

`NX_VfsUnlink`, `NX_VfsRemoveDir` and `NX_VfsRename` compare the reference count of a node with two
before they hand it to its file system.  In runs of all calls on paths and descriptors this is
enough: nothing refers to the node or to one beneath it, and the directory and the name that the
file system gets with it are its own.
-/

namespace Nxos.Fs

open Transition

variable {σ : Type}

/-! ## Runs -/

inductive PathOp (σ : Type) where
  | call (op : FsOp σ)
  | access (p : AbsolutePath) (mode : BitVec 32)
  | stat (p : AbsolutePath)
  | chmod (p : AbsolutePath) (mode : BitVec 32)
  | fileChmod (ft fd : ℕ) (mode : BitVec 32)
  | makeDir (p : AbsolutePath) (mode : BitVec 32)
  | removeDir (ft : ℕ) (p : AbsolutePath) (rounds : ℕ)
  | unlink (p : AbsolutePath)
  | rename (p q : AbsolutePath)

/-- A mount is made at a path of `NX_VfsBuildAbsPath`, and an unmount finds the root of an idle
mount unused. -/
def PathOp.Fair (s : FileSystems σ) : PathOp σ → Prop
  | .call op => op.Fair s ∧ ∀ bdev absPath fs flags, op = .mount bdev absPath fs flags →
      ∃ p : AbsolutePath, absPath = p.path
  | _ => True

section Moves

variable (ops : ℕ → VfsDirFunctions σ) (flagged : ℕ → Bool)

def FileSystems.performPath (s : FileSystems σ) : PathOp σ → FileSystems σ
  | .call op => s.perform op
  | .access p mode => { s with vfs := (vfsAccess s.vfs p.path mode).2 }
  | .stat p => { s with vfs := (vfsStat s.vfs p.path).2 }
  | .chmod p mode => { s with vfs := (vfsChmod ops s.vfs p.path mode).2 }
  | .fileChmod ft fd mode => (vfsFileChmod ops s ft fd mode).2
  | .makeDir p mode => { s with vfs := (vfsMakeDir ops s.vfs p.path mode).2 }
  | .removeDir ft p rounds => (vfsRemoveDir ops flagged s ft p.path rounds).2
  | .unlink p => { s with vfs := (vfsUnlink ops flagged s.vfs p.path).2 }
  | .rename p q => { s with vfs := (vfsRenamePaths ops s.vfs p.path q.path).2 }

def pathMove (s : FileSystems σ) (op : PathOp σ) (t : FileSystems σ) : Prop :=
  op.Fair s ∧ t = s.performPath ops flagged op

/-- The call passes its tests, and hands the entry to its file system in the second state. -/
inductive TakesAway (s : FileSystems σ) : PathOp σ → DirEntry → FileSystems σ → Prop
  | unlink {p : AbsolutePath} {e : DirEntry} {w : Vfs σ} :
      unlinkEntry flagged s.vfs p.path = (.ok e, w) →
      TakesAway s (.unlink p) e { s with vfs := w }
  | removeDir {ft rounds : ℕ} {p : AbsolutePath} {e : DirEntry} {t : FileSystems σ} :
      removeDirEntry ops flagged s ft p.path rounds = (some (.ok e), t) →
      TakesAway s (.removeDir ft p rounds) e t
  | rename {p q : AbsolutePath} {nodes : RenameNodes} {w : Vfs σ} :
      renameNodes s.vfs p.path q.path = (.ok nodes, w) →
      TakesAway s (.rename p q) ⟨nodes.sn, nodes.sname, nodes.n1⟩ { s with vfs := w }

end Moves

def Vfs.AtOrBeneath (v : Vfs σ) (n k : ℕ) : Prop :=
  (v.node k).mount = (v.node n).mount ∧ ((v.node k).path = (v.node n).path ∨
    ∃ rest, (v.node k).path = (v.node n).path ++ slash :: rest)

/-- The node of an entry is no root, the name in its directory leads to it, and no descriptor and
no mount refers to it or to a node beneath it. -/
structure FileSystems.Removable (s : FileSystems σ) (e : DirEntry) : Prop where
  notRoot : (s.vfs.mount (s.vfs.node e.n).mount).root ≠ some e.n
  apart : e.dn ≠ e.n
  mount : (s.vfs.node e.dn).mount = (s.vfs.node e.n).mount
  path : (s.vfs.node e.n).path =
    (if (s.vfs.node e.dn).path = [slash] then [] else (s.vfs.node e.dn).path) ++ slash :: e.name
  file : ∀ ft fd k, (s.file ft fd).node = some k → ¬s.vfs.AtOrBeneath e.n k
  covered : ∀ m ∈ s.vfs.mounts, ∀ k, (s.vfs.mount m).covered = some k → ¬s.vfs.AtOrBeneath e.n k

/-! ## Paths of acquisitions -/

namespace NodeInv

variable {v w : Vfs σ} {held held' : List Acquisition} {a b : Acquisition} {m n dn : ℕ}
  {names : List Str} {name : Str} {p : AbsolutePath}

theorem node_path (hinv : NodeInv v held) (ha : a ∈ held) :
    (v.node a.node).mount = a.mount ∧ (v.node a.node).path = dirPath a.names := by
  have hanchored := hinv.anchored a ha
  have hat := hinv.nodeAt_of_nodeOf hanchored.mount hanchored.node
  exact ⟨hat.mount, hat.path⟩

theorem alone_beneath (hinv : NodeInv v (⟨m, names, n⟩ :: held))
    (hrefcnt : (v.node n).refcnt < 2) (hb : b ∈ held) : ¬(b.mount = m ∧ names <+: b.names) := by
  rintro ⟨rfl, hpart⟩
  have ha := hinv.anchored _ List.mem_cons_self
  have hcount := (hinv.counted b.mount ha.mount names ha.nameOk n ha.node).1
  have hother : 0 < prefixCount held b.mount names := prefixCount_pos hb hpart
  have hboth : prefixCount (⟨b.mount, names, n⟩ :: held) b.mount names =
      prefixCount held b.mount names + 1 := by
    rw [prefixCount, List.countP_cons_of_pos (by simp), prefixCount]
  rw [hboth] at hcount
  omega

theorem prefix_of_atOrBeneath (hinv : NodeInv v held) (ha : a ∈ held) (hne : a.names ≠ [])
    (hb : b ∈ held) (hbeneath : v.AtOrBeneath a.node b.node) :
    b.mount = a.mount ∧ a.names <+: b.names := by
  obtain ⟨hmount, hpath⟩ := hinv.node_path ha
  obtain ⟨hmount', hpath'⟩ := hinv.node_path hb
  have hok := (hinv.anchored a ha).nameOk
  have hok' := (hinv.anchored b hb).nameOk
  obtain ⟨hsame, hrest⟩ := hbeneath
  rw [hpath, hpath', dirPath_of_ne_nil hne] at hrest
  refine ⟨hmount'.symm.trans (hsame.trans hmount), ?_⟩
  obtain ⟨t, ht, hsplit⟩ : ∃ t : Str, (t = [] ∨ t.head? = some slash) ∧
      dirPath b.names = nodePath a.names ++ t := by
    rcases hrest with heq | ⟨rest, heq⟩
    · exact ⟨[], .inl rfl, by rw [heq, List.append_nil]⟩
    · exact ⟨slash :: rest, .inr rfl, heq⟩
  by_cases hnil : b.names = []
  · -- a root has no component in front
    rw [hnil, dirPath, if_pos rfl] at hsplit
    have hlen := one_lt_length_nodePath hok hne
    have hone := congrArg List.length hsplit
    rw [List.length_append, List.length_singleton] at hone
    omega
  · rw [dirPath_of_ne_nil hnil] at hsplit
    exact prefix_of_nodePath_append hok hok' hsplit ht

end NodeInv

/-! ## Entries -/

/-- The name that `VfsLookupDir` cuts off is the last component. -/
theorem vfsLookupDir_name {v w : Vfs σ} {p : AbsolutePath} {dn : ℕ} {name : Str}
    (hne : p.names ≠ []) (hlookup : vfsLookupDir v p.path = (some (dn, name), w)) :
    p.names = p.parent.names ++ [name] := by
  obtain ⟨parents, last, hlast⟩ := (p.names.eq_nil_or_concat').resolve_left hne
  have hslash : slash ∉ last := (p.nameOk last (by rw [hlast]; simp)).2
  have hpath : p.path = nodePath parents ++ slash :: last := by
    rw [AbsolutePath.path, hlast, dirPath_concat, nodePath_concat]
  have hname : name = (p.path.reverse.takeWhile (· != slash)).reverse := by
    unfold vfsLookupDir at hlookup
    split at hlookup
    · cases hlookup
    · split at hlookup
      · cases hlookup
      · split at hlookup
        · cases hlookup
        · split at hlookup
          · cases hlookup
          · simp only [Prod.mk.injEq, Option.some.injEq] at hlookup
            exact hlookup.1.2.symm
  have hread : (p.path.reverse.takeWhile (· != slash)).reverse = last := by
    rw [hpath, List.reverse_append, List.reverse_cons, List.append_assoc,
      List.takeWhile_append_of_pos fun c hc => by
        rw [bne_iff_ne]
        rintro rfl
        exact hslash (List.mem_reverse.mp hc)]
    simp
  rw [hname, hread, hlast]
  simp [AbsolutePath.parent, hlast]

/-- Acquisitions of a node and of its directory are outstanding, and of those before none goes
through the node. -/
structure HoldsEntry (e : DirEntry) (m : ℕ) (names : List Str)
    (held held' : List Acquisition) : Prop where
  node : ⟨m, names, e.n⟩ ∈ held'
  directory : ⟨m, names.dropLast, e.dn⟩ ∈ held'
  name : names = names.dropLast ++ [e.name]
  kept : ∀ b ∈ held, b ∈ held' ∧ ¬(b.mount = m ∧ names <+: b.names)

theorem HoldsEntry.mono {e : DirEntry} {m : ℕ} {names : List Str}
    {held held' held₁ held₂ : List Acquisition} (hentry : HoldsEntry e m names held held')
    (hless : ∀ b ∈ held₁, b ∈ held) (hmore : ∀ b ∈ held', b ∈ held₂) :
    HoldsEntry e m names held₁ held₂ where
  node := hmore _ hentry.node
  directory := hmore _ hentry.directory
  name := hentry.name
  kept b hb := ⟨hmore b (hentry.kept b (hless b hb)).1, (hentry.kept b (hless b hb)).2⟩

section Entries

variable {v v₁ w : Vfs σ} {held : List Acquisition} {p : AbsolutePath} {e : DirEntry}

theorem NodeInv.holdsEntry (hinv : NodeInv v held) (hnormal : v.MountsNormal)
    (hacquire : Fs.vfsNodeAcquire v p.path = (.ok e.n, v₁)) (hrefcnt : (v₁.node e.n).refcnt < 2)
    (hlookup : vfsLookupDir v₁ p.path = (some (e.dn, e.name), w)) :
    ∃ m names, NodeInv w (⟨m, names.dropLast, e.dn⟩ :: ⟨m, names, e.n⟩ :: held) ∧
      HoldsEntry e m names held (⟨m, names.dropLast, e.dn⟩ :: ⟨m, names, e.n⟩ :: held) := by
  obtain ⟨m, names, hlongest, hnames, hinv₁⟩ := hinv.acquire_path hnormal p hacquire
  have hframe₁ : v.Frame v₁ := .of_acquire hacquire
  have hne : names ≠ [] := hinv₁.names_ne_nil hrefcnt
  have hpne : p.names ≠ [] := by
    rw [← hnames]
    simp [hne]
  have hdir := vfsLookupDir_acquire hlookup
  obtain ⟨ms, snames, hlongest', hsnames, hinv₂⟩ :=
    hinv₁.acquire_path (hframe₁.mountsNormal hnormal) p.parent hdir
  have hparent : p.parent.names = v.mountNames m ++ names.dropLast := by
    change p.names.dropLast = _
    rw [← hnames, List.dropLast_append_of_ne_nil hne]
  -- the mount of the node is the longest of the directory too
  have hsame : ms = m := by
    refine (hframe₁.mountsNormal hnormal).longestMount_unique hlongest' ⟨?_, ?_, ?_⟩
    · exact hframe₁.mounts.symm ▸ hlongest.mem
    · rw [hframe₁.mountNames, hparent]
      exact List.prefix_append _ _
    · intro m' hm' hpart
      rw [hframe₁.mountNames] at hpart ⊢
      rw [hframe₁.mountNames]
      exact hlongest.longest m' (hframe₁.mounts ▸ hm')
        (hpart.trans (List.dropLast_prefix p.names))
  subst hsame
  have hdrop : snames = names.dropLast := by
    rw [hframe₁.mountNames, hparent] at hsnames
    exact List.append_cancel_left hsnames
  subst hdrop
  have hname : names = names.dropLast ++ [e.name] := by
    have hlast := vfsLookupDir_name hpne hlookup
    rw [hparent, ← hnames, List.append_assoc] at hlast
    exact List.append_cancel_left hlast
  refine ⟨ms, names, hinv₂, ⟨List.mem_cons_of_mem _ List.mem_cons_self, List.mem_cons_self,
    hname, fun b hb => ⟨List.mem_cons_of_mem _ (List.mem_cons_of_mem _ hb), ?_⟩⟩⟩
  exact hinv₁.alone_beneath hrefcnt hb

theorem FileInv.removable {t : FileSystems σ} {files : List (Owner × Acquisition)}
    {held' : List Acquisition} {m : ℕ} {names : List Str} (hfile : FileInv t files)
    (hinv : NodeInv t.vfs held')
    (hentry : HoldsEntry e m names (files.map Prod.snd) held') : t.Removable e := by
  have hne : names ≠ [] := by
    rw [hentry.name]
    simp
  obtain ⟨hmount, hpath⟩ := hinv.node_path hentry.node
  obtain ⟨hmount', hpath'⟩ := hinv.node_path hentry.directory
  have hanchored := hinv.anchored _ hentry.node
  have hapart : ∀ b ∈ files.map Prod.snd, ¬t.vfs.AtOrBeneath e.n b.node := fun b hb hbeneath =>
    (hentry.kept b hb).2 (hinv.prefix_of_atOrBeneath hentry.node hne (hentry.kept b hb).1 hbeneath)
  simp only at hmount hpath hmount' hpath'
  refine ⟨fun hroot => ?_, fun hnode => ?_, hmount'.trans hmount.symm, ?_,
    fun ft fd k hk => ?_, fun m' hm' k hk => ?_⟩
  · rw [hmount] at hroot
    have hof : t.vfs.NodeOf m [] e.n := hroot
    exact hne (hinv.nodeOf_injective hanchored.mount hanchored.mount (by simp) hanchored.nameOk hof
      hanchored.node).2
  · have hlen : names.dropLast.length = names.length :=
      congrArg List.length (hinv.names_eq hentry.directory hentry.node hnode).2
    rw [List.length_dropLast] at hlen
    have hpos := List.length_pos_iff.mpr hne
    omega
  · rw [hpath, hpath', dirPath_of_ne_nil hne]
    conv_lhs => rw [hentry.name, nodePath_concat]
    congr 1
    by_cases hnil : names.dropLast = []
    · rw [hnil, nodePath_nil, dirPath, if_pos rfl, if_pos rfl]
    · have hok : ∀ name ∈ names.dropLast, NameOk name := fun name hmem =>
        hanchored.nameOk name (List.mem_of_mem_dropLast hmem)
      rw [dirPath_of_ne_nil hnil, if_neg (nodePath_ne_root hok)]
  · obtain ⟨b, hb, rfl⟩ := hfile.file ft fd k hk
    exact hapart b (List.mem_map_of_mem hb)
  · obtain ⟨b, hb, rfl, -⟩ := hfile.covered m' hm' k hk
    exact hapart b (List.mem_map_of_mem hb)

end Entries

/-! ## The tests -/

section Tests

variable {ops : ℕ → VfsDirFunctions σ} {flagged : ℕ → Bool} {v w : Vfs σ} {s t : FileSystems σ}
  {absPath : Str} {e : DirEntry} {n ft rounds : ℕ}

/-- The entry was looked up, and nobody else uses its node. -/
theorem entryToRemove_ok (hentry : entryToRemove flagged v absPath n = (.ok e, w)) :
    e.n = n ∧ (v.node n).refcnt < 2 ∧ vfsLookupDir v absPath = (some (e.dn, e.name), w) := by
  unfold entryToRemove at hentry
  split at hentry
  · cases hentry
  next hbusy =>
  split at hentry
  · cases hentry
  rcases hlookup : vfsLookupDir v absPath with ⟨_ | ⟨dn, name⟩, x⟩ <;> rw [hlookup] at hentry
  · cases hentry
  · cases hentry
    exact ⟨rfl, not_le.mp fun hle => hbusy (.inr hle), rfl⟩

theorem unlinkEntry_ok (hentry : unlinkEntry flagged v absPath = (.ok e, w)) :
    ∃ v₁, vfsNodeAcquire v absPath = (.ok e.n, v₁) ∧ (v₁.node e.n).refcnt < 2 ∧
      vfsLookupDir v₁ absPath = (some (e.dn, e.name), w) := by
  unfold unlinkEntry at hentry
  rcases hacquire : vfsNodeAcquire v absPath with ⟨failure | n, v₁⟩ <;> rw [hacquire] at hentry
  · cases hentry
  · simp only at hentry
    split at hentry
    · cases hentry
    · obtain ⟨rfl, hrefcnt, hlookup⟩ := entryToRemove_ok hentry
      exact ⟨v₁, rfl, hrefcnt, hlookup⟩

theorem removeDirEntry_ok
    (hentry : removeDirEntry ops flagged s ft absPath rounds = (some (.ok e), t)) :
    ∃ u v₁, vfsCheckDirEmpty ops s ft absPath rounds = (some .eok, u) ∧
      vfsNodeAcquire u.vfs absPath = (.ok e.n, v₁) ∧ (v₁.node e.n).refcnt < 2 ∧
      vfsLookupDir v₁ absPath = (some (e.dn, e.name), t.vfs) ∧ t = { u with vfs := t.vfs } := by
  unfold removeDirEntry at hentry
  rcases hcheck : vfsCheckDirEmpty ops s ft absPath rounds with ⟨_ | err, u⟩ <;>
    rw [hcheck] at hentry
  · cases hentry
  · simp only at hentry
    split at hentry
    · cases hentry
    next herr =>
    obtain rfl := not_not.mp herr
    rcases hacquire : vfsNodeAcquire u.vfs absPath with ⟨failure | n, v₁⟩ <;>
      rw [hacquire] at hentry
    · cases hentry
    · simp only [Prod.mk.injEq, Option.some.injEq] at hentry
      obtain ⟨hok, rfl⟩ := hentry
      obtain ⟨rfl, hrefcnt, hlookup⟩ := entryToRemove_ok (Prod.ext hok rfl)
      exact ⟨u, v₁, rfl, hacquire, hrefcnt, hlookup, rfl⟩

end Tests

/-! ## Every run -/

/-- The descriptors and mounts have their acquisitions, and the mounts stand at distinct normalised
paths. -/
structure PathInv (s : FileSystems σ) : Prop where
  files : ∃ held, FileInv s held
  normal : s.vfs.MountsNormal

section Invariant

variable {ops : ℕ → VfsDirFunctions σ} {flagged : ℕ → Bool} {start s t : FileSystems σ}
  {op : PathOp σ} {e : DirEntry}

theorem FileSystems.Kept.pathInv (hkept : s.Kept t) (hnormal : s.vfs.MountsNormal) : PathInv t :=
  ⟨hkept.2, hkept.1.mountsNormal hnormal⟩

theorem FileSystems.Booted.pathInv (hboot : start.Booted) : PathInv start where
  files := ⟨[], hboot.fileInv⟩
  normal :=
    ⟨fun m hm => by simp [hboot.vfs.mounts] at hm, by simp [hboot.vfs.mounts]⟩

theorem PathInv.perform {op : FsOp σ} (hinv : PathInv s) (hfair : PathOp.Fair s (.call op)) :
    PathInv (s.perform op) := by
  obtain ⟨held, hfile⟩ := hinv.files
  have hstep : ∃ held', FileInv (s.perform op) held' := hfile.step ⟨hfair.1, rfl⟩
  cases op with
  | mount bdev absPath fs flags =>
      obtain ⟨p, rfl⟩ := hfair.2 bdev absPath fs flags rfl
      obtain ⟨leaked, hleaked⟩ := hfile.inv
      exact ⟨hstep, hleaked.mountsNormal_vfsMountFileSystem hinv.normal p rfl⟩
  | unmount absPath => exact ⟨hstep, hinv.normal.vfsUnmountFileSystem absPath⟩
  | openFile ft absPath flags mode =>
      exact (hfile.kept_vfsOpen ft absPath flags mode).pathInv hinv.normal
  | openDir ft absPath => exact (hfile.kept_vfsOpenDir ft absPath).pathInv hinv.normal
  | close ft fd => exact (hfile.kept_vfsClose ft fd).pathInv hinv.normal
  | closeDir ft fd => exact (hfile.kept_vfsCloseDir ft fd).pathInv hinv.normal
  | change state => exact ⟨hstep, Vfs.Frame.fsState.mountsNormal hinv.normal⟩

theorem PathInv.step (hinv : PathInv s) (hmove : pathMove ops flagged s op t) : PathInv t := by
  obtain ⟨hfair, rfl⟩ := hmove
  obtain ⟨held, hfile⟩ := hinv.files
  cases op with
  | call op => exact hinv.perform hfair
  | access p mode => exact (hfile.kept_of_settled hfile.inv.vfsAccess).pathInv hinv.normal
  | stat p => exact (hfile.kept_of_settled hfile.inv.vfsStat).pathInv hinv.normal
  | chmod p mode => exact (hfile.kept_of_settled hfile.inv.vfsChmod).pathInv hinv.normal
  | fileChmod ft fd mode => exact (hfile.kept_vfsFileChmod ft fd mode).pathInv hinv.normal
  | makeDir p mode => exact (hfile.kept_of_settled hfile.inv.vfsMakeDir).pathInv hinv.normal
  | removeDir ft p rounds =>
      exact (hfile.kept_vfsRemoveDir ft p.path rounds).pathInv hinv.normal
  | unlink p => exact (hfile.kept_of_settled hfile.inv.vfsUnlink).pathInv hinv.normal
  | rename p q => exact (hfile.kept_of_settled hfile.inv.vfsRenamePaths).pathInv hinv.normal

/-- An entry that was acquired and looked up can be taken away, also when more was acquired
afterwards. -/
theorem FileInv.removable_of_lookup {held : List (Owner × Acquisition)} {p : AbsolutePath}
    {v₁ v₂ w : Vfs σ} (hfile : FileInv s held) (hnormal : s.vfs.MountsNormal)
    (hacquire : Fs.vfsNodeAcquire s.vfs p.path = (.ok e.n, v₁))
    (hrefcnt : (v₁.node e.n).refcnt < 2)
    (hlookup : Fs.vfsLookupDir v₁ p.path = (some (e.dn, e.name), v₂)) (hframe : v₂.Frame w)
    (hmore : ∀ {held'}, NodeInv v₂ held' → ∃ more, NodeInv w (more ++ held')) :
    ({ s with vfs := w } : FileSystems σ).Removable e := by
  obtain ⟨leaked, hleaked⟩ := hfile.inv
  obtain ⟨m, names, hv₂, hholds⟩ := hleaked.holdsEntry hnormal hacquire hrefcnt hlookup
  obtain ⟨more, hw⟩ := hmore hv₂
  have hframe₂ : s.vfs.Frame v₂ :=
    .trans (.of_acquire hacquire) (.of_acquire (vfsLookupDir_acquire hlookup))
  have hheld : HeldInv w (held.map Prod.snd) :=
    ⟨more ++ ⟨m, names.dropLast, e.dn⟩ :: ⟨m, names, e.n⟩ :: leaked, by simpa using hw⟩
  exact (hfile.of_settled ⟨hframe₂.trans hframe, hheld⟩).removable hw
    (hholds.mono (fun b hb => List.mem_append_right _ hb) fun b hb => List.mem_append_right _ hb)

theorem PathInv.removable (hinv : PathInv s) (htakes : TakesAway ops flagged s op e t) :
    t.Removable e := by
  obtain ⟨held, hfile⟩ := hinv.files
  cases htakes with
  | unlink hentry =>
      obtain ⟨v₁, hacquire, hrefcnt, hlookup⟩ := unlinkEntry_ok hentry
      exact hfile.removable_of_lookup hinv.normal hacquire hrefcnt hlookup (.refl _)
        fun hv => ⟨[], hv⟩
  | @removeDir ft rounds p e t hentry =>
      obtain ⟨u, v₁, hcheck, hacquire, hrefcnt, hlookup, ht⟩ := removeDirEntry_ok hentry
      -- the directory was opened and closed before
      have hkept := hfile.kept_vfsCheckDirEmpty ops ft p.path rounds
      rw [hcheck] at hkept
      obtain ⟨hframe, held', hfile'⟩ := hkept
      rw [ht]
      exact hfile'.removable_of_lookup (hframe.mountsNormal hinv.normal) hacquire hrefcnt hlookup
        (.refl _) fun hv => ⟨[], hv⟩
  | @rename p q nodes w hnodes =>
      obtain ⟨v₁, v₂, failure, v₃, hacquire, -, hrefcnt, hlookup, hdst, hdir, -⟩ :=
        renameNodes_eq_ok_iff.mp hnodes
      have hdn := vfsLookupDir_acquire hdir
      refine hfile.removable_of_lookup (e := ⟨nodes.sn, nodes.sname, nodes.n1⟩) hinv.normal
        hacquire hrefcnt hlookup (.trans (.of_acquire hdst) (.of_acquire hdn)) fun hv => ?_
      obtain ⟨leaked, hv₃, -⟩ := hv.acquire_error hdst
      have hw := hv₃.heldInv.acquire q.parent.path
      rw [hdn] at hw
      obtain ⟨a, -, leaked', hw⟩ := hw
      exact ⟨leaked' ++ a :: leaked, by simpa using hw⟩

/-- In every run of the calls on paths and descriptors whose unmounts find the root of an idle mount
unused, every descriptor refers to a cached node of a mount, and a node that is handed to its file
system to be unlinked, removed or moved is no root, nothing refers to it or to a node beneath it,
and it is the entry of the directory and name that go with it. -/
theorem pathReachable_removable (hboot : start.Booted)
    (hreach : Reachable (pathMove ops flagged) start s) :
    (∀ ft fd n, (s.file ft fd).node = some n →
      s.vfs.Cached n ∧ (s.vfs.node n).mount ∈ s.vfs.mounts) ∧
    ∀ op e t, TakesAway ops flagged s op e t → t.Removable e := by
  have hinv : PathInv s := hreach.invariant hboot.pathInv fun hinv hmove => hinv.step hmove
  obtain ⟨held, hfile⟩ := hinv.files
  exact ⟨fun _ _ _ => hfile.file_mounted, fun _ _ _ => hinv.removable⟩

end Invariant

/-! ## A directory that is removed -/

/-- A file system that has no name in a directory, and removes and makes everything. -/
def emptyDirs : VfsDirFunctions Unit where
  readdir s _ _ := (.enosrch, ⟨0, 0, .unk, []⟩, s)
  remove s _ _ _ := (.eok, s)
  rename s _ _ _ _ _ := (.eok, s)
  mkdir s _ _ _ := (.eok, s)
  rmdir s _ _ _ := (.eok, s)
  chmod s node mode := (.eok, { node.inode with mode := mode }, s)

def emptyMounted : FileSystems Unit :=
  demoBoot.performPath (fun _ => emptyDirs) (fun _ => false)
    (.call (.mount none [slash] (readOnlyFs writableLookup) 0))

theorem emptyMounted_reachable :
    Reachable (pathMove (fun _ => emptyDirs) fun _ => false) demoBoot emptyMounted := by
  have hroot : ∃ p : AbsolutePath, [slash] = p.path := ⟨.root, rfl⟩
  refine .tail .refl (a := .call (.mount none [slash] (readOnlyFs writableLookup) 0))
    ⟨⟨trivial, ?_⟩, rfl⟩
  rintro bdev absPath fs flags heq
  cases heq
  exact hroot

/-- The path `/d`. -/
def pathD : AbsolutePath := ⟨[[0x64]], by decide, by decide, by decide⟩

/-- The directory `/d` is removed. -/
theorem pathReachable_removable_d :
    ∃ t, TakesAway (fun _ => emptyDirs) (fun _ => false) emptyMounted (.removeDir 0 pathD 1)
      ⟨1, [0x64], 3⟩ t ∧ t.Removable ⟨1, [0x64], 3⟩ := by
  have htakes : TakesAway (fun _ => emptyDirs) (fun _ => false) emptyMounted (.removeDir 0 pathD 1)
      ⟨1, [0x64], 3⟩
      (removeDirEntry (fun _ => emptyDirs) (fun _ => false) emptyMounted 0 pathD.path 1).2 :=
    .removeDir (Prod.ext (by decide) rfl)
  exact ⟨_, htakes,
    (pathReachable_removable demoBoot_booted emptyMounted_reachable).2 _ _ _ htakes⟩

end Nxos.Fs
