import Nxos.Fs.Vfs.Counts
import Nxos.Support.Transition

/-!
# Unmounting under open descriptors

`NX_VfsUnmountFileSystem` compares the number of live nodes of a mount with one, so it notices
every descriptor but those of the root directory.  In runs that do not unmount a mount while
only its root directory is open, no descriptor refers to a freed mount.
-/

namespace Nxos.Fs

open Transition

variable {σ : Type}

/-! ## Opening a node -/

/-- The outcome of opening: an acquisition for the node, or the references there were. -/
def Opened (v : Vfs σ) (held : List Acquisition) :
    Except NxError (ℕ × BitVec 32) × Vfs σ → Prop
  | (.ok (n, _), v') => v.Frame v' ∧ ∃ a : Acquisition, a.node = n ∧ HeldInv v' (a :: held)
  | (.error _, v') => v.Frame v' ∧ HeldInv v' held

section Opening

variable {v v' : Vfs σ} {held : List Acquisition} {a : Acquisition} {absPath path : Str}
  {flags mode : BitVec 32}

theorem Opened.of_frame {r : Except NxError (ℕ × BitVec 32) × Vfs σ} (hframe : v.Frame v')
    (hopened : Opened v' held r) : Opened v held r := by
  rcases r with ⟨err | ⟨n, flags⟩, w⟩
  · exact ⟨hframe.trans hopened.1, hopened.2⟩
  · exact ⟨hframe.trans hopened.1, hopened.2⟩

theorem HeldInv.openedError {err : NxError} (hinv : HeldInv v (a :: held)) :
    Opened v held (.error err, vfsNodeRelease v a.node) :=
  ⟨.vfsNodeRelease, hinv.release⟩

theorem HeldInv.setInode {n : ℕ} {inode : VfsInode} (hinv : HeldInv v held) :
    HeldInv (v.setInode n inode) held :=
  hinv.of_agree setInode_agree fun _ => setInode_refcnt

theorem HeldInv.openTruncate (hinv : HeldInv v (a :: held)) (flags : BitVec 32) :
    Opened v held (openTruncate v a.node flags) := by
  unfold Fs.openTruncate
  split
  · split
    · exact hinv.openedError
    · simp only
      split
      · exact (hinv.fsState.setInode.openedError).of_frame (.trans .fsState .setInode)
      · exact ⟨.trans .fsState .setInode, a, rfl, hinv.fsState.setInode⟩
  · exact ⟨.refl v, a, rfl, hinv⟩

theorem HeldInv.openExisting (hinv : HeldInv v (a :: held)) :
    Opened v held (openExisting v a.node flags) := by
  unfold Fs.openExisting
  split
  · split
    · exact hinv.openedError
    · exact hinv.openTruncate _
  · split
    · split
      · exact hinv.openedError
      · split
        · exact hinv.openedError
        · exact hinv.openTruncate _
    · exact hinv.openTruncate _

theorem HeldInv.vfsLookupDir (hinv : HeldInv v held) (path : Str) :
    match vfsLookupDir v path with
    | (some (dn, _), v') => v.Frame v' ∧ ∃ a : Acquisition, a.node = dn ∧ HeldInv v' (a :: held)
    | (none, v') => v.Frame v' ∧ HeldInv v' held := by
  unfold Fs.vfsLookupDir
  by_cases hlong : vfsMaxPath ≤ path.length
  · rw [if_pos hlong]
    exact ⟨.refl v, hinv⟩
  · rw [if_neg hlong]
    cases hcut : cutAtSlash path with
    | none => exact ⟨.refl v, hinv⟩
    | some dir =>
        have hacquired := hinv.acquire (if dir = [] then [slash] else dir)
        have hframe : v.Frame (Fs.vfsNodeAcquire v (if dir = [] then [slash] else dir)).2 :=
          .vfsNodeAcquire
        simp only
        rcases hresult : Fs.vfsNodeAcquire v (if dir = [] then [slash] else dir) with
          ⟨failure | n, v'⟩ <;> rw [hresult] at hacquired hframe
        · exact ⟨hframe, hacquired⟩
        · obtain ⟨a, rfl, ha⟩ := hacquired
          simp only
          by_cases hdir : (v'.node a.node).inode.type ≠ .dir
          · rw [if_pos hdir]
            exact ⟨hframe.trans .vfsNodeRelease, ha.release⟩
          · rw [if_neg hdir]
            exact ⟨hframe, a, rfl, ha⟩

theorem createFile_eq (v : Vfs σ) (dn : ℕ) (filename : Str) (mode : BitVec 32) :
    ∃ s, (createFile v dn filename mode).2 = { v with fsState := s } := by
  unfold createFile
  simp only
  split
  · exact ⟨_, rfl⟩
  · exact ⟨_, rfl⟩

theorem HeldInv.openCreate (hinv : HeldInv v held) :
    Opened v held (openCreate v absPath flags mode) := by
  unfold Fs.openCreate
  have hdir := hinv.vfsLookupDir absPath
  rcases hresult : Fs.vfsLookupDir v absPath with ⟨_ | ⟨dn, filename⟩, w⟩ <;>
    rw [hresult] at hdir
  · exact hdir
  · obtain ⟨hframe, a, rfl, ha⟩ := hdir
    simp only
    split
    · exact ha.openedError.of_frame hframe
    · obtain ⟨s, hs⟩ := createFile_eq w a.node filename mode
      rcases hcreate : createFile w a.node filename mode with ⟨err, x⟩
      rw [hcreate] at hs
      obtain rfl : x = { w with fsState := s } := hs
      have hreleased := ha.fsState (s := s) |>.release
      have hframe' : v.Frame (Fs.vfsNodeRelease { w with fsState := s } a.node) :=
        (hframe.trans .fsState).trans .vfsNodeRelease
      simp only
      split
      · exact ⟨hframe', hreleased⟩
      · have hacquired := hreleased.acquire absPath
        have hacquireFrame : (Fs.vfsNodeRelease { w with fsState := s } a.node).Frame
            (vfsNodeAcquire (Fs.vfsNodeRelease { w with fsState := s } a.node) absPath).2 :=
          .vfsNodeAcquire
        rcases hagain : vfsNodeAcquire (Fs.vfsNodeRelease { w with fsState := s } a.node)
          absPath with ⟨failure | n, y⟩ <;> rw [hagain] at hacquired hacquireFrame
        · exact ⟨hframe'.trans hacquireFrame, hacquired⟩
        · obtain ⟨b, rfl, hb⟩ := hacquired
          exact (hb.openTruncate _).of_frame (hframe'.trans hacquireFrame)

/-- `NX_VfsOpen` holds one acquisition for the node that it opens, and none when it fails. -/
theorem HeldInv.openNode (hinv : HeldInv v held) :
    Opened v held (openNode v absPath flags mode) := by
  unfold Fs.openNode
  have hacquired := hinv.acquire absPath
  have hframe : v.Frame (vfsNodeAcquire v absPath).2 := .vfsNodeAcquire
  rcases hresult : vfsNodeAcquire v absPath with ⟨failure | n, w⟩ <;>
    rw [hresult] at hacquired hframe
  · simp only
    split
    · exact (HeldInv.openCreate hacquired).of_frame hframe
    · exact ⟨hframe, hacquired⟩
  · obtain ⟨a, rfl, ha⟩ := hacquired
    exact ha.openExisting.of_frame hframe

end Opening

/-! ## Unmounting -/

section Unmounting

variable {v : Vfs σ} {held : List Acquisition} {m n r : ℕ} {absPath : Str}

theorem CacheInv.alone (hinv : CacheInv v) (hm : m ∈ v.mounts)
    (hroot : (v.mount m).root = some r) (hidle : (v.mount m).refcnt ≤ 1)
    (hcached : v.Cached n) (hmount : (v.node n).mount = m) : n = r := by
  obtain ⟨r', hroot', hr⟩ := hinv.root m hm
  rw [hroot, Option.some.injEq] at hroot'
  subst hroot'
  have hcard : (v.population m).card ≤ 1 := by
    have hcount := hinv.population m
    omega
  exact Finset.card_le_one.mp hcard n (hinv.mem_population.mpr ⟨hcached, hmount⟩) r
    (hinv.mem_population.mpr ⟨hr.cached, hr.mount⟩)

theorem NodeInv.eraseMount (hinv : NodeInv v held) (hm : m ∈ v.mounts)
    (hidle : (v.mount m).refcnt ≤ 1) :
    NodeInv { v with mounts := v.mounts.erase m } (held.filter fun a => a.mount ≠ m) := by
  obtain ⟨r, hroot, hr⟩ := hinv.root m hm
  have hmem : ∀ {m'}, m' ∈ v.mounts.erase m ↔ m' ≠ m ∧ m' ∈ v.mounts := hinv.mounts.mem_erase_iff
  have hat : ∀ {m' path n}, ({ v with mounts := v.mounts.erase m } : Vfs σ).NodeAt m' path n ↔
      v.NodeAt m' path n :=
    ⟨fun h => ⟨h.cached, h.mount, h.path⟩, fun h => ⟨h.cached, h.mount, h.path⟩⟩
  have hof : ∀ {m' names n}, ({ v with mounts := v.mounts.erase m } : Vfs σ).NodeOf m' names n ↔
      v.NodeOf m' names n := by
    intro m' names n
    unfold Vfs.NodeOf
    rw [hat]
  have hcount : ∀ m' names, m' ≠ m → prefixCount (held.filter fun a => a.mount ≠ m) m' names =
      prefixCount held m' names := by
    intro m' names hne
    rw [prefixCount, prefixCount, List.countP_filter]
    refine List.countP_congr fun a _ => ?_
    simp only [ne_eq, decide_not, Bool.and_eq_true, decide_eq_true_eq, Bool.not_eq_true',
      decide_eq_false_iff_not, and_iff_left_iff_imp, and_imp]
    rintro rfl _
    exact hne
  refine ⟨⟨hinv.nodup, hinv.listed, hinv.short, ?_, ?_, ?_, ?_, hinv.population,
    hinv.mounts.erase m, ?_, hinv.owned, hinv.unborn⟩, ?_, ?_⟩
  · exact fun m' path n n' h h' => hinv.keyed m' path n n' (hat.mp h) (hat.mp h')
  · intro n hcached
    refine (hinv.shaped n hcached).imp id ?_
    rintro ⟨names, hnames, hpath, hn⟩
    refine ⟨names, hnames, hpath, hmem.mpr ⟨fun heq => ?_, hn⟩⟩
    have hnr := hinv.alone hm hroot hidle hcached heq
    subst hnr
    exact nodePath_ne_root hnames.nameOk (hpath.symm.trans hr.path)
  · intro m' hm'
    obtain ⟨root, hroot', hr'⟩ := hinv.root m' (hmem.mp hm').2
    exact ⟨root, hroot', hat.mpr hr'⟩
  · exact fun m' n h => hinv.rooted m' n (hat.mp h)
  · exact fun m' hm' => hinv.allocated m' (hmem.mp hm').2
  · intro m' hm' names hnames n hn
    obtain ⟨hne, hm'⟩ := hmem.mp hm'
    rw [hcount m' names hne]
    exact hinv.counted m' hm' names hnames n (hof.mp hn)
  · intro a ha
    obtain ⟨ha, hne⟩ := List.mem_filter.mp ha
    have hanchored := hinv.anchored a ha
    exact ⟨hmem.mpr ⟨by simpa using hne, hanchored.mount⟩, hanchored.nameOk,
      hof.mpr hanchored.node, fun names hpart =>
        (hanchored.chain names hpart).imp fun n => hof.mpr⟩

theorem HeldInv.releaseRoot (hinv : HeldInv v held) (hm : m ∉ v.mounts)
    (hroot : (v.mount m).root = some r) (hr : v.NodeAt m [slash] r) :
    HeldInv (vfsNodeRelease v r) held := by
  obtain ⟨leaked, hleaked⟩ := hinv
  refine ⟨leaked, ?_⟩
  unfold Fs.vfsNodeRelease
  simp only [hr.mount]
  rw [if_pos hroot]
  exact hleaked.putDetached hr.cached (hr.mount ▸ hm)

theorem vfsUnmountFileSystem_of_busy (hfind : v.findMount absPath = some m)
    (hbusy : 1 < (v.mount m).refcnt) : vfsUnmountFileSystem v absPath = (.ebusy, v) := by
  simp [vfsUnmountFileSystem, hfind, hbusy]

theorem mem_of_findMount (hfind : v.findMount absPath = some m) : m ∈ v.mounts :=
  List.mem_of_find?_eq_some hfind

theorem vfsUnmountFileSystem_of_idle (hfind : v.findMount absPath = some m)
    (hidle : (v.mount m).refcnt ≤ 1) :
    ∃ s, (vfsUnmountFileSystem v absPath).2 =
      releaseNode (releaseNode { v with mounts := v.mounts.erase m, fsState := s }
        (v.mount m).root) (v.mount m).covered := by
  unfold vfsUnmountFileSystem
  simp only [hfind]
  rw [if_neg (by omega)]
  exact ⟨_, rfl⟩

end Unmounting

/-! ## Descriptors and covered directories -/

inductive Owner where
  | file (ft fd : ℕ)
  | covered (m : ℕ)
  deriving DecidableEq

/-- Every open descriptor and every covered directory has an acquisition of its own. -/
structure FileInv (s : FileSystems σ) (held : List (Owner × Acquisition)) : Prop where
  inv : HeldInv s.vfs (held.map Prod.snd)
  file : ∀ ft fd n, (s.file ft fd).node = some n → ∃ a, (.file ft fd, a) ∈ held ∧ a.node = n
  slot : ∀ ft fd n, (s.file ft fd).node = some n → 3 ≤ fd ∧ fd < vfsMaxFd
  covered : ∀ m ∈ s.vfs.mounts, ∀ n, (s.vfs.mount m).covered = some n →
    ∃ a, (.covered m, a) ∈ held ∧ a.node = n ∧ a.mount ≠ m

/-- The mount is in use: a descriptor refers to one of its nodes, or another mount is attached
below it. -/
def FileSystems.InUse (s : FileSystems σ) (m : ℕ) : Prop :=
  (∃ ft fd n, (s.file ft fd).node = some n ∧ (s.vfs.node n).mount = m) ∨
    ∃ m' ∈ s.vfs.mounts, m' ≠ m ∧
      ∃ n, (s.vfs.mount m').covered = some n ∧ (s.vfs.node n).mount = m

/-- A descriptor refers to the root directory of the mount, or a mount covers it. -/
def FileSystems.RootInUse (s : FileSystems σ) (m : ℕ) : Prop :=
  ∃ r, (s.vfs.mount m).root = some r ∧
    ((∃ ft fd, (s.file ft fd).node = some r) ∨
      ∃ m' ∈ s.vfs.mounts, m' ≠ m ∧ (s.vfs.mount m').covered = some r)

/-- What unmounting promises: a mount in use is busy, and stays. -/
def FileSystems.UnmountSafe (s : FileSystems σ) (absPath : Str) : Prop :=
  ∀ m, s.vfs.findMount absPath = some m → s.InUse m →
    vfsUnmountFileSystem s.vfs absPath = (.ebusy, s.vfs)

/-- A mount that counts one node at most is not in use through its root. -/
def FileSystems.IdleRoot (s : FileSystems σ) (absPath : Str) : Prop :=
  ∀ m, s.vfs.findMount absPath = some m → (s.vfs.mount m).refcnt ≤ 1 → ¬s.RootInUse m

namespace HeldInv

variable {v : Vfs σ} {held : List Acquisition} {a : Acquisition}

theorem nodeAt (hinv : HeldInv v held) (ha : a ∈ held) :
    v.Cached a.node ∧ (v.node a.node).mount = a.mount ∧ a.mount ∈ v.mounts := by
  obtain ⟨leaked, hleaked⟩ := hinv
  have hanchored := hleaked.anchored a (List.mem_append_right _ ha)
  have hat := hleaked.nodeAt_of_nodeOf hanchored.mount hanchored.node
  exact ⟨hat.cached, hat.mount, hanchored.mount⟩

theorem cacheInv (hinv : HeldInv v held) : CacheInv v := by
  obtain ⟨leaked, hleaked⟩ := hinv
  exact hleaked.toCacheInv

end HeldInv

theorem setFile_file {s : FileSystems σ} {ft fd ft' fd' : ℕ} {file : VfsFile} :
    (s.setFile ft fd file).file ft' fd' =
      if ft' = ft ∧ fd' = fd then file else s.file ft' fd' := by
  by_cases hft : ft' = ft
  · subst hft
    by_cases hfd : fd' = fd
    · subst hfd
      simp [FileSystems.setFile]
    · simp [FileSystems.setFile, hfd]
  · simp [FileSystems.setFile, hft]

/-- `NX_VfsClose` synchronises the file, and then releases its node and the descriptor. -/
theorem vfsClose_cases (s : FileSystems σ) (ft fd : ℕ) :
    (vfsClose s ft fd).2 = s ∨ ∃ n state, (s.file ft fd).node = some n ∧
      ((vfsClose s ft fd).2 = { s with vfs := { s.vfs with fsState := state } } ∨
        (vfsClose s ft fd).2 = vfsFileFree
          { s with vfs := vfsNodeRelease { s.vfs with fsState := state } n } ft fd) := by
  unfold vfsClose
  split
  · exact .inl rfl
  · split
    · exact .inl rfl
    · next n hfile =>
      simp only
      split
      · exact .inr ⟨n, _, hfile, .inl rfl⟩
      · exact .inr ⟨n, _, hfile, .inr rfl⟩

namespace FileInv

variable {s : FileSystems σ} {held : List (Owner × Acquisition)} {absPath : Str} {m : ℕ}

theorem file_mounted (hinv : FileInv s held) {ft fd n : ℕ}
    (hfile : (s.file ft fd).node = some n) :
    s.vfs.Cached n ∧ (s.vfs.node n).mount ∈ s.vfs.mounts := by
  obtain ⟨a, ha, rfl⟩ := hinv.file ft fd n hfile
  obtain ⟨hcached, hmount, hmem⟩ := hinv.inv.nodeAt (List.mem_map_of_mem ha)
  exact ⟨hcached, hmount ▸ hmem⟩

theorem rootInUse_of_inUse (hinv : FileInv s held) (hm : m ∈ s.vfs.mounts)
    (hidle : (s.vfs.mount m).refcnt ≤ 1) (huse : s.InUse m) : s.RootInUse m := by
  have hcache := hinv.inv.cacheInv
  obtain ⟨r, hroot, -⟩ := hcache.root m hm
  rcases huse with ⟨ft, fd, n, hfile, hmount⟩ | ⟨m', hm', hne, n, hcovered, hmount⟩
  · have hn := hcache.alone hm hroot hidle (hinv.file_mounted hfile).1 hmount
    exact ⟨r, hroot, .inl ⟨ft, fd, hn ▸ hfile⟩⟩
  · obtain ⟨a, ha, rfl, -⟩ := hinv.covered m' hm' n hcovered
    have hcached := (hinv.inv.nodeAt (List.mem_map_of_mem ha)).1
    have hn := hcache.alone hm hroot hidle hcached hmount
    exact ⟨r, hroot, .inr ⟨m', hm', hne, hn ▸ hcovered⟩⟩

/-- Unmounting keeps its promise exactly where the root of an idle mount is not in use. -/
theorem unmountSafe_iff (hinv : FileInv s held) : s.UnmountSafe absPath ↔ s.IdleRoot absPath := by
  have hcache := hinv.inv.cacheInv
  constructor
  · intro hsafe m hfind hidle ⟨r, hroot, huse⟩
    have hm := mem_of_findMount hfind
    obtain ⟨r', hroot', hr⟩ := hcache.root m hm
    rw [hroot, Option.some.injEq] at hroot'
    subst hroot'
    have huse' : s.InUse m := by
      rcases huse with ⟨ft, fd, hfile⟩ | ⟨m', hm', hne, hcovered⟩
      · exact .inl ⟨ft, fd, r, hfile, hr.mount⟩
      · exact .inr ⟨m', hm', hne, r, hcovered, hr.mount⟩
    -- The mount is off the list afterwards, so it did not stay.
    have hstay := congrArg (fun result => result.2.mounts) (hsafe m hfind huse')
    obtain ⟨state, hstate⟩ := vfsUnmountFileSystem_of_idle hfind hidle
    simp only [hstate] at hstay
    rw [Vfs.Frame.releaseNode.mounts, Vfs.Frame.releaseNode.mounts] at hstay
    have hsame : s.vfs.mounts.erase m = s.vfs.mounts := hstay
    have hgone : m ∉ s.vfs.mounts.erase m := fun hmem =>
      (hcache.mounts.mem_erase_iff.mp hmem).1 rfl
    rw [hsame] at hgone
    exact hgone hm
  · intro hidle m hfind huse
    refine vfsUnmountFileSystem_of_busy hfind ?_
    by_contra hle
    exact hidle m hfind (by omega)
      (hinv.rootInUse_of_inUse (mem_of_findMount hfind) (by omega) huse)

theorem of_frame {v : Vfs σ} {held' : List (Owner × Acquisition)} (hinv : FileInv s held)
    (hframe : s.vfs.Frame v) (hheld : HeldInv v (held'.map Prod.snd))
    (hkeep : ∀ e ∈ held, e ∈ held') : FileInv { s with vfs := v } held' where
  inv := hheld
  file ft fd n hfile := by
    obtain ⟨a, ha, hn⟩ := hinv.file ft fd n hfile
    exact ⟨a, hkeep _ ha, hn⟩
  slot := hinv.slot
  covered m hm n hcovered := by
    rw [hframe.covered] at hcovered
    obtain ⟨a, ha, hn⟩ := hinv.covered m (hframe.mounts ▸ hm) n hcovered
    exact ⟨a, hkeep _ ha, hn⟩

/-- `NX_VfsOpen` gives its acquisition to the descriptor. -/
theorem vfsOpen (hinv : FileInv s held) (ft : ℕ) (absPath : Str) (flags mode : BitVec 32) :
    ∃ held', FileInv (vfsOpen s ft absPath flags mode).2 held' := by
  unfold Fs.vfsOpen
  split
  · exact ⟨held, hinv⟩
  · have hopened : Opened s.vfs (held.map Prod.snd) (openNode s.vfs absPath flags mode) :=
      hinv.inv.openNode
    rcases hresult : openNode s.vfs absPath flags mode with ⟨err | ⟨n, flags'⟩, v⟩ <;>
      rw [hresult] at hopened
    · exact ⟨held, hinv.of_frame hopened.1 hopened.2 fun _ he => he⟩
    · obtain ⟨hframe, a, rfl, ha⟩ := hopened
      simp only
      cases hfd : vfsFileAlloc (s.file ft) with
      | none =>
          exact ⟨held, hinv.of_frame (hframe.trans .vfsNodeRelease) ha.release fun _ he => he⟩
      | some fd =>
          have hrange : 3 ≤ fd ∧ fd < vfsMaxFd := by
            have hmem := List.mem_of_find?_eq_some hfd
            rw [List.mem_range'_1] at hmem
            unfold vfsMaxFd at hmem ⊢
            omega
          have hopen : FileInv { s with vfs := v } ((.file ft fd, a) :: held) :=
            hinv.of_frame hframe ha fun _ he => List.mem_cons_of_mem _ he
          refine ⟨(.file ft fd, a) :: held, hopen.inv, fun ft' fd' n hfile => ?_,
            fun ft' fd' n hfile => ?_, hopen.covered⟩ <;> rw [setFile_file] at hfile <;>
            split at hfile
          · next hsame =>
            obtain ⟨rfl, rfl⟩ := hsame
            exact ⟨a, List.mem_cons_self, Option.some.inj hfile⟩
          · exact hopen.file ft' fd' n hfile
          · next hsame =>
            obtain ⟨rfl, rfl⟩ := hsame
            exact hrange
          · exact hopen.slot ft' fd' n hfile

/-- `NX_VfsClose` releases the acquisition of the descriptor. -/
theorem vfsClose (hinv : FileInv s held) (ft fd : ℕ) :
    ∃ held', FileInv (vfsClose s ft fd).2 held' := by
  rcases vfsClose_cases s ft fd with heq | ⟨n, state, hfile, heq | heq⟩ <;> rw [heq]
  · exact ⟨held, hinv⟩
  · exact ⟨held, hinv.of_frame .fsState hinv.inv.fsState fun _ he => he⟩
  · obtain ⟨a, ha, rfl⟩ := hinv.file ft fd n hfile
    have hslot := hinv.slot ft fd a.node hfile
    have hreleased : HeldInv (vfsNodeRelease { s.vfs with fsState := state } a.node)
        ((held.erase (.file ft fd, a)).map Prod.snd) :=
      (hinv.inv.perm ((List.perm_cons_erase ha).map Prod.snd)).fsState.release
    have hframe : s.vfs.Frame (vfsNodeRelease { s.vfs with fsState := state } a.node) :=
      .trans .fsState .vfsNodeRelease
    have hkeep : ∀ e ∈ held, e.1 ≠ .file ft fd → e ∈ held.erase (.file ft fd, a) :=
      fun e he hne => (List.mem_erase_of_ne fun heq => hne (congrArg Prod.fst heq)).mpr he
    refine ⟨held.erase (.file ft fd, a), ?_⟩
    rw [vfsFileFree, if_pos ⟨hslot.1, hslot.2, by simp only [hfile, Option.isSome_some]⟩]
    refine ⟨hreleased, fun ft' fd' n' hfile' => ?_, fun ft' fd' n' hfile' => ?_,
      fun m hm n' hcovered => ?_⟩
    · rw [setFile_file] at hfile'
      split at hfile'
      · cases hfile'
      · next hother =>
        obtain ⟨b, hb, hn'⟩ := hinv.file ft' fd' n' hfile'
        exact ⟨b, hkeep _ hb fun heq => hother (by simpa using heq), hn'⟩
    · rw [setFile_file] at hfile'
      split at hfile'
      · cases hfile'
      · exact hinv.slot ft' fd' n' hfile'
    · obtain ⟨b, hb, hn'⟩ := hinv.covered m (hframe.mounts ▸ hm) n'
        ((hframe.covered m).symm.trans hcovered)
      exact ⟨b, hkeep _ hb (by simp), hn'⟩

/-- `NX_VfsOpenDir` opens, and closes again what is no directory. -/
theorem vfsOpenDir (hinv : FileInv s held) (ft : ℕ) (absPath : Str) :
    ∃ held', FileInv (vfsOpenDir s ft absPath).2 held' := by
  unfold Fs.vfsOpenDir
  obtain ⟨held', hopened⟩ := hinv.vfsOpen ft absPath oRdonly 0
  rcases hresult : Fs.vfsOpen s ft absPath oRdonly 0 with ⟨err | fd, t⟩ <;>
    rw [hresult] at hopened
  · exact ⟨held', hopened⟩
  · simp only
    split
    · exact ⟨held', hopened⟩
    · split
      · exact hopened.vfsClose ft fd
      · exact ⟨held', hopened⟩

/-- `NX_VfsCloseDir` closes a directory. -/
theorem vfsCloseDir (hinv : FileInv s held) (ft fd : ℕ) :
    ∃ held', FileInv (vfsCloseDir s ft fd).2 held' := by
  unfold Fs.vfsCloseDir
  split
  · exact ⟨held, hinv⟩
  · split
    · exact ⟨held, hinv⟩
    · split
      · exact ⟨held, hinv⟩
      · exact hinv.vfsClose ft fd

/-- `NX_VfsMountFileSystem` gives the acquisition of the covered directory to the mount. -/
theorem vfsMountFileSystem (hinv : FileInv s held) (bdev : Option ℕ) (absPath : Str)
    (fs : VfsFileSystem σ) (flags : BitVec 32) :
    ∃ held', FileInv { s with vfs := (vfsMountFileSystem s.vfs bdev absPath fs flags).2 }
      held' := by
  obtain ⟨leaked, hleaked⟩ := hinv.inv
  have hallocated := hleaked.allocated
  have hstay : ∀ {w : Vfs σ}, s.vfs.Stays w → ∀ m ∈ s.vfs.mounts, ∀ n,
      (w.mount m).covered = some n → ∃ a, (.covered m, a) ∈ held ∧ a.node = n ∧ a.mount ≠ m := by
    intro w hstays m hm n hcovered
    rw [hstays.covered (hallocated m hm)] at hcovered
    exact hinv.covered m hm n hcovered
  rcases hleaked.vfsMountFileSystem bdev absPath fs flags with ⟨w, heq, hmounts, hstays, hw, hshape⟩ |
    ⟨w, err, heq, -, hmounts, hstays, hw⟩ <;> rw [heq]
  · rcases hshape with hnone | ⟨n, a, hsome, rfl, hacquisition⟩
    · rw [hnone] at hw
      refine ⟨held, ⟨leaked, hw⟩, hinv.file, hinv.slot, fun m hm n hcovered => ?_⟩
      rcases List.mem_cons.mp hm with rfl | hm
      · rw [hnone] at hcovered
        cases hcovered
      · exact hstay hstays m (hmounts ▸ hm) n hcovered
    · rw [hacquisition, List.singleton_append] at hw
      refine ⟨(.covered s.vfs.allocs, a) :: held, ⟨leaked, hw.perm List.perm_middle.symm⟩,
        fun ft fd n hfile => ?_, hinv.slot, fun m hm n hcovered => ?_⟩
      · obtain ⟨b, hb, hn⟩ := hinv.file ft fd n hfile
        exact ⟨b, List.mem_cons_of_mem _ hb, hn⟩
      · rcases List.mem_cons.mp hm with rfl | hm
        · rw [hsome, Option.some.injEq] at hcovered
          have hmem : a.mount ∈ s.vfs.mounts := by
            have hin : a ∈ coveredAcquisition s.vfs absPath (w.mount s.vfs.allocs).covered := by
              rw [hacquisition]
              exact List.mem_singleton_self a
            exact mem_mounts_of_coveredAcquisition hin
          exact ⟨a, List.mem_cons_self, hcovered, (hallocated _ hmem).ne⟩
        · obtain ⟨b, hb, hn⟩ := hstay hstays m (hmounts ▸ hm) n hcovered
          exact ⟨b, List.mem_cons_of_mem _ hb, hn⟩
  · obtain ⟨more, hmore⟩ := hw
    refine ⟨held, ⟨more ++ leaked, by rwa [List.append_assoc]⟩, hinv.file, hinv.slot,
      fun m hm n hcovered => hstay hstays m (hmounts ▸ hm) n hcovered⟩

/-- `NX_VfsUnmountFileSystem` of a mount whose root is not in use leaves every acquisition of
the descriptors and the other mounts. -/
theorem vfsUnmountFileSystem (hinv : FileInv s held) (hidleRoot : s.IdleRoot absPath) :
    ∃ held', FileInv { s with vfs := (vfsUnmountFileSystem s.vfs absPath).2 } held' := by
  cases hfind : s.vfs.findMount absPath with
  | none =>
      have hsame : Fs.vfsUnmountFileSystem s.vfs absPath = (.enosrch, s.vfs) := by
        simp [Fs.vfsUnmountFileSystem, hfind]
      rw [hsame]
      exact ⟨held, hinv⟩
  | some m =>
      by_cases hbusy : 1 < (s.vfs.mount m).refcnt
      · rw [vfsUnmountFileSystem_of_busy hfind hbusy]
        exact ⟨held, hinv⟩
      · have hidle : (s.vfs.mount m).refcnt ≤ 1 := by omega
        have hm := mem_of_findMount hfind
        have hcache := hinv.inv.cacheInv
        obtain ⟨r, hroot, hr⟩ := hcache.root m hm
        have hunused := hidleRoot m hfind hidle
        -- An acquisition in the mount would be one of its root.
        have hnode : ∀ o a, (o, a) ∈ held → a.mount = m → a.node = r := by
          intro o a ha hmount
          obtain ⟨hcached, hnodeMount, -⟩ := hinv.inv.nodeAt (List.mem_map_of_mem ha)
          exact hcache.alone hm hroot hidle hcached (hnodeMount.trans hmount)
        have hfiltered : ∀ state, HeldInv
            { s.vfs with mounts := s.vfs.mounts.erase m, fsState := state }
            ((held.filter fun e => e.2.mount ≠ m).map Prod.snd) := by
          intro state
          obtain ⟨leaked, hleaked⟩ := hinv.inv
          have herased := hleaked.eraseMount hm hidle
          rw [List.filter_append, List.filter_map] at herased
          exact ⟨_, herased.fsState (le_refl _)⟩
        have hgone : m ∉ s.vfs.mounts.erase m := fun hmem =>
          (hcache.mounts.mem_erase_iff.mp hmem).1 rfl
        obtain ⟨state, hstate⟩ := vfsUnmountFileSystem_of_idle hfind hidle
        have hreleased : HeldInv (vfsNodeRelease
            { s.vfs with mounts := s.vfs.mounts.erase m, fsState := state } r)
            ((held.filter fun e => e.2.mount ≠ m).map Prod.snd) :=
          (hfiltered state).releaseRoot hgone hroot ⟨hr.cached, hr.mount, hr.path⟩
        have hfile : ∀ ft fd n, (s.file ft fd).node = some n →
            ∃ a, (.file ft fd, a) ∈ held.filter (fun e => e.2.mount ≠ m) ∧ a.node = n := by
          intro ft fd n hfile
          obtain ⟨a, ha, rfl⟩ := hinv.file ft fd n hfile
          refine ⟨a, List.mem_filter.mpr ⟨ha, ?_⟩, rfl⟩
          simp only [ne_eq, decide_eq_true_eq]
          intro hmount
          exact hunused ⟨r, hroot, .inl ⟨ft, fd, hnode _ a ha hmount ▸ hfile⟩⟩
        have hcovered : ∀ m' ∈ s.vfs.mounts, m' ≠ m → ∀ n, (s.vfs.mount m').covered = some n →
            ∃ a, (.covered m', a) ∈ held.filter (fun e => e.2.mount ≠ m) ∧ a.node = n ∧
              a.mount ≠ m' := by
          intro m' hm' hne n hcovered
          obtain ⟨a, ha, rfl, hother⟩ := hinv.covered m' hm' n hcovered
          refine ⟨a, List.mem_filter.mpr ⟨ha, ?_⟩, rfl, hother⟩
          simp only [ne_eq, decide_eq_true_eq]
          intro hmount
          exact hunused ⟨r, hroot, .inr ⟨m', hm', hne, hnode _ a ha hmount ▸ hcovered⟩⟩
        have hmem : ∀ {m'}, m' ∈ s.vfs.mounts.erase m → m' ≠ m ∧ m' ∈ s.vfs.mounts :=
          hcache.mounts.mem_erase_iff.mp
        have hframe : Vfs.Frame { s.vfs with mounts := s.vfs.mounts.erase m, fsState := state }
            (vfsNodeRelease { s.vfs with mounts := s.vfs.mounts.erase m, fsState := state } r) :=
          .vfsNodeRelease
        rw [hstate, hroot]
        cases hown : (s.vfs.mount m).covered with
        | none =>
            refine ⟨_, hreleased, hfile, hinv.slot, fun m' hm' n hcovered' => ?_⟩
            obtain ⟨hne, hm'⟩ := hmem (hframe.mounts ▸ hm')
            exact hcovered m' hm' hne n ((hframe.covered m').symm.trans hcovered')
        | some n =>
            obtain ⟨a, ha, rfl, hother⟩ := hinv.covered m hm n hown
            have hin : (Owner.covered m, a) ∈ held.filter fun e => e.2.mount ≠ m :=
              List.mem_filter.mpr ⟨ha, by simpa using hother⟩
            have hkeep : ∀ e ∈ held.filter (fun e => e.2.mount ≠ m), e.1 ≠ .covered m →
                e ∈ (held.filter fun e => e.2.mount ≠ m).erase (.covered m, a) := fun e he hne =>
              (List.mem_erase_of_ne fun heq => hne (congrArg Prod.fst heq)).mpr he
            have hboth := hframe.trans (.vfsNodeRelease (n := a.node))
            refine ⟨_, (hreleased.perm ((List.perm_cons_erase hin).map Prod.snd)).release,
              fun ft fd n hfile' => ?_, hinv.slot, fun m' hm' n hcovered' => ?_⟩
            · obtain ⟨b, hb, hn⟩ := hfile ft fd n hfile'
              exact ⟨b, hkeep _ hb (by simp), hn⟩
            · obtain ⟨hne, hm'⟩ := hmem (hboth.mounts ▸ hm')
              obtain ⟨b, hb, hn⟩ :=
                hcovered m' hm' hne n ((hboth.covered m').symm.trans hcovered')
              exact ⟨b, hkeep _ hb (by simpa using hne), hn⟩

end FileInv

/-! ## Runs -/

/-- The calls of the interface, with absolute paths, and changes of the file systems' own state
between them. -/
inductive FsOp (σ : Type) where
  | mount (bdev : Option ℕ) (absPath : Str) (fs : VfsFileSystem σ) (flags : BitVec 32)
  | unmount (absPath : Str)
  | openFile (ft : ℕ) (absPath : Str) (flags mode : BitVec 32)
  | openDir (ft : ℕ) (absPath : Str)
  | close (ft fd : ℕ)
  | closeDir (ft fd : ℕ)
  | change (state : σ)

def FileSystems.perform (s : FileSystems σ) : FsOp σ → FileSystems σ
  | .mount bdev absPath fs flags =>
      { s with vfs := (vfsMountFileSystem s.vfs bdev absPath fs flags).2 }
  | .unmount absPath => { s with vfs := (vfsUnmountFileSystem s.vfs absPath).2 }
  | .openFile ft absPath flags mode => (vfsOpen s ft absPath flags mode).2
  | .openDir ft absPath => (vfsOpenDir s ft absPath).2
  | .close ft fd => (vfsClose s ft fd).2
  | .closeDir ft fd => (vfsCloseDir s ft fd).2
  | .change state => { s with vfs := { s.vfs with fsState := state } }

def FsOp.Fair (s : FileSystems σ) : FsOp σ → Prop
  | .unmount absPath => s.IdleRoot absPath
  | _ => True

def fsMove (s : FileSystems σ) (op : FsOp σ) (t : FileSystems σ) : Prop := t = s.perform op

def fairMove (s : FileSystems σ) (op : FsOp σ) (t : FileSystems σ) : Prop :=
  op.Fair s ∧ t = s.perform op

/-- Nothing is mounted and no descriptor is open. -/
structure FileSystems.Booted (s : FileSystems σ) : Prop where
  vfs : s.vfs.Booted
  file : ∀ ft fd, (s.file ft fd).node = none

section Runs

variable {start s t : FileSystems σ}

theorem FileInv.step {held : List (Owner × Acquisition)} {op : FsOp σ} (hinv : FileInv s held)
    (hmove : fairMove s op t) : ∃ held', FileInv t held' := by
  obtain ⟨hfair, rfl⟩ := hmove
  cases op with
  | mount bdev absPath fs flags => exact hinv.vfsMountFileSystem bdev absPath fs flags
  | unmount absPath => exact hinv.vfsUnmountFileSystem hfair
  | openFile ft absPath flags mode => exact hinv.vfsOpen ft absPath flags mode
  | openDir ft absPath => exact hinv.vfsOpenDir ft absPath
  | close ft fd => exact hinv.vfsClose ft fd
  | closeDir ft fd => exact hinv.vfsCloseDir ft fd
  | change state => exact ⟨held, hinv.of_frame .fsState hinv.inv.fsState fun _ he => he⟩

theorem FileSystems.Booted.fileInv (hboot : start.Booted) : FileInv start [] where
  inv := hboot.vfs.nodeInv.heldInv
  file ft fd n hfile := by
    rw [hboot.file] at hfile
    cases hfile
  slot ft fd n hfile := by
    rw [hboot.file] at hfile
    cases hfile
  covered m hm n hcovered := by
    rw [hboot.vfs.mounts] at hm
    cases hm

/-- In a run whose unmounts find the root of an idle mount unused, no descriptor refers to a
freed mount, and a mount in use is reported busy and stays, exactly if the next unmount finds
its root unused as well. -/
theorem fairRun_mountsInPlace (hboot : start.Booted) (hreach : Reachable fairMove start s) :
    (∀ ft fd n, (s.file ft fd).node = some n →
      s.vfs.Cached n ∧ (s.vfs.node n).mount ∈ s.vfs.mounts) ∧
    ∀ absPath, s.UnmountSafe absPath ↔ s.IdleRoot absPath := by
  have hinv : ∃ held, FileInv s held :=
    hreach.invariant (P := fun s => ∃ held, FileInv s held) ⟨[], hboot.fileInv⟩
      fun ⟨_, hheld⟩ hmove => hheld.step hmove
  obtain ⟨held, hheld⟩ := hinv
  exact ⟨fun _ _ _ => hheld.file_mounted, fun _ => hheld.unmountSafe_iff⟩

end Runs

/-! ## A root directory that is left open -/

def demoBoot : FileSystems Unit := ⟨demoStart, fun _ _ => .free⟩

theorem demoBoot_booted : demoBoot.Booted := ⟨demoStart_booted, fun _ _ => rfl⟩

def demoOpened : FileSystems Unit :=
  (demoBoot.perform (.mount none [slash] (readOnlyFs demoLookup) 0)).perform
    (.openDir 0 [slash])

theorem demoOpened_reachable : Reachable fairMove demoBoot demoOpened := by
  have hmount : fairMove demoBoot (.mount none [slash] (readOnlyFs demoLookup) 0)
      (demoBoot.perform (.mount none [slash] (readOnlyFs demoLookup) 0)) := ⟨trivial, rfl⟩
  have hopen : fairMove (demoBoot.perform (.mount none [slash] (readOnlyFs demoLookup) 0))
      (.openDir 0 [slash]) demoOpened := ⟨trivial, rfl⟩
  exact .tail (.tail .refl hmount) hopen

/-- The open directory is cached and mounted. -/
theorem demoOpened_mountsInPlace :
    (∀ ft fd n, (demoOpened.file ft fd).node = some n →
      demoOpened.vfs.Cached n ∧ (demoOpened.vfs.node n).mount ∈ demoOpened.vfs.mounts) ∧
    ∀ absPath, demoOpened.UnmountSafe absPath ↔ demoOpened.IdleRoot absPath :=
  fairRun_mountsInPlace demoBoot_booted demoOpened_reachable

/-- The mount is unmounted under the descriptor, which refers to a freed mount then. -/
theorem not_fsRun_mountsInPlace :
    ¬∀ (start s : FileSystems Unit), start.Booted → Reachable fsMove start s →
      (∀ ft fd n, (s.file ft fd).node = some n → (s.vfs.node n).mount ∈ s.vfs.mounts) ∧
      ∀ absPath, s.UnmountSafe absPath := by
  intro hall
  have hunmounted : Reachable fsMove demoBoot (demoOpened.perform (.unmount [slash])) :=
    .tail (a := .unmount [slash]) (demoOpened_reachable.mono fun hmove => hmove.2) rfl
  have hmem := (hall _ _ demoBoot_booted hunmounted).1 0 3 1 (by decide)
  revert hmem
  decide

end Nxos.Fs
