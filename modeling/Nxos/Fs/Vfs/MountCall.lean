import Nxos.Fs.Vfs.FindRoot
import Nxos.Fs.Vfs.Undo
import Nxos.Io.Device.Model

/-!
# Failing mounts

The whole of `NX_VfsMountFileSystem`, with its arguments and `NX_IoBlockOpen`, and what it leaves
when it returns an error.  Of its six exits behind `NX_IoBlockOpen` none closes the device.
-/

namespace Nxos.Fs

open Nxos.Io

variable {σ : Type}

/-! ## The call -/

/-- What `NX_VfsMountFileSystem` reads and changes: the mounts and nodes, the registered file
systems, the current directory, and the devices that `NX_DeviceSearchLocked` finds. -/
structure MountSystem (σ : Type) where
  vfs : Vfs σ
  fileSystems : List (Str × VfsFileSystem σ)
  cwd : Option Str
  deviceSearch : Str → Option ℕ
  driver : ℕ → Driver
  device : ℕ → Io.Device

/-- `NX_VfsSearchFileSystem` -/
def MountSystem.vfsSearchFileSystem (k : MountSystem σ) : Option Str → Option (VfsFileSystem σ)
  | none => none
  | some name => (k.fileSystems.find? fun pos => pos.1 == name).map Prod.snd

/-- `NX_IoBlockOpen` with `NX_DeviceOpen`; `answer` is what `ops->open` returns if it is called. -/
def MountSystem.ioBlockOpen (k : MountSystem σ) (answer : NxError) (name : Str) :
    Option ℕ × MountSystem σ :=
  match k.deviceSearch name with
  | none => (none, k)
  | some d =>
      let (err, device) := deviceOpen (k.driver d) (k.device d) answer
      let k := { k with device := Function.update k.device d device }
      if err ≠ .eok then (none, k) else (some d, k)

/-- The start of `NX_VfsMountFileSystem`: the absolute path and the file system. -/
def MountSystem.mountArguments (k : MountSystem σ) (stale : Buffer) (path fsname : Option Str) :
    Exec (Except NxError (Str × VfsFileSystem σ)) :=
  match path with
  | none | some [] => .ok (.error .einval)
  | some path => do
      match ← vfsBuildAbsPath stale k.cwd path with
      | .error err => return .error err
      | .ok absPath =>
          match k.vfsSearchFileSystem fsname with
          | none => return .error .enosrch
          | some fs => return .ok (absPath, fs)

/-- `NX_VfsMountFileSystem` -/
def MountSystem.vfsMountFileSystem (k : MountSystem σ) (stale : Buffer) (answer : NxError)
    (dev path fsname : Option Str) (flags : BitVec 32) : Exec (NxError × MountSystem σ) := do
  match ← k.mountArguments stale path fsname with
  | .error err => return (err, k)
  | .ok (absPath, fs) =>
      match dev with
      | none =>
          let (err, v) := Fs.vfsMountFileSystem k.vfs none absPath fs flags
          return (err, { k with vfs := v })
      | some name =>
          match k.ioBlockOpen answer name with
          | (none, k) => return (.enosrch, k)
          | (some bdev, k) =>
              let (err, v) := Fs.vfsMountFileSystem k.vfs (some bdev) absPath fs flags
              return (err, { k with vfs := v })

section Steps

variable {k k' : MountSystem σ} {stale : Buffer} {answer err : NxError}
  {dev path fsname : Option Str} {flags : BitVec 32}

theorem MountSystem.ioBlockOpen_vfs (k : MountSystem σ) (answer : NxError) (name : Str) :
    (k.ioBlockOpen answer name).2.vfs = k.vfs := by
  unfold ioBlockOpen
  split
  · rfl
  · simp only
    split <;> rfl

/-- A call returns before the device, without a device, at a device that does not open, or behind
one that does. -/
theorem MountSystem.vfsMountFileSystem_cases
    (hcall : k.vfsMountFileSystem stale answer dev path fsname flags = .ok (err, k')) :
    (k.mountArguments stale path fsname = .ok (.error err) ∧ k' = k) ∨
      ∃ absPath fs, k.mountArguments stale path fsname = .ok (.ok (absPath, fs)) ∧
        ((∃ v, dev = none ∧ Fs.vfsMountFileSystem k.vfs none absPath fs flags = (err, v) ∧
            k' = { k with vfs := v }) ∨
          (∃ name, dev = some name ∧ (k.ioBlockOpen answer name).1 = none ∧ err = .enosrch ∧
            k' = (k.ioBlockOpen answer name).2) ∨
          ∃ name bdev v, dev = some name ∧ (k.ioBlockOpen answer name).1 = some bdev ∧
            Fs.vfsMountFileSystem k.vfs (some bdev) absPath fs flags = (err, v) ∧
            k' = { (k.ioBlockOpen answer name).2 with vfs := v }) := by
  unfold vfsMountFileSystem at hcall
  rcases harguments : k.mountArguments stale path fsname with fault | failed | ⟨absPath, fs⟩
  · rw [harguments] at hcall
    cases hcall
  · rw [harguments] at hcall
    cases hcall
    exact .inl ⟨rfl, rfl⟩
  · rw [harguments] at hcall
    refine .inr ⟨absPath, fs, rfl, ?_⟩
    cases dev with
    | none =>
        cases hcall
        exact .inl ⟨_, rfl, (Prod.eta _).symm, rfl⟩
    | some name =>
        have hvfs := k.ioBlockOpen_vfs answer name
        simp only [bind, Except.bind] at hcall
        rcases hopen : k.ioBlockOpen answer name with ⟨_ | bdev, k₁⟩
        · rw [hopen] at hcall
          cases hcall
          exact .inr (.inl ⟨name, rfl, by rw [hopen], rfl, by rw [hopen]⟩)
        · rw [hopen] at hcall hvfs
          have hvfs' : k₁.vfs = k.vfs := hvfs
          cases hcall
          refine .inr (.inr ⟨name, bdev, _, rfl, by rw [hopen], ?_, by rw [hopen]⟩)
          rw [hvfs', Prod.eta]

end Steps

/-! ## What the mount leaves -/

def Vfs.newMount (v : Vfs σ) (mount : VfsMount σ) : Vfs σ :=
  { v with allocs := v.allocs + 1, mount := Function.update v.mount v.allocs mount }

/-- The covered directory is not one whose acquisition fails in `VfsNodeGet` behind its first
component. -/
def Vfs.CoveredUndone (v : Vfs σ) (absPath : Str) : Prop :=
  absPath ≠ [slash] → (vfsNodeAcquire v absPath).1 = .error .get → FirstRefused v absPath

section Counts

variable {v w x y : Vfs σ} {m root : ℕ} {held : List Acquisition} {absPath : Str}
  {bdev covered : Option ℕ} {err : NxError} {ms : Set ℕ}

theorem sameCounts_newMount_iff (hinv : NodeInv v held) (mount : VfsMount σ) :
    SameCounts (v.newMount mount) w ↔ SameCounts v w := by
  have hmount : ∀ m ∈ v.mounts, ((v.newMount mount).mount m).refcnt = (v.mount m).refcnt := by
    intro m hm
    simp only [Vfs.newMount, Function.update_of_ne (hinv.allocated m hm).ne]
  constructor
  · exact fun hsame => ⟨hsame.cached, hsame.node, fun m hm =>
      (hsame.mount m hm).trans (hmount m hm)⟩
  · exact fun hsame => ⟨hsame.cached, hsame.node, fun m hm =>
      (hsame.mount m hm).trans (hmount m hm).symm⟩

/-- An acquisition that fails outside of `VfsNodeGet` leaves the counts as they were. -/
theorem NodeInv.sameCounts_of_acquire_error (hinv : NodeInv v held) {failure : AcquireFailure}
    (hacquire : Fs.vfsNodeAcquire v absPath = (.error failure, w)) (hget : failure ≠ .get) :
    SameCounts v w := by
  have hundone : v.Undone {m | m ∈ v.mounts} (Fs.vfsNodeAcquire v absPath) :=
    hinv.vfsNodeAcquire_undone absPath fun _ => id
  have hw : NodeInv w held := by
    obtain ⟨leaked, hw, hnone⟩ := hinv.acquire_error hacquire
    rwa [hnone hget, List.nil_append] at hw
  have hframe : v.Frame w := by
    have hframe : v.Frame (Fs.vfsNodeAcquire v absPath).2 := Vfs.Frame.vfsNodeAcquire
    rwa [hacquire] at hframe
  rw [hacquire] at hundone
  have hexists : ∃ x, CacheInv x ∧ v.Acquires {m | m ∈ v.mounts} x ∧
      x.Releases {m | m ∈ v.mounts} w := by
    cases failure with
    | get => exact absurd rfl hget
    | lookup | mount => exact hundone
  obtain ⟨x, hx, hacquires, hreleases⟩ := hexists
  exact sameCounts_of_undone hinv hw hx hacquires hreleases hframe.mounts
    (fun m _ => hframe.root m) fun m hm hnot => absurd hm hnot

/-- The covered directory cannot be acquired. -/
theorem NodeInv.acquireCovered_sameCounts_iff (hinv : NodeInv v held)
    (hcovered : Fs.acquireCovered v absPath = (.error err, w)) :
    SameCounts v w ↔ v.CoveredUndone absPath := by
  unfold Fs.acquireCovered at hcovered
  split at hcovered
  · cases hcovered
  next hslash =>
  rcases hacquire : Fs.vfsNodeAcquire v absPath with ⟨failure | n, x⟩
  · simp only [hacquire, Prod.mk.injEq] at hcovered
    obtain ⟨-, rfl⟩ := hcovered
    unfold Vfs.CoveredUndone
    by_cases hget : failure = .get
    · subst hget
      have herror : (Fs.vfsNodeAcquire v absPath).1 = .error .get := congrArg Prod.fst hacquire
      rw [hinv.rootsHeld.sameCounts_iff hacquire]
      exact ⟨fun hfirst _ _ => hfirst, fun hundone => hundone hslash herror⟩
    · refine iff_of_true (hinv.sameCounts_of_acquire_error hacquire hget) fun _ herror => ?_
      rw [hacquire] at herror
      exact absurd (Except.error.inj herror) hget
  · refine iff_of_true ?_ fun _ herror => ?_
    · have hacquires : v.Undone {m | m ∈ v.mounts} (Fs.vfsNodeAcquire v absPath) :=
        hinv.vfsNodeAcquire_undone absPath fun _ => id
      have hframe : v.Frame (Fs.vfsNodeAcquire v absPath).2 := Vfs.Frame.vfsNodeAcquire
      cases hfind : vfsFindRoot v absPath with
      | none =>
          rw [vfsNodeAcquire_of_findRoot_none hfind] at hacquire
          cases hacquire
      | some found =>
          have hacquired := hinv.vfsNodeAcquire hfind
          rw [hacquire] at hacquired hacquires hframe
          have hx : NodeInv x (⟨found.1, pathNames found.2, n⟩ :: held) := hacquired
          simp only [hacquire] at hcovered
          split at hcovered
          · simp only [Prod.mk.injEq] at hcovered
            obtain ⟨-, rfl⟩ := hcovered
            have hrelease : x.Frame (Fs.vfsNodeRelease x n) := Vfs.Frame.vfsNodeRelease
            exact sameCounts_of_undone hinv hx.vfsNodeRelease hx.toCacheInv hacquires
              (hx.releases (mem_mounts_of_vfsFindRoot hfind)) (hframe.trans hrelease).mounts
              (fun m _ => (hframe.trans hrelease).root m) fun m hm hnot => absurd hm hnot
          · cases hcovered
    · rw [hacquire] at herror
      cases herror

theorem NodeInv.acquireCovered_acquires (hinv : NodeInv v held) (hms : ∀ m ∈ v.mounts, m ∈ ms)
    (hcovered : Fs.acquireCovered v absPath = (.ok covered, x)) :
    v.Acquires ms x ∧ v.CoveredUndone absPath := by
  unfold Fs.acquireCovered at hcovered
  split at hcovered
  · next hslash =>
    simp only [Prod.mk.injEq] at hcovered
    obtain ⟨-, rfl⟩ := hcovered
    exact ⟨.refl v, fun hne => absurd hslash hne⟩
  · have hacquires : v.Undone ms (Fs.vfsNodeAcquire v absPath) :=
      hinv.vfsNodeAcquire_undone absPath hms
    rcases hacquire : Fs.vfsNodeAcquire v absPath with ⟨failure | n, z⟩
    · simp [hacquire] at hcovered
    · rw [hacquire] at hacquires
      simp only [hacquire] at hcovered
      split at hcovered
      · cases hcovered
      · simp only [Prod.mk.injEq] at hcovered
        obtain ⟨-, rfl⟩ := hcovered
        refine ⟨hacquires, fun _ herror => ?_⟩
        rw [hacquire] at herror
        cases herror

theorem NodeInv.releaseCovered_releases
    (hinv : NodeInv y (coveredAcquisition v absPath covered ++ held))
    (hcovered : covered = none ∨ ∃ n a, covered = some n ∧ a.node = n ∧
      coveredAcquisition v absPath covered = [a]) (hms : ∀ m ∈ y.mounts, m ∈ ms) :
    y.Releases ms (releaseNode y covered) := by
  rcases hcovered with rfl | ⟨n, a, rfl, rfl, ha⟩
  · exact .refl y
  · rw [ha] at hinv
    have hheld : NodeInv y (⟨a.mount, a.names, a.node⟩ :: held) := hinv
    exact hheld.releases (hms _ (hheld.anchored _ List.mem_cons_self).mount)

theorem Vfs.Detached.release (hdetached : v.Detached m root) (hinv : CacheInv v) (n : ℕ)
    (hn : (vfsNodeRelease v root).Cached n) : ((vfsNodeRelease v root).node n).mount ≠ m := by
  have hrelease : vfsNodeRelease v root = vfsNodePut v root := by
    unfold vfsNodeRelease
    simp only [hdetached.nodeAt.mount]
    rw [if_pos hdetached.root]
  obtain ⟨s, hs⟩ := vfsNodePut_last hdetached.refcnt
  have hagree : v.Agree (v.addNodeRef root (-1)) := addNodeRef_agree
  rw [hrelease, hs, (hinv.of_agree hagree).cached_dropNode_iff] at hn
  rw [hrelease, hs]
  intro hmount
  refine hn.2 (hdetached.alone n (hagree.cached_iff.mp hn.1) ?_)
  exact (hagree.nodeMount n).symm.trans hmount

/-- A mount off the list is given up: no node of it is left, and the covered directory is released
last. -/
theorem NodeInv.givenUp_sameCounts {u z t : Vfs σ} (hu : NodeInv u held) (hz : CacheInv z)
    (hacquires : u.Acquires {m' | m' ∈ u.mounts ∨ m' = m} z)
    (hreleases : z.Releases {m' | m' ∈ u.mounts ∨ m' = m} t)
    (ht : NodeInv t (coveredAcquisition v absPath covered ++ held))
    (hcovered : covered = none ∨ ∃ n a, covered = some n ∧ a.node = n ∧
      coveredAcquisition v absPath covered = [a]) (hmounts : t.mounts = u.mounts)
    (hroots : ∀ m' ∈ u.mounts, (t.mount m').root = (u.mount m').root)
    (hnew : ∀ n, u.Cached n → (u.node n).mount ≠ m)
    (hgone : ∀ n, t.Cached n → (t.node n).mount ≠ m) :
    SameCounts u (releaseNode t covered) := by
  have hreleased : t.Releases {m' | m' ∈ u.mounts ∨ m' = m} (releaseNode t covered) :=
    ht.releaseCovered_releases hcovered fun m' hm' => .inl (hmounts ▸ hm')
  have hframe : t.Frame (releaseNode t covered) := Vfs.Frame.releaseNode
  refine sameCounts_of_undone hu (ht.releaseCovered hcovered) hz hacquires
    (hreleases.trans hreleased) (hframe.mounts.trans hmounts)
    (fun m' hm' => (hframe.root m').trans (hroots m' hm')) fun m' hm' hnot n => ?_
  obtain rfl := hm'.resolve_left hnot
  refine ⟨hnew n, fun hn => ?_⟩
  rw [hreleased.mount]
  exact hgone n (hreleased.cached n hn)

theorem NodeInv.mountRoot_sameCounts {u : Vfs σ} (hu : NodeInv u held)
    (hy : NodeInv (y.setRoot m root) (coveredAcquisition v absPath covered ++ held))
    (hcovered : covered = none ∨ ∃ n a, covered = some n ∧ a.node = n ∧
      coveredAcquisition v absPath covered = [a]) (hstored : (y.mount m).covered = covered)
    (hdetached : (y.setRoot m root).Detached m root)
    (hacquires : u.Acquires {m' | m' ∈ u.mounts ∨ m' = m} (y.setRoot m root))
    (hmounts : y.mounts = u.mounts)
    (hroots : ∀ m' ∈ u.mounts, ((y.setRoot m root).mount m').root = (u.mount m').root)
    (hnew : ∀ n, u.Cached n → (u.node n).mount ≠ m)
    (hmount : mountRoot y m root absPath bdev = (err, w)) (herr : err ≠ .eok) :
    SameCounts u w := by
  have hstart : (y.setRoot m root).Ready (y.setRoot m root) m root
      (coveredAcquisition v absPath covered ++ held) := ⟨hy, hdetached, .refl _⟩
  rcases mountRoot_keeps (P := fun z => (y.setRoot m root).Ready z m root
      (coveredAcquisition v absPath covered ++ held) ∧
      u.Acquires {m' | m' ∈ u.mounts ∨ m' = m} z) ⟨hstart, hacquires⟩
      (fun _ _ h => ⟨h.1.setInode, h.2.trans .setInode⟩)
      (fun _ _ h => ⟨h.1.fsState, h.2.trans (.fsState le_rfl)⟩) absPath bdev with
    ⟨z, -, -, heq⟩ | ⟨z, err', ⟨hz, hzacquires⟩, -, heq⟩
  · rw [hmount] at heq
    exact absurd (Prod.ext_iff.mp heq).1 herr
  · rw [hmount, hstored] at heq
    obtain rfl := (Prod.ext_iff.mp heq).2
    have hzmounts : z.mounts = u.mounts := hz.frame.mounts.trans hmounts
    have hroot : z.Releases {m' | m' ∈ u.mounts ∨ m' = m} (Fs.vfsNodeRelease z root) := by
      refine .vfsNodeRelease (.inr hz.detached.nodeAt.mount) fun r hr => ?_
      rw [hz.detached.nodeAt.mount, hz.detached.root, Option.some.injEq] at hr
      exact .inr (hr ▸ hz.detached.nodeAt.mount)
    have hframe : z.Frame (Fs.vfsNodeRelease z root) := Vfs.Frame.vfsNodeRelease
    exact hu.givenUp_sameCounts hz.inv.toCacheInv hzacquires hroot
      (hz.inv.releaseDetached hz.detached) hcovered (hframe.mounts.trans hzmounts)
      (fun m' hm' => (hframe.root m').trans ((hz.frame.root m').trans (hroots m' hm'))) hnew
      (hz.detached.release hz.inv.toCacheInv)

theorem NodeInv.mountFilled_sameCounts_iff {u : Vfs σ} (hinv : NodeInv u held)
    (hroot : (u.mount m).root = none) (hborn : m < u.allocs) (hnot : m ∉ u.mounts)
    (hmount : Fs.mountFilled u m absPath bdev = (err, w)) (herr : err ≠ .eok) :
    SameCounts u w ↔ u.CoveredUndone absPath := by
  have hshape := hinv.acquireCovered absPath
  have hframe : u.Frame (Fs.acquireCovered u absPath).2 := Vfs.Frame.acquireCovered
  unfold Fs.mountFilled at hmount
  rcases hcovered : Fs.acquireCovered u absPath with ⟨failure | covered, x⟩ <;>
    rw [hcovered] at hshape hframe
  · simp only [hcovered, Prod.mk.injEq] at hmount
    obtain ⟨-, rfl⟩ := hmount
    exact hinv.acquireCovered_sameCounts_iff hcovered
  · obtain ⟨hx, hshape⟩ := hshape
    have hms : ∀ m' ∈ u.mounts, m' ∈ {m' | m' ∈ u.mounts ∨ m' = m} := fun m' => .inl
    obtain ⟨hacquires, hundone⟩ := hinv.acquireCovered_acquires hms hcovered
    refine iff_of_true ?_ hundone
    simp only [hcovered] at hmount
    have hempty := hinv.toCacheInv.mount_ne hnot hroot
    have hxinv := hx.setCovered m covered
    have hxmounts : (x.setCovered m covered).mounts = u.mounts := hframe.mounts
    have hxroots : ∀ m', ((x.setCovered m covered).mount m').root = (u.mount m').root := by
      intro m'
      rw [← hframe.root m']
      by_cases hm' : m' = m
      · subst hm'
        simp [Vfs.setCovered]
      · simp [Vfs.setCovered, hm']
    have hxacquires : u.Acquires {m' | m' ∈ u.mounts ∨ m' = m} (x.setCovered m covered) :=
      hacquires.setCovered
    have hxempty := hxinv.toCacheInv.mount_ne (hxmounts ▸ hnot) ((hxroots m).trans hroot)
    have hget : (x.setCovered m covered).Frame
        (Fs.vfsNodeGet (x.setCovered m covered) m [slash]).2 := Vfs.Frame.vfsNodeGet
    have hyacquires : u.Acquires {m' | m' ∈ u.mounts ∨ m' = m}
        (Fs.vfsNodeGet (x.setCovered m covered) m [slash]).2 :=
      hxacquires.trans (.vfsNodeGet hxinv.toCacheInv (.inr rfl))
    rcases hnode : Fs.vfsNodeGet (x.setCovered m covered) m [slash] with ⟨_ | root, y⟩ <;>
      rw [hnode] at hget hyacquires
    · simp only [hnode, Prod.mk.injEq] at hmount
      obtain ⟨-, rfl⟩ := hmount
      have hyinv := hxinv.getNone hnode
      have hymounts : y.mounts = u.mounts := hget.mounts.trans hxmounts
      have hyempty := hyinv.toCacheInv.mount_ne (hymounts ▸ hnot)
        ((hget.root m).trans ((hxroots m).trans hroot))
      exact hinv.givenUp_sameCounts hyinv.toCacheInv hyacquires (.refl y) hyinv hshape hymounts
        (fun m' _ => (hget.root m').trans (hxroots m')) hempty hyempty
    · simp only [hnode] at hmount
      obtain ⟨hyinv, hdetached⟩ := hxinv.getRoot (hxmounts ▸ hnot)
        (hborn.trans_le hframe.allocs) hxempty hnode
      refine hinv.mountRoot_sameCounts hyinv hshape ?_ hdetached hyacquires.setRoot
        (hget.mounts.trans hxmounts) (fun m' hm' => ?_) hempty hmount herr
      · rw [hget.covered]
        simp [Vfs.setCovered]
      · have hne : m' ≠ m := fun heq => hnot (heq ▸ hm')
        simp only [Vfs.setRoot, Function.update_of_ne hne]
        exact (hget.root m').trans (hxroots m')

/-- When a mount fails, the counts are the same as before unless the covered directory is one whose
acquisition keeps references. -/
theorem NodeInv.vfsMountFileSystem_sameCounts_iff {fs : VfsFileSystem σ} {flags : BitVec 32}
    (hinv : NodeInv v held) (hmount : Fs.vfsMountFileSystem v bdev absPath fs flags = (err, w))
    (herr : err ≠ .eok) : SameCounts v w ↔
      (v.memory v.allocs = true → absPath.length < vfsMaxPath →
        (v.newMount ⟨fs, bdev, absPath, flags &&& mountRo, 0, none, none⟩).CoveredUndone
          absPath) := by
  unfold Fs.vfsMountFileSystem memAlloc at hmount
  by_cases hmemory : v.memory v.allocs = true
  · simp only [hmemory, if_true] at hmount
    by_cases hlong : vfsMaxPath ≤ absPath.length
    · rw [if_pos hlong, Prod.mk.injEq] at hmount
      obtain ⟨-, rfl⟩ := hmount
      exact iff_of_true (sameCounts_allocs v _)
        fun _ hshort => absurd hshort (not_lt.mpr hlong)
    · rw [if_neg hlong] at hmount
      have hnew : NodeInv (v.newMount ⟨fs, bdev, absPath, flags &&& mountRo, 0, none, none⟩) held :=
        hinv.newMount rfl rfl
      have hroot : ((v.newMount ⟨fs, bdev, absPath, flags &&& mountRo, 0, none, none⟩).mount
          v.allocs).root = none := by
        simp [Vfs.newMount]
      rw [← sameCounts_newMount_iff hinv, hnew.mountFilled_sameCounts_iff hroot
        (Nat.lt_succ_self _) (fun hm => (hinv.allocated _ hm).ne rfl) hmount herr]
      simp [hmemory, not_le.mp hlong]
  · simp only [hmemory] at hmount
    obtain ⟨-, rfl⟩ := Prod.ext_iff.mp hmount
    exact iff_of_true (sameCounts_allocs v _)
      fun hmem => absurd hmem hmemory

theorem NodeInv.mounts_of_error {fs : VfsFileSystem σ} {flags : BitVec 32} (hinv : NodeInv v held)
    (hmount : Fs.vfsMountFileSystem v bdev absPath fs flags = (err, w)) (herr : err ≠ .eok) :
    w.mounts = v.mounts := by
  rcases hinv.vfsMountFileSystem bdev absPath fs flags with
    ⟨u, heq, -⟩ | ⟨u, err', heq, -, hmounts, -⟩
  · rw [hmount] at heq
    exact absurd (Prod.ext_iff.mp heq).1 herr
  · rw [hmount] at heq
    obtain rfl := (Prod.ext_iff.mp heq).2
    exact hmounts

end Counts

/-! ## Mounts at distinct paths -/

section Normal

variable {v w w' : Vfs σ} {m : ℕ} {absPath : Str} {bdev : Option ℕ} {fs : VfsFileSystem σ}
  {flags : BitVec 32} {held : List Acquisition}

structure Vfs.SamePaths (v w : Vfs σ) : Prop where
  mounts : w.mounts = v.mounts
  path : ∀ m, (w.mount m).path = (v.mount m).path

theorem Vfs.SamePaths.frame (h : v.SamePaths w) (hframe : w.Frame w') : v.SamePaths w' :=
  ⟨hframe.mounts.trans h.mounts, fun m => (hframe.mountPath m).trans (h.path m)⟩

theorem Vfs.SamePaths.update {mount : VfsMount σ} (h : v.SamePaths w)
    (hpath : mount.path = (w.mount m).path) :
    v.SamePaths { w with mount := Function.update w.mount m mount } := by
  refine ⟨h.mounts, fun m' => ?_⟩
  rw [← h.path m']
  by_cases hm : m' = m
  · subst hm
    simpa using hpath
  · simp [hm]

theorem NodeInv.mountFilled_ok (hinv : NodeInv v held)
    (hmount : Fs.mountFilled v m absPath bdev = (.eok, w')) :
    ∃ w, v.SamePaths w ∧ w.occupied absPath bdev = false ∧
      w' = { w with mounts := m :: w.mounts } := by
  have hacquired := hinv.acquireCovered absPath
  have hsame : v.SamePaths (Fs.acquireCovered v absPath).2 :=
    Vfs.SamePaths.frame ⟨rfl, fun _ => rfl⟩ Vfs.Frame.acquireCovered
  unfold Fs.mountFilled at hmount
  rcases hcovered : Fs.acquireCovered v absPath with ⟨err | covered, x⟩
  · rw [hcovered] at hacquired
    simp only [hcovered] at hmount
    exact absurd (Prod.ext_iff.mp hmount).1 hacquired.2
  · rw [hcovered] at hsame
    have hstored : v.SamePaths (x.setCovered m covered) := hsame.update rfl
    have hget : v.SamePaths (Fs.vfsNodeGet (x.setCovered m covered) m [slash]).2 :=
      hstored.frame Vfs.Frame.vfsNodeGet
    simp only [hcovered] at hmount
    rcases hnode : Fs.vfsNodeGet (x.setCovered m covered) m [slash] with ⟨_ | root, y⟩
    · simp [hnode] at hmount
    · rw [hnode] at hget
      simp only [hnode] at hmount
      rcases mountRoot_keeps (P := v.SamePaths) (hget.update rfl) (fun _ _ h => h.frame .setInode)
          (fun _ _ h => h.frame .fsState) absPath bdev with
        ⟨w, hw, hfree, heq⟩ | ⟨w, err, -, herr, heq⟩
      · rw [hmount] at heq
        exact ⟨w, hw, hfree, (Prod.ext_iff.mp heq).2⟩
      · rw [hmount] at heq
        exact absurd (Prod.ext_iff.mp heq).1.symm herr

theorem path_ne_of_occupied (hfree : v.occupied absPath bdev = false) (hm : m ∈ v.mounts) :
    (v.mount m).path ≠ absPath := by
  intro hpath
  have htest := List.any_eq_false.mp hfree m hm
  simp [hpath] at htest

theorem NodeInv.mountsNormal_of_ok (hinv : NodeInv v held) (hnormal : v.MountsNormal)
    (p : AbsolutePath) (hmount : Fs.vfsMountFileSystem v bdev p.path fs flags = (.eok, w')) :
    w'.MountsNormal := by
  unfold Fs.vfsMountFileSystem memAlloc at hmount
  by_cases hmemory : v.memory v.allocs = true
  · have hshort : ¬vfsMaxPath ≤ p.path.length := not_le.mpr p.short
    simp only [hmemory, if_true, if_neg hshort] at hmount
    generalize hrecord : (⟨fs, bdev, p.path, flags &&& mountRo, 0, none, none⟩ : VfsMount σ) =
      record at hmount
    have hnew : NodeInv (v.newMount record) held :=
      hinv.newMount (by rw [← hrecord]) (by rw [← hrecord])
    obtain ⟨w, hsame, hfree, rfl⟩ := hnew.mountFilled_ok hmount
    have hself : (w.mount v.allocs).path = p.path := by
      rw [hsame.path, ← hrecord]
      simp [Vfs.newMount]
    have hold : ∀ m ∈ v.mounts, (w.mount m).path = (v.mount m).path := by
      intro m hm
      rw [hsame.path]
      simp only [Vfs.newMount, Function.update_of_ne (hinv.allocated m hm).ne]
    have hmounts : w.mounts = v.mounts := hsame.mounts
    refine ⟨fun m hm => ?_, ?_⟩
    · rcases List.mem_cons.mp hm with rfl | hm
      · exact ⟨p, hself⟩
      · rw [hmounts] at hm
        obtain ⟨q, hq⟩ := hnormal.normal m hm
        exact ⟨q, (hold m hm).trans hq⟩
    · change ((v.allocs :: w.mounts).map fun m => (w.mount m).path).Nodup
      rw [List.map_cons, List.nodup_cons, hself]
      constructor
      · intro hmem
        obtain ⟨m, hm, hpath⟩ := List.mem_map.mp hmem
        exact path_ne_of_occupied hfree hm hpath
      · rw [hmounts, List.map_congr_left hold]
        exact hnormal.distinct
  · simp [hmemory] at hmount

theorem NodeInv.mountsNormal_vfsMountFileSystem {err : NxError} (hinv : NodeInv v held)
    (hnormal : v.MountsNormal) (p : AbsolutePath)
    (hmount : Fs.vfsMountFileSystem v bdev p.path fs flags = (err, w)) : w.MountsNormal := by
  by_cases herr : err = .eok
  · subst herr
    exact hinv.mountsNormal_of_ok hnormal p hmount
  · have hmounts := hinv.mounts_of_error hmount herr
    rcases hinv.vfsMountFileSystem bdev p.path fs flags with
      ⟨u, heq, -⟩ | ⟨u, err', heq, -, -, hstays, -⟩
    · rw [hmount] at heq
      exact absurd (Prod.ext_iff.mp heq).1 herr
    · rw [hmount] at heq
      obtain rfl := (Prod.ext_iff.mp heq).2
      have hpath : ∀ m ∈ v.mounts, (w.mount m).path = (v.mount m).path := by
        intro m hm
        have hmount := congrArg VfsMount.path (hstays.mount m (hinv.allocated m hm))
        exact hmount
      refine ⟨fun m hm => ?_, ?_⟩
      · rw [hmounts] at hm
        rw [hpath m hm]
        exact hnormal.normal m hm
      · rw [hmounts, List.map_congr_left hpath]
        exact hnormal.distinct

end Normal

section Arguments

variable {k k' : MountSystem σ} {stale : Buffer} {path absPath : Str} {fsname : Option Str}
  {fs : VfsFileSystem σ} {cwd : Option AbsolutePath}

theorem mountArguments_normal (hcwd : k.cwd = cwd.map AbsolutePath.path) (hpath : 0 ∉ path)
    (hok : k.mountArguments stale (some path) fsname = .ok (.ok (absPath, fs))) :
    ∃ p : AbsolutePath, p.path = absPath := by
  obtain ⟨r, hr, hnames⟩ := vfsBuildAbsPath_caller stale cwd hpath
  rw [← hcwd] at hr
  cases path with
  | nil => cases hok
  | cons c path =>
      simp only [MountSystem.mountArguments, hr, bind, Except.bind] at hok
      rcases r with err | absPath'
      · cases hok
      · obtain ⟨p, hp, -⟩ := hnames absPath' rfl
        simp only at hok
        split at hok
        · cases hok
        · cases hok
          exact ⟨p, hp⟩

/-- `NX_VfsMountFileSystem` keeps the mounts at distinct normalised paths. -/
theorem vfsMountFileSystem_mountsNormal {held : List Acquisition} {answer err : NxError}
    {dev : Option Str} {flags : BitVec 32} (hinv : NodeInv k.vfs held)
    (hnormal : k.vfs.MountsNormal) (hcwd : k.cwd = cwd.map AbsolutePath.path) (hpath : 0 ∉ path)
    (hcall : k.vfsMountFileSystem stale answer dev (some path) fsname flags = .ok (err, k')) :
    k'.vfs.MountsNormal := by
  rcases MountSystem.vfsMountFileSystem_cases hcall with ⟨-, rfl⟩ | ⟨absPath, fs, harguments, hends⟩
  · exact hnormal
  · obtain ⟨p, rfl⟩ := mountArguments_normal hcwd hpath harguments
    rcases hends with ⟨v, -, hmount, rfl⟩ | ⟨name, -, -, -, rfl⟩ | ⟨name, bdev, v, -, -, hmount, rfl⟩
    · exact hinv.mountsNormal_vfsMountFileSystem hnormal p hmount
    · rwa [MountSystem.ioBlockOpen_vfs]
    · exact hinv.mountsNormal_vfsMountFileSystem hnormal p hmount

end Arguments

/-! ## What a failing call leaves -/

/-- The list of mounts and all counts are the same. -/
structure MountUnchanged (k k' : MountSystem σ) : Prop where
  mounts : k'.vfs.mounts = k.vfs.mounts
  counts : SameCounts k.vfs k'.vfs
  device : ∀ d, (k'.device d).reference = (k.device d).reference

/-- No device is found; and if none is asked for, the covered directory is not one whose acquisition
fails in `VfsNodeGet` behind its first component. -/
def MountSystem.LeavesNothing (k : MountSystem σ) (stale : Buffer) (dev path fsname : Option Str)
    (flags : BitVec 32) : Prop :=
  ∀ absPath fs, k.mountArguments stale path fsname = .ok (.ok (absPath, fs)) →
    match dev with
    | none => k.vfs.memory k.vfs.allocs = true → absPath.length < vfsMaxPath →
        (k.vfs.newMount ⟨fs, none, absPath, flags &&& mountRo, 0, none, none⟩).CoveredUndone absPath
    | some name => k.deviceSearch name = none

section Call

variable {k k' : MountSystem σ} {answer err : NxError} {name : Str}

theorem mountArguments_ok {stale : Buffer} {path absPath : Str} {fsname : Option Str}
    {fs : VfsFileSystem σ} (hne : path ≠ [])
    (hbuild : vfsBuildAbsPath stale k.cwd path = .ok (.ok absPath))
    (hsearch : k.vfsSearchFileSystem fsname = some fs) :
    k.mountArguments stale (some path) fsname = .ok (.ok (absPath, fs)) := by
  obtain ⟨c, path, rfl⟩ := List.exists_cons_of_ne_nil hne
  simp only [MountSystem.mountArguments, hbuild, hsearch]
  rfl

theorem ioBlockOpen_reference {d : ℕ} (hfound : k.deviceSearch name = some d) :
    ((k.ioBlockOpen answer name).2.device d).reference = (k.device d).reference + 1 := by
  have hopen : (deviceOpen (k.driver d) (k.device d) answer).2.reference =
      (k.device d).reference + 1 := by
    unfold deviceOpen
    simp only
    split
    · split <;> rfl
    · rfl
  unfold MountSystem.ioBlockOpen
  simp only [hfound]
  split <;> simp [hopen]

theorem reference_ne {d : ℕ} (hfound : k.deviceSearch name = some d) :
    ((k.ioBlockOpen answer name).2.device d).reference ≠ (k.device d).reference := by
  rw [ioBlockOpen_reference hfound]
  bv_omega

theorem ioBlockOpen_unchanged_iff :
    MountUnchanged k (k.ioBlockOpen answer name).2 ↔ k.deviceSearch name = none := by
  cases hfound : k.deviceSearch name with
  | none =>
      have hopen : (k.ioBlockOpen answer name).2 = k := by simp [MountSystem.ioBlockOpen, hfound]
      exact iff_of_true (hopen.symm ▸ ⟨rfl, .refl k.vfs, fun _ => rfl⟩) rfl
  | some d => exact iff_of_false (fun hsame => reference_ne hfound (hsame.device d)) nofun

theorem leavesNothing_iff {stale : Buffer} {dev path fsname : Option Str} {flags : BitVec 32}
    {absPath : Str} {fs : VfsFileSystem σ}
    (harguments : k.mountArguments stale path fsname = .ok (.ok (absPath, fs))) :
    k.LeavesNothing stale dev path fsname flags ↔
      match dev with
      | none => k.vfs.memory k.vfs.allocs = true → absPath.length < vfsMaxPath →
          (k.vfs.newMount ⟨fs, none, absPath, flags &&& mountRo, 0, none, none⟩).CoveredUndone
            absPath
      | some name => k.deviceSearch name = none := by
  unfold MountSystem.LeavesNothing
  rw [harguments]
  constructor
  · exact fun h => h _ _ rfl
  · rintro h _ _ ⟨⟩
    exact h

end Call

/-- A system with the root mounted, the file system `r`, and block devices that are found or not. -/
def demoSystem (deviceSearch : Str → Option ℕ) : MountSystem Unit where
  vfs := demoMounted
  fileSystems := [([0x72], readOnlyFs demoLookup)]
  cwd := none
  deviceSearch := deviceSearch
  driver _ := plainDriver
  device _ := ⟨0⟩

/-- The path `/d/t` of a file. -/
def filePath : AbsolutePath := ⟨[[0x64], [0x74]], by decide, by decide, by decide⟩

theorem demoSystem_arguments (deviceSearch : Str → Option ℕ) :
    (demoSystem deviceSearch).mountArguments (fun _ => 0) (some filePath.path) (some [0x72]) =
      .ok (.ok (filePath.path, readOnlyFs demoLookup)) :=
  mountArguments_ok (by decide) (filePath.vfsBuildAbsPath_path _ none) rfl

theorem demoMounted_nodeInv : NodeInv demoMounted [] :=
  NodeRun.nodeInv (.mount (.boot demoStart_booted) (Prod.ext (by decide) rfl))

/-- What a mount at `/d/t` leaves of the file systems and of the devices. -/
def demoFailed (deviceSearch : Str → Option ℕ) (bdev : Option ℕ) (device : ℕ → Io.Device) :
    MountSystem Unit :=
  { demoSystem deviceSearch with
    vfs := (Fs.vfsMountFileSystem demoMounted bdev filePath.path (readOnlyFs demoLookup) 0).2
    device := device }

end Nxos.Fs
