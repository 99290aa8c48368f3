import Mathlib.Data.Fintype.Basic
import Nxos.Fs.Descriptors.Model
import Nxos.Support.Transition

/-!
# Descriptors held by one open

`VfsFileAlloc` finds a descriptor without marking it, and `NX_VfsClose` releases the node before it
clears the descriptor.  In runs in which nobody else acts on a descriptor between these sections,
an open holds its descriptor alone until it is closed, and its reference is released once.
-/

namespace Nxos.Fs

open Nxos.Transition

variable {τ : Type}

/-! ## What is promised, and when it holds -/

/-- Two opens that are not closed have two descriptors, each with the node of its open. -/
structure DescriptorsDistinct (s : FileThreads τ) : Prop where
  unique : ∀ k k' fd, s.stage k = .held fd → s.stage k' = .held fd → k = k'
  kept : ∀ k fd, s.stage k = .held fd → ∃ node, (s.file fd).node = some ⟨node, k⟩

/-- The reference of an open that is not closed was not released and is the one its descriptor
has, the reference of a closed one was released once, and no node was used behind a release. -/
structure ReleasedOnce (s : FileThreads τ) : Prop where
  held : ∀ k fd, s.stage k = .held fd →
    s.releases k = 0 ∧ ∃ node, (s.file fd).node = some ⟨node, k⟩
  closed : ∀ k, s.stage k = .closed → s.releases k = 1
  stale : s.stale = 0

def FilePoint.Filling (fd : ℕ) : FilePoint → Prop
  | .openFill _ _ fd' => fd' = fd
  | _ => False

/-- The thread is about to free the descriptor, whose reference it has released. -/
def FilePoint.Freeing (fd : ℕ) : FilePoint → Prop
  | .closeFree _ fd' => fd' = fd
  | _ => False

def FilePoint.Allocating : FilePoint → Prop
  | .openAlloc _ _ => True
  | _ => False

/-- The first free descriptor was not found before by an open that has still to fill it, and a
descriptor is closed only while no close is about to free it. -/
def OpensApart (s : FileThreads τ) : FileOp τ → Prop
  | .goOn t => (s.point t).Allocating → ∀ fd ∈ s.fileAlloc, ∀ u, ¬(s.point u).Filling fd
  | .closeFile _ fd _ => ∀ u, ¬(s.point u).Freeing fd
  | _ => True

/-- A descriptor is read only while no close is about to free it. -/
def ReadsApart (s : FileThreads τ) : FileOp τ → Prop
  | .readFile _ fd _ => ∀ u, ¬(s.point u).Freeing fd
  | _ => True

instance (p : FilePoint) (fd : ℕ) : Decidable (p.Filling fd) :=
  match p with
  | .openFill _ _ fd' => inferInstanceAs (Decidable (fd' = fd))
  | .outside | .openAlloc _ _ | .openRelease _ | .closeFree _ _ => .isFalse id

instance (p : FilePoint) (fd : ℕ) : Decidable (p.Freeing fd) :=
  match p with
  | .closeFree _ fd' => inferInstanceAs (Decidable (fd' = fd))
  | .outside | .openAlloc _ _ | .openRelease _ | .openFill _ _ _ => .isFalse id

instance (p : FilePoint) : Decidable p.Allocating :=
  match p with
  | .openAlloc _ _ => .isTrue trivial
  | .outside | .openFill _ _ _ | .openRelease _ | .closeFree _ _ => .isFalse id

instance [Fintype τ] (s : FileThreads τ) (op : FileOp τ) : Decidable (OpensApart s op) :=
  match op with
  | .goOn _ => inferInstanceAs (Decidable (_ → ∀ fd ∈ s.fileAlloc, ∀ u, ¬(s.point u).Filling fd))
  | .closeFile _ fd _ => inferInstanceAs (Decidable (∀ u, ¬(s.point u).Freeing fd))
  | .openFile _ _ _ | .readFile _ _ _ => .isTrue trivial

instance [Fintype τ] (s : FileThreads τ) (op : FileOp τ) : Decidable (ReadsApart s op) :=
  match op with
  | .readFile _ fd _ => inferInstanceAs (Decidable (∀ u, ¬(s.point u).Freeing fd))
  | .openFile _ _ _ | .closeFile _ _ _ | .goOn _ => .isTrue trivial

section Moves

variable [DecidableEq τ] (type : ℕ → VfsNodeType)

def ApartMove (s : FileThreads τ) (op : FileOp τ) (s' : FileThreads τ) : Prop :=
  OpensApart s op ∧ FileMove type s op s'

def QuietMove (s : FileThreads τ) (op : FileOp τ) (s' : FileThreads τ) : Prop :=
  (OpensApart s op ∧ ReadsApart s op) ∧ FileMove type s op s'

def quietStep [Fintype τ] (s : FileThreads τ) (op : FileOp τ) :
    Option (FileThreads τ) :=
  if OpensApart s op ∧ ReadsApart s op then fileStep type s op else none

theorem quietMove_of_quietStep [Fintype τ] {type : ℕ → VfsNodeType} {s s' : FileThreads τ}
    {op : FileOp τ} (hstep : quietStep type s op = some s') : QuietMove type s op s' :=
  Option.ite_none_right_eq_some.mp hstep

end Moves

/-! ## The invariant -/

/-- What the references and the descriptors are about, without offsets, flags and results. -/
structure Holdings (τ : Type) where
  slot : ℕ → Option NodeRef
  point : τ → FilePoint
  opens : ℕ
  stage : ℕ → OpenStage
  releases : ℕ → ℕ

def FileThreads.holdings (s : FileThreads τ) : Holdings τ where
  slot fd := (s.file fd).node
  point := s.point
  opens := s.opens
  stage := s.stage
  releases := s.releases

def FilePoint.pending : FilePoint → Option NodeRef
  | .openAlloc r _ => some r
  | .openFill r _ _ => some r
  | .openRelease r => some r
  | _ => none

/-- A descriptor has the reference of the open that holds it, or of the close that is about to
free it. -/
structure HoldingsInv (h : Holdings τ) : Prop where
  slot : ∀ fd r, h.slot fd = some r → (3 ≤ fd ∧ fd < vfsMaxFd) ∧
    (h.stage r.number = .held fd ∨ ∃ t, h.point t = .closeFree r fd)
  held : ∀ k fd, h.stage k = .held fd → ∃ r, h.slot fd = some r ∧ r.number = k
  unreleased : ∀ k, (∀ fd, h.stage k = .held fd → h.releases k = 0) ∧
    (h.stage k = .calling → h.releases k = 0)
  closed : ∀ k, h.stage k = .closed → h.releases k = 1
  fresh : ∀ k, h.opens ≤ k → h.stage k = .calling
  pending : ∀ t r, (h.point t).pending = some r →
    r.number < h.opens ∧ h.stage r.number = .calling
  pendingApart : ∀ t u r r', t ≠ u → (h.point t).pending = some r →
    (h.point u).pending = some r' → r.number ≠ r'.number
  filling : ∀ t fd, (h.point t).Filling fd →
    h.slot fd = none ∧ (3 ≤ fd ∧ fd < vfsMaxFd) ∧ ∀ u, u ≠ t → ¬(h.point u).Filling fd
  freeing : ∀ t r fd, h.point t = .closeFree r fd → h.slot fd = some r ∧
    h.stage r.number = .closed ∧ ∀ u, u ≠ t → ¬(h.point u).Freeing fd

theorem HoldingsInv.new : HoldingsInv (FileThreads.new : FileThreads τ).holdings := by
  constructor <;>
    simp [FileThreads.new, FileThreads.holdings, SharedFile.free, FilePoint.pending,
      FilePoint.Filling]

section Steps

variable [DecidableEq τ] {h : Holdings τ} {t : τ} {r : NodeRef} {flags : BitVec 32} {fd : ℕ}

/-- A close that is about to free a descriptor still is, when another thread has gone on. -/
theorem exists_closeFree_update {point : τ → FilePoint} (hne : point t ≠ .closeFree r fd)
    (p : FilePoint) (hfreeing : ∃ u, point u = .closeFree r fd) :
    ∃ u, Function.update point t p u = .closeFree r fd := by
  obtain ⟨u, hu⟩ := hfreeing
  refine ⟨u, ?_⟩
  rw [Function.update_of_ne (fun heq => hne (by rw [← heq, hu])), hu]

/-- A thread that is not about to free a descriptor goes on, with an open reference of its own or
without one, and fills only a free descriptor that no other fills. -/
theorem HoldingsInv.setPoint (hinv : HoldingsInv h) {p : FilePoint}
    (hleft : ∀ r fd, h.point t ≠ .closeFree r fd)
    (hpending : ∀ r, p.pending = some r → (r.number < h.opens ∧ h.stage r.number = .calling) ∧
      ∀ u r', u ≠ t → (h.point u).pending = some r' → r'.number ≠ r.number)
    (hfilling : ∀ fd, p.Filling fd → h.slot fd = none ∧ (3 ≤ fd ∧ fd < vfsMaxFd) ∧
      ∀ u, u ≠ t → ¬(h.point u).Filling fd)
    (hfreeing : ∀ fd, ¬p.Freeing fd) :
    HoldingsInv { h with point := Function.update h.point t p } := by
  have hself : Function.update h.point t p t = p := Function.update_self ..
  have hother : ∀ {u}, u ≠ t → Function.update h.point t p u = h.point u :=
    fun hut => Function.update_of_ne hut ..
  refine ⟨?_, hinv.held, hinv.unreleased, hinv.closed, hinv.fresh, ?_, ?_, ?_, ?_⟩
  · intro fd' r' hslot
    obtain ⟨hrange', howner⟩ := hinv.slot fd' r' hslot
    exact ⟨hrange', howner.imp_right (exists_closeFree_update (hleft r' fd') p)⟩
  · intro u r' hu
    by_cases hut : u = t
    · simp only [hut, hself] at hu
      exact (hpending r' hu).1
    · simp only [hother hut] at hu
      exact hinv.pending u r' hu
  · intro u v r' r'' huv hu hv
    by_cases hut : u = t
    · have hvt : v ≠ t := fun hvt => huv (hut.trans hvt.symm)
      simp only [hut, hself] at hu
      simp only [hother hvt] at hv
      exact ((hpending r' hu).2 v r'' hvt hv).symm
    · simp only [hother hut] at hu
      by_cases hvt : v = t
      · simp only [hvt, hself] at hv
        exact (hpending r'' hv).2 u r' hut hu
      · simp only [hother hvt] at hv
        exact hinv.pendingApart u v r' r'' huv hu hv
  · intro u fd' hu
    by_cases hut : u = t
    · simp only [hut, hself] at hu
      obtain ⟨hfree, hrange, halone⟩ := hfilling fd' hu
      refine ⟨hfree, hrange, fun v hv => ?_⟩
      rw [hut] at hv
      simpa only [hother hv] using halone v hv
    · simp only [hother hut] at hu
      obtain ⟨hfree, hrange, halone⟩ := hinv.filling u fd' hu
      refine ⟨hfree, hrange, fun v hv => ?_⟩
      by_cases hvt : v = t
      · simp only [hvt, hself]
        exact fun hp => (hfilling fd' hp).2.2 u hut hu
      · simpa only [hother hvt] using halone v hv
  · intro u r' fd' hu
    have hut : u ≠ t := by
      intro hut
      simp only [hut, hself] at hu
      exact hfreeing fd' (hu ▸ rfl)
    simp only [hother hut] at hu
    obtain ⟨hslot, hclosed, halone⟩ := hinv.freeing u r' fd' hu
    refine ⟨hslot, hclosed, fun v hv => ?_⟩
    by_cases hvt : v = t
    · simpa only [hvt, hself] using hfreeing fd'
    · simpa only [hother hvt] using halone v hv

theorem HoldingsInv.take (hinv : HoldingsInv h) (hpoint : h.point t = .outside) (node : ℕ)
    (flags : BitVec 32) :
    HoldingsInv { h with
      point := Function.update h.point t (.openAlloc ⟨node, h.opens⟩ flags)
      opens := h.opens + 1 } := by
  have hmore : HoldingsInv { h with opens := h.opens + 1 } := { hinv with
    fresh := fun k hk => hinv.fresh k (Nat.le_of_succ_le hk)
    pending := fun u r hu =>
      ⟨Nat.lt_succ_of_lt (hinv.pending u r hu).1, (hinv.pending u r hu).2⟩ }
  refine hmore.setPoint (by simp [hpoint]) ?_ (fun fd hfd => hfd.elim) (fun fd hfd => hfd)
  rintro r hr
  obtain rfl : ⟨node, h.opens⟩ = r := Option.some.inj hr
  exact ⟨⟨Nat.lt_succ_self _, hinv.fresh _ (Nat.le_refl _)⟩,
    fun u r' _ hu => Nat.ne_of_lt (hinv.pending u r' hu).1⟩

theorem HoldingsInv.alloc (hinv : HoldingsInv h) (hpoint : h.point t = .openAlloc r flags)
    (hfree : h.slot fd = none) (hrange : 3 ≤ fd ∧ fd < vfsMaxFd)
    (halone : ∀ u, ¬(h.point u).Filling fd) :
    HoldingsInv { h with point := Function.update h.point t (.openFill r flags fd) } := by
  have hpending : (h.point t).pending = some r := by rw [hpoint]; rfl
  refine hinv.setPoint (by simp [hpoint]) ?_ ?_ (fun fd hfd => hfd)
  · rintro r' hr
    obtain rfl : r = r' := Option.some.inj hr
    exact ⟨hinv.pending t r hpending,
      fun u r' hut hu => hinv.pendingApart u t r' r hut hu hpending⟩
  · rintro fd' hfd
    obtain rfl : fd = fd' := hfd
    exact ⟨hfree, hrange, fun u _ => halone u⟩

theorem HoldingsInv.allocFails (hinv : HoldingsInv h) (hpoint : h.point t = .openAlloc r flags) :
    HoldingsInv { h with point := Function.update h.point t (.openRelease r) } := by
  have hpending : (h.point t).pending = some r := by rw [hpoint]; rfl
  refine hinv.setPoint (by simp [hpoint]) ?_ (fun fd hfd => hfd.elim) (fun fd hfd => hfd)
  rintro r' hr
  obtain rfl : r = r' := Option.some.inj hr
  exact ⟨hinv.pending t r hpending,
    fun u r' hut hu => hinv.pendingApart u t r' r hut hu hpending⟩

theorem HoldingsInv.fill (hinv : HoldingsInv h) (hpoint : h.point t = .openFill r flags fd) :
    HoldingsInv { h with
      slot := Function.update h.slot fd (some r)
      point := Function.update h.point t .outside
      stage := Function.update h.stage r.number (.held fd) } := by
  obtain ⟨hfree, hrange, hfilling⟩ := hinv.filling t fd (by rw [hpoint]; rfl)
  obtain ⟨hnumber, hcalling⟩ := hinv.pending t r (by rw [hpoint]; rfl)
  have hheld : ∀ k, h.stage k ≠ .held fd := fun k hk => by
    obtain ⟨r', hslot, -⟩ := hinv.held k fd hk
    simp [hfree] at hslot
  have hfreeing : ∀ u r', h.point u ≠ .closeFree r' fd := fun u r' hu => by
    have hslot := (hinv.freeing u r' fd hu).1
    simp [hfree] at hslot
  have hapart : ∀ u r', u ≠ t → (h.point u).pending = some r' → r'.number ≠ r.number :=
    fun u r' hne hu => hinv.pendingApart u t r' r hne hu (by rw [hpoint]; rfl)
  constructor
  · intro fd' r' hslot
    by_cases heq : fd' = fd
    · subst heq
      grind [Function.update_apply]
    · simp only [Function.update_of_ne heq] at hslot
      obtain ⟨hrange', howner⟩ := hinv.slot fd' r' hslot
      have hne : r'.number ≠ r.number := by
        have := hinv.freeing
        grind
      simp only [Function.update_of_ne hne]
      exact ⟨hrange', howner.imp_right (exists_closeFree_update (by simp [hpoint]) _)⟩
  · have := hinv.held
    grind [Function.update_apply]
  · have := hinv.unreleased
    grind [Function.update_apply]
  · have := hinv.closed
    grind [Function.update_apply]
  · have := hinv.fresh
    grind [Function.update_apply]
  · have := hinv.pending
    grind [Function.update_apply, FilePoint.pending]
  · have := hinv.pendingApart
    grind [Function.update_apply, FilePoint.pending]
  · have := hinv.filling
    grind [Function.update_apply, FilePoint.Filling]
  · have := hinv.freeing
    grind [Function.update_apply, FilePoint.Freeing]

theorem HoldingsInv.fail (hinv : HoldingsInv h) (hpoint : h.point t = .openRelease r) :
    HoldingsInv { h with
      point := Function.update h.point t .outside
      stage := Function.update h.stage r.number .failed
      releases := Function.update h.releases r.number (h.releases r.number + 1) } := by
  obtain ⟨hnumber, hcalling⟩ := hinv.pending t r (by rw [hpoint]; rfl)
  have hapart : ∀ u r', u ≠ t → (h.point u).pending = some r' → r'.number ≠ r.number :=
    fun u r' hne hu => hinv.pendingApart u t r' r hne hu (by rw [hpoint]; rfl)
  constructor
  · intro fd' r' hslot
    obtain ⟨hrange', howner⟩ := hinv.slot fd' r' hslot
    have hne : r'.number ≠ r.number := by
      have := hinv.freeing
      grind
    simp only [Function.update_of_ne hne]
    exact ⟨hrange', howner.imp_right (exists_closeFree_update (by simp [hpoint]) _)⟩
  · have := hinv.held
    grind [Function.update_apply]
  · have := hinv.unreleased
    grind [Function.update_apply]
  · have := hinv.closed
    grind [Function.update_apply]
  · have := hinv.fresh
    grind [Function.update_apply]
  · have := hinv.pending
    grind [Function.update_apply, FilePoint.pending]
  · have := hinv.pendingApart
    grind [Function.update_apply, FilePoint.pending]
  · have := hinv.filling
    grind [Function.update_apply, FilePoint.Filling]
  · have := hinv.freeing
    grind [Function.update_apply, FilePoint.Freeing]

theorem HoldingsInv.release (hinv : HoldingsInv h) (hpoint : h.point t = .outside)
    (hslot : h.slot fd = some r) (halone : ∀ u, ¬(h.point u).Freeing fd) :
    HoldingsInv { h with
      point := Function.update h.point t (.closeFree r fd)
      stage := Function.update h.stage r.number .closed
      releases := Function.update h.releases r.number (h.releases r.number + 1) } := by
  have hheld : h.stage r.number = .held fd := by
    rcases (hinv.slot fd r hslot).2 with hheld | ⟨u, hu⟩
    · exact hheld
    · exact absurd (by rw [hu]; rfl) (halone u)
  constructor
  · intro fd' r' hslot'
    obtain ⟨hrange', howner⟩ := hinv.slot fd' r' hslot'
    by_cases heq : fd' = fd
    · subst heq
      rw [hslot] at hslot'
      cases hslot'
      exact ⟨hrange', .inr ⟨t, Function.update_self ..⟩⟩
    · have hne : r'.number ≠ r.number := by
        have := hinv.freeing
        grind
      simp only [Function.update_of_ne hne]
      exact ⟨hrange', howner.imp_right (exists_closeFree_update (by simp [hpoint]) _)⟩
  · have := hinv.held
    grind [Function.update_apply]
  · have := hinv.unreleased
    grind [Function.update_apply]
  · have := hinv.closed
    have := hinv.unreleased
    grind [Function.update_apply]
  · have := hinv.fresh
    grind [Function.update_apply]
  · have := hinv.pending
    grind [Function.update_apply, FilePoint.pending]
  · have := hinv.pendingApart
    grind [Function.update_apply, FilePoint.pending]
  · have := hinv.filling
    grind [Function.update_apply, FilePoint.Filling]
  · have := hinv.freeing
    grind [Function.update_apply, FilePoint.Freeing]

theorem HoldingsInv.free (hinv : HoldingsInv h) (hpoint : h.point t = .closeFree r fd) :
    HoldingsInv { h with
      slot := Function.update h.slot fd none
      point := Function.update h.point t .outside } := by
  obtain ⟨hslot, hclosed, halone⟩ := hinv.freeing t r fd hpoint
  constructor
  · intro fd' r' hslot'
    have hne : fd' ≠ fd := by
      rintro rfl
      simp at hslot'
    simp only [Function.update_of_ne hne] at hslot'
    obtain ⟨hrange', howner⟩ := hinv.slot fd' r' hslot'
    exact ⟨hrange', howner.imp_right (exists_closeFree_update (by simp [hpoint, hne.symm]) _)⟩
  · have := hinv.held
    grind [Function.update_apply]
  · exact hinv.unreleased
  · exact hinv.closed
  · exact hinv.fresh
  · have := hinv.pending
    grind [Function.update_apply, FilePoint.pending]
  · have := hinv.pendingApart
    grind [Function.update_apply, FilePoint.pending]
  · have := hinv.filling
    grind [Function.update_apply, FilePoint.Filling]
  · have := hinv.freeing
    grind [Function.update_apply, FilePoint.Freeing]

end Steps

/-! ## Runs -/

section Runs

variable {s s' : FileThreads τ} {t : τ} {r : NodeRef} {fd : ℕ} {stage : OpenStage} {f : SharedFile}

theorem fileAlloc_some (hfd : s.fileAlloc = some fd) :
    (s.file fd).node = none ∧ 3 ≤ fd ∧ fd < vfsMaxFd := by
  have hfree := List.find?_some hfd
  have hmem := List.mem_of_find?_eq_some hfd
  rw [List.mem_range'_1] at hmem
  simp only [SharedFile.toVfsFile, beq_iff_eq, Option.map_eq_none_iff] at hfree
  exact ⟨hfree, hmem.1, by simpa [vfsMaxFd] using hmem.2⟩

theorem setFile_slot : (s.setFile fd f).holdings.slot =
    Function.update s.holdings.slot fd f.node :=
  Function.comp_update SharedFile.node s.file fd f

theorem setFile_slot_of_node (hnode : f.node = (s.file fd).node) :
    (s.setFile fd f).holdings.slot = s.holdings.slot := by
  rw [setFile_slot, hnode]
  exact Function.update_eq_self fd s.holdings.slot

theorem readSection_node (type : ℕ → VfsNodeType) (answer : BitVec 64 × NxError) :
    (readSection type f answer).2.node = f.node := by
  unfold readSection
  split
  · rfl
  · split_ifs <;> rfl

theorem HoldingsInv.releases_eq_zero {h : Holdings τ} (hinv : HoldingsInv h)
    (hslot : h.slot fd = some r) (halone : ∀ u, ¬(h.point u).Freeing fd) :
    h.releases r.number = 0 := by
  rcases (hinv.slot fd r hslot).2 with hheld | ⟨u, hu⟩
  · exact (hinv.unreleased r.number).1 fd hheld
  · exact absurd (by rw [hu]; rfl) (halone u)

/-- `VfsFileFree` of a descriptor that has a reference. -/
theorem fileFree_eq (hinv : HoldingsInv s.holdings) (hslot : (s.file fd).node = some r) :
    s.fileFree fd = s.setFile fd .free := by
  obtain ⟨hlow, hhigh⟩ := (hinv.slot fd r hslot).1
  rw [FileThreads.fileFree, if_pos ⟨hlow, hhigh, by simp [hslot]⟩]

theorem use_stale (hreleases : s.releases r.number = 0) : (s.use r).stale = s.stale := by
  rw [FileThreads.use, if_pos hreleases]

theorem HoldingsInv.descriptorsDistinct (hinv : HoldingsInv s.holdings) :
    DescriptorsDistinct s where
  unique k k' fd hheld hheld' := by
    obtain ⟨r, hslot, rfl⟩ := hinv.held k fd hheld
    obtain ⟨r', hslot', rfl⟩ := hinv.held k' fd hheld'
    rw [hslot] at hslot'
    cases hslot'
    rfl
  kept k fd hheld := by
    obtain ⟨r, hslot, rfl⟩ := hinv.held k fd hheld
    exact ⟨r.node, hslot⟩

theorem HoldingsInv.releasedOnce (hinv : HoldingsInv s.holdings) (hstale : s.stale = 0) :
    ReleasedOnce s where
  held k fd hheld := ⟨(hinv.unreleased k).1 fd hheld, hinv.descriptorsDistinct.kept k fd hheld⟩
  closed := hinv.closed
  stale := hstale

variable [DecidableEq τ] {type : ℕ → VfsNodeType} {op : FileOp τ}

@[simp] theorem finish_holdings (result : FileResult) : (s.finish t result).holdings =
    { s.holdings with point := Function.update s.holdings.point t .outside } := rfl

theorem HoldingsInv.finish (hinv : HoldingsInv s.holdings) (hpoint : s.point t = .outside)
    (result : FileResult) : HoldingsInv (s.finish t result).holdings := by
  have hsame : Function.update s.point t .outside = s.point := by
    rw [← hpoint, Function.update_eq_self]
  rw [finish_holdings]
  simpa [FileThreads.holdings, hsame] using hinv

theorem HoldingsInv.closeSection (hinv : HoldingsInv s.holdings) (hpoint : s.point t = .outside)
    (halone : ∀ u, ¬(s.point u).Freeing fd) (sync : NxError) :
    HoldingsInv (s.closeSection t fd sync).holdings := by
  unfold FileThreads.closeSection
  split
  · exact hinv.finish hpoint _
  · next r hslot =>
    split
    · exact HoldingsInv.finish (s := s.use r) hinv hpoint _
    · exact hinv.release hpoint hslot halone

theorem HoldingsInv.readStep (hinv : HoldingsInv s.holdings) (hpoint : s.point t = .outside)
    (answer : BitVec 64 × NxError) : HoldingsInv (s.readStep type t fd answer).holdings := by
  have hslot : (s.setFile fd (readSection type (s.file fd) answer).2).holdings.slot =
      s.holdings.slot := setFile_slot_of_node (readSection_node type answer)
  have hinv' : HoldingsInv (s.setFile fd (readSection type (s.file fd) answer).2).holdings := by
    have heq : (s.setFile fd (readSection type (s.file fd) answer).2).holdings =
        { s.holdings with slot := s.holdings.slot } := by rw [← hslot]; rfl
    rw [heq]
    exact hinv
  unfold FileThreads.readStep
  cases (s.file fd).node with
  | none => exact hinv'.finish hpoint _
  | some r =>
      exact HoldingsInv.finish (s := (s.use r).setFile fd (readSection type (s.file fd) answer).2)
        hinv' hpoint _

theorem HoldingsInv.goOn (hinv : HoldingsInv s.holdings) (hapart : OpensApart s (.goOn t))
    (hstep : s.goOn t = some s') : HoldingsInv s'.holdings := by
  unfold FileThreads.goOn at hstep
  cases hpoint : s.point t with
  | outside =>
      rw [hpoint] at hstep
      cases hstep
  | openAlloc r flags =>
      simp only [hpoint] at hstep
      cases hfd : s.fileAlloc with
      | none =>
          simp only [hfd] at hstep
          cases hstep
          exact hinv.allocFails hpoint
      | some fd =>
          simp only [hfd] at hstep
          cases hstep
          obtain ⟨hfree, hrange⟩ := fileAlloc_some hfd
          refine hinv.alloc hpoint hfree hrange ?_
          exact hapart (by rw [hpoint]; trivial) fd hfd
  | openFill r flags fd =>
      simp only [hpoint] at hstep
      cases hstep
      have hslot : (s.setFile fd ⟨some r, 0, flags⟩).holdings.slot =
          Function.update s.holdings.slot fd (some r) := setFile_slot
      have hfill := hinv.fill hpoint
      rw [← hslot] at hfill
      exact hfill
  | openRelease r =>
      simp only [hpoint] at hstep
      cases hstep
      exact hinv.fail hpoint
  | closeFree r fd =>
      simp only [hpoint] at hstep
      cases hstep
      have hslot : (s.setFile fd .free).holdings.slot = Function.update s.holdings.slot fd none :=
        setFile_slot
      have hfree := hinv.free hpoint
      rw [← hslot] at hfree
      rw [fileFree_eq hinv (hinv.freeing t r fd hpoint).1]
      exact hfree

theorem HoldingsInv.step (hinv : HoldingsInv s.holdings) (hmove : ApartMove type s op s') :
    HoldingsInv s'.holdings := by
  obtain ⟨hapart, hstep⟩ := hmove
  cases op with
  | openFile t node flags =>
      simp only [FileMove, fileStep] at hstep
      split at hstep
      · next hpoint =>
        cases hstep
        exact hinv.take hpoint node flags
      · cases hstep
  | closeFile t fd sync =>
      simp only [FileMove, fileStep] at hstep
      split at hstep
      · cases hstep
      · next hpoint =>
        split at hstep
        · cases hstep
          exact hinv.finish (not_not.mp hpoint) _
        · cases hstep
          exact hinv.closeSection (not_not.mp hpoint) hapart sync
  | readFile t fd answer =>
      simp only [FileMove, fileStep] at hstep
      split at hstep
      · cases hstep
      · next hpoint =>
        split at hstep
        · cases hstep
          exact hinv.finish (not_not.mp hpoint) _
        · cases hstep
          exact hinv.readStep (not_not.mp hpoint) answer
  | goOn t => exact hinv.goOn hapart hstep

theorem goOn_stale (hstep : s.goOn t = some s') : s'.stale = s.stale := by
  unfold FileThreads.goOn at hstep
  split at hstep
  · cases hstep
  · split at hstep <;> cases hstep <;> rfl
  · cases hstep
    rfl
  · cases hstep
    rfl
  · cases hstep
    simp only [FileThreads.finish, FileThreads.goto, FileThreads.fileFree]
    split <;> rfl

/-- No step uses a node behind the release of its reference. -/
theorem HoldingsInv.stale_step (hinv : HoldingsInv s.holdings) (hmove : QuietMove type s op s') :
    s'.stale = s.stale := by
  obtain ⟨⟨hapart, hquiet⟩, hstep⟩ := hmove
  cases op with
  | openFile t node flags =>
      simp only [FileMove, fileStep] at hstep
      split at hstep <;> cases hstep
      rfl
  | closeFile t fd sync =>
      simp only [FileMove, fileStep] at hstep
      split_ifs at hstep <;> cases hstep
      · rfl
      · unfold FileThreads.closeSection
        cases hslot : (s.file fd).node with
        | none => rfl
        | some r =>
            have huse := use_stale (hinv.releases_eq_zero hslot hapart)
            dsimp only
            split <;> exact huse
  | readFile t fd answer =>
      simp only [FileMove, fileStep] at hstep
      split_ifs at hstep <;> cases hstep
      · rfl
      · unfold FileThreads.readStep
        cases hslot : (s.file fd).node with
        | none => rfl
        | some r => exact use_stale (hinv.releases_eq_zero hslot hquiet)
  | goOn t => exact goOn_stale hstep

/-- In a run in which no open is given a descriptor that another is about to fill, and no
descriptor is closed again before it is freed, an open has its descriptor for itself until it is
closed. -/
theorem apartReachable_descriptorsDistinct (hreach : Reachable (ApartMove type) .new s) :
    DescriptorsDistinct s := by
  have hinv : HoldingsInv s.holdings :=
    hreach.invariant (P := fun s : FileThreads τ => HoldingsInv s.holdings) .new
      fun hinv hmove => hinv.step hmove
  exact hinv.descriptorsDistinct

end Runs

def apartRun : List (FileOp (Fin 2)) :=
  [.openFile 0 7 oRdonly, .openFile 1 8 oRdonly, .goOn 0, .goOn 0, .goOn 1, .goOn 1,
    .closeFile 0 3 .eok, .readFile 1 4 (5, .eok), .goOn 0]

def regular (_ : ℕ) : VfsNodeType := .reg

theorem apartReachable_descriptorsDistinct_twoOpens : ∃ s : FileThreads (Fin 2),
    Reachable (ApartMove regular) .new s ∧ (s.stage 0, s.stage 1) = (.closed, .held 4) ∧
      DescriptorsDistinct s := by
  have heval : (perform (quietStep regular) .new apartRun).map (fun s => (s.stage 0, s.stage 1)) =
      some (.closed, .held 4) := by
    decide +kernel
  obtain ⟨s, hrun, hstages⟩ := Option.map_eq_some_iff.mp heval
  have hreach : Reachable (ApartMove regular) .new s :=
    (Reachable.of_perform quietMove_of_quietStep hrun).mono fun hmove => ⟨hmove.1.1, hmove.2⟩
  exact ⟨s, hreach, hstages, apartReachable_descriptorsDistinct hreach⟩

/-- Two opens find the same descriptor before either fills it. -/
theorem fileReachable_notDistinct : ∃ s : FileThreads (Fin 2),
    Reachable (FileMove regular) .new s ∧ ¬DescriptorsDistinct s := by
  have heval : (perform (fileStep regular) .new [.openFile (0 : Fin 2) 7 oRdonly,
      .openFile 1 8 oRdonly, .goOn 0, .goOn 1, .goOn 0, .goOn 1]).map
        (fun s => (s.stage 0, s.stage 1)) = some (.held 3, .held 3) := by
    decide +kernel
  obtain ⟨s, hrun, hstages⟩ := Option.map_eq_some_iff.mp heval
  refine ⟨s, Reachable.of_perform id hrun, fun hdistinct => ?_⟩
  obtain ⟨hfirst, hsecond⟩ := Prod.ext_iff.mp hstages
  exact absurd (hdistinct.unique 0 1 3 hfirst hsecond) (by decide)

/-- Where also no descriptor is read before it is freed, the reference of every successful open
is released once, and no node is used behind the release. -/
theorem quietReachable_releasedOnce [DecidableEq τ] {type : ℕ → VfsNodeType} {s : FileThreads τ}
    (hreach : Reachable (QuietMove type) .new s) : ReleasedOnce s := by
  have hinv : HoldingsInv s.holdings ∧ s.stale = 0 :=
    hreach.invariant (P := fun s : FileThreads τ => HoldingsInv s.holdings ∧ s.stale = 0)
      ⟨.new, rfl⟩ fun hinv hmove =>
        ⟨hinv.1.step ⟨hmove.1.1, hmove.2⟩, (hinv.1.stale_step hmove).trans hinv.2⟩
  exact hinv.1.releasedOnce hinv.2

theorem quietReachable_releasedOnce_twoOpens : ∃ s : FileThreads (Fin 2),
    Reachable (QuietMove regular) .new s ∧ (s.stage 0, s.stage 1) = (.closed, .held 4) ∧
      ReleasedOnce s := by
  have heval : (perform (quietStep regular) .new apartRun).map (fun s => (s.stage 0, s.stage 1)) =
      some (.closed, .held 4) := by
    decide +kernel
  obtain ⟨s, hrun, hstages⟩ := Option.map_eq_some_iff.mp heval
  have hreach : Reachable (QuietMove regular) .new s :=
    Reachable.of_perform quietMove_of_quietStep hrun
  exact ⟨s, hreach, hstages, quietReachable_releasedOnce hreach⟩

/-- A second close finds the descriptor before the first has freed it. -/
theorem fileReachable_releasedTwice : ∃ s : FileThreads (Fin 2),
    Reachable (FileMove regular) .new s ∧ ¬ReleasedOnce s := by
  have heval : (perform (fileStep regular) .new [.openFile (0 : Fin 2) 7 oRdonly, .goOn 0, .goOn 0,
      .closeFile 0 3 .eok, .closeFile 1 3 .eok]).map (fun s => (s.stage 0, s.releases 0)) =
        some (.closed, 2) := by
    decide +kernel
  obtain ⟨s, hrun, hstage⟩ := Option.map_eq_some_iff.mp heval
  refine ⟨s, Reachable.of_perform id hrun, fun honce => ?_⟩
  obtain ⟨hclosed, hreleases⟩ := Prod.ext_iff.mp hstage
  have hone := honce.closed 0 hclosed
  simp only at hreleases
  omega

end Nxos.Fs
