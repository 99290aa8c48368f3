import Nxos.Process.LoadElf.Contents
import Nxos.Support.Interval

/-!
# The heap behind the image

`NX_VmspaceResizeImage` places the end of the image behind its start by the sum of the sizes of
the segments, and the heap a page behind that.  This is right for segments that follow one
another from the start of the image on, and wrong where a gap lies before one of them.
-/

namespace Nxos.Process

open Nxos.Interval

/-! ## Sizes -/

def segmentsSize (segments : List ElfPhdr) : ℕ :=
  4096 * pageRounds (segments.map fun ph => ph.memsz.toNat).sum

/-- The space of a new process: the image starts at a page below the heap. -/
structure NewLayout (space : UserSpace) : Prop where
  image_aligned : space.imageStart.toNat % 4096 = 0
  start_aligned : space.heapStart.toNat % 4096 = 0
  end_aligned : space.heapEnd.toNat % 4096 = 0
  image_lt : space.imageStart.toNat < space.heapStart.toNat
  start_lt : space.heapStart.toNat < space.heapEnd.toNat

/-- Every segment ends within the sum of the sizes behind the start of the image, and below or
above the heap of the new process. -/
structure ImageFits (space : UserSpace) (segments : List ElfPhdr) : Prop where
  size : space.imageStart.toNat + segmentsSize segments + 4096 < 2 ^ 64
  image : ∀ ph ∈ segments,
    ph.vaddr.toNat + ph.memsz.toNat ≤ space.imageStart.toNat + segmentsSize segments
  heap : ∀ ph ∈ segments, ph.vaddr.toNat + ph.memsz.toNat ≤ space.heapStart.toNat ∨
    space.heapEnd.toNat ≤ ph.vaddr.toNat

/-- No page that was mapped is in the heap, and no segment ends behind the image. -/
structure ImageBelowHeap (before after : ℕ → Option ℕ) (space : UserSpace)
    (segments : List ElfPhdr) : Prop where
  heap : ∀ p, before p = none → after p ≠ none →
    ¬(space.heapStart.toNat ≤ p * 4096 ∧ p * 4096 < space.heapEnd.toNat)
  image : ∀ ph ∈ segments, ph.vaddr.toNat + ph.memsz.toNat ≤ space.imageEnd.toNat

section Sizes

variable {segments : List ElfPhdr}

theorem sum_memsz_toNat (hlt : (segments.map fun ph => ph.memsz.toNat).sum < 2 ^ 64) :
    (segments.map ElfPhdr.memsz).sum.toNat = (segments.map fun ph => ph.memsz.toNat).sum := by
  induction segments with
  | nil => rfl
  | cons ph segments ih =>
      rw [List.map_cons, List.sum_cons] at hlt
      rw [List.map_cons, List.sum_cons, List.map_cons, List.sum_cons, BitVec.toNat_add,
        ih (by omega), Nat.mod_eq_of_lt hlt]

theorem segmentsSize_le :
    segmentsSize segments ≤ 4096 * (segments.map fun ph => pageRounds ph.memsz.toNat).sum := by
  have hsum : (segments.map fun ph => ph.memsz.toNat).sum ≤
      4096 * (segments.map fun ph => pageRounds ph.memsz.toNat).sum := by
    induction segments with
    | nil => exact Nat.zero_le _
    | cons ph segments ih =>
        rw [List.map_cons, List.sum_cons, List.map_cons, List.sum_cons]
        have hfirst : ph.memsz.toNat ≤ 4096 * pageRounds ph.memsz.toNat := by
          unfold pageRounds
          omega
        omega
  unfold segmentsSize
  generalize (segments.map fun ph => ph.memsz.toNat).sum = total at hsum ⊢
  unfold pageRounds at *
  omega

theorem segmentsSize_le_of_disjoint {first last : ℕ}
    (hcovers : ∀ ph ∈ segments, ∀ p, ph.Covers p ↔ ph.vaddr.toNat / 4096 ≤ p ∧
      p < ph.vaddr.toNat / 4096 + pageRounds ph.memsz.toNat)
    (hdisjoint : segments.Pairwise fun ph other => ∀ p, ph.Covers p → ¬other.Covers p)
    (hin : ∀ ph ∈ segments, first ≤ ph.vaddr.toNat / 4096 ∧
      ph.vaddr.toNat / 4096 + pageRounds ph.memsz.toNat ≤ last) :
    segmentsSize segments ≤ 4096 * (last - first) := by
  have hpages := sum_length_le (fun ph : ElfPhdr => ph.vaddr.toNat / 4096)
    (fun ph => ph.vaddr.toNat / 4096 + pageRounds ph.memsz.toNat)
    (hdisjoint.imp_of_mem fun hph hother hab p hp hp' =>
      hab p ((hcovers _ hph p).mpr hp) ((hcovers _ hother p).mpr hp')) hin
  simp only [Nat.add_sub_cancel_left] at hpages
  exact segmentsSize_le.trans (Nat.mul_le_mul_left _ hpages)

end Sizes

/-! ## Resizing -/

section Resizing

variable {space : UserSpace} {segments : List ElfPhdr} {newImageSize : BitVec 64}

/-- The bounds that `NX_VmspaceResizeImage` sets while the sizes fit behind the image. -/
theorem vmspaceResizeImage_of_fits (haligned : space.imageStart.toNat % 4096 = 0)
    (hsize : newImageSize.toNat = (segments.map fun ph => ph.memsz.toNat).sum)
    (hfits : space.imageStart.toNat + segmentsSize segments + 4096 < 2 ^ 64) :
    (vmspaceResizeImage space newImageSize).imageEnd.toNat =
      space.imageStart.toNat + segmentsSize segments ∧
    (vmspaceResizeImage space newImageSize).heapStart.toNat =
      min (space.imageStart.toNat + segmentsSize segments + 4096) space.heapStart.toNat := by
  have hpage : (4096 : BitVec 64).toNat = 4096 := rfl
  have hend : (pageAlignUp (space.imageStart + newImageSize)).toNat =
      space.imageStart.toNat + segmentsSize segments := by
    rw [pageAlignUp_toNat, BitVec.toNat_add, hsize]
    unfold segmentsSize pageRounds at *
    omega
  have hnext : (pageAlignUp (space.imageStart + newImageSize) + 4096).toNat =
      space.imageStart.toNat + segmentsSize segments + 4096 := by
    rw [BitVec.toNat_add, hend, hpage, Nat.mod_eq_of_lt hfits]
  refine ⟨hend, ?_⟩
  unfold vmspaceResizeImage
  simp only [BitVec.lt_def, hnext]
  split
  · rw [hnext]
    omega
  · omega

theorem vmspaceResizeImage_of_not_fits (hlayout : NewLayout space)
    (hsize : newImageSize.toNat = (segments.map fun ph => ph.memsz.toNat).sum)
    (hlong : 2 ^ 64 ≤ space.imageStart.toNat + segmentsSize segments + 4096)
    (htotal : segmentsSize segments < 2 ^ 64) :
    (vmspaceResizeImage space newImageSize).imageEnd.toNat < segmentsSize segments ∨
    (vmspaceResizeImage space newImageSize).imageEnd.toNat =
        space.imageStart.toNat + segmentsSize segments ∧
      (vmspaceResizeImage space newImageSize).heapStart = 0 := by
  have hpage : (4096 : BitVec 64).toNat = 4096 := rfl
  have haligned := hlayout.image_aligned
  have hlt := space.imageStart.isLt
  have hend : (pageAlignUp (space.imageStart + newImageSize)).toNat =
      (space.imageStart.toNat + segmentsSize segments) % 2 ^ 64 := by
    rw [pageAlignUp_toNat, BitVec.toNat_add, hsize]
    unfold segmentsSize pageRounds at *
    omega
  by_cases hwrap : 2 ^ 64 ≤ space.imageStart.toNat + segmentsSize segments
  · left
    change (pageAlignUp (space.imageStart + newImageSize)).toNat < _
    rw [hend]
    omega
  · right
    have hexact : space.imageStart.toNat + segmentsSize segments + 4096 = 2 ^ 64 := by
      unfold segmentsSize at *
      omega
    have hnext : pageAlignUp (space.imageStart + newImageSize) + 4096 = 0 := by
      apply BitVec.eq_of_toNat_eq
      rw [BitVec.toNat_add, hend, hpage]
      change _ = 0
      omega
    refine ⟨by
      change (pageAlignUp (space.imageStart + newImageSize)).toNat = _
      rw [hend, Nat.mod_eq_of_lt (by omega)], ?_⟩
    have hheap : (0 : BitVec 64) < space.heapStart := by
      have hlow := hlayout.image_lt
      rw [BitVec.lt_def]
      change 0 < _
      omega
    unfold vmspaceResizeImage
    simp only [hnext, hheap, if_true]

end Resizing

/-! ## The image and the heap -/

section Bounds

variable {space : UserSpace} {segments : List ElfPhdr} {newImageSize : BitVec 64}
  {before after : ℕ → Option ℕ}

/-- The segments of a file that was loaded: their pages, and where they end. -/
structure SegmentsPlaced (before after : ℕ → Option ℕ) (segments : List ElfPhdr) : Prop where
  pos : ∀ ph ∈ segments, 0 < ph.vaddr.toNat ∧ ph.vaddr.toNat % 4096 = 0 ∧ 0 < ph.memsz.toNat
  bound : ∀ ph ∈ segments, ph.vaddr.toNat + 4096 * pageRounds ph.memsz.toNat ≤ 2 ^ 64
  covers : ∀ ph ∈ segments, ∀ p, ph.Covers p ↔ ph.vaddr.toNat / 4096 ≤ p ∧
    p < ph.vaddr.toNat / 4096 + pageRounds ph.memsz.toNat
  disjoint : segments.Pairwise fun ph other => ∀ p, ph.Covers p → ¬other.Covers p
  mapped : ∀ p, (before p = none ∧ after p ≠ none) ↔ ∃ ph ∈ segments, ph.Covers p

/-- The heap is free exactly if no page of a segment is in it. -/
theorem SegmentsPlaced.heap_iff (hplaced : SegmentsPlaced before after segments) {lo hi : ℕ} :
    (∀ p, before p = none → after p ≠ none → ¬(lo ≤ p * 4096 ∧ p * 4096 < hi)) ↔
      ∀ ph ∈ segments, ∀ k < pageRounds ph.memsz.toNat,
        ¬(lo ≤ ph.vaddr.toNat + 4096 * k ∧ ph.vaddr.toNat + 4096 * k < hi) := by
  constructor
  · intro hfree ph hph k hk hin
    have haligned := (hplaced.pos ph hph).2.1
    have hcovers : ph.Covers (ph.vaddr.toNat / 4096 + k) :=
      (hplaced.covers ph hph _).mpr ⟨by omega, by omega⟩
    obtain ⟨hbefore, hafter⟩ := (hplaced.mapped _).mpr ⟨ph, hph, hcovers⟩
    exact hfree _ hbefore hafter ⟨by omega, by omega⟩
  · intro hfree p hbefore hafter hin
    obtain ⟨ph, hph, hcovers⟩ := (hplaced.mapped p).mp ⟨hbefore, hafter⟩
    have haligned := (hplaced.pos ph hph).2.1
    obtain ⟨hlo, hhi⟩ := (hplaced.covers ph hph p).mp hcovers
    exact hfree ph hph (p - ph.vaddr.toNat / 4096) (by omega) ⟨by omega, by omega⟩

/-- The bounds that `NX_VmspaceResizeImage` sets are right exactly if the image fits. -/
theorem SegmentsPlaced.imageBelowHeap_iff (hplaced : SegmentsPlaced before after segments)
    (hlayout : NewLayout space)
    (hsize : newImageSize = (segments.map ElfPhdr.memsz).sum) :
    ImageBelowHeap before after (vmspaceResizeImage space newImageSize) segments ↔
      ImageFits space segments := by
  have hinside : ∀ first last : ℕ, (∀ ph ∈ segments, first * 4096 ≤ ph.vaddr.toNat ∧
      ph.vaddr.toNat + ph.memsz.toNat ≤ last) →
      segmentsSize segments ≤ 4096 * ((last + 4095) / 4096 - first) := by
    intro first last hin
    refine segmentsSize_le_of_disjoint hplaced.covers hplaced.disjoint fun ph hph => ?_
    have haligned := (hplaced.pos ph hph).2.1
    obtain ⟨hlo, hhi⟩ := hin ph hph
    unfold pageRounds
    omega
  have htotal : segmentsSize segments < 2 ^ 64 := by
    have hall := hinside 1 (2 ^ 64) fun ph hph => by
      obtain ⟨hpos, haligned, -⟩ := hplaced.pos ph hph
      have hbound := hplaced.bound ph hph
      unfold pageRounds at hbound
      omega
    omega
  have hsum : newImageSize.toNat = (segments.map fun ph => ph.memsz.toNat).sum := by
    rw [hsize]
    refine sum_memsz_toNat ?_
    unfold segmentsSize pageRounds at htotal
    omega
  have himageAligned := hlayout.image_aligned
  have hstartAligned := hlayout.start_aligned
  have hendAligned := hlayout.end_aligned
  have himageLt := hlayout.image_lt
  have hstartLt := hlayout.start_lt
  have hendLt := space.heapEnd.isLt
  have hheapEnd : (vmspaceResizeImage space newImageSize).heapEnd = space.heapEnd := rfl
  by_cases hfits : space.imageStart.toNat + segmentsSize segments + 4096 < 2 ^ 64
  · obtain ⟨hend, hheap⟩ := vmspaceResizeImage_of_fits hlayout.image_aligned hsum hfits
    constructor
    · intro hbelow
      refine ⟨hfits, fun ph hph => hend ▸ hbelow.image ph hph, fun ph hph => ?_⟩
      have hpages := hplaced.heap_iff.mp hbelow.heap ph hph
      obtain ⟨hpos, haligned, hsizePos⟩ := hplaced.pos ph hph
      rw [hheap, hheapEnd] at hpages
      by_contra hcross
      rw [not_or, not_le, not_le] at hcross
      -- the first page of the segment is below the heap, so one of its pages starts the old heap
      have hfirst : ph.vaddr.toNat < space.heapStart.toNat := by
        have hzero := hpages 0 (by unfold pageRounds; omega)
        omega
      refine hpages ((space.heapStart.toNat - ph.vaddr.toNat) / 4096) ?_ ?_
      · unfold pageRounds
        omega
      · omega
    · intro himage
      refine ⟨hplaced.heap_iff.mpr fun ph hph k hk hin => ?_, fun ph hph =>
        hend.symm ▸ himage.image ph hph⟩
      rw [hheap, hheapEnd] at hin
      have himageBound := himage.image ph hph
      have hheapBound := himage.heap ph hph
      unfold pageRounds at hk
      omega
  · refine iff_of_false (fun hbelow => ?_) fun himage => hfits himage.size
    rcases vmspaceResizeImage_of_not_fits hlayout hsum (not_lt.mp hfits) htotal with hshort |
      ⟨hend, hheap⟩
    · have hbound := hinside 1 (vmspaceResizeImage space newImageSize).imageEnd.toNat
        fun ph hph => by
          obtain ⟨hpos, haligned, -⟩ := hplaced.pos ph hph
          exact ⟨by omega, hbelow.image ph hph⟩
      omega
    · -- the heap starts at zero, so every segment is behind its end
      have hbound := hinside (space.heapEnd.toNat / 4096)
        (space.imageStart.toNat + segmentsSize segments) fun ph hph => by
          obtain ⟨hpos, haligned, hsizePos⟩ := hplaced.pos ph hph
          have hpage := hplaced.heap_iff.mp hbelow.heap ph hph 0 (by unfold pageRounds; omega)
          rw [hheap, hheapEnd] at hpage
          have hzero : (0 : BitVec 64).toNat = 0 := rfl
          exact ⟨by omega, hend ▸ hbelow.image ph hph⟩
      have hwhole : segmentsSize segments % 4096 = 0 := Nat.mul_mod_right _ _
      omega

end Bounds

/-! ## A file that was loaded -/

section Loaded

variable {μ : Type} {M : Mm.Machine μ} {mmuVir2Phy : μ → BitVec 64 → Exec (BitVec 64)}
  {frame : μ → ℕ → Option ℕ} {kernel : ℕ → Prop} {m m' : μ} {file : List (BitVec 8)}
  {len : BitVec 64} {space space' : UserSpace} {ram ram' : ℕ → BitVec 8}

theorem NewLayout.kept {s : Mm.Vmspace} (hlayout : NewLayout space)
    (hkept : SpaceKept space.toVmspace s) : NewLayout { space with toVmspace := s } where
  image_aligned := hlayout.image_aligned
  start_aligned := by simpa only [hkept.heapStart] using hlayout.start_aligned
  end_aligned := by simpa only [hkept.heapEnd] using hlayout.end_aligned
  image_lt := by simpa only [hkept.heapStart] using hlayout.image_lt
  start_lt := by simpa only [hkept.heapStart, hkept.heapEnd] using hlayout.start_lt

theorem imageFits_kept_iff {s : Mm.Vmspace} {segments : List ElfPhdr}
    (hkept : SpaceKept space.toVmspace s) :
    ImageFits { space with toVmspace := s } segments ↔ ImageFits space segments := by
  constructor
  · rintro ⟨hsize, himage, hheap⟩
    exact ⟨hsize, himage, by simpa only [hkept.heapStart, hkept.heapEnd] using hheap⟩
  · rintro ⟨hsize, himage, hheap⟩
    exact ⟨hsize, himage, by simpa only [hkept.heapStart, hkept.heapEnd] using hheap⟩

theorem SegmentsMapped.placed {before after : ℕ → Option ℕ} {frames : ℕ → Option ℕ}
    {segments : List ElfPhdr} (hmapped : SegmentsMapped before after segments)
    (hloaded : ∀ ph ∈ segments, SegmentLoaded file frames ram ph) :
    SegmentsPlaced before after segments where
  pos ph hph := by
    refine ⟨(hmapped.aligned ph hph).2, (hmapped.aligned ph hph).1, Nat.pos_of_ne_zero ?_⟩
    intro hzero
    refine hmapped.nonempty ph hph (BitVec.eq_of_toNat_eq ?_)
    have hfits := (hloaded ph hph).fits
    change _ = 0
    unfold ElfPhdr.size
    split <;> omega
  bound ph hph := (hloaded ph hph).bound
  covers ph hph _ := ElfPhdr.covers_iff (hmapped.aligned ph hph).2 (hmapped.aligned ph hph).1
    (hloaded ph hph).fits (hloaded ph hph).bound
  disjoint := hmapped.disjoint
  mapped p := by
    constructor
    · rintro ⟨hbefore, hafter⟩
      by_contra hnone
      refine hafter ((hmapped.same p fun ph hph hcovers => hnone ⟨ph, hph, hcovers⟩).trans hbefore)
    · rintro ⟨ph, hph, hcovers⟩
      exact ⟨hmapped.free ph hph p hcovers, hmapped.taken ph hph p hcovers⟩

end Loaded

theorem newSpace_newLayout : NewLayout newSpace where
  image_aligned := by decide
  start_aligned := by decide
  end_aligned := by decide
  image_lt := by decide
  start_lt := by decide

/-- Code at the start of the image, and data of a page 64 KiB behind it. -/
def gapFile : List (BitVec 8) :=
  ehdrBytes 0x100000000 2 ++ phdrBytes 176 0x100000000 4 8 ++ phdrBytes 176 0x100010000 4 4096 ++
    [0x13, 0x05, 0x10, 0x00]

end Nxos.Process
