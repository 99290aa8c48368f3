import Nxos.Arch.Riscv64.Model
import Nxos.Process.LoadElf.Model

/-!
# The pages of the segments

What the first pass of the loader maps, on page tables that translate as they are mapped.  Every
segment gets pages of its own, and each of them leads to memory of its own.
-/

namespace Nxos.Process

open Nxos.Mm

/-! ## Page tables -/

/-- How many pages `NX_MmuMapPage` maps for a range of whole pages: none where it wraps around. -/
def mapCount (v size : BitVec 64) : ℕ :=
  if v.toNat + size.toNat ≤ 2 ^ 64 then size.toNat / 4096 else 0

theorem mapCount_eq_rangePages {v size : BitVec 64} (hv : v.toNat % 4096 = 0)
    (hsize : size.toNat % 4096 = 0) (hpos : 0 < v.toNat) :
    (Riscv64.rangePages v size).toInt.toNat = mapCount v size := by
  obtain ⟨q, hq⟩ := Nat.dvd_of_mod_eq_zero hv
  obtain ⟨n, hn⟩ := Nat.dvd_of_mod_eq_zero hsize
  have hvlt := v.isLt
  have hslt := size.isLt
  have hone : (1 : BitVec 64).toNat = 1 := rfl
  have hlast : (v + size - 1).toNat = (4096 * (q + n) + (2 ^ 64 - 1)) % 2 ^ 64 := by
    rw [BitVec.toNat_sub, BitVec.toNat_add, hone]
    omega
  have hvalue : (Riscv64.rangePages v size).toNat =
      ((v + size - 1).toNat / 4096 + (2 ^ 64 - q) + 1) % 2 ^ 64 := by
    simp only [Riscv64.rangePages, BitVec.toNat_add, BitVec.toNat_sub, BitVec.toNat_ushiftRight,
      Nat.shiftRight_eq_div_pow, hone]
    omega
  unfold mapCount
  by_cases hfits : v.toNat + size.toNat ≤ 2 ^ 64
  · have hpages : (Riscv64.rangePages v size).toNat = n := by
      have hdiv : (v + size - 1).toNat / 4096 = q + n - 1 := by omega
      rw [hvalue, hdiv]
      omega
    rw [if_pos hfits, BitVec.toInt_eq_toNat_of_lt (by omega), hpages]
    omega
  · have hpages : (Riscv64.rangePages v size).toNat = 2 ^ 64 - 2 ^ 52 + n := by
      have hdiv : (v + size - 1).toNat / 4096 = q + n - 2 ^ 52 - 1 := by omega
      rw [hvalue, hdiv]
      omega
    have hneg : (Riscv64.rangePages v size).toInt < 0 := by
      rw [BitVec.toInt_eq_toNat_cond, hpages]
      split <;> omega
    rw [if_neg hfits]
    omega

/-- Pages that were free got frames, which nothing outside the kernel's part led to. -/
structure PagesAdded (kernel : ℕ → Prop) (before after : ℕ → Option ℕ) (first n : ℕ)
    (g : ℕ → ℕ) : Prop where
  free : ∀ k < n, before (first + k) = none
  frame : ∀ p, after p = if first ≤ p ∧ p < first + n then some (g (p - first)) else before p
  injective : ∀ j < n, ∀ k < n, g j = g k → j = k
  fresh : ∀ k < n, ∀ p, ¬kernel p → before p ≠ some (g k)

/-- `NX_MmuVir2Phy` translates by the frames of the pages. -/
def Translates {μ : Type} (mmuVir2Phy : μ → BitVec 64 → Exec (BitVec 64))
    (frame : μ → ℕ → Option ℕ) : Prop :=
  ∀ m va pa, mmuVir2Phy m va = .ok pa →
    ∃ f, frame m (va.toNat / 4096) = some f ∧ pa.toNat = f * 4096 + va.toNat % 4096

/-- Page tables that translate as they are mapped.  The pages of the kernel's part are mapped in
every space; they may lead to any memory. -/
structure PageTables {μ : Type} (M : Machine μ) (mmuVir2Phy : μ → BitVec 64 → Exec (BitVec 64))
    (frame : μ → ℕ → Option ℕ) (kernel : ℕ → Prop) : Prop where
  memAlloc : ∀ m, frame (M.memAlloc m).2 = frame m
  translates : Translates mmuVir2Phy frame
  mapPage : ∀ {m m' v size attr a}, v.toNat % 4096 = 0 → size.toNat % 4096 = 0 →
    M.mapPage m v size attr = .ok (a, m') → a ≠ 0 →
    a = v ∧ ∃ g, PagesAdded kernel (frame m) (frame m') (v.toNat / 4096) (mapCount v size) g

/-- The tables of a space that nothing is loaded into: only the kernel's part is mapped, and a
null pointer leads nowhere. -/
structure FreshTables (kernel : ℕ → Prop) (frames : ℕ → Option ℕ) : Prop where
  kept : ∀ p, kernel p → frames p ≠ none
  user : ∀ p, ¬kernel p → frames p = none
  zero : ∀ f, frames 0 = some f → f = 0

structure TablesInv (kernel : ℕ → Prop) (frames : ℕ → Option ℕ) : Prop where
  kept : ∀ p, kernel p → frames p ≠ none
  injective : ∀ {p q f}, ¬kernel p → ¬kernel q → frames p = some f → frames q = some f → p = q
  zero : ∀ f, frames 0 = some f → f = 0

theorem FreshTables.inv {kernel : ℕ → Prop} {frames : ℕ → Option ℕ}
    (hfresh : FreshTables kernel frames) : TablesInv kernel frames where
  kept := hfresh.kept
  injective hp _ hpf _ := by
    rw [hfresh.user _ hp] at hpf
    cases hpf
  zero := hfresh.zero

section Added

variable {kernel : ℕ → Prop} {before after : ℕ → Option ℕ} {first n p : ℕ} {g : ℕ → ℕ}

theorem PagesAdded.frame_of_mem (hadded : PagesAdded kernel before after first n g)
    (hlo : first ≤ p) (hhi : p < first + n) : after p = some (g (p - first)) := by
  rw [hadded.frame, if_pos ⟨hlo, hhi⟩]

theorem PagesAdded.frame_of_notMem (hadded : PagesAdded kernel before after first n g)
    (hout : ¬(first ≤ p ∧ p < first + n)) : after p = before p := by
  rw [hadded.frame, if_neg hout]

theorem TablesInv.pagesAdded (hinv : TablesInv kernel before)
    (hadded : PagesAdded kernel before after first n g) (hfirst : 0 < first) :
    TablesInv kernel after where
  kept p hp := by
    by_cases hmem : first ≤ p ∧ p < first + n
    · rw [hadded.frame_of_mem hmem.1 hmem.2]
      exact Option.some_ne_none _
    · rw [hadded.frame_of_notMem hmem]
      exact hinv.kept p hp
  injective := by
    intro p q f hp hq hpf hqf
    by_cases hpmem : first ≤ p ∧ p < first + n <;> by_cases hqmem : first ≤ q ∧ q < first + n
    · rw [hadded.frame_of_mem hpmem.1 hpmem.2, Option.some.injEq] at hpf
      rw [hadded.frame_of_mem hqmem.1 hqmem.2, Option.some.injEq] at hqf
      have heq := hadded.injective (p - first) (by omega) (q - first) (by omega)
        (hpf.trans hqf.symm)
      omega
    · rw [hadded.frame_of_mem hpmem.1 hpmem.2, Option.some.injEq] at hpf
      rw [hadded.frame_of_notMem hqmem, ← hpf] at hqf
      exact absurd hqf (hadded.fresh _ (by omega) q hq)
    · rw [hadded.frame_of_mem hqmem.1 hqmem.2, Option.some.injEq] at hqf
      rw [hadded.frame_of_notMem hpmem, ← hqf] at hpf
      exact absurd hpf (hadded.fresh _ (by omega) p hp)
    · rw [hadded.frame_of_notMem hpmem] at hpf
      rw [hadded.frame_of_notMem hqmem] at hqf
      exact hinv.injective hp hq hpf hqf
  zero f hf := by
    rw [hadded.frame_of_notMem (by omega)] at hf
    exact hinv.zero f hf

end Added

/-! ## A table of frames -/

/-- A page table that is its translation, and frames that are handed out one after another. -/
structure FrameTable where
  frames : ℕ → Option ℕ
  next : ℕ
  below : ∀ p f, frames p = some f → f < next

def FrameTable.add (t : FrameTable) (first n : ℕ) : FrameTable where
  frames p := if first ≤ p ∧ p < first + n then some (t.next + (p - first)) else t.frames p
  next := t.next + n
  below p f hf := by
    split at hf
    · cases hf
      omega
    · have hlt := t.below p f hf
      omega

def frameMachine : Machine FrameTable where
  memAlloc t := (true, t)
  pageIncrease t _ := .ok t
  mapPage t v size _ :=
    let first := v.toNat / 4096
    let n := mapCount v size
    if (List.range n).all fun k => (t.frames (first + k)).isNone then .ok (v, t.add first n)
    else .ok (0, t)
  mapPageWithPhy t _ _ _ _ := .ok (0, t)
  unmapPage t _ _ := .ok (.eok, t)

def frameVir2Phy (t : FrameTable) (va : BitVec 64) : Exec (BitVec 64) :=
  match t.frames (va.toNat / 4096) with
  | none => .error .panic
  | some f =>
      if f * 4096 + va.toNat % 4096 < 2 ^ 64 then .ok (BitVec.ofNat 64 (f * 4096 + va.toNat % 4096))
      else .error .panic

theorem frameMachine_pageTables :
    PageTables frameMachine frameVir2Phy FrameTable.frames fun _ => False where
  memAlloc _ := rfl
  translates t va pa hpa := by
    unfold frameVir2Phy at hpa
    split at hpa
    · cases hpa
    · next f hf =>
      split at hpa
      · next hlt =>
        cases hpa
        exact ⟨f, hf, by rw [BitVec.toNat_ofNat, Nat.mod_eq_of_lt hlt]⟩
      · cases hpa
  mapPage := by
    intro t t' v size attr a _ _ hmap hne
    simp only [frameMachine] at hmap
    split at hmap
    · next hfree =>
      cases hmap
      refine ⟨rfl, fun k => t.next + k, fun k hk => ?_, fun p => rfl, fun j _ k _ heq => ?_,
        fun k _ p _ hp => ?_⟩
      · have hnone := List.all_eq_true.mp hfree k (List.mem_range.mpr hk)
        exact Option.isNone_iff_eq_none.mp hnone
      · exact Nat.add_left_cancel heq
      · have hlt := t.below p _ hp
        omega
    · cases hmap
      exact absurd rfl hne

def noFrames : FrameTable where
  frames _ := none
  next := 1
  below _ _ hf := by cases hf

theorem noFrames_fresh : FreshTables (fun _ => False) noFrames.frames where
  kept _ hp := hp.elim
  user _ _ := rfl
  zero _ hf := by cases hf

/-! ## The first pass -/

def phdrsFrom (file : List (BitVec 8)) : ℕ → BitVec 64 → List ElfPhdr
  | 0, _ => []
  | count + 1, off =>
      elfPhdr (vfsRead file off.toNat phdrSize) ::
        phdrsFrom file count (off + BitVec.ofNat 64 phdrSize)

def segmentsOf (phdrs : List ElfPhdr) : List ElfPhdr := phdrs.filter (·.type = ptLoad)

/-- A page of a segment. -/
def ElfPhdr.Covers (ph : ElfPhdr) (p : ℕ) : Prop :=
  ph.vaddr.toNat / 4096 ≤ p ∧
    p < ph.vaddr.toNat / 4096 + mapCount ph.vaddr (pageAlignUp ph.size)

structure SegmentsMapped (before after : ℕ → Option ℕ) (segments : List ElfPhdr) : Prop where
  aligned : ∀ ph ∈ segments, ph.vaddr.toNat % 4096 = 0 ∧ 0 < ph.vaddr.toNat
  nonempty : ∀ ph ∈ segments, ph.size ≠ 0
  free : ∀ ph ∈ segments, ∀ p, ph.Covers p → before p = none
  taken : ∀ ph ∈ segments, ∀ p, ph.Covers p → after p ≠ none
  same : ∀ p, (∀ ph ∈ segments, ¬ph.Covers p) → after p = before p
  disjoint : segments.Pairwise fun ph other => ∀ p, ph.Covers p → ¬other.Covers p

theorem SegmentsMapped.nil (frames : ℕ → Option ℕ) : SegmentsMapped frames frames [] where
  aligned _ hmem := by cases hmem
  nonempty _ hmem := by cases hmem
  free _ hmem := by cases hmem
  taken _ hmem := by cases hmem
  same _ _ := rfl
  disjoint := .nil

theorem SegmentsMapped.cons {kernel : ℕ → Prop} {before between after : ℕ → Option ℕ}
    {segments : List ElfPhdr} {ph : ElfPhdr} {g : ℕ → ℕ}
    (hrest : SegmentsMapped between after segments)
    (hadded : PagesAdded kernel before between (ph.vaddr.toNat / 4096)
      (mapCount ph.vaddr (pageAlignUp ph.size)) g)
    (haligned : ph.vaddr.toNat % 4096 = 0 ∧ 0 < ph.vaddr.toNat) (hnonempty : ph.size ≠ 0) :
    SegmentsMapped before after (ph :: segments) := by
  have hmapped : ∀ p, ph.Covers p → between p ≠ none := fun p hp => by
    rw [hadded.frame_of_mem hp.1 hp.2]
    exact Option.some_ne_none _
  have hdisjoint : ∀ other ∈ segments, ∀ p, ph.Covers p → ¬other.Covers p :=
    fun other hmem p hp hother => hmapped p hp (hrest.free other hmem p hother)
  refine ⟨?_, ?_, ?_, ?_, ?_, List.pairwise_cons.mpr ⟨hdisjoint, hrest.disjoint⟩⟩
  · intro other hmem
    rcases List.mem_cons.mp hmem with rfl | hmem
    · exact haligned
    · exact hrest.aligned other hmem
  · intro other hmem
    rcases List.mem_cons.mp hmem with rfl | hmem
    · exact hnonempty
    · exact hrest.nonempty other hmem
  · intro other hmem p hp
    rcases List.mem_cons.mp hmem with rfl | hmem
    · have hfree := hadded.free (p - other.vaddr.toNat / 4096) (by have := hp.1; have := hp.2; omega)
      rwa [Nat.add_sub_cancel' hp.1] at hfree
    · rw [← hadded.frame_of_notMem fun hcovers => hdisjoint other hmem p hcovers hp]
      exact hrest.free other hmem p hp
  · intro other hmem p hp
    rcases List.mem_cons.mp hmem with rfl | hmem
    · rw [hrest.same p fun later hlater => hdisjoint later hlater p hp]
      exact hmapped p hp
    · exact hrest.taken other hmem p hp
  · intro p hp
    rw [hrest.same p fun other hmem => hp other (List.mem_cons_of_mem _ hmem)]
    exact hadded.frame_of_notMem (hp ph List.mem_cons_self)

structure SpaceKept (s s' : Vmspace) : Prop where
  heapStart : s'.heapStart = s.heapStart
  heapEnd : s'.heapEnd = s.heapEnd

theorem SpaceKept.refl (s : Vmspace) : SpaceKept s s := ⟨rfl, rfl⟩

theorem SpaceKept.trans {s s' s'' : Vmspace} (hkept : SpaceKept s s') (hkept' : SpaceKept s' s'') :
    SpaceKept s s'' :=
  ⟨hkept'.heapStart.trans hkept.heapStart, hkept'.heapEnd.trans hkept.heapEnd⟩

section Pass

variable {μ : Type} {M : Machine μ} {mmuVir2Phy : μ → BitVec 64 → Exec (BitVec 64)}
  {frame : μ → ℕ → Option ℕ} {kernel : ℕ → Prop} {s s' : Vmspace} {m m' : μ}

/-- `NX_VmspaceMap` returns what `NX_MmuMapPage` returns for the page of its address. -/
theorem vmspaceMap_ok {addr size a : BitVec 64}
    (hmap : vmspaceMap M s m addr size pageAttrUser 0 = .ok (.ok a, s', m')) :
    a ≠ 0 ∧ size ≠ 0 ∧ SpaceKept s s' ∧ ∃ v, (addr ≠ 0 → v = addr) ∧
      M.mapPage (M.memAlloc m).2 (pageAlignDown v) (pageAlignUp size) pageAttrUser =
        .ok (a, m') := by
  unfold vmspaceMap vmspaceMapInternal at hmap
  cases haddress : mapAddress s addr size pageAttrUser with
  | error err =>
      rw [haddress] at hmap
      cases hmap
  | ok v =>
      have hv : size ≠ 0 ∧ (addr ≠ 0 → v = addr) := by
        unfold mapAddress at haddress
        split at haddress
        · cases haddress
        · next hargs =>
          refine ⟨fun hsize => hargs (.inl hsize), fun haddr => ?_⟩
          split at haddress
          · cases haddress
          · cases haddress
            rfl
      rw [haddress] at hmap
      simp only at hmap
      split at hmap
      · cases hmap
      · rcases halloc : M.memAlloc m with ⟨_ | _, m₁⟩ <;> rw [halloc] at hmap
        · cases hmap
        · simp only at hmap
          unfold mapInserted mapPages at hmap
          simp only [vmnodeCreate, ne_eq, not_true_eq_false, if_false] at hmap
          obtain ⟨⟨a', m₂⟩, hpage, hmap⟩ := exec_bind_eq_ok_iff.mp hmap
          simp only at hmap
          by_cases hzero : a' = 0
          · rw [if_pos hzero] at hmap
            split at hmap
            · cases hmap
            · cases hmap
          · rw [if_neg hzero] at hmap
            cases hmap
            exact ⟨hzero, hv.1, ⟨rfl, rfl⟩, v, hv.2, hpage⟩

theorem readPhdr_ok {file : List (BitVec 8)} {len off : BitVec 64} {ph : ElfPhdr}
    (hread : readPhdr file len off = .ok ph) :
    ph = elfPhdr (vfsRead file off.toNat phdrSize) := by
  unfold readPhdr at hread
  split at hread
  · cases hread
  · split at hread
    · cases hread
    · simp only at hread
      split at hread
      · cases hread
      · cases hread
        rfl

theorem readPhdr_error_ne {file : List (BitVec 8)} {len off : BitVec 64} {err : NxError}
    (hread : readPhdr file len off = .error err) : err ≠ .eok := by
  rintro rfl
  unfold readPhdr at hread
  split at hread
  · cases hread
  · split at hread
    · cases hread
    · simp only at hread
      split at hread <;> cases hread

theorem segmentsOf_cons_of_ne {ph : ElfPhdr} {phdrs : List ElfPhdr} (htype : ph.type ≠ ptLoad) :
    segmentsOf (ph :: phdrs) = segmentsOf phdrs := by
  simp [segmentsOf, htype]

theorem segmentsOf_cons_of_eq {ph : ElfPhdr} {phdrs : List ElfPhdr} (htype : ph.type = ptLoad) :
    segmentsOf (ph :: phdrs) = ph :: segmentsOf phdrs := by
  simp [segmentsOf, htype]

theorem PageTables.mapSegment (htables : PageTables M mmuVir2Phy frame kernel) {ph : ElfPhdr}
    (hmap : vmspaceMap M s m ph.vaddr ph.size pageAttrUser 0 = .ok (.ok ph.vaddr, s', m')) :
    (ph.vaddr.toNat % 4096 = 0 ∧ 0 < ph.vaddr.toNat) ∧ ph.size ≠ 0 ∧ SpaceKept s s' ∧
    ∃ g, PagesAdded kernel (frame m) (frame m') (ph.vaddr.toNat / 4096)
      (mapCount ph.vaddr (pageAlignUp ph.size)) g := by
  obtain ⟨hne, hnonempty, hkept, v, hv, hpage⟩ := vmspaceMap_ok hmap
  obtain rfl := hv hne
  have hdown := pageAlignDown_aligned ph.vaddr
  have hsize := pageAlignUp_aligned ph.size
  have hpos : 0 < ph.vaddr.toNat := Nat.pos_of_ne_zero fun hzero =>
    hne (BitVec.eq_of_toNat_eq hzero)
  obtain ⟨haddr, g, hadded⟩ := htables.mapPage hdown hsize hpage hne
  rw [← haddr, htables.memAlloc] at hadded
  rw [← haddr] at hdown
  exact ⟨⟨hdown, hpos⟩, hnonempty, hkept, g, hadded⟩

theorem PageTables.mapHeaders (htables : PageTables M mmuVir2Phy frame kernel)
    {file : List (BitVec 8)} {len off : BitVec 64} {count : ℕ}
    (hinv : TablesInv kernel (frame m))
    (hmap : mapHeaders M file len count off s m = .ok (.eok, s', m')) :
    SegmentsMapped (frame m) (frame m') (segmentsOf (phdrsFrom file count off)) ∧
    TablesInv kernel (frame m') ∧ SpaceKept s s' := by
  induction count generalizing off s m with
  | zero =>
      cases hmap
      exact ⟨.nil _, hinv, .refl _⟩
  | succ count ih =>
      rw [Process.mapHeaders] at hmap
      rw [phdrsFrom]
      cases hread : readPhdr file len off with
      | error err =>
          rw [hread] at hmap
          cases hmap
          exact absurd rfl (readPhdr_error_ne hread)
      | ok ph =>
          rw [hread] at hmap
          simp only at hmap
          rw [← readPhdr_ok hread]
          split at hmap
          · next htype =>
            rw [segmentsOf_cons_of_ne htype]
            exact ih hinv hmap
          · next htype =>
            rw [segmentsOf_cons_of_eq (not_not.mp htype)]
            obtain ⟨⟨result, s₁, m₁⟩, hsegment, hmap⟩ := exec_bind_eq_ok_iff.mp hmap
            cases result with
            | error err => cases hmap
            | ok mappedAddr =>
                simp only at hmap
                split at hmap
                · cases hmap
                · next haddr =>
                  rw [not_not] at haddr
                  subst haddr
                  obtain ⟨haligned, hnonempty, hkept, g, hadded⟩ := htables.mapSegment hsegment
                  have hpos : 0 < ph.vaddr.toNat / 4096 := by omega
                  obtain ⟨hrest, hinv', hkept'⟩ := ih (hinv.pagesAdded hadded hpos) hmap
                  exact ⟨hrest.cons hadded haligned hnonempty, hinv', hkept.trans hkept'⟩

end Pass

end Nxos.Process
