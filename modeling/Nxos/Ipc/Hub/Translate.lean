import Nxos.Ipc.Hub.Mdl
import Nxos.Mm.Vmspace.FirstFit

/-!
# Translated buffers

The pages of a buffer go to the free pages of the server's map area in their order, and only
those of the first 32 MB.  The server reads the buffer behind the returned address exactly when
the free pages that were taken are neighbours and the buffer is not longer, or where another
page happens to have the same frame.
-/

namespace Nxos.Ipc

open Nxos.Mm

variable {ι π μ : Type}

/-! ## Page tables -/

/-- The frames of the pages of every process, for the memories that are `good`, below `limit`:
a page is mapped only where there was none, and the translation follows the frames. -/
structure PageTables [DecidableEq π] (H : HubMemory π μ) (good : μ → Prop)
    (frame : μ → π → ℕ → Option ℕ) (limit : ℕ) : Prop where
  memAllocMdl : ∀ {m}, good m → good (H.memAllocMdl m).2 ∧ frame (H.memAllocMdl m).2 = frame m
  memAlloc : ∀ {m} (proc : π), good m →
    good ((H.machine proc).memAlloc m).2 ∧ frame ((H.machine proc).memAlloc m).2 = frame m
  pageIncrease : ∀ {m m' pa} {proc : π}, good m →
    (H.machine proc).pageIncrease m pa = .ok m' → good m' ∧ frame m' = frame m
  mapPageWithPhy : ∀ {m m' v pa a} {source proc : π} {p f : ℕ}, good m → v.toNat % 4096 = 0 →
    v.toNat < limit → frame m source p = some f → pa.toNat = f * 4096 →
    (H.machine proc).mapPageWithPhy m v pa 4096 pageAttrUser = .ok (a, m') → a ≠ 0 →
    good m' ∧ a = v ∧ frame m proc (v.toNat / 4096) = none ∧
      frame m' = Function.update (frame m) proc
        (Function.update (frame m proc) (v.toNat / 4096) (some f))
  mmuVir2Phy : ∀ {m va} {proc : π} {f : ℕ}, good m → va.toNat < limit →
    frame m proc (va.toNat / 4096) = some f →
    ∃ pa, H.mmuVir2Phy proc m va = .ok pa ∧ pa.toNat = f * 4096 + va.toNat % 4096
  mmuVir2Phy_none : ∀ {m va pa} {proc : π}, good m → va.toNat < limit →
    frame m proc (va.toNat / 4096) = none → H.mmuVir2Phy proc m va = .ok pa → pa = 0

structure UserSpace (limit : ℕ) (s : Vmspace) : Prop where
  table : s.table = true
  base_aligned : s.spaceBase.toNat % 4096 = 0
  top_le : s.spaceTop.toNat ≤ limit
  area : MapArea s.spaceBase s.spaceTop s
  nodes : NodesOk s.spaceBase s.spaceTop s.nodes
  aligned : NodesAligned s.nodes

def spaceFrame (s : Vmspace) (frames : ℕ → Option ℕ) (p : ℕ) : Option ℕ :=
  if s.spaceBase.toNat ≤ p * 4096 ∧ p * 4096 < s.spaceTop.toNat then frames p else none

section Space

variable {s : Vmspace} {frames : ℕ → Option ℕ} {p f limit : ℕ}

theorem spaceFrame_eq_some_iff : spaceFrame s frames p = some f ↔
    (s.spaceBase.toNat ≤ p * 4096 ∧ p * 4096 < s.spaceTop.toNat) ∧ frames p = some f := by
  rw [spaceFrame]
  split_ifs with hin
  · exact (and_iff_right hin).symm
  · exact iff_of_false nofun fun h => hin h.1

theorem UserSpace.page_end (hs : UserSpace limit s) (hlt : p * 4096 < s.spaceTop.toNat) :
    (p + 1) * 4096 ≤ s.spaceTop.toNat := by
  have haligned := hs.area.top_aligned
  omega

/-- The first free page of the map area is a page of the space. -/
theorem UserSpace.firstFree_inside (hs : UserSpace limit s) {start : BitVec 64}
    (hfirst : FirstFree s start) :
    start.toNat / 4096 * 4096 = start.toNat ∧ s.spaceBase.toNat ≤ start.toNat ∧
      start.toNat < s.spaceTop.toNat := by
  have haligned := hfirst.aligned
  have hbase := hs.area.base_le.trans hfirst.start_le
  have hend := hfirst.le_end.trans_lt hs.area.end_lt
  exact ⟨by omega, hbase, hend⟩

end Space

section Translation

variable [DecidableEq π] {H : HubMemory π μ} {good : μ → Prop}
  {frame : μ → π → ℕ → Option ℕ} {limit : ℕ}
  {σ : Spaces π μ} {proc : π}

theorem spaceVirToPhy_of_frame (ht : PageTables H good frame limit) (hm : good σ.memory)
    (hs : UserSpace limit (σ.vmspace proc)) (va : BitVec 64) {f : ℕ}
    (hf : spaceFrame (σ.vmspace proc) (frame σ.memory proc) (va.toNat / 4096) = some f) :
    ∃ pa, spaceVirToPhy H proc σ va = .ok pa ∧ pa.toNat = f * 4096 + va.toNat % 4096 := by
  obtain ⟨⟨hlo, hhi⟩, hframe⟩ := spaceFrame_eq_some_iff.mp hf
  have hend := hs.page_end hhi
  have hle := hs.top_le
  have hin : ¬(va < (σ.vmspace proc).spaceBase ∨ (σ.vmspace proc).spaceTop ≤ va) := by
    rw [BitVec.lt_def, BitVec.le_def]
    omega
  rw [spaceVirToPhy, vmspaceVirToPhy, if_neg (by rw [hs.table]; decide), if_neg hin]
  exact ht.mmuVir2Phy hm (by omega) hframe

theorem spaceVirToPhy_eq_ok_iff (ht : PageTables H good frame limit) (hm : good σ.memory)
    (hs : UserSpace limit (σ.vmspace proc)) {va pa : BitVec 64} (hpa : pa ≠ 0) :
    spaceVirToPhy H proc σ va = .ok pa ↔
      ∃ f, spaceFrame (σ.vmspace proc) (frame σ.memory proc) (va.toNat / 4096) = some f ∧
        pa.toNat = f * 4096 + va.toNat % 4096 := by
  constructor
  · intro hrun
    have hbase := hs.base_aligned
    have htop := hs.area.top_aligned
    have hle := hs.top_le
    rw [spaceVirToPhy, vmspaceVirToPhy, if_neg (by rw [hs.table]; decide)] at hrun
    split_ifs at hrun with hin
    · cases hrun
      exact absurd rfl hpa
    · rw [BitVec.lt_def, BitVec.le_def] at hin
      have hlt : va.toNat < limit := by omega
      cases hframe : frame σ.memory proc (va.toNat / 4096) with
      | none => exact absurd (ht.mmuVir2Phy_none hm hlt hframe hrun) hpa
      | some f =>
          obtain ⟨pa', hrun', hpa'⟩ := ht.mmuVir2Phy hm hlt hframe
          rw [hrun] at hrun'
          cases hrun'
          exact ⟨f, spaceFrame_eq_some_iff.mpr ⟨by omega, hframe⟩, hpa'⟩
  · rintro ⟨f, hf, hphys⟩
    obtain ⟨pa', hrun, hpa'⟩ := spaceVirToPhy_of_frame ht hm hs va hf
    have heq : pa' = pa := BitVec.eq_of_toNat_eq (hpa'.trans hphys.symm)
    rw [hrun, heq]

end Translation

/-! ## Bytes and pages -/

/-- Every byte of the buffer has a translation in the space of the source, and the byte behind
`p` in the space of the target has the same. -/
def TranslatesRight (H : HubMemory π μ) (source target : π) (σ : Spaces π μ)
    (addr p size : BitVec 64) : Prop :=
  ∀ j < size.toNat, ∃ pa : BitVec 64, pa ≠ 0 ∧
    spaceVirToPhy H source σ (addr + BitVec.ofNat 64 j) = .ok pa ∧
    spaceVirToPhy H target σ (p + BitVec.ofNat 64 j) = .ok pa

/-- The number of pages of the first `size` bytes of a buffer. -/
def bufferPages (addr : BitVec 64) (size : ℕ) : ℕ :=
  (addr.toNat % 4096 + size + 4095) / 4096

section Bytes

variable [DecidableEq π] {H : HubMemory π μ} {good : μ → Prop}
  {frame : μ → π → ℕ → Option ℕ} {limit : ℕ}
  {σ : Spaces π μ} {source target proc : π} {addr p size : BitVec 64}

/-- Where all bytes behind `p` have a translation, the addresses do not wrap around. -/
theorem add_toNat_of_translated (ht : PageTables H good frame limit) (hm : good σ.memory)
    (hs : UserSpace limit (σ.vmspace proc)) {n j : ℕ}
    (h : ∀ j < n, ∃ pa : BitVec 64, pa ≠ 0 ∧
      spaceVirToPhy H proc σ (p + BitVec.ofNat 64 j) = .ok pa) (hj : j < n) :
    (p + BitVec.ofNat 64 j).toNat = p.toNat + j := by
  have hp := p.isLt
  have hadd : ∀ i, p.toNat + i < 2 ^ 64 → (p + BitVec.ofNat 64 i).toNat = p.toNat + i := by
    intro i hi
    rw [BitVec.toNat_add, BitVec.toNat_ofNat, Nat.mod_eq_of_lt (by omega : i < 2 ^ 64)]
    exact Nat.mod_eq_of_lt hi
  refine hadd j ?_
  by_contra hwrap
  -- the last address of all is in no space
  obtain ⟨pa, hpa, hrun⟩ := h (2 ^ 64 - 1 - p.toNat) (by omega)
  obtain ⟨f, hf, -⟩ := (spaceVirToPhy_eq_ok_iff ht hm hs hpa).mp hrun
  obtain ⟨⟨-, hlt⟩, -⟩ := spaceFrame_eq_some_iff.mp hf
  have hend := hs.page_end hlt
  have htop := (σ.vmspace proc).spaceTop.isLt
  have haligned := hs.area.top_aligned
  rw [hadd _ (by omega)] at hend
  omega

/-- The bytes are right exactly when the pages are. -/
theorem translatesRight_iff_pages (ht : PageTables H good frame limit) (hm : good σ.memory)
    (hsource : UserSpace limit (σ.vmspace source)) (htarget : UserSpace limit (σ.vmspace target))
    (hsize : size ≠ 0) (hoff : p.toNat % 4096 = addr.toNat % 4096)
    (hfirst : spaceFrame (σ.vmspace source) (frame σ.memory source) (addr.toNat / 4096) ≠ some 0) :
    TranslatesRight H source target σ addr p size ↔
      ∀ k < bufferPages addr size.toNat, ∃ f, f ≠ 0 ∧
        spaceFrame (σ.vmspace source) (frame σ.memory source) (addr.toNat / 4096 + k) = some f ∧
        spaceFrame (σ.vmspace target) (frame σ.memory target) (p.toNat / 4096 + k) = some f := by
  have hpos : 0 < size.toNat := Nat.pos_of_ne_zero fun h => hsize (BitVec.eq_of_toNat_eq h)
  constructor
  · intro h k hk
    unfold bufferPages at hk
    -- the first byte of the buffer in the page
    obtain ⟨j, hj, hpage, hzero⟩ : ∃ j < size.toNat,
        (addr.toNat + j) / 4096 = addr.toNat / 4096 + k ∧
          (k = 0 ∨ (addr.toNat + j) % 4096 = 0) := by
      rcases Nat.eq_zero_or_pos k with rfl | hk0
      · exact ⟨0, by omega, by omega, Or.inl rfl⟩
      · exact ⟨k * 4096 - addr.toNat % 4096, by omega, by omega, Or.inr (by omega)⟩
    obtain ⟨pa, hpa, hrun, hrun'⟩ := h j hj
    have haddr := add_toNat_of_translated ht hm hsource
      (fun i hi => (h i hi).imp fun pa hpa => ⟨hpa.1, hpa.2.1⟩) hj
    have hp := add_toNat_of_translated ht hm htarget
      (fun i hi => (h i hi).imp fun pa hpa => ⟨hpa.1, hpa.2.2⟩) hj
    obtain ⟨f, hf, hphys⟩ := (spaceVirToPhy_eq_ok_iff ht hm hsource hpa).mp hrun
    obtain ⟨f', hf', hphys'⟩ := (spaceVirToPhy_eq_ok_iff ht hm htarget hpa).mp hrun'
    rw [haddr, hpage] at hf
    rw [hp, show (p.toNat + j) / 4096 = p.toNat / 4096 + k by omega] at hf'
    rw [haddr] at hphys
    rw [hp] at hphys'
    have hsame : f' = f := by omega
    refine ⟨f, ?_, hf, hsame ▸ hf'⟩
    rintro rfl
    rcases hzero with rfl | hzero
    · exact hfirst hf
    · exact hpa (BitVec.eq_of_toNat_eq (by rw [hphys, hzero]; rfl))
  · intro h j hj
    obtain ⟨f, hne, hf, hf'⟩ := h ((addr.toNat % 4096 + j) / 4096)
      (by unfold bufferPages; omega)
    obtain ⟨⟨-, hlt⟩, -⟩ := spaceFrame_eq_some_iff.mp hf
    obtain ⟨⟨-, hlt'⟩, -⟩ := spaceFrame_eq_some_iff.mp hf'
    have hend := hsource.page_end hlt
    have hend' := htarget.page_end hlt'
    have htop := (σ.vmspace source).spaceTop.isLt
    have htop' := (σ.vmspace target).spaceTop.isLt
    have haddr : (addr + BitVec.ofNat 64 j).toNat = addr.toNat + j := by
      rw [BitVec.toNat_add, BitVec.toNat_ofNat, Nat.mod_eq_of_lt (by omega : j < 2 ^ 64)]
      exact Nat.mod_eq_of_lt (by omega)
    have hp : (p + BitVec.ofNat 64 j).toNat = p.toNat + j := by
      rw [BitVec.toNat_add, BitVec.toNat_ofNat, Nat.mod_eq_of_lt (by omega : j < 2 ^ 64)]
      exact Nat.mod_eq_of_lt (by omega)
    have hpage : (addr.toNat + j) / 4096 = addr.toNat / 4096 + (addr.toNat % 4096 + j) / 4096 := by
      omega
    have hpage' : (p.toNat + j) / 4096 = p.toNat / 4096 + (addr.toNat % 4096 + j) / 4096 := by
      omega
    obtain ⟨pa, hrun, hphys⟩ := spaceVirToPhy_of_frame ht hm hsource
      (addr + BitVec.ofNat 64 j) (by rw [haddr, hpage]; exact hf)
    obtain ⟨pa', hrun', hphys'⟩ := spaceVirToPhy_of_frame ht hm htarget
      (p + BitVec.ofNat 64 j) (by rw [hp, hpage']; exact hf')
    have hsame : pa' = pa := BitVec.eq_of_toNat_eq (by omega)
    refine ⟨pa, ?_, hrun, hsame ▸ hrun'⟩
    rintro rfl
    have hzero : (0 : BitVec 64).toNat = 0 := rfl
    omega

end Bytes

/-! ## One page after the other -/

/-- `c` pages of the buffer, which begins at page `a`, went to the free pages from `q` on and in
front of `stop`, and `nodes` are the nodes of the target now. -/
structure MapProgress [DecidableEq π] (good : μ → Prop) (frame : μ → π → ℕ → Option ℕ)
    (source target : π) (σ₀ : Spaces π μ) (a q c stop : ℕ) (nodes : List Vmnode)
    (σ : Spaces π μ) : Prop where
  vmspace : σ.vmspace =
    Function.update σ₀.vmspace target { σ₀.vmspace target with nodes := nodes }
  nodes_ok : NodesOk (σ₀.vmspace target).spaceBase (σ₀.vmspace target).spaceTop nodes
  aligned : NodesAligned nodes
  le : q ≤ stop
  rank : freeRank (σ₀.vmspace target).nodes q stop = c
  free : ∀ p, PageFree nodes p ↔
    PageFree (σ₀.vmspace target).nodes p ∧ ¬(q ≤ p ∧ p < stop)
  good : good σ.memory
  others : ∀ proc, proc ≠ target → frame σ.memory proc = frame σ₀.memory proc
  taken : ∀ p, q ≤ p → p < stop → PageFree (σ₀.vmspace target).nodes p →
    frame σ₀.memory target p = none ∧ frame σ.memory target p =
      frame σ₀.memory source (a + freeRank (σ₀.vmspace target).nodes q p)
  kept : ∀ p, ¬(q ≤ p ∧ p < stop ∧ PageFree (σ₀.vmspace target).nodes p) →
    frame σ.memory target p = frame σ₀.memory target p

section Progress

variable [DecidableEq π] {H : HubMemory π μ} {good : μ → Prop}
  {frame : μ → π → ℕ → Option ℕ} {limit : ℕ}
  {source target proc : π} {σ₀ σ : Spaces π μ} {a q c stop : ℕ} {nodes : List Vmnode}

theorem MapProgress.zero (hm : good σ₀.memory) (hs : UserSpace limit (σ₀.vmspace target)) :
    MapProgress good frame source target σ₀ a q 0 q (σ₀.vmspace target).nodes σ₀ where
  vmspace := (Function.update_eq_self target σ₀.vmspace).symm
  nodes_ok := hs.nodes
  aligned := hs.aligned
  le := le_refl q
  rank := freeRank_self
  free p := (and_iff_left (by omega)).symm
  good := hm
  others _ _ := rfl
  taken p hlo hhi := absurd hhi (by omega)
  kept _ _ := rfl

namespace MapProgress

variable (h : MapProgress good frame source target σ₀ a q c stop nodes σ)
include h

theorem vmspace_target : σ.vmspace target = { σ₀.vmspace target with nodes := nodes } := by
  rw [h.vmspace, Function.update_self]

theorem userSpace_target (hs : UserSpace limit (σ₀.vmspace target)) :
    UserSpace limit (σ.vmspace target) := by
  rw [h.vmspace_target]
  exact ⟨hs.table, hs.base_aligned, hs.top_le, { hs.area with }, h.nodes_ok, h.aligned⟩

theorem userSpace (hs : UserSpace limit (σ₀.vmspace proc))
    (htarget : UserSpace limit (σ₀.vmspace target)) : UserSpace limit (σ.vmspace proc) := by
  by_cases hproc : proc = target
  · rw [hproc]
    exact h.userSpace_target htarget
  · rw [h.vmspace, Function.update_of_ne hproc]
    exact hs

theorem spaceFrame_eq (frames : ℕ → Option ℕ) (p : ℕ) :
    spaceFrame (σ.vmspace proc) frames p = spaceFrame (σ₀.vmspace proc) frames p := by
  by_cases hproc : proc = target
  · subst hproc
    rw [h.vmspace_target]
    rfl
  · rw [h.vmspace, Function.update_of_ne hproc]

theorem frame_of_some {p f : ℕ} (hf : frame σ₀.memory proc p = some f) :
    frame σ.memory proc p = some f := by
  by_cases hproc : proc = target
  · subst hproc
    rw [h.kept, hf]
    rintro ⟨hlo, hhi, hfree⟩
    rw [(h.taken p hlo hhi hfree).1] at hf
    cases hf
  · rw [h.others proc hproc, hf]

/-- The page that is mapped next: the pages in front of it are taken or were never free. -/
theorem next_page {first start : BitVec 64}
    (hfirst : FirstFree (σ₀.vmspace target) first) (hq : q = first.toNat / 4096)
    (hstart : FirstFree (σ.vmspace target) start) :
    stop ≤ start.toNat / 4096 ∧ PageFree (σ₀.vmspace target).nodes (start.toNat / 4096) ∧
      ∀ p, stop ≤ p → p < start.toNat / 4096 → ¬PageFree (σ₀.vmspace target).nodes p := by
  have hspace := h.vmspace_target
  have hfree : PageFree nodes (start.toNat / 4096) := by
    have hfree := hstart.free
    rw [hspace] at hfree
    exact hfree
  have hmap : (σ.vmspace target).mapStart = (σ₀.vmspace target).mapStart := by
    rw [hspace]
  obtain ⟨hfree₀, hout⟩ := (h.free _).mp hfree
  have hle : q ≤ start.toNat / 4096 := by
    by_contra hlt
    have hlow := hstart.start_le
    have haligned := hstart.aligned
    rw [hmap] at hlow
    exact hfirst.first _ (by omega) (by omega) hfree₀
  have hstop : stop ≤ start.toNat / 4096 := by omega
  refine ⟨hstop, hfree₀, ?_⟩
  intro x hlo hhi hx
  have hlow := hfirst.start_le
  have haligned := hfirst.aligned
  have hq_le := h.le
  have hnotFree := hstart.first x (by rw [hmap]; omega) hhi
  rw [hspace] at hnotFree
  exact hnotFree ((h.free x).mpr ⟨hx, by omega⟩)

theorem phyAddr_toNat (ht : PageTables H good frame limit)
    (hsource : UserSpace limit (σ₀.vmspace source)) (htarget : UserSpace limit (σ₀.vmspace target))
    {f : ℕ} (hf : spaceFrame (σ₀.vmspace source) (frame σ₀.memory source) (a + c) = some f)
    {virAddr phyAddr : BitVec 64} (hvir : virAddr.toNat = (a + c) * 4096) (hphy : phyAddr ≠ 0)
    (htranslate : spaceVirToPhy H source σ virAddr = .ok phyAddr) :
    phyAddr.toNat = f * 4096 := by
  obtain ⟨f', hf', hphys⟩ := (spaceVirToPhy_eq_ok_iff ht h.good (h.userSpace hsource htarget)
    hphy).mp htranslate
  rw [hvir, Nat.mul_div_cancel _ (by decide)] at hf'
  rw [h.spaceFrame_eq] at hf'
  obtain ⟨hin, hframe⟩ := spaceFrame_eq_some_iff.mp hf
  have hsame := (spaceFrame_eq_some_iff.mp hf').2
  rw [h.frame_of_some hframe] at hsame
  cases hsame
  rw [hphys, hvir, Nat.mul_mod_left, Nat.add_zero]

/-- The next page of the buffer goes to the first page that is free now. -/
theorem addPage (htarget : UserSpace limit (σ₀.vmspace target)) {first start : BitVec 64}
    (hfirst : FirstFree (σ₀.vmspace target) first) (hq : q = first.toNat / 4096)
    (hstart : FirstFree (σ.vmspace target) start)
    (hrank : freeRank (σ₀.vmspace target).nodes q (start.toNat / 4096) = c) {m : μ} (hm : good m)
    (hnone : frame σ.memory target (start.toNat / 4096) = none)
    (hframe : frame m = Function.update (frame σ.memory) target
      (Function.update (frame σ.memory target) (start.toNat / 4096)
        (frame σ₀.memory source (a + c)))) :
    MapProgress good frame source target σ₀ a q (c + 1) (start.toNat / 4096 + 1)
      (mappedNodes (σ.vmspace target) 4096 pageAttrUser 0 start)
      (σ.write target { σ.vmspace target with
        nodes := mappedNodes (σ.vmspace target) 4096 pageAttrUser 0 start } m) := by
  have hspace := h.userSpace_target htarget
  obtain ⟨hstop, hfree, hpassed⟩ := h.next_page hfirst hq hstart
  obtain ⟨hnodes, haligned, hfreeNow⟩ :=
    hstart.mappedNodes hspace.area hspace.nodes hspace.aligned pageAttrUser 0
  have hbounds := h.vmspace_target
  have hle := h.le
  constructor
  · change Function.update σ.vmspace target _ = _
    rw [h.vmspace, Function.update_idem, Function.update_self]
  · rw [hbounds] at hnodes ⊢
    exact hnodes
  · exact haligned
  · omega
  · rw [freeRank_succ (by omega) hfree, hrank]
  · intro p
    rw [hfreeNow, hbounds, h.free]
    constructor
    · rintro ⟨⟨hp, hout⟩, hne⟩
      refine ⟨hp, fun hin => hpassed p ?_ ?_ hp⟩ <;> omega
    · rintro ⟨hp, hout⟩
      exact ⟨⟨hp, by omega⟩, by omega⟩
  · exact hm
  · intro proc hproc
    change frame m proc = _
    rw [hframe, Function.update_of_ne hproc, h.others proc hproc]
  · intro p hlo hhi hp
    change _ ∧ frame m target p = _
    rw [hframe, Function.update_self]
    by_cases heq : p = start.toNat / 4096
    · subst heq
      rw [Function.update_self, hrank, ← hnone]
      exact ⟨(h.kept _ (by omega)).symm, rfl⟩
    · rw [Function.update_of_ne heq]
      refine h.taken p hlo ?_ hp
      by_contra hout
      exact hpassed p (by omega) (by omega) hp
  · intro p hp
    change frame m target p = _
    have hpage : p ≠ start.toNat / 4096 := by
      rintro rfl
      exact hp ⟨by omega, by omega, hfree⟩
    rw [hframe, Function.update_self, Function.update_of_ne hpage]
    exact h.kept p fun hin => hp ⟨hin.1, by omega, hin.2.2⟩

theorem step (ht : PageTables H good frame limit) (hsource : UserSpace limit (σ₀.vmspace source))
    (htarget : UserSpace limit (σ₀.vmspace target)) {first : BitVec 64}
    (hfirst : FirstFree (σ₀.vmspace target) first) (hq : q = first.toNat / 4096) {f : ℕ}
    (hf : spaceFrame (σ₀.vmspace source) (frame σ₀.memory source) (a + c) = some f)
    {virAddr phyAddr mapAddr : BitVec 64} (hvir : virAddr.toNat = (a + c) * 4096)
    (hphy : phyAddr ≠ 0) (htranslate : spaceVirToPhy H source σ virAddr = .ok phyAddr)
    {s : Vmspace} {m : μ}
    (hrun : vmspaceMapWithPhy (H.machine target) (σ.vmspace target) σ.memory 0 phyAddr 4096
      pageAttrUser 0 = .ok (.ok mapAddr, s, m)) :
    (∃ stop' nodes', MapProgress good frame source target σ₀ a q (c + 1) stop' nodes'
      (σ.write target s m)) ∧ mapAddr ≠ 0 ∧ (c = 0 → mapAddr = first) := by
  have hspace := h.userSpace_target htarget
  obtain ⟨start, hstart, hmap, hne, rfl⟩ :=
    vmspaceMapWithPhy_firstFree hspace.area hspace.nodes hspace.aligned hrun
  obtain ⟨hstop, hfree, hpassed⟩ := h.next_page hfirst hq hstart
  have hrank : freeRank (σ₀.vmspace target).nodes q (start.toNat / 4096) = c := by
    rw [freeRank_eq_of_not_free h.le hstop hpassed, h.rank]
  obtain ⟨hpage, -, htop⟩ := hspace.firstFree_inside hstart
  have hphyFrame := h.phyAddr_toNat ht hsource htarget hf hvir hphy htranslate
  have hf₀ : frame σ₀.memory source (a + c) = some f := (spaceFrame_eq_some_iff.mp hf).2
  obtain ⟨hm₁, hframe₁⟩ := ht.memAlloc target h.good
  unfold mapPages at hmap
  rw [if_pos hphy] at hmap
  obtain ⟨m₂, hincrease, hmap⟩ := exec_bind_eq_ok_iff.mp hmap
  obtain ⟨hm₂, hframe₂⟩ := ht.pageIncrease hm₁ hincrease
  have hsourceFrame : frame m₂ source (a + c) = some f := by
    rw [hframe₂, hframe₁]
    exact h.frame_of_some hf₀
  obtain ⟨hm, hmapAddr, hnone, hframe⟩ := ht.mapPageWithPhy hm₂ hstart.aligned
    (htop.trans_le hspace.top_le) hsourceFrame hphyFrame hmap hne
  rw [hframe₂, hframe₁] at hnone hframe
  rw [← hf₀] at hframe
  refine ⟨⟨_, _, h.addPage htarget hfirst hq hstart hrank hm hnone hframe⟩, hne, ?_⟩
  intro hc
  have heq : start.toNat / 4096 = q := by
    have hle := h.le
    by_contra hlt
    have hbefore := freeRank_lt (le_refl q) (hq ▸ hfirst.free)
      (show q < start.toNat / 4096 by omega)
    omega
  have hfirstAligned := hfirst.aligned
  rw [hmapAddr]
  exact BitVec.eq_of_toNat_eq (by omega)

end MapProgress

theorem UserSpace.next_toNat {s : Vmspace} (hs : UserSpace limit s) {virAddr : BitVec 64} {p : ℕ}
    (hvir : virAddr.toNat = p * 4096) (hlt : p * 4096 < s.spaceTop.toNat) :
    (virAddr + 4096).toNat = (p + 1) * 4096 := by
  have hend := hs.page_end hlt
  have htop := s.spaceTop.isLt
  have hpage : (4096 : BitVec 64).toNat = 4096 := rfl
  rw [BitVec.toNat_add_of_lt (by omega), hvir, hpage]
  omega

/-- The first loop of `MapMdl` makes sure that all pages have frames. -/
theorem checkMdlPages_frames (ht : PageTables H good frame limit) (hm : good σ.memory)
    (hs : UserSpace limit (σ.vmspace source)) {pages : ℕ} {virAddr : BitVec 64} {p : ℕ}
    (hvir : virAddr.toNat = p * 4096)
    (hrun : checkMdlPages H source σ pages virAddr = .ok true) :
    ∀ k < pages, ∃ f, f ≠ 0 ∧
      spaceFrame (σ.vmspace source) (frame σ.memory source) (p + k) = some f := by
  induction pages generalizing virAddr p with
  | zero =>
      intro k hk
      exact absurd hk (Nat.not_lt_zero k)
  | succ pages ih =>
      obtain ⟨phyAddr, htranslate, hrun⟩ := exec_bind_eq_ok_iff.mp hrun
      by_cases hphy : phyAddr = 0
      · rw [if_pos hphy] at hrun
        cases hrun
      · rw [if_neg hphy] at hrun
        obtain ⟨f, hf, hphys⟩ := (spaceVirToPhy_eq_ok_iff ht hm hs hphy).mp htranslate
        rw [hvir, Nat.mul_div_cancel _ (by decide)] at hf
        rw [hvir, Nat.mul_mod_left] at hphys
        have hnext := hs.next_toNat hvir (spaceFrame_eq_some_iff.mp hf).1.2
        rintro (_ | k) hk
        · refine ⟨f, ?_, hf⟩
          rintro rfl
          exact hphy (BitVec.eq_of_toNat_eq hphys)
        · have hrest := ih hnext hrun k (by omega)
          rw [Nat.add_assoc, Nat.add_comm 1 k] at hrest
          exact hrest

/-- A round of the second loop that does not fail has mapped its page. -/
theorem mapMdlPages_succ {pages : ℕ} {count virAddr : BitVec 64} {mdl mdl' : HubMdl π}
    {σ' : Spaces π μ}
    (hrun : mapMdlPages H source target (pages + 1) count virAddr mdl σ = .ok (some mdl', σ')) :
    ∃ phyAddr mapAddr s m, phyAddr ≠ 0 ∧ spaceVirToPhy H source σ virAddr = .ok phyAddr ∧
      vmspaceMapWithPhy (H.machine target) (σ.vmspace target) σ.memory 0 phyAddr 4096
        pageAttrUser 0 = .ok (.ok mapAddr, s, m) ∧
      mapMdlPages H source target pages (count + 1) (virAddr + 4096)
        (if mdl.mappedAddr = 0 then { mdl with mappedAddr := mapAddr } else mdl)
        (σ.write target s m) = .ok (some mdl', σ') := by
  obtain ⟨phyAddr, htranslate, hrun⟩ := exec_bind_eq_ok_iff.mp hrun
  obtain ⟨_, hassert, hrun⟩ := exec_bind_eq_ok_iff.mp hrun
  obtain ⟨⟨mapped, s, m⟩, hmap, hrun⟩ := exec_bind_eq_ok_iff.mp hrun
  cases mapped with
  | error err =>
      dsimp only at hrun
      split_ifs at hrun
      · obtain ⟨_, _, hrun⟩ := exec_bind_eq_ok_iff.mp hrun
        cases hrun
      · cases hrun
  | ok mapAddr =>
      exact ⟨phyAddr, mapAddr, s, m, nxAssert_eq_ok_iff.mp hassert, htranslate, hmap, hrun⟩

/-- The second loop of `MapMdl` maps the rest of the pages. -/
theorem MapProgress.mapMdlPages (ht : PageTables H good frame limit)
    (hsource : UserSpace limit (σ₀.vmspace source)) (htarget : UserSpace limit (σ₀.vmspace target))
    {first : BitVec 64} (hfirst : FirstFree (σ₀.vmspace target) first)
    (hq : q = first.toNat / 4096) {pages : ℕ}
    (hframes : ∀ k < c + pages, ∃ f,
      spaceFrame (σ₀.vmspace source) (frame σ₀.memory source) (a + k) = some f)
    (h : MapProgress good frame source target σ₀ a q c stop nodes σ)
    {virAddr count : BitVec 64} (hvir : virAddr.toNat = (a + c) * 4096) {mdl mdl' : HubMdl π}
    (hzero : c ≠ 0 → first ≠ 0) (hmapped : mdl.mappedAddr = if c = 0 then 0 else first)
    {σ' : Spaces π μ}
    (hrun : mapMdlPages H source target pages count virAddr mdl σ = .ok (some mdl', σ')) :
    (∃ stop' nodes', MapProgress good frame source target σ₀ a q (c + pages) stop' nodes' σ') ∧
      mdl' = { mdl with mappedAddr := if c + pages = 0 then 0 else first } := by
  induction pages generalizing c stop nodes σ virAddr count mdl with
  | zero =>
      cases hrun
      refine ⟨⟨stop, nodes, h⟩, ?_⟩
      rw [Nat.add_zero, ← hmapped]
  | succ pages ih =>
      obtain ⟨phyAddr, mapAddr, s, m, hphy, htranslate, hmap, hrun⟩ := mapMdlPages_succ hrun
      obtain ⟨f, hf⟩ := hframes c (by omega)
      obtain ⟨⟨stop', nodes', hstep⟩, hne, hmapAddr⟩ :=
        h.step ht hsource htarget hfirst hq hf hvir hphy htranslate hmap
      have hnext := hsource.next_toNat hvir (spaceFrame_eq_some_iff.mp hf).1.2
      have hfirstNe : first ≠ 0 := by
        by_cases hc : c = 0
        · rw [← hmapAddr hc]
          exact hne
        · exact hzero hc
      have hmdl : (if mdl.mappedAddr = 0 then { mdl with mappedAddr := mapAddr } else mdl) =
          { mdl with mappedAddr := first } := by
        by_cases hc : c = 0
        · rw [if_pos (by rw [hmapped, if_pos hc]), hmapAddr hc]
        · rw [if_neg hc] at hmapped
          rw [if_neg (by rw [hmapped]; exact hfirstNe), ← hmapped]
      rw [hmdl] at hrun
      have hcount : c + 1 + pages = c + (pages + 1) := by omega
      have hrest := ih (by rw [hcount]; exact hframes) hstep hnext (fun _ => hfirstNe)
        (if_neg (Nat.succ_ne_zero c)).symm hrun
      rw [hcount] at hrest
      exact hrest

theorem mapMdlPages_firstFree (hs : UserSpace limit (σ.vmspace target)) {pages : ℕ}
    {count virAddr : BitVec 64} {mdl mdl' : HubMdl π} {σ' : Spaces π μ}
    (hrun : mapMdlPages H source target (pages + 1) count virAddr mdl σ = .ok (some mdl', σ')) :
    ∃ first, FirstFree (σ.vmspace target) first := by
  obtain ⟨phyAddr, mapAddr, s, m, -, -, hmap, -⟩ := mapMdlPages_succ hrun
  obtain ⟨first, hfirst, -⟩ := vmspaceMapWithPhy_firstFree hs.area hs.nodes hs.aligned hmap
  exact ⟨first, hfirst⟩

end Progress

/-! ## The description of a buffer -/

section Description

variable (addr size : BitVec 64) (target : π)

/-- The number of pages that are mapped: those of the first 32 MB. -/
def mappedPages : ℕ :=
  bufferPages addr (min size.toNat hubMdlLenMax.toNat)

theorem createMdl_startAddr :
    (createMdl addr size target).startAddr.toNat = addr.toNat / 4096 * 4096 :=
  pageAlignDown_toNat addr

theorem createMdl_byteOffset :
    (createMdl addr size target).byteOffset.toNat = addr.toNat % 4096 := by
  have hle : pageAlignDown addr ≤ addr := by
    rw [BitVec.le_def, pageAlignDown_toNat]
    omega
  change (addr - pageAlignDown addr).toNat = _
  rw [BitVec.toNat_sub_of_le hle, pageAlignDown_toNat]
  omega

theorem createMdl_byteCount :
    (createMdl addr size target).byteCount.toNat = min size.toNat hubMdlLenMax.toNat := by
  unfold createMdl
  dsimp only
  split_ifs with hlarge
  · exact (Nat.min_eq_right (Nat.le_of_lt hlarge)).symm
  · exact (Nat.min_eq_left (Nat.le_of_not_lt hlarge)).symm

theorem createMdl_pageCount :
    (createMdl addr size target).pageCount = mappedPages addr size := by
  have hoffset := createMdl_byteOffset addr size target
  have hcount := createMdl_byteCount addr size target
  have hmax : hubMdlLenMax.toNat = 0x2000000 := rfl
  have hround : (4096 - 1 : BitVec 64).toNat = 4095 := rfl
  have hpage : (4096 : BitVec 64).toNat = 4096 := rfl
  rw [HubMdl.pageCount, BitVec.toNat_udiv, BitVec.toNat_add_of_lt, BitVec.toNat_add_of_lt, hoffset,
    hcount, hround, hpage, mappedPages, bufferPages]
  · omega
  · rw [BitVec.toNat_add_of_lt] <;> omega

end Description

/-! ## What the server reads -/

/-- The frame at page `p` of the target, after `n` pages of the buffer that begins at page `a`
went to the free pages from `q` on. -/
def mappedFrame (frames : π → ℕ → Option ℕ) (source target : π) (nodes : List Vmnode)
    (a q n p : ℕ) : Option ℕ :=
  if q ≤ p ∧ PageFree nodes p ∧ freeRank nodes q p < n
  then frames source (a + freeRank nodes q p)
  else frames target p

def mapAreaPage (s : Vmspace) : ℕ :=
  ((getAddrFromMapArea s 4096).getD 0).toNat / 4096

section Fits

variable [DecidableEq π] (σ : Spaces π μ) (frames : π → ℕ → Option ℕ) (source target : π)
  (addr size : BitVec 64)

def framesAfter (proc : π) (p : ℕ) : Option ℕ :=
  if proc = target
  then mappedFrame frames source target (σ.vmspace target).nodes (addr.toNat / 4096)
    (mapAreaPage (σ.vmspace target)) (mappedPages addr size) p
  else frames proc p

/-- Page `k` of the buffer is among the mapped pages, and the free pages up to it are
neighbours. -/
def PageInPlace (k : ℕ) : Prop :=
  k < mappedPages addr size ∧
    ∀ i ≤ k, PageFree (σ.vmspace target).nodes (mapAreaPage (σ.vmspace target) + i)

/-- The page at the place of page `k` of the buffer has the same frame. -/
def SameFrame (k : ℕ) : Prop :=
  ∃ f, f ≠ 0 ∧
    spaceFrame (σ.vmspace source) (framesAfter σ frames source target addr size source)
      (addr.toNat / 4096 + k) = some f ∧
    spaceFrame (σ.vmspace target) (framesAfter σ frames source target addr size target)
      (mapAreaPage (σ.vmspace target) + k) = some f

/-- Every page of the buffer is in its place, or another page with its frame is. -/
def BufferFits : Prop :=
  ∀ k < bufferPages addr size.toNat,
    PageInPlace σ target addr size k ∨ SameFrame σ frames source target addr size k

variable {σ frames source target addr size}

/-- Where no two pages share a frame, a buffer fits exactly when all of its pages are mapped,
and to neighbours. -/
theorem bufferFits_iff_inPlace (hne : source ≠ target)
    (hdistinct : ∀ k < bufferPages addr size.toNat, ∀ k' < bufferPages addr size.toNat, ∀ f,
      frames source (addr.toNat / 4096 + k) = some f →
      frames source (addr.toNat / 4096 + k') = some f → k = k')
    (hapart : ∀ k < bufferPages addr size.toNat, ∀ f,
      frames source (addr.toNat / 4096 + k) = some f → ∀ p, frames target p ≠ some f) :
    BufferFits σ frames source target addr size ↔
      ∀ k < bufferPages addr size.toNat, PageInPlace σ target addr size k := by
  have hle : mappedPages addr size ≤ bufferPages addr size.toNat :=
    Nat.div_le_div_right (by omega)
  refine ⟨fun h k hk => (h k hk).elim id ?_, fun h k hk => Or.inl (h k hk)⟩
  rintro ⟨f, -, hsource, htarget⟩
  have hf := (spaceFrame_eq_some_iff.mp hsource).2
  have hf' := (spaceFrame_eq_some_iff.mp htarget).2
  rw [framesAfter, if_neg hne] at hf
  rw [framesAfter, if_pos rfl, mappedFrame] at hf'
  split_ifs at hf' with hmapped
  · -- the frame is the one of page `k` only where all pages in front are free
    obtain ⟨hlo, hfree, hlt⟩ := hmapped
    have hrank := hdistinct _ (hlt.trans_le hle) k hk f hf' hf
    refine ⟨hrank ▸ hlt, fun i hi => ?_⟩
    rcases Nat.lt_or_eq_of_le hi with hi | rfl
    · exact freeRank_eq_iff.mp hrank i hi
    · exact hfree
  · exact absurd hf' (hapart k hk f hf _)

end Fits

section Right

variable [DecidableEq π] {H : HubMemory π μ} {good : μ → Prop} {frame : μ → π → ℕ → Option ℕ}
  {limit : ℕ} {source target : π} {σ σ' : Spaces π μ} {addr size p : BitVec 64}

theorem mappedPages_pos (hsize : size ≠ 0) : 0 < mappedPages addr size := by
  have hpos : 0 < size.toNat := Nat.pos_of_ne_zero fun h => hsize (BitVec.eq_of_toNat_eq h)
  have hmax : hubMdlLenMax.toNat = 0x2000000 := rfl
  unfold mappedPages bufferPages
  omega

/-- The second loop of `MapMdl` maps its pages from the first free page on. -/
theorem mapMdlPages_progress (ht : PageTables H good frame limit) (hm : good σ.memory)
    (hsource : UserSpace limit (σ.vmspace source)) (htarget : UserSpace limit (σ.vmspace target))
    {k : ℕ} (hk : k ≠ 0)
    (hframes : ∀ i < k, ∃ f,
      spaceFrame (σ.vmspace source) (frame σ.memory source) (addr.toNat / 4096 + i) = some f)
    {mdl : HubMdl π}
    (hrun : mapMdlPages H source target k 0 (createMdl addr size target).startAddr
      (createMdl addr size target) σ = .ok (some mdl, σ')) :
    ∃ first, FirstFree (σ.vmspace target) first ∧ first ≠ 0 ∧
      mapAreaPage (σ.vmspace target) = first.toNat / 4096 ∧
      mdl = { createMdl addr size target with mappedAddr := first } ∧
      ∃ stop nodes, MapProgress good frame source target σ (addr.toNat / 4096)
        (mapAreaPage (σ.vmspace target)) k stop nodes σ' := by
  obtain ⟨pages, rfl⟩ := Nat.exists_eq_succ_of_ne_zero hk
  obtain ⟨first, hfirst⟩ := mapMdlPages_firstFree htarget hrun
  have hpage : mapAreaPage (σ.vmspace target) = first.toNat / 4096 := by
    rw [mapAreaPage, hfirst.search, Option.getD_some]
  have hstart := createMdl_startAddr addr size target
  have hzero : MapProgress good frame source target σ (addr.toNat / 4096)
      (mapAreaPage (σ.vmspace target)) 0 (mapAreaPage (σ.vmspace target))
      (σ.vmspace target).nodes σ := .zero hm htarget
  obtain ⟨hprogress, hmdl⟩ := hzero.mapMdlPages ht hsource htarget hfirst hpage
    (fun k hk => hframes k (by omega)) hstart (absurd rfl) rfl hrun
  have hne : first ≠ 0 := by
    obtain ⟨phyAddr, mapAddr, s, m, hphy, htranslate, hmap, -⟩ := mapMdlPages_succ hrun
    obtain ⟨f, hf⟩ := hframes 0 (Nat.succ_pos pages)
    obtain ⟨-, hne, heq⟩ :=
      hzero.step ht hsource htarget hfirst hpage hf hstart hphy htranslate hmap
    exact heq rfl ▸ hne
  rw [Nat.zero_add] at hprogress
  exact ⟨first, hfirst, hne, hpage, hmdl, hprogress⟩

/-- `MapMdl` maps the pages of the buffer from the first free page on. -/
theorem mapMdl_progress (ht : PageTables H good frame limit) (hm : good σ.memory)
    (hsource : UserSpace limit (σ.vmspace source)) (htarget : UserSpace limit (σ.vmspace target))
    (hsize : size ≠ 0) {mdl : HubMdl π}
    (hrun : mapMdl H (createMdl addr size target) source target σ = .ok (p, mdl, σ'))
    (hp : p ≠ 0) :
    p.toNat = mapAreaPage (σ.vmspace target) * 4096 + addr.toNat % 4096 ∧
      (∀ k < mappedPages addr size, ∃ f, f ≠ 0 ∧
        spaceFrame (σ.vmspace source) (frame σ.memory source) (addr.toNat / 4096 + k) = some f) ∧
      ∃ stop nodes, MapProgress good frame source target σ (addr.toNat / 4096)
        (mapAreaPage (σ.vmspace target)) (mappedPages addr size) stop nodes σ' := by
  obtain ⟨checked, hcheck, hrun⟩ := exec_bind_eq_ok_iff.mp hrun
  rw [createMdl_pageCount] at hcheck hrun
  cases checked with
  | false =>
      cases hrun
      exact absurd rfl hp
  | true =>
      have hframes := checkMdlPages_frames ht hm hsource (createMdl_startAddr addr size target)
        hcheck
      obtain ⟨⟨mapped, σ₁⟩, hmap, hrun⟩ := exec_bind_eq_ok_iff.mp hrun
      cases mapped with
      | none =>
          cases hrun
          exact absurd rfl hp
      | some mdl' =>
          obtain ⟨_, -, hrun⟩ := exec_bind_eq_ok_iff.mp hrun
          cases hrun
          obtain ⟨first, hfirst, -, hpage, rfl, hprogress⟩ := mapMdlPages_progress ht hm hsource
            htarget (mappedPages_pos hsize).ne' (fun k hk => (hframes k hk).imp fun f hf => hf.2)
            hmap
          refine ⟨?_, hframes, hprogress⟩
          have hoffset := createMdl_byteOffset addr size target
          have haligned := hfirst.aligned
          have hlt := first.isLt
          change (first + (createMdl addr size target).byteOffset).toNat = _
          rw [BitVec.toNat_add_of_lt (by omega), hoffset, hpage]
          omega

theorem MapProgress.frame_eq {stop : ℕ} {nodes : List Vmnode}
    (h : MapProgress good frame source target σ (addr.toNat / 4096)
      (mapAreaPage (σ.vmspace target)) (mappedPages addr size) stop nodes σ') (proc : π) :
    frame σ'.memory proc = framesAfter σ (frame σ.memory) source target addr size proc := by
  funext page
  rw [framesAfter]
  split_ifs with hproc
  · subst hproc
    have hrank : mapAreaPage (σ.vmspace proc) ≤ page → PageFree (σ.vmspace proc).nodes page →
        (freeRank (σ.vmspace proc).nodes (mapAreaPage (σ.vmspace proc)) page <
          mappedPages addr size ↔ page < stop) := by
      intro hlo hfree
      rw [← h.rank]
      refine ⟨fun hlt => ?_, freeRank_lt hlo hfree⟩
      by_contra hle
      exact absurd (freeRank_mono (Nat.le_of_not_lt hle)) (Nat.not_le.mpr hlt)
    rw [mappedFrame]
    split_ifs with hmapped
    · obtain ⟨hlo, hfree, hlt⟩ := hmapped
      exact (h.taken page hlo ((hrank hlo hfree).mp hlt) hfree).2
    · exact h.kept page fun hin => hmapped ⟨hin.1, hin.2.2, (hrank hin.1 hin.2.2).mpr hin.2.1⟩
  · rw [h.others proc hproc]

theorem MapProgress.sameFrame {stop : ℕ} {nodes : List Vmnode}
    (h : MapProgress good frame source target σ (addr.toNat / 4096)
      (mapAreaPage (σ.vmspace target)) (mappedPages addr size) stop nodes σ')
    (hframes : ∀ k < mappedPages addr size, ∃ f, f ≠ 0 ∧
      spaceFrame (σ.vmspace source) (frame σ.memory source) (addr.toNat / 4096 + k) = some f)
    {k : ℕ} (hk : PageInPlace σ target addr size k) :
    SameFrame σ (frame σ.memory) source target addr size k := by
  obtain ⟨hlt, hfree⟩ := hk
  obtain ⟨f, hne, hf⟩ := hframes k hlt
  obtain ⟨hin, hframe⟩ := spaceFrame_eq_some_iff.mp hf
  have hrank := freeRank_eq_iff.mpr fun i (hi : i < k) => hfree i hi.le
  have hstop : mapAreaPage (σ.vmspace target) + k < stop := by
    by_contra hle
    have hmono : freeRank (σ.vmspace target).nodes (mapAreaPage (σ.vmspace target)) stop ≤
        freeRank (σ.vmspace target).nodes (mapAreaPage (σ.vmspace target))
          (mapAreaPage (σ.vmspace target) + k) := freeRank_mono (Nat.le_of_not_lt hle)
    rw [h.rank, hrank] at hmono
    omega
  refine ⟨f, hne, ?_, ?_⟩
  · rw [← h.frame_eq]
    exact spaceFrame_eq_some_iff.mpr ⟨hin, h.frame_of_some hframe⟩
  · refine spaceFrame_eq_some_iff.mpr ⟨?_, ?_⟩
    · -- a node holds the page now
      have hcovered : ¬PageFree nodes (mapAreaPage (σ.vmspace target) + k) := fun hnow =>
        ((h.free _).mp hnow).2 ⟨Nat.le_add_right _ _, hstop⟩
      obtain ⟨n, hn, hlo, hhi⟩ := not_pageFree_iff.mp hcovered
      have hinside := h.nodes_ok.inside n hn
      omega
    · rw [← h.frame_eq, (h.taken _ (Nat.le_add_right _ _) hstop (hfree k (le_refl k))).2, hrank,
        hframe]

/-- After `MapMdl` the server reads the buffer exactly when it fits. -/
theorem MapProgress.right_iff {stop : ℕ} {nodes : List Vmnode}
    (h : MapProgress good frame source target σ (addr.toNat / 4096)
      (mapAreaPage (σ.vmspace target)) (mappedPages addr size) stop nodes σ')
    (ht : PageTables H good frame limit) (hsource : UserSpace limit (σ.vmspace source))
    (htarget : UserSpace limit (σ.vmspace target)) (hsize : size ≠ 0)
    (hp : p.toNat = mapAreaPage (σ.vmspace target) * 4096 + addr.toNat % 4096)
    (hframes : ∀ k < mappedPages addr size, ∃ f, f ≠ 0 ∧
      spaceFrame (σ.vmspace source) (frame σ.memory source) (addr.toNat / 4096 + k) = some f) :
    TranslatesRight H source target σ' addr p size ↔
      BufferFits σ (frame σ.memory) source target addr size := by
  have hoff : p.toNat % 4096 = addr.toNat % 4096 := by omega
  have hpage : p.toNat / 4096 = mapAreaPage (σ.vmspace target) := by omega
  have hfirst : spaceFrame (σ'.vmspace source) (frame σ'.memory source) (addr.toNat / 4096) ≠
      some 0 := by
    obtain ⟨f, hne, hf⟩ := hframes 0 (mappedPages_pos hsize)
    rw [Nat.add_zero] at hf
    obtain ⟨hin, hframe⟩ := spaceFrame_eq_some_iff.mp hf
    rw [h.spaceFrame_eq, spaceFrame_eq_some_iff.mpr ⟨hin, h.frame_of_some hframe⟩]
    exact fun heq => hne (Option.some.inj heq)
  rw [translatesRight_iff_pages ht h.good (h.userSpace hsource htarget)
    (h.userSpace_target htarget) hsize hoff hfirst, hpage]
  refine forall_congr' fun k => imp_congr_right fun _ => ?_
  rw [h.spaceFrame_eq, h.spaceFrame_eq, h.frame_eq, h.frame_eq]
  exact (or_iff_right_of_imp (h.sameFrame hframes)).symm

end Right

/-- An address that `NX_HubTranslate` returned is the one of a mapped description. -/
theorem hubTranslate_mapMdl [DecidableEq ι] [DecidableEq π] {H : HubMemory π μ}
    {process : HubThread ι → Option π} {cur sourceThread : HubThread ι} {source target : π}
    (hsource : process sourceThread = some source) (htarget : process cur = some target)
    {channel : MdlChannel ι π} (hchannel : channel.sourceThread = some sourceThread) {hub : Bool}
    {active : Option (MdlChannel ι π)} {addr size p : BitVec 64} {σ σ' : Spaces π μ}
    (hrun : hubTranslate H process cur hub (some channel) addr size σ = .ok (p, active, σ'))
    (hp : p ≠ 0) :
    size ≠ 0 ∧ ∃ mdl, mapMdl H (createMdl addr size target) source target
      { σ with memory := (H.memAllocMdl σ.memory).2 } = .ok (p, mdl, σ') := by
  have hnull : ∀ {a : Option (MdlChannel ι π)} {υ : Spaces π μ},
      ¬(Except.ok (0, a, υ) : Exec _) = .ok (p, active, σ') := by
    intro a υ h
    cases h
    exact hp rfl
  unfold hubTranslate at hrun
  split_ifs at hrun with hargs hhub
  · exact absurd hrun hnull
  · exact absurd hrun hnull
  · dsimp only at hrun
    rw [hchannel] at hrun
    split_ifs at hrun with htarget' hparam
    · exact absurd hrun hnull
    · exact absurd hrun hnull
    · obtain ⟨⟨p', channel', σ₁⟩, hmap, hrun⟩ := exec_bind_eq_ok_iff.mp hrun
      cases hrun
      refine ⟨fun h => hargs (Or.inr h), ?_⟩
      unfold hubMapAddr at hmap
      rw [hsource, htarget] at hmap
      dsimp only at hmap
      split_ifs at hmap with hlength
      · cases hmap
        exact absurd rfl hp
      · rcases halloc : H.memAllocMdl σ.memory with ⟨ok, m⟩
        rw [halloc] at hmap
        cases ok with
        | false =>
            cases hmap
            exact absurd rfl hp
        | true =>
            obtain ⟨⟨mapAddr, mdl, σ₂⟩, hmdl, hmap⟩ := exec_bind_eq_ok_iff.mp hmap
            dsimp only at hmap
            split_ifs at hmap with hzero
            · cases hmap
              exact absurd rfl hp
            · cases hmap
              exact ⟨mdl, hmdl⟩

/-- A translated buffer is the client's buffer for the server exactly when it fits the map area
of the server. -/
theorem hubTranslate_right_iff [DecidableEq ι] [DecidableEq π] {H : HubMemory π μ}
    {good : μ → Prop} {frame : μ → π → ℕ → Option ℕ} {limit : ℕ}
    (ht : PageTables H good frame limit) {process : HubThread ι → Option π}
    {cur sourceThread : HubThread ι} {source target : π}
    (hsource : process sourceThread = some source) (htarget : process cur = some target)
    {channel : MdlChannel ι π} (hchannel : channel.sourceThread = some sourceThread) {hub : Bool}
    {active : Option (MdlChannel ι π)} {addr size p : BitVec 64} {σ σ' : Spaces π μ}
    (hm : good σ.memory) (hsourceSpace : UserSpace limit (σ.vmspace source))
    (htargetSpace : UserSpace limit (σ.vmspace target))
    (hrun : hubTranslate H process cur hub (some channel) addr size σ = .ok (p, active, σ'))
    (hp : p ≠ 0) :
    TranslatesRight H source target σ' addr p size ↔
      BufferFits σ (frame σ.memory) source target addr size := by
  obtain ⟨hsize, mdl, hmdl⟩ := hubTranslate_mapMdl hsource htarget hchannel hrun hp
  obtain ⟨hm', hframe⟩ := ht.memAllocMdl hm
  generalize hσ₁ : { σ with memory := (H.memAllocMdl σ.memory).2 } = σ₁ at hmdl
  have hspaces : σ₁.vmspace = σ.vmspace := by rw [← hσ₁]
  have hmemory : σ₁.memory = (H.memAllocMdl σ.memory).2 := by rw [← hσ₁]
  rw [← hmemory] at hm' hframe
  rw [← hspaces] at hsourceSpace htargetSpace
  obtain ⟨haddr, hframes, stop, nodes, hprogress⟩ :=
    mapMdl_progress ht hm' hsourceSpace htargetSpace hsize hmdl hp
  have hright := hprogress.right_iff ht hsourceSpace htargetSpace hsize haddr hframes
  rw [hright, hframe]
  subst hσ₁
  rfl

/-! ## Two processes -/

/-- A memory that is the frames of two processes, the client `false` and the server `true`. -/
def tableMemory : HubMemory Bool (Bool → ℕ → Option ℕ) where
  machine proc :=
    { memAlloc m := (true, m)
      pageIncrease m _ := .ok m
      mapPage m _ _ _ := .ok (0, m)
      mapPageWithPhy m v pa _ _ :=
        if m proc (v.toNat / 4096) = none then
          .ok (v, Function.update m proc
            (Function.update (m proc) (v.toNat / 4096) (some (pa.toNat / 4096))))
        else .ok (0, m)
      unmapPage m v size := .ok (.eok, Function.update m proc fun p =>
        if v.toNat ≤ p * 4096 ∧ p * 4096 < v.toNat + size.toNat then none else m proc p) }
  mmuVir2Phy proc m va :=
    match m proc (va.toNat / 4096) with
    | some f => .ok (BitVec.ofNat 64 (f * 4096 + va.toNat % 4096))
    | none => .error .panic
  memAllocMdl m := (true, m)
  memFreeMdl m := m

/-- The frames of this memory are those of its tables, when they fit an address. -/
theorem pageTables_tableMemory :
    PageTables tableMemory (fun m => ∀ proc p f, m proc p = some f → f < 2 ^ 52) (fun m => m)
      (2 ^ 64) where
  memAllocMdl hm := ⟨hm, rfl⟩
  memAlloc _ hm := ⟨hm, rfl⟩
  pageIncrease hm hrun := by
    cases hrun
    exact ⟨hm, rfl⟩
  mapPageWithPhy {m m' v pa a source proc p f} hm _ _ hf hpa hrun ha := by
    have hframe : pa.toNat / 4096 = f := by omega
    change (if m proc (v.toNat / 4096) = none then _ else _) = _ at hrun
    split_ifs at hrun with hnone
    · cases hrun
      rw [hframe]
      refine ⟨fun proc' p' f' hf' => ?_, rfl, hnone, rfl⟩
      by_cases hproc : proc' = proc
      · subst hproc
        rw [Function.update_self] at hf'
        by_cases hp : p' = v.toNat / 4096
        · rw [hp, Function.update_self] at hf'
          cases hf'
          exact hm source p f hf
        · rw [Function.update_of_ne hp] at hf'
          exact hm proc' p' f' hf'
      · rw [Function.update_of_ne hproc] at hf'
        exact hm proc' p' f' hf'
    · cases hrun
      exact absurd rfl ha
  mmuVir2Phy {m va proc f} hm _ hf := by
    have hlt := hm proc _ f hf
    refine ⟨BitVec.ofNat 64 (f * 4096 + va.toNat % 4096), ?_, ?_⟩
    · change (match m proc (va.toNat / 4096) with | some f => _ | none => _) = _
      rw [hf]
    · rw [BitVec.toNat_ofNat]
      exact Nat.mod_eq_of_lt (by omega)
  mmuVir2Phy_none {m va pa proc} _ _ hnone hrun := by
    change (match m proc (va.toNat / 4096) with | some f => _ | none => _) = _ at hrun
    rw [hnone] at hrun
    cases hrun

/-- A space with these nodes and its map area at `0x300000000`. -/
def areaSpace (nodes : List Vmnode) : Vmspace where
  nodes := nodes
  table := true
  spaceBase := 0x200000000
  spaceTop := 0x400000000
  heapStart := 0x200000000
  heapEnd := 0x300000000
  heapCurrent := 0x200000000
  mapStart := 0x300000000
  mapEnd := 0x3f0000000

theorem userSpace_areaSpace {nodes : List Vmnode}
    (hnodes : NodesOk 0x200000000 0x400000000 nodes) (haligned : NodesAligned nodes) :
    UserSpace (2 ^ 64) (areaSpace nodes) where
  table := rfl
  base_aligned := by
    dsimp only [areaSpace]
    decide
  top_le := (areaSpace nodes).spaceTop.isLt.le
  area := by
    constructor <;> dsimp only [areaSpace] <;> decide
  nodes := hnodes
  aligned := haligned

def secondPage : Vmnode where
  id := 1
  start := 0x300001000
  stop := 0x300002000
  attr := pageAttrUser
  flags := 0

/-- The client has a buffer in two pages; the server has a page in its map area, or none. -/
def clientServer (nodes : List Vmnode) : Spaces Bool (Bool → ℕ → Option ℕ) where
  vmspace
    | false => areaSpace []
    | true => areaSpace nodes
  memory
    | false => fun p => if p = 0x200000 then some 5 else if p = 0x200001 then some 6 else none
    | true => fun p => if p = 0x300001 ∧ nodes ≠ [] then some 9 else none

def bufferChannel : MdlChannel Unit Bool where
  state := .handled
  sourceThread := some (.client ())
  targetThread := some .server
  retVal := 0
  retErr := .eok
  syncSem := 0
  param := ⟨1, #v[0x200000010, 0x1800, 0, 0, 0, 0, 0, 0]⟩
  mdlList := []

def threadProcess : HubThread Unit → Option Bool
  | .client _ => some false
  | .server => some true

def bufferRun (nodes : List Vmnode) :
    Exec (BitVec 64 × Option (MdlChannel Unit Bool) × Spaces Bool (Bool → ℕ → Option ℕ)) :=
  hubTranslate tableMemory threadProcess .server true (some bufferChannel) 0x200000010 0x1800
    (clientServer nodes)

/-- In an empty map area a buffer over two pages is translated right. -/
theorem hubTranslate_right_iff_empty : ∃ p active σ',
    hubTranslate tableMemory threadProcess .server true (some bufferChannel) 0x200000010 0x1800
      (clientServer []) = .ok (p, active, σ') ∧ p ≠ 0 ∧
      TranslatesRight tableMemory false true σ' 0x200000010 p 0x1800 := by
  have haddr : (bufferRun []).map (·.1) = .ok 0x300000010 := by decide +kernel
  obtain ⟨⟨p, active, σ'⟩, hrun, hp⟩ := exec_map_eq_ok_iff.mp haddr
  have hne : p ≠ 0 := by
    rw [show p = 0x300000010 from hp]
    decide
  have hspace : UserSpace (2 ^ 64) (areaSpace []) :=
    userSpace_areaSpace ⟨⟨nofun, .nil⟩, nofun, .nil⟩ nofun
  refine ⟨p, active, σ', hrun, hne, (hubTranslate_right_iff pageTables_tableMemory rfl rfl rfl ?_
    hspace hspace hrun hne).mpr ?_⟩
  · rintro (_ | _) page f hf
    · change (if page = 0x200000 then some 5
        else if page = 0x200001 then some 6 else none) = _ at hf
      split_ifs at hf <;> cases hf <;> decide
    · change (if page = 0x300001 ∧ ([] : List Vmnode) ≠ [] then some 9 else none) = _ at hf
      split_ifs at hf with hpage
      exact absurd rfl hpage.2
  · intro k hk
    have hpages : mappedPages 0x200000010 0x1800 = 2 := rfl
    exact Or.inl ⟨by rw [hpages]; exact hk, fun i _ => rfl⟩

/-- A page of its own between the free pages of the server is read instead of the second page
of the buffer. -/
theorem exists_hubTranslate_not_right : ∃ p active σ',
    hubTranslate tableMemory threadProcess .server true (some bufferChannel) 0x200000010 0x1800
      (clientServer [secondPage]) = .ok (p, active, σ') ∧ p ≠ 0 ∧
      ¬TranslatesRight tableMemory false true σ' 0x200000010 p 0x1800 := by
  have haddr : (bufferRun [secondPage]).map (·.1) = .ok 0x300000010 := by decide +kernel
  have hclient : (bufferRun [secondPage]).bind (fun r =>
      spaceVirToPhy tableMemory false r.2.2 0x200001010) = .ok 0x6010 := by decide +kernel
  have hserver : (bufferRun [secondPage]).bind (fun r =>
      spaceVirToPhy tableMemory true r.2.2 0x300001010) = .ok 0x9010 := by decide +kernel
  obtain ⟨⟨p, active, σ'⟩, hrun, hp⟩ := exec_map_eq_ok_iff.mp haddr
  have hp' : p = 0x300000010 := hp
  rw [hrun] at hclient hserver
  refine ⟨p, active, σ', hrun, ?_, fun hright => ?_⟩
  · rw [hp']
    decide
  · obtain ⟨pa, -, hread, hread'⟩ := hright 0x1000 (by decide)
    subst hp'
    have hsame := hclient.symm.trans hread
    have hsame' := hserver.symm.trans hread'
    cases hsame
    cases hsame'

end Nxos.Ipc
