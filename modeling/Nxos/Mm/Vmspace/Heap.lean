import Nxos.Mm.Vmspace.Unmap

/-!
# The heap of a user space

`NX_VmspaceUpdateHeap` moves the end of the heap, a byte position, and keeps the
pages below it mapped.  A growing heap maps the pages between the two rounded
positions, a shrinking heap unmaps them.  Along every run of calls the mapped
pages of the heap range are those below the rounded end of the heap, and a call
that fails changes nothing.
-/

namespace Nxos.Mm

open Nxos.Interval Nxos.Transition

/-- The page `p` starts inside `[v, v + size)`. -/
def PageIn (v size p : ℕ) : Prop :=
  v ≤ p * 4096 ∧ p * 4096 < v + size

structure PageRange (v size : BitVec 64) : Prop where
  start_aligned : v.toNat % 4096 = 0
  size_aligned : size.toNat % 4096 = 0
  start_pos : 0 < v.toNat
  bound : v.toNat + size.toNat < 2 ^ 64

/-- What the heap relies on: mapping unmapped pages is all or nothing, and unmapping
mapped pages succeeds.  Node allocation does not touch the page table. -/
structure Machine.HeapLaws {μ : Type} (M : Machine μ) (mapped : μ → ℕ → Prop) : Prop where
  memAlloc : ∀ m p, mapped (M.memAlloc m).2 p ↔ mapped m p
  mapPage : ∀ {m v size} (attr : BitVec 64), PageRange v size →
    (∀ p, PageIn v.toNat size.toNat p → ¬mapped m p) →
    ∃ a m', M.mapPage m v size attr = .ok (a, m') ∧
      (a = 0 ∧ (∀ p, mapped m' p ↔ mapped m p) ∨
        a = v ∧ ∀ p, mapped m' p ↔ mapped m p ∨ PageIn v.toNat size.toNat p)
  unmapPage : ∀ {m v size}, PageRange v size →
    (∀ p, PageIn v.toNat size.toNat p → mapped m p) →
    ∃ m', M.unmapPage m v size = .ok (.eok, m') ∧
      ∀ p, mapped m' p ↔ mapped m p ∧ ¬PageIn v.toNat size.toNat p

theorem Machine.HeapLaws.of_allocReach {μ : Type} {M : Machine μ}
    {mapped : μ → ℕ → Prop} (h : M.HeapLaws mapped) {m m' : μ}
    (hreach : M.AllocReach m m') (p : ℕ) : mapped m' p ↔ mapped m p := by
  refine Reachable.invariant (P := fun a => mapped a p ↔ mapped m p) hreach Iff.rfl ?_
  rintro a _ b hab rfl
  exact (h.memAlloc a p).trans hab

structure HeapLayout (s : Vmspace) : Prop where
  start_aligned : s.heapStart.toNat % 4096 = 0
  end_aligned : s.heapEnd.toNat % 4096 = 0
  start_pos : 0 < s.heapStart.toNat
  base_le : s.spaceBase.toNat ≤ s.heapStart.toNat
  start_lt : s.heapStart.toNat < s.heapEnd.toNat
  end_le : s.heapEnd.toNat ≤ s.spaceTop.toNat

structure HeapInv {μ : Type} (mapped : μ → ℕ → Prop) (s : Vmspace) (m : μ) : Prop where
  layout : HeapLayout s
  nodes_ok : NodesOk s.spaceBase s.spaceTop s.nodes
  current : s.heapStart.toNat ≤ s.heapCurrent.toNat ∧
    s.heapCurrent.toNat < s.heapEnd.toNat
  free : ∀ x, pageRoundUp s.heapCurrent.toNat ≤ x → x < s.heapEnd.toNat →
    nodesLookup s.nodes x = none
  pages : ∀ p, s.heapStart.toNat ≤ p * 4096 → p * 4096 < s.heapEnd.toNat →
    (mapped m p ↔ p * 4096 < pageRoundUp s.heapCurrent.toNat)

/-- One call of `NX_VmspaceUpdateHeap`. -/
def HeapMove {μ : Type} (M : Machine μ) (σ : Vmspace × μ) (virAddr : BitVec 64)
    (τ : Vmspace × μ) : Prop :=
  ∃ r, vmspaceUpdateHeap M σ.1 σ.2 virAddr = .ok (r, τ.1, τ.2)

/-- What a call guarantees: it returns, keeps the invariant and the bounds of the
heap, and a failure leaves the end of the heap and the mapped pages alone. -/
def HeapCallOk {μ : Type} (mapped : μ → ℕ → Prop) (s : Vmspace) (m : μ)
    (result : Exec (Except NxError (BitVec 64) × Vmspace × μ)) : Prop :=
  ∃ r s' m', result = .ok (r, s', m') ∧ HeapInv mapped s' m' ∧
    s'.heapStart = s.heapStart ∧ s'.heapEnd = s.heapEnd ∧
    ∀ err, r = .error err →
      s'.heapCurrent = s.heapCurrent ∧ ∀ p, mapped m' p ↔ mapped m p

/-- A position below a page boundary rounds up without wrapping, to at most that
boundary. -/
theorem pageAlignUp_of_lt {v bound : BitVec 64} (hlt : v.toNat < bound.toNat)
    (hal : bound.toNat % 4096 = 0) :
    (pageAlignUp v).toNat = pageRoundUp v.toNat ∧
      pageRoundUp v.toNat ≤ bound.toNat ∧ v.toNat ≤ pageRoundUp v.toNat ∧
      pageRoundUp v.toNat % 4096 = 0 := by
  have hbound := bound.isLt
  have hcases := pageAlignUp_cases v
  unfold pageRoundUp at *
  omega

namespace HeapInv

variable {μ : Type} {M : Machine μ} {mapped : μ → ℕ → Prop} {s : Vmspace} {m : μ}

theorem failed (h : HeapInv mapped s m) {m' : μ} (hsame : ∀ p, mapped m' p ↔ mapped m p)
    (err : NxError) : HeapCallOk mapped s m (.ok (.error err, s, m')) := by
  refine ⟨_, s, m', rfl, { h with pages := ?_ }, rfl, rfl, fun _ _ => ⟨rfl, hsame⟩⟩
  intro p hlo hhi
  rw [hsame]
  exact h.pages p hlo hhi

theorem pageRange_sub (lower upper : BitVec 64) (hlower : lower.toNat % 4096 = 0)
    (hupper : upper.toNat % 4096 = 0) (hlt : lower.toNat < upper.toNat)
    (hpos : 0 < lower.toNat) :
    (pageAlignUp (upper - lower)).toNat = upper.toNat - lower.toNat ∧
      pageRoundUp (upper - lower).toNat = upper.toNat - lower.toNat ∧
      PageRange lower (pageAlignUp (upper - lower)) := by
  have hsub : (upper - lower).toNat = upper.toNat - lower.toNat :=
    BitVec.toNat_sub_of_le (BitVec.le_def.mpr (by omega))
  have hword := upper.isLt
  have hround : pageRoundUp (upper - lower).toNat = upper.toNat - lower.toNat := by
    rw [hsub]
    unfold pageRoundUp
    omega
  have hup : (pageAlignUp (upper - lower)).toNat = upper.toNat - lower.toNat := by
    rcases pageAlignUp_cases (upper - lower) with ⟨heq, -⟩ | ⟨-, heq⟩ <;> omega
  exact ⟨hup, hround, hlower, by omega, hpos, by omega⟩

theorem mapPlaced_start {s : Vmspace} {vaddr size attr start : BitVec 64}
    (hplaced : MapPlaced s vaddr size attr start) (hal : vaddr.toNat % 4096 = 0)
    (hpos : 0 < vaddr.toNat) : start = vaddr := by
  obtain ⟨addr, haddr, rfl⟩ := hplaced.address
  have hne : vaddr ≠ 0 := by
    rintro rfl
    simp at hpos
  have haddrEq : addr = vaddr := by
    unfold mapAddress at haddr
    split_ifs at haddr
    cases haddr
    rfl
  rw [haddrEq]
  exact pageAlignDown_of_aligned hal

theorem heapGrow (hM : M.HeapLaws mapped) (h : HeapInv mapped s m) {virAddr : BitVec 64}
    (hlo : s.heapStart.toNat ≤ virAddr.toNat) (hhi : virAddr.toNat < s.heapEnd.toNat)
    (hlt : (pageAlignUp s.heapCurrent).toNat < (pageAlignUp virAddr).toNat) :
    HeapCallOk mapped s m
      (heapGrow M s m virAddr (pageAlignUp s.heapCurrent) (pageAlignUp virAddr)) := by
  obtain ⟨hold, holdLe, hcurLe, holdAl⟩ := pageAlignUp_of_lt h.current.2 h.layout.end_aligned
  obtain ⟨hnew, hnewLe, hvirLe, hnewAl⟩ := pageAlignUp_of_lt hhi h.layout.end_aligned
  have hcur := h.current
  have hstart := h.layout.start_pos
  have hbase := h.layout.base_le
  have htop := h.layout.end_le
  generalize pageAlignUp s.heapCurrent = oldHeap at *
  generalize pageAlignUp virAddr = newHeap at *
  obtain ⟨hsize, hround, hrange⟩ := pageRange_sub oldHeap newHeap (by omega)
    (by omega) hlt (by omega)
  have hplace : ∀ {start}, MapPlaced s oldHeap (newHeap - oldHeap) pageAttrUser start →
      start = oldHeap := fun hplaced => mapPlaced_start hplaced (by omega) (by omega)
  have hfits : MapFits s oldHeap (newHeap - oldHeap) pageAttrUser 0 := by
    intro start hplaced _
    rw [hplace hplaced, hround]
    refine ⟨by omega, by omega, ?_⟩
    rintro n hn ⟨hnlo, hnhi⟩
    have hne := h.nodes_ok.separated.nonempty n hn
    have hnone := h.free n.lo (by omega) (by omega)
    exact lookup_eq_none_iff.mp hnone n hn ⟨le_rfl, hne⟩
  have hout := vmspaceMapInternal_outcome M h.nodes_ok m oldHeap 0 (newHeap - oldHeap)
    pageAttrUser 0
  -- the page table is only asked for pages that are not mapped
  have hmapped : ∀ {m₁ : μ}, M.memAlloc m = (true, m₁) → ∃ a m',
      mapPages M m₁ oldHeap 0 (pageAlignUp (newHeap - oldHeap)) pageAttrUser =
        .ok (a, m') ∧
      (a = 0 ∧ (∀ p, mapped m' p ↔ mapped m p) ∨
        a = oldHeap ∧ ∀ p, mapped m' p ↔ mapped m p ∨
          PageIn oldHeap.toNat (newHeap.toNat - oldHeap.toNat) p) := by
    intro m₁ halloc
    have hsame : ∀ p, mapped m₁ p ↔ mapped m p := by
      intro p
      have := hM.memAlloc m p
      rwa [halloc] at this
    obtain ⟨a, m', hrun, hcases⟩ := hM.mapPage (m := m₁) pageAttrUser hrange (by
      intro p hp hmp
      rw [hsize] at hp
      unfold PageIn at hp
      have := (h.pages p (by omega) (by omega)).mp ((hsame p).mp hmp)
      omega)
    refine ⟨a, m', hrun, ?_⟩
    rw [hsize] at hcases
    simpa only [hsame] using hcases
  unfold Mm.heapGrow vmspaceMap
  generalize vmspaceMapInternal M s m oldHeap 0 (newHeap - oldHeap) pageAttrUser 0 = r
    at hout ⊢
  cases hout with
  | refused err m' hm =>
      refine h.failed ?_ err
      intro p
      rcases hm with rfl | rfl
      · exact Iff.rfl
      · exact hM.memAlloc m p
  | delayed start m' hplaced halloc hdelay => exact absurd rfl hdelay
  | fault start m₁ f hplaced halloc hmap =>
      obtain ⟨a, m', hrun, -⟩ := hmapped halloc
      rw [hplace hplaced, hrun] at hmap
      cases hmap
  | unmapped start m₁ m' hplaced halloc hmap =>
      obtain ⟨a, m'', hrun, hcases⟩ := hmapped halloc
      rw [hplace hplaced, hrun] at hmap
      cases hmap
      rcases hcases with ⟨-, hsame⟩ | ⟨hzero, -⟩
      · exact h.failed hsame .enomem
      · rw [← hzero] at hold
        simp at hold
        omega
  | mapped start a m₁ m' hplaced halloc hmap ha =>
      obtain ⟨a', m'', hrun, hcases⟩ := hmapped halloc
      have hadded := mappedNodes_added h.nodes_ok hfits hplaced
        (Or.inl (by rw [hplace hplaced]; rintro rfl; simp at hold; omega))
      rw [hplace hplaced, hrun] at hmap
      cases hmap
      rcases hcases with ⟨hzero, -⟩ | ⟨haddr, hpages⟩
      · exact absurd hzero ha
      subst a
      rw [hplace hplaced] at hadded ⊢
      rw [exec_ok_bind]
      dsimp only
      rw [if_neg (not_not.mpr rfl)]
      refine ⟨_, _, m', rfl, ⟨?_, hadded.nodes_ok, ⟨hlo, hhi⟩, ?_, ?_⟩, rfl, rfl, ?_⟩
      · exact { h.layout with }
      · intro x hx hxe
        dsimp only at hx hxe ⊢
        rw [hadded.lookup_eq, hsize, if_neg (by omega)]
        exact h.free x (by omega) hxe
      · intro p hplo hphi
        dsimp only at hplo hphi ⊢
        rw [hpages, h.pages p hplo hphi]
        unfold PageIn
        omega
      · intro err herr
        cases herr

theorem heapShrink (hM : M.HeapLaws mapped) (h : HeapInv mapped s m)
    {virAddr : BitVec 64} (hlo : s.heapStart.toNat ≤ virAddr.toNat)
    (hhi : virAddr.toNat < s.heapEnd.toNat)
    (hlt : (pageAlignUp virAddr).toNat < (pageAlignUp s.heapCurrent).toNat) :
    HeapCallOk mapped s m
      (heapShrink M s m virAddr (pageAlignUp s.heapCurrent) (pageAlignUp virAddr)) := by
  obtain ⟨hold, holdLe, hcurLe, holdAl⟩ := pageAlignUp_of_lt h.current.2 h.layout.end_aligned
  obtain ⟨hnew, hnewLe, hvirLe, hnewAl⟩ := pageAlignUp_of_lt hhi h.layout.end_aligned
  have hcur := h.current
  have hstart := h.layout.start_pos
  generalize pageAlignUp s.heapCurrent = oldHeap at *
  generalize pageAlignUp virAddr = newHeap at *
  obtain ⟨hsize, hround, hrange⟩ := pageRange_sub newHeap oldHeap (by omega)
    (by omega) hlt (by omega)
  have hfits : UnmapFits s newHeap (oldHeap - newHeap) := by
    intro _ _
    have := oldHeap.isLt
    omega
  have hout := vmspaceUnmap_outcome M h.nodes_ok m hfits
  -- the page table is only asked for pages that are mapped
  have hunmapped : ∀ {m₁ : μ}, M.AllocReach m m₁ → ∃ m',
      M.unmapPage m₁ newHeap (pageAlignUp (oldHeap - newHeap)) = .ok (.eok, m') ∧
      ∀ p, mapped m' p ↔ mapped m p ∧
        ¬PageIn newHeap.toNat (oldHeap.toNat - newHeap.toNat) p := by
    intro m₁ hreach
    have hsame := hM.of_allocReach hreach
    obtain ⟨m', hrun, hpages⟩ := hM.unmapPage (m := m₁) hrange (by
      intro p hp
      rw [hsize] at hp
      unfold PageIn at hp
      exact (hsame p).mpr ((h.pages p (by omega) (by omega)).mpr (by omega)))
    refine ⟨m', hrun, ?_⟩
    rw [hsize] at hpages
    simpa only [hsame] using hpages
  unfold Mm.heapShrink
  generalize vmspaceUnmap M s m newHeap (oldHeap - newHeap) = r at hout ⊢
  cases hout with
  | refused err m' herr hm =>
      rw [exec_ok_bind]
      dsimp only
      rw [if_pos herr]
      exact h.failed (hM.of_allocReach hm) err
  | fault m₁ f hm _ hrun =>
      obtain ⟨m', hrun', -⟩ := hunmapped hm
      rw [hrun'] at hrun
      cases hrun
  | restored m₁ m' err nodes hm _ hrun herr _ _ =>
      obtain ⟨m'', hrun', -⟩ := hunmapped hm
      rw [hrun'] at hrun
      cases hrun
      exact absurd rfl herr
  | removed m₁ m' nodes hm _ hrun hremoved =>
      obtain ⟨m'', hrun', hpages⟩ := hunmapped hm
      rw [hrun'] at hrun
      cases hrun
      rw [exec_ok_bind]
      dsimp only
      rw [if_neg (not_not.mpr rfl)]
      refine ⟨_, _, m', rfl, ⟨?_, hremoved.ok, ⟨hlo, hhi⟩, ?_, ?_⟩, rfl, rfl, ?_⟩
      · exact { h.layout with }
      · intro x hx hxe
        dsimp only at hx hxe ⊢
        rw [hremoved.lookup_eq, hround]
        split_ifs with hxr
        · rfl
        · exact h.free x (by omega) hxe
      · intro p hplo hphi
        dsimp only at hplo hphi ⊢
        rw [hpages, h.pages p hplo hphi]
        unfold PageIn
        omega
      · intro err herr
        cases herr

/-- Every call of `NX_VmspaceUpdateHeap` returns and keeps the heap in order. -/
theorem vmspaceUpdateHeap (hM : M.HeapLaws mapped) (h : HeapInv mapped s m)
    (virAddr : BitVec 64) :
    HeapCallOk mapped s m (vmspaceUpdateHeap M s m virAddr) := by
  unfold Mm.vmspaceUpdateHeap
  by_cases htable : ¬s.table
  · rw [if_pos htable]
    exact h.failed (fun _ => Iff.rfl) .efault
  rw [if_neg htable]
  by_cases hzero : virAddr = 0
  · rw [if_pos hzero]
    refine ⟨_, s, m, rfl, h, rfl, rfl, ?_⟩
    intro err herr
    cases herr
  rw [if_neg hzero]
  by_cases hlow : virAddr < s.heapStart
  · rw [if_pos hlow]
    exact h.failed (fun _ => Iff.rfl) .einval
  rw [if_neg hlow]
  by_cases hhigh : s.heapEnd ≤ virAddr
  · rw [if_pos hhigh]
    exact h.failed (fun _ => Iff.rfl) .enomem
  rw [if_neg hhigh]
  rw [BitVec.lt_def, not_lt] at hlow
  rw [BitVec.le_def, not_le] at hhigh
  dsimp only
  by_cases heq : pageAlignUp virAddr = pageAlignUp s.heapCurrent
  · rw [if_pos heq]
    have hround : pageRoundUp virAddr.toNat = pageRoundUp s.heapCurrent.toNat := by
      rw [← (pageAlignUp_of_lt hhigh h.layout.end_aligned).1, heq,
        (pageAlignUp_of_lt h.current.2 h.layout.end_aligned).1]
    refine ⟨_, _, m, rfl, ⟨?_, h.nodes_ok, ⟨hlow, hhigh⟩, ?_, ?_⟩, rfl, rfl, ?_⟩
    · exact { h.layout with }
    · rw [hround]
      exact h.free
    · rw [hround]
      exact h.pages
    · intro err herr
      cases herr
  rw [if_neg heq]
  by_cases hlt : pageAlignUp s.heapCurrent < pageAlignUp virAddr
  · rw [if_pos hlt]
    exact h.heapGrow hM hlow hhigh (BitVec.lt_def.mp hlt)
  · rw [if_neg hlt]
    refine h.heapShrink hM hlow hhigh ?_
    have hne : (pageAlignUp virAddr).toNat ≠ (pageAlignUp s.heapCurrent).toNat :=
      fun h => heq (BitVec.eq_of_toNat_eq h)
    rw [BitVec.lt_def] at hlt
    omega

end HeapInv

/-- A fresh user space: the heap is empty, and nothing is mapped in its range. -/
structure FreshHeap {μ : Type} (mapped : μ → ℕ → Prop) (s : Vmspace) (m : μ) : Prop where
  layout : HeapLayout s
  nodes_ok : NodesOk s.spaceBase s.spaceTop s.nodes
  current : s.heapCurrent = s.heapStart
  free : ∀ x, s.heapStart.toNat ≤ x → x < s.heapEnd.toNat → nodesLookup s.nodes x = none
  unmapped : ∀ p, s.heapStart.toNat ≤ p * 4096 → p * 4096 < s.heapEnd.toNat → ¬mapped m p

theorem FreshHeap.heapInv {μ : Type} {mapped : μ → ℕ → Prop} {s : Vmspace} {m : μ}
    (h : FreshHeap mapped s m) : HeapInv mapped s m := by
  have hal := h.layout.start_aligned
  have hround : pageRoundUp s.heapCurrent.toNat = s.heapStart.toNat := by
    rw [h.current]
    unfold pageRoundUp
    omega
  refine ⟨h.layout, h.nodes_ok, ?_, ?_, ?_⟩
  · rw [h.current]
    exact ⟨le_rfl, h.layout.start_lt⟩
  · rw [hround]
    exact h.free
  · intro p hlo hhi
    rw [hround]
    exact iff_of_false (h.unmapped p hlo hhi) (by omega)

/-- After any calls of `NX_VmspaceUpdateHeap` the end of the heap is inside the heap
range and the mapped pages there are those below it.  Every further call returns,
and when it fails it changes neither. -/
theorem vmspaceUpdateHeap_run {μ : Type} {M : Machine μ} {mapped : μ → ℕ → Prop}
    (hM : M.HeapLaws mapped) {s₀ : Vmspace} {m₀ : μ} (hfresh : FreshHeap mapped s₀ m₀) :
    ∀ σ, Reachable (HeapMove M) (s₀, m₀) σ →
      (s₀.heapStart ≤ σ.1.heapCurrent ∧ σ.1.heapCurrent < s₀.heapEnd) ∧
      (∀ p, s₀.heapStart.toNat ≤ p * 4096 → p * 4096 < s₀.heapEnd.toNat →
        (mapped σ.2 p ↔ p * 4096 < pageRoundUp σ.1.heapCurrent.toNat)) ∧
      ∀ virAddr, ∃ r s' m', vmspaceUpdateHeap M σ.1 σ.2 virAddr = .ok (r, s', m') ∧
        ∀ err, r = .error err →
          s'.heapCurrent = σ.1.heapCurrent ∧ ∀ p, mapped m' p ↔ mapped σ.2 p := by
  intro σ hreach
  have hinv : HeapInv mapped σ.1 σ.2 ∧ σ.1.heapStart = s₀.heapStart ∧
      σ.1.heapEnd = s₀.heapEnd := by
    refine Reachable.invariant (P := fun σ : Vmspace × μ => HeapInv mapped σ.1 σ.2 ∧
      σ.1.heapStart = s₀.heapStart ∧ σ.1.heapEnd = s₀.heapEnd) hreach
      ⟨hfresh.heapInv, rfl, rfl⟩ ?_
    rintro σ virAddr ⟨s₁, m₁⟩ ⟨hinv, hs, he⟩ ⟨r, hrun⟩
    obtain ⟨r', s', m', hrun', hinv', hs', he', -⟩ := hinv.vmspaceUpdateHeap hM virAddr
    rw [hrun] at hrun'
    cases hrun'
    exact ⟨hinv', hs'.trans hs, he'.trans he⟩
  obtain ⟨hinv, hs, he⟩ := hinv
  refine ⟨?_, ?_, ?_⟩
  · rw [← hs, ← he, BitVec.le_def, BitVec.lt_def]
    exact hinv.current
  · rw [← hs, ← he]
    exact hinv.pages
  · intro virAddr
    obtain ⟨r, s', m', hrun, -, -, -, hfail⟩ := hinv.vmspaceUpdateHeap hM virAddr
    exact ⟨r, s', m', hrun, hfail⟩

/-- A machine whose page table is the set of its mapped pages, with memory for
everything. -/
def pageSetMachine : Machine (ℕ → Prop) where
  memAlloc := fun m => (true, m)
  pageIncrease := fun m _ => .ok m
  mapPage := fun m v size _ =>
    .ok (pageAlignDown v, fun p => m p ∨ PageIn v.toNat size.toNat p)
  mapPageWithPhy := fun m v _ size _ =>
    .ok (pageAlignDown v, fun p => m p ∨ PageIn v.toNat size.toNat p)
  unmapPage := fun m v size => .ok (.eok, fun p => m p ∧ ¬PageIn v.toNat size.toNat p)

theorem pageSetMachine_heapLaws : pageSetMachine.HeapLaws fun m => m where
  memAlloc := fun _ _ => Iff.rfl
  mapPage := by
    intro m v size attr hrange _
    have haligned := pageAlignDown_of_aligned hrange.start_aligned
    exact ⟨_, _, rfl, Or.inr ⟨haligned, fun _ => Iff.rfl⟩⟩
  unmapPage := fun _ _ => ⟨_, rfl, fun _ => Iff.rfl⟩

theorem onePageSpace_freshHeap : FreshHeap (fun m : ℕ → Prop => m) onePageSpace
    fun p => p = 0x300001 where
  layout := by constructor <;> decide
  nodes_ok := onePageSpace_nodesOk
  current := rfl
  free := by
    intro x _ hhi
    apply lookup_eq_none_iff.mpr
    intro n hn hx
    rw [List.mem_singleton.mp hn] at hx
    have hlo : 0x300001000 ≤ x := hx.1
    have hend : x < 0x300000000 := hhi
    omega
  unmapped := by
    rintro p _ hhi rfl
    exact absurd hhi (by decide)

theorem vmspaceUpdateHeap_run_onePageSpace :
    FreshHeap (fun m : ℕ → Prop => m) onePageSpace (fun p => p = 0x300001) ∧
      ∀ σ, Reachable (HeapMove pageSetMachine) (onePageSpace, fun p => p = 0x300001) σ →
        (onePageSpace.heapStart ≤ σ.1.heapCurrent ∧
          σ.1.heapCurrent < onePageSpace.heapEnd) ∧
        (∀ p, onePageSpace.heapStart.toNat ≤ p * 4096 →
          p * 4096 < onePageSpace.heapEnd.toNat →
          (σ.2 p ↔ p * 4096 < pageRoundUp σ.1.heapCurrent.toNat)) ∧
        ∀ virAddr, ∃ r s' m',
          vmspaceUpdateHeap pageSetMachine σ.1 σ.2 virAddr = .ok (r, s', m') ∧
          ∀ err, r = .error err →
            s'.heapCurrent = σ.1.heapCurrent ∧ ∀ p, m' p ↔ σ.2 p :=
  ⟨onePageSpace_freshHeap,
    vmspaceUpdateHeap_run pageSetMachine_heapLaws onePageSpace_freshHeap⟩

end Nxos.Mm
