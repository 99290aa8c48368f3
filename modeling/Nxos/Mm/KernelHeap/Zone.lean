import Nxos.Mm.Buddy.References
import Nxos.Mm.PageCache.Session

/-!
# The zone behind the page cache

The page cache takes its pages from the zone `NX_PAGE_ZONE_NORMAL`, and so do page
tables and other parts of the kernel.  A zone that is shared in this way is a buddy
system in use together with the blocks that belong to the cache.  A call on a block of
somebody else leaves the blocks of the cache alone, so that the zone is a lawful
source of pages whatever the others do.
-/

namespace Nxos.Mm

open Nxos.Dyadic

/-! ## Blocks that a call does not name -/

/-- The call does not name the block at `ptr`. -/
def BuddyOp.Spares (ptr : ℕ) : BuddyOp → Prop
  | .alloc _ => True
  | .increase q => q ≠ ptr
  | .free q => q ≠ ptr

/-- The block at `p` is in use with the same order and references, at the same address. -/
structure KeepsBlock (σ τ : BuddySession) (p : ℕ) : Prop where
  zone : SameZone σ.sys τ.sys
  live : ∃ c, (pageToPtr τ.sys p, c) ∈ τ.live
  order : (τ.sys.map p).order = (σ.sys.map p).order
  reference : (τ.sys.map p).reference = (σ.sys.map p).reference

section Calls

variable {σ τ : BuddySession} {n : ℕ} {T : Tiling Owner n}

theorem SessionInv.keepsBlock {U : Tiling Owner n} (h : SessionInv σ T) (h' : SessionInv τ U)
    (hzone : SameZone σ.sys τ.sys) {p k : ℕ} (hp : T.block p = some (.used, k))
    (hp' : U.block p = some (.used, k))
    (href : (τ.sys.map p).reference = (σ.sys.map p).reference) : KeepsBlock σ τ p where
  zone := hzone
  live := by
    obtain ⟨c, hc, -⟩ := h'.used_iff.mp hp'
    exact ⟨c, hc⟩
  order := (h'.rep.order_of_used hp').trans (h.rep.order_of_used hp).symm
  reference := href

/-- A legal call keeps every block in use that it does not name. -/
theorem SessionInv.run_keeps (h : SessionInv σ T) (hn : n < 2 ^ (maxPageOrder + 1))
    {op : BuddyOp} (hlegal : op.Legal σ) (hrun : buddyRun σ op = .ok τ) :
    (∃ U : Tiling Owner n, SessionInv τ U) ∧
      ∀ {p k}, T.block p = some (.used, k) → op.Spares (pageToPtr σ.sys p) →
        KeepsBlock σ τ p := by
  cases op with
  | alloc count =>
      obtain ⟨hpos, hle⟩ := hlegal
      have hne : count ≠ 0 := by
        rintro rfl
        exact absurd hpos (by decide)
      rcases h.rep.buddyAllocPage hne hle with
        ⟨s, U, q, k', halloc, hrep, hq, hU, hfrom, -, hzone, -⟩ | ⟨halloc, -⟩
      · simp only [buddyRun, halloc] at hrun
        cases hrun
        have hinv := h.handOut hrep hzone hq hU hfrom
        refine ⟨⟨U, hinv⟩, fun {p k} hp _ => ?_⟩
        have hpq : p ≠ q := by
          rintro rfl
          rw [hq] at hp
          cases hp
        exact h.keepsBlock hinv hzone hp ((hfrom p _ _ hpq).mpr (.inl hp))
          (buddyAllocPage_references halloc p hpq)
      · simp only [buddyRun, halloc] at hrun
        cases hrun
        exact ⟨⟨T, h⟩, fun hp _ => h.keepsBlock h (.refl _) hp hp rfl⟩
  | increase ptr =>
      obtain ⟨c, hlive⟩ := hlegal
      obtain ⟨q, rfl, hq⟩ := h.used_of_live hlive
      obtain ⟨hincrease, hrep⟩ := h.rep.buddyIncreasePage h.pages h.start_mod h.start_ne hq
      simp only [buddyRun, hincrease] at hrun
      cases hrun
      refine ⟨⟨T, h.setReference hrep⟩, fun {p k} hp hspares => ?_⟩
      have hpq : p ≠ q := fun heq => hspares (congrArg (pageToPtr σ.sys) heq.symm)
      exact h.keepsBlock (h.setReference hrep) ⟨rfl, rfl⟩ hp hp
        (congrArg Page.reference (Function.update_of_ne hpq ..))
  | free ptr =>
      obtain ⟨c, hlive⟩ := hlegal
      obtain ⟨q, rfl, hq⟩ := h.used_of_live hlive
      rcases h.rep.buddyFreePage h.pages h.start_mod h.start_ne
        (fun _ => Represents.mergesWithin_of_lt hn hq) hq h.no_hand with
        ⟨-, hfree, hrep⟩ | ⟨-, s, U, hfree, hrep, hrel, hzone, -⟩
      · simp only [buddyRun, hfree] at hrun
        cases hrun
        refine ⟨⟨T, h.setReference hrep⟩, fun {p k} hp hspares => ?_⟩
        have hpq : p ≠ q := fun heq => hspares (congrArg (pageToPtr σ.sys) heq.symm)
        exact h.keepsBlock (h.setReference hrep) ⟨rfl, rfl⟩ hp hp
          (congrArg Page.reference (Function.update_of_ne hpq ..))
      · simp only [buddyRun, hfree] at hrun
        cases hrun
        have hinv := h.giveBack hrep hzone hrel
        refine ⟨⟨U, hinv⟩, fun {p k} hp hspares => ?_⟩
        have hpq : p ≠ q := fun heq => hspares (congrArg (pageToPtr σ.sys) heq.symm)
        exact h.keepsBlock hinv hzone hp ((hrel.used_iff p k).mpr ⟨hpq, hp⟩)
          (buddyFreePage_references h.start_mod hfree p hpq)

theorem buddyRun_alloc {count : BitVec 64} {s : BuddySystem} {ptr : ℕ}
    (halloc : buddyAllocPage σ.sys count = .ok (some ptr, s)) :
    buddyRun σ (.alloc count) = .ok ⟨s, (ptr, count.toNat) :: σ.live⟩ := by
  simp only [buddyRun, halloc]
  rfl

/-- A free of a block with one reference gives it back. -/
theorem SessionInv.run_free (h : SessionInv σ T) (hn : n < 2 ^ (maxPageOrder + 1)) {p c : ℕ}
    (hlive : (pageToPtr σ.sys p, c) ∈ σ.live) (hone : (σ.sys.map p).reference = 1) :
    ∃ s, buddyRun σ (.free (pageToPtr σ.sys p)) =
      .ok ⟨s, σ.live.filter fun b => b.1 ≠ pageToPtr σ.sys p⟩ := by
  obtain ⟨q, heq, hq⟩ := h.used_of_live hlive
  obtain rfl := pageToPtr_injective _ heq
  rcases h.rep.buddyFreePage h.pages h.start_mod h.start_ne
    (fun _ => Represents.mergesWithin_of_lt hn hq) hq h.no_hand with
    ⟨hmore, -⟩ | ⟨-, s, -, hfree, -⟩
  · omega
  · refine ⟨s, ?_⟩
    simp only [buddyRun, hfree]
    rfl

/-- A request that gets a block gets a free one, with one reference. -/
theorem SessionInv.run_alloc (h : SessionInv σ T) {count : BitVec 64} {s : BuddySystem} {ptr : ℕ}
    (hlegal : (BuddyOp.alloc count).Legal σ)
    (halloc : buddyAllocPage σ.sys count = .ok (some ptr, s)) :
    ∃ p k, ptr = pageToPtr σ.sys p ∧ T.block p = some (.free, k) ∧ (s.map p).reference = 1 ∧
      ∃ U : Tiling Owner n, SessionInv ⟨s, (ptr, count.toNat) :: σ.live⟩ U ∧
        U.block p = some (.used, Nat.clog 2 count.toNat) ∧ SameZone σ.sys s := by
  obtain ⟨hpos, hle⟩ := hlegal
  have hne : count ≠ 0 := by
    rintro rfl
    exact absurd hpos (by decide)
  rcases h.rep.buddyAllocPage hne hle with
    ⟨t, U, p, k, hrun, hrep, hp, hU, hfrom, hone, hzone, -⟩ | ⟨hrun, -⟩
  · rw [halloc] at hrun
    cases hrun
    exact ⟨p, k, rfl, hp, hone, U, h.handOut hrep hzone hp hU hfrom, hU, hzone⟩
  · rw [halloc] at hrun
    cases hrun

def pageOfPtr (s : BuddySystem) (ptr : ℕ) : ℕ :=
  (ptr - s.pageStart) / pageSize

@[simp] theorem pageOfPtr_pageToPtr (s : BuddySystem) (p : ℕ) : pageOfPtr s (pageToPtr s p) = p := by
  unfold pageOfPtr pageToPtr pageSize
  omega

end Calls

/-! ## The zone with its users -/

/-- A zone of `n` pages in use.  `own` are the first pages of the blocks that the page
cache holds: each is in use and has one reference. -/
structure SharedZone (n : ℕ) where
  zone : BuddySession
  own : List ℕ
  within : n < 2 ^ (maxPageOrder + 1)
  tiled : ∃ T : Tiling Owner n, SessionInv zone T
  held : ∀ p ∈ own, ∃ c, (pageToPtr zone.sys p, c) ∈ zone.live
  single : ∀ p ∈ own, (zone.sys.map p).reference = 1

namespace SharedZone

variable {n : ℕ} (z : SharedZone n)

/-- The blocks of the page cache: their first pages and their page counts. -/
def blocks : List (ℕ × ℕ) :=
  z.own.map fun p => (p, 2 ^ (z.zone.sys.map p).order.toNat)

/-- The call names no block of the page cache. -/
def Spared (op : BuddyOp) : Prop :=
  ∀ p ∈ z.own, op.Spares (pageToPtr z.zone.sys p)

variable {z}

/-- A call keeps the blocks of the cache that it does not name. -/
theorem keepsBlock {op : BuddyOp} {τ : BuddySession} (hlegal : op.Legal z.zone)
    (hrun : buddyRun z.zone op = .ok τ) {p : ℕ} (hp : p ∈ z.own)
    (hspares : op.Spares (pageToPtr z.zone.sys p)) : KeepsBlock z.zone τ p := by
  obtain ⟨T, hT⟩ := z.tiled
  obtain ⟨c, hc⟩ := z.held p hp
  obtain ⟨q, heq, hq⟩ := hT.used_of_live hc
  obtain rfl := pageToPtr_injective _ heq
  exact (hT.run_keeps z.within hlegal hrun).2 hq hspares

/-- A call that spares the blocks in `rest` leaves them to the cache. -/
def after (z : SharedZone n) {op : BuddyOp} {τ : BuddySession} (rest : List ℕ)
    (hlegal : op.Legal z.zone) (hrun : buddyRun z.zone op = .ok τ)
    (hrest : ∀ p ∈ rest, p ∈ z.own ∧ op.Spares (pageToPtr z.zone.sys p)) : SharedZone n where
  zone := τ
  own := rest
  within := z.within
  tiled := by
    obtain ⟨T, hT⟩ := z.tiled
    exact (hT.run_keeps z.within hlegal hrun).1
  held p hp := (keepsBlock hlegal hrun (hrest p hp).1 (hrest p hp).2).live
  single p hp := (keepsBlock hlegal hrun (hrest p hp).1 (hrest p hp).2).reference.trans
    (z.single p (hrest p hp).1)

theorem blocks_after {op : BuddyOp} {τ : BuddySession} {rest : List ℕ}
    (hlegal : op.Legal z.zone) (hrun : buddyRun z.zone op = .ok τ)
    (hrest : ∀ p ∈ rest, p ∈ z.own ∧ op.Spares (pageToPtr z.zone.sys p)) :
    (z.after rest hlegal hrun hrest).blocks =
      rest.map fun p => (p, 2 ^ (z.zone.sys.map p).order.toNat) := by
  refine List.map_congr_left fun p hp => ?_
  have hkeeps := keepsBlock hlegal hrun (hrest p hp).1 (hrest p hp).2
  exact congrArg (fun order : ℤ => (p, 2 ^ order.toNat)) hkeeps.order

/-- The block that a request got joins those of the cache. -/
def granted (z : SharedZone n) {count : BitVec 64} {s : BuddySystem} {ptr : ℕ}
    (hlegal : (BuddyOp.alloc count).Legal z.zone)
    (halloc : buddyAllocPage z.zone.sys count = .ok (some ptr, s)) : SharedZone n where
  zone := ⟨s, (ptr, count.toNat) :: z.zone.live⟩
  own := pageOfPtr z.zone.sys ptr :: z.own
  within := z.within
  tiled := by
    obtain ⟨T, hT⟩ := z.tiled
    obtain ⟨p, k, -, -, -, U, hU, -⟩ := hT.run_alloc hlegal halloc
    exact ⟨U, hU⟩
  held q hq := by
    obtain ⟨T, hT⟩ := z.tiled
    obtain ⟨p, k, rfl, -, -, U, hU, hp, hzone⟩ := hT.run_alloc hlegal halloc
    rw [pageOfPtr_pageToPtr] at hq
    rcases List.mem_cons.mp hq with rfl | hq
    · exact ⟨count.toNat, by rw [hzone.pageToPtr_eq]; exact List.mem_cons_self ..⟩
    · exact (keepsBlock hlegal (buddyRun_alloc halloc) hq trivial).live
  single q hq := by
    obtain ⟨T, hT⟩ := z.tiled
    obtain ⟨p, k, rfl, -, hone, -⟩ := hT.run_alloc hlegal halloc
    rw [pageOfPtr_pageToPtr] at hq
    rcases List.mem_cons.mp hq with rfl | hq
    · exact hone
    · exact (keepsBlock hlegal (buddyRun_alloc halloc) hq trivial).reference.trans (z.single q hq)

/-- The new block has at least the pages of the request and lies apart from the others. -/
theorem blocks_granted {count : BitVec 64} {s : BuddySystem} {ptr : ℕ}
    (hlegal : (BuddyOp.alloc count).Legal z.zone)
    (halloc : buddyAllocPage z.zone.sys count = .ok (some ptr, s)) :
    ∃ m, count.toNat ≤ m ∧
      (z.granted hlegal halloc).blocks = (pageOfPtr z.zone.sys ptr, m) :: z.blocks ∧
      ∀ q ∈ z.blocks, PagesApart (pageOfPtr z.zone.sys ptr, m) q := by
  obtain ⟨T, hT⟩ := z.tiled
  obtain ⟨p, k, rfl, hfree, -, U, hU, hp, hzone⟩ := hT.run_alloc hlegal halloc
  have hkeeps : ∀ q ∈ z.own, KeepsBlock z.zone ⟨s, (_, count.toNat) :: z.zone.live⟩ q :=
    fun q hq => keepsBlock hlegal (buddyRun_alloc halloc) hq trivial
  refine ⟨2 ^ Nat.clog 2 count.toNat, Nat.le_pow_clog (by decide) _, ?_, ?_⟩
  · unfold blocks granted
    simp only [List.map_cons, pageOfPtr_pageToPtr]
    congr 1
    · rw [hU.rep.order_of_used hp, Int.toNat_natCast]
    · exact List.map_congr_left fun q hq =>
        congrArg (fun order : ℤ => (q, 2 ^ order.toNat)) (hkeeps q hq).order
  · intro b hb
    obtain ⟨q, hq, rfl⟩ := List.mem_map.mp hb
    obtain ⟨c, hc⟩ := (hkeeps q hq).live
    obtain ⟨r, heq, hr⟩ := hU.used_of_live hc
    obtain rfl := pageToPtr_injective _ heq
    have hne : p ≠ q := by
      rintro rfl
      -- the page of a block of the cache is not free
      obtain ⟨c, hc⟩ := z.held p hq
      obtain ⟨r, heq, hr⟩ := hT.used_of_live hc
      obtain rfl := pageToPtr_injective _ heq
      rw [hr] at hfree
      cases hfree
    have hapart := U.apart hp hr hne
    rw [pageOfPtr_pageToPtr, ← (hkeeps q hq).order, hU.rep.order_of_used hr, Int.toNat_natCast]
    exact hapart

/-! ## The zone as a source of pages -/

theorem alloc_legal {count : ℕ} (hcount : 1 ≤ count ∧ count ≤ pageCacheMaxPages) :
    (BuddyOp.alloc (BitVec.ofNat 64 count)).Legal z.zone := by
  have hword : (BitVec.ofNat 64 count).toNat = count := by
    rw [BitVec.toNat_ofNat]
    unfold pageCacheMaxPages at hcount
    omega
  unfold pageCacheMaxPages at hcount
  refine ⟨hword.symm ▸ hcount.1, ?_⟩
  rw [hword]
  exact hcount.2.trans (by decide)

theorem free_legal {page : ℕ} (hpage : page ∈ z.own) :
    (BuddyOp.free (pageToPtr z.zone.sys page)).Legal z.zone :=
  z.held page hpage

theorem spares_free (z : SharedZone n) (page : ℕ) :
    ∀ p ∈ z.own.filter (fun p => p ≠ page),
      p ∈ z.own ∧ (BuddyOp.free (pageToPtr z.zone.sys page)).Spares (pageToPtr z.zone.sys p) := by
  intro p hp
  obtain ⟨hp, hne⟩ := List.mem_filter.mp hp
  exact ⟨hp, fun heq => (of_decide_eq_true hne) (pageToPtr_injective _ heq).symm⟩

/-- `PageAllocVirtual`: `NX_PageAlloc` for the page cache, which asks for 1 to 2048 pages.
The virtual addresses of the kernel differ from the physical ones by a constant. -/
def pageAllocVirtual (z : SharedZone n) (count : ℕ) : Option ℕ × SharedZone n :=
  if hcount : 1 ≤ count ∧ count ≤ pageCacheMaxPages then
    match halloc : buddyAllocPage z.zone.sys (BitVec.ofNat 64 count) with
    | .ok (some ptr, _) => (some (pageOfPtr z.zone.sys ptr), z.granted (alloc_legal hcount) halloc)
    | _ => (none, z) -- no page is free: no assertion fails
  else (none, z)

/-- `PageFreeVirtual`: `NX_PageFree` of a block of the page cache. -/
def pageFreeVirtual (z : SharedZone n) (page : ℕ) : SharedZone n :=
  if hpage : page ∈ z.own then
    match hrun : buddyRun z.zone (.free (pageToPtr z.zone.sys page)) with
    | .ok _ =>
        z.after (z.own.filter fun p => p ≠ page) (free_legal hpage) hrun (spares_free z page)
    | .error _ => z
  else z

end SharedZone

def zoneSource (n : ℕ) : PageSource (SharedZone n) where
  pageAlloc := SharedZone.pageAllocVirtual
  pageFree := SharedZone.pageFreeVirtual

section Source

variable {n : ℕ} {z z' : SharedZone n}

/-- A request of the cache returns, and one that gets no block leaves the zone as it is. -/
theorem buddyAllocPage_returns {count : BitVec 64} (hlegal : (BuddyOp.alloc count).Legal z.zone) :
    ∃ ptr s, buddyAllocPage z.zone.sys count = .ok (ptr, s) ∧ (ptr = none → s = z.zone.sys) := by
  obtain ⟨T, hT⟩ := z.tiled
  obtain ⟨hpos, hle⟩ := hlegal
  have hne : count ≠ 0 := by
    rintro rfl
    exact absurd hpos (by decide)
  rcases hT.rep.buddyAllocPage hne hle with ⟨s, U, p, k, hrun, -⟩ | ⟨hrun, -⟩
  · exact ⟨_, s, hrun, nofun⟩
  · exact ⟨none, _, hrun, fun _ => rfl⟩

/-- A request either changes nothing or gets a block. -/
theorem pageAllocVirtual_cases (z : SharedZone n) (count : ℕ) :
    z.pageAllocVirtual count = (none, z) ∨
      ∃ hcount : 1 ≤ count ∧ count ≤ pageCacheMaxPages, ∃ ptr s,
        ∃ halloc : buddyAllocPage z.zone.sys (BitVec.ofNat 64 count) = .ok (some ptr, s),
          z.pageAllocVirtual count = (some (pageOfPtr z.zone.sys ptr),
            z.granted (SharedZone.alloc_legal hcount) halloc) := by
  unfold SharedZone.pageAllocVirtual
  split_ifs with hcount
  · split
    · next ptr s halloc => exact .inr ⟨hcount, ptr, s, halloc, rfl⟩
    · exact .inl rfl
  · exact .inl rfl

/-- A free of a block of the cache gives it back. -/
theorem pageFreeVirtual_eq {page : ℕ} (hpage : page ∈ z.own) :
    ∃ s, ∃ hrun : buddyRun z.zone (.free (pageToPtr z.zone.sys page)) =
        .ok ⟨s, z.zone.live.filter fun b => b.1 ≠ pageToPtr z.zone.sys page⟩,
      z.pageFreeVirtual page = z.after (z.own.filter fun p => p ≠ page)
        (SharedZone.free_legal hpage) hrun (z.spares_free page) := by
  obtain ⟨T, hT⟩ := z.tiled
  obtain ⟨c, hc⟩ := z.held page hpage
  obtain ⟨s, hrun⟩ := hT.run_free z.within hc (z.single page hpage)
  refine ⟨s, hrun, ?_⟩
  unfold SharedZone.pageFreeVirtual
  rw [dif_pos hpage]
  split
  · next τ hrun' =>
    have heq := hrun'.symm.trans hrun
    cases heq
    rfl
  · next e herror =>
    rw [hrun] at herror
    cases herror

theorem zoneSource_lawful (n : ℕ) : (zoneSource n).Lawful SharedZone.blocks where
  alloc_none := by
    intro z z' count hnone
    rcases pageAllocVirtual_cases z count with heq | ⟨hcount, ptr, s, halloc, heq⟩
    · cases heq.symm.trans hnone
      rfl
    · cases heq.symm.trans hnone
  alloc_some := by
    intro z z' count p hsome
    rcases pageAllocVirtual_cases z count with heq | ⟨hcount, ptr, s, halloc, heq⟩
    · cases heq.symm.trans hsome
    · obtain ⟨m, hm, hblocks, hapart⟩ :=
        SharedZone.blocks_granted (SharedZone.alloc_legal hcount) halloc
      have hword : (BitVec.ofNat 64 count).toNat = count := by
        rw [BitVec.toNat_ofNat]
        unfold pageCacheMaxPages at hcount
        omega
      cases heq.symm.trans hsome
      exact ⟨m, hword ▸ hm, hblocks, hapart⟩
  free := by
    intro z p m hmem
    obtain ⟨q, hq, heq⟩ := List.mem_map.mp hmem
    obtain ⟨rfl, -⟩ := Prod.mk.inj heq
    obtain ⟨s, hrun, hfree⟩ := pageFreeVirtual_eq hq
    change (z.pageFreeVirtual q).blocks = _
    rw [hfree, SharedZone.blocks_after]
    unfold SharedZone.blocks
    rw [List.filter_map]
    rfl

end Source

end Nxos.Mm
