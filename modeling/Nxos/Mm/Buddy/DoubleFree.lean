import Nxos.Mm.Buddy.References

/-!
# Blocks that are freed twice

A block that was released and is freed again is told by the free flag of its first
page.  A merge moves the flag to the first page of the merged block, so the flag is
found there exactly while the released block is the first part of a free one.  In the
other parts of merged blocks the flag is clear and the references are gone.
-/

namespace Nxos.Mm

open Nxos.Dyadic Nxos.Transition

/-! ## Flags and lists -/

/-- If the page has the free flag, it is on a list. -/
def FlagListed (s : BuddySystem) (x : ℕ) : Prop :=
  doPageFree (s.map x) → ∃ k, FreeBlock s x k

section Flags

variable {s t : BuddySystem} {x page : ℕ}

theorem FlagListed.of_not_doPageFree (h : ¬doPageFree (s.map x)) : FlagListed s x :=
  fun hflag => absurd hflag h

theorem FlagListed.congr (h : FlagListed s x) (hflags : (t.map x).flags = (s.map x).flags)
    (hlists : t.pageBuddy = s.pageBuddy) : FlagListed t x := by
  intro hflag
  unfold doPageFree at hflag
  rw [hflags] at hflag
  obtain ⟨k, hk⟩ := h hflag
  refine ⟨k, ?_⟩
  unfold FreeBlock
  rw [hlists]
  exact hk

theorem FlagListed.modifyPage (h : FlagListed s x) {f : Page → Page}
    (hf : ∀ p, (f p).flags = p.flags) : FlagListed (s.modifyPage page f) x := by
  refine h.congr ?_ rfl
  unfold BuddySystem.modifyPage
  dsimp only
  by_cases hx : x = page
  · rw [hx, Function.update_self, hf]
  · rw [Function.update_of_ne hx]

theorem FlagListed.setOrder (h : FlagListed s x) (page : ℕ) (order : ℤ) :
    FlagListed (s.setOrder page order) x :=
  h.modifyPage fun _ => rfl

theorem FlagListed.setReference (h : FlagListed s x) (page : ℕ) (reference : ℤ) :
    FlagListed (s.setReference page reference) x :=
  h.modifyPage fun _ => rfl

theorem FlagListed.buddyAddPage (h : FlagListed s x) (hrun : buddyAddPage s page = .ok t) :
    FlagListed t x := by
  obtain ⟨⟨j, hlists⟩, hmap, -⟩ := buddyAddPage_eq_ok hrun
  intro hflag
  unfold FreeBlock
  rw [hlists]
  by_cases hx : x = page
  · refine ⟨j, ?_⟩
    rw [Function.update_self, hx]
    exact List.mem_append_right _ (List.mem_singleton.mpr rfl)
  · rw [hmap, Function.update_of_ne hx] at hflag
    obtain ⟨k, hk⟩ := h hflag
    refine ⟨k, ?_⟩
    by_cases hkj : k = j
    · rw [hkj, Function.update_self]
      rw [hkj] at hk
      exact List.mem_append_left _ hk
    · rw [Function.update_of_ne hkj]
      exact hk

theorem FlagListed.buddyDelPage (h : FlagListed s x) (hrun : buddyDelPage s page = .ok t) :
    FlagListed t x := by
  obtain ⟨hlists, hmap, -⟩ := buddyDelPage_eq_ok hrun
  by_cases hx : x = page
  · apply FlagListed.of_not_doPageFree
    rw [hmap, hx, Function.update_self]
    exact not_doPageFree_clearFlag _ _ _
  · intro hflag
    rw [hmap, Function.update_of_ne hx] at hflag
    obtain ⟨k, hk⟩ := h hflag
    refine ⟨k, ?_⟩
    unfold FreeBlock
    rw [hlists]
    exact (List.mem_erase_of_ne hx).mpr hk

theorem FlagListed.pageMerge (h : FlagListed s x) {r : ℕ × BuddySystem}
    (hrun : pageMerge s page = .ok r) : FlagListed r.2 x :=
  pageMerge_keeps (P := fun s => FlagListed s x) (fun hs hdel => hs.buddyDelPage hdel)
    (fun p order hs => hs.setOrder p order) h hrun

theorem FlagListed.buddyFreePage (h : FlagListed s x) {err : NxError}
    (hstart : s.pageStart % pageSize = 0)
    (hrun : buddyFreePage s (pageToPtr s page) = .ok (err, t)) : FlagListed t x := by
  rcases buddyFreePage_cases hstart hrun with ⟨-, rfl | rfl⟩ | ⟨used, q, u, -, hmerge, hadd⟩
  · exact h
  · exact h.setReference page _
  · have hcounted : FlagListed { s.setReference page ((s.map page).reference - 1) with
        usedPage := used } x := (h.setReference page _).congr rfl rfl
    exact (hcounted.pageMerge hmerge).buddyAddPage hadd

end Flags

/-! ## Sessions -/

/-- A zone in use, with the pointers that were released by their last free.  They count
as released until the next request gets a block. -/
structure ReleaseSession where
  zone : BuddySession
  released : List ℕ

def releaseRun (σ : ReleaseSession) : BuddyOp → Exec ReleaseSession
  | .alloc count => do
      match ← buddyAllocPage σ.zone.sys count with
      | (some ptr, s) =>
          return ⟨⟨s, (ptr, 2 ^ (requestOrder count).toNat) :: σ.zone.live⟩, []⟩
      | (none, s) => return ⟨⟨s, σ.zone.live⟩, σ.released⟩
  | .increase ptr => do
      let (_, s) ← buddyIncreasePage σ.zone.sys ptr
      return ⟨⟨s, σ.zone.live⟩, σ.released⟩
  | .free ptr => do
      let (err, s) ← buddyFreePage σ.zone.sys ptr
      return ⟨⟨s, if err = .eok then σ.zone.live.filter (fun b => b.1 ≠ ptr) else σ.zone.live⟩,
        if err = .eok then ptr :: σ.released else σ.released⟩

theorem zoneRun_of_releaseRun {σ τ : ReleaseSession} {op : BuddyOp}
    (h : releaseRun σ op = .ok τ) : zoneRun σ.zone op = .ok τ.zone := by
  cases op with
  | alloc count =>
      obtain ⟨⟨r, s⟩, hrun, hrest⟩ := exec_bind_eq_ok_iff.mp h
      simp only [zoneRun, hrun, exec_ok_bind]
      cases r <;> cases hrest <;> rfl
  | increase ptr =>
      obtain ⟨⟨err, s⟩, hrun, hrest⟩ := exec_bind_eq_ok_iff.mp h
      simp only [zoneRun, hrun, exec_ok_bind]
      cases hrest
      rfl
  | free ptr =>
      obtain ⟨⟨err, s⟩, hrun, hrest⟩ := exec_bind_eq_ok_iff.mp h
      simp only [zoneRun, hrun, exec_ok_bind]
      cases hrest
      rfl

def ReleaseMove (σ : ReleaseSession) (op : BuddyOp) (τ : ReleaseSession) : Prop :=
  op.Allowed σ.zone ∧ releaseRun σ op = .ok τ

/-- The first page of a released block: no block in use, without references, and on a
list if it has the free flag. -/
structure ReleasedPage (s : BuddySystem) {n : ℕ} (T : Tiling Owner n) (p : ℕ) : Prop where
  inside : p < n
  unused : ∀ k, T.block p ≠ some (.used, k)
  reference : (s.map p).reference = 0
  listed : FlagListed s p

def ReleasedOk (σ : ReleaseSession) {n : ℕ} (T : Tiling Owner n) : Prop :=
  ∀ ptr ∈ σ.released, ∃ p, ptr = pageToPtr σ.zone.sys p ∧ ReleasedPage σ.zone.sys T p

section Steps

variable {σ τ : ReleaseSession} {n : ℕ} {T : Tiling Owner n}

theorem ReleasedPage.setReference {s : BuddySystem} {x p k : ℕ} (h : ReleasedPage s T x)
    (hp : T.block p = some (.used, k)) (r : ℤ) : ReleasedPage (s.setReference p r) T x where
  inside := h.inside
  unused := h.unused
  reference := by
    have hne : x ≠ p := by
      rintro rfl
      exact h.unused k hp
    refine Eq.trans ?_ h.reference
    exact congrArg Page.reference (Function.update_of_ne hne ..)
  listed := h.listed.setReference p r

theorem ReleasedPage.giveBack {s t : BuddySystem} {U : Tiling Owner n} {x p k : ℕ}
    {err : NxError} (h : ReleasedPage s T x) (hp : T.block p = some (.used, k))
    (hstart : s.pageStart % pageSize = 0)
    (hrun : buddyFreePage s (pageToPtr s p) = .ok (err, t))
    (hrel : Represents.ReleasedFrom T U p) : ReleasedPage t U x where
  inside := h.inside
  unused := fun j hused => h.unused j ((hrel.used_iff x j).mp hused).2
  reference := by
    have hne : x ≠ p := by
      rintro rfl
      exact h.unused k hp
    rw [buddyFreePage_references hstart hrun x hne]
    exact h.reference
  listed := h.listed.buddyFreePage hstart hrun

theorem ReleasedPage.of_release {s t : BuddySystem} {U : Tiling Owner n} {p k : ℕ}
    (hrep : Represents s T) (hp : T.block p = some (.used, k))
    (hone : (s.map p).reference = 1) (hstart : s.pageStart % pageSize = 0)
    (hrun : buddyFreePage s (pageToPtr s p) = .ok (.eok, t))
    (hrel : Represents.ReleasedFrom T U p) : ReleasedPage t U p where
  inside := hrep.lt_of_block hp
  unused := fun j hused => ((hrel.used_iff p j).mp hused).1 rfl
  reference := by
    rcases buddyFreePage_cases hstart hrun with ⟨hne, -⟩ | ⟨used, q, u, -, hmerge, hadd⟩
    · exact absurd rfl hne
    · rw [(sameReferences_buddyAddPage hadd).reference,
        (sameReferences_pageMerge hmerge).reference]
      refine (congrArg Page.reference (Function.update_self p _ s.map)).trans ?_
      dsimp only
      omega
  listed := (FlagListed.of_not_doPageFree (hrep.page_ok_block hp).2.1).buddyFreePage hstart hrun

/-- A call that returns keeps the released pages, or a request got a block. -/
theorem ReleasedOk.releaseRun (hok : ReleasedOk σ T) (h : SessionInv σ.zone T) {op : BuddyOp}
    (hallowed : op.Allowed σ.zone) (hrun : Mm.releaseRun σ op = .ok τ) :
    ∃ U : Tiling Owner n, SessionInv τ.zone U ∧ ReleasedOk τ U := by
  cases op with
  | alloc count =>
      obtain ⟨⟨r, s⟩, halloc, hrest⟩ := exec_bind_eq_ok_iff.mp hrun
      cases r with
      | some ptr =>
          obtain ⟨U, hU⟩ := h.zoneRun hallowed (zoneRun_of_releaseRun hrun)
          cases hrest
          exact ⟨U, hU, fun ptr hptr => absurd hptr List.not_mem_nil⟩
      | none =>
          obtain ⟨order, horder, hle⟩ := requestOrder_of_ok hallowed halloc
          rcases h.rep.buddyAllocPage_of_order hallowed horder hle with
            ⟨s', U, p, k, hrun', -⟩ | ⟨hrun', -⟩
          · rw [halloc] at hrun'
            cases hrun'
          · rw [halloc] at hrun'
            cases hrun'
            cases hrest
            exact ⟨T, h, hok⟩
  | increase ptr =>
      obtain ⟨c, hlive⟩ := hallowed
      obtain ⟨p, rfl, hp⟩ := h.used_of_live hlive
      obtain ⟨hincrease, hrep⟩ := h.rep.buddyIncreasePage h.pages h.start_mod h.start_ne hp
      simp only [Mm.releaseRun, hincrease] at hrun
      cases hrun
      refine ⟨T, h.setReference hrep, fun ptr hptr => ?_⟩
      obtain ⟨x, hx, hpage⟩ := hok ptr hptr
      exact ⟨x, hx, hpage.setReference hp _⟩
  | free ptr =>
      obtain ⟨c, hlive⟩ := hallowed
      obtain ⟨p, rfl, hp⟩ := h.used_of_live hlive
      obtain ⟨⟨err, s⟩, hfree, hrest⟩ := exec_bind_eq_ok_iff.mp hrun
      rcases h.rep.buddyFreePage_of_ok h.pages h.start_mod h.start_ne hp h.no_hand hfree with
        ⟨-, rfl, rfl, hrep⟩ | ⟨hone, rfl, U, hrep, hrel, hzone, -⟩
      · cases hrest
        refine ⟨T, h.setReference hrep, fun ptr hptr => ?_⟩
        obtain ⟨x, hx, hpage⟩ := hok ptr hptr
        exact ⟨x, hx, hpage.setReference hp _⟩
      · cases hrest
        refine ⟨U, h.giveBack hrep hzone hrel, fun ptr hptr => ?_⟩
        rcases List.mem_cons.mp hptr with rfl | hptr
        · exact ⟨p, (hzone.pageToPtr_eq p).symm,
            .of_release h.rep hp hone h.start_mod hfree hrel⟩
        · obtain ⟨x, rfl, hpage⟩ := hok ptr hptr
          exact ⟨x, (hzone.pageToPtr_eq x).symm, hpage.giveBack hp h.start_mod hfree hrel⟩

/-- A zone without pages never hands out a block, so none is released. -/
theorem releaseRun_noPages {T : Tiling Owner 0} (hrep : Represents σ.zone.sys T)
    (hlive : σ.zone.live = []) (hreleased : σ.released = []) {op : BuddyOp}
    (hallowed : op.Allowed σ.zone) (hrun : releaseRun σ op = .ok τ) :
    Represents τ.zone.sys T ∧ τ.zone.live = [] ∧ τ.released = [] := by
  cases op with
  | alloc count =>
      obtain ⟨⟨r, s⟩, halloc, hrest⟩ := exec_bind_eq_ok_iff.mp hrun
      obtain ⟨order, horder, hle⟩ := requestOrder_of_ok hallowed halloc
      rw [buddyAllocPage_noPages hrep hallowed horder hle] at halloc
      cases halloc
      cases hrest
      exact ⟨hrep, hlive, hreleased⟩
  | increase ptr =>
      obtain ⟨c, hmem⟩ := hallowed
      rw [hlive] at hmem
      cases hmem
  | free ptr =>
      obtain ⟨c, hmem⟩ := hallowed
      rw [hlive] at hmem
      cases hmem

/-- A free of a released page is told from its flag; without it, the references are
found to be gone. -/
theorem ReleasedPage.buddyFreePage_iff (h : SessionInv σ.zone T) {p : ℕ}
    (hpage : ReleasedPage σ.zone.sys T p) :
    buddyFreePage σ.zone.sys (pageToPtr σ.zone.sys p) = .ok (.efault, σ.zone.sys) ↔
      ∃ k, FreeBlock σ.zone.sys p k := by
  have hpn := hpage.inside
  have hpages := h.pages
  have hptr : pageToPtr σ.zone.sys p ≠ 0 := by
    have := h.start_ne
    unfold pageToPtr
    omega
  have hvalid : ¬pageInvalidAddr σ.zone.sys (pageToPtr σ.zone.sys p) := by
    have hmul : p * pageSize ≤ σ.zone.sys.maxPFN * pageSize :=
      Nat.mul_le_mul_right _ (by omega)
    unfold pageInvalidAddr pageToPtr
    omega
  unfold buddyFreePage
  simp only [nxAssert_pos hptr, exec_ok_bind, if_neg hvalid,
    Represents.pageFromPtr_pageToPtr h.start_mod]
  constructor
  · intro hrun
    by_cases hflag : doPageFree (σ.zone.sys.map p)
    · exact hpage.listed hflag
    · have hzero : ¬0 < (σ.zone.sys.map p).reference := by
        rw [hpage.reference]
        exact lt_irrefl 0
      rw [if_neg hflag, nxAssert_neg hzero, exec_error_bind] at hrun
      cases hrun
  · rintro ⟨k, hk⟩
    rw [if_pos (h.rep.page_ok_block (h.rep.mem_list.mp hk)).2]
    rfl

end Steps

/-! ## Runs -/

/-- In every state that allowed calls reach, a further free of a released block is
refused without a change exactly while the block is the first part of a free block. -/
theorem buddyReachable_doubleFree (raw : ℕ → Page) {mem size : ℕ} (hmem : mem ≠ 0)
    (hsize : size ≠ 0) :
    ∃ s, buddyCreate raw mem size = .ok s ∧
      ∀ σ, Reachable ReleaseMove ⟨⟨s, []⟩, []⟩ σ → ∀ ptr ∈ σ.released,
        ∃ p, ptr = pageToPtr σ.zone.sys p ∧
          (buddyFreePage σ.zone.sys ptr = .ok (.efault, σ.zone.sys) ↔
            ∃ k, FreeBlock σ.zone.sys p k) := by
  obtain ⟨s, hrun, hinit⟩ := zoneInv_create raw hmem hsize
  refine ⟨s, hrun, fun σ hreach => ?_⟩
  generalize buddyZonePages mem size = n at hinit
  obtain ⟨T, hrep, hsession | ⟨rfl, -⟩⟩ := hinit
  · have hinv : ∃ U : Tiling Owner n,
        SessionInv σ.zone U ∧ ReleasedOk σ U := by
      refine Reachable.invariant (P := fun σ => ∃ U : Tiling Owner n,
        SessionInv σ.zone U ∧ ReleasedOk σ U) hreach
        ⟨T, hsession, fun ptr hptr => absurd hptr List.not_mem_nil⟩ ?_
      rintro σ op τ ⟨U, hU, hok⟩ ⟨hallowed, hstep⟩
      exact hok.releaseRun hU hallowed hstep
    obtain ⟨U, hU, hok⟩ := hinv
    intro ptr hptr
    obtain ⟨p, rfl, hpage⟩ := hok ptr hptr
    exact ⟨p, rfl, hpage.buddyFreePage_iff hU⟩
  · have hinv : Represents σ.zone.sys T ∧ σ.zone.live = [] ∧ σ.released = [] := by
      refine Reachable.invariant
        (P := fun σ => Represents σ.zone.sys T ∧ σ.zone.live = [] ∧ σ.released = []) hreach
        ⟨hrep, rfl, rfl⟩ ?_
      rintro σ op τ ⟨hrep, hlive, hreleased⟩ ⟨hallowed, hstep⟩
      exact releaseRun_noPages hrep hlive hreleased hallowed hstep
    intro ptr hptr
    rw [hinv.2.2] at hptr
    cases hptr

/-! ## Two runs -/

instance decidableBuddyAllowed (σ : BuddySession) : (op : BuddyOp) → Decidable (op.Allowed σ)
  | .alloc count => inferInstanceAs (Decidable (count ≠ 0))
  | .increase ptr => decidable_of_iff (ptr ∈ σ.live.map Prod.fst) (by simp [BuddyOp.Allowed])
  | .free ptr => decidable_of_iff (ptr ∈ σ.live.map Prod.fst) (by simp [BuddyOp.Allowed])

def allowedReleaseStep (σ : ReleaseSession) (op : BuddyOp) : Option ReleaseSession :=
  if op.Allowed σ.zone then (releaseRun σ op).toOption else none

theorem releaseMove_of_allowedReleaseStep {σ τ : ReleaseSession} {op : BuddyOp}
    (h : allowedReleaseStep σ op = some τ) : ReleaseMove σ op τ := by
  unfold allowedReleaseStep at h
  split at h
  · next hallowed => exact ⟨hallowed, toOption_eq_some h⟩
  · cases h

/-- Calls on a zone of two pages, whose first page lies at `12288`. -/
def performTwoPages (ops : List BuddyOp) : Option ReleaseSession :=
  (buddyCreate (fun _ => ⟨0, 0, 0⟩) 4096 16384).toOption.bind fun s =>
    perform allowedReleaseStep ⟨⟨s, []⟩, []⟩ ops

theorem reachable_of_performTwoPages {ops : List BuddyOp} {σ : ReleaseSession}
    (h : performTwoPages ops = some σ) :
    ∃ s, buddyCreate (fun _ => ⟨0, 0, 0⟩) 4096 16384 = .ok s ∧
      Reachable ReleaseMove ⟨⟨s, []⟩, []⟩ σ := by
  obtain ⟨s, hcreate, hrun⟩ := Option.bind_eq_some_iff.mp h
  exact ⟨s, toOption_eq_some hcreate, .of_perform releaseMove_of_allowedReleaseStep hrun⟩

/-- The first page is released while the second is in use. -/
theorem buddyReachable_doubleFree_firstPage :
    ∃ s σ, buddyCreate (fun _ => ⟨0, 0, 0⟩) 4096 16384 = .ok s ∧
      Reachable ReleaseMove ⟨⟨s, []⟩, []⟩ σ ∧ 12288 ∈ σ.released ∧
      buddyFreePage σ.zone.sys 12288 = .ok (.efault, σ.zone.sys) := by
  have heval : (performTwoPages [.alloc 1, .alloc 1, .free 12288]).map (fun σ =>
      decide (12288 ∈ σ.released ∧ 12288 = pageToPtr σ.zone.sys 0 ∧
        0 ∈ σ.zone.sys.pageBuddy 0)) = some true := by
    decide +kernel
  obtain ⟨σ, hrun, hσ⟩ := Option.map_eq_some_iff.mp heval
  obtain ⟨hreleased, hptr, hfree⟩ := of_decide_eq_true hσ
  obtain ⟨s, hcreate, hreach⟩ := reachable_of_performTwoPages hrun
  obtain ⟨s', hcreate', hruns⟩ := @buddyReachable_doubleFree (fun _ => ⟨0, 0, 0⟩) 4096 16384
    (by decide) (by decide)
  obtain rfl := Except.ok.inj (hcreate.symm.trans hcreate')
  obtain ⟨p, hp, hiff⟩ := hruns σ hreach 12288 hreleased
  obtain rfl := pageToPtr_injective _ (hp.symm.trans hptr)
  exact ⟨s, σ, hcreate, hreach, hreleased, hiff.mpr ⟨0, hfree⟩⟩

/-- The second page is released after the first and merged with it: a further free of it
stops at the assertion on its references. -/
theorem exists_doubleFree_assertion :
    ∃ s σ, buddyCreate (fun _ => ⟨0, 0, 0⟩) 4096 16384 = .ok s ∧
      Reachable ReleaseMove ⟨⟨s, []⟩, []⟩ σ ∧ 16384 ∈ σ.released ∧
      buddyFreePage σ.zone.sys 16384 = .error .assertion := by
  have heval : (performTwoPages [.alloc 1, .alloc 1, .free 12288, .free 16384]).map (fun σ =>
      decide (16384 ∈ σ.released ∧
        (buddyFreePage σ.zone.sys 16384).map (fun _ => ()) = .error .assertion)) = some true := by
    decide +kernel
  obtain ⟨σ, hrun, hσ⟩ := Option.map_eq_some_iff.mp heval
  obtain ⟨hreleased, hfree⟩ := of_decide_eq_true hσ
  obtain ⟨s, hcreate, hreach⟩ := reachable_of_performTwoPages hrun
  refine ⟨s, σ, hcreate, hreach, hreleased, ?_⟩
  cases hresult : buddyFreePage σ.zone.sys 16384 with
  | ok r =>
      rw [hresult] at hfree
      cases hfree
  | error e =>
      rw [hresult] at hfree
      cases hfree
      rfl

end Nxos.Mm
