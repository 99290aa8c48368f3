import Nxos.Mm.Buddy.Orders

/-!
# References to blocks

A user adds references to a block it holds, and each free takes one away.  The counts
lie in the page map, which splits and merges of other blocks rewrite.  Along every run
a block has one reference more than were added and not taken away since it was handed
out, so that the block is released by exactly the free that takes the last one.
-/

namespace Nxos.Mm

open Nxos.Dyadic Nxos.Transition

/-! ## What leaves references alone -/

structure SameReferences (s t : BuddySystem) : Prop where
  pageStart : t.pageStart = s.pageStart
  reference : ∀ q, (t.map q).reference = (s.map q).reference

theorem SameReferences.refl (s : BuddySystem) : SameReferences s s :=
  ⟨rfl, fun _ => rfl⟩

theorem SameReferences.trans {s t u : BuddySystem} (h : SameReferences s t)
    (h' : SameReferences t u) : SameReferences s u :=
  ⟨h'.pageStart.trans h.pageStart, fun q => (h'.reference q).trans (h.reference q)⟩

theorem SameReferences.of_update {s t : BuddySystem} {page : ℕ} {x : Page}
    (hstart : t.pageStart = s.pageStart) (hmap : t.map = Function.update s.map page x)
    (hx : x.reference = (s.map page).reference) : SameReferences s t where
  pageStart := hstart
  reference := by
    intro q
    rw [hmap]
    by_cases hq : q = page
    · rw [hq, Function.update_self, hx]
    · rw [Function.update_of_ne hq]

theorem sameReferences_setOrder (s : BuddySystem) (page : ℕ) (order : ℤ) :
    SameReferences s (s.setOrder page order) :=
  .of_update rfl rfl rfl

/-- `BuddyAddPage` appends the page to a list and sets its flag. -/
theorem buddyAddPage_eq_ok {s t : BuddySystem} {page : ℕ} (h : buddyAddPage s page = .ok t) :
    (∃ k, t.pageBuddy = Function.update s.pageBuddy k (s.pageBuddy k ++ [page])) ∧
    t.map = Function.update s.map page
      { s.map page with flags := (s.map page).flags ||| pageFlagIsFree } ∧
    t.pageStart = s.pageStart := by
  unfold buddyAddPage at h
  dsimp only at h
  split_ifs at h
  cases h
  exact ⟨⟨_, rfl⟩, rfl, rfl⟩

/-- `BuddyDelPage` takes the page off its list and clears its flag. -/
theorem buddyDelPage_eq_ok {s t : BuddySystem} {page : ℕ} (h : buddyDelPage s page = .ok t) :
    (t.pageBuddy = fun k => (s.pageBuddy k).erase page) ∧
    t.map = Function.update s.map page
      { s.map page with flags := (s.map page).flags &&& ~~~pageFlagIsFree } ∧
    t.pageStart = s.pageStart := by
  unfold buddyDelPage at h
  dsimp only at h
  split_ifs at h <;> cases h
  · exact ⟨rfl, rfl, rfl⟩
  · exact ⟨rfl, rfl, rfl⟩

theorem sameReferences_buddyAddPage {s t : BuddySystem} {page : ℕ}
    (h : buddyAddPage s page = .ok t) : SameReferences s t := by
  obtain ⟨-, hmap, hstart⟩ := buddyAddPage_eq_ok h
  exact .of_update hstart hmap rfl

theorem sameReferences_buddyDelPage {s t : BuddySystem} {page : ℕ}
    (h : buddyDelPage s page = .ok t) : SameReferences s t := by
  obtain ⟨-, hmap, hstart⟩ := buddyDelPage_eq_ok h
  exact .of_update hstart hmap rfl

theorem sameReferences_pageSplitLoop {rounds page order : ℕ} {s t : BuddySystem}
    (h : pageSplitLoop rounds s page order = .ok t) : SameReferences s t := by
  induction rounds generalizing s with
  | zero =>
      cases h
      exact .refl _
  | succ rounds ih =>
      rw [pageSplitLoop] at h
      obtain ⟨u, hadd, hrest⟩ := exec_bind_eq_ok_iff.mp h
      exact (sameReferences_setOrder s _ _).trans
        ((sameReferences_buddyAddPage hadd).trans (ih hrest))

theorem sameReferences_pageSplit {s t : BuddySystem} {page : ℕ} {order : ℤ}
    (h : pageSplit s page order = .ok t) : SameReferences s t := by
  unfold pageSplit at h
  obtain ⟨⟨⟩, -, hrest⟩ := exec_bind_eq_ok_iff.mp h
  obtain ⟨u, hsplit, hlast⟩ := exec_bind_eq_ok_iff.mp hrest
  cases hlast
  exact (sameReferences_pageSplitLoop hsplit).trans (sameReferences_setOrder u _ _)

theorem pageMergeLoop_keeps {P : BuddySystem → Prop}
    (hdel : ∀ {s t : BuddySystem} {p : ℕ}, P s → buddyDelPage s p = .ok t → P t)
    (hset : ∀ {s : BuddySystem} (p : ℕ) (order : ℤ), P s → P (s.setOrder p order))
    {rounds pfn order : ℕ} {s : BuddySystem} {r : BuddySystem × ℕ × ℕ} (hs : P s)
    (h : pageMergeLoop rounds s pfn order = .ok r) : P r.1 := by
  induction rounds generalizing s pfn order with
  | zero =>
      cases h
      exact hs
  | succ rounds ih =>
      rw [pageMergeLoop] at h
      dsimp only at h
      by_cases hvalid : isValidPFN s (pfn ^^^ 2 ^ order)
      · rw [if_neg (not_not.mpr hvalid)] at h
        by_cases horder : (s.map (pfn ^^^ 2 ^ order)).order = order
        · rw [if_neg (not_not.mpr horder)] at h
          by_cases hflag : doPageFree (s.map (pfn ^^^ 2 ^ order))
          · rw [if_neg (not_not.mpr hflag)] at h
            obtain ⟨u, hrun, hrest⟩ := exec_bind_eq_ok_iff.mp h
            exact ih (hset _ _ (hdel hs hrun)) hrest
          · rw [if_pos hflag] at h
            cases h
            exact hs
        · rw [if_pos horder] at h
          cases h
          exact hs
      · rw [if_pos hvalid] at h
        cases h
        exact hs

theorem pageMerge_keeps {P : BuddySystem → Prop}
    (hdel : ∀ {s t : BuddySystem} {p : ℕ}, P s → buddyDelPage s p = .ok t → P t)
    (hset : ∀ {s : BuddySystem} (p : ℕ) (order : ℤ), P s → P (s.setOrder p order))
    {page : ℕ} {s : BuddySystem} {r : ℕ × BuddySystem} (hs : P s)
    (h : pageMerge s page = .ok r) : P r.2 := by
  unfold pageMerge at h
  dsimp only at h
  split_ifs at h
  obtain ⟨⟨t, q, order⟩, hmerge, hlast⟩ := exec_bind_eq_ok_iff.mp h
  cases hlast
  exact hset q order (pageMergeLoop_keeps hdel hset hs hmerge)

theorem sameReferences_pageMerge {s : BuddySystem} {page : ℕ} {r : ℕ × BuddySystem}
    (h : pageMerge s page = .ok r) : SameReferences s r.2 :=
  pageMerge_keeps (P := SameReferences s)
    (fun hs hdel => hs.trans (sameReferences_buddyDelPage hdel))
    (fun p order hs => hs.trans (sameReferences_setOrder _ p order)) (.refl s) h

/-! ## What changes the references of one page -/

/-- `PagePrepareUsed` gives the page one reference, and the others keep theirs. -/
theorem pagePrepareUsed_references {s t : BuddySystem} {page ptr : ℕ} {order : ℤ}
    (h : pagePrepareUsed s page order = .ok (ptr, t)) :
    ptr = pageToPtr s page ∧
      ∀ q, q ≠ page → (t.map q).reference = (s.map q).reference := by
  unfold pagePrepareUsed at h
  obtain ⟨⟨⟩, -, h⟩ := exec_bind_eq_ok_iff.mp h
  obtain ⟨u, hdel, h⟩ := exec_bind_eq_ok_iff.mp h
  obtain ⟨v, hsplit, h⟩ := exec_bind_eq_ok_iff.mp h
  have huv : SameReferences u v := by
    split_ifs at hsplit
    · exact sameReferences_pageSplit hsplit
    · cases hsplit
      exact .refl _
  have hsv := (sameReferences_buddyDelPage hdel).trans huv
  cases h
  constructor
  · exact congrArg (· + page * pageSize) hsv.pageStart
  · intro q hq
    refine Eq.trans ?_ (hsv.reference q)
    exact congrArg Page.reference (Function.update_of_ne hq ..)

theorem buddyAllocPage_references {s t : BuddySystem} {count : BitVec 64} {p : ℕ}
    (h : buddyAllocPage s count = .ok (some (pageToPtr s p), t)) :
    ∀ q, q ≠ p → (t.map q).reference = (s.map q).reference := by
  unfold buddyAllocPage at h
  obtain ⟨⟨⟩, -, h⟩ := exec_bind_eq_ok_iff.mp h
  obtain ⟨found, -, h⟩ := exec_bind_eq_ok_iff.mp h
  cases found with
  | none => cases h
  | some page =>
      obtain ⟨⟨ptr, u⟩, hprepare, hlast⟩ := exec_bind_eq_ok_iff.mp h
      obtain ⟨hptr, hreference⟩ := pagePrepareUsed_references hprepare
      simp only [exec_pure, Except.ok.injEq, Prod.mk.injEq, Option.some.injEq] at hlast
      obtain ⟨hpage, rfl⟩ := hlast
      rw [hptr] at hpage
      rw [← pageToPtr_injective s hpage]
      exact hreference

/-- What `NX_BuddyFreePage` does to the system: nothing, or it takes a reference away, or
it also merges the block and puts it on its list. -/
theorem buddyFreePage_cases {s t : BuddySystem} {p : ℕ} {err : NxError}
    (hstart : s.pageStart % pageSize = 0)
    (h : buddyFreePage s (pageToPtr s p) = .ok (err, t)) :
    (err ≠ .eok ∧ (t = s ∨ t = s.setReference p ((s.map p).reference - 1))) ∨
    ∃ used page u, err = .eok ∧
      pageMerge { s.setReference p ((s.map p).reference - 1) with usedPage := used } p =
        .ok (page, u) ∧ buddyAddPage u page = .ok t := by
  unfold buddyFreePage at h
  obtain ⟨⟨⟩, -, h⟩ := exec_bind_eq_ok_iff.mp h
  split_ifs at h
  · cases h
    exact .inl ⟨by decide, .inl rfl⟩
  · rw [Represents.pageFromPtr_pageToPtr hstart, exec_ok_bind] at h
    split_ifs at h
    · cases h
      exact .inl ⟨by decide, .inl rfl⟩
    · obtain ⟨⟨⟩, -, h⟩ := exec_bind_eq_ok_iff.mp h
      dsimp only at h
      split_ifs at h
      · cases h
        exact .inl ⟨by decide, .inr rfl⟩
      · obtain ⟨⟨page, u⟩, hmerge, h⟩ := exec_bind_eq_ok_iff.mp h
        obtain ⟨v, hadd, h⟩ := exec_bind_eq_ok_iff.mp h
        cases h
        exact .inr ⟨_, page, u, rfl, hmerge, hadd⟩

theorem buddyFreePage_references {s t : BuddySystem} {p : ℕ} {err : NxError}
    (hstart : s.pageStart % pageSize = 0)
    (h : buddyFreePage s (pageToPtr s p) = .ok (err, t)) :
    ∀ q, q ≠ p → (t.map q).reference = (s.map q).reference := by
  have hother : ∀ (r : ℤ) (q : ℕ), q ≠ p →
      ((s.setReference p r).map q).reference = (s.map q).reference :=
    fun r q hq => congrArg Page.reference (Function.update_of_ne hq ..)
  intro q hq
  rcases buddyFreePage_cases hstart h with ⟨-, rfl | rfl⟩ | ⟨used, page, u, -, hmerge, hadd⟩
  · rfl
  · exact hother _ q hq
  · rw [(sameReferences_buddyAddPage hadd).reference, (sameReferences_pageMerge hmerge).reference]
    exact hother _ q hq

/-! ## Sessions with references -/

/-- A zone in use, with the references that were added to each block and not taken away
since it was handed out. -/
structure RefSession where
  zone : BuddySession
  added : ℕ → ℕ

def refRun (σ : RefSession) : BuddyOp → Exec RefSession
  | .alloc count => do
      match ← buddyAllocPage σ.zone.sys count with
      | (some ptr, s) =>
          return ⟨⟨s, (ptr, 2 ^ (requestOrder count).toNat) :: σ.zone.live⟩,
            Function.update σ.added ptr 0⟩
      | (none, s) => return ⟨⟨s, σ.zone.live⟩, σ.added⟩
  | .increase ptr => do
      let (err, s) ← buddyIncreasePage σ.zone.sys ptr
      return ⟨⟨s, σ.zone.live⟩,
        if err = .eok then Function.update σ.added ptr (σ.added ptr + 1) else σ.added⟩
  | .free ptr => do
      let (err, s) ← buddyFreePage σ.zone.sys ptr
      return ⟨⟨s, if err = .eok then σ.zone.live.filter (fun b => b.1 ≠ ptr) else σ.zone.live⟩,
        if err = .eagain then Function.update σ.added ptr (σ.added ptr - 1) else σ.added⟩

theorem zoneRun_of_refRun {σ τ : RefSession} {op : BuddyOp} (h : refRun σ op = .ok τ) :
    zoneRun σ.zone op = .ok τ.zone := by
  cases op with
  | alloc count =>
      obtain ⟨⟨r, s⟩, hrun, hrest⟩ := exec_bind_eq_ok_iff.mp h
      simp only [zoneRun, hrun, exec_ok_bind]
      cases r <;> cases hrest <;> rfl
  | increase ptr =>
      obtain ⟨⟨err, s⟩, hrun, hrest⟩ := exec_bind_eq_ok_iff.mp h
      simp only [zoneRun, hrun, exec_ok_bind]
      cases hrest
      rfl
  | free ptr =>
      obtain ⟨⟨err, s⟩, hrun, hrest⟩ := exec_bind_eq_ok_iff.mp h
      simp only [zoneRun, hrun, exec_ok_bind]
      cases hrest
      rfl

/-- A block has one reference more than were added. -/
def ReferencesCounted (σ : RefSession) : Prop :=
  ∀ p c, (pageToPtr σ.zone.sys p, c) ∈ σ.zone.live →
    (σ.zone.sys.map p).reference = σ.added (pageToPtr σ.zone.sys p) + 1

section Steps

variable {σ τ : RefSession} {n : ℕ} {T : Tiling Owner n}

theorem ReferencesCounted.set (href : ReferencesCounted σ) {p r : ℕ} {live : List (ℕ × ℕ)}
    (hlive : ∀ b ∈ live, b ∈ σ.zone.live) :
    ReferencesCounted ⟨⟨σ.zone.sys.setReference p (r + 1), live⟩,
      Function.update σ.added (pageToPtr σ.zone.sys p) r⟩ := by
  intro q c hq
  have hptr : ∀ q, pageToPtr (σ.zone.sys.setReference p (r + 1)) q = pageToPtr σ.zone.sys q :=
    fun _ => rfl
  dsimp only at hq ⊢
  rw [hptr] at hq ⊢
  by_cases hqp : q = p
  · rw [hqp, Function.update_self]
    exact congrArg Page.reference (Function.update_self p _ σ.zone.sys.map)
  · rw [Function.update_of_ne fun heq => hqp (pageToPtr_injective _ heq)]
    refine Eq.trans ?_ (href q c (hlive _ hq))
    exact congrArg Page.reference (Function.update_of_ne hqp ..)

theorem ReferencesCounted.refRun (href : ReferencesCounted σ) (h : SessionInv σ.zone T)
    {op : BuddyOp} (hallowed : op.Allowed σ.zone) (hrun : Mm.refRun σ op = .ok τ) :
    ReferencesCounted τ := by
  cases op with
  | alloc count =>
      obtain ⟨⟨r, s⟩, halloc, hrest⟩ := exec_bind_eq_ok_iff.mp hrun
      obtain ⟨order, horder, hle⟩ := requestOrder_of_ok hallowed halloc
      rcases h.rep.buddyAllocPage_of_order hallowed horder hle with
        ⟨s', U, p, k, hrun', -, -, -, -, hone, hzone, -⟩ | ⟨hrun', -⟩
      · rw [halloc] at hrun'
        cases hrun'
        cases hrest
        have hother := buddyAllocPage_references halloc
        intro q c hq
        dsimp only at hq ⊢
        rw [hzone.pageToPtr_eq] at hq ⊢
        by_cases hqp : q = p
        · rw [hqp, Function.update_self, hone]
          rfl
        · have hptr : pageToPtr σ.zone.sys q ≠ pageToPtr σ.zone.sys p :=
            fun heq => hqp (pageToPtr_injective _ heq)
          rw [Function.update_of_ne hptr, hother q hqp]
          refine href q c ?_
          rcases List.mem_cons.mp hq with heq | hq
          · exact absurd (congrArg Prod.fst heq) hptr
          · exact hq
      · rw [halloc] at hrun'
        cases hrun'
        cases hrest
        exact href
  | increase ptr =>
      obtain ⟨c, hlive⟩ := hallowed
      obtain ⟨p, rfl, hp⟩ := h.used_of_live hlive
      obtain ⟨hincrease, -⟩ := h.rep.buddyIncreasePage h.pages h.start_mod h.start_ne hp
      simp only [Mm.refRun, hincrease] at hrun
      cases hrun
      rw [href p c hlive]
      exact href.set fun _ hb => hb
  | free ptr =>
      obtain ⟨c, hlive⟩ := hallowed
      obtain ⟨p, rfl, hp⟩ := h.used_of_live hlive
      have hcount := href p c hlive
      obtain ⟨⟨err, s⟩, hfree, hrest⟩ := exec_bind_eq_ok_iff.mp hrun
      rcases h.rep.buddyFreePage_of_ok h.pages h.start_mod h.start_ne hp h.no_hand hfree with
        ⟨hmore, rfl, rfl, -⟩ | ⟨-, rfl, U, -, -, hzone, -⟩
      · cases hrest
        have hleft : (σ.zone.sys.map p).reference - 1 =
            ((σ.added (pageToPtr σ.zone.sys p) - 1 : ℕ) : ℤ) + 1 := by
          omega
        rw [hleft]
        exact href.set fun _ hb => hb
      · have hother := buddyFreePage_references h.start_mod hfree
        cases hrest
        intro q d hq
        dsimp only at hq ⊢
        rw [hzone.pageToPtr_eq] at hq ⊢
        obtain ⟨hq, hne⟩ := List.mem_filter.mp hq
        have hqp : q ≠ p := by
          rintro rfl
          simp at hne
        rw [hother q hqp]
        exact href q d hq

theorem Represents.ReleasedFrom.free_of_covers {U : Tiling Owner n} {p k x : ℕ}
    (hrel : Represents.ReleasedFrom T U p) (hp : T.block p = some (.used, k))
    (hx : Covers p k x) : ∃ q j, U.block q = some (.free, j) ∧ Covers q j x := by
  have hxn : x < n := by
    have hin := T.inside hp
    unfold Covers at hx
    omega
  obtain ⟨q, w, j, hq, hqx⟩ := U.covered x hxn
  cases w with
  | free => exact ⟨q, j, hq, hqx⟩
  | hand => exact absurd hq (hrel.hand_none q j)
  | used =>
      obtain ⟨hne, hq'⟩ := (hrel.used_iff q j).mp hq
      exact absurd (T.disjoint hq' hp hqx hx) hne

end Steps

/-! ## Runs -/

def RefMove (σ : RefSession) (op : BuddyOp) (τ : RefSession) : Prop :=
  (op.Allowed σ.zone ∧ op.MergeFits σ.zone) ∧ refRun σ op = .ok τ

/-- What frees of the block at `p` do: those that leave references change nothing but
the count, the one that takes the last makes the block free; until then no request
gets one of its pages. -/
structure FreedByLast (σ : RefSession) (p : ℕ) : Prop where
  again : 0 < σ.added (pageToPtr σ.zone.sys p) →
    buddyFreePage σ.zone.sys (pageToPtr σ.zone.sys p) = .ok (.eagain,
      σ.zone.sys.setReference p (σ.added (pageToPtr σ.zone.sys p)))
  last : σ.added (pageToPtr σ.zone.sys p) = 0 → ReleaseFits σ.zone.sys p →
    ∃ t, buddyFreePage σ.zone.sys (pageToPtr σ.zone.sys p) = .ok (.eok, t) ∧
      ∀ x, Covers p (σ.zone.sys.map p).order.toNat x → ∃ q k, FreeBlock t q k ∧ Covers q k x
  apart : ∀ count q t, buddyAllocPage σ.zone.sys count = .ok (some (pageToPtr σ.zone.sys q), t) →
    ∀ x, Covers p (σ.zone.sys.map p).order.toNat x → ¬Covers q (requestOrder count).toNat x

theorem SessionInv.freedByLast {σ : RefSession} {n : ℕ} {T : Tiling Owner n}
    (h : SessionInv σ.zone T) (href : ReferencesCounted σ) {p c : ℕ}
    (hlive : (pageToPtr σ.zone.sys p, c) ∈ σ.zone.live) : FreedByLast σ p := by
  obtain ⟨q, hq, hp⟩ := h.used_of_live hlive
  have hpq := pageToPtr_injective _ hq
  subst hpq
  have hcount := href p c hlive
  constructor
  · intro hadded
    rcases h.rep.buddyFreePage h.pages h.start_mod h.start_ne
      (fun hone => by omega) hp h.no_hand with ⟨-, hfree, -⟩ | ⟨hone, -⟩
    · rw [hfree, hcount, Int.add_sub_cancel]
    · omega
  · intro hadded hfits
    rcases h.rep.buddyFreePage h.pages h.start_mod h.start_ne
      (fun _ => h.mergesWithin hp hfits) hp h.no_hand with
      ⟨hmore, -⟩ | ⟨-, t, U, hfree, hrep, hrel, -⟩
    · omega
    · refine ⟨t, hfree, ?_⟩
      rw [h.rep.order_of_used hp, Int.toNat_natCast]
      intro x hx
      obtain ⟨q, j, hq, hqx⟩ := hrel.free_of_covers hp hx
      exact ⟨q, j, hrep.mem_list.mpr hq, hqx⟩
  · intro count q t halloc x
    have hpos : count ≠ 0 := by
      rintro rfl
      cases halloc
    obtain ⟨order, horder, hle⟩ := requestOrder_of_ok hpos halloc
    rw [h.rep.order_of_used hp, Int.toNat_natCast, horder, Int.toNat_natCast]
    rcases h.rep.buddyAllocPage_of_order hpos horder hle with
      ⟨s', U, r, k, hrun, -, hr, -, -, -, -, -, hk⟩ | ⟨hrun, -⟩
    · rw [halloc] at hrun
      simp only [Except.ok.injEq, Prod.mk.injEq, Option.some.injEq] at hrun
      have hqr := pageToPtr_injective _ hrun.1
      subst hqr
      intro hpx hqx
      -- the block that is handed out is the start of a free one
      have hqx' : Covers q k x :=
        ⟨hqx.1, Nat.lt_of_lt_of_le hqx.2
          (Nat.add_le_add_left (Nat.pow_le_pow_right (by decide) hk) q)⟩
      have heq := T.disjoint hp hr hpx hqx'
      rw [heq, hr] at hp
      cases hp
    · rw [halloc] at hrun
      cases hrun

end Nxos.Mm
