import Mathlib.Data.BitVec
import Nxos.Mm.Buddy.Session

/-!
# Zones and requests of any size

The arrays of the allocator have one entry for each order up to the largest.  A zone
of twice the largest block can hold two of these side by side, and a request can be
for any 64-bit number of pages.  As long as no request and no merge goes beyond the
largest order, every call returns; the calls that do are the ones that leave the
arrays.
-/

namespace Nxos.Mm

open Nxos.Dyadic Nxos.Transition

/-! ## Calls with any count -/

/-- What a user may call: any count but zero, pointers it holds. -/
def BuddyOp.Allowed (σ : BuddySession) : BuddyOp → Prop
  | .alloc count => count ≠ 0
  | .increase ptr => ∃ c, (ptr, c) ∈ σ.live
  | .free ptr => ∃ c, (ptr, c) ∈ σ.live

/-- Run one call.  A block is recorded with its own number of pages: the order that is
computed for a count beyond `2 ^ 63` does not fit the count. -/
def zoneRun (σ : BuddySession) : BuddyOp → Exec BuddySession
  | .alloc count => do
      match ← buddyAllocPage σ.sys count with
      | (some ptr, s) => return ⟨s, (ptr, 2 ^ (requestOrder count).toNat) :: σ.live⟩
      | (none, s) => return ⟨s, σ.live⟩
  | .increase ptr => do
      let (_, s) ← buddyIncreasePage σ.sys ptr
      return ⟨s, σ.live⟩
  | .free ptr => do
      let (err, s) ← buddyFreePage σ.sys ptr
      return ⟨s, if err = .eok then σ.live.filter (fun b => b.1 ≠ ptr) else σ.live⟩

/-- Releasing the block at `p` does not complete a block of the largest order whose
buddy is free.  Otherwise the whole block of that order around `p`, the released block
apart, is free already. -/
def ReleaseFits (s : BuddySystem) (p : ℕ) : Prop :=
  ∀ b, 2 ^ maxPageOrder ∣ b → Covers b maxPageOrder p →
    (∀ y, Covers b maxPageOrder y →
      Covers p (s.map p).order.toNat y ∨ ∃ q k, FreeBlock s q k ∧ Covers q k y) →
    ¬FreeBlock s (b ^^^ 2 ^ maxPageOrder) maxPageOrder

/-- A call that frees the last reference to a block stays within the largest order. -/
def BuddyOp.MergeFits (σ : BuddySession) : BuddyOp → Prop
  | .alloc _ => True
  | .increase _ => True
  | .free ptr => ∀ p, ptr = pageToPtr σ.sys p → (σ.sys.map p).reference = 1 →
      ReleaseFits σ.sys p

/-- A request is for at most `2 ^ 20` pages, or the order computed for it is one of the
arrays and there is no free block for it. -/
def BuddyOp.RequestFits (σ : BuddySession) : BuddyOp → Prop
  | .alloc count => count.toNat ≤ 2 ^ maxPageOrder ∨ ∃ order : ℕ, requestOrder count = order ∧
      order ≤ maxPageOrder ∧ ∀ k, order ≤ k → σ.sys.pageBuddy k = []
  | .increase _ => True
  | .free _ => True

section Steps

variable {σ τ : BuddySession} {n : ℕ} {T : Tiling Owner n}

theorem SessionInv.mergesWithin (h : SessionInv σ T) {p k : ℕ}
    (hp : T.block p = some (.used, k)) (hfits : ReleaseFits σ.sys p) :
    Represents.MergesWithin T p k := by
  intro b hb hbp hloose hbuddy
  refine hfits b hb hbp ?_ (h.rep.mem_list.mpr hbuddy)
  intro y hy
  rw [h.rep.order_of_used hp, Int.toNat_natCast]
  rcases hloose y hy with hself | ⟨q, w, j, hq, hw, hqy⟩
  · exact Or.inl hself
  · cases w with
    | used => exact absurd rfl hw
    | hand => exact absurd hq (h.no_hand q j)
    | free => exact Or.inr ⟨q, j, h.rep.mem_list.mpr hq, hqy⟩

theorem requestOrder_of_ok {s : BuddySystem} {count : BitVec 64} (hpos : count ≠ 0)
    {r : Option ℕ × BuddySystem} (hrun : buddyAllocPage s count = .ok r) :
    ∃ order : ℕ, requestOrder count = order ∧ order ≤ maxPageOrder := by
  unfold buddyAllocPage at hrun
  rw [nxAssert_pos hpos, exec_ok_bind] at hrun
  obtain ⟨found, hfound, -⟩ := exec_bind_eq_ok_iff.mp hrun
  change buddyLocateFree s (requestOrder count) = _ at hfound
  unfold buddyLocateFree at hfound
  obtain ⟨⟨⟩, hnonneg, hrest⟩ := exec_bind_eq_ok_iff.mp hfound
  rw [nxAssert_eq_ok_iff] at hnonneg
  refine ⟨(requestOrder count).toNat, (Int.toNat_of_nonneg hnonneg).symm, ?_⟩
  by_contra hgt
  rw [if_pos (by omega)] at hrest
  cases hrest

/-- What a call does to the blocks in use and to the count of their pages. -/
inductive UsedChange (T U : Tiling Owner n) (s t : BuddySystem) : Prop where
  | kept (hblocks : U = T) (hcount : t.usedPage = s.usedPage)
  | taken (p k : ℕ) (hnew : U.block p = some (.used, k))
      (hold : ∀ j, T.block p ≠ some (.used, j))
      (hsame : ∀ q j, q ≠ p → (U.block q = some (.used, j) ↔ T.block q = some (.used, j)))
      (hcount : t.usedPage = s.usedPage + BitVec.ofNat 64 (2 ^ k))
  | returned (p k : ℕ) (hold : T.block p = some (.used, k))
      (hgone : ∀ j, U.block p ≠ some (.used, j))
      (hsame : ∀ q j, q ≠ p → (U.block q = some (.used, j) ↔ T.block q = some (.used, j)))
      (hcount : t.usedPage = s.usedPage - BitVec.ofNat 64 (2 ^ k))

theorem UsedChange.of_split {U : Tiling Owner n} {s t : BuddySystem} {p k order : ℕ}
    (hp : T.block p = some (.free, k)) (hU : U.block p = some (.used, order))
    (hfrom : Represents.SplitFrom T U p order k)
    (hcount : t.usedPage = s.usedPage + BitVec.ofNat 64 (2 ^ order)) :
    UsedChange T U s t := by
  refine .taken p order hU ?_ ?_ hcount
  · intro j hj
    rw [hp] at hj
    cases hj
  · intro q j hqp
    rw [hfrom q .used j hqp]
    simp

theorem UsedChange.of_released {U : Tiling Owner n} {s t : BuddySystem} {p k : ℕ}
    (hp : T.block p = some (.used, k)) (hrel : Represents.ReleasedFrom T U p)
    (hcount : t.usedPage = s.usedPage - BitVec.ofNat 64 (2 ^ k)) : UsedChange T U s t := by
  refine .returned p k hp ?_ ?_ hcount
  · intro j hj
    exact ((hrel.used_iff p j).mp hj).1 rfl
  · intro q j hqp
    rw [hrel.used_iff]
    exact and_iff_right hqp

/-- A call that returns keeps the invariant and counts the pages of the block that it
hands out or takes back. -/
theorem SessionInv.zoneRun_change (h : SessionInv σ T) {op : BuddyOp}
    (hallowed : op.Allowed σ) (hrun : Mm.zoneRun σ op = .ok τ) :
    ∃ U : Tiling Owner n, SessionInv τ U ∧ UsedChange T U σ.sys τ.sys := by
  cases op with
  | alloc count =>
      obtain ⟨⟨r, s⟩, halloc, hrest⟩ := exec_bind_eq_ok_iff.mp hrun
      obtain ⟨order, horder, hle⟩ := requestOrder_of_ok hallowed halloc
      rcases h.rep.buddyAllocPage_of_order hallowed horder hle with
        ⟨s', U, p, k, hrun', hrep, hp, hU, hfrom, -, hzone, hused, -⟩ | ⟨hrun', -⟩
      · rw [halloc] at hrun'
        cases hrun'
        cases hrest
        refine ⟨U, ?_, .of_split hp hU hfrom hused⟩
        rw [horder, Int.toNat_natCast]
        refine h.handOut hrep hzone hp ?_ ?_
        · rw [Nat.clog_pow 2 order (by decide)]
          exact hU
        · rw [Nat.clog_pow 2 order (by decide)]
          exact hfrom
      · rw [halloc] at hrun'
        cases hrun'
        cases hrest
        exact ⟨T, h, .kept rfl rfl⟩
  | increase ptr =>
      obtain ⟨c, hlive⟩ := hallowed
      obtain ⟨p, rfl, hp⟩ := h.used_of_live hlive
      obtain ⟨hincrease, hrep⟩ := h.rep.buddyIncreasePage h.pages h.start_mod h.start_ne hp
      simp only [Mm.zoneRun, hincrease] at hrun
      cases hrun
      exact ⟨T, h.setReference hrep, .kept rfl rfl⟩
  | free ptr =>
      obtain ⟨c, hlive⟩ := hallowed
      obtain ⟨p, rfl, hp⟩ := h.used_of_live hlive
      obtain ⟨⟨err, s⟩, hfree, hrest⟩ := exec_bind_eq_ok_iff.mp hrun
      rcases h.rep.buddyFreePage_of_ok h.pages h.start_mod h.start_ne hp h.no_hand hfree with
        ⟨-, rfl, rfl, hrep⟩ | ⟨-, rfl, U, hrep, hrel, hzone, hused⟩
      · cases hrest
        exact ⟨T, h.setReference hrep, .kept rfl rfl⟩
      · cases hrest
        exact ⟨U, h.giveBack hrep hzone hrel, .of_released hp hrel hused⟩

theorem SessionInv.zoneRun (h : SessionInv σ T) {op : BuddyOp} (hallowed : op.Allowed σ)
    (hrun : Mm.zoneRun σ op = .ok τ) : ∃ U : Tiling Owner n, SessionInv τ U := by
  obtain ⟨U, hU, -⟩ := h.zoneRun_change hallowed hrun
  exact ⟨U, hU⟩

theorem SessionInv.zoneRun_ok (h : SessionInv σ T) {op : BuddyOp} (hallowed : op.Allowed σ)
    (hmerge : op.MergeFits σ) (hrequest : op.RequestFits σ) :
    ∃ τ, Mm.zoneRun σ op = .ok τ := by
  cases op with
  | alloc count =>
      have hreturns : ∃ r, buddyAllocPage σ.sys count = .ok r := by
        have horder : ∃ order : ℕ, requestOrder count = order ∧ order ≤ maxPageOrder := by
          rcases hrequest with hle | ⟨order, horder, hle, -⟩
          · exact ⟨_, requestOrder_eq_clog hallowed
              (hle.trans (Nat.pow_le_pow_right (by decide) (by decide))),
              Nat.clog_le_of_le_pow hle⟩
          · exact ⟨order, horder, hle⟩
        obtain ⟨order, horder, hle⟩ := horder
        rcases h.rep.buddyAllocPage_of_order hallowed horder hle with
          ⟨s, -, p, -, hrun, -⟩ | ⟨hrun, -⟩
        · exact ⟨_, hrun⟩
        · exact ⟨_, hrun⟩
      obtain ⟨⟨r, s⟩, hrun⟩ := hreturns
      simp only [Mm.zoneRun, hrun, exec_ok_bind]
      cases r with
      | none => exact ⟨_, rfl⟩
      | some ptr => exact ⟨_, rfl⟩
  | increase ptr =>
      obtain ⟨c, hlive⟩ := hallowed
      obtain ⟨p, rfl, hp⟩ := h.used_of_live hlive
      obtain ⟨hincrease, -⟩ := h.rep.buddyIncreasePage h.pages h.start_mod h.start_ne hp
      simp only [Mm.zoneRun, hincrease]
      exact ⟨_, rfl⟩
  | free ptr =>
      obtain ⟨c, hlive⟩ := hallowed
      obtain ⟨p, rfl, hp⟩ := h.used_of_live hlive
      simp only [Mm.zoneRun]
      rcases h.rep.buddyFreePage h.pages h.start_mod h.start_ne
        (fun hone => h.mergesWithin hp (hmerge p rfl hone)) hp h.no_hand with
        ⟨-, hfree, -⟩ | ⟨-, s, -, hfree, -⟩
      · rw [hfree]
        exact ⟨_, rfl⟩
      · rw [hfree]
        exact ⟨_, rfl⟩

/-! ## Zones of any size -/

/-- The invariant of a zone with `n` pages; a zone without pages has no blocks. -/
def ZoneInv (n : ℕ) (σ : BuddySession) : Prop :=
  ∃ T : Tiling Owner n, Represents σ.sys T ∧ (SessionInv σ T ∨ n = 0 ∧ σ.live = [])

theorem buddyAllocPage_noPages {T : Tiling Owner 0} (h : Represents σ.sys T)
    {count : BitVec 64} (hpos : count ≠ 0) {order : ℕ} (horder : requestOrder count = order)
    (hle : order ≤ maxPageOrder) : buddyAllocPage σ.sys count = .ok (none, σ.sys) := by
  rcases h.buddyAllocPage_of_order hpos horder hle with
    ⟨-, -, p, k, -, -, hp, -⟩ | ⟨hrun, -⟩
  · exact absurd (h.lt_of_block hp) (Nat.not_lt_zero p)
  · exact hrun

theorem zoneRun_noPages {T : Tiling Owner 0} (h : Represents σ.sys T) (hlive : σ.live = [])
    {op : BuddyOp} (hallowed : op.Allowed σ) (hrun : zoneRun σ op = .ok τ) : τ = σ := by
  cases op with
  | alloc count =>
      obtain ⟨⟨r, s⟩, halloc, hrest⟩ := exec_bind_eq_ok_iff.mp hrun
      obtain ⟨order, horder, hle⟩ := requestOrder_of_ok hallowed halloc
      rw [buddyAllocPage_noPages h hallowed horder hle] at halloc
      cases halloc
      cases hrest
      rfl
  | increase ptr =>
      obtain ⟨c, hmem⟩ := hallowed
      rw [hlive] at hmem
      cases hmem
  | free ptr =>
      obtain ⟨c, hmem⟩ := hallowed
      rw [hlive] at hmem
      cases hmem

theorem ZoneInv.zoneRun (h : ZoneInv n σ) {op : BuddyOp} (hallowed : op.Allowed σ)
    (hrun : Mm.zoneRun σ op = .ok τ) : ZoneInv n τ := by
  obtain ⟨T, hrep, hsession | ⟨rfl, hlive⟩⟩ := h
  · obtain ⟨U, hU⟩ := hsession.zoneRun hallowed hrun
    exact ⟨U, hU.rep, Or.inl hU⟩
  · rw [zoneRun_noPages hrep hlive hallowed hrun]
    exact ⟨T, hrep, Or.inr ⟨rfl, hlive⟩⟩

theorem BuddyOp.RequestFits.order {count : BitVec 64} (hpos : count ≠ 0)
    (h : (BuddyOp.alloc count).RequestFits σ) :
    ∃ order : ℕ, requestOrder count = order ∧ order ≤ maxPageOrder := by
  rcases h with hle | ⟨order, horder, hle, -⟩
  · exact ⟨_, requestOrder_eq_clog hpos
      (hle.trans (Nat.pow_le_pow_right (by decide) (by decide))), Nat.clog_le_of_le_pow hle⟩
  · exact ⟨order, horder, hle⟩

theorem ZoneInv.zoneRun_ok (h : ZoneInv n σ) {op : BuddyOp} (hallowed : op.Allowed σ)
    (hmerge : op.MergeFits σ) (hrequest : op.RequestFits σ) :
    ∃ τ, Mm.zoneRun σ op = .ok τ := by
  obtain ⟨T, hrep, hsession | ⟨rfl, hlive⟩⟩ := h
  · exact hsession.zoneRun_ok hallowed hmerge hrequest
  · cases op with
    | alloc count =>
        obtain ⟨order, horder, hle⟩ := hrequest.order hallowed
        simp only [Mm.zoneRun, buddyAllocPage_noPages hrep hallowed horder hle]
        exact ⟨_, rfl⟩
    | increase ptr =>
        obtain ⟨c, hmem⟩ := hallowed
        rw [hlive] at hmem
        cases hmem
    | free ptr =>
        obtain ⟨c, hmem⟩ := hallowed
        rw [hlive] at hmem
        cases hmem

/-- Every order of the zone is one of the arrays. -/
structure OrdersWithin (n : ℕ) (s : BuddySystem) : Prop where
  page : ∀ p, p < n → (s.map p).order ≤ maxPageOrder
  list : ∀ k, maxPageOrder < k → s.pageBuddy k = []
  count : ∀ k, maxPageOrder < k → s.count k = 0

theorem ZoneInv.ordersWithin (h : ZoneInv n σ) : OrdersWithin n σ.sys := by
  obtain ⟨T, hrep, hinv⟩ := h
  constructor
  · intro p hp
    rcases hinv with hsession | ⟨rfl, -⟩
    · have hok := hrep.page_ok p hp
      cases hb : T.block p with
      | none =>
          rw [hb] at hok
          exact le_trans (le_of_lt hok) (Int.natCast_nonneg _)
      | some b =>
          obtain ⟨w, k⟩ := b
          have hk := hrep.order_le hb
          cases w with
          | free =>
              rw [hrep.order_of_free hb]
              exact Int.ofNat_le.mpr hk
          | used =>
              rw [hrep.order_of_used hb]
              exact Int.ofNat_le.mpr hk
          | hand => exact absurd hb (hsession.no_hand p k)
    · exact absurd hp (Nat.not_lt_zero p)
  · exact fun k hk => hrep.list_empty_of_gt hk
  · intro k hk
    rw [hrep.count_eq, hrep.list_empty_of_gt hk]
    rfl

theorem zoneInv_create (raw : ℕ → Page) {mem size : ℕ} (hmem : mem ≠ 0) (hsize : size ≠ 0) :
    ∃ s, buddyCreate raw mem size = .ok s ∧ ZoneInv (buddyZonePages mem size) ⟨s, []⟩ := by
  obtain ⟨s, hrun, hpages, hmod, hne, T, hrep, hfresh⟩ := buddyCreate_spec raw hmem hsize
  refine ⟨s, hrun, T, hrep, ?_⟩
  by_cases hzero : buddyZonePages mem size = 0
  · exact Or.inr ⟨hzero, rfl⟩
  · exact Or.inl (sessionInv_create hrep (hpages (by omega)) hmod hne hfresh)

def FittingMove (σ : BuddySession) (op : BuddyOp) (τ : BuddySession) : Prop :=
  (op.Allowed σ ∧ op.MergeFits σ ∧ op.RequestFits σ) ∧ zoneRun σ op = .ok τ

/-- In zones of any size, as long as the calls fit: no order leaves the arrays, every
call returns, and a request for more than `2 ^ 20` pages gets nothing and changes
nothing. -/
theorem buddyReachable_ordersWithin (raw : ℕ → Page) {mem size : ℕ} (hmem : mem ≠ 0)
    (hsize : size ≠ 0) :
    ∃ s, buddyCreate raw mem size = .ok s ∧
      ∀ σ, Reachable FittingMove ⟨s, []⟩ σ →
        OrdersWithin (buddyZonePages mem size) σ.sys ∧
        (∀ op : BuddyOp, op.Allowed σ → op.MergeFits σ → op.RequestFits σ →
          ∃ τ, zoneRun σ op = .ok τ) ∧
        ∀ count : BitVec 64, 2 ^ maxPageOrder < count.toNat →
          (BuddyOp.alloc count).RequestFits σ →
          buddyAllocPage σ.sys count = .ok (none, σ.sys) := by
  obtain ⟨s, hrun, hinit⟩ := zoneInv_create raw hmem hsize
  refine ⟨s, hrun, fun σ hreach => ?_⟩
  have hinv : ZoneInv (buddyZonePages mem size) σ := by
    refine hreach.invariant hinit ?_
    rintro σ op τ hσ ⟨⟨hallowed, -, -⟩, hstep⟩
    exact hσ.zoneRun hallowed hstep
  refine ⟨hinv.ordersWithin, fun op => hinv.zoneRun_ok, ?_⟩
  intro count hlarge hrequest
  have hpos : count ≠ 0 := by
    rintro rfl
    exact absurd hlarge (by decide)
  rcases hrequest with hle | ⟨order, horder, hle, hnone⟩
  · exact absurd hle (Nat.not_le_of_lt hlarge)
  · obtain ⟨T, hrep, -⟩ := hinv
    rcases hrep.buddyAllocPage_of_order hpos horder hle with
      ⟨-, -, p, k, -, -, hp, -, -, -, -, -, hk⟩ | ⟨hrun, -⟩
    · have hmem := hrep.mem_list.mpr hp
      rw [hnone k hk] at hmem
      cases hmem
    · exact hrun

theorem buddyReachable_ordersWithin_twoPages :
    ∃ s, buddyCreate (fun _ => ⟨0, 0, 0⟩) 4096 16384 = .ok s ∧
      (∃ τ, zoneRun ⟨s, []⟩ (.alloc 2) = .ok τ) ∧ OrdersWithin 2 s := by
  obtain ⟨s, hrun, hruns⟩ := @buddyReachable_ordersWithin (fun _ => ⟨0, 0, 0⟩) 4096 16384
    (by decide) (by decide)
  obtain ⟨horders, hcalls, -⟩ := hruns ⟨s, []⟩ .refl
  have hallowed : (BuddyOp.alloc 2).Allowed ⟨s, []⟩ := show (2 : BitVec 64) ≠ 0 by decide
  exact ⟨s, hrun, hcalls (.alloc 2) hallowed trivial (Or.inl (by decide)), horders⟩

def leavesArrays {α : Type} : Exec α → Bool
  | .error .outOfBounds => true
  | _ => false

theorem eq_of_leavesArrays {α : Type} {x : Exec α} (h : leavesArrays x = true) :
    x = .error .outOfBounds := by
  cases x with
  | ok a => cases h
  | error e =>
      cases e with
      | outOfBounds => rfl
      | _ => cases h

/-- The computation returns a value that satisfies `test`. -/
def returnsWith {α : Type} (test : α → Bool) : Exec α → Bool
  | .ok a => test a
  | .error _ => false

theorem exists_of_returnsWith {α : Type} {test : α → Bool} {x : Exec α}
    (h : returnsWith test x = true) : ∃ a, x = .ok a ∧ test a = true := by
  cases x with
  | ok a => exact ⟨a, rfl, h⟩
  | error e => cases h

/-- A request for `2 ^ 20 + 1` pages looks at the list of order 21.  In a zone of 8 GiB
the first block of `2 ^ 20` pages that is freed is put on that list. -/
theorem buddyReachable_leavesArrays :
    (∃ s, buddyCreate (fun _ => ⟨0, 0, 0⟩) 4096 16384 = .ok s ∧
      buddyAllocPage s (2 ^ 20 + 1) = .error .outOfBounds) ∧
    ∃ s, buddyCreate (fun _ => ⟨0, 0, 0⟩) 4096 (2 ^ 33 + 2 ^ 27) = .ok s ∧
      ∃ ptr t, buddyAllocPage s (2 ^ 20) = .ok (some ptr, t) ∧
        buddyFreePage t ptr = .error .outOfBounds := by
  constructor
  · obtain ⟨s, hrun, -⟩ := @zoneInv_create (fun _ => ⟨0, 0, 0⟩) 4096 16384 (by decide) (by decide)
    have heval : leavesArrays (buddyCreate (fun _ => ⟨0, 0, 0⟩) 4096 16384 >>= fun s =>
        buddyAllocPage s (2 ^ 20 + 1)) = true := by
      decide +kernel
    rw [hrun, exec_ok_bind] at heval
    exact ⟨s, hrun, eq_of_leavesArrays heval⟩
  · obtain ⟨s, hrun, -⟩ := @zoneInv_create (fun _ => ⟨0, 0, 0⟩) 4096 (2 ^ 33 + 2 ^ 27) (by decide)
      (by decide)
    have heval : returnsWith
        (fun r => r.1.isSome && leavesArrays (buddyFreePage r.2 (r.1.getD 0)))
        (buddyCreate (fun _ => ⟨0, 0, 0⟩) 4096 (2 ^ 33 + 2 ^ 27) >>= fun s =>
          buddyAllocPage s (2 ^ 20)) = true := by
      decide +kernel
    rw [hrun, exec_ok_bind] at heval
    obtain ⟨⟨res, t⟩, halloc, htest⟩ := exists_of_returnsWith heval
    rw [Bool.and_eq_true] at htest
    obtain ⟨ptr, rfl⟩ := Option.isSome_iff_exists.mp htest.1
    exact ⟨s, hrun, ptr, t, halloc, eq_of_leavesArrays htest.2⟩

end Steps

end Nxos.Mm
