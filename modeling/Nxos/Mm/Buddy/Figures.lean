import Nxos.Mm.Buddy.Orders
import Nxos.Support.DyadicCount

/-!
# The memory figures

The embedding of `NX_PageGetTotal` and `NX_PageGetUsed` of `mm/page.c`, the figures that
the meminfo device reports.  The total counts the pages behind the page map; the count of
used pages starts with the pages of the header, the map and the padding before them, and
then follows the blocks that are handed out and taken back.  Every call keeps the sum of
used and free pages, so that the two figures differ by the pages ahead of the first one.
-/

namespace Nxos.Mm

open Nxos.Dyadic Nxos.Transition

/-- `NX_PageGetTotal`. -/
def pageGetTotal (s : BuddySystem) : BitVec 64 :=
  BitVec.ofNat 64 s.maxPFN + 1

/-- `NX_PageGetUsed`. -/
def pageGetUsed (s : BuddySystem) : BitVec 64 :=
  s.usedPage

def freePages (s : BuddySystem) : ℕ :=
  ∑ k ∈ Finset.range (maxPageOrder + 1), (s.pageBuddy k).length * 2 ^ k

/-- What is not used of the total is free. -/
def FiguresExact (s : BuddySystem) : Prop :=
  pageGetUsed s ≤ pageGetTotal s ∧ (pageGetTotal s - pageGetUsed s).toNat = freePages s

/-- The pages that `NX_BuddyCreate` counts as used: all that lie before the first page
of the zone. -/
def bookkeepingPages (mem size : ℕ) : ℕ :=
  sizeSub size (buddyZoneLayout mem size).2 >>> pageShift

/-- The zone is too short for a page map, and a page boundary follows its header within
one page of its start. -/
def BookkeepingBelowPage (mem size : ℕ) : Prop :=
  sizeofBuddySystem ≤ size ∧ size < sizeofBuddySystem + pageSize ∧
    buddyAlignUp (mem + sizeofBuddySystem) pageSize < mem + pageSize

/-! ## The pages ahead of the first one -/

theorem sizeSub_parts {size a b c : ℕ} (hsum : a + b + c < 2 ^ 64) :
    sizeSub size (sizeSub (sizeSub (sizeSub size a) b) c) = a + b + c := by
  unfold sizeSub
  omega

theorem buddyAlignUp_lt (x : ℕ) : buddyAlignUp x pageSize < x + pageSize := by
  unfold buddyAlignUp pageSize
  omega

theorem le_buddyAlignUp (x : ℕ) : x ≤ buddyAlignUp x pageSize := by
  unfold buddyAlignUp pageSize
  omega

def zoneMapSize (size : ℕ) : ℕ :=
  buddyAlignUp ((sizeSub size sizeofBuddySystem >>> pageShift) * sizeofPage) pageSize

theorem zoneMapSize_lt (size : ℕ) : zoneMapSize size < 2 ^ 60 := by
  have hlt : sizeSub size sizeofBuddySystem < 2 ^ 64 := Nat.mod_lt _ (by decide)
  have halign := buddyAlignUp_lt
    ((sizeSub size sizeofBuddySystem >>> pageShift) * sizeofPage)
  unfold zoneMapSize
  rw [Nat.shiftRight_eq_div_pow] at halign ⊢
  unfold pageShift sizeofPage pageSize at *
  omega

/-- The page map is empty when less than a page follows the header, and takes a page at
least otherwise. -/
theorem zoneMapSize_cases {size : ℕ} (hsize : size < 2 ^ 64) :
    (zoneMapSize size = 0 ∧ sizeofBuddySystem ≤ size ∧ size < sizeofBuddySystem + pageSize) ∨
      (pageSize ≤ zoneMapSize size ∧
        ¬(sizeofBuddySystem ≤ size ∧ size < sizeofBuddySystem + pageSize)) := by
  unfold zoneMapSize buddyAlignUp sizeSub
  rw [Nat.shiftRight_eq_div_pow]
  unfold sizeofBuddySystem pageShift sizeofPage pageSize
  omega

theorem bookkeepingPages_eq (mem size : ℕ) :
    bookkeepingPages mem size =
      (sizeofBuddySystem + zoneMapSize size +
        (buddyAlignUp (mem + sizeofBuddySystem + zoneMapSize size) pageSize -
          (mem + sizeofBuddySystem + zoneMapSize size))) / pageSize := by
  have hmap := zoneMapSize_lt size
  have hpad := buddyAlignUp_lt (mem + sizeofBuddySystem + zoneMapSize size)
  unfold bookkeepingPages
  rw [Nat.shiftRight_eq_div_pow]
  change sizeSub size (sizeSub (sizeSub (sizeSub size sizeofBuddySystem) (zoneMapSize size))
    (buddyAlignUp (mem + sizeofBuddySystem + zoneMapSize size) pageSize -
      (mem + sizeofBuddySystem + zoneMapSize size))) / 2 ^ pageShift = _
  rw [sizeSub_parts]
  · rfl
  · unfold sizeofBuddySystem pageSize at *
    omega

theorem bookkeepingPages_eq_zero_iff {mem size : ℕ} (hsize : size < 2 ^ 64) :
    bookkeepingPages mem size = 0 ↔ BookkeepingBelowPage mem size := by
  rw [bookkeepingPages_eq, Nat.div_eq_zero_iff_lt (by decide)]
  unfold BookkeepingBelowPage
  rcases zoneMapSize_cases hsize with ⟨hzero, hlow, hhigh⟩ | ⟨hpage, hnot⟩
  · simp only [hzero, Nat.add_zero]
    have hge := le_buddyAlignUp (mem + sizeofBuddySystem)
    constructor
    · intro hlt
      exact ⟨hlow, hhigh, by omega⟩
    · rintro ⟨-, -, hlt⟩
      omega
  · constructor
    · intro hlt
      omega
    · rintro ⟨hlow, hhigh, -⟩
      exact absurd ⟨hlow, hhigh⟩ hnot

theorem bookkeepingPages_lt (mem size : ℕ) : bookkeepingPages mem size < 2 ^ 52 := by
  have hlt : sizeSub size (buddyZoneLayout mem size).2 < 2 ^ 64 := Nat.mod_lt _ (by decide)
  unfold bookkeepingPages pageShift
  rw [Nat.shiftRight_eq_div_pow]
  omega

/-! ## The figures along a run -/

section Run

variable {σ τ : BuddySession} {n : ℕ} {T : Tiling Owner n}

theorem Represents.freePages_eq {s : BuddySystem} (h : Represents s T) :
    freePages s = T.points .free := by
  rw [Tiling.points_eq_sum_card (K := maxPageOrder + 1) fun hp =>
    Nat.lt_succ_of_le (h.order_le hp)]
  unfold freePages
  refine Finset.sum_congr rfl fun k _ => ?_
  have hlist : (s.pageBuddy k).toFinset =
      {p ∈ Finset.range n | T.block p = some (Owner.free, k)} := by
    ext p
    rw [List.mem_toFinset, h.mem_list, Finset.mem_filter, Finset.mem_range]
    exact ⟨fun hp => ⟨h.lt_of_block hp, hp⟩, And.right⟩
  rw [← hlist, List.toFinset_card_of_nodup (h.nodup k)]

/-- The count of used pages is that of the pages ahead of the first one and of the blocks
in use. -/
structure CountsPages (n ahead : ℕ) (σ : BuddySession) (T : Tiling Owner n) : Prop where
  rep : Represents σ.sys T
  session : SessionInv σ T ∨ n = 0 ∧ σ.live = []
  total : pageGetTotal σ.sys = BitVec.ofNat 64 n
  used : pageGetUsed σ.sys = BitVec.ofNat 64 (ahead + T.points .used)

theorem SessionInv.total (h : SessionInv σ T) : pageGetTotal σ.sys = BitVec.ofNat 64 n := by
  unfold pageGetTotal
  rw [← h.pages, BitVec.ofNat_add]
  rfl

theorem UsedChange.used {U : Tiling Owner n} {s t : BuddySystem} (h : UsedChange T U s t)
    {ahead : ℕ} (hused : s.usedPage = BitVec.ofNat 64 (ahead + T.points .used)) :
    t.usedPage = BitVec.ofNat 64 (ahead + U.points .used) := by
  cases h with
  | kept hblocks hcount => rw [hcount, hused, hblocks]
  | taken p k hnew hold hsame hcount =>
      rw [hcount, hused, Tiling.points_insert hnew hold hsame, ← Nat.add_assoc,
        BitVec.ofNat_add (ahead + T.points .used)]
  | returned p k hold hgone hsame hcount =>
      have hpoints : T.points .used = U.points .used + 2 ^ k :=
        Tiling.points_insert hold hgone fun q j hqp => (hsame q j hqp).symm
      rw [hcount, hused, hpoints, ← Nat.add_assoc, BitVec.ofNat_add (ahead + U.points .used),
        BitVec.add_sub_cancel]

theorem CountsPages.zoneRun {ahead : ℕ} (h : CountsPages n ahead σ T) {op : BuddyOp}
    (hallowed : op.Allowed σ) (hrun : Mm.zoneRun σ op = .ok τ) :
    ∃ U : Tiling Owner n, CountsPages n ahead τ U := by
  rcases h.session with hsession | ⟨rfl, hlive⟩
  · obtain ⟨U, hU, hchange⟩ := hsession.zoneRun_change hallowed hrun
    exact ⟨U, hU.rep, .inl hU, hU.total, hchange.used h.used⟩
  · rw [zoneRun_noPages h.rep hlive hallowed hrun]
    exact ⟨T, h⟩

theorem CountsPages.used_add_free {ahead : ℕ} (h : CountsPages n ahead σ T)
    (hahead : ahead < 2 ^ 52) (hn : n < 2 ^ 52) :
    (pageGetTotal σ.sys).toNat = n ∧
      (pageGetUsed σ.sys).toNat + freePages σ.sys = n + ahead := by
  have hlabels : T.points .used + T.points .free = n := by
    refine T.points_add_points (by decide) fun {p u k} hp => ?_
    cases u with
    | free => exact Or.inr rfl
    | used => exact Or.inl rfl
    | hand =>
        rcases h.session with hsession | ⟨rfl, -⟩
        · exact absurd hp (hsession.no_hand p k)
        · exact absurd (h.rep.lt_of_block hp) (Nat.not_lt_zero p)
  rw [h.total, h.used, h.rep.freePages_eq, BitVec.toNat_ofNat, BitVec.toNat_ofNat,
    Nat.mod_eq_of_lt (by omega), Nat.mod_eq_of_lt (by omega)]
  exact ⟨rfl, by omega⟩

theorem CountsPages.figuresExact_iff {ahead : ℕ} (h : CountsPages n ahead σ T)
    (hahead : ahead < 2 ^ 52) (hn : n < 2 ^ 52) : FiguresExact σ.sys ↔ ahead = 0 := by
  obtain ⟨htotal, hsum⟩ := h.used_add_free hahead hn
  unfold FiguresExact
  rw [BitVec.le_def]
  constructor
  · rintro ⟨hle, hfree⟩
    rw [BitVec.toNat_sub_of_le (BitVec.le_def.mpr hle)] at hfree
    omega
  · rintro rfl
    have hle : (pageGetUsed σ.sys).toNat ≤ (pageGetTotal σ.sys).toNat := by omega
    rw [BitVec.toNat_sub_of_le (BitVec.le_def.mpr hle)]
    exact ⟨hle, by omega⟩

end Run

/-! ## The zone at its creation -/

theorem buddyAddPage_keeps {s t : BuddySystem} {page : ℕ} (h : buddyAddPage s page = .ok t) :
    t.usedPage = s.usedPage ∧ t.maxPFN = s.maxPFN := by
  unfold buddyAddPage at h
  dsimp only at h
  split_ifs at h
  cases h
  exact ⟨rfl, rfl⟩

theorem buddyCreateLoop_keeps {fuel i count : ℕ} {s t : BuddySystem}
    (h : buddyCreateLoop fuel s i count = .ok t) :
    t.usedPage = s.usedPage ∧ t.maxPFN = s.maxPFN := by
  induction fuel generalizing s i count with
  | zero =>
      cases h
      exact ⟨rfl, rfl⟩
  | succ fuel ih =>
      rw [buddyCreateLoop] at h
      split_ifs at h with hzero
      · cases h
        exact ⟨rfl, rfl⟩
      · obtain ⟨-, -, h⟩ := exec_bind_eq_ok_iff.mp h
        obtain ⟨u, hadd, h⟩ := exec_bind_eq_ok_iff.mp h
        rw [(ih h).1, (ih h).2, (buddyAddPage_keeps hadd).1, (buddyAddPage_keeps hadd).2]
        exact ⟨rfl, rfl⟩

theorem countsPages_create (raw : ℕ → Page) {mem size : ℕ} (hmem : mem ≠ 0) (hsize : size ≠ 0) :
    ∃ s, buddyCreate raw mem size = .ok s ∧ ∃ T : Tiling Owner (buddyZonePages mem size),
      CountsPages (buddyZonePages mem size) (bookkeepingPages mem size) ⟨s, []⟩ T := by
  obtain ⟨s, hrun, hpages, hmod, hne, T, hrep, hfresh⟩ := buddyCreate_spec raw hmem hsize
  have hloop := hrun
  unfold buddyCreate at hloop
  obtain ⟨-, -, hloop⟩ := exec_bind_eq_ok_iff.mp hloop
  obtain ⟨-, -, hloop⟩ := exec_bind_eq_ok_iff.mp hloop
  have hnone : T.points .used = 0 := by
    refine Finset.sum_eq_zero fun p _ => Tiling.lengthAt_of_no_block fun k hp => ?_
    cases hfresh.free hp
  have hused : pageGetUsed s = BitVec.ofNat 64 (bookkeepingPages mem size + T.points .used) := by
    unfold pageGetUsed
    rw [(buddyCreateLoop_keeps hloop).1, hnone, Nat.add_zero]
    rfl
  refine ⟨s, hrun, T, ?_⟩
  by_cases hzero : buddyZonePages mem size = 0
  · refine ⟨hrep, .inr ⟨hzero, rfl⟩, ?_, hused⟩
    have hzone : s.maxPFN = 2 ^ 64 - 1 := by
      rw [(buddyCreateLoop_keeps hloop).2]
      change sizeSub (buddyZonePages mem size) 1 = _
      rw [hzero]
      rfl
    unfold pageGetTotal
    rw [hzone, hzero]
    decide
  · have hsession := sessionInv_create hrep (hpages (by omega)) hmod hne hfresh
    exact ⟨hrep, .inl hsession, hsession.total, hused⟩

def ZoneMove (σ : BuddySession) (op : BuddyOp) (τ : BuddySession) : Prop :=
  op.Allowed σ ∧ zoneRun σ op = .ok τ

/-- Along every run in a zone, used and free pages are the total and the pages ahead of
the first one, so that the figures are exact where no page lies ahead: in zones that are
too short for a page map. -/
theorem zoneReachable_figuresExact_iff (raw : ℕ → Page) {mem size : ℕ} (hmem : mem ≠ 0)
    (hsize : size ≠ 0) (hword : size < 2 ^ 64) :
    ∃ s, buddyCreate raw mem size = .ok s ∧
      ∀ σ, Reachable ZoneMove ⟨s, []⟩ σ →
        (pageGetUsed σ.sys).toNat + freePages σ.sys =
          (pageGetTotal σ.sys).toNat + bookkeepingPages mem size ∧
        (FiguresExact σ.sys ↔ BookkeepingBelowPage mem size) := by
  obtain ⟨s, hrun, T, hinit⟩ := countsPages_create raw hmem hsize
  refine ⟨s, hrun, fun σ hreach => ?_⟩
  have hinv : ∃ U : Tiling Owner (buddyZonePages mem size),
      CountsPages (buddyZonePages mem size) (bookkeepingPages mem size) σ U := by
    refine hreach.invariant (P := fun σ => ∃ U : Tiling Owner (buddyZonePages mem size),
      CountsPages (buddyZonePages mem size) (bookkeepingPages mem size) σ U) ⟨T, hinit⟩ ?_
    rintro σ op τ ⟨U, hU⟩ ⟨hallowed, hstep⟩
    exact hU.zoneRun hallowed hstep
  obtain ⟨U, hU⟩ := hinv
  obtain ⟨htotal, hsum⟩ :=
    hU.used_add_free (bookkeepingPages_lt mem size) (buddyZonePages_lt mem size)
  refine ⟨by rw [htotal, hsum], ?_⟩
  rw [hU.figuresExact_iff (bookkeepingPages_lt mem size) (buddyZonePages_lt mem size)]
  exact bookkeepingPages_eq_zero_iff hword

theorem zoneReachable_figuresExact_iff_twoPages :
    ∃ s, buddyCreate (fun _ => ⟨0, 0, 0⟩) 4096 16384 = .ok s ∧
      (pageGetUsed s).toNat + freePages s = (pageGetTotal s).toNat + 2 ∧ ¬FiguresExact s := by
  obtain ⟨s, hrun, hruns⟩ := @zoneReachable_figuresExact_iff (fun _ => ⟨0, 0, 0⟩) 4096 16384
    (by decide) (by decide) (by decide)
  obtain ⟨hsum, hexact⟩ := hruns ⟨s, []⟩ .refl
  refine ⟨s, hrun, hsum, ?_⟩
  rw [hexact]
  unfold BookkeepingBelowPage
  decide

/-- A zone of two pages has a page of header and a page of map ahead of them.  Both count
as used, of a total of two, while two pages are free; with one page handed out the used
pages are more than the total. -/
theorem exists_figures_not_exact :
    ∃ s, buddyCreate (fun _ => ⟨0, 0, 0⟩) 4096 16384 = .ok s ∧
      (pageGetTotal s = 2 ∧ pageGetUsed s = 2 ∧ freePages s = 2) ∧
      ∃ τ, ZoneMove ⟨s, []⟩ (.alloc 1) τ ∧ ¬pageGetUsed τ.sys ≤ pageGetTotal τ.sys := by
  have heval : returnsWith
      (fun s => decide (pageGetTotal s = 2 ∧ pageGetUsed s = 2 ∧ freePages s = 2) &&
        returnsWith (fun τ => decide (¬pageGetUsed τ.sys ≤ pageGetTotal τ.sys))
          (zoneRun ⟨s, []⟩ (.alloc 1)))
      (buddyCreate (fun _ => ⟨0, 0, 0⟩) 4096 16384) = true := by
    decide +kernel
  obtain ⟨s, hrun, htest⟩ := exists_of_returnsWith heval
  rw [Bool.and_eq_true, decide_eq_true_eq] at htest
  obtain ⟨τ, hstep, hmore⟩ := exists_of_returnsWith htest.2
  have hallowed : (BuddyOp.alloc 1).Allowed ⟨s, []⟩ := show (1 : BitVec 64) ≠ 0 by decide
  exact ⟨s, hrun, htest.1, τ, ⟨hallowed, hstep⟩, of_decide_eq_true hmore⟩

end Nxos.Mm
