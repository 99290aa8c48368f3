import Nxos.Mm.Buddy.Create
import Nxos.Mm.Buddy.Operations
import Nxos.Support.Transition

/-!
# Runs of the buddy allocator

A session is a zone together with the blocks that its users hold.  Users
allocate, add references to blocks they hold, and free blocks they hold, in any
order.  Along every such run the free and the live blocks tile the zone, and
free buddies are always merged.
-/

namespace Nxos.Mm

open Nxos.Dyadic Nxos.Transition

/-- A zone in use.  `live` lists the pointers that were returned and not yet
fully released, with the page counts that were asked for. -/
structure BuddySession where
  sys : BuddySystem
  live : List (ℕ × ℕ)

inductive BuddyOp where
  | alloc (count : BitVec 64)
  | increase (ptr : ℕ)
  | free (ptr : ℕ)
  deriving DecidableEq, Repr

/-- What a user may call: counts from one to `2 ^ 20`, pointers it holds. -/
def BuddyOp.Legal (σ : BuddySession) : BuddyOp → Prop
  | .alloc count => 1 ≤ count.toNat ∧ count.toNat ≤ 2 ^ maxPageOrder
  | .increase ptr => ∃ c, (ptr, c) ∈ σ.live
  | .free ptr => ∃ c, (ptr, c) ∈ σ.live

def buddyRun (σ : BuddySession) : BuddyOp → Exec BuddySession
  | .alloc count => do
      match ← buddyAllocPage σ.sys count with
      | (some ptr, s) => return ⟨s, (ptr, count.toNat) :: σ.live⟩
      | (none, s) => return ⟨s, σ.live⟩
  | .increase ptr => do
      let (_, s) ← buddyIncreasePage σ.sys ptr
      return ⟨s, σ.live⟩
  | .free ptr => do
      let (err, s) ← buddyFreePage σ.sys ptr
      -- only the last reference gives the block back
      return ⟨s, if err = .eok then σ.live.filter (fun b => b.1 ≠ ptr) else σ.live⟩

def BuddyMove (σ : BuddySession) (op : BuddyOp) (τ : BuddySession) : Prop :=
  op.Legal σ ∧ buddyRun σ op = .ok τ

/-- The states of a zone under legal calls, from the moment it was created. -/
def BuddyReachable (s : BuddySystem) : BuddySession → Prop :=
  Reachable BuddyMove ⟨s, []⟩

/-! ## What the state means -/

def FreeBlock (s : BuddySystem) (p k : ℕ) : Prop :=
  p ∈ s.pageBuddy k

/-- A block that a user holds.  Its order is the least one whose blocks have the
requested number of pages. -/
def LiveBlock (σ : BuddySession) (p k : ℕ) : Prop :=
  ∃ c, (pageToPtr σ.sys p, c) ∈ σ.live ∧ k = Nat.clog 2 c

def ZoneBlock (σ : BuddySession) (p k : ℕ) : Prop :=
  FreeBlock σ.sys p k ∨ LiveBlock σ p k

/-- The free and the live blocks partition the zone, and the page map, the lists,
the counters and the bitmap agree with them. -/
structure ZonePartitioned (σ : BuddySession) : Prop where
  covered : ∀ x, x ≤ σ.sys.maxPFN → ∃ p k, ZoneBlock σ p k ∧ Covers p k x
  inside : ∀ {p k}, ZoneBlock σ p k → ∀ x, Covers p k x → x ≤ σ.sys.maxPFN
  disjoint : ∀ {p k q j x}, ZoneBlock σ p k → ZoneBlock σ q j → Covers p k x →
    Covers q j x → p = q ∧ k = j
  free_not_live : ∀ {p k j}, FreeBlock σ.sys p k → ¬LiveBlock σ p j
  live_nodup : (σ.live.map Prod.fst).Nodup
  live_page : ∀ {ptr c}, (ptr, c) ∈ σ.live → ∃ p, ptr = pageToPtr σ.sys p
  live_pages : ∀ {p c}, (pageToPtr σ.sys p, c) ∈ σ.live →
    ∃ k, LiveBlock σ p k ∧ c ≤ 2 ^ k
  aligned : ∀ {p k}, ZoneBlock σ p k → 2 ^ k ∣ p
  head_iff : ∀ p, p ≤ σ.sys.maxPFN →
    (0 ≤ (σ.sys.map p).order ↔ ∃ k, ZoneBlock σ p k)
  head_order : ∀ {p k}, ZoneBlock σ p k → (σ.sys.map p).order = k
  flag_iff : ∀ {p k}, ZoneBlock σ p k →
    (doPageFree (σ.sys.map p) ↔ FreeBlock σ.sys p k)
  list_nodup : ∀ k, (σ.sys.pageBuddy k).Nodup
  count_eq : ∀ k, σ.sys.count k = (σ.sys.pageBuddy k).length
  bitmap_iff : ∀ k, σ.sys.bitmap.getLsbD k = true ↔ σ.sys.pageBuddy k ≠ []

/-! ## The invariant of a run -/

/-- The tiling `T` behind a session.  No block is in hand between two calls. -/
structure SessionInv (σ : BuddySession) {n : ℕ} (T : Tiling Owner n) : Prop where
  rep : Represents σ.sys T
  pages : σ.sys.maxPFN + 1 = n
  start_mod : σ.sys.pageStart % pageSize = 0
  start_ne : σ.sys.pageStart ≠ 0
  no_hand : ∀ p k, T.block p ≠ some (.hand, k)
  used_iff : ∀ {p k}, T.block p = some (.used, k) ↔ LiveBlock σ p k
  live_page : ∀ {ptr c}, (ptr, c) ∈ σ.live → ∃ p, ptr = pageToPtr σ.sys p
  live_nodup : (σ.live.map Prod.fst).Nodup
  no_buddies : ∀ {p k}, k < maxPageOrder → T.block p = some (.free, k) →
    T.block (p ^^^ 2 ^ k) ≠ some (.free, k)

theorem pageToPtr_injective (s : BuddySystem) {p q : ℕ}
    (h : pageToPtr s p = pageToPtr s q) : p = q := by
  unfold pageToPtr pageSize at h
  omega

theorem SameZone.pageToPtr_eq {s t : BuddySystem} (h : SameZone s t) (p : ℕ) :
    pageToPtr t p = pageToPtr s p := by
  unfold pageToPtr
  rw [h.pageStart]

namespace SessionInv

variable {σ : BuddySession} {n : ℕ} {T : Tiling Owner n}

theorem zoneBlock_iff (h : SessionInv σ T) {p k : ℕ} :
    ZoneBlock σ p k ↔ ∃ w, T.block p = some (w, k) := by
  constructor
  · rintro (hfree | hlive)
    · exact ⟨.free, h.rep.mem_list.mp hfree⟩
    · exact ⟨.used, h.used_iff.mpr hlive⟩
  · rintro ⟨w, hw⟩
    cases w with
    | free => exact Or.inl (h.rep.mem_list.mpr hw)
    | used => exact Or.inr (h.used_iff.mp hw)
    | hand => exact absurd hw (h.no_hand p k)

theorem used_of_live (h : SessionInv σ T) {ptr c : ℕ} (hlive : (ptr, c) ∈ σ.live) :
    ∃ p, ptr = pageToPtr σ.sys p ∧ T.block p = some (.used, Nat.clog 2 c) := by
  obtain ⟨p, rfl⟩ := h.live_page hlive
  exact ⟨p, rfl, h.used_iff.mpr ⟨c, hlive, rfl⟩⟩

theorem zonePartitioned (h : SessionInv σ T) : ZonePartitioned σ where
  covered := by
    intro x hx
    obtain ⟨p, w, k, hp, hcov⟩ := T.covered x (by have := h.pages; omega)
    exact ⟨p, k, h.zoneBlock_iff.mpr ⟨w, hp⟩, hcov⟩
  inside := by
    intro p k hblock x hx
    obtain ⟨w, hp⟩ := h.zoneBlock_iff.mp hblock
    have hin := T.inside hp
    have hpages := h.pages
    unfold Covers at hx
    omega
  disjoint := by
    intro p k q j x hp hq hpx hqx
    obtain ⟨w, hp⟩ := h.zoneBlock_iff.mp hp
    obtain ⟨v, hq⟩ := h.zoneBlock_iff.mp hq
    have heq : p = q := T.disjoint hp hq hpx hqx
    subst q
    rw [hp] at hq
    simp only [Option.some.injEq, Prod.mk.injEq] at hq
    exact ⟨rfl, hq.2⟩
  free_not_live := by
    intro p k j hfree hlive
    have hp := h.rep.mem_list.mp hfree
    rw [h.used_iff.mpr hlive] at hp
    simp at hp
  live_nodup := h.live_nodup
  live_page := h.live_page
  live_pages := by
    intro p c hlive
    exact ⟨Nat.clog 2 c, ⟨c, hlive, rfl⟩, Nat.le_pow_clog (by decide) c⟩
  aligned := by
    intro p k hblock
    obtain ⟨w, hp⟩ := h.zoneBlock_iff.mp hblock
    exact T.aligned hp
  head_iff := by
    intro p hp
    have hok := h.rep.page_ok p (by have := h.pages; omega)
    constructor
    · intro hpos
      cases hb : T.block p with
      | none =>
          rw [hb] at hok
          exact absurd hok (not_lt.mpr hpos)
      | some b => exact ⟨b.2, h.zoneBlock_iff.mpr ⟨b.1, hb⟩⟩
    · rintro ⟨k, hfree | hlive⟩
      · rw [h.rep.order_of_free (h.rep.mem_list.mp hfree)]
        exact Int.natCast_nonneg k
      · rw [h.rep.order_of_used (h.used_iff.mpr hlive)]
        exact Int.natCast_nonneg k
  head_order := by
    rintro p k (hfree | hlive)
    · exact h.rep.order_of_free (h.rep.mem_list.mp hfree)
    · exact h.rep.order_of_used (h.used_iff.mpr hlive)
  flag_iff := by
    rintro p k (hfree | hlive)
    · exact iff_of_true (h.rep.page_ok_block (h.rep.mem_list.mp hfree)).2 hfree
    · have hp := h.used_iff.mpr hlive
      refine iff_of_false (h.rep.page_ok_block hp).2.1 ?_
      intro hfree
      have := h.rep.mem_list.mp hfree
      rw [hp] at this
      simp at this
  list_nodup := h.rep.nodup
  count_eq := h.rep.count_eq
  bitmap_iff := h.rep.bitmap_iff

/-! ## One call -/

theorem setReference (h : SessionInv σ T) {p : ℕ} {r : ℤ}
    (hrep : Represents (σ.sys.setReference p r) T) :
    SessionInv ⟨σ.sys.setReference p r, σ.live⟩ T :=
  { h with rep := hrep }

theorem handOut (h : SessionInv σ T) {s : BuddySystem} {U : Tiling Owner n} {p k c : ℕ}
    (hrep : Represents s U) (hzone : SameZone σ.sys s)
    (hp : T.block p = some (.free, k)) (hU : U.block p = some (.used, Nat.clog 2 c))
    (hfrom : Represents.SplitFrom T U p (Nat.clog 2 c) k) :
    SessionInv ⟨s, (pageToPtr σ.sys p, c) :: σ.live⟩ U := by
  have hnotlive : ∀ d, (pageToPtr σ.sys p, d) ∉ σ.live := by
    intro d hd
    have hused := h.used_iff.mpr ⟨d, hd, rfl⟩
    rw [hp] at hused
    simp at hused
  have hother : ∀ {q w j}, q ≠ p → w ≠ .free →
      (U.block q = some (w, j) ↔ T.block q = some (w, j)) := by
    intro q w j hqp hw
    rw [hfrom q w j hqp]
    simp [hw]
  constructor
  · exact hrep
  · exact (congrArg (· + 1) hzone.maxPFN).trans h.pages
  · exact hzone.pageStart ▸ h.start_mod
  · exact hzone.pageStart ▸ h.start_ne
  · intro q j hq
    by_cases hqp : q = p
    · rw [hqp, hU] at hq
      simp at hq
    · exact h.no_hand q j ((hother hqp (by decide)).mp hq)
  · intro q j
    unfold LiveBlock
    dsimp only
    rw [hzone.pageToPtr_eq]
    by_cases hqp : q = p
    · subst q
      rw [hU]
      constructor
      · intro heq
        simp only [Option.some.injEq, Prod.mk.injEq, true_and] at heq
        exact ⟨c, by simp, heq.symm⟩
      · rintro ⟨d, hd, rfl⟩
        rcases List.mem_cons.mp hd with heq | hd
        · simp only [Prod.mk.injEq, true_and] at heq
          rw [heq]
        · exact absurd hd (hnotlive d)
    · rw [hother hqp (by decide), h.used_iff]
      have hptr : pageToPtr σ.sys q ≠ pageToPtr σ.sys p :=
        fun heq => hqp (pageToPtr_injective σ.sys heq)
      simp [LiveBlock, hptr]
  · intro ptr d hd
    rcases List.mem_cons.mp hd with heq | hd
    · simp only [Prod.mk.injEq] at heq
      exact ⟨p, heq.1.trans (hzone.pageToPtr_eq p).symm⟩
    · obtain ⟨q, hq⟩ := h.live_page hd
      exact ⟨q, hq.trans (hzone.pageToPtr_eq q).symm⟩
  · rw [List.map_cons, List.nodup_cons]
    refine ⟨?_, h.live_nodup⟩
    intro hmem
    obtain ⟨⟨ptr, d⟩, hd, rfl⟩ := List.mem_map.mp hmem
    exact hnotlive d hd
  · intro q j hj hq hbuddy
    -- a new free block is the upper half of a range that starts with `p`
    have hnew : ∀ r, r = p + 2 ^ j → j < k → r ^^^ 2 ^ j = p := by
      intro r hr hjk
      have hdvd : 2 ^ (j + 1) ∣ p := (Nat.pow_dvd_pow 2 hjk).trans (T.aligned hp)
      rw [hr]
      exact (buddy_of_upper hdvd).1
    have hfree : ∀ r, U.block r = some (.free, j) →
        r ≠ p ∧ (T.block r = some (.free, j) ∨ (r = p + 2 ^ j ∧ j < k)) := by
      intro r hr
      have hrp : r ≠ p := by
        intro hrp
        rw [hrp, hU] at hr
        simp at hr
      refine ⟨hrp, ?_⟩
      rcases (hfrom r _ j hrp).mp hr with hr | ⟨-, -, hjk, hr⟩
      · exact Or.inl hr
      · exact Or.inr ⟨hr, hjk⟩
    obtain ⟨hqp, hq⟩ := hfree q hq
    obtain ⟨hbp, hb⟩ := hfree _ hbuddy
    rcases hq with hq | ⟨hq, hjk⟩
    · rcases hb with hb | ⟨hb, hjk⟩
      · exact h.no_buddies hj hq hb
      · have := hnew _ hb hjk
        rw [Nat.xor_xor_cancel_right] at this
        exact hqp this
    · exact hbp (hnew q hq hjk)

theorem giveBack (h : SessionInv σ T) {s : BuddySystem} {U : Tiling Owner n} {p : ℕ}
    (hrep : Represents s U) (hzone : SameZone σ.sys s)
    (hrel : Represents.ReleasedFrom T U p) :
    SessionInv ⟨s, σ.live.filter (fun b => b.1 ≠ pageToPtr σ.sys p)⟩ U := by
  constructor
  · exact hrep
  · exact (congrArg (· + 1) hzone.maxPFN).trans h.pages
  · exact hzone.pageStart ▸ h.start_mod
  · exact hzone.pageStart ▸ h.start_ne
  · exact hrel.hand_none
  · intro q j
    rw [hrel.used_iff, h.used_iff]
    unfold LiveBlock
    dsimp only
    rw [hzone.pageToPtr_eq]
    by_cases hqp : q = p
    · simp [hqp]
    · have hptr : pageToPtr σ.sys q ≠ pageToPtr σ.sys p :=
        fun heq => hqp (pageToPtr_injective σ.sys heq)
      simp [hqp, hptr]
  · intro ptr c hlive
    obtain ⟨q, hq⟩ := h.live_page (List.mem_filter.mp hlive).1
    exact ⟨q, hq.trans (hzone.pageToPtr_eq q).symm⟩
  · exact h.live_nodup.sublist (List.filter_sublist.map Prod.fst)
  · intro q j hj hq hbuddy
    obtain ⟨r, k, hnot, hcases⟩ := hrel.free_cases
    rcases hcases q j hq with hq' | ⟨rfl, rfl⟩
    · rcases hcases _ j hbuddy with hb | ⟨rfl, rfl⟩
      · exact h.no_buddies hj hq' hb
      · rw [Nat.xor_xor_cancel_right] at hnot
        exact hnot hq
    · exact hnot hbuddy

theorem run (h : SessionInv σ T) (hn : n < 2 ^ (maxPageOrder + 1)) {op : BuddyOp}
    (hlegal : op.Legal σ) :
    ∃ τ, buddyRun σ op = .ok τ ∧ ∃ U : Tiling Owner n, SessionInv τ U := by
  cases op with
  | alloc count =>
      obtain ⟨hpos, hle⟩ := hlegal
      have hne : count ≠ 0 := by
        rintro rfl
        simp at hpos
      simp only [buddyRun]
      rcases h.rep.buddyAllocPage hne hle with
        ⟨s, U, p, k, hrun, hrep, hp, hU, hfrom, -, hzone, -⟩ | ⟨hrun, -⟩
      · rw [hrun]
        exact ⟨_, rfl, U, h.handOut hrep hzone hp hU hfrom⟩
      · rw [hrun]
        exact ⟨_, rfl, T, h⟩
  | increase ptr =>
      obtain ⟨c, hlive⟩ := hlegal
      obtain ⟨p, rfl, hp⟩ := h.used_of_live hlive
      obtain ⟨hrun, hrep⟩ :=
        h.rep.buddyIncreasePage h.pages h.start_mod h.start_ne hp
      simp only [buddyRun, hrun]
      exact ⟨_, rfl, T, h.setReference hrep⟩
  | free ptr =>
      obtain ⟨c, hlive⟩ := hlegal
      obtain ⟨p, rfl, hp⟩ := h.used_of_live hlive
      simp only [buddyRun]
      rcases h.rep.buddyFreePage h.pages h.start_mod h.start_ne
        (fun _ => Represents.mergesWithin_of_lt hn hp) hp h.no_hand with
        ⟨-, hrun, hrep⟩ | ⟨-, s, U, hrun, hrep, hrel, hzone, -⟩
      · rw [hrun]
        exact ⟨_, rfl, T, h.setReference hrep⟩
      · rw [hrun]
        exact ⟨_, rfl, U, h.giveBack hrep hzone hrel⟩

end SessionInv

/-! ## Whole runs -/

theorem sessionInv_create {s : BuddySystem} {n : ℕ} {T : Tiling Owner n}
    (hrep : Represents s T) (hpages : s.maxPFN + 1 = n)
    (hmod : s.pageStart % pageSize = 0) (hne : s.pageStart ≠ 0) (hfresh : FreshTiling T) :
    SessionInv ⟨s, []⟩ T where
  rep := hrep
  pages := hpages
  start_mod := hmod
  start_ne := hne
  no_hand := by
    intro p k hp
    cases hfresh.free hp
  used_iff := by
    intro p k
    constructor
    · intro hp
      cases hfresh.free hp
    · rintro ⟨c, hmem, -⟩
      simp at hmem
  live_page := by simp
  live_nodup := by simp
  no_buddies := by
    intro p k hk hp hbuddy
    exact xor_two_pow_ne_self p k (hfresh.order_injective hk hbuddy hp)

theorem sessionInv_of_reachable {s : BuddySystem} {n : ℕ} {T : Tiling Owner n}
    (hinit : SessionInv ⟨s, []⟩ T) (hn : n < 2 ^ (maxPageOrder + 1)) {σ : BuddySession}
    (hreach : BuddyReachable s σ) : ∃ U : Tiling Owner n, SessionInv σ U := by
  refine Reachable.invariant (P := fun σ => ∃ U : Tiling Owner n, SessionInv σ U) hreach
    ⟨T, hinit⟩ ?_
  rintro σ op τ ⟨U, hU⟩ ⟨hlegal, hrun⟩
  obtain ⟨τ', hrun', hinv⟩ := hU.run hn hlegal
  rw [hrun] at hrun'
  cases hrun'
  exact hinv

/-- When no block is live, all blocks are free and none has a free buddy. -/
theorem SessionInv.coalesced {σ : BuddySession} {n : ℕ} {T : Tiling Owner n}
    (h : SessionInv σ T) (hlive : σ.live = []) : T.Coalesced maxPageOrder := by
  have hfree : ∀ {p w k}, T.block p = some (w, k) → w = .free := by
    intro p w k hp
    cases w with
    | free => rfl
    | used =>
        obtain ⟨c, hmem, -⟩ := h.used_iff.mp hp
        simp [hlive] at hmem
    | hand => exact absurd hp (h.no_hand p k)
  constructor
  · exact h.rep.order_le
  · intro p w k hp hk v hbuddy
    rw [hfree hp] at hp
    rw [hfree hbuddy] at hbuddy
    exact h.no_buddies hk hp hbuddy

/-- Zones of up to `2 ^ 21 - 1` pages are created, and in every state that legal
calls reach their blocks partition the pages and every legal call returns. -/
theorem buddyReachable_partitioned (raw : ℕ → Page) {mem size : ℕ} (hmem : mem ≠ 0)
    (hsize : size ≠ 0) (hpos : 1 ≤ buddyZonePages mem size)
    (hle : buddyZonePages mem size ≤ 2 ^ 21 - 1) :
    ∃ s, buddyCreate raw mem size = .ok s ∧ s.maxPFN + 1 = buddyZonePages mem size ∧
      ∀ σ, BuddyReachable s σ →
        ZonePartitioned σ ∧ σ.sys.maxPFN = s.maxPFN ∧
          ∀ op : BuddyOp, op.Legal σ → ∃ τ, buddyRun σ op = .ok τ := by
  have hlt : buddyZonePages mem size < 2 ^ (maxPageOrder + 1) := by
    unfold maxPageOrder
    omega
  obtain ⟨s, hrun, hpages, hmod, hne, T, hrep, hfresh⟩ :=
    buddyCreate_spec raw hmem hsize
  have hinit := sessionInv_create hrep (hpages hpos) hmod hne hfresh
  refine ⟨s, hrun, hpages hpos, ?_⟩
  intro σ hreach
  obtain ⟨U, hU⟩ := sessionInv_of_reachable hinit hlt hreach
  have hpfn : σ.sys.maxPFN = s.maxPFN := by
    have := hU.pages
    have := hinit.pages
    dsimp only at *
    omega
  refine ⟨hU.zonePartitioned, hpfn, ?_⟩
  intro op hlegal
  obtain ⟨τ, hτ, -⟩ := hU.run hlt hlegal
  exact ⟨τ, hτ⟩

theorem buddyReachable_partitioned_twoPages :
    buddyZonePages 4096 16384 = 2 ∧
      ∃ s, buddyCreate (fun _ => ⟨0, 0, 0⟩) 4096 16384 = .ok s ∧
        s.maxPFN + 1 = buddyZonePages 4096 16384 ∧
        ∀ σ, BuddyReachable s σ →
          ZonePartitioned σ ∧ σ.sys.maxPFN = s.maxPFN ∧
            ∀ op : BuddyOp, op.Legal σ → ∃ τ, buddyRun σ op = .ok τ :=
  ⟨by decide, buddyReachable_partitioned _ (by decide) (by decide) (by decide) (by decide)⟩

/-- Free buddies are always merged, and a zone whose blocks have all been released
has the blocks it was created with. -/
theorem buddyReachable_coalesced (raw : ℕ → Page) {mem size : ℕ} (hmem : mem ≠ 0)
    (hsize : size ≠ 0) (hpos : 1 ≤ buddyZonePages mem size)
    (hle : buddyZonePages mem size ≤ 2 ^ 21 - 1) :
    ∃ s, buddyCreate raw mem size = .ok s ∧
      ∀ σ, BuddyReachable s σ →
        (∀ p k, k < 20 → FreeBlock σ.sys p k → ¬FreeBlock σ.sys (p ^^^ 2 ^ k) k) ∧
        (σ.live = [] → ∀ p k, FreeBlock σ.sys p k ↔ FreeBlock s p k) := by
  have hlt : buddyZonePages mem size < 2 ^ (maxPageOrder + 1) := by
    unfold maxPageOrder
    omega
  obtain ⟨s, hrun, hpages, hmod, hne, T, hrep, hfresh⟩ :=
    buddyCreate_spec raw hmem hsize
  have hinit := sessionInv_create hrep (hpages hpos) hmod hne hfresh
  refine ⟨s, hrun, ?_⟩
  intro σ hreach
  obtain ⟨U, hU⟩ := sessionInv_of_reachable hinit hlt hreach
  constructor
  · intro p k hk hfree hbuddy
    exact hU.no_buddies hk (hU.rep.mem_list.mp hfree) (hU.rep.mem_list.mp hbuddy)
  · intro hlive p k
    have hunique := (hU.coalesced hlive).unique (hinit.coalesced rfl) p k
    have hnoLive : ∀ ρ : BuddySession, ρ.live = [] → ¬LiveBlock ρ p k := by
      rintro ρ hρ ⟨c, hmem, -⟩
      simp [hρ] at hmem
    rw [← hU.zoneBlock_iff, ← hinit.zoneBlock_iff] at hunique
    simpa [ZoneBlock, hnoLive σ hlive, hnoLive ⟨s, []⟩ rfl] using hunique

theorem buddyReachable_coalesced_twoPages :
    buddyZonePages 4096 16384 = 2 ∧
      ∃ s, buddyCreate (fun _ => ⟨0, 0, 0⟩) 4096 16384 = .ok s ∧
        ∀ σ, BuddyReachable s σ →
          (∀ p k, k < 20 → FreeBlock σ.sys p k → ¬FreeBlock σ.sys (p ^^^ 2 ^ k) k) ∧
          (σ.live = [] → ∀ p k, FreeBlock σ.sys p k ↔ FreeBlock s p k) :=
  ⟨by decide, buddyReachable_coalesced _ (by decide) (by decide) (by decide) (by decide)⟩

end Nxos.Mm
