import Nxos.Time.Timer.Waiting

/-!
# Timers that fire at their tick

`NX_TimerGo` stops at the first timer that is not due and does nothing before
`nextTimeoutTicks`.  So every timer is invoked at the first tick that reaches its
timeout as long as the list is in the order of the timeouts and none of them is before
`nextTimeoutTicks`.

A period timer keeps its place on the list when it is armed again, and the search for the
next timeout passes over a timer that is due at the present tick.  The list stays in order
in every run in which period timers are armed again only in front of timers that are not
earlier, no timer on the list is started once more, and no timer is stopped while another
one is due.
-/

namespace Nxos.Time

open Nxos.Transition

variable {κ ω : Type}

/-! ## Order -/

/-- The list is in the order of the timeouts, and none is before `nextTimeoutTicks`. -/
structure Timers.InOrder (σ : Timers κ) : Prop where
  sorted : σ.timerList.Pairwise fun p q => (σ.timer p).timeout ≤ (σ.timer q).timeout
  next : ∀ p ∈ σ.timerList, σ.nextTimeoutTicks ≤ (σ.timer p).timeout

def Timers.Due (σ : Timers κ) (p : ℕ) : Prop := (σ.timer p).timeout ≤ σ.timerTicks

def Timers.RearmsWith (σ : Timers κ) (answer : ℕ → Bool) (p : ℕ) : Prop :=
  (σ.timer p).Rearms ((σ.timer p).answer fun _ => answer p)

/-- Every timer that is due and is armed again gets a timeout that fits its place: it is
after this tick and not after the timeout of a timer behind it. -/
structure Timers.RearmsInPlace (σ : Timers κ) (answer : ℕ → Bool) : Prop where
  later : ∀ p ∈ σ.timerList, σ.Due p → σ.RearmsWith answer p →
    σ.timerTicks < σ.timerTicks + (σ.timer p).timeTicks
  place : σ.timerList.Pairwise fun p q => σ.Due p → σ.RearmsWith answer p →
    (σ.Due q → σ.RearmsWith answer q → (σ.timer p).timeTicks ≤ (σ.timer q).timeTicks) ∧
    (¬σ.Due q → σ.timerTicks + (σ.timer p).timeTicks ≤ (σ.timer q).timeout)

/-- The calls that keep the list in order.  A timer that is on the list is not started, a
timer is not stopped while another one is due, and period timers are armed again in
place. -/
def TimerOp.KeepsOrder (σ : Timers κ) : TimerOp κ → Prop
  | .init _ _ _ _ => True
  | .create _ _ _ _ => True
  | .destroy _ => True
  | .start p => p ∉ σ.timerList
  | .stop p => p ∈ σ.timerList → ∀ q ∈ σ.timerList, q ≠ p → ¬σ.Due q
  | .go answer => σ.ticked.RearmsInPlace answer

theorem Timers.InOrder.of_same {σ τ : Timers κ} (horder : σ.InOrder)
    (hlist : τ.timerList = σ.timerList) (hnext : τ.nextTimeoutTicks = σ.nextTimeoutTicks)
    (htimer : ∀ p ∈ σ.timerList, (τ.timer p).timeout = (σ.timer p).timeout) : τ.InOrder := by
  refine ⟨?_, ?_⟩
  · rw [hlist]
    refine horder.sorted.imp_of_mem fun {p q} hp hq hle => ?_
    rw [htimer p hp, htimer q hq]
    exact hle
  · intro p hp
    rw [hlist] at hp
    rw [hnext, htimer p hp]
    exact horder.next p hp

theorem Timers.InOrder.sameList {σ τ : Timers κ} (horder : σ.InOrder) (h : SameList σ τ) :
    τ.InOrder :=
  horder.of_same h.timerList h.nextTimeoutTicks fun p hp => congrArg Timer.timeout (h.listed p hp)

theorem Timers.InOrder.ticked {σ : Timers κ} (horder : σ.InOrder) : σ.ticked.InOrder :=
  horder.of_same rfl rfl fun _ _ => rfl

/-! ## Starting and stopping -/

theorem Timers.InOrder.insert {σ τ : Timers κ} {p : ℕ} (horder : σ.InOrder)
    (h : Inserted σ τ p) : τ.InOrder := by
  rcases h.place with ⟨hlist, hnext, hfirst⟩ | ⟨before, prev, after, hσ, hτ, hnext, hle, hafter⟩
  · have hall : ∀ q ∈ σ.timerList, (σ.timer p).timeout ≤ (σ.timer q).timeout := by
      intro q hq
      cases hcons : σ.timerList with
      | nil => rw [hcons] at hq; cases hq
      | cons first rest =>
          have hlt := BitVec.le_of_lt (hfirst first rest hcons)
          have hsorted := hcons ▸ horder.sorted
          rcases List.mem_cons.mp (hcons ▸ hq) with rfl | hrest
          · exact hlt
          · exact BitVec.le_trans hlt ((List.pairwise_cons.mp hsorted).1 q hrest)
    refine ⟨?_, ?_⟩
    · rw [hlist, h.timer]
      exact List.pairwise_cons.mpr ⟨hall, horder.sorted⟩
    · intro q hq
      rw [hnext, h.timer]
      rcases List.mem_cons.mp (hlist ▸ hq) with rfl | hq
      · exact BitVec.le_refl _
      · exact hall q hq
  · have hsorted := hσ ▸ horder.sorted
    obtain ⟨hbefore, hprev, hcross⟩ := List.pairwise_append.mp hsorted
    have hprevmem : prev ∈ σ.timerList := by
      rw [hσ]
      exact List.mem_append_right _ (List.mem_cons_self ..)
    refine ⟨?_, ?_⟩
    · rw [hτ, h.timer]
      refine List.pairwise_append.mpr ⟨hbefore, ?_, ?_⟩
      · refine List.pairwise_cons.mpr ⟨?_, List.pairwise_cons.mpr
          ⟨fun q hq => BitVec.le_of_lt (hafter q hq), (List.pairwise_cons.mp hprev).2⟩⟩
        intro q hq
        rcases List.mem_cons.mp hq with rfl | hq
        · exact hle
        · exact (List.pairwise_cons.mp hprev).1 q hq
      · intro q hq r hr
        have hqprev := hcross q hq prev (List.mem_cons_self ..)
        rcases List.mem_cons.mp hr with rfl | hr
        · exact hqprev
        · rcases List.mem_cons.mp hr with rfl | hr
          · exact BitVec.le_trans hqprev hle
          · exact hcross q hq r (List.mem_cons_of_mem _ hr)
    · intro q hq
      rw [hnext, h.timer]
      rcases List.mem_cons.mp (h.perm.mem_iff.mp hq) with rfl | hq
      · exact BitVec.le_trans (horder.next prev hprevmem) hle
      · exact horder.next q hq

theorem Timers.InOrder.start {σ : Timers κ} {p : ℕ} (horder : σ.InOrder)
    (hfree : p ∉ σ.timerList) : (timerStart σ p).2.InOrder := by
  have hwrite : ∀ t : Timer κ, (σ.write p t).InOrder :=
    fun t => horder.sameList (sameList_write hfree t)
  have houtcome := startOutcome σ p
  generalize timerStart σ p = r at houtcome ⊢
  cases houtcome with
  | null hnull => exact horder.of_same rfl rfl fun _ _ => rfl
  | refused err _ herr => exact (hwrite _).of_same rfl rfl fun _ _ => rfl
  | accepted τ _ _ _ hinserted =>
      exact ((hwrite _).insert hinserted).of_same rfl rfl fun _ _ => rfl

theorem Timers.InOrder.stop {σ : Timers κ} {p : ℕ} (hinv : TimerInv σ) (horder : σ.InOrder)
    (hlive : p = 0 ∨ σ.live p = true) (beyond : ClockTick)
    (hkeep : p ∈ σ.timerList → ∀ q ∈ σ.timerList, q ≠ p → ¬σ.Due q) :
    (timerStop σ p beyond).2.InOrder := by
  have houtcome := stopOutcome (p := p) beyond
    fun hnull => hinv.settled p (hlive.resolve_left hnull)
  generalize timerStop σ p beyond = r at houtcome ⊢
  cases houtcome with
  | refused err herr => exact horder.of_same rfl rfl fun _ _ => rfl
  | stopped τ hnull hwaiting hremoved hsame =>
      have hp : p ∈ σ.timerList := (hinv.waiting p).mpr
        ⟨hlive.resolve_left hnull, hwaiting⟩
      have hlist : τ.timerList = σ.timerList.erase p := hremoved.timerList
      have htimer : ∀ q ∈ σ.timerList.erase p, τ.timer q = σ.timer q := by
        intro q hq
        have hne := (hinv.nodup.mem_erase_iff.mp hq).1
        rw [hremoved.timer, write_timer_of_ne hne]
      have hlater : ∀ q ∈ σ.timerList.erase p, σ.timerTicks < (σ.timer q).timeout := by
        intro q hq
        obtain ⟨hne, hq⟩ := hinv.nodup.mem_erase_iff.mp hq
        exact BitVec.not_le.mp (hkeep hp q hq hne)
      have hsorted := horder.sorted.sublist (List.erase_sublist (a := p))
      refine Timers.InOrder.of_same (σ := τ) ⟨?_, ?_⟩ rfl rfl fun _ _ => rfl
      · rw [hlist]
        refine hsorted.imp_of_mem fun {q r} hq hr hle => ?_
        rw [htimer q hq, htimer r hr]
        exact hle
      · intro q hq
        rw [hlist] at hq
        rw [htimer q hq]
        cases hcons : σ.timerList.erase p with
        | nil => rw [hcons] at hq; cases hq
        | cons first rest =>
            have hfirst : first ∈ σ.timerList.erase p := hcons ▸ List.mem_cons_self ..
            have hnext := hremoved.next first rest hcons (by
              rw [← hremoved.timer, htimer first hfirst]
              exact hlater first hfirst)
            rw [hnext, ← hremoved.timer, htimer first hfirst]
            rcases List.mem_cons.mp (hcons ▸ hq) with rfl | hrest
            · exact BitVec.le_refl _
            · exact (List.pairwise_cons.mp (hcons ▸ hsorted)).1 q hrest

/-! ## A tick -/

theorem toNat_sub_add {a b : ClockTick} (h : b ≤ a) : (a - b).toNat + b.toNat = a.toNat := by
  rw [BitVec.toNat_sub_of_le h]
  exact Nat.sub_add_cancel h

/-- How far the loop of a tick is that began in the state `σ` and is now in the state `τ`:
the timers `visited` were due and invoked, those of them in `done` were armed again, and
the ticks went back by `shift`. -/
structure Pass (σ τ : Timers κ) (answer : ℕ → Bool) (visited done rest : List ℕ)
    (shift : ℕ) : Prop where
  inv : TimerInv τ
  split : σ.timerList = visited ++ rest
  due : ∀ p ∈ visited, σ.Due p
  timerList : τ.timerList = done ++ rest
  sublist : done.Sublist visited
  rearmed : ∀ p ∈ done, σ.RearmsWith answer p
  timerTicks : τ.timerTicks.toNat + shift = σ.timerTicks.toNat
  timeout : ∀ p ∈ rest, (τ.timer p).timeout.toNat + shift = (σ.timer p).timeout.toNat
  same : ∀ p ∈ rest, (τ.timer p).timeTicks = (σ.timer p).timeTicks ∧
    (τ.timer p).flags = (σ.timer p).flags ∧ (τ.timer p).handler = (σ.timer p).handler
  doneTimeout : σ.RearmsInPlace answer → ∀ p ∈ done,
    (τ.timer p).timeout.toNat + shift = σ.timerTicks.toNat + (σ.timer p).timeTicks.toNat
  invoked : ∃ new, τ.history = σ.history ++ new ∧
    ∀ p ∈ visited, ∃ timeTicks flags again, .invoke p timeTicks flags again ∈ new

theorem Pass.begin {σ : Timers κ} (hinv : TimerInv σ) (answer : ℕ → Bool) :
    Pass σ σ answer [] [] σ.timerList 0 where
  inv := hinv
  split := rfl
  due := by simp
  timerList := rfl
  sublist := .refl _
  rearmed := by simp
  timerTicks := rfl
  timeout := fun _ _ => rfl
  same := fun _ _ => ⟨rfl, rfl, rfl⟩
  doneTimeout := by simp
  invoked := ⟨[], by simp, by simp⟩

theorem turnedBack_le {σ : Timers κ} (hinv : TimerInv σ) {p : ℕ} (hp : p ∈ σ.timerList) :
    σ.turnedBack p ≤ (σ.timer p).timeout := by
  rw [Timers.turnedBack]
  cases hhandler : (σ.timer p).handler with
  | idleTimerHandler =>
      rw [← hinv.handler p ((hinv.waiting p).mp hp).1 hhandler]
      exact BitVec.le_refl _
  | client k => exact BitVec.le_def.mpr (Nat.zero_le _)

namespace Pass

variable {σ τ ρ : Timers κ} {answer : ℕ → Bool} {visited done rest : List ℕ} {p shift : ℕ}

theorem due_iff (h : Pass σ τ answer visited done rest shift) (hp : p ∈ rest) :
    τ.Due p ↔ σ.Due p := by
  have hticks := h.timerTicks
  have htimeout := h.timeout p hp
  rw [Timers.Due, Timers.Due, BitVec.le_def, BitVec.le_def]
  omega

theorem rearms_iff (h : Pass σ τ answer visited done rest shift) (hp : p ∈ rest) :
    (τ.timer p).Rearms ((τ.timer p).answer fun _ => answer p) ↔ σ.RearmsWith answer p := by
  obtain ⟨-, hflags, hhandler⟩ := h.same p hp
  rw [Timers.RearmsWith, Timer.Rearms, Timer.Rearms, Timer.IsPeriod, Timer.IsPeriod,
    Timer.answer, Timer.answer, hflags, hhandler]

theorem later_of_done (h : Pass σ τ answer visited done rest shift)
    (hplace : σ.RearmsInPlace answer) (hp : p ∈ done) :
    τ.timerTicks < (τ.timer p).timeout := by
  have hvisited := h.sublist.subset hp
  have hlisted : p ∈ σ.timerList := by
    rw [h.split]
    exact List.mem_append_left _ hvisited
  have hlater := hplace.later p hlisted (h.due p hvisited) (h.rearmed p hp)
  have hticks := h.timerTicks
  have htimeout := h.doneTimeout hplace p hp
  rw [BitVec.lt_def] at hlater ⊢
  bv_omega

/-- The timer that is invoked next was neither armed again nor is it behind itself. -/
theorem ne_next (h : Pass σ τ answer visited done (p :: rest) shift) {q : ℕ}
    (hq : q ∈ done ∨ q ∈ rest) : q ≠ p := by
  obtain ⟨-, hrest, hdone⟩ := List.nodup_append.mp (h.timerList ▸ h.inv.nodup)
  rcases hq with hq | hq
  · exact hdone q hq p (List.mem_cons_self ..)
  · rintro rfl
    exact (List.nodup_cons.mp hrest).1 hq

theorem mem_timerList (h : Pass σ τ answer visited done rest shift) {q : ℕ}
    (hq : q ∈ done ∨ q ∈ rest) : q ∈ τ.timerList := by
  rw [h.timerList]
  exact List.mem_append.mpr hq

theorem listed_next (h : Pass σ τ answer visited done (p :: rest) shift) {again : Bool}
    (hinvoked : Invocation τ ρ p again) {q : ℕ} (hq : q ∈ done ∨ q ∈ rest) :
    ρ.timer q = (τ.timer q).setTimeout ((τ.timer q).timeout - τ.turnedBack p) :=
  hinvoked.listed q (h.mem_timerList (hq.imp_right (List.mem_cons_of_mem p))) (h.ne_next hq)

/-- The timers behind the one that is invoked are not earlier, so that their timeouts do not
wrap. -/
theorem timeout_next
    (hsorted : σ.timerList.Pairwise fun p q => (σ.timer p).timeout ≤ (σ.timer q).timeout)
    (h : Pass σ τ answer visited done (p :: rest) shift) {again : Bool}
    (hinvoked : Invocation τ ρ p again) {q : ℕ} (hq : q ∈ rest) :
    (ρ.timer q).timeout.toNat + (shift + (τ.turnedBack p).toNat) = (σ.timer q).timeout.toNat := by
  have hback := turnedBack_le h.inv (h.mem_timerList (.inr (List.mem_cons_self ..)))
  have hle := (List.pairwise_cons.mp (List.pairwise_append.mp (h.split ▸ hsorted)).2.1).1 q hq
  have hpTimeout := h.timeout p (List.mem_cons_self ..)
  have hqTimeout := h.timeout q (List.mem_cons_of_mem _ hq)
  have hle' : (τ.timer p).timeout ≤ (τ.timer q).timeout := by
    rw [BitVec.le_def] at hle ⊢
    omega
  have hkept : (ρ.timer q).timeout.toNat + (τ.turnedBack p).toNat =
      (τ.timer q).timeout.toNat := by
    rw [h.listed_next hinvoked (.inr hq)]
    exact toNat_sub_add (BitVec.le_trans hback hle')
  omega

theorem doneTimeout_next (h : Pass σ τ answer visited done (p :: rest) shift) (hdue : τ.Due p)
    {again : Bool} (hinvoked : Invocation τ ρ p again) (hplace : σ.RearmsInPlace answer) {q : ℕ}
    (hq : q ∈ done) :
    (ρ.timer q).timeout.toNat + (shift + (τ.turnedBack p).toNat) =
      σ.timerTicks.toNat + (σ.timer q).timeTicks.toNat := by
  have hback := turnedBack_le h.inv (h.mem_timerList (.inr (List.mem_cons_self ..)))
  have hlater := BitVec.le_of_lt (h.later_of_done hplace hq)
  have hkept : (ρ.timer q).timeout.toNat + (τ.turnedBack p).toNat =
      (τ.timer q).timeout.toNat := by
    rw [h.listed_next hinvoked (.inl hq)]
    exact toNat_sub_add (BitVec.le_trans (BitVec.le_trans hback hdue) hlater)
  have htimeout := h.doneTimeout hplace q hq
  omega

theorem invoked_next (h : Pass σ τ answer visited done rest shift) (p : ℕ) (timeTicks : ClockTick)
    (flags : BitVec 32) (again : Bool) (tail : List TimerEvent) :
    ∃ new, τ.history ++ .invoke p timeTicks flags again :: tail = σ.history ++ new ∧
      ∀ q ∈ visited ++ [p], ∃ timeTicks flags again, .invoke q timeTicks flags again ∈ new := by
  obtain ⟨new, hhistory, hinvoked⟩ := h.invoked
  refine ⟨new ++ .invoke p timeTicks flags again :: tail, ?_, ?_⟩
  · rw [hhistory, List.append_assoc]
  · intro q hq
    rcases List.mem_append.mp hq with hq | hq
    · obtain ⟨timeTicks, flags, again, hmem⟩ := hinvoked q hq
      exact ⟨timeTicks, flags, again, List.mem_append_left _ hmem⟩
    · rw [List.mem_singleton.mp hq]
      exact ⟨_, _, _, List.mem_append_right _ (List.mem_cons_self ..)⟩

theorem next (hsorted : σ.timerList.Pairwise fun p q => (σ.timer p).timeout ≤ (σ.timer q).timeout)
    (h : Pass σ τ answer visited done (p :: rest) shift) (hdue : τ.Due p)
    (hinvoked : Invocation τ ρ p ((τ.timer p).answer fun _ => answer p)) :
    ∃ done' shift', Pass σ ρ answer (visited ++ [p]) done' rest shift' := by
  have hp : p ∈ τ.timerList := h.mem_timerList (.inr (List.mem_cons_self ..))
  have hpσ : p ∈ σ.timerList := by
    rw [h.split]
    exact List.mem_append_right _ (List.mem_cons_self ..)
  have hdueσ := (h.due_iff (List.mem_cons_self ..)).mp hdue
  have hbackTicks := toNat_sub_add (BitVec.le_trans (turnedBack_le h.inv hp) hdue)
  have hdueAll : ∀ q ∈ visited ++ [p], σ.Due q := by
    intro q hq
    rcases List.mem_append.mp hq with hq | hq
    · exact h.due q hq
    · rw [List.mem_singleton.mp hq]
      exact hdueσ
  have hsame : ∀ q ∈ rest, (ρ.timer q).timeTicks = (σ.timer q).timeTicks ∧
      (ρ.timer q).flags = (σ.timer q).flags ∧ (ρ.timer q).handler = (σ.timer q).handler := by
    intro q hq
    rw [h.listed_next hinvoked (.inr hq)]
    exact h.same q (List.mem_cons_of_mem _ hq)
  have hticks : ρ.timerTicks.toNat + (shift + (τ.turnedBack p).toNat) = σ.timerTicks.toNat := by
    rw [hinvoked.timerTicks]
    have := h.timerTicks
    omega
  have htimeouts := fun q hq => h.timeout_next hsorted hinvoked (q := q) hq
  have hsplit : σ.timerList = (visited ++ [p]) ++ rest := by
    rw [h.split, List.append_assoc, List.singleton_append]
  by_cases hrearms : (τ.timer p).Rearms ((τ.timer p).answer fun _ => answer p)
  · obtain ⟨hlist, -, -, hself, hhistory⟩ := hinvoked.rearmed hrearms
    have hrearmsσ := (h.rearms_iff (List.mem_cons_self ..)).mp hrearms
    refine ⟨done ++ [p], shift + (τ.turnedBack p).toNat, h.inv.invoke hp hinvoked, hsplit,
      hdueAll, ?_, h.sublist.append (.refl _), ?_, hticks, htimeouts, hsame, ?_, ?_⟩
    · rw [hlist, h.timerList, List.append_assoc, List.singleton_append]
    · intro q hq
      rcases List.mem_append.mp hq with hq | hq
      · exact h.rearmed q hq
      · rw [List.mem_singleton.mp hq]
        exact hrearmsσ
    · intro hplace q hq
      rcases List.mem_append.mp hq with hq | hq
      · exact h.doneTimeout_next hdue hinvoked hplace hq
      · rw [List.mem_singleton.mp hq, hself, (h.same p (List.mem_cons_self ..)).1]
        have hlater := hplace.later p hpσ hdueσ hrearmsσ
        rw [BitVec.lt_def] at hlater
        bv_omega
    · rw [hhistory]
      exact h.invoked_next _ _ _ _ []
  · obtain ⟨hlist, -, tail, -, hhistory, -⟩ := hinvoked.removed hrearms
    refine ⟨done, shift + (τ.turnedBack p).toNat, h.inv.invoke hp hinvoked, hsplit, hdueAll, ?_,
      h.sublist.trans (List.sublist_append_left ..), h.rearmed, hticks, htimeouts, hsame,
      fun hplace q hq => h.doneTimeout_next hdue hinvoked hplace hq, ?_⟩
    · rw [hlist, h.timerList,
        List.erase_append_right _ fun hq => h.ne_next (.inl hq) rfl, List.erase_cons_head]
    · rw [hhistory]
      exact h.invoked_next _ _ _ _ tail

theorem rest_later
    (hsorted : σ.timerList.Pairwise fun p q => (σ.timer p).timeout ≤ (σ.timer q).timeout)
    (h : Pass σ τ answer visited done rest shift)
    (hstop : ∀ p rest', rest = p :: rest' → τ.timerTicks < (τ.timer p).timeout)
    (hp : p ∈ rest) : ¬σ.Due p := by
  cases rest with
  | nil => cases hp
  | cons first rest =>
      have hfirst : ¬σ.Due first := by
        rw [← h.due_iff (List.mem_cons_self ..)]
        exact BitVec.not_le.mpr (hstop first rest rfl)
      rcases List.mem_cons.mp hp with rfl | hrest
      · exact hfirst
      · intro hdue
        have hle := (List.pairwise_cons.mp
          (List.pairwise_append.mp (h.split ▸ hsorted)).2.1).1 p hrest
        exact hfirst (BitVec.le_trans hle hdue)

theorem sorted
    (hsorted : σ.timerList.Pairwise fun p q => (σ.timer p).timeout ≤ (σ.timer q).timeout)
    (hplace : σ.RearmsInPlace answer) (h : Pass σ τ answer visited done rest shift)
    (hstop : ∀ p rest', rest = p :: rest' → τ.timerTicks < (τ.timer p).timeout) :
    (τ.timerList.Pairwise fun p q => (τ.timer p).timeout ≤ (τ.timer q).timeout) ∧
      ∀ p ∈ τ.timerList, τ.timerTicks < (τ.timer p).timeout := by
  have hlater := fun p hp => h.rest_later hsorted hstop (p := p) hp
  obtain ⟨hvisited, hrest, -⟩ := List.pairwise_append.mp (h.split ▸ hsorted)
  obtain ⟨hplaceVisited, -, hplaceCross⟩ := List.pairwise_append.mp (h.split ▸ hplace.place)
  refine ⟨?_, ?_⟩
  · rw [h.timerList]
    refine List.pairwise_append.mpr ⟨?_, ?_, ?_⟩
    · refine (hplaceVisited.sublist h.sublist).imp_of_mem fun {p q} hp hq hpair => ?_
      have hle := (hpair (h.due p (h.sublist.subset hp)) (h.rearmed p hp)).1
        (h.due q (h.sublist.subset hq)) (h.rearmed q hq)
      have hpTimeout := h.doneTimeout hplace p hp
      have hqTimeout := h.doneTimeout hplace q hq
      rw [BitVec.le_def] at hle ⊢
      omega
    · refine hrest.imp_of_mem fun {p q} hp hq hle => ?_
      have hpTimeout := h.timeout p hp
      have hqTimeout := h.timeout q hq
      rw [BitVec.le_def] at hle ⊢
      omega
    · intro p hp q hq
      have hvisited := h.sublist.subset hp
      have hle := (hplaceCross p hvisited q hq (h.due p hvisited) (h.rearmed p hp)).2
        (hlater q hq)
      have hlisted : p ∈ σ.timerList := by
        rw [h.split]
        exact List.mem_append_left _ hvisited
      have hstay := hplace.later p hlisted (h.due p hvisited) (h.rearmed p hp)
      have hpTimeout := h.doneTimeout hplace p hp
      have hqTimeout := h.timeout q hq
      rw [BitVec.lt_def] at hstay
      rw [BitVec.le_def] at hle ⊢
      bv_omega
  · intro p hp
    rw [h.timerList] at hp
    rcases List.mem_append.mp hp with hp | hp
    · exact h.later_of_done hplace hp
    · exact BitVec.not_le.mp fun hdue => hlater p hp ((h.due_iff hp).mp hdue)

end Pass

/-- The invocations that a step adds to the history. -/
def InvokedBetween (σ τ : Timers κ) (p : ℕ) : Prop :=
  ∃ timeTicks flags again, .invoke p timeTicks flags again ∈ τ.history.drop σ.history.length

theorem TimerInv.ticked {σ : Timers κ} (hinv : TimerInv σ) : TimerInv σ.ticked :=
  hinv.of_same rfl rfl rfl

theorem pass_go {σ : Timers κ} (hinv : TimerInv σ) (horder : σ.InOrder) (answer : ℕ → Bool)
    (beyond : ClockTick) :
    ∃ visited done rest shift,
      Pass σ.ticked (expire (fun p _ w => (answer p, w)) beyond σ.ticked () σ.timerList).1
        answer visited done rest shift ∧
      ∀ p rest', rest = p :: rest' →
        (expire (fun p _ w => (answer p, w)) beyond σ.ticked () σ.timerList).1.timerTicks <
          ((expire (fun p _ w => (answer p, w)) beyond σ.ticked () σ.timerList).1.timer
            p).timeout := by
  obtain ⟨rest, ⟨visited, done, shift, hpass⟩, hstop⟩ :=
    expire_rule (fun p (_ : κ) (w : Unit) => (answer p, w)) beyond
      (P := fun rest τ => ∃ visited done shift, Pass σ.ticked τ answer visited done rest shift)
      (fun {p rest τ} h => by
        obtain ⟨visited, done, shift, hpass⟩ := h
        rw [hpass.timerList]
        exact List.mem_append_right _ (List.mem_cons_self ..))
      (fun {p rest τ ρ again} h hdue hinvoked hagain => by
        obtain ⟨visited, done, shift, hpass⟩ := h
        obtain ⟨w, rfl⟩ := hagain
        obtain ⟨done', shift', hnext⟩ :=
          hpass.next horder.ticked.sorted (BitVec.not_lt.mp hdue) hinvoked
        exact ⟨_, done', shift', hnext⟩)
      () ⟨[], [], 0, Pass.begin hinv.ticked answer⟩
  exact ⟨visited, done, rest, shift, hpass, hstop⟩

theorem Timers.InOrder.invoked {σ : Timers κ} (hinv : TimerInv σ) (horder : σ.InOrder)
    (answer : ℕ → Bool) (beyond : ClockTick) {p : ℕ} (hp : p ∈ σ.timerList)
    (hdue : σ.ticked.Due p) : InvokedBetween σ (timerStep σ beyond (.go answer)) p := by
  have hrun : ¬σ.ticked.timerTicks < σ.nextTimeoutTicks :=
    BitVec.not_lt.mpr (BitVec.le_trans (horder.next p hp) hdue)
  rw [show timerStep σ beyond (.go answer) = (expire (fun p _ w => (answer p, w)) beyond
    σ.ticked () σ.timerList).1.findNext beyond from congrArg Prod.fst (if_neg hrun)]
  obtain ⟨visited, done, rest, shift, hpass, hstop⟩ := pass_go hinv horder answer beyond
  generalize (expire (fun p _ w => (answer p, w)) beyond σ.ticked () σ.timerList).1 = τ
    at hpass hstop
  have hvisited : p ∈ visited := by
    have hmem : p ∈ visited ++ rest := hpass.split ▸ hp
    exact (List.mem_append.mp hmem).resolve_right
      fun hrest => hpass.rest_later horder.ticked.sorted hstop hrest hdue
  obtain ⟨new, hhistory, hinvoked⟩ := hpass.invoked
  obtain ⟨timeTicks, flags, again, hmem⟩ := hinvoked p hvisited
  refine ⟨timeTicks, flags, again, ?_⟩
  have hdrop : ∀ tail, (σ.ticked.history ++ new ++ tail).drop σ.history.length =
      .tick :: new ++ tail := by
    intro tail
    rw [show σ.ticked.history = σ.history ++ [.tick] from rfl, List.append_assoc,
      List.append_assoc, List.drop_left]
    rfl
  rcases (findsNext τ beyond).history with hfound | hfound
  · rw [hfound, hhistory, ← List.append_nil (_ ++ new), hdrop]
    simp [hmem]
  · rw [hfound, hhistory, hdrop]
    simp [hmem]

theorem Timers.InOrder.go {σ : Timers κ} (hinv : TimerInv σ) (horder : σ.InOrder)
    {answer : ℕ → Bool} (beyond : ClockTick) (hplace : σ.ticked.RearmsInPlace answer) :
    (timerStep σ beyond (.go answer)).InOrder := by
  by_cases hrun : σ.ticked.timerTicks < σ.nextTimeoutTicks
  · rw [show timerStep σ beyond (.go answer) = σ.ticked from congrArg Prod.fst (if_pos hrun)]
    exact horder.of_same rfl rfl fun _ _ => rfl
  · rw [show timerStep σ beyond (.go answer) = (expire (fun p _ w => (answer p, w)) beyond
      σ.ticked () σ.timerList).1.findNext beyond from congrArg Prod.fst (if_neg hrun)]
    obtain ⟨visited, done, rest, shift, hpass, hstop⟩ := pass_go hinv horder answer beyond
    generalize (expire (fun p _ w => (answer p, w)) beyond σ.ticked () σ.timerList).1 = τ
      at hpass hstop
    obtain ⟨hsorted, hlater⟩ := hpass.sorted horder.ticked.sorted hplace hstop
    have hfinds := findsNext τ beyond
    refine ⟨?_, ?_⟩
    · rw [hfinds.timerList, hfinds.timer]
      exact hsorted
    · intro p hp
      rw [hfinds.timerList] at hp
      rw [hfinds.timer]
      cases hcons : τ.timerList with
      | nil => rw [hcons] at hp; cases hp
      | cons first rest =>
          have hfirst : first ∈ τ.timerList := hcons ▸ List.mem_cons_self ..
          rw [findNext_of_later beyond hcons (hlater first hfirst)]
          rcases List.mem_cons.mp (hcons ▸ hp) with rfl | hrest
          · exact BitVec.le_refl _
          · exact (List.pairwise_cons.mp (hcons ▸ hsorted)).1 p hrest

/-! ## Runs -/

def OrderedMove (σ : Timers κ) (op : TimerOp κ) (τ : Timers κ) : Prop :=
  TimerMove σ op τ ∧ op.KeepsOrder σ

theorem Timers.InOrder.step {σ τ : Timers κ} {op : TimerOp κ} (hinv : TimerInv σ)
    (horder : σ.InOrder) (hmove : OrderedMove σ op τ) : τ.InOrder := by
  obtain ⟨⟨hallowed, beyond, rfl⟩, hkeeps⟩ := hmove
  cases op with
  | init p milliseconds handler flags => exact horder.sameList (sameList_init hallowed.2 ..)
  | create p milliseconds handler flags =>
      exact horder.sameList (sameList_create (hinv.not_listed hallowed.2) ..)
  | destroy p => exact horder.sameList (sameList_destroy ..)
  | start p => exact horder.start hkeeps
  | stop p => exact horder.stop hinv hallowed.2 beyond hkeeps
  | go answer => exact horder.go hinv beyond hkeeps

theorem inOrder_started (mem : ℕ → Timer κ) : (timersStarted mem).InOrder := by
  refine ⟨List.pairwise_singleton .., fun p hp => ?_⟩
  rw [List.mem_singleton.mp hp]
  exact BitVec.le_refl _

/-- In every run from `NX_TimersInit` whose calls keep the list in order, the list is
sorted by timeout, no timeout is before `nextTimeoutTicks`, and each tick invokes every
timer whose timeout it reaches. -/
theorem timerReachable_punctual (mem : ℕ → Timer κ) :
    ∃ start, timersInit mem = .ok start ∧ ∀ σ, Reachable OrderedMove start σ →
      σ.timerList.Pairwise (fun p q => (σ.timer p).timeout ≤ (σ.timer q).timeout) ∧
      (∀ p ∈ σ.timerList, σ.nextTimeoutTicks ≤ (σ.timer p).timeout) ∧
      ∀ answer τ, TimerMove σ (.go answer) τ → ∀ p ∈ σ.timerList,
        (σ.timer p).timeout ≤ σ.timerTicks + 1 → InvokedBetween σ τ p := by
  refine ⟨_, timersInit_eq mem, fun σ hreach => ?_⟩
  obtain ⟨hinv, horder⟩ := hreach.invariant
    (P := fun σ => TimerInv σ ∧ σ.InOrder) ⟨timerInv_started mem, inOrder_started mem⟩
    fun h hmove => ⟨h.1.step hmove.1, h.2.step h.1 hmove⟩
  refine ⟨horder.sorted, horder.next, fun answer τ hmove p hp hdue => ?_⟩
  obtain ⟨-, beyond, rfl⟩ := hmove
  exact horder.invoked hinv answer beyond hp hdue

instance (σ : Timers κ) (p : ℕ) : Decidable (σ.Due p) :=
  inferInstanceAs (Decidable (_ ≤ _))

instance (σ : Timers κ) (answer : ℕ → Bool) (p : ℕ) : Decidable (σ.RearmsWith answer p) :=
  inferInstanceAs (Decidable (_ ∧ _))

instance (σ : Timers κ) (answer : ℕ → Bool) : Decidable (σ.RearmsInPlace answer) :=
  decidable_of_iff ((∀ p ∈ σ.timerList, σ.Due p → σ.RearmsWith answer p →
      σ.timerTicks < σ.timerTicks + (σ.timer p).timeTicks) ∧
    σ.timerList.Pairwise fun p q => σ.Due p → σ.RearmsWith answer p →
      (σ.Due q → σ.RearmsWith answer q → (σ.timer p).timeTicks ≤ (σ.timer q).timeTicks) ∧
      (¬σ.Due q → σ.timerTicks + (σ.timer p).timeTicks ≤ (σ.timer q).timeout))
    ⟨fun h => ⟨h.1, h.2⟩, fun h => ⟨h.later, h.place⟩⟩

instance (σ : Timers κ) (op : TimerOp κ) : Decidable (op.KeepsOrder σ) :=
  match op with
  | .init _ _ _ _ => .isTrue trivial
  | .create _ _ _ _ => .isTrue trivial
  | .destroy _ => .isTrue trivial
  | .start p => inferInstanceAs (Decidable (p ∉ σ.timerList))
  | .stop p => inferInstanceAs (Decidable
      (p ∈ σ.timerList → ∀ q ∈ σ.timerList, q ≠ p → ¬σ.Due q))
  | .go answer => inferInstanceAs (Decidable (σ.ticked.RearmsInPlace answer))

def blankMemory (_ : ℕ) : Timer Unit := ⟨.inited, 0, 0, 0, .client ()⟩

def orderedRun : List (TimerOp Unit) :=
  [.init 2 20 (some ()) timerPeriod, .init 3 10 (some ()) timerOneshot, .start 2, .start 3,
    .go fun _ => true]

theorem timerReachable_punctual_orderedRun :
    ∃ start σ, timersInit blankMemory = .ok start ∧ Reachable OrderedMove start σ ∧
      InvokedBetween σ (timerStep σ 0 (.go fun _ => true)) 2 := by
  obtain ⟨start, hinit, hruns⟩ := timerReachable_punctual blankMemory
  rw [timersInit_eq] at hinit
  cases hinit
  have heval : (perform (stepWhen fun σ op => op.KeepsOrder σ)
      (timersStarted blankMemory) orderedRun).map
      (fun σ => decide (2 ∈ σ.timerList ∧ (σ.timer 2).timeout ≤ σ.timerTicks + 1)) =
      some true := by
    decide +kernel
  obtain ⟨σ, hrun, hσ⟩ := Option.map_eq_some_iff.mp heval
  obtain ⟨hlisted, hdue⟩ := of_decide_eq_true hσ
  have hreach : Reachable OrderedMove (timersStarted blankMemory) σ :=
    .of_perform timerMove_of_stepWhen hrun
  exact ⟨_, σ, timersInit_eq _, hreach,
    (hruns σ hreach).2.2 (fun _ => true) _ ⟨trivial, 0, rfl⟩ 2 hlisted hdue⟩

instance (σ : Timers κ) : Decidable σ.InOrder :=
  decidable_of_iff (σ.timerList.Pairwise (fun p q => (σ.timer p).timeout ≤ (σ.timer q).timeout) ∧
      ∀ p ∈ σ.timerList, σ.nextTimeoutTicks ≤ (σ.timer p).timeout)
    ⟨fun h => ⟨h.1, h.2⟩, fun h => ⟨h.sorted, h.next⟩⟩

def overtakenRun : List (TimerOp Unit) :=
  [.init 2 20 (some ()) timerPeriod, .init 3 30 (some ()) timerOneshot, .start 2, .start 3,
    .go fun _ => true, .go fun _ => true]

def restartedRun : List (TimerOp Unit) :=
  [.init 2 20 (some ()) timerOneshot, .init 3 20 (some ()) timerOneshot, .start 2, .start 3,
    .go fun _ => true, .start 2]

def passedOverRun : List (TimerOp Unit) :=
  [.init 2 5 (some ()) timerOneshot, .init 3 30 (some ()) timerOneshot, .start 2, .start 3,
    .stop 3]

/-- Each of the three ways to leave the order does so.  In the first, the one-shot timer is
not invoked at the tick that reaches its timeout. -/
theorem timerReachable_overtaken :
    ∃ start, timersInit blankMemory = .ok start ∧
      (∃ σ, Reachable TimerMove start σ ∧ ¬σ.InOrder ∧ 3 ∈ σ.timerList ∧
        (σ.timer 3).timeout ≤ σ.timerTicks + 1 ∧
        ¬InvokedBetween σ (timerStep σ 0 (.go fun _ => true)) 3) ∧
      (∃ σ, Reachable TimerMove start σ ∧ ¬σ.InOrder ∧
        perform allowedStep start restartedRun = some σ) ∧
      ∃ σ, Reachable TimerMove start σ ∧ ¬σ.InOrder ∧
        perform allowedStep start passedOverRun = some σ := by
  refine ⟨_, timersInit_eq blankMemory, ?_, ?_, ?_⟩
  · have heval : (perform allowedStep (timersStarted blankMemory) overtakenRun).map
        (fun σ => (decide (¬σ.InOrder ∧ 3 ∈ σ.timerList ∧
            (σ.timer 3).timeout ≤ σ.timerTicks + 1),
          (timerStep σ 0 (.go fun _ => true)).history.drop σ.history.length)) =
        some (true, [.tick]) := by
      decide +kernel
    obtain ⟨σ, hrun, hσ⟩ := Option.map_eq_some_iff.mp heval
    obtain ⟨hfacts, hhistory⟩ := Prod.mk.inj hσ
    obtain ⟨horder, hlisted, hdue⟩ := of_decide_eq_true hfacts
    refine ⟨σ, .of_perform timerMove_of_allowedStep hrun, horder, hlisted, hdue, ?_⟩
    rintro ⟨timeTicks, flags, again, hinvoked⟩
    rw [hhistory] at hinvoked
    cases List.mem_singleton.mp hinvoked
  · have heval : (perform allowedStep (timersStarted blankMemory) restartedRun).map
        (fun σ => decide σ.InOrder) = some false := by
      decide +kernel
    obtain ⟨σ, hrun, hσ⟩ := Option.map_eq_some_iff.mp heval
    exact ⟨σ, .of_perform timerMove_of_allowedStep hrun, of_decide_eq_false hσ, hrun⟩
  · have heval : (perform allowedStep (timersStarted blankMemory) passedOverRun).map
        (fun σ => decide σ.InOrder) = some false := by
      decide +kernel
    obtain ⟨σ, hrun, hσ⟩ := Option.map_eq_some_iff.mp heval
    exact ⟨σ, .of_perform timerMove_of_allowedStep hrun, of_decide_eq_false hσ, hrun⟩

end Nxos.Time
