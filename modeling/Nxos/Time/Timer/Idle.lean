import Nxos.Time.Timer.Punctual

/-!
# The idle timer

`NX_TimersInit` starts the idle timer, whose handler turns the tick count back with all
timeouts.  Until it fires it lies on the list behind every tick, so that the search for
the next timeout always ends at a timer.

The idle timer is initialised with the flags `NX_True`, which is `NX_TIMER_ONESHOT`.  So
`NX_TimerInvoke` takes it off the list after its handler has answered to go on.
-/

namespace Nxos.Time

open Nxos.Transition

variable {κ : Type}

theorem idleTimerHandler_remaining (σ : Timers κ) {p : ℕ} (hp : p ∈ σ.timerList) :
    ((idleTimerHandler σ).timer p).timeout - (idleTimerHandler σ).timerTicks =
      (σ.timer p).timeout - σ.timerTicks := by
  rw [show (idleTimerHandler σ).timer p = (σ.timer p).setTimeout
    ((σ.timer p).timeout - (σ.timer idleTimer).timeout) from if_pos hp]
  exact sub_sub_sub_cancel_right ..

/-! ## Before the idle timer fires -/

/-- The idle timer waits for a later tick, and the list head was never read. -/
structure IdleWaits (σ : Timers κ) : Prop where
  listed : idleTimer ∈ σ.timerList
  timer : σ.timer idleTimer = startedIdleTimer
  later : σ.timerTicks < idleTimerTimeoutTicks
  unread : .headRead ∉ σ.history

def TimerOp.BeforeIdle (σ : Timers κ) : TimerOp κ → Prop
  | .init _ _ _ _ => True
  | .create _ _ _ _ => True
  | .destroy _ => True
  | .start _ => True
  | .stop _ => True
  | .go _ => σ.timerTicks + 1 < (σ.timer idleTimer).timeout

namespace IdleWaits

variable {σ τ : Timers κ} {p : ℕ}

theorem timeout_later (h : IdleWaits σ) : σ.timerTicks < (σ.timer idleTimer).timeout := by
  rw [h.timer]
  exact h.later

theorem sameList (h : IdleWaits σ) (hsame : SameList σ τ) : IdleWaits τ where
  listed := hsame.timerList ▸ h.listed
  timer := (hsame.listed _ h.listed).trans h.timer
  later := hsame.timerTicks ▸ h.later
  unread := hsame.history ▸ h.unread

theorem log (h : IdleWaits σ) {e : TimerEvent} (he : e ≠ .headRead) : IdleWaits (σ.log e) := by
  refine ⟨h.listed, h.timer, h.later, fun hmem => ?_⟩
  rcases List.mem_append.mp hmem with hmem | hmem
  · exact h.unread hmem
  · exact he (List.mem_singleton.mp hmem).symm

theorem write (h : IdleWaits σ) (hp : p ≠ idleTimer) (t : Timer κ) : IdleWaits (σ.write p t) :=
  ⟨h.listed, (write_timer_of_ne hp.symm).trans h.timer, h.later, h.unread⟩

theorem findNext (h : IdleWaits σ) (beyond : ClockTick) : IdleWaits (σ.findNext beyond) := by
  have hfinds := findsNext σ beyond
  refine ⟨hfinds.timerList ▸ h.listed, by rw [hfinds.timer]; exact h.timer,
    hfinds.timerTicks ▸ h.later, ?_⟩
  rw [findNext_history beyond h.listed h.timeout_later]
  exact h.unread

theorem insert (h : IdleWaits σ) (hinserted : Inserted σ τ p) : IdleWaits τ := by
  refine ⟨?_, ?_, ?_, ?_⟩
  · rw [hinserted.perm.mem_iff]
    exact List.mem_cons_of_mem _ h.listed
  · rw [hinserted.timer]
    exact h.timer
  · rw [hinserted.timerTicks]
    exact h.later
  · rw [hinserted.history]
    exact h.unread

theorem remove (h : IdleWaits σ) (hp : p ≠ idleTimer) (hremoved : Removed σ τ p) :
    IdleWaits τ := by
  have hlisted : idleTimer ∈ σ.timerList.erase p := (List.mem_erase_of_ne hp.symm).mpr h.listed
  refine ⟨hremoved.timerList ▸ hlisted, ?_, hremoved.timerTicks ▸ h.later, ?_⟩
  · rw [hremoved.timer]
    exact h.timer
  · rw [hremoved.quiet idleTimer hlisted h.timeout_later]
    exact h.unread

theorem start (h : IdleWaits σ) (hp : p ≠ idleTimer) : IdleWaits (timerStart σ p).2 := by
  have houtcome := startOutcome σ p
  generalize timerStart σ p = r at houtcome ⊢
  cases houtcome with
  | null hnull => exact h.log (by simp)
  | refused err hnull herr => exact (h.write hp _).log (by simp)
  | accepted τ hnull hfree hcheck hinserted => exact ((h.write hp _).insert hinserted).log (by simp)

theorem stop (hinv : TimerInv σ) (h : IdleWaits σ) (hp : p ≠ idleTimer)
    (hlive : p = 0 ∨ σ.live p = true) (beyond : ClockTick) :
    IdleWaits (timerStop σ p beyond).2 := by
  have houtcome := stopOutcome (p := p) beyond
    fun hnull => hinv.settled p (hlive.resolve_left hnull)
  generalize timerStop σ p beyond = r at houtcome ⊢
  cases houtcome with
  | refused err herr => exact h.log (by simp)
  | stopped τ hnull hwaiting hremoved hsame =>
      exact ((h.write hp _).remove hp hremoved).log (by simp)

theorem invoke {again : Bool} (hinv : TimerInv σ) (h : IdleWaits σ) (hp : p ∈ σ.timerList)
    (hdue : σ.Due p) (hinvoked : Invocation σ τ p again) : IdleWaits τ := by
  have hne : idleTimer ≠ p := by
    rintro rfl
    exact BitVec.not_le.mpr h.timeout_later hdue
  have hback : σ.turnedBack p = 0 := by
    rw [Timers.turnedBack]
    cases hhandler : (σ.timer p).handler with
    | client k => rfl
    | idleTimerHandler =>
        exact absurd (hinv.handler p ((hinv.waiting p).mp hp).1 hhandler).symm hne
  have hticks : τ.timerTicks = σ.timerTicks := by
    rw [hinvoked.timerTicks, hback, sub_zero]
  have htimer : τ.timer idleTimer = startedIdleTimer := by
    rw [hinvoked.listed idleTimer h.listed hne, hback, sub_zero, ← h.timer]
    rfl
  have hlater : τ.timerTicks < (τ.timer idleTimer).timeout := by
    rw [hticks, htimer]
    exact h.later
  by_cases hrearms : (σ.timer p).Rearms again
  · obtain ⟨hlist, -, -, -, hhistory⟩ := hinvoked.rearmed hrearms
    refine ⟨hlist ▸ h.listed, htimer, hticks ▸ h.later, ?_⟩
    rw [hhistory]
    simp [h.unread]
  · obtain ⟨hlist, -, tail, -, hhistory, hquiet⟩ := hinvoked.removed hrearms
    have hlisted : idleTimer ∈ σ.timerList.erase p := (List.mem_erase_of_ne hne).mpr h.listed
    refine ⟨hlist ▸ hlisted, htimer, hticks ▸ h.later, ?_⟩
    rw [hhistory, hquiet idleTimer hlisted hlater]
    simp [h.unread]

theorem go (hinv : TimerInv σ) (h : IdleWaits σ) (answer : ℕ → Bool) (beyond : ClockTick)
    (hbefore : σ.timerTicks + 1 < (σ.timer idleTimer).timeout) :
    IdleWaits (timerStep σ beyond (.go answer)) := by
  have hticked : IdleWaits σ.ticked := by
    refine IdleWaits.log (σ := { σ with timerTicks := σ.timerTicks + 1 })
      ⟨h.listed, h.timer, ?_, h.unread⟩ (by simp)
    rw [h.timer] at hbefore
    exact hbefore
  obtain ⟨rest, hresult⟩ := hinv.go_rule (P := fun _ τ => IdleWaits τ) answer beyond hticked
    (fun hinv _ hlisted h hdue hinvoked _ =>
      h.invoke hinv (hlisted _ (List.mem_cons_self ..)) hdue hinvoked)
    fun h => h.findNext beyond
  exact hresult

theorem step {op : TimerOp κ} (hinv : TimerInv σ) (h : IdleWaits σ) (hmove : TimerMove σ op τ)
    (hbefore : op.BeforeIdle σ) : IdleWaits τ := by
  obtain ⟨hallowed, beyond, rfl⟩ := hmove
  cases op with
  | init p milliseconds handler flags => exact h.sameList (sameList_init hallowed.2 ..)
  | create p milliseconds handler flags =>
      exact h.sameList (sameList_create (hinv.not_listed hallowed.2) ..)
  | destroy p => exact h.sameList (sameList_destroy ..)
  | start p => exact h.start hallowed.1
  | stop p => exact h.stop hinv hallowed.1 hallowed.2 beyond
  | go answer => exact h.go hinv answer beyond hbefore

end IdleWaits

theorem idleWaits_started (mem : ℕ → Timer κ) : IdleWaits (timersStarted mem) where
  listed := List.mem_singleton_self _
  timer := rfl
  later := by
    show (0 : ClockTick) < idleTimerTimeoutTicks
    decide
  unread := by
    show TimerEvent.headRead ∉ [.start idleTimer .eok]
    decide

def EarlyMove (σ : Timers κ) (op : TimerOp κ) (τ : Timers κ) : Prop :=
  TimerMove σ op τ ∧ op.BeforeIdle σ

/-- In every run from `NX_TimersInit` in which no tick reaches the timeout of the idle
timer, this timer is on the list, the list head is never read, and the tick count is within
its bound.  The rebase keeps the remaining ticks of every timer, in any state. -/
theorem timerReachable_idleWaits (mem : ℕ → Timer κ) :
    ∃ start, timersInit mem = .ok start ∧
      (∀ σ, Reachable EarlyMove start σ → idleTimer ∈ σ.timerList ∧ σ.timerList ≠ [] ∧
        .headRead ∉ σ.history ∧ σ.timerTicks ≤ idleTimerTimeoutTicks) ∧
      ∀ σ : Timers κ, ∀ p ∈ σ.timerList,
        ((idleTimerHandler σ).timer p).timeout - (idleTimerHandler σ).timerTicks =
          (σ.timer p).timeout - σ.timerTicks := by
  refine ⟨_, timersInit_eq mem, fun σ hreach => ?_, fun σ p hp => idleTimerHandler_remaining σ hp⟩
  obtain ⟨-, hidle⟩ := hreach.invariant
    (P := fun σ => TimerInv σ ∧ IdleWaits σ) ⟨timerInv_started mem, idleWaits_started mem⟩
    fun h hmove => ⟨h.1.step hmove.1, h.2.step h.1 hmove.1 hmove.2⟩
  exact ⟨hidle.listed, List.ne_nil_of_mem hidle.listed, hidle.unread,
    BitVec.le_of_lt hidle.later⟩

instance (σ : Timers κ) (op : TimerOp κ) : Decidable (op.BeforeIdle σ) :=
  match op with
  | .init _ _ _ _ => .isTrue trivial
  | .create _ _ _ _ => .isTrue trivial
  | .destroy _ => .isTrue trivial
  | .start _ => .isTrue trivial
  | .stop _ => .isTrue trivial
  | .go _ => inferInstanceAs (Decidable (_ < _))

def earlyRun : List (TimerOp Unit) :=
  [.init 2 10 (some ()) timerPeriod, .start 2, .go fun _ => true, .go fun _ => true, .stop 2]

theorem timerReachable_idleWaits_earlyRun :
    ∃ start σ, timersInit blankMemory = .ok start ∧ Reachable EarlyMove start σ ∧
      σ.timerTicks = 2 ∧ idleTimer ∈ σ.timerList ∧ .headRead ∉ σ.history ∧
      ((idleTimerHandler σ).timer idleTimer).timeout - (idleTimerHandler σ).timerTicks =
        (σ.timer idleTimer).timeout - σ.timerTicks := by
  obtain ⟨start, hinit, hruns, hrebase⟩ := timerReachable_idleWaits blankMemory
  rw [timersInit_eq] at hinit
  cases hinit
  have heval : (perform (stepWhen fun σ op => op.BeforeIdle σ) (timersStarted blankMemory)
      earlyRun).map (·.timerTicks) = some 2 := by
    decide +kernel
  obtain ⟨σ, hrun, hticks⟩ := Option.map_eq_some_iff.mp heval
  have hreach : Reachable EarlyMove (timersStarted blankMemory) σ :=
    .of_perform timerMove_of_stepWhen hrun
  obtain ⟨hlisted, -, hunread, -⟩ := hruns σ hreach
  exact ⟨_, σ, timersInit_eq _, hreach, hticks, hlisted, hunread, hrebase σ _ hlisted⟩

/-! ## The tick at which it fires -/

/-- Ticks before the timeout of the idle timer only count, when it is the only timer. -/
theorem reachable_tick (mem : ℕ → Timer κ) {n : ℕ} (hn : n < idleTimerTimeoutTicks.toNat) :
    ∃ σ, Reachable EarlyMove (timersStarted mem) σ ∧ σ.timerTicks = BitVec.ofNat 64 n ∧
      σ.timerList = [idleTimer] ∧ σ.nextTimeoutTicks = idleTimerTimeoutTicks ∧
      ∀ p, p ≠ idleTimer → σ.live p = false := by
  have hbound : idleTimerTimeoutTicks.toNat < 2 ^ 64 := idleTimerTimeoutTicks.isLt
  induction n with
  | zero =>
      refine ⟨_, .refl, rfl, rfl, rfl, fun p hp => ?_⟩
      show Function.update (fun _ => false) idleTimer true p = false
      rw [Function.update_of_ne hp]
  | succ n ih =>
      obtain ⟨σ, hreach, hticks, hlist, hnext, hlive⟩ := ih (by omega)
      obtain ⟨-, hidle⟩ := hreach.invariant
        (P := fun σ => TimerInv σ ∧ IdleWaits σ) ⟨timerInv_started mem, idleWaits_started mem⟩
        fun h hmove => ⟨h.1.step hmove.1, h.2.step h.1 hmove.1 hmove.2⟩
      have hsucc : σ.timerTicks + 1 = BitVec.ofNat 64 (n + 1) := by
        rw [hticks]
        bv_omega
      have hlater : σ.timerTicks + 1 < idleTimerTimeoutTicks := by
        rw [hsucc, BitVec.lt_def, BitVec.toNat_ofNat]
        omega
      have hrun : timerStep σ 0 (.go fun _ => true) = σ.ticked :=
        congrArg Prod.fst (if_pos (hnext ▸ hlater))
      refine ⟨σ.ticked, hreach.tail (a := .go fun _ => true) ⟨⟨trivial, 0, hrun.symm⟩, ?_⟩,
        hsucc, hlist, hnext, hlive⟩
      show σ.timerTicks + 1 < (σ.timer idleTimer).timeout
      rw [hidle.timer]
      exact hlater

/-- With the idle timer alone, the tick that reaches its timeout empties the list, reads the
list head, and starts the count anew for the last time. -/
theorem reachable_idleGone (mem : ℕ → Timer κ) :
    ∃ σ, Reachable TimerMove (timersStarted mem) σ ∧ σ.timerList = [] ∧ σ.timerTicks = 0 ∧
      (∀ p, p ≠ idleTimer → σ.live p = false) ∧ .headRead ∈ σ.history := by
  obtain ⟨σ, hreach, hticks, hlist, hnext, hlive⟩ :=
    reachable_tick mem (n := idleTimerTimeoutTicks.toNat - 1) (by decide)
  obtain ⟨hinv, hidle⟩ := hreach.invariant
    (P := fun σ => TimerInv σ ∧ IdleWaits σ) ⟨timerInv_started mem, idleWaits_started mem⟩
    fun h hmove => ⟨h.1.step hmove.1, h.2.step h.1 hmove.1 hmove.2⟩
  have hreach' : Reachable TimerMove (timersStarted mem) σ := hreach.mono And.left
  have htick : σ.ticked.timerTicks = idleTimerTimeoutTicks := by
    show σ.timerTicks + 1 = _
    rw [hticks]
    decide
  have hrun : ¬σ.ticked.timerTicks < σ.nextTimeoutTicks := by
    rw [htick, hnext]
    exact BitVec.lt_irrefl _
  have hdue : ¬σ.ticked.timerTicks < (σ.ticked.timer idleTimer).timeout := by
    rw [htick, show σ.ticked.timer = σ.timer from rfl, hidle.timer]
    exact BitVec.lt_irrefl _
  have hinvoked := invocation (fun p (_ : κ) (w : Unit) => ((fun _ => true) p, w)) 0 (σ := σ.ticked)
    () (p := idleTimer) hidle.listed
  have hstep : timerStep σ 0 (.go fun _ => true) = (timerInvoke
      (fun p (_ : κ) (w : Unit) => ((fun _ => true) p, w)) 0 σ.ticked () idleTimer).1.findNext
        0 := by
    refine (congrArg Prod.fst (if_neg hrun)).trans ?_
    show (expire _ 0 σ.ticked () σ.timerList).1.findNext 0 = _
    rw [hlist, expire, if_neg hdue]
    rfl
  generalize (timerInvoke (fun p (_ : κ) (w : Unit) => ((fun _ => true) p, w)) 0 σ.ticked ()
    idleTimer).1 = τ at hinvoked hstep
  have hrearms : ∀ again, ¬(σ.ticked.timer idleTimer).Rearms again := by
    intro again h
    have hperiod := h.2
    rw [show σ.ticked.timer = σ.timer from rfl, hidle.timer] at hperiod
    exact hperiod (show timerOneshot &&& timerPeriod = 0 from rfl)
  have hback : σ.ticked.turnedBack idleTimer = idleTimerTimeoutTicks := by
    rw [Timers.turnedBack, show σ.ticked.timer = σ.timer from rfl, hidle.timer]
    rfl
  have hempty : τ.timerList = [] := by
    rw [(hinvoked.removed (hrearms _)).1, show σ.ticked.timerList = σ.timerList from rfl, hlist]
    rfl
  have hfinds := findsNext τ 0
  refine ⟨τ.findNext 0, hreach'.tail (a := .go fun _ => true) ⟨trivial, 0, hstep.symm⟩, ?_, ?_,
    ?_, ?_⟩
  · rw [hfinds.timerList, hempty]
  · rw [hfinds.timerTicks, hinvoked.timerTicks, htick, hback, sub_self]
  · intro p hp
    rw [hfinds.live, hinvoked.live p hp]
    exact hlive p hp
  · rw [Timers.findNext, Timers.firstLater, hempty]
    exact List.mem_append_right _ (List.mem_singleton_self _)

theorem timerReachable_idleGone :
    ∃ start σ, timersInit blankMemory = .ok start ∧
      Reachable TimerMove start σ ∧ idleTimer ∉ σ.timerList ∧ σ.timerList = [] ∧
      .headRead ∈ σ.history := by
  obtain ⟨σ, hreach, hempty, -, -, hread⟩ := reachable_idleGone blankMemory
  refine ⟨_, σ, timersInit_eq _, hreach, ?_, hempty, hread⟩
  rw [hempty]
  exact List.not_mem_nil

end Nxos.Time
