import Nxos.Sched.Sleep.Links
import Nxos.Time.Timer.Punctual

/-!
# The steps of sleeping threads

Every step that arms each sleep keeps the invariant of the scheduler, the one of the timers,
and the links between the two.  At a tick the loop over the timers carries it, from one
handler to the next.
-/

namespace Nxos.Sched

open Nxos.Time

variable {cores bootCore c t p : ℕ} {s s' : SleepState} {w w' : SleepThreads}

/-! ## The invariant -/

structure SleepCore (cores : ℕ) (s : SleepState) : Prop where
  sched : SchedInv cores s.threads.sched
  timers : TimerInv s.timers
  links : SleepLinks s.threads s.timers

structure SleepInv (cores : ℕ) (s : SleepState) : Prop extends SleepCore cores s where
  asleep : s.threads.Asleep

theorem SleepInv.allArmed (h : SleepInv cores s) : s.AllArmed := by
  intro t p err hasleep _
  obtain ⟨herr, hlisted⟩ := h.links.armed t p err (.inr hasleep)
  exact ⟨herr, ((h.timers.waiting p).mp hlisted).2, hlisted⟩

namespace SleepCore

theorem setSched (h : SleepCore cores s) {σ : Scheduler} (hσ : SchedInv cores σ) :
    SleepCore cores (s.setSched σ) :=
  ⟨hσ, h.timers, h.links.of_points (fun _ => rfl) (fun _ _ _ => id) rfl⟩

theorem wake (h : SleepCore cores s) : SleepInv cores { s with threads := s.threads.wake } :=
  ⟨⟨h.sched, h.timers, h.links.wake⟩, asleep_wake s.threads⟩

/-! ## The end of a sleep -/

theorem leave (h : SleepCore cores s) (t : ℕ) (beyond : ClockTick) :
    SleepCore cores (s.leave t beyond) := by
  rw [SleepState.leave]
  cases hpoint : (s.threads.point t).timer with
  | none =>
      have hnull : s.threads.sleepTimer t = 0 := by
        by_contra hne
        have htimer := h.links.pointed t hne
        rw [hpoint] at htimer
        cases htimer
      simp only [if_pos hnull]
      refine ⟨h.sched, h.timers, h.links.of_points (fun u => ?_) (fun u p err hu => ?_) ?_⟩
      · by_cases hut : u = t
        · subst hut
          simp only [Function.update_self, hpoint]
          rfl
        · simp only [Function.update_of_ne hut]
      · by_cases hut : u = t
        · subst hut
          simp only [Function.update_self] at hu
          rcases hu with hu | hu <;> cases hu
        · simp only [Function.update_of_ne hut] at hu
          exact hu
      · simp only
        exact Function.update_eq_self_iff.mpr hnull.symm
  | some p =>
      obtain ⟨hp, hlive, -⟩ := h.links.owned t p hpoint
      -- stopped or fired before, the timer is off the list when its memory goes
      have hstopped : ∃ τ, (if s.threads.sleepTimer t = 0 then s.timers
          else (timerStop s.timers (s.threads.sleepTimer t) beyond).2) = τ ∧ TimerInv τ ∧
          Elsewhere s.timers τ p ∧ p ∉ τ.timerList := by
        by_cases hnull : s.threads.sleepTimer t = 0
        · rw [if_pos hnull]
          refine ⟨_, rfl, h.timers, .refl _ p, fun hlisted => hp ?_⟩
          exact (h.links.pending t p hpoint hlisted).symm.trans hnull
        · have hself : s.threads.sleepTimer t = p :=
            Option.some.inj ((h.links.pointed t hnull).symm.trans hpoint)
          rw [if_neg hnull, hself]
          exact ⟨_, rfl, h.timers.stop (.inr hlive) beyond,
            .stop beyond fun _ => h.timers.settled p hlive,
            timerStop_not_listed h.timers hp beyond⟩
      obtain ⟨τ, hτ, hinv, helse, hlisted⟩ := hstopped
      simp only [hτ]
      exact ⟨h.sched, hinv.memFree hlisted, h.links.forget (helse.trans (.memFree τ p)) hpoint
        (Function.update_self ..) rfl rfl⟩

theorem exit (h : SleepCore cores s) (hrun : s.threads.sched.Runs cores c t)
    (ht : ¬s.threads.sched.IsIdle cores t) (beyond : ClockTick) :
    ∃ s', s.exit cores c t beyond = .ok s' ∧ SleepCore cores s' := by
  obtain ⟨σ, hexit, hσ, -⟩ := h.sched.exit hrun ht
  refine ⟨(s.leave t beyond).setSched σ, ?_, (h.leave t beyond).setSched hσ⟩
  rw [SleepState.exit, hexit]
  rfl

/-! ## Calls of others -/

theorem schedCall (h : SleepCore cores s) {op : SchedOp}
    (hallowed : op.Allowed cores s.threads.sched) (beyond : ClockTick) :
    ∃ s', schedCall cores s op beyond = .ok s' ∧ SleepCore cores s' := by
  obtain ⟨σ, hstep, hσ⟩ := h.sched.step hallowed
  rw [Sched.schedCall, hstep, exec_ok_bind]
  cases op.exiting s.threads.sched with
  | none => exact ⟨_, rfl, h.setSched hσ⟩
  | some t => exact ⟨_, rfl, (h.leave t beyond).setSched hσ⟩

theorem timerCall (h : SleepCore cores s) {op : TimerOp SleepHandler}
    (hallowed : op.Allowed s.timers) (hhandler : ∀ k ∈ op.handler, k.sleeper = none)
    (haddress : p ∈ op.address)
    (hp : s.timers.live p = true → sleeper (s.timers.timer p) = none) (beyond : ClockTick) :
    SleepCore cores { s with timers := timerStep s.timers beyond op } := by
  obtain ⟨helse, hsame⟩ := timerStep_frame h.timers hallowed haddress beyond
  refine ⟨h.sched, h.timers.step ⟨hallowed, beyond, rfl⟩, h.links.of_elsewhere helse hp ?_⟩
  intro hlive
  rcases hsame hlive with ⟨hbefore, hkept⟩ | hgiven
  · exact (sleeper_of_handler hkept).trans (hp hbefore)
  · obtain ⟨k, hk, hclient⟩ := Option.map_eq_some_iff.mp hgiven.symm
    simp only [sleeper, ← hclient]
    exact hhandler k hk

end SleepCore

/-! ## A tick -/

structure Unblocked (cores : ℕ) (w w' : SleepThreads) (t : ℕ) : Prop where
  sched : SchedInv cores w'.sched
  asleep : w'.Asleep
  sleepTimer : w'.sleepTimer = w.sleepTimer
  timer : ∀ u, (w'.point u).timer = (w.point u).timer
  started : ∀ u p err, w'.point u = .started p err → w.point u = .started p err
  reliesOn : ∀ u p err, (w'.point u).ReliesOn p err → (w.point u).ReliesOn p err
  woken : ∀ p err, w'.point t ≠ .asleep p err

theorem unblocked (hsched : SchedInv cores w.sched) (hasleep : w.Asleep) (t : ℕ) :
    ∃ w', w.unblock cores t = .ok w' ∧ Unblocked cores w w' t := by
  obtain ⟨r, hunblock, hr, -, hblocked, hother⟩ := hsched.unblock t
  refine ⟨{ w with sched := r.2 }.wake, ?_, hr, asleep_wake _, rfl, wake_timer _,
    fun u p err => wake_eq_started, fun u p err => wake_reliesOn, fun p err h => ?_⟩
  · rw [SleepThreads.unblock, hunblock]
    rfl
  · obtain ⟨hpoint, hstate⟩ := wake_eq_asleep h
    have hbefore := hasleep t p err hpoint
    have hthread : r.2.thread = _ := hblocked hbefore
    replace hstate : (r.2.thread t).state = .blocked := hstate
    rw [hthread, Function.update_self] at hstate
    cases hstate

/-- The timers of the threads that have yet to block themselves are later than this tick. -/
def Later (w : SleepThreads) (σ : Timers SleepHandler) : Prop :=
  ∀ t p err, w.point t = .started p err → σ.timerTicks < (σ.timer p).timeout

structure TickInv (cores : ℕ) (w : SleepThreads) (σ : Timers SleepHandler) : Prop where
  sched : SchedInv cores w.sched
  links : SleepLinks w σ
  asleep : w.Asleep
  later : Later w σ

theorem Later.invoke {σ τ : Timers SleepHandler} {again : Bool} (hlater : Later w σ)
    (hinv : TimerInv σ) (hlinks : SleepLinks w σ) (hp : p ∈ σ.timerList)
    (hdue : ¬σ.timerTicks < (σ.timer p).timeout) (hinvoked : Invocation σ τ p again)
    (hstarted : ∀ u q err, w'.point u = .started q err → w.point u = .started q err) :
    Later w' τ := by
  intro u q err hu
  have hq := hstarted u q err hu
  have hlt := hlater u q err hq
  have hne : q ≠ p := by
    rintro rfl
    exact hdue hlt
  rw [hinvoked.timerTicks, hinvoked.listed q (hlinks.armed u q err (.inl hq)).2 hne,
    setTimeout_timeout]
  have hback := BitVec.le_trans (turnedBack_le hinv hp) (BitVec.not_lt.mp hdue)
  bv_omega

theorem TickInv.invoke {σ : Timers SleepHandler} (h : TickInv cores w σ) (hinv : TimerInv σ)
    (hp : p ∈ σ.timerList) (hdue : ¬σ.timerTicks < (σ.timer p).timeout) (beyond : ClockTick) :
    ∃ w', (timerInvoke (callHandle cores) beyond σ (.ok w) p).2 = .ok w' ∧
      TickInv cores w' (timerInvoke (callHandle cores) beyond σ (.ok w) p).1 := by
  have hinvoked := invocation (callHandle cores) beyond (.ok w) hp
  have hworld := timerInvoke_world (callHandle cores) beyond σ (.ok w) p
  generalize (σ.timer p).answer (fun k => (callHandle cores p k (.ok w)).1) = again at hinvoked
  generalize timerInvoke (callHandle cores) beyond σ (.ok w) p = r at hinvoked hworld
  obtain ⟨τ, world⟩ := r
  replace hinvoked : Invocation σ τ p again := hinvoked
  have helse : Elsewhere σ τ p := .invoke hinvoked
  have hkept : sleeper (τ.timer p) = sleeper (σ.timer p) := sleeper_of_handler hinvoked.handler
  have hlive := ((hinv.waiting p).mp hp).1
  cases hhandler : (σ.timer p).handler with
  | idleTimerHandler =>
      rw [hhandler] at hworld
      have hnone : sleeper (σ.timer p) = none := by simp only [sleeper, hhandler]
      exact ⟨w, hworld, h.sched,
        h.links.of_elsewhere helse (fun _ => hnone) (fun _ => hkept.trans hnone), h.asleep,
        h.later.invoke hinv h.links hp hdue hinvoked fun _ _ _ => id⟩
  | client k =>
      rw [hhandler] at hworld
      cases k with
      | other t again =>
          have hnone : sleeper (σ.timer p) = none := by
            simp only [sleeper, hhandler, SleepHandler.sleeper]
          obtain ⟨w', hunblock, hw'⟩ := unblocked h.sched h.asleep t
          refine ⟨w', hworld.trans hunblock, hw'.sched, ?_, hw'.asleep,
            h.later.invoke hinv h.links hp hdue hinvoked hw'.started⟩
          exact (h.links.of_points hw'.timer hw'.reliesOn hw'.sleepTimer).of_elsewhere helse
            (fun _ => hnone) (fun _ => hkept.trans hnone)
      | threadSleepTimeout t =>
          have hsome : sleeper (σ.timer p) = some t := by
            simp only [sleeper, hhandler, SleepHandler.sleeper]
          have ht := h.links.owner p t hlive hsome
          obtain ⟨-, -, -, hflags⟩ := h.links.owned t p ht
          obtain ⟨w', hunblock, hw'⟩ := unblocked (t := t)
            (w := { w with sleepTimer := Function.update w.sleepTimer t 0 }) h.sched h.asleep
          have hrearms : ¬(σ.timer p).Rearms again := by
            rintro ⟨-, hperiod⟩
            rw [Timer.IsPeriod, hflags] at hperiod
            exact hperiod (by decide)
          have hgone : p ∉ τ.timerList := by
            rw [(hinvoked.removed hrearms).1]
            exact fun hmem => (hinv.nodup.mem_erase_iff.mp hmem).1 rfl
          have hrelies : ∀ u q err, (w'.point u).ReliesOn q err →
              u ≠ t ∧ (w.point u).ReliesOn q err := by
            intro u q err hu
            have hbefore : (w.point u).ReliesOn q err := hw'.reliesOn u q err hu
            refine ⟨?_, hbefore⟩
            rintro rfl
            rcases hu with hu | hu
            · have hstarted : w.point u = .started q err := hw'.started u q err hu
              have hself : q = p := Option.some.inj (hbefore.timer.symm.trans ht)
              exact hdue (hself ▸ h.later u q err hstarted)
            · exact hw'.woken q err hu
          refine ⟨w', hworld.trans hunblock, hw'.sched, ?_, hw'.asleep,
            h.later.invoke hinv h.links hp hdue hinvoked hw'.started⟩
          exact h.links.fire helse ht (hinvoked.liveSelf (by rw [hflags]; decide))
            hinvoked.handler hinvoked.flags hgone hw'.timer hrelies hw'.sleepTimer

theorem SleepInv.tick (h : SleepInv cores s) (harms : SleepOp.tick.Arms s) (beyond : ClockTick) :
    ∃ s', timerIrqHandler cores s beyond = .ok s' ∧ SleepCore cores s' := by
  have hlater : Later s.threads s.timers.ticked := by
    intro t p err hstarted
    obtain ⟨-, -, hsleeper, -⟩ := h.links.owned t p (by rw [hstarted]; rfl)
    obtain ⟨-, hlisted⟩ := h.links.armed t p err (.inl hstarted)
    refine BitVec.not_le.mp fun hdue => harms p hlisted hdue t hsleeper ?_
    rw [hstarted]
    trivial
  have hfind : ∀ {τ : Timers SleepHandler} {w : SleepThreads}, TickInv cores w τ →
      TickInv cores w (τ.findNext beyond) := by
    intro τ w hτ
    have hfinds := findsNext τ beyond
    refine ⟨hτ.sched, hτ.links.of_same hfinds.timer hfinds.live hfinds.timerList, hτ.asleep, ?_⟩
    intro t p err hstarted
    rw [hfinds.timerTicks, hfinds.timer]
    exact hτ.later t p err hstarted
  have hrun := h.timers.go_run (P := fun τ world => ∃ w, world = .ok w ∧ TickInv cores w τ)
    (callHandle cores) beyond (w := .ok s.threads)
    ⟨_, rfl, h.sched, h.links.of_same rfl rfl rfl, h.asleep, hlater⟩
    (fun hinv hp hP hdue => by
      obtain ⟨w, rfl, hw⟩ := hP
      exact hw.invoke hinv hp hdue beyond)
    (fun hP => by
      obtain ⟨w, rfl, hw⟩ := hP
      exact ⟨w, rfl, hfind hw⟩)
  obtain ⟨w, hworld, hw⟩ := hrun
  refine ⟨⟨w, (timerGo (callHandle cores) beyond s.timers (.ok s.threads)).1⟩, ?_, hw.sched,
    h.timers.go (callHandle cores) beyond (.ok s.threads), hw.links⟩
  rw [timerIrqHandler]
  simp only [hworld]
  rfl

/-! ## `NX_ThreadSleep` -/

theorem SleepCore.startSleep (h : SleepCore cores s) {self : ℕ} {microseconds : BitVec 64}
    (hself : s.threads.point self = .outside) (hnull : p ≠ 0) (hfree : s.timers.live p = false)
    (hzero : microseconds ≠ 0)
    (hcheck : ¬idleTimerTimeoutTicks - millisecondToTicks microseconds < s.timers.timerTicks) :
    ∃ inited started,
      timerInit s.timers p microseconds (some (.client (.threadSleepTimeout self)))
        timerOneshot = (.eok, inited) ∧
      timerStart inited p = (.eok, started) ∧
      SleepCore cores ((SleepState.mk { s.threads with
        sleepTimer := Function.update s.threads.sleepTimer self p } started).setPoint self
          (.started p .eok)) := by
  have hunlisted := h.timers.not_listed hfree
  have hinit := timerInit_oneshot s.timers hnull hzero
    (.client (.threadSleepTimeout self) : TimerHandler SleepHandler)
  have hinited := h.timers.init hunlisted microseconds (some (.threadSleepTimeout self))
    timerOneshot
  have helse := Elsewhere.init s.timers p microseconds
    (some (.client (.threadSleepTimeout self))) timerOneshot
  rw [Option.map_some, hinit] at hinited
  rw [hinit] at helse
  generalize hσ : { s.timers.write p (initedTimer microseconds
    (.client (.threadSleepTimeout self)) timerOneshot) with
      live := Function.update s.timers.live p true } = inited at hinit hinited helse
  replace hinited : TimerInv inited := hinited
  replace helse : Elsewhere s.timers inited p := helse
  have htimer : inited.timer p = initedTimer microseconds (.client (.threadSleepTimeout self))
      timerOneshot := by
    rw [← hσ]
    exact write_timer_self ..
  have hlive : inited.live p = true := by
    rw [← hσ]
    exact Function.update_self ..
  have hlist : inited.timerList = s.timers.timerList := by
    rw [← hσ]
    rfl
  have hticks : inited.timerTicks = s.timers.timerTicks := by
    rw [← hσ]
    rfl
  have hchecked : ¬idleTimerTimeoutTicks - (inited.timer p).timeTicks < inited.timerTicks := by
    rw [htimer, hticks]
    exact hcheck
  have heok := timerStart_eok hnull (hlist ▸ hunlisted) hchecked
  have hstarted := hinited.start (.inr hlive)
  have helse' := helse.trans (Elsewhere.start inited p)
  have houtcome := startOutcome inited p
  generalize hrun : timerStart inited p = r at heok hstarted helse' houtcome
  cases houtcome with
  | null hzero => exact absurd hzero hnull
  | refused err hnull herr => exact absurd heok herr
  | accepted τ _ _ _ hinserted =>
      have hself' : τ.timer p = inited.armed p :=
        (congrFun hinserted.timer p).trans (write_timer_self ..)
      refine ⟨inited, _, hinit, hrun, h.sched, hstarted,
        h.links.enter helse' hnull hfree ?_ ?_ ?_ ?_ hself rfl rfl⟩
      · exact (congrFun hinserted.live p).trans hlive
      · show sleeper (τ.timer p) = some self
        rw [hself', Timers.armed, htimer]
        rfl
      · show (τ.timer p).flags = timerOneshot
        rw [hself', Timers.armed, htimer]
        rfl
      · exact hinserted.perm.mem_iff.mpr (List.mem_cons_self ..)

theorem SleepCore.threadSleep (h : SleepCore cores s) {microseconds : BitVec 64} {self : ℕ}
    (hrun : s.threads.sched.Runs cores c self) (hidle : ¬s.threads.sched.IsIdle cores self)
    (houtside : s.threads.point self = .outside) (hnull : p ≠ 0)
    (hfree : s.timers.live p = false) (harms : (SleepOp.sleep c microseconds p).Arms s)
    (beyond : ClockTick) :
    ∃ r, threadSleep cores s c microseconds p beyond = .ok r ∧ SleepCore cores r.2 := by
  rw [Sched.threadSleep]
  by_cases hzero : microseconds = 0
  · rw [if_pos hzero]
    exact ⟨_, rfl, h⟩
  · rw [if_neg hzero]
    by_cases hshort : microseconds ≤ threadSleepTimeoutThreshold
    · rw [if_pos hshort]
      exact ⟨_, rfl, h⟩
    · rw [if_neg hshort, SchedInv.threadSelf_eq hrun, exec_ok_bind]
      cases hterminated : (s.threads.sched.thread self).isTerminated with
      | true =>
          obtain ⟨s', hexit, hs'⟩ := h.exit hrun hidle beyond
          refine ⟨(none, s'), ?_, hs'⟩
          rw [if_pos rfl, hexit]
          rfl
      | false =>
          have hcheck := harms (BitVec.not_le.mp hshort) ⟨self, hrun.2, hterminated⟩
          obtain ⟨inited, started, hinit, hstart, hs'⟩ :=
            h.startSleep houtside hnull hfree hzero hcheck
          refine ⟨(none, _), ?_, hs'⟩
          rw [if_neg Bool.false_ne_true, hinit]
          simp only [ne_eq, not_true_eq_false, if_false, hstart]
          rfl

theorem SleepCore.threadSleepBlock (h : SleepCore cores s) {self : ℕ}
    (hrun : s.threads.sched.Runs cores c self) (hidle : ¬s.threads.sched.IsIdle cores self)
    (hstarted : (s.threads.point self).IsStarted) :
    ∃ s', threadSleepBlock cores s c = .ok s' ∧ SleepCore cores s' := by
  rw [Sched.threadSleepBlock, SchedInv.threadSelf_eq hrun, exec_ok_bind]
  cases hpoint : s.threads.point self with
  | outside =>
      rw [hpoint] at hstarted
      cases hstarted
  | asleep q err =>
      rw [hpoint] at hstarted
      cases hstarted
  | woken q =>
      rw [hpoint] at hstarted
      cases hstarted
  | started q err =>
      obtain ⟨σ, hblock, hσ, -⟩ := h.sched.blockSelf hidle hrun
      refine ⟨(s.setSched σ).setPoint self (.asleep q err), ?_, hσ, h.timers,
        h.links.of_points (fun u => ?_) (fun u r err' hu => ?_) rfl⟩
      · simp only [hblock, exec_ok_bind]
        rfl
      · by_cases hu : u = self
        · subst hu
          simp only [SleepState.setPoint, Function.update_self, hpoint]
          rfl
        · simp only [SleepState.setPoint, SleepState.setSched, Function.update_of_ne hu]
      · by_cases huself : u = self
        · subst huself
          simp only [SleepState.setPoint, Function.update_self] at hu
          rcases hu with hu | hu
          · cases hu
          · cases hu
            exact .inl hpoint
        · simp only [SleepState.setPoint, SleepState.setSched,
            Function.update_of_ne huself] at hu
          exact hu

theorem SleepCore.threadSleepReturn (h : SleepCore cores s) {self : ℕ}
    (hrun : s.threads.sched.Runs cores c self) (beyond : ClockTick) :
    ∃ r, threadSleepReturn cores s c beyond = .ok r ∧ SleepCore cores r.2 := by
  rw [Sched.threadSleepReturn, SchedInv.threadSelf_eq hrun, exec_ok_bind]
  cases hterminated : (s.threads.sched.thread self).isTerminated with
  | true =>
      obtain ⟨s', hexit, hs'⟩ :=
        h.exit hrun (h.sched.not_idle_of_terminated hterminated) beyond
      refine ⟨(none, s'), ?_, hs'⟩
      rw [if_pos rfl, hexit]
      rfl
  | false =>
      rw [if_neg Bool.false_ne_true]
      exact ⟨_, rfl, h.leave self beyond⟩

/-! ## One step -/

theorem SleepInv.step (h : SleepInv cores s) {op : SleepOp}
    (hallowed : op.Allowed cores bootCore s) (harms : op.Arms s) (beyond : ClockTick) :
    ∃ s', sleepStep cores s beyond op = .ok s' ∧ SleepInv cores s' := by
  have hwake : ∀ {x : Exec SleepState}, (∃ s', x = .ok s' ∧ SleepCore cores s') →
      ∃ s', (x >>= fun s => pure { s with threads := s.threads.wake } : Exec SleepState) =
        .ok s' ∧ SleepInv cores s' := by
    rintro _ ⟨s', rfl, hs'⟩
    exact ⟨_, rfl, hs'.wake⟩
  have hmap : ∀ {x : Exec (Option NxError × SleepState)},
      (∃ r, x = .ok r ∧ SleepCore cores r.2) →
      ∃ s', x.map (·.2) = .ok s' ∧ SleepCore cores s' := by
    rintro _ ⟨r, rfl, hr⟩
    exact ⟨_, rfl, hr⟩
  have hcore := h.toSleepCore
  cases op with
  | sched op => exact hwake (hcore.schedCall hallowed.1 beyond)
  | timer op =>
      obtain ⟨hop, hhandler, p, haddress, hp⟩ := hallowed
      exact ⟨_, rfl, (hcore.timerCall hop hhandler haddress hp beyond).wake⟩
  | tick => exact hwake (h.tick harms beyond)
  | sleep coreId microseconds p =>
      obtain ⟨⟨self, hrun, hidle, houtside⟩, hnull, -, hfree⟩ := hallowed
      exact hwake (hmap (hcore.threadSleep hrun hidle houtside hnull hfree harms beyond))
  | sleepBlock coreId =>
      obtain ⟨self, hrun, hidle, hstarted⟩ := hallowed
      exact hwake (hcore.threadSleepBlock hrun hidle hstarted)
  | sleepReturn coreId =>
      obtain ⟨self, hrun, -⟩ := hallowed
      exact hwake (hmap (hcore.threadSleepReturn hrun beyond))

end Nxos.Sched
