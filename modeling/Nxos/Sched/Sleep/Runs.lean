import Nxos.Sched.Sleep.Steps

/-!
# Every sleep ends

In every run in which each sleep is armed, a thread that `NX_ThreadSleep` blocked has a timer
on the list that waits for its timeout.  `NX_ThreadSleep` does not look at what
`NX_TimerStart` answers, and blocks the thread after the timer was started: a thread whose
timer is refused, or fires in between, is blocked without one.
-/

namespace Nxos.Sched

open Nxos.Time Nxos.Transition

variable {cores bootCore : ℕ} {s s' : SleepState}

/-! ## Boot -/

theorem sleepInv_booted {σ : Scheduler} (hσ : SchedInv cores σ) (mem : ℕ → Timer SleepHandler) :
    SleepInv cores (booted σ (timersStarted mem)) := by
  refine ⟨⟨hσ, timerInv_started mem, ?_⟩, fun t p err h => by cases h⟩
  have houtside : ∀ {t p}, ((booted σ (timersStarted mem)).threads.point t).timer ≠ some p :=
    fun h => by cases h
  refine ⟨fun t p h => absurd h houtside, fun p t hlive hsleeper => ?_,
    fun t p h => absurd h houtside, fun t h => absurd rfl h,
    fun t p err h => absurd h.timer houtside⟩
  · have hidle : p = idleTimer := by
      by_contra hne
      replace hlive : Function.update (fun _ => false) idleTimer true p = true := hlive
      rw [Function.update_of_ne hne] at hlive
      cases hlive
    replace hsleeper : sleeper (Function.update mem idleTimer startedIdleTimer p) = some t :=
      hsleeper
    rw [hidle, Function.update_self] at hsleeper
    cases hsleeper

/-! ## Every run -/

def ArmedMove (cores bootCore : ℕ) (s : SleepState) (op : SleepOp) (s' : SleepState) : Prop :=
  SleepMove cores bootCore s op s' ∧ op.Arms s

theorem SleepInv.of_reachable {start : SleepState} (hstart : SleepInv cores start)
    (hreach : Reachable (ArmedMove cores bootCore) start s) : SleepInv cores s := by
  refine hreach.invariant hstart fun hinv hmove => ?_
  obtain ⟨⟨hallowed, beyond, hstep⟩, harms⟩ := hmove
  obtain ⟨s', hrun, hs'⟩ := hinv.step hallowed harms beyond
  obtain rfl := Except.ok.inj (hrun.symm.trans hstep)
  exact hs'

instance decidableSleepAllowed (cores bootCore : ℕ) (s : SleepState) (op : SleepOp) :
    Decidable (op.Allowed cores bootCore s) :=
  match op with
  | .sched op => inferInstanceAs (Decidable (op.Allowed cores s.threads.sched ∧
      ∀ c ∈ op.core, ¬s.Disabled c))
  | .timer op => inferInstanceAs (Decidable (op.Allowed s.timers ∧
      (∀ k ∈ op.handler, k.sleeper = none) ∧
        ∃ p ∈ op.address, s.timers.live p = true → sleeper (s.timers.timer p) = none))
  | .tick => inferInstanceAs (Decidable ¬s.Disabled bootCore)
  | .sleep coreId _ p => inferInstanceAs (Decidable ((∃ cur,
      s.threads.sched.Runs cores coreId cur ∧ ¬s.threads.sched.IsIdle cores cur ∧
        s.threads.point cur = .outside) ∧ p ≠ 0 ∧ p ≠ idleTimer ∧ s.timers.live p = false))
  | .sleepBlock coreId => inferInstanceAs (Decidable (∃ cur,
      s.threads.sched.Runs cores coreId cur ∧ ¬s.threads.sched.IsIdle cores cur ∧
        (s.threads.point cur).IsStarted))
  | .sleepReturn coreId => inferInstanceAs (Decidable (∃ cur,
      s.threads.sched.Runs cores coreId cur ∧ (s.threads.point cur).IsWoken))

instance decidableSleepArms (s : SleepState) (op : SleepOp) : Decidable (op.Arms s) :=
  match op with
  | .sched _ => .isTrue trivial
  | .timer _ => .isTrue trivial
  | .tick => inferInstanceAs (Decidable (∀ p ∈ s.timers.timerList,
      (s.timers.timer p).timeout ≤ s.timers.timerTicks + 1 →
        ∀ t ∈ sleeper (s.timers.timer p), ¬(s.threads.point t).IsStarted))
  | .sleep coreId microseconds _ => inferInstanceAs (Decidable
      (threadSleepTimeoutThreshold < microseconds →
        (∃ t ∈ (s.threads.sched.cpuArray coreId).threadRunning,
          (s.threads.sched.thread t).isTerminated = false) →
        ¬idleTimerTimeoutTicks - millisecondToTicks microseconds < s.timers.timerTicks))
  | .sleepBlock _ => .isTrue trivial
  | .sleepReturn _ => .isTrue trivial

def allowedSleepStep (keeps : SleepState → SleepOp → Prop) [∀ s op, Decidable (keeps s op)]
    (cores bootCore : ℕ) (s : SleepState) (op : SleepOp) : Option SleepState :=
  if op.Allowed cores bootCore s ∧ keeps s op then (sleepStep cores s 0 op).toOption else none

theorem sleepMove_of_allowedSleepStep {keeps : SleepState → SleepOp → Prop}
    [∀ s op, Decidable (keeps s op)] {op : SleepOp}
    (h : allowedSleepStep keeps cores bootCore s op = some s') :
    SleepMove cores bootCore s op s' ∧ keeps s op := by
  unfold allowedSleepStep at h
  split at h
  · next hallowed => exact ⟨⟨hallowed.1, 0, toOption_eq_some h⟩, hallowed.2⟩
  · cases h

def blankTimers (_ : ℕ) : Timer SleepHandler := ⟨.inited, 0, 0, 0, .client (.other 0 false)⟩

/-- Perform steps after the boot, where the idle threads lie at `1`, `2`, and so on. -/
def performSleeps (keeps : SleepState → SleepOp → Prop) [∀ s op, Decidable (keeps s op)]
    (cores : ℕ) (ops : List SleepOp) : Option SleepState :=
  (threadInitIdle cores (· + 1) cores).toOption.bind fun σ =>
    perform (allowedSleepStep keeps cores 0) (booted σ (timersStarted blankTimers)) ops

theorem reachable_of_performSleeps {keeps : SleepState → SleepOp → Prop}
    [∀ s op, Decidable (keeps s op)] {ops : List SleepOp}
    (h : performSleeps keeps cores ops = some s) :
    ∃ sched, threadInitIdle cores (· + 1) cores = .ok sched ∧
      Reachable (fun s op s' => SleepMove cores 0 s op s' ∧ keeps s op)
        (booted sched (timersStarted blankTimers)) s := by
  obtain ⟨sched, hboot, hperform⟩ := Option.bind_eq_some_iff.mp h
  refine ⟨sched, toOption_eq_some hboot, ?_⟩
  apply Reachable.of_perform _ hperform
  exact sleepMove_of_allowedSleepStep

def sleeperRuns (coreId : ℕ) : List SleepOp :=
  [.sched (.toFirst coreId), .sched (.create 5 3), .sched (.start 5), .sched (.yield coreId)]

def sleepingRun : List SleepOp :=
  sleeperRuns 0 ++ [.sleep 0 10 50, .sleepBlock 0, .tick, .sched (.yield 0), .sleepReturn 0,
    .sleep 0 100 50, .sleepBlock 0]

def refusedRun : List SleepOp :=
  sleeperRuns 0 ++ [.tick, .sleep 0 maxTimerTimeout 50, .sleepBlock 0]

/-- A sleep of less than a tick on the second core, with a tick on the boot core before the
thread is blocked. -/
def overtakenSleepRun : List SleepOp :=
  [.sched (.toFirst 0), .sched .enterCore] ++ sleeperRuns 1 ++ [.sleep 1 3 50, .tick, .sleepBlock 1]

end Nxos.Sched
