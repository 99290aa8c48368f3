import Nxos.Sched.Runs
import Nxos.Time.Timer.Frame

/-!
# Sleep

The embedding of `NX_ThreadSleep`, over the scheduler and the timers.  The timer of a sleep
lies on the stack of the sleeping thread, at an address that the thread chooses.

A thread runs `NX_ThreadSleep` with interrupts off until it is blocked.  What lies before
`NX_TimerStart` returns is one step, and the blocking is another one.  `NX_TimerGo` holds
`timersLock` and is one step.
-/

namespace Nxos.Sched

open Nxos.Time

/-! ## Data -/

/-- The handlers of the clients of the timers. -/
inductive SleepHandler where
  /-- `TimerThreadSleepTimeout`, with the sleeping thread. -/
  | threadSleepTimeout (t : ℕ)
  /-- A handler that unblocks a thread, or none at the null pointer. -/
  | other (t : ℕ) (again : Bool)
  deriving DecidableEq

def SleepHandler.sleeper : SleepHandler → Option ℕ
  | .threadSleepTimeout t => some t
  | .other _ _ => none

def sleeper (timer : Timer SleepHandler) : Option ℕ :=
  match timer.handler with
  | .idleTimerHandler => none
  | .client k => k.sleeper

/-- Where a thread is in `NX_ThreadSleep`, with its timer. -/
inductive SleepPoint where
  | outside
  /-- `NX_TimerStart` answered. -/
  | started (timer : ℕ) (err : NxError)
  /-- It blocked itself and was not unblocked since. -/
  | asleep (timer : ℕ) (err : NxError)
  /-- It was unblocked. -/
  | woken (timer : ℕ)
  deriving DecidableEq

/-- The timer on the stack of the thread. -/
def SleepPoint.timer : SleepPoint → Option ℕ
  | .outside => none
  | .started p _ => some p
  | .asleep p _ => some p
  | .woken p => some p

/-- Between `NX_TimerStart` and the blocking. -/
def SleepPoint.IsStarted : SleepPoint → Prop
  | .started .. => True
  | _ => False

instance (point : SleepPoint) : Decidable point.IsStarted :=
  match point with
  | .outside => .isFalse id
  | .started .. => .isTrue trivial
  | .asleep .. => .isFalse id
  | .woken _ => .isFalse id

def SleepPoint.IsWoken : SleepPoint → Prop
  | .woken _ => True
  | _ => False

instance (point : SleepPoint) : Decidable point.IsWoken :=
  match point with
  | .outside => .isFalse id
  | .started .. => .isFalse id
  | .asleep .. => .isFalse id
  | .woken _ => .isTrue trivial

/-- The scheduler, with `resource.sleepTimer` of each thread. -/
structure SleepThreads where
  sched : Scheduler
  sleepTimer : ℕ → ℕ
  point : ℕ → SleepPoint

structure SleepState where
  threads : SleepThreads
  timers : Timers SleepHandler

def booted (σ : Scheduler) (timers : Timers SleepHandler) : SleepState where
  threads := { sched := σ, sleepTimer := fun _ => 0, point := fun _ => .outside }
  timers := timers

def SleepState.setSched (s : SleepState) (σ : Scheduler) : SleepState :=
  { s with threads := { s.threads with sched := σ } }

def SleepState.setPoint (s : SleepState) (t : ℕ) (point : SleepPoint) : SleepState :=
  { s with threads := { s.threads with point := Function.update s.threads.point t point } }

def SleepThreads.wake (w : SleepThreads) : SleepThreads :=
  { w with
    point := fun t =>
      match w.point t with
      | .asleep p err => if (w.sched.thread t).state = .blocked then .asleep p err else .woken p
      | point => point }

section Functions

variable (cores : ℕ)

/-! ## Handlers -/

/-- `NX_ThreadUnblock`. -/
def SleepThreads.unblock (w : SleepThreads) (t : ℕ) : Exec SleepThreads := do
  let (_, σ) ← threadUnblock cores w.sched t
  return { w with sched := σ }.wake

/-- `TimerThreadSleepTimeout`. -/
def SleepThreads.timerThreadSleepTimeout (w : SleepThreads) (t : ℕ) : Exec SleepThreads :=
  { w with sleepTimer := Function.update w.sleepTimer t 0 }.unblock cores t

def handle (w : SleepThreads) : SleepHandler → Exec SleepThreads
  | .threadSleepTimeout t => w.timerThreadSleepTimeout cores t
  | .other t _ => w.unblock cores t

/-- What a handler answers. -/
def SleepHandler.again : SleepHandler → Bool
  | .threadSleepTimeout _ => true
  | .other _ again => again

/-- The call of a handler by `NX_TimerInvoke`. -/
def callHandle (_ : ℕ) (k : SleepHandler) (w : Exec SleepThreads) : Bool × Exec SleepThreads :=
  (k.again, w >>= fun w => handle cores w k)

/-- `NX_TimerIrqHandler`: a tick. -/
def timerIrqHandler (s : SleepState) (beyond : ClockTick) : Exec SleepState :=
  let r := timerGo (callHandle cores) beyond s.timers (.ok s.threads)
  r.2.map fun w => ⟨w, r.1⟩

/-! ## `NX_ThreadSleep` -/

/-- The timer of the sleep is stopped, when its handler was not called.  Then the thread
leaves the stack frame in which the timer lies. -/
def SleepState.leave (s : SleepState) (t : ℕ) (beyond : ClockTick) : SleepState :=
  let timers :=
    if s.threads.sleepTimer t = 0 then s.timers
    else (timerStop s.timers (s.threads.sleepTimer t) beyond).2
  { threads :=
      { s.threads with
        sleepTimer := Function.update s.threads.sleepTimer t 0
        point := Function.update s.threads.point t .outside }
    timers :=
      match (s.threads.point t).timer with
      | none => timers
      | some p => timers.memFree p }

/-- `NX_ThreadExit` of the thread that the core runs, which releases the timer of a sleep. -/
def SleepState.exit (s : SleepState) (coreId self : ℕ) (beyond : ClockTick) :
    Exec SleepState := do
  let σ ← threadExit cores s.threads.sched coreId
  return (s.leave self beyond).setSched σ

/-- `THREAD_SLEEP_TIMEOUT_THRESHOLD` -/
def threadSleepTimeoutThreshold : BitVec 64 := 2

/-- `NX_ThreadSleep`, up to the blocking, where the timer lies at `p`.  What
`NX_TimerStart` answers is not looked at. -/
def threadSleep (s : SleepState) (coreId : ℕ) (microseconds : BitVec 64) (p : ℕ)
    (beyond : ClockTick) : Exec (Option NxError × SleepState) :=
  if microseconds = 0 then return (some .einval, s)
  else if microseconds ≤ threadSleepTimeoutThreshold then return (some .eok, s)
  else do
    let self ← threadSelf cores s.threads.sched coreId
    if (s.threads.sched.thread self).isTerminated then
      let s ← s.exit cores coreId self beyond
      return (none, s)
    else
      let (err, timers) := timerInit s.timers p microseconds
        (some (.client (.threadSleepTimeout self))) timerOneshot
      if err ≠ .eok then return (some err, { s with timers := timers })
      else
        let (err, timers) := timerStart timers p
        let threads :=
          { s.threads with sleepTimer := Function.update s.threads.sleepTimer self p }
        return (none, (SleepState.mk threads timers).setPoint self (.started p err))

/-- `NX_ThreadSleep`, the blocking. -/
def threadSleepBlock (s : SleepState) (coreId : ℕ) : Exec SleepState := do
  let self ← threadSelf cores s.threads.sched coreId
  match s.threads.point self with
  | .started p err =>
      let (_, σ) ← threadBlock cores s.threads.sched coreId self
      return (s.setSched σ).setPoint self (.asleep p err)
  | _ => return s

/-- `NX_ThreadSleep`, after the blocking.  A terminated thread exits. -/
def threadSleepReturn (s : SleepState) (coreId : ℕ) (beyond : ClockTick) :
    Exec (Option NxError × SleepState) := do
  let self ← threadSelf cores s.threads.sched coreId
  if (s.threads.sched.thread self).isTerminated then
    let s ← s.exit cores coreId self beyond
    return (none, s)
  else
    let err := if s.threads.sleepTimer self = 0 then .eok else .eintr
    return (some err, s.leave self beyond)

/-! ## Steps -/

def SchedOp.core : SchedOp → Option ℕ
  | .toFirst coreId => some coreId
  | .yield coreId => some coreId
  | .reSched coreId => some coreId
  | .irq coreId => some coreId
  | .block coreId _ => some coreId
  | .exit coreId => some coreId
  | .create _ _ => none
  | .setAffinity _ _ => none
  | .start _ => none
  | .enterCore => none
  | .unblock _ => none
  | .terminate _ => none

/-- The thread that calls `NX_ThreadExit` in a call of the scheduler. -/
def SchedOp.exiting (σ : Scheduler) : SchedOp → Option ℕ
  | .exit coreId => (σ.cpuArray coreId).threadRunning
  | .reSched coreId => (σ.cpuArray coreId).threadRunning.filter fun t => (σ.thread t).isTerminated
  | .irq coreId => (σ.cpuArray coreId).threadRunning.filter fun t => (σ.thread t).isTerminated
  | _ => none

/-- A call of the scheduler, a call of a client of the timers, a tick, or a part of
`NX_ThreadSleep`. -/
inductive SleepOp where
  | sched (op : SchedOp)
  | timer (op : TimerOp SleepHandler)
  | tick
  | sleep (coreId : ℕ) (microseconds : BitVec 64) (p : ℕ)
  | sleepBlock (coreId : ℕ)
  | sleepReturn (coreId : ℕ)

/-- A call of the scheduler.  A thread that exits releases the timer of its sleep. -/
def schedCall (s : SleepState) (op : SchedOp) (beyond : ClockTick) : Exec SleepState := do
  let σ ← schedStep cores s.threads.sched op
  match op.exiting s.threads.sched with
  | none => return s.setSched σ
  | some t => return (s.leave t beyond).setSched σ

def sleepStep (s : SleepState) (beyond : ClockTick) (op : SleepOp) : Exec SleepState := do
  let s ←
    match op with
    | .sched op => schedCall cores s op beyond
    | .timer op => pure { s with timers := timerStep s.timers beyond op }
    | .tick => timerIrqHandler cores s beyond
    | .sleep coreId microseconds p =>
        (threadSleep cores s coreId microseconds p beyond).map (·.2)
    | .sleepBlock coreId => threadSleepBlock cores s coreId
    | .sleepReturn coreId => (threadSleepReturn cores s coreId beyond).map (·.2)
  return { s with threads := s.threads.wake }

/-- The core runs a thread that turned its interrupts off in `NX_ThreadSleep`. -/
def SleepState.Disabled (s : SleepState) (coreId : ℕ) : Prop :=
  ∃ t ∈ (s.threads.sched.cpuArray coreId).threadRunning, (s.threads.point t).IsStarted

instance (s : SleepState) (coreId : ℕ) : Decidable (s.Disabled coreId) :=
  inferInstanceAs (Decidable (∃ t ∈ _, _))

/-- What the callers promise.  A core that turned its interrupts off does nothing else, the
timers of the sleeps are private to `thread.c`, an idle thread does not sleep, and no timer
that is in use lies where the timer of a new sleep does. -/
def SleepOp.Allowed (bootCore : ℕ) (s : SleepState) : SleepOp → Prop
  | .sched op => op.Allowed cores s.threads.sched ∧ ∀ c ∈ op.core, ¬s.Disabled c
  | .timer op => op.Allowed s.timers ∧ (∀ k ∈ op.handler, k.sleeper = none) ∧
      ∃ p ∈ op.address, s.timers.live p = true → sleeper (s.timers.timer p) = none
  | .tick => ¬s.Disabled bootCore
  | .sleep coreId _ p => (∃ cur, s.threads.sched.Runs cores coreId cur ∧
      ¬s.threads.sched.IsIdle cores cur ∧ s.threads.point cur = .outside) ∧
        p ≠ 0 ∧ p ≠ idleTimer ∧ s.timers.live p = false
  | .sleepBlock coreId => ∃ cur, s.threads.sched.Runs cores coreId cur ∧
      ¬s.threads.sched.IsIdle cores cur ∧ (s.threads.point cur).IsStarted
  | .sleepReturn coreId => ∃ cur, s.threads.sched.Runs cores coreId cur ∧
      (s.threads.point cur).IsWoken

def SleepMove (bootCore : ℕ) (s : SleepState) (op : SleepOp) (s' : SleepState) : Prop :=
  op.Allowed cores bootCore s ∧ ∃ beyond, sleepStep cores s beyond op = .ok s'

/-- The step arms each sleep: `NX_TimerStart` accepts the timer of a thread that goes to
sleep, and no timer of a thread that has yet to block itself times out at a tick. -/
def SleepOp.Arms (s : SleepState) : SleepOp → Prop
  | .sleep coreId microseconds _ => threadSleepTimeoutThreshold < microseconds →
      (∃ t ∈ (s.threads.sched.cpuArray coreId).threadRunning,
        (s.threads.sched.thread t).isTerminated = false) →
      ¬idleTimerTimeoutTicks - millisecondToTicks microseconds < s.timers.timerTicks
  | .tick => ∀ p ∈ s.timers.timerList, (s.timers.timer p).timeout ≤ s.timers.timerTicks + 1 →
      ∀ t ∈ sleeper (s.timers.timer p), ¬(s.threads.point t).IsStarted
  | _ => True

/-- Each thread that `NX_ThreadSleep` blocked started its timer, and the timer waits on the
list. -/
def SleepState.AllArmed (s : SleepState) : Prop :=
  ∀ t p err, s.threads.point t = .asleep p err → (s.threads.sched.thread t).state = .blocked →
    err = .eok ∧ (s.timers.timer p).state = .waiting ∧ p ∈ s.timers.timerList

end Functions

end Nxos.Sched
