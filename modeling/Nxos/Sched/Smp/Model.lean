import Nxos.Sched.Runs

/-!
# Sections of the scheduler

The functions of `sched/sched.c` again, section by section.  A step of a core is a section
under a lock with the code around it that takes none, or the switch of the context; the
other cores take their steps in between.  A core that schedules has its interrupts off and
does nothing else until it has switched.

Each core also has the thread whose context is in its registers.  It changes when the
context is switched, which is after the next thread was made the running one.
-/

namespace Nxos.Sched

/-! ## Data -/

/-- What a core does next, where `prev` is the thread whose context it saves. -/
inductive CorePoint where
  /-- It runs its thread, or has none yet. -/
  | runs
  /-- `NX_ThreadExit`, off the global list. -/
  | leaving (cur : ℕ)
  /-- The begin of `NX_SchedLockedIRQ`. -/
  | sched
  /-- `NX_ThreadPickPendingList`. -/
  | pull (prev : Option ℕ)
  /-- `NX_ThreadReadyRunLocked` of a pending thread. -/
  | pulled (prev : Option ℕ) (t : ℕ)
  /-- `NX_SMP_DeququeNoAffinityThread`. -/
  | push (prev : Option ℕ)
  /-- `NX_ThreadEnqueuePendingList` of a thread of the core. -/
  | pushed (prev : Option ℕ) (t : ℕ)
  /-- `NX_SMP_PickThreadIrqDisabled`. -/
  | pick (prev : Option ℕ)
  /-- `NX_SMP_SetRunning`. -/
  | picked (prev : Option ℕ) (next : ℕ)
  /-- `SchedFromPrevToNext`, or `SchedToNext` without a previous thread. -/
  | switch (prev : Option ℕ) (next : ℕ)
  deriving DecidableEq

/-- The thread that a core holds between two sections: it is on no list and on no core. -/
def CorePoint.held : CorePoint → Option ℕ
  | .leaving cur => some cur
  | .pulled _ t => some t
  | .pushed _ t => some t
  | .picked _ next => some next
  | _ => none

def CorePoint.next : CorePoint → Option ℕ
  | .picked _ next => some next
  | .switch _ next => some next
  | _ => none

/-- The core has given up its thread, and another one is not running on it yet. -/
def CorePoint.IsOpen : CorePoint → Prop
  | .runs => False
  | .switch _ _ => False
  | _ => True

/-- The core is about to take a thread off its ready lists. -/
def CorePoint.Pushes : CorePoint → Prop
  | .push _ => True
  | _ => False

/-- The scheduler, what each core does next, and the thread whose context is on it. -/
structure SmpState where
  sched : Scheduler
  point : ℕ → CorePoint
  loaded : ℕ → Option ℕ

def SmpState.goto (s : SmpState) (coreId : ℕ) (point : CorePoint) (σ : Scheduler) : SmpState :=
  { s with sched := σ, point := Function.update s.point coreId point }

def smpStart (σ : Scheduler) : SmpState where
  sched := σ
  point := fun _ => .runs
  loaded := fun _ => none

namespace SmpState

variable (cores : ℕ)

/-! ## Entries -/

/-- `NX_SchedYield`. -/
def schedYield (s : SmpState) (coreId : ℕ) : Exec SmpState := do
  let cur ← threadSelf cores s.sched coreId
  let σ ← threadReadyRun cores s.sched cur .tail
  return s.goto coreId .sched σ

/-- `NX_ThreadExit`, the section that takes the thread off the global list. -/
def threadExit (s : SmpState) (coreId : ℕ) : Exec SmpState := do
  let cur ← threadSelf cores s.sched coreId
  let σ ← threadDeququeGlobalList s.sched cur
  return s.goto coreId (.leaving cur) σ

/-- `NX_ReSchedCheck`. -/
def reSchedCheck (s : SmpState) (coreId : ℕ) : Exec SmpState := do
  let cur ← threadSelf cores s.sched coreId
  let th := s.sched.thread cur
  if th.isTerminated then
    let σ := s.sched.write cur { th with isTerminated := false }
    threadExit cores { s with sched := σ } coreId
  else if th.needSched then
    let σ := s.sched.write cur { th with needSched := false, ticks := th.timeslice }
    schedYield cores { s with sched := σ } coreId
  else return s

/-- `NX_SchedIrqHandler`. -/
def schedIrqHandler (s : SmpState) (coreId : ℕ) : Exec SmpState := do
  let cur ← threadSelf cores s.sched coreId
  let th := s.sched.thread cur
  if th.isTerminated then threadExit cores s coreId
  else
    let ticks := th.ticks - 1
    let σ := s.sched.write cur
      { th with ticks := ticks, needSched := if ticks = 0 then true else th.needSched }
    return { s with sched := σ }

/-- `NX_ThreadBlockLockedIRQ`. -/
def threadBlock (s : SmpState) (coreId t : ℕ) : Exec SmpState :=
  if t = 0 then return s
  else
    let blocked := s.sched.write t ((s.sched.thread t).setState .blocked)
    match (s.sched.thread t).state with
    | .ready => do
        let σ ← threadUnreadyRun cores blocked t
        return { s with sched := σ }
    | .running => return s.goto coreId .sched blocked
    | .init => return s
    | .blocked => return s
    | .exit => return s

/-- `NX_SchedToFirstThread`. -/
def schedToFirstThread (s : SmpState) (coreId : ℕ) : Exec SmpState := do
  let (next, σ) ← smpPickThread cores s.sched coreId
  return s.goto coreId (.picked none next) σ

/-! ## Sections -/

/-- `NX_SchedExit`. -/
def schedExit (s : SmpState) (coreId : ℕ) : Exec SmpState := do
  let cur ← threadSelf cores s.sched coreId
  let σ := s.sched.write cur ((s.sched.thread cur).setState .exit)
  let σ ← threadEnququeExitList σ cur
  return s.goto coreId .sched σ

/-- `NX_SchedLockedIRQ` up to the first section, where `PullOrPushThread` compares the
numbers of threads. -/
def schedLockedIRQ (s : SmpState) (coreId : ℕ) : Exec SmpState := do
  let cur ← threadSelf cores s.sched coreId
  let prev := if (s.sched.thread cur).state = .exit then none else some cur
  let cpu ← cpuGetIndex cores s.sched coreId
  if s.sched.activedCoreCount = 0 then .error .divideByZero
  else
    let coreThreadCount := toUArch cpu.threadCount
    let threadsPerCore :=
      toUArch (s.sched.manager.activeThreadCount.tdiv s.sched.activedCoreCount + 1)
    if coreThreadCount < threadsPerCore then return s.goto coreId (.pull prev) s.sched
    else if threadsPerCore < coreThreadCount then return s.goto coreId (.push prev) s.sched
    else return s.goto coreId (.pick prev) s.sched

/-- `PullOrPushThread`, the section that takes a pending thread. -/
def pullThread (s : SmpState) (coreId : ℕ) (prev : Option ℕ) : Exec SmpState := do
  let (pulled, σ) ← threadPickPendingList cores s.sched
  match pulled with
  | none => return s.goto coreId (.pick prev) σ
  | some t =>
      return s.goto coreId (.pulled prev t) (σ.write t ((σ.thread t).setOnCore coreId))

/-- `PullOrPushThread`, the section that takes a thread of the core. -/
def pushThread (s : SmpState) (coreId : ℕ) (prev : Option ℕ) : Exec SmpState := do
  let (pushed, σ) ← smpDeququeNoAffinityThread cores s.sched coreId
  match pushed with
  | none => return s.goto coreId (.pick prev) σ
  | some t => return s.goto coreId (.pushed prev t) σ

/-- The next section of a core, or the switch of the context. -/
def advance (s : SmpState) (coreId : ℕ) : Exec SmpState :=
  match s.point coreId with
  | .runs => return s
  | .leaving _ => s.schedExit cores coreId
  | .sched => s.schedLockedIRQ cores coreId
  | .pull prev => s.pullThread cores coreId prev
  | .pulled prev t => do
      let σ ← threadReadyRun cores s.sched t .head
      return s.goto coreId (.pick prev) σ
  | .push prev => s.pushThread cores coreId prev
  | .pushed prev t =>
      let σ := s.sched.write t ((s.sched.thread t).setOnCore cores)
      return s.goto coreId (.pick prev) (threadAddToGlobalPendingList σ t .head)
  | .pick prev => do
      let (next, σ) ← smpPickThread cores s.sched coreId
      return s.goto coreId (.picked prev next) σ
  | .picked prev next =>
      return s.goto coreId (.switch prev next) (smpSetRunning cores s.sched coreId next).2
  | .switch _ next =>
      return { s.goto coreId .runs s.sched with
        loaded := Function.update s.loaded coreId (some next) }

end SmpState

/-! ## Steps -/

inductive SmpOp where
  | create (t : ℕ) (priority : BitVec 32)
  | setAffinity (t coreId : ℕ)
  | start (t : ℕ)
  | enterCore
  | unblock (t : ℕ)
  | terminate (t : ℕ)
  | toFirst (coreId : ℕ)
  | yield (coreId : ℕ)
  | reSched (coreId : ℕ)
  | irq (coreId : ℕ)
  | block (coreId t : ℕ)
  | exit (coreId : ℕ)
  | advance (coreId : ℕ)

def smpStep (cores : ℕ) (s : SmpState) : SmpOp → Exec SmpState
  | .create t priority => .ok { s with sched := (threadCreate cores s.sched t priority).2 }
  | .setAffinity t coreId => .ok { s with sched := (threadSetAffinity cores s.sched t coreId).2 }
  | .start t => (threadStart cores s.sched t).map fun r => { s with sched := r.2 }
  | .enterCore =>
      .ok { s with sched := { s.sched with activedCoreCount := s.sched.activedCoreCount + 1 } }
  | .unblock t => (threadUnblock cores s.sched t).map fun r => { s with sched := r.2 }
  | .terminate t => (threadTerminate cores s.sched t).map fun r => { s with sched := r.2 }
  | .toFirst coreId => s.schedToFirstThread cores coreId
  | .yield coreId => s.schedYield cores coreId
  | .reSched coreId => s.reSchedCheck cores coreId
  | .irq coreId => s.schedIrqHandler cores coreId
  | .block coreId t => s.threadBlock cores coreId t
  | .exit coreId => s.threadExit cores coreId
  | .advance coreId => s.advance cores coreId

def SmpState.RunsThread (cores : ℕ) (s : SmpState) (coreId t : ℕ) : Prop :=
  s.point coreId = .runs ∧ s.sched.Runs cores coreId t

/-- What the callers promise: a thread is set up and started once, a core that runs no
thread yet is started, and a thread that another core runs is not blocked. -/
def SmpOp.Allowed (cores : ℕ) (s : SmpState) : SmpOp → Prop
  | .create t _ => (s.sched.thread t).state = .init
  | .setAffinity t _ => (s.sched.thread t).state = .init
  | .start t => (s.sched.thread t).state = .init
  | .enterCore => True
  | .unblock _ => True
  | .terminate _ => True
  | .toFirst coreId => s.point coreId = .runs ∧ coreId < cores ∧
      (s.sched.cpuArray coreId).threadRunning = none
  | .yield coreId => ∃ cur, s.RunsThread cores coreId cur
  | .reSched coreId => ∃ cur, s.RunsThread cores coreId cur
  | .irq coreId => ∃ cur, s.RunsThread cores coreId cur
  | .block coreId t => ∃ cur, s.RunsThread cores coreId cur ∧
      (t = cur ∨ (s.sched.thread t).state ≠ .running)
  | .exit coreId => ∃ cur, s.RunsThread cores coreId cur
  | .advance coreId => coreId < cores

def SmpMove (cores : ℕ) (s : SmpState) (op : SmpOp) (s' : SmpState) : Prop :=
  op.Allowed cores s ∧ smpStep cores s op = .ok s'

/-! ## The property -/

/-- No thread is the running one of two cores, and a core is going to run only threads
whose context no other core has yet to save. -/
def SmpState.Exclusive (s : SmpState) : Prop :=
  (∀ c d t, (s.sched.cpuArray c).threadRunning = some t →
    (s.sched.cpuArray d).threadRunning = some t → c = d) ∧
  ∀ c d t, (s.point c).next = some t → s.loaded d = some t → d = c

/-- The thread without affinity that is first on the ready lists of the core. -/
def Scheduler.FirstUnbound (cores : ℕ) (σ : Scheduler) (coreId t : ℕ) : Prop :=
  ∃ prio < threadMaxPriorityNr,
    ((σ.cpuArray coreId).threadReadyList prio).find?
      (fun u => decide (cores ≤ (σ.thread u).coreAffinity)) = some t ∧
    ∀ prio' < threadMaxPriorityNr, prio < prio' →
      ∀ u ∈ (σ.cpuArray coreId).threadReadyList prio', (σ.thread u).coreAffinity < cores

instance (cores : ℕ) (σ : Scheduler) (coreId t : ℕ) : Decidable (σ.FirstUnbound cores coreId t) :=
  inferInstanceAs (Decidable (∃ prio < threadMaxPriorityNr, _))

/-- The step does not push the thread whose context the core has yet to save. -/
def SmpOp.Saves (cores : ℕ) (s : SmpState) : SmpOp → Prop
  | .advance coreId => (s.point coreId).Pushes →
      ∀ t ∈ s.loaded coreId, ¬s.sched.FirstUnbound cores coreId t
  | _ => True

def SavingMove (cores : ℕ) (s : SmpState) (op : SmpOp) (s' : SmpState) : Prop :=
  SmpMove cores s op s' ∧ op.Saves cores s

end Nxos.Sched
