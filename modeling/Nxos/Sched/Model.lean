import Mathlib.Logic.Function.Basic
import Nxos.Base.Kernel

/-!
# The scheduler

The embedding of `sched/smp.c`, `sched/sched.c` and the scheduling part of
`sched/thread.c`.  A thread is named by its address, the null pointer is `0`, and
`cores` is `NX_MULTI_CORES_NR`.  Memory in which no thread was created yet looks like a
thread in the state `NX_THREAD_INIT`.

A function that reschedules ends in the state in which the next thread runs on its core.
-/

namespace Nxos.Sched

/-! ## Data -/

/-- `NX_THREAD_PRIORITY_IDLE` -/
def threadPriorityIdle : BitVec 32 := 0

/-- `NX_THREAD_PRIORITY_LOW` -/
def threadPriorityLow : BitVec 32 := 1

/-- `NX_THREAD_PRIORITY_HIGH` -/
def threadPriorityHigh : BitVec 32 := 6

/-- `NX_THREAD_MAX_PRIORITY_NR` -/
def threadMaxPriorityNr : ℕ := 16

/-- `enum NX_ThreadState`. -/
inductive ThreadState where
  | init
  | ready
  | running
  | blocked
  | exit
  deriving DecidableEq, Repr

/-- `NX_SCHED_HEAD` and `NX_SCHED_TAIL`. -/
inductive SchedFlag where
  | head
  | tail
  deriving DecidableEq, Repr

/-- What the scheduler reads and writes of `NX_Thread`. -/
structure Thread where
  state : ThreadState
  timeslice : BitVec 32
  ticks : BitVec 32
  fixedPriority : BitVec 32
  priority : BitVec 32
  needSched : Bool
  isTerminated : Bool
  onCore : ℕ
  coreAffinity : ℕ
  deriving DecidableEq

/-- `thread->state = state` -/
def Thread.setState (th : Thread) (state : ThreadState) : Thread := { th with state := state }

/-- `thread->onCore = onCore` -/
def Thread.setOnCore (th : Thread) (onCore : ℕ) : Thread := { th with onCore := onCore }

/-- `NX_Cpu`, without the bookkeeping of the idle time. -/
structure Cpu where
  threadReadyList : ℕ → List ℕ
  threadRunning : Option ℕ
  idleThread : Option ℕ
  threadCount : ℤ

/-- `NX_ThreadManager`. -/
structure ThreadManager where
  globalList : List ℕ
  exitList : List ℕ
  pendingList : List ℕ
  activeThreadCount : ℤ
  pendingThreadCount : ℤ

/-- The threads, `cpuArray`, `gThreadManagerObject` and `gActivedCoreCount`. -/
structure Scheduler where
  thread : ℕ → Thread
  cpuArray : ℕ → Cpu
  manager : ThreadManager
  activedCoreCount : ℤ

def Scheduler.write (σ : Scheduler) (t : ℕ) (th : Thread) : Scheduler :=
  { σ with thread := Function.update σ.thread t th }

def Scheduler.setCpu (σ : Scheduler) (coreId : ℕ) (cpu : Cpu) : Scheduler :=
  { σ with cpuArray := Function.update σ.cpuArray coreId cpu }

/-- `NX_ListAdd` and `NX_ListAddTail`. -/
def addToList (flags : SchedFlag) (t : ℕ) (list : List ℕ) : List ℕ :=
  match flags with
  | .head => t :: list
  | .tail => list ++ [t]

/-- The node `list` of the thread is linked. -/
def Scheduler.Linked (cores : ℕ) (σ : Scheduler) (t : ℕ) : Prop :=
  (∃ c < cores, ∃ p < threadMaxPriorityNr, t ∈ (σ.cpuArray c).threadReadyList p) ∨
    t ∈ σ.manager.pendingList

instance (cores : ℕ) (σ : Scheduler) (t : ℕ) : Decidable (σ.Linked cores t) :=
  inferInstanceAs (Decidable (_ ∨ _))

/-- Take the node `list` of the thread out of the list that it is on. -/
def Scheduler.unlink (σ : Scheduler) (t : ℕ) : Scheduler :=
  { σ with
    cpuArray := fun c =>
      { σ.cpuArray c with
        threadReadyList := fun p => ((σ.cpuArray c).threadReadyList p).erase t }
    manager := { σ.manager with pendingList := σ.manager.pendingList.erase t } }

section Functions

variable (cores : ℕ)

/-- `NX_ListDel` of the node `list`.  A node that was taken out before holds null
pointers. -/
def listDel (σ : Scheduler) (t : ℕ) : Exec Scheduler :=
  if σ.Linked cores t then .ok (σ.unlink t) else .error .nullDeref

/-! ## The ready lists of a core -/

/-- `NX_CpuGetIndex`. -/
def cpuGetIndex (σ : Scheduler) (coreId : ℕ) : Exec Cpu := do
  nxAssert (coreId < cores)
  return σ.cpuArray coreId

/-- `NX_SMP_EnqueueThreadIrqDisabled`. -/
def smpEnqueueThread (σ : Scheduler) (coreId t : ℕ) (flags : SchedFlag) : Exec Scheduler := do
  let prio := (σ.thread t).priority.toNat
  nxAssert (prio < threadMaxPriorityNr)
  let cpu ← cpuGetIndex cores σ coreId
  return σ.setCpu coreId
    { cpu with
      threadReadyList := Function.update cpu.threadReadyList prio
        (addToList flags t (cpu.threadReadyList prio))
      threadCount := cpu.threadCount + 1 }

/-- `NX_AtomicDec(&cpu->threadCount)` -/
def Scheduler.decThreadCount (σ : Scheduler) (coreId : ℕ) : Scheduler :=
  σ.setCpu coreId
    { σ.cpuArray coreId with threadCount := (σ.cpuArray coreId).threadCount - 1 }

/-- `NX_SMP_DequeueThreadIrqDisabled`. -/
def smpDequeueThread (σ : Scheduler) (coreId t : ℕ) : Exec Scheduler := do
  nxAssert ((σ.thread t).priority.toNat < threadMaxPriorityNr)
  let _ ← cpuGetIndex cores σ coreId
  let σ ← listDel cores σ t
  return σ.decThreadCount coreId

/-- `NX_ThreadLowerPriority`: time-sharing threads go down by one, and from the lowest
priority back to the fixed one. -/
def threadLowerPriority (th : Thread) : Thread :=
  if threadPriorityLow ≤ th.fixedPriority ∧ th.fixedPriority ≤ threadPriorityHigh then
    let priority := th.priority - 1
    if priority < threadPriorityLow then { th with priority := th.fixedPriority }
    else { th with priority := priority }
  else th

/-- The loop over the ready lists of a core from the highest priority below `prio` down,
up to the first list in which a thread is found. -/
def findDown (find : ℕ → Option ℕ) : ℕ → Option ℕ
  | 0 => none
  | prio + 1 =>
      match find prio with
      | some t => some t
      | none => findDown find prio

/-- `NX_SMP_PickThreadIrqDisabled`. -/
def smpPickThread (σ : Scheduler) (coreId : ℕ) : Exec (ℕ × Scheduler) := do
  let cpu ← cpuGetIndex cores σ coreId
  match findDown (fun prio => (cpu.threadReadyList prio).head?) threadMaxPriorityNr with
  | none => .error .assertion
  | some t =>
      let σ ← listDel cores σ t
      let σ := σ.write t (threadLowerPriority (σ.thread t))
      return (t, σ.decThreadCount coreId)

/-- `NX_SMP_DeququeNoAffinityThread`. -/
def smpDeququeNoAffinityThread (σ : Scheduler) (coreId : ℕ) : Exec (Option ℕ × Scheduler) := do
  let cpu ← cpuGetIndex cores σ coreId
  let noAffinity := fun t => decide (cores ≤ (σ.thread t).coreAffinity)
  match findDown (fun prio => (cpu.threadReadyList prio).find? noAffinity)
    threadMaxPriorityNr with
  | none => return (none, σ)
  | some t =>
      let σ ← listDel cores σ t
      return (some t, σ.decThreadCount coreId)

/-- `NX_SMP_SetRunning`. -/
def smpSetRunning (σ : Scheduler) (coreId t : ℕ) : NxError × Scheduler :=
  if cores ≤ coreId ∨ t = 0 then (.einval, σ)
  else
    let σ := σ.write t ((σ.thread t).setState .running)
    (.eok, σ.setCpu coreId { σ.cpuArray coreId with threadRunning := some t })

/-- `NX_SMP_SetIdle`. -/
def smpSetIdle (σ : Scheduler) (coreId t : ℕ) : NxError × Scheduler :=
  if cores ≤ coreId ∨ t = 0 then (.einval, σ)
  else (.eok, σ.setCpu coreId { σ.cpuArray coreId with idleThread := some t })

/-- `NX_ThreadSelf`. -/
def threadSelf (σ : Scheduler) (coreId : ℕ) : Exec ℕ := do
  let cpu ← cpuGetIndex cores σ coreId
  match cpu.threadRunning with
  | none => .error .assertion
  | some cur => return cur

/-! ## The pending list -/

/-- `NX_ThreadAddToGlobalPendingList`. -/
def threadAddToGlobalPendingList (σ : Scheduler) (t : ℕ) (flags : SchedFlag) : Scheduler :=
  { σ with
    manager :=
      { σ.manager with
        pendingList := addToList flags t σ.manager.pendingList
        pendingThreadCount := σ.manager.pendingThreadCount + 1 } }

/-- `NX_AtomicDec(&gThreadManagerObject.pendingThreadCount)` -/
def Scheduler.decPendingThreadCount (σ : Scheduler) : Scheduler :=
  { σ with
    manager := { σ.manager with pendingThreadCount := σ.manager.pendingThreadCount - 1 } }

/-- `NX_ThreadDelFromGlobalPendingList`. -/
def threadDelFromGlobalPendingList (σ : Scheduler) (t : ℕ) : Exec Scheduler := do
  let σ ← listDel cores σ t
  return σ.decPendingThreadCount

/-- `NX_ThreadPickPendingList`. -/
def threadPickPendingList (σ : Scheduler) : Exec (Option ℕ × Scheduler) :=
  match σ.manager.pendingList.head? with
  | none => return (none, σ)
  | some t => do
      let σ ← listDel cores σ t
      return (some t, σ.decPendingThreadCount)

/-! ## Ready and not ready -/

/-- `NX_ThreadReadyRunLocked`, which `NX_ThreadReadyRunUnlocked` calls under the lock of
the manager. -/
def threadReadyRun (σ : Scheduler) (t : ℕ) (flags : SchedFlag) : Exec Scheduler :=
  let σ := σ.write t ((σ.thread t).setState .ready)
  if (σ.thread t).onCore < cores then smpEnqueueThread cores σ (σ.thread t).onCore t flags
  else .ok (threadAddToGlobalPendingList σ t flags)

/-- `NX_ThreadUnreadyRun`. -/
def threadUnreadyRun (σ : Scheduler) (t : ℕ) : Exec Scheduler := do
  nxAssert ((σ.thread t).state ≠ .ready)
  if (σ.thread t).onCore < cores then smpDequeueThread cores σ (σ.thread t).onCore t
  else threadDelFromGlobalPendingList cores σ t

/-! ## Scheduling -/

/-- A signed number that is converted to `NX_UArch`. -/
def toUArch (n : ℤ) : ℕ := (n % 2 ^ 64).toNat

/-- `PullOrPushThread`, when fewer threads are ready on the core than it should have. -/
def pullThread (σ : Scheduler) (coreId : ℕ) : Exec Scheduler := do
  let (pulled, σ) ← threadPickPendingList cores σ
  match pulled with
  | none => return σ
  | some t =>
      threadReadyRun cores (σ.write t ((σ.thread t).setOnCore coreId)) t .head

/-- `PullOrPushThread`, when more threads are ready on the core than it should have. -/
def pushThread (σ : Scheduler) (coreId : ℕ) : Exec Scheduler := do
  let (pushed, σ) ← smpDeququeNoAffinityThread cores σ coreId
  match pushed with
  | none => return σ
  | some t =>
      return threadAddToGlobalPendingList (σ.write t ((σ.thread t).setOnCore cores)) t .head

/-- `PullOrPushThread`.  The core should have its share of the active threads and one
more. -/
def pullOrPushThread (σ : Scheduler) (coreId : ℕ) : Exec Scheduler := do
  let cpu ← cpuGetIndex cores σ coreId
  if σ.activedCoreCount = 0 then .error .divideByZero
  else
    let coreThreadCount := toUArch cpu.threadCount
    let threadsPerCore :=
      toUArch (σ.manager.activeThreadCount.tdiv σ.activedCoreCount + 1)
    if coreThreadCount < threadsPerCore then pullThread cores σ coreId
    else if threadsPerCore < coreThreadCount then pushThread cores σ coreId
    else return σ

/-- `NX_SchedLockedIRQ`: the next thread of the core runs. -/
def schedLockedIRQ (σ : Scheduler) (coreId : ℕ) : Exec Scheduler := do
  let _ ← threadSelf cores σ coreId
  let σ ← pullOrPushThread cores σ coreId
  let (next, σ) ← smpPickThread cores σ coreId
  return (smpSetRunning cores σ coreId next).2

/-- `NX_SchedToFirstThread`. -/
def schedToFirstThread (σ : Scheduler) (coreId : ℕ) : Exec Scheduler := do
  let (thread, σ) ← smpPickThread cores σ coreId
  let (err, σ) := smpSetRunning cores σ coreId thread
  nxAssert (err = .eok)
  return σ

/-- `NX_SchedYield`. -/
def schedYield (σ : Scheduler) (coreId : ℕ) : Exec Scheduler := do
  let cur ← threadSelf cores σ coreId
  let σ ← threadReadyRun cores σ cur .tail
  schedLockedIRQ cores σ coreId

/-- `NX_ThreadEnququeExitList`. -/
def threadEnququeExitList (σ : Scheduler) (t : ℕ) : Exec Scheduler := do
  nxAssert (t ∉ σ.manager.exitList)
  return { σ with manager := { σ.manager with exitList := t :: σ.manager.exitList } }

/-- `NX_SchedExit`. -/
def schedExit (σ : Scheduler) (coreId : ℕ) : Exec Scheduler := do
  let cur ← threadSelf cores σ coreId
  let σ := σ.write cur ((σ.thread cur).setState .exit)
  let σ ← threadEnququeExitList σ cur
  schedLockedIRQ cores σ coreId

/-- `NX_ThreadDeququeGlobalListUnlocked`. -/
def threadDeququeGlobalList (σ : Scheduler) (t : ℕ) : Exec Scheduler :=
  if t ∈ σ.manager.globalList then
    .ok { σ with
      manager :=
        { σ.manager with
          globalList := σ.manager.globalList.erase t
          activeThreadCount := σ.manager.activeThreadCount - 1 } }
  else .error .nullDeref

/-- `NX_ThreadExit`, after the resources of the thread were released. -/
def threadExit (σ : Scheduler) (coreId : ℕ) : Exec Scheduler := do
  let cur ← threadSelf cores σ coreId
  let σ ← threadDeququeGlobalList σ cur
  schedExit cores σ coreId

/-- `NX_ReSchedCheck`. -/
def reSchedCheck (σ : Scheduler) (coreId : ℕ) : Exec Scheduler := do
  let cur ← threadSelf cores σ coreId
  let th := σ.thread cur
  if th.isTerminated then
    threadExit cores (σ.write cur { th with isTerminated := false }) coreId
  else if th.needSched then
    let σ := σ.write cur { th with needSched := false, ticks := th.timeslice }
    let σ ← threadReadyRun cores σ cur .tail
    schedLockedIRQ cores σ coreId
  else return σ

/-- `NX_SchedIrqHandler`, the part of the clock interrupt that counts the time slice. -/
def schedIrqHandler (σ : Scheduler) (coreId : ℕ) : Exec Scheduler := do
  let cur ← threadSelf cores σ coreId
  let th := σ.thread cur
  if th.isTerminated then threadExit cores σ coreId
  else
    let ticks := th.ticks - 1
    return σ.write cur
      { th with ticks := ticks, needSched := if ticks = 0 then true else th.needSched }

/-! ## Threads -/

/-- `ThreadInit`, as far as scheduling goes. -/
def threadInit (priority : BitVec 32) : Thread where
  state := .init
  timeslice := 3
  ticks := 3
  fixedPriority := priority
  priority := priority
  needSched := false
  isTerminated := false
  onCore := cores
  coreAffinity := cores

/-- `NX_ThreadCreate`, where `NX_MemAlloc` returns `t` for the thread. -/
def threadCreate (σ : Scheduler) (t : ℕ) (priority : BitVec 32) : ℕ × Scheduler :=
  if threadMaxPriorityNr ≤ priority.toNat then (0, σ)
  else if t = 0 then (0, σ)
  else (t, σ.write t (threadInit cores priority))

/-- `NX_ThreadSetAffinity`. -/
def threadSetAffinity (σ : Scheduler) (t coreId : ℕ) : NxError × Scheduler :=
  if t = 0 ∨ cores ≤ coreId then (.einval, σ)
  else (.eok, σ.write t { σ.thread t with coreAffinity := coreId, onCore := coreId })

/-- `NX_ThreadEnququeGlobalListUnlocked`. -/
def threadEnququeGlobalList (σ : Scheduler) (t : ℕ) : Scheduler :=
  { σ with
    manager :=
      { σ.manager with
        globalList := t :: σ.manager.globalList
        activeThreadCount := σ.manager.activeThreadCount + 1 } }

/-- `NX_ThreadStart`. -/
def threadStart (σ : Scheduler) (t : ℕ) : Exec (NxError × Scheduler) :=
  if t = 0 then return (.einval, σ)
  else do
    let σ ← threadReadyRun cores (threadEnququeGlobalList σ t) t .tail
    return (.eok, σ)

/-- `NX_ThreadBlockLockedIRQ`, as called on a core, up to the schedule.  The thread that
blocked itself checks whether it was terminated when it runs again. -/
def threadBlock (σ : Scheduler) (coreId t : ℕ) : Exec (NxError × Scheduler) :=
  if t = 0 then return (.einval, σ)
  else
    let blocked := σ.write t ((σ.thread t).setState .blocked)
    match (σ.thread t).state with
    | .ready => do
        let σ ← threadUnreadyRun cores blocked t
        return (.eok, σ)
    | .running => do
        let σ ← schedLockedIRQ cores blocked coreId
        return (.eok, σ)
    | .init => return (.eok, σ)
    | .blocked => return (.eok, σ)
    | .exit => return (.eok, σ)

/-- `NX_ThreadUnblock`. -/
def threadUnblock (σ : Scheduler) (t : ℕ) : Exec (NxError × Scheduler) :=
  if t = 0 then return (.einval, σ)
  else if (σ.thread t).state = .blocked then do
    let σ ← threadReadyRun cores σ t .head
    return (.eok, σ)
  else return (.ebusy, σ)

/-- `NX_ThreadTerminate`. -/
def threadTerminate (σ : Scheduler) (t : ℕ) : Exec (NxError × Scheduler) :=
  if t = 0 then return (.einval, σ)
  else if (σ.thread t).state = .init ∨ (σ.thread t).state = .exit then return (.eperm, σ)
  else do
    let (_, σ) ← threadUnblock cores (σ.write t { σ.thread t with isTerminated := true }) t
    return (.eok, σ)

/-! ## Boot -/

/-- The state after `NX_SMP_Init` and `NX_ThreadManagerInit` on the boot core, which is
active. -/
def schedZero : Scheduler where
  thread := fun _ => threadInit cores threadPriorityIdle
  cpuArray := fun _ =>
    { threadReadyList := fun _ => []
      threadRunning := none
      idleThread := none
      threadCount := 0 }
  manager :=
    { globalList := []
      exitList := []
      pendingList := []
      activeThreadCount := 0
      pendingThreadCount := 0 }
  activedCoreCount := 1

/-- One round of the loop of `NX_ThreadInitIdle`, where `NX_MemAlloc` returns `t`. -/
def threadInitIdleCore (σ : Scheduler) (coreId t : ℕ) : Exec Scheduler := do
  let (idleThread, σ) := threadCreate cores σ t threadPriorityIdle
  nxAssert (idleThread ≠ 0)
  let (err, σ) := threadSetAffinity cores σ idleThread coreId
  nxAssert (err = .eok)
  let (err, σ) ← threadStart cores σ idleThread
  nxAssert (err = .eok)
  return (smpSetIdle cores σ coreId idleThread).2

/-- `NX_ThreadInitIdle`, for the first `n` cores. -/
def threadInitIdle (idle : ℕ → ℕ) : ℕ → Exec Scheduler
  | 0 => .ok (schedZero cores)
  | n + 1 => do
      let σ ← threadInitIdle idle n
      threadInitIdleCore cores σ n (idle n)

end Functions

end Nxos.Sched
