import Nxos.Sched.Semaphore.Counting

/-!
# Exits and waits

The embedding of `NX_ThreadWait` and `NX_ProcessWait`, and of what `NX_ThreadExit` does for
the waiters: `ThreadExitNotify`, `NX_ThreadExitProcess` and `ProcessExitNotify`.  A thread
and a process are named by their addresses, the null pointer is `0`.  `ThreadInit` and
`NX_ProcessCreateObject` initialise `waiterSem` to `0`, and memory looks as they leave it.

The walk over the waiters is one step, and so are the sections of the semaphore and the read
of the delivered code.
-/

namespace Nxos.Sched

open Nxos.Transition

/-! ## Data -/

/-- A thread or a process whose exit is waited for, which stands for its `waiterSem`. -/
inductive Waited where
  | thread (t : ℕ)
  | process (p : ℕ)
  deriving DecidableEq, Repr

/-- What the exits read and write of `NX_ThreadResource`. -/
structure ThreadResource where
  exitCode : BitVec 32
  waitExitCode : BitVec 32
  process : ℕ

/-- What the exits read and write of `NX_Process`. -/
structure ProcessObject where
  exitCode : BitVec 32
  waitExitCode : BitVec 32
  threadCount : ℤ

/-- Where a thread is in `NX_ThreadExit`. -/
inductive ExitPoint where
  | alive
  /-- Before `ThreadExitNotify`. -/
  | begun
  /-- In `ThreadExitNotify`, before the signal. -/
  | copied
  /-- Before `NX_ThreadExitProcess`. -/
  | notified
  /-- In `NX_ThreadExitProcess`, before the test of `threadCount`. -/
  | deleted (p : ℕ)
  /-- Before `ProcessExitNotify`. -/
  | last (p : ℕ)
  /-- In `ProcessExitNotify`, before the signal. -/
  | lastCopied (p : ℕ)
  /-- Before the thread leaves the scheduler. -/
  | released
  deriving DecidableEq, Repr

/-- The kernel with its threads and processes.  `reading` is set for a thread that returned
from `NX_SemaphoreWait` and did not read the exit code yet. -/
structure ExitState where
  kernel : Kernel Waited
  resource : ℕ → ThreadResource
  process : ℕ → ProcessObject
  reading : ℕ → Option Waited
  exitPoint : ℕ → ExitPoint

namespace ExitState

def withKernel (x : ExitState) (k : Kernel Waited) : ExitState := { x with kernel := k }

def setResource (x : ExitState) (t : ℕ) (resource : ThreadResource) : ExitState :=
  { x with resource := Function.update x.resource t resource }

def setProcess (x : ExitState) (p : ℕ) (process : ProcessObject) : ExitState :=
  { x with process := Function.update x.process p process }

def setReading (x : ExitState) (t : ℕ) (reading : Option Waited) : ExitState :=
  { x with reading := Function.update x.reading t reading }

/-- The thread goes on in `NX_ThreadExit`. -/
def setExitPoint (x : ExitState) (t : ℕ) (point : ExitPoint) : ExitState :=
  { x with exitPoint := Function.update x.exitPoint t point }

def exitCode (x : ExitState) : Waited → BitVec 32
  | .thread t => (x.resource t).exitCode
  | .process p => (x.process p).exitCode

end ExitState

section Functions

variable (cores : ℕ)

/-! ## Processes -/

/-- `NX_ProcessAppendThread`. -/
def processAppendThread (x : ExitState) (p t : ℕ) : ExitState :=
  (x.setProcess p { x.process p with threadCount := (x.process p).threadCount + 1 }).setResource
    t { x.resource t with process := p }

/-- `NX_ProcessDeleteThread`. -/
def processDeleteThread (x : ExitState) (p t : ℕ) : ExitState :=
  (x.setProcess p { x.process p with threadCount := (x.process p).threadCount - 1 }).setResource
    t { x.resource t with process := 0 }

/-- `NX_ProcessExit`, up to the exit of the thread.  The other threads of the process exit in
their own steps. -/
def processExit (x : ExitState) (coreId : ℕ) (exitCode : BitVec 32) : Exec ExitState := do
  let cur ← threadSelf cores x.kernel.sched coreId
  let p := (x.resource cur).process
  nxAssert (p ≠ 0)
  return x.setProcess p { x.process p with exitCode := exitCode }

/-! ## Waits -/

/-- `NX_SemaphoreWait` of a waiter, up to its loop.  The error code is dropped. -/
def waiterEnter (x : ExitState) (coreId self : ℕ) (w : Waited) : Exec ExitState := do
  let (err, k) ← semaphoreWait cores x.kernel coreId (some w)
  match err with
  | none => return x.withKernel k
  | some _ => return (x.withKernel k).setReading self (some w)

/-- `NX_ThreadWait`, up to the loop of `NX_SemaphoreWait`. -/
def threadWait (x : ExitState) (coreId t : ℕ) : Exec (Option NxError × ExitState) :=
  if t = 0 then return (some .enosrch, x)
  else do
    let self ← threadSelf cores x.kernel.sched coreId
    if t = self then return (some .einval, x)
    else do
      let x ← waiterEnter cores x coreId self (.thread t)
      return (none, x)

/-- `NX_ProcessWait`, up to the loop of `NX_SemaphoreWait`. -/
def processWait (x : ExitState) (coreId p : ℕ) : Exec (Option NxError × ExitState) :=
  if p = 0 then return (some .enosrch, x)
  else do
    let self ← threadSelf cores x.kernel.sched coreId
    if (x.resource self).process = p then return (some .einval, x)
    else do
      let x ← waiterEnter cores x coreId self (.process p)
      return (none, x)

/-- The waiter goes on in `NX_SemaphoreWait`. -/
def waiterGoOn (x : ExitState) (coreId : ℕ) : Exec ExitState := do
  let self ← threadSelf cores x.kernel.sched coreId
  let (err, k) ← semaphoreGoOn cores x.kernel coreId
  match err with
  | none => return x.withKernel k
  | some _ => return (x.withKernel k).setReading self (x.kernel.point self).waitsFor

/-- The end of `NX_ThreadWait` and of `NX_ProcessWait`: the code that they deliver. -/
def waiterRead (x : ExitState) (coreId : ℕ) :
    Exec (Option (ℕ × Waited × BitVec 32) × ExitState) := do
  let self ← threadSelf cores x.kernel.sched coreId
  match x.reading self with
  | none => return (none, x)
  | some (.thread t) =>
      return (some (self, .thread t, (x.resource self).waitExitCode), x.setReading self none)
  | some (.process p) =>
      let q := (x.resource self).process
      if q = 0 then .error .nullDeref
      else return (some (self, .process p, (x.process q).waitExitCode), x.setReading self none)

/-! ## Exits -/

/-- `NX_ThreadExit`, up to the release of the resources. -/
def threadExitBegin (x : ExitState) (coreId : ℕ) (exitCode : BitVec 32) : Exec ExitState := do
  let cur ← threadSelf cores x.kernel.sched coreId
  return (x.setResource cur { x.resource cur with exitCode := exitCode }).setExitPoint cur .begun

/-- The walk of `ThreadExitNotify` over the waiters. -/
def threadExitNotifyCopy (x : ExitState) (t : ℕ) : ExitState :=
  (x.kernel.semaphore (.thread t)).semWaitList.foldl (fun x waiterThread =>
    x.setResource waiterThread
      { x.resource waiterThread with waitExitCode := (x.resource t).exitCode }) x

/-- The walk of `ProcessExitNotify` over the waiters. -/
def processExitNotifyCopy (x : ExitState) (p : ℕ) : Exec ExitState :=
  (x.kernel.semaphore (.process p)).semWaitList.foldlM (fun x waiterThread => do
    let q := (x.resource waiterThread).process
    nxAssert (q ≠ 0)
    return x.setProcess q { x.process q with waitExitCode := (x.process p).exitCode }) x

/-- The running thread goes on in `NX_ThreadExit`. -/
def threadExitGoOn (x : ExitState) (coreId : ℕ) : Exec ExitState := do
  let cur ← threadSelf cores x.kernel.sched coreId
  match x.exitPoint cur with
  | .alive => return x
  | .begun => return (threadExitNotifyCopy x cur).setExitPoint cur .copied
  | .copied => do
      let (_, k) ← semaphoreSignalAll cores x.kernel (some (.thread cur))
      return (x.withKernel k).setExitPoint cur .notified
  | .notified =>
      let p := (x.resource cur).process
      if p = 0 then return x.setExitPoint cur .released
      else return (processDeleteThread x p cur).setExitPoint cur (.deleted p)
  | .deleted p =>
      if (x.process p).threadCount = 0 then
        return (x.setResource cur { x.resource cur with process := p }).setExitPoint cur (.last p)
      else return x.setExitPoint cur .released
  | .last p => do
      let x ← processExitNotifyCopy x p
      return x.setExitPoint cur (.lastCopied p)
  | .lastCopied p => do
      let (_, k) ← semaphoreSignalAll cores x.kernel (some (.process p))
      return (x.withKernel k).setExitPoint cur .released
  | .released => do
      let σ ← threadExit cores x.kernel.sched coreId
      return x.withKernel { x.kernel with sched := σ }

end Functions

/-! ## Steps -/

inductive ExitOp where
  | sched (op : SchedOp)
  | append (p t : ℕ)
  | threadWait (coreId t : ℕ)
  | processWait (coreId p : ℕ)
  | goOn (coreId : ℕ)
  | read (coreId : ℕ)
  | processExit (coreId : ℕ) (exitCode : BitVec 32)
  | exit (coreId : ℕ) (exitCode : BitVec 32)
  | exitGoOn (coreId : ℕ)

/-- A wait that returned `NX_EOK`: the waiter, what it waited for, and the code. -/
abbrev Delivered := ℕ × Waited × BitVec 32

def exitStep (cores : ℕ) (x : ExitState) : ExitOp → Exec (Option Delivered × ExitState)
  | .sched op => do
      let σ ← schedStep cores x.kernel.sched op
      return (none, x.withKernel { x.kernel with sched := σ })
  | .append p t => .ok (none, processAppendThread x p t)
  | .threadWait coreId t => do
      let (_, x) ← threadWait cores x coreId t
      return (none, x)
  | .processWait coreId p => do
      let (_, x) ← processWait cores x coreId p
      return (none, x)
  | .goOn coreId => do
      let x ← waiterGoOn cores x coreId
      return (none, x)
  | .read coreId => waiterRead cores x coreId
  | .processExit coreId exitCode => do
      let x ← processExit cores x coreId exitCode
      return (none, x)
  | .exit coreId exitCode => do
      let x ← threadExitBegin cores x coreId exitCode
      return (none, x)
  | .exitGoOn coreId => do
      let x ← threadExitGoOn cores x coreId
      return (none, x)

end Nxos.Sched
