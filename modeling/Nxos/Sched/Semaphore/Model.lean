import Nxos.Sched.Runs

/-!
# Semaphores

The embedding of `sched/semaphore.c`.  A semaphore is named by its address in `ι`, the null
pointer is `none`.  A section under the lock of a semaphore is one step.  A thread in the
loop of `NX_SemaphoreWait` takes the lock in every round, and sleeps between two rounds in
`NX_ThreadBlockLockedIRQ`.
-/

namespace Nxos.Sched

open Nxos.Transition

/-! ## Data -/

/-- `SEMPAHORE_MAGIC` -/
def semaphoreMagic : BitVec 32 := 0x10000003

/-- `NX_Semaphore`. -/
structure Semaphore where
  value : BitVec 64
  semWaitList : List ℕ
  magic : BitVec 32

/-- Where a thread is in `NX_SemaphoreWait`: before a round of the loop, or in the sleep
that ended the last one. -/
inductive WaitPoint (ι : Type) where
  | outside
  | loop (s : ι)
  | asleep (s : ι)
  deriving DecidableEq

/-- The semaphore that the thread waits for. -/
def WaitPoint.waitsFor {ι : Type} : WaitPoint ι → Option ι
  | .outside => none
  | .loop s => some s
  | .asleep s => some s

/-- The scheduler and the semaphores.  The node `blockList` of a thread is linked on the
list of one semaphore or on none. -/
structure Kernel (ι : Type) where
  sched : Scheduler
  semaphore : ι → Semaphore
  blockList : ℕ → Option ι
  point : ℕ → WaitPoint ι

section Functions

variable {ι : Type} [DecidableEq ι] (cores : ℕ)

def Kernel.setSemaphore (k : Kernel ι) (s : ι) (sem : Semaphore) : Kernel ι :=
  { k with semaphore := Function.update k.semaphore s sem }

def Kernel.setValue (k : Kernel ι) (s : ι) (value : BitVec 64) : Kernel ι :=
  k.setSemaphore s { k.semaphore s with value := value }

def Kernel.setPoint (k : Kernel ι) (t : ℕ) (point : WaitPoint ι) : Kernel ι :=
  { k with point := Function.update k.point t point }

/-- `NX_ListAddTail(&thread->blockList, &sem->semWaitList)` -/
def listAddTail (k : Kernel ι) (t : ℕ) (s : ι) : Kernel ι :=
  { k with
    semaphore := Function.update k.semaphore s
      { k.semaphore s with semWaitList := (k.semaphore s).semWaitList ++ [t] }
    blockList := Function.update k.blockList t (some s) }

/-- `NX_ListDelInit(&thread->blockList)` -/
def listDelInit (k : Kernel ι) (t : ℕ) : Kernel ι :=
  match k.blockList t with
  | none => k
  | some s =>
      { k with
        semaphore := Function.update k.semaphore s
          { k.semaphore s with semWaitList := (k.semaphore s).semWaitList.erase t }
        blockList := Function.update k.blockList t none }

/-! ## Operations -/

/-- `NX_SemaphoreInit`. -/
def semaphoreInit (k : Kernel ι) (sem : Option ι) (value : BitVec 64) : NxError × Kernel ι :=
  match sem with
  | none => (.einval, k)
  | some s =>
      (.eok, k.setSemaphore s { value := value, semWaitList := [], magic := semaphoreMagic })

def semaphoreCheck (k : Kernel ι) (sem : Option ι) : Except NxError ι :=
  match sem with
  | none => .error .einval
  | some s => if (k.semaphore s).magic ≠ semaphoreMagic then .error .efault else .ok s

/-- `NX_SemaphoreWait`, up to the loop. -/
def semaphoreWait (k : Kernel ι) (coreId : ℕ) (sem : Option ι) :
    Exec (Option NxError × Kernel ι) := do
  match semaphoreCheck k sem with
  | .error err => return (some err, k)
  | .ok s =>
      let cur ← threadSelf cores k.sched coreId
      return (none, k.setPoint cur (.loop s))

/-- A round of the loop of `NX_SemaphoreWait`.  `NX_ThreadBlockLockedIRQ` gives the lock
back when it blocks the thread, and otherwise the next round waits for the lock forever. -/
def semaphoreWaitRound (k : Kernel ι) (coreId cur : ℕ) (s : ι) :
    Exec (Option NxError × Kernel ι) :=
  if 0 < (k.semaphore s).value.toInt then
    .ok (some .eok, (k.setValue s ((k.semaphore s).value - 1)).setPoint cur .outside)
  else do
    let k := if k.blockList cur = none then listAddTail k cur s else k
    let state := (k.sched.thread cur).state
    let (err, σ) ← threadBlock cores k.sched coreId cur
    nxAssert (err = .eok)
    let k := { k with sched := σ }
    match state with
    | .running => return (none, k.setPoint cur (.asleep s))
    | .ready => return (none, k.setPoint cur (.loop s))
    | _ => .error .deadlock

/-- The running thread goes on in `NX_SemaphoreWait`.  After a sleep it exits if it was
terminated. -/
def semaphoreGoOn (k : Kernel ι) (coreId : ℕ) : Exec (Option NxError × Kernel ι) := do
  let cur ← threadSelf cores k.sched coreId
  match k.point cur with
  | .outside => return (none, k)
  | .loop s => semaphoreWaitRound cores k coreId cur s
  | .asleep s =>
      if (k.sched.thread cur).isTerminated then do
        let σ ← threadExit cores k.sched coreId
        return (none, { k with sched := σ }.setPoint cur .outside)
      else semaphoreWaitRound cores k coreId cur s

/-- `NX_SemaphoreTryWait`. -/
def semaphoreTryWait (k : Kernel ι) (sem : Option ι) : NxError × Kernel ι :=
  match semaphoreCheck k sem with
  | .error err => (err, k)
  | .ok s =>
      if 0 < (k.semaphore s).value.toInt then
        (.eok, k.setValue s ((k.semaphore s).value - 1))
      else (.eagain, k)

/-- `NX_SemaphoreState`. -/
def semaphoreState (k : Kernel ι) (sem : Option ι) : NxError :=
  match semaphoreCheck k sem with
  | .error err => err
  | .ok s => if (k.semaphore s).value = 0 then .ebusy else .eok

def wakeup (k : Kernel ι) (t : ℕ) : Exec (Kernel ι) := do
  let k := listDelInit k t
  let (_, σ) ← threadUnblock cores k.sched t
  return { k with sched := σ }

/-- `NX_SemaphoreSignal` and `NX_SemaphoreSignalAll`, which differ in the threads of the
wait list that they wake. -/
def semaphoreRaise (wake : List ℕ → List ℕ) (k : Kernel ι) (sem : Option ι) :
    Exec (NxError × Kernel ι) :=
  match semaphoreCheck k sem with
  | .error err => return (err, k)
  | .ok s =>
      let k := k.setValue s ((k.semaphore s).value + 1)
      if 0 < (k.semaphore s).value.toInt then do
        let k ← (wake (k.semaphore s).semWaitList).foldlM (wakeup cores) k
        return (.eok, k)
      else return (.eok, k)

/-- `NX_SemaphoreSignal`, which wakes the first thread. -/
def semaphoreSignal (k : Kernel ι) (sem : Option ι) : Exec (NxError × Kernel ι) :=
  semaphoreRaise cores (fun list => list.take 1) k sem

/-- `NX_SemaphoreSignalAll`, which wakes all threads. -/
def semaphoreSignalAll (k : Kernel ι) (sem : Option ι) : Exec (NxError × Kernel ι) :=
  semaphoreRaise cores (fun list => list) k sem

end Functions

end Nxos.Sched
