import Nxos.Slots.Closing
import Nxos.Sched.Semaphore.Runs

/-!
# Semaphores and mutexes of a process

The embedding of the system calls of `process/syscall.c` that create and destroy semaphores
and mutexes and close slots, of `NX_MutexState`, and of the exit of a process with one
thread.  An object is named by its allocation, so that no name is used twice.  `NX_MemZero`
is called with the size of a pointer and clears the counter or the lock only.
-/

namespace Nxos.Slots

open Nxos.Sched

/-! ## Mutexes -/

/-- `MUTEX_MAGIC` -/
def mutexMagic : BitVec 32 := 0x10000002

/-- `NX_SPIN_MAGIC` -/
def spinMagic : BitVec 32 := 0x10000001

/-- `NX_Mutex`, with the value and the magic of its lock. -/
structure Mutex where
  value : BitVec 64
  lockMagic : BitVec 32
  magic : BitVec 32

/-- `NX_SpinState` of the lock. -/
def spinState (mutex : Mutex) : NxError :=
  if mutex.lockMagic ≠ spinMagic then .efault
  else if mutex.value ≠ 0 then .ebusy
  else .eok

/-- `NX_MutexState`. -/
def mutexState (mutex : Mutex) : NxError :=
  if mutex.magic ≠ mutexMagic then .efault else spinState mutex

/-- `NX_MutexInit`. -/
def mutexInit : Mutex := ⟨0, spinMagic, mutexMagic⟩

/-- `NX_MutexInitLocked`. -/
def mutexInitLocked : Mutex := ⟨1, spinMagic, mutexMagic⟩

/-- `NX_MutexTryLock`, which `NX_MutexLock` repeats. -/
def mutexTryLock (mutex : Mutex) : NxError × Mutex :=
  if mutex.magic ≠ mutexMagic then (.efault, mutex)
  else if mutex.lockMagic ≠ spinMagic then (.efault, mutex)
  else if mutex.value = 0 then (.eok, { mutex with value := 1 })
  else (.error, mutex)

/-- `NX_MutexUnlock`. -/
def mutexUnlock (mutex : Mutex) : NxError × Mutex :=
  if mutex.magic ≠ mutexMagic then (.efault, mutex)
  else if mutex.lockMagic ≠ spinMagic then (.eok, mutex)
  else (.eok, { mutex with value := 0 })

/-! ## Memory -/

/-- The handlers `SemaphoreCloseSolt` and `MutexCloseSolt`. -/
inductive SoltCloseHandler where
  | semaphore
  | mutex
  deriving DecidableEq, Repr

/-- The semaphores and the mutexes, the objects that were freed, and the threads that were on
the wait list of a semaphore when it was freed. -/
structure ObjectMemory where
  kernel : Kernel ℕ
  mutex : ℕ → Mutex
  freed : List ℕ
  stranded : List ℕ

namespace ObjectMemory

/-- `NX_MemFree`. -/
def memFree (m : ObjectMemory) (object : ℕ) : ObjectMemory :=
  { m with
    freed := m.freed ++ [object]
    stranded := m.stranded ++ (m.kernel.semaphore object).semWaitList }

/-- `NX_MemZero` and `NX_MemFree` of a semaphore. -/
def freeSemaphore (m : ObjectMemory) (sem : ℕ) : ObjectMemory :=
  { m with kernel := m.kernel.setValue sem 0 }.memFree sem

/-- `NX_MemZero` and `NX_MemFree` of a mutex. -/
def freeMutex (m : ObjectMemory) (mutex : ℕ) : ObjectMemory :=
  { m with mutex := Function.update m.mutex mutex { m.mutex mutex with value := 0 } }.memFree mutex

end ObjectMemory

/-- The state of an object of this type, as `NX_SemaphoreState` and `NX_MutexState` give it. -/
def objectState (m : ObjectMemory) (object : ℕ) : ExposedObjectType → NxError
  | .semaphore => semaphoreState m.kernel (some object)
  | .mutex => mutexState (m.mutex object)
  | _ => .enores

def freeObject (m : ObjectMemory) (object : ℕ) : ExposedObjectType → ObjectMemory
  | .semaphore => m.freeSemaphore object
  | _ => m.freeMutex object

/-- `SemaphoreCloseSolt` and `MutexCloseSolt`, which differ in the type.  The object is not
null, since `NX_ExposedObjectUninstalll` tests this. -/
def closeSolt (type : ExposedObjectType) (call : CloseCall SoltCloseHandler) (m : ObjectMemory) :
    NxError × ObjectMemory :=
  if call.type ≠ type then (.enores, m)
  else
    let err := objectState m call.object type
    if err ≠ .eok then (err, m) else (.eok, freeObject m call.object type)

/-- `SemaphoreCloseSolt`. -/
def semaphoreCloseSolt : CloseCall SoltCloseHandler → ObjectMemory → NxError × ObjectMemory :=
  closeSolt .semaphore

/-- `MutexCloseSolt`. -/
def mutexCloseSolt : CloseCall SoltCloseHandler → ObjectMemory → NxError × ObjectMemory :=
  closeSolt .mutex

def closeHandlers : SoltCloseHandlers SoltCloseHandler ObjectMemory := fun call m =>
  match call.handler with
  | .semaphore => semaphoreCloseSolt call m
  | .mutex => mutexCloseSolt call m

/-! ## System calls -/

/-- A process: its slots with the memory, the number of objects that were allocated for it,
and whether it has exited.  Its thread is the first object. -/
structure Process where
  slots : SlotState SoltCloseHandler ObjectMemory
  allocated : ℕ
  exited : Bool

namespace Process

def memory (p : Process) : ObjectMemory := p.slots.world

def setMemory (p : Process) (m : ObjectMemory) : Process :=
  { p with slots := { p.slots with world := m } }

def setMutex (p : Process) (object : ℕ) (mutex : Mutex) : Process :=
  p.setMemory { p.memory with mutex := Function.update p.memory.mutex object mutex }

/-- `NX_MemAlloc`, which returns the next name. -/
def memAlloc (p : Process) : ℕ × Process :=
  (p.allocated + 1, { p with allocated := p.allocated + 1 })

end Process

/-- The thread that `NX_ProcessLaunch` creates. -/
def mainThread : ℕ := 1

/-- The end of `SysSemaphoreCreate` and of `SysMutexCreate`: the new object is installed, or
freed when there is no slot for it. -/
def installObject (p : Process) (object : ℕ) (type : ExposedObjectType)
    (handler : SoltCloseHandler) : NxError × Process :=
  match exposedObjectInstall p.slots.table object type (some handler) with
  | .error err => (err, p.setMemory (p.memory.memFree object))
  | .ok (_, table) => (.eok, { p with slots := { p.slots with table := table } })

/-- `SysSemaphoreCreate`, where `NX_MemAlloc` has memory or has not. -/
def sysSemaphoreCreate (p : Process) (value : BitVec 64) (outSolt : ℕ) (memory : Bool) :
    NxError × Process :=
  if outSolt = 0 then (.einval, p)
  else if memory = false then (.enomem, p)
  else
    let (sem, p) := p.memAlloc
    let (err, kernel) := semaphoreInit p.memory.kernel (some sem) value
    let p := p.setMemory { p.memory with kernel := kernel }
    if err ≠ .eok then (err, p.setMemory (p.memory.memFree sem))
    else installObject p sem .semaphore .semaphore

/-- `NX_MUTEX_ATTR_LOCKED` -/
def mutexAttrLocked : BitVec 32 := 1

/-- `SysMutexCreate`, where `NX_MemAlloc` has memory or has not. -/
def sysMutexCreate (p : Process) (attr : BitVec 32) (outSolt : ℕ) (memory : Bool) :
    NxError × Process :=
  if outSolt = 0 then (.einval, p)
  else if memory = false then (.enomem, p)
  else
    let (mutex, p) := p.memAlloc
    let init := if attr &&& mutexAttrLocked ≠ 0 then mutexInitLocked else mutexInit
    installObject (p.setMutex mutex init) mutex .mutex .mutex

/-- `SysSemaphoreDestroy` and `SysMutexDestroy`, which differ in the type. -/
def sysDestroy (type : ExposedObjectType) (p : Process) (solt : BitVec 32) :
    Exec (NxError × Process) :=
  if solt = -1 then return (.einval, p)
  else
    match exposedObjectGet p.slots.table solt with
    | none => return (.enosrch, p)
    | some exobj =>
        if exobj.type ≠ type then return (.enores, p)
        else do
          nxAssert (exobj.object ≠ 0)
          let err := objectState p.memory exobj.object type
          if err ≠ .eok then return (err, p)
          else
            let (err, slots) := exposedObjectUninstalll closeHandlers solt p.slots
            let p := { p with slots := slots }
            if err ≠ .eok then return (err, p)
            else return (.eok, p.setMemory (freeObject p.memory exobj.object type))

/-- `SysSemaphoreDestroy`. -/
def sysSemaphoreDestroy : Process → BitVec 32 → Exec (NxError × Process) :=
  sysDestroy .semaphore

/-- `SysMutexDestroy`. -/
def sysMutexDestroy : Process → BitVec 32 → Exec (NxError × Process) := sysDestroy .mutex

/-- `SysSoltClose`. -/
def sysSoltClose (p : Process) (solt : BitVec 32) : NxError × Process :=
  let (err, slots) := exposedObjectUninstalll closeHandlers solt p.slots
  (err, { p with slots := slots })

/-- The exit of the process: `NX_ThreadExitProcess` closes the slot of the thread, and
`NX_ProcessDestroyObject` exits the table. -/
def processExit (p : Process) : Process :=
  let slots :=
    match exposedObjectLocate p.slots.table mainThread .thread with
    | none => p.slots
    | some i => (exposedObjectUninstalllAt closeHandlers i p.slots).2
  { p with slots := exposedObjectTableExit closeHandlers slots, exited := true }

/-! ## Steps -/

/-- A system call of the process, or a step of its threads at a semaphore or a mutex. -/
inductive SlotOp where
  | semaphore (op : SemOp ℕ)
  | mutexTryLock (mutex : ℕ)
  | mutexUnlock (mutex : ℕ)
  | semaphoreCreate (value : BitVec 64) (outSolt : ℕ) (memory : Bool)
  | semaphoreDestroy (solt : BitVec 32)
  | mutexCreate (attr : BitVec 32) (outSolt : ℕ) (memory : Bool)
  | mutexDestroy (solt : BitVec 32)
  | close (solt : BitVec 32)
  | exit

def slotStep (cores : ℕ) (p : Process) : SlotOp → Exec Process
  | .semaphore op => do
      let (_, kernel) ← semStep cores p.memory.kernel op
      return p.setMemory { p.memory with kernel := kernel }
  | .mutexTryLock mutex =>
      .ok (p.setMutex mutex (mutexTryLock (p.memory.mutex mutex)).2)
  | .mutexUnlock mutex =>
      .ok (p.setMutex mutex (mutexUnlock (p.memory.mutex mutex)).2)
  | .semaphoreCreate value outSolt memory => .ok (sysSemaphoreCreate p value outSolt memory).2
  | .semaphoreDestroy solt => do
      let (_, p) ← sysSemaphoreDestroy p solt
      return p
  | .mutexCreate attr outSolt memory => .ok (sysMutexCreate p attr outSolt memory).2
  | .mutexDestroy solt => do
      let (_, p) ← sysMutexDestroy p solt
      return p
  | .close solt => .ok (sysSoltClose p solt).2
  | .exit => .ok (processExit p)

/-- What the callers promise: the threads keep the promises of the semaphores, which are
initialised by the system calls only, and a process that has exited makes no calls. -/
def SlotOp.Allowed (cores : ℕ) (p : Process) : SlotOp → Prop
  | .semaphore op => op.Allowed cores p.memory.kernel ∧ ∀ sem value, op ≠ .init sem value
  | _ => p.exited = false

def SlotMove (cores : ℕ) (p : Process) (op : SlotOp) (p' : Process) : Prop :=
  op.Allowed cores p ∧ slotStep cores p op = .ok p'

/-- A step that keeps the promises, before which the condition holds. -/
def SlotMoveWhen (cores : ℕ) (condition : Process → SlotOp → Prop) (p : Process) (op : SlotOp)
    (p' : Process) : Prop :=
  condition p op ∧ SlotMove cores p op p'

/-- The process after its launch, with its thread in slot `0`. -/
def launched (σ : Scheduler) : Process where
  slots :=
    { table :=
        { objectCount := exobjDefaultNr
          objects := some (Function.update (fun _ => .cleared) 0 ⟨mainThread, .thread, none⟩)
          positive := Nat.succ_pos _
          bounded := Nat.le_of_ble_eq_true rfl }
      world :=
        { kernel := (semStart σ).kernel
          mutex := fun _ => ⟨0, 0, 0⟩
          freed := []
          stranded := [] }
      calls := [] }
  allocated := mainThread
  exited := false

/-! ## Runs that can be computed -/

instance {ι : Type} (op : SemOp ι) : Decidable (∀ sem value, op ≠ .init sem value) :=
  match op with
  | .init sem value => .isFalse fun h => h sem value rfl
  | .wait .. => .isTrue fun _ _ => (nomatch ·)
  | .goOn _ => .isTrue fun _ _ => (nomatch ·)
  | .tryWait _ => .isTrue fun _ _ => (nomatch ·)
  | .signal _ => .isTrue fun _ _ => (nomatch ·)
  | .signalAll _ => .isTrue fun _ _ => (nomatch ·)
  | .sched _ => .isTrue fun _ _ => (nomatch ·)

instance (cores : ℕ) (p : Process) (op : SlotOp) : Decidable (op.Allowed cores p) :=
  match op with
  | .semaphore op => inferInstanceAs (Decidable (op.Allowed cores p.memory.kernel ∧
      ∀ sem value, op ≠ .init sem value))
  | .mutexTryLock _ => inferInstanceAs (Decidable (p.exited = false))
  | .mutexUnlock _ => inferInstanceAs (Decidable (p.exited = false))
  | .semaphoreCreate .. => inferInstanceAs (Decidable (p.exited = false))
  | .semaphoreDestroy _ => inferInstanceAs (Decidable (p.exited = false))
  | .mutexCreate .. => inferInstanceAs (Decidable (p.exited = false))
  | .mutexDestroy _ => inferInstanceAs (Decidable (p.exited = false))
  | .close _ => inferInstanceAs (Decidable (p.exited = false))
  | .exit => inferInstanceAs (Decidable (p.exited = false))

section Computed

variable (condition : Process → SlotOp → Prop) [∀ p op, Decidable (condition p op)]

def slotStepWhen (cores : ℕ) (p : Process) (op : SlotOp) : Option Process :=
  if condition p op ∧ op.Allowed cores p then (slotStep cores p op).toOption else none

variable {condition}

theorem slotMove_of_slotStepWhen {cores : ℕ} {p p' : Process} {op : SlotOp}
    (h : slotStepWhen condition cores p op = some p') :
    SlotMoveWhen cores condition p op p' := by
  unfold slotStepWhen at h
  split at h
  · next hallowed => exact ⟨hallowed.1, hallowed.2, toOption_eq_some h⟩
  · cases h

end Computed

end Nxos.Slots
