import Mathlib.Logic.Function.Basic
import Nxos.Base.Kernel

/-!
# Spin locks and mutexes

The functions of `sched/spin.c` and `sched/mutex.c`, as the threads that call them on one
lock run them: a step of a thread is one access to the lock, a compare and swap included, or
one access to the data that the lock protects.  The steps of different threads come in any
order.  A thread whose call took the lock makes its accesses and then unlocks.
-/

namespace Nxos.Lock

/-! ## Locks -/

/-- `NX_SPIN_MAGIC` -/
def spinMagic : BitVec 32 := 0x10000001

/-- `NX_SPIN_LOCK_VALUE` -/
def spinLockValue : ℤ := 1

/-- `MUTEX_MAGIC` -/
def mutexMagic : BitVec 32 := 0x10000002

/-- `NX_Spin`. -/
structure Spin where
  value : ℤ
  magic : BitVec 32
  deriving DecidableEq, Repr

/-- `NX_Mutex`.  A spin lock that is no mutex is the field `lock`. -/
structure Mutex where
  lock : Spin
  magic : BitVec 32
  deriving DecidableEq, Repr

/-- `NX_AtomicSet` of the value. -/
def atomicSet (m : Mutex) (value : ℤ) : Mutex :=
  { m with lock := { m.lock with value := value } }

/-- `NX_AtomicCAS` of the value: the value from before, and the lock after it. -/
def atomicCas (m : Mutex) (old new : ℤ) : ℤ × Mutex :=
  if m.lock.value = old then (m.lock.value, atomicSet m new) else (m.lock.value, m)

/-! ## Threads -/

/-- The accesses of a thread to the data while it holds the lock. -/
abbrev Work (D : Type) := List (D → D)

/-- The functions that may take the lock. -/
inductive Locker where
  | spinTryLock
  | spinLock
  | mutexTryLock
  | mutexLock
  | mutexInitLocked
  deriving DecidableEq, Repr

/-- The lock is given back by `NX_MutexUnlock`, not by `NX_SpinUnlock`. -/
def Locker.isMutex : Locker → Bool
  | .spinTryLock | .spinLock => false
  | .mutexTryLock | .mutexLock | .mutexInitLocked => true

/-- The calls: those that may take the lock, for some accesses, and the others. -/
inductive Call (D : Type) where
  | take (f : Locker) (work : Work D)
  | spinInit
  | mutexInit
  | spinState
  | mutexState

inductive Point (D : Type) where
  /-- In no call.  The last one returned this. -/
  | outside (last : Option NxError)
  /-- `NX_MutexLock` tests the magic of the mutex. -/
  | mutexLock (work : Work D)
  /-- `NX_MutexTryLock` tests it, as called by itself or from `NX_MutexLock`. -/
  | mutexTry (f : Locker) (work : Work D)
  /-- `NX_ThreadYield` in `NX_MutexLock`. -/
  | yield (work : Work D)
  /-- `NX_SpinLock` tests the magic of the lock. -/
  | spinLock (f : Locker) (work : Work D)
  /-- `NX_SpinTryLock` tests it. -/
  | spinTry (f : Locker) (work : Work D)
  /-- `NX_SpinTryLock` compares and swaps. -/
  | cas (f : Locker) (work : Work D)
  /-- With the lock, before the access `k`. -/
  | inside (f : Locker) (work : Work D) (k : ℕ)
  /-- `NX_MutexUnlock` tests the magic of the mutex. -/
  | mutexUnlock (f : Locker) (work : Work D)
  /-- `NX_SpinUnlock` tests the magic of the lock. -/
  | spinUnlock (f : Locker) (work : Work D)
  /-- `NX_SpinUnlock` clears the value. -/
  | release (f : Locker) (work : Work D)
  /-- `NX_SpinInit` tests the magic of the lock, as called for this call. -/
  | spinInit (call : Call D)
  /-- `NX_SpinInit` clears the value. -/
  | initValue (call : Call D)
  /-- `NX_SpinInit` writes the magic of the lock. -/
  | initMagic (call : Call D)
  /-- `NX_MutexInit` writes the magic of the mutex. -/
  | mutexMagic (call : Call D)
  /-- `NX_MutexState` tests the magic of the mutex. -/
  | mutexState
  /-- `NX_SpinState` tests the magic of the lock, as called for this call. -/
  | spinState (call : Call D)
  /-- `NX_SpinState` reads the value. -/
  | stateValue (call : Call D)

variable {D : Type}

def Point.done (err : NxError) : Point D := .outside (some err)

def Call.entry : Call D → Point D
  | .take .spinTryLock work => .spinTry .spinTryLock work
  | .take .spinLock work => .spinLock .spinLock work
  | .take .mutexTryLock work => .mutexTry .mutexTryLock work
  | .take .mutexLock work => .mutexLock work
  | .take .mutexInitLocked work => .spinInit (.take .mutexInitLocked work)
  | .spinInit => .spinInit .spinInit
  | .mutexInit => .spinInit .mutexInit
  | .spinState => .spinState .spinState
  | .mutexState => .mutexState

/-- `NX_SpinTryLock` returned an error: the functions that loop try again. -/
def Locker.failed (f : Locker) (work : Work D) (err : NxError) : Point D :=
  match f with
  | .spinTryLock | .mutexTryLock => .done err
  | .spinLock | .mutexInitLocked => .spinTry f work
  | .mutexLock => .yield work

/-- `NX_SpinInit` returned `NX_EFAULT`. -/
def Call.initFailed : Call D → Point D
  | .spinInit => .done .efault
  | _ => .done .eperm

/-- `NX_SpinInit` returned `NX_EOK`. -/
def Call.initDone : Call D → Point D
  | .spinInit => .done .eok
  | call => .mutexMagic call

/-- What is left of a mutex call after the magic of the mutex is written. -/
def Call.magicDone : Call D → Point D
  | .take f work => .spinLock f work
  | _ => .done .eok

/-- The next access of a thread: the lock, the data and the place of the thread after it. -/
def next (m : Mutex) (d : D) : Point D → Mutex × D × Point D
  | .outside last => (m, d, .outside last)
  | .mutexLock work =>
      if m.magic ≠ mutexMagic then (m, d, .done .efault) else (m, d, .mutexTry .mutexLock work)
  | .mutexTry f work =>
      if m.magic ≠ mutexMagic then (m, d, f.failed work .efault) else (m, d, .spinTry f work)
  | .yield work => (m, d, .mutexTry .mutexLock work)
  | .spinLock f work =>
      if m.lock.magic ≠ spinMagic then (m, d, .done .efault) else (m, d, .spinTry f work)
  | .spinTry f work =>
      if m.lock.magic ≠ spinMagic then (m, d, f.failed work .efault) else (m, d, .cas f work)
  | .cas f work =>
      let (old, m) := atomicCas m 0 spinLockValue
      if old = 0 then (m, d, .inside f work 0) else (m, d, f.failed work .error)
  | .inside f work k =>
      match work[k]? with
      | some access => (m, access d, .inside f work (k + 1))
      | none => (m, d, if f.isMutex then .mutexUnlock f work else .spinUnlock f work)
  | .mutexUnlock f work =>
      if m.magic ≠ mutexMagic then (m, d, .done .efault) else (m, d, .spinUnlock f work)
  | .spinUnlock f work =>
      if m.lock.magic ≠ spinMagic then (m, d, .done (if f.isMutex then .eok else .efault))
      else (m, d, .release f work)
  | .release _ _ => (atomicSet m 0, d, .done .eok)
  | .spinInit call =>
      if m.lock.magic = spinMagic then (m, d, call.initFailed) else (m, d, .initValue call)
  | .initValue call => (atomicSet m 0, d, .initMagic call)
  | .initMagic call => ({ m with lock := { m.lock with magic := spinMagic } }, d, call.initDone)
  | .mutexMagic call => ({ m with magic := mutexMagic }, d, call.magicDone)
  | .mutexState =>
      if m.magic ≠ mutexMagic then (m, d, .done .efault) else (m, d, .spinState .mutexState)
  | .spinState call =>
      if m.lock.magic ≠ spinMagic then (m, d, .done .efault) else (m, d, .stateValue call)
  | .stateValue _ => (m, d, .done (if m.lock.value ≠ 0 then .ebusy else .eok))

/-! ## Runs -/

structure State (D : Type) where
  mutex : Mutex
  data : D
  point : ℕ → Point D

inductive Action (D : Type) where
  | begin (t : ℕ) (call : Call D)
  | access (t : ℕ)

def State.goTo (s : State D) (t : ℕ) (m : Mutex) (d : D) (p : Point D) : State D :=
  ⟨m, d, Function.update s.point t p⟩

inductive Step : State D → Action D → State D → Prop
  | begin {s : State D} {t : ℕ} {last : Option NxError} (call : Call D)
      (houtside : s.point t = .outside last) :
      Step s (.begin t call) (s.goTo t s.mutex s.data call.entry)
  | access {s : State D} (t : ℕ) (hcall : ∀ last, s.point t ≠ .outside last) :
      Step s (.access t) (s.goTo t (next s.mutex s.data (s.point t)).1
        (next s.mutex s.data (s.point t)).2.1 (next s.mutex s.data (s.point t)).2.2)

/-- A lock that was initialised, that nobody holds, and threads in no call. -/
def unlocked (d : D) : State D where
  mutex := ⟨⟨0, spinMagic⟩, mutexMagic⟩
  data := d
  point := fun _ => .outside none

/-! ## Sections -/

/-- Where a thread is in the machine whose sections are single steps: in no call, or in one. -/
inductive Place (D : Type) where
  | outside (last : Option NxError)
  | calling (call : Call D)

structure Sections (D : Type) where
  data : D
  place : ℕ → Place D

def runWork (work : Work D) (d : D) : D := work.foldl (fun d access => access d) d

def Call.Answers : Call D → NxError → Prop
  | .take .spinTryLock _, err | .take .mutexTryLock _, err => err = .error
  | .take .spinLock _, _ | .take .mutexLock _, _ => False
  | .take .mutexInitLocked _, err => err = .eperm
  | .spinInit, err => err = .efault
  | .mutexInit, err => err = .eperm
  | .spinState, err | .mutexState, err => err = .ebusy ∨ err = .eok

/-- A thread begins a call; it makes all its accesses at once and returns `NX_EOK`; or it
returns without an access. -/
inductive SectionStep : Sections D → ℕ → Sections D → Prop
  | begin {c : Sections D} {t : ℕ} {last : Option NxError} (call : Call D)
      (houtside : c.place t = .outside last) :
      SectionStep c t ⟨c.data, Function.update c.place t (.calling call)⟩
  | section {c : Sections D} {t : ℕ} {f : Locker} {work : Work D}
      (hcalling : c.place t = .calling (.take f work)) :
      SectionStep c t ⟨runWork work c.data, Function.update c.place t (.outside (some .eok))⟩
  | answer {c : Sections D} {t : ℕ} {call : Call D} {err : NxError}
      (hcalling : c.place t = .calling call) (hanswers : call.Answers err) :
      SectionStep c t ⟨c.data, Function.update c.place t (.outside (some err))⟩

end Nxos.Lock
