import Nxos.Sched.Exit.Model

/-!
# Runs of exits and waits

A run records for each thread and process the exit code that its notification copied, and
whether the waiters were signalled.  A prompt wait begins before this notification, sleeps by
then, and is the only one for what it waits for.
-/

namespace Nxos.Sched

open Nxos.Transition

variable {cores : ℕ} {x x' : ExitState} {t c p : ℕ} {w : Waited}

/-! ## Where a thread is -/

/-- The thread is in the wait: in the loop, asleep, or before it reads the code. -/
def ExitState.Engaged (x : ExitState) (t : ℕ) (w : Waited) : Prop :=
  (x.kernel.point t).waitsFor = some w ∨ x.reading t = some w

def ExitState.Free (x : ExitState) (t : ℕ) : Prop :=
  x.kernel.point t = .outside ∧ x.reading t = none ∧ x.exitPoint t = .alive

def ExitPoint.Stays : ExitPoint → Prop
  | .alive => True
  | .begun => True
  | .copied => True
  | .notified => True
  | _ => False

/-- The thread counts in `threadCount` of the process. -/
def ExitState.IsMember (x : ExitState) (p t : ℕ) : Prop :=
  (x.resource t).process = p ∧ (x.exitPoint t).Stays

def ExitState.Over (x : ExitState) (p : ℕ) : Prop :=
  ∃ t, (x.resource t).process = p ∧ ¬(x.exitPoint t).Stays

def ExitState.waitCode (x : ExitState) (t : ℕ) : Waited → BitVec 32
  | .thread _ => (x.resource t).waitExitCode
  | .process _ => (x.process (x.resource t).process).waitExitCode

/-- The wait that a step begins: the waiter, and what it waits for. -/
def ExitState.begins (x : ExitState) : ExitOp → Option (ℕ × Waited)
  | .threadWait coreId t => (x.kernel.sched.cpuArray coreId).threadRunning.bind fun self =>
      if t = 0 ∨ t = self then none else some (self, .thread t)
  | .processWait coreId p => (x.kernel.sched.cpuArray coreId).threadRunning.bind fun self =>
      if p = 0 ∨ (x.resource self).process = p then none else some (self, .process p)
  | _ => none

/-- Whose waiters a thread in `NX_ThreadExit` gives the code to, in its next step. -/
def ExitPoint.copies (t : ℕ) : ExitPoint → Option Waited
  | .begun => some (.thread t)
  | .last p => some (.process p)
  | _ => none

/-- Whose waiters a thread in `NX_ThreadExit` signals, in its next step. -/
def ExitPoint.raises (t : ℕ) : ExitPoint → Option Waited
  | .copied => some (.thread t)
  | .lastCopied p => some (.process p)
  | _ => none

def ExitState.copies (x : ExitState) : ExitOp → Option Waited
  | .exitGoOn coreId => (x.kernel.sched.cpuArray coreId).threadRunning.bind fun cur =>
      (x.exitPoint cur).copies cur
  | _ => none

def ExitState.raises (x : ExitState) : ExitOp → Option Waited
  | .exitGoOn coreId => (x.kernel.sched.cpuArray coreId).threadRunning.bind fun cur =>
      (x.exitPoint cur).raises cur
  | _ => none

/-! ## Promises -/

/-- What the callers promise.  A thread of a kernel is added to a process before it starts,
and not to one whose last thread has left. -/
def ExitOp.Allowed (cores : ℕ) (x : ExitState) : ExitOp → Prop
  | .sched op => op.Quiet ∧ op.Allowed cores x.kernel.sched ∧ ∀ c, op ≠ .exit c
  | .append p t => p ≠ 0 ∧ ¬x.Over p ∧ (x.resource t).process = 0 ∧ x.exitPoint t = .alive ∧
      (x.kernel.sched.thread t).state = .init
  | .threadWait coreId _ => ∃ cur, x.kernel.sched.Runs cores coreId cur ∧ x.Free cur ∧
      ¬x.kernel.sched.IsIdle cores cur
  | .processWait coreId _ => ∃ cur, x.kernel.sched.Runs cores coreId cur ∧ x.Free cur ∧
      ¬x.kernel.sched.IsIdle cores cur ∧ (x.resource cur).process ≠ 0
  | .goOn coreId => ∃ cur, x.kernel.sched.Runs cores coreId cur ∧ x.kernel.point cur ≠ .outside
  | .read coreId => ∃ cur, x.kernel.sched.Runs cores coreId cur ∧ x.reading cur ≠ none
  | .processExit coreId _ => ∃ cur, x.kernel.sched.Runs cores coreId cur ∧ x.Free cur ∧
      (x.resource cur).process ≠ 0
  | .exit coreId _ => ∃ cur, x.kernel.sched.Runs cores coreId cur ∧ x.Free cur ∧
      ¬x.kernel.sched.IsIdle cores cur
  | .exitGoOn coreId => ∃ cur, x.kernel.sched.Runs cores coreId cur ∧ x.exitPoint cur ≠ .alive

/-! ## Runs -/

/-- A run: the codes that the notifications copied, the waiters that were signalled, and the
waits that returned. -/
structure ExitRun where
  state : ExitState
  copied : Waited → Option (BitVec 32)
  raised : Waited → Bool
  returned : List Delivered

def ExitRun.record (r : ExitRun) (op : ExitOp) (delivered : Option Delivered) (x : ExitState) :
    ExitRun where
  state := x
  copied w :=
    if r.copied w = none ∧ r.state.copies op = some w then some (r.state.exitCode w)
    else r.copied w
  raised w := if r.state.raises op = some w then true else r.raised w
  returned := r.returned ++ delivered.toList

def ExitMove (cores : ℕ) (r : ExitRun) (op : ExitOp) (r' : ExitRun) : Prop :=
  op.Allowed cores r.state ∧ ∃ d x', exitStep cores r.state op = .ok (d, x') ∧
    r' = r.record op d x'

/-- The waits are prompt: one begins before the notification of what it waits for, when
nobody else waits for that and no other thread of the process waits for a process, and it
sleeps on the list when the notification comes.  The counter that is signalled has room. -/
structure PromptWaits (r : ExitRun) (op : ExitOp) : Prop where
  early : ∀ t w, r.state.begins op = some (t, w) → r.copied w = none
  alone : ∀ t w, r.state.begins op = some (t, w) → ∀ u, ¬r.state.Engaged u w
  apart : ∀ t p, r.state.begins op = some (t, .process p) → ∀ u q,
    r.state.Engaged u (.process q) → (r.state.resource u).process ≠ (r.state.resource t).process
  asleep : ∀ w, r.state.copies op = some w → r.copied w = none → ∀ t,
    (r.state.kernel.point t).waitsFor = some w → r.state.kernel.blockList t = some w
  room : ∀ w, r.state.raises op = some w →
    (r.state.kernel.semaphore w).value.toInt < 2 ^ 63 - 1

def PromptMove (cores : ℕ) (r : ExitRun) (op : ExitOp) (r' : ExitRun) : Prop :=
  PromptWaits r op ∧ ExitMove cores r op r'

/-- Nobody waits or exits yet, and the counters for the waiters are `0`. -/
def exitStart (σ : Scheduler) : ExitRun where
  state :=
    { kernel :=
        { sched := σ
          semaphore := fun _ => { value := 0, semWaitList := [], magic := semaphoreMagic }
          blockList := fun _ => none
          point := fun _ => .outside }
      resource := fun _ => { exitCode := 0, waitExitCode := 0, process := 0 }
      process := fun _ => { exitCode := 0, waitExitCode := 0, threadCount := 0 }
      reading := fun _ => none
      exitPoint := fun _ => .alive }
  copied := fun _ => none
  raised := fun _ => false
  returned := []

/-! ## The invariant -/

/-- The waiting threads: one for each target, and one of each process for all processes. -/
structure Engagement (x : ExitState) : Prop where
  alive : ∀ t w, x.Engaged t w → x.exitPoint t = .alive
  reads : ∀ t w, x.reading t = some w → x.kernel.point t = .outside
  single : ∀ t u w, x.Engaged t w → x.Engaged u w → t = u
  bound : ∀ t p, x.Engaged t (.process p) → (x.resource t).process ≠ 0
  apart : ∀ t u p q, x.Engaged t (.process p) → x.Engaged u (.process q) →
    (x.resource t).process = (x.resource u).process → t = u

/-- The waiter of a target, from the begin of the wait to the delivery. -/
structure TargetInv (x : ExitState) (w : Waited) (copied : Option (BitVec 32)) (raised : Bool) :
    Prop where
  nonneg : 0 ≤ (x.kernel.semaphore w).value.toInt
  closed : raised = false → (x.kernel.semaphore w).value.toInt = 0 ∧ ∀ t, x.reading t ≠ some w
  asleep : copied ≠ none → raised = false → ∀ t, (x.kernel.point t).waitsFor = some w →
    x.kernel.blockList t = some w
  awake : raised = true → ∀ t, (x.kernel.point t).waitsFor = some w →
    x.kernel.point t = .asleep w ∧ x.kernel.blockList t = none ∧
      0 < (x.kernel.semaphore w).value.toInt
  order : raised = true → copied ≠ none
  delivered : ∀ code, copied = some code → ∀ t, x.Engaged t w → x.waitCode t w = code
  code : ∀ code, copied = some code → x.exitCode w = code

structure Lifecycle (x : ExitState) (copied : Waited → Option (BitVec 32)) : Prop where
  members : ∀ p, p ≠ 0 → ∃ members : Finset ℕ, (∀ t, t ∈ members ↔ x.IsMember p t) ∧
    (x.process p).threadCount = members.card
  ended : ∀ p, p ≠ 0 → x.Over p → ∀ t, ¬x.IsMember p t
  deleted : ∀ t p, x.exitPoint t = .deleted p → p ≠ 0 ∧ (x.resource t).process = 0
  last : ∀ t p, x.exitPoint t = .last p ∨ x.exitPoint t = .lastCopied p →
    p ≠ 0 ∧ (x.resource t).process = p
  copiedThread : ∀ t, copied (.thread t) ≠ none → x.exitPoint t ≠ .alive ∧ x.exitPoint t ≠ .begun
  copiedProcess : ∀ p, copied (.process p) ≠ none → p ≠ 0 ∧ x.Over p
  copying : ∀ t w, (x.exitPoint t).raises t = some w → copied w ≠ none

structure ExitInv (cores : ℕ) (r : ExitRun) : Prop where
  waiters : WaitInv cores r.state.kernel
  woken : WokenInv r.state.kernel
  magic : ∀ w, (r.state.kernel.semaphore w).magic = semaphoreMagic
  exiting : ∀ t, r.state.exitPoint t ≠ .alive → ¬r.state.kernel.sched.IsIdle cores t ∧
    r.state.kernel.point t = .outside
  engagement : Engagement r.state
  target : ∀ w, TargetInv r.state w (r.copied w) (r.raised w)
  lifecycle : Lifecycle r.state r.copied
  returned : ∀ d ∈ r.returned, r.copied d.2.1 = some d.2.2

end Nxos.Sched
