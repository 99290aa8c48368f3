import Nxos.Sched.Exit.Delivery

/-!
# Terminated threads

The embedding of `NX_ThreadTerminate` with its exit code, and of the places where a thread
notices that it was terminated: after it was blocked, in `NX_ThreadSleep`, at the end of an
interrupt and in the clock interrupt.  Each of them calls `NX_ThreadExit` with the code `1`.
A thread may notice again while it exits, and may be terminated again until then.
-/

namespace Nxos.Sched

open Nxos.Transition

/-! ## Data -/

/-- The exits, and the threads whose `resource.sleepTimer` is set. -/
structure EndState where
  exits : ExitState
  sleepTimer : ℕ → Bool

namespace EndState

def withExits (y : EndState) (x : ExitState) : EndState := { y with exits := x }

def withSched (y : EndState) (σ : Scheduler) : EndState :=
  y.withExits (y.exits.withKernel { y.exits.kernel with sched := σ })

def setSleepTimer (y : EndState) (t : ℕ) (set : Bool) : EndState :=
  { y with sleepTimer := Function.update y.sleepTimer t set }

def sched (y : EndState) : Scheduler := y.exits.kernel.sched

def exitCode (y : EndState) (t : ℕ) : BitVec 32 := (y.exits.resource t).exitCode

end EndState

section Functions

variable (cores : ℕ)

/-! ## Operations -/

/-- `NX_ThreadTerminate`. -/
def threadTerminateCode (y : EndState) (t : ℕ) (exitCode : BitVec 32) :
    Exec (NxError × EndState) := do
  let (err, σ) ← threadTerminate cores y.sched t
  let y := y.withSched σ
  if err ≠ .eok then return (err, y)
  else
    let resource := { y.exits.resource t with exitCode := exitCode }
    return (.eok, y.withExits (y.exits.setResource t resource))

/-- `NX_ThreadExit`, up to the notification.  `ThreadReleaseResouce` stops the sleep timer. -/
def threadExitCode (y : EndState) (coreId : ℕ) (exitCode : BitVec 32) : Exec EndState := do
  let cur ← threadSelf cores y.sched coreId
  let x ← threadExitBegin cores y.exits coreId exitCode
  return (y.withExits x).setSleepTimer cur false

def selfTerminated (y : EndState) (coreId : ℕ) : Exec Bool := do
  let cur ← threadSelf cores y.sched coreId
  return (y.sched.thread cur).isTerminated

/-- A place where the running thread exits if it was terminated, and else goes on. -/
def noticeTerminated (y : EndState) (coreId : ℕ) (goOn : Exec EndState) :
    Exec (Bool × EndState) := do
  let terminated ← selfTerminated cores y coreId
  if terminated then
    let y ← threadExitCode cores y coreId 1
    return (true, y)
  else
    let y ← goOn
    return (false, y)

/-- The end of `NX_ThreadBlockLockedIRQ`, when the thread runs again. -/
def threadBlockReturn (y : EndState) (coreId : ℕ) : Exec (Bool × EndState) :=
  noticeTerminated cores y coreId (.ok y)

/-- `NX_SchedIrqHandler`. -/
def schedIrqHandlerCode (y : EndState) (coreId : ℕ) : Exec (Bool × EndState) :=
  noticeTerminated cores y coreId do
    let σ ← schedIrqHandler cores y.sched coreId
    return y.withSched σ

/-- `NX_ReSchedCheck`, which clears `isTerminated` before the exit. -/
def reSchedCheckCode (y : EndState) (coreId : ℕ) : Exec (Bool × EndState) := do
  let cur ← threadSelf cores y.sched coreId
  if (y.sched.thread cur).isTerminated then
    let cleared := y.sched.write cur { y.sched.thread cur with isTerminated := false }
    let y ← threadExitCode cores (y.withSched cleared) coreId 1
    return (true, y)
  else
    let σ ← reSchedCheck cores y.sched coreId
    return (false, y.withSched σ)

/-- `NX_ThreadSleep`, up to the switch to another thread. -/
def threadSleepBegin (y : EndState) (coreId : ℕ) : Exec (Bool × EndState) :=
  noticeTerminated cores y coreId do
    let self ← threadSelf cores y.sched coreId
    let (_, σ) ← threadBlock cores y.sched coreId self
    return (y.withSched σ).setSleepTimer self true

/-- `TimerThreadSleepTimeout`. -/
def timerThreadSleepTimeout (y : EndState) (t : ℕ) : Exec EndState := do
  let (_, σ) ← threadUnblock cores y.sched t
  return (y.withSched σ).setSleepTimer t false

/-- The end of `NX_ThreadSleep`, after the return of `NX_ThreadBlockInterruptDisabled`. -/
def threadSleepEnd (y : EndState) (coreId : ℕ) : Exec (Bool × EndState) := do
  let self ← threadSelf cores y.sched coreId
  if y.sleepTimer self then
    noticeTerminated cores (y.setSleepTimer self false) coreId (.ok (y.setSleepTimer self false))
  else return (false, y)

/-! ## Steps -/

inductive EndOp where
  | exits (op : ExitOp)
  | block (coreId t : ℕ)
  | terminate (t : ℕ) (exitCode : BitVec 32)
  | blockReturn (coreId : ℕ)
  | irq (coreId : ℕ)
  | reSched (coreId : ℕ)
  | sleepBegin (coreId : ℕ)
  | sleepTimeout (t : ℕ)
  | sleepEnd (coreId : ℕ)

inductive EndEvent where
  /-- `NX_ThreadTerminate` returned `NX_EOK`. -/
  | terminated (t : ℕ) (exitCode : BitVec 32)
  /-- The thread exits since it was terminated. -/
  | noticed (t : ℕ)
  /-- The thread exits by itself. -/
  | exited (t : ℕ) (exitCode : BitVec 32)
  /-- `ThreadExitNotify` of the thread gave this code to a waiter. -/
  | passed (t waiter : ℕ) (code : BitVec 32)
  deriving DecidableEq

def EndState.running (y : EndState) (coreId : ℕ) : List ℕ :=
  (y.sched.cpuArray coreId).threadRunning.toList

def EndState.noticedBy (y : EndState) (coreId : ℕ) (noticed : Bool) : List EndEvent :=
  if noticed then (y.running coreId).map .noticed else []

/-- The events of a step of the exits, after which the waiters have their codes. -/
def EndState.exitEvents (y : EndState) (x : ExitState) : ExitOp → List EndEvent
  | .exit coreId exitCode => (y.running coreId).map (.exited · exitCode)
  | .exitGoOn coreId => (y.running coreId).flatMap fun t =>
      if y.exits.exitPoint t = .begun then
        (y.exits.kernel.semaphore (.thread t)).semWaitList.map fun waiter =>
          .passed t waiter (x.resource waiter).waitExitCode
      else []
  | _ => []

def endStep (y : EndState) : EndOp → Exec (List EndEvent × EndState)
  | .exits op => do
      let (_, x) ← exitStep cores y.exits op
      return (y.exitEvents x op, y.withExits x)
  | .block coreId t => do
      let (_, σ) ← threadBlock cores y.sched coreId t
      return ([], y.withSched σ)
  | .terminate t exitCode => do
      let (err, y) ← threadTerminateCode cores y t exitCode
      return (if err = .eok then [.terminated t exitCode] else [], y)
  | .blockReturn coreId => do
      let (noticed, y') ← threadBlockReturn cores y coreId
      return (y.noticedBy coreId noticed, y')
  | .irq coreId => do
      let (noticed, y') ← schedIrqHandlerCode cores y coreId
      return (y.noticedBy coreId noticed, y')
  | .reSched coreId => do
      let (noticed, y') ← reSchedCheckCode cores y coreId
      return (y.noticedBy coreId noticed, y')
  | .sleepBegin coreId => do
      let (noticed, y') ← threadSleepBegin cores y coreId
      return (y.noticedBy coreId noticed, y')
  | .sleepTimeout t => do
      let y ← timerThreadSleepTimeout cores y t
      return ([], y)
  | .sleepEnd coreId => do
      let (noticed, y') ← threadSleepEnd cores y coreId
      return (y.noticedBy coreId noticed, y')

end Functions

/-- The thread is in the sleep of `NX_SemaphoreWait`. -/
def WaitPoint.isAsleep {ι : Type} : WaitPoint ι → Bool
  | .asleep _ => true
  | _ => false

/-- A call of the scheduler that neither blocks nor ends a thread. -/
def SchedOp.Plain : SchedOp → Prop
  | .block .. => False
  | .terminate _ => False
  | .irq _ => False
  | .reSched _ => False
  | .exit _ => False
  | _ => True

/-- A terminated thread does not return from `NX_ThreadBlockLockedIRQ` into the loop of
`NX_SemaphoreWait`.  What else a terminated thread does, and the calls that block and end
threads, are steps of their own. -/
def EndOp.Allowed (y : EndState) : EndOp → Prop
  | .exits (.sched op) => op.Plain
  | .exits (.goOn coreId) => ∀ cur ∈ y.running coreId,
      (y.exits.kernel.point cur).isAsleep = true → (y.sched.thread cur).isTerminated = false
  | _ => True

structure EndRun where
  state : EndState
  history : List EndEvent

def EndMove (cores : ℕ) (r : EndRun) (op : EndOp) (r' : EndRun) : Prop :=
  op.Allowed r.state ∧ ∃ events, endStep cores r.state op = .ok (events, r'.state) ∧
    r'.history = r.history ++ events

def endStart (σ : Scheduler) : EndRun where
  state := { exits := (exitStart σ).state, sleepTimer := fun _ => false }
  history := []

/-! ## Codes -/

def EndEvent.codeOf (t : ℕ) (code : BitVec 32) : EndEvent → BitVec 32
  | .terminated u exitCode => if u = t then exitCode else code
  | .noticed u => if u = t then 1 else code
  | .exited u exitCode => if u = t then exitCode else code
  | .passed .. => code

def lastCode (t : ℕ) (history : List EndEvent) (code : BitVec 32) : BitVec 32 :=
  history.foldl (fun code event => event.codeOf t code) code

variable {cores : ℕ} {x x' : ExitState} {y y' : EndState} {t c : ℕ} {events : List EndEvent}

def SameCodes (x x' : ExitState) : Prop :=
  ∀ t, (x'.resource t).exitCode = (x.resource t).exitCode

theorem SameCodes.setResource (x : ExitState) (t : ℕ) {resource : ThreadResource}
    (hcode : resource.exitCode = (x.resource t).exitCode) :
    SameCodes x (x.setResource t resource) := by
  intro u
  rw [ExitState.setResource]
  by_cases hu : u = t
  · subst hu
    simp only [Function.update_self, hcode]
  · simp only [Function.update_of_ne hu]

theorem sameCodes_waiterEnter {self : ℕ} {w : Waited}
    (hrun : waiterEnter cores x c self w = .ok x') : SameCodes x x' := by
  obtain ⟨⟨err, k⟩, -, hrest⟩ := exec_bind_eq_ok_iff.mp hrun
  cases err with
  | none =>
      obtain rfl := Except.ok.inj hrest
      exact fun _ => rfl
  | some err =>
      obtain rfl := Except.ok.inj hrest
      exact fun _ => rfl

theorem sameCodes_threadWait {r : Option NxError × ExitState}
    (hrun : threadWait cores x c t = .ok r) : SameCodes x r.2 := by
  unfold threadWait at hrun
  split at hrun
  · obtain rfl := Except.ok.inj hrun
    exact fun _ => rfl
  · obtain ⟨self, -, hrest⟩ := exec_bind_eq_ok_iff.mp hrun
    split at hrest
    · obtain rfl := Except.ok.inj hrest
      exact fun _ => rfl
    · obtain ⟨x₁, henter, hrest⟩ := exec_bind_eq_ok_iff.mp hrest
      obtain rfl := Except.ok.inj hrest
      exact sameCodes_waiterEnter henter

theorem sameCodes_processWait {p : ℕ} {r : Option NxError × ExitState}
    (hrun : processWait cores x c p = .ok r) : SameCodes x r.2 := by
  unfold processWait at hrun
  split at hrun
  · obtain rfl := Except.ok.inj hrun
    exact fun _ => rfl
  · obtain ⟨self, -, hrest⟩ := exec_bind_eq_ok_iff.mp hrun
    split at hrest
    · obtain rfl := Except.ok.inj hrest
      exact fun _ => rfl
    · obtain ⟨x₁, henter, hrest⟩ := exec_bind_eq_ok_iff.mp hrest
      obtain rfl := Except.ok.inj hrest
      exact sameCodes_waiterEnter henter

theorem sameCodes_waiterGoOn (hrun : waiterGoOn cores x c = .ok x') : SameCodes x x' := by
  obtain ⟨self, -, hrest⟩ := exec_bind_eq_ok_iff.mp hrun
  obtain ⟨⟨err, k⟩, -, hrest⟩ := exec_bind_eq_ok_iff.mp hrest
  cases err with
  | none =>
      obtain rfl := Except.ok.inj hrest
      exact fun _ => rfl
  | some err =>
      obtain rfl := Except.ok.inj hrest
      exact fun _ => rfl

theorem sameCodes_waiterRead {r : Option (ℕ × Waited × BitVec 32) × ExitState}
    (hrun : waiterRead cores x c = .ok r) : SameCodes x r.2 := by
  obtain ⟨self, -, hrest⟩ := exec_bind_eq_ok_iff.mp hrun
  split at hrest
  · obtain rfl := Except.ok.inj hrest
    exact fun _ => rfl
  · obtain rfl := Except.ok.inj hrest
    exact fun _ => rfl
  · dsimp only at hrest
    split at hrest
    · cases hrest
    · obtain rfl := Except.ok.inj hrest
      exact fun _ => rfl

theorem sameCodes_threadExitNotifyCopy (x : ExitState) (t : ℕ) :
    SameCodes x (threadExitNotifyCopy x t) := by
  intro u
  unfold threadExitNotifyCopy
  rw [copy_resource]
  dsimp only
  split <;> rfl

theorem sameCodes_processExitNotifyCopy {p : ℕ}
    (hrun : processExitNotifyCopy x p = .ok x') : SameCodes x x' := by
  unfold processExitNotifyCopy at hrun
  generalize (x.kernel.semaphore (.process p)).semWaitList = waiters at hrun
  induction waiters generalizing x with
  | nil =>
      obtain rfl := Except.ok.inj hrun
      exact fun _ => rfl
  | cons u waiters ih =>
      rw [List.foldlM_cons] at hrun
      obtain ⟨x₁, hfirst, hrest⟩ := exec_bind_eq_ok_iff.mp hrun
      obtain ⟨-, -, hfirst⟩ := exec_bind_eq_ok_iff.mp hfirst
      obtain rfl := Except.ok.inj hfirst
      have hsame := ih hrest
      exact fun t => hsame t

theorem sameCodes_threadExitGoOn (hrun : threadExitGoOn cores x c = .ok x') :
    SameCodes x x' := by
  obtain ⟨cur, -, hrest⟩ := exec_bind_eq_ok_iff.mp hrun
  split at hrest
  · obtain rfl := Except.ok.inj hrest
    exact fun _ => rfl
  · obtain rfl := Except.ok.inj hrest
    exact sameCodes_threadExitNotifyCopy x cur
  · obtain ⟨r, -, hrest⟩ := exec_bind_eq_ok_iff.mp hrest
    obtain rfl := Except.ok.inj hrest
    exact fun _ => rfl
  · dsimp only at hrest
    split at hrest
    · obtain rfl := Except.ok.inj hrest
      exact fun _ => rfl
    · obtain rfl := Except.ok.inj hrest
      exact SameCodes.setResource (x.setProcess _ _) cur rfl
  · split at hrest
    · obtain rfl := Except.ok.inj hrest
      exact SameCodes.setResource x cur rfl
    · obtain rfl := Except.ok.inj hrest
      exact fun _ => rfl
  · obtain ⟨x₁, hcopy, hrest⟩ := exec_bind_eq_ok_iff.mp hrest
    obtain rfl := Except.ok.inj hrest
    have hsame := sameCodes_processExitNotifyCopy hcopy
    exact fun t => hsame t
  · obtain ⟨r, -, hrest⟩ := exec_bind_eq_ok_iff.mp hrest
    obtain rfl := Except.ok.inj hrest
    exact fun _ => rfl
  · obtain ⟨σ, -, hrest⟩ := exec_bind_eq_ok_iff.mp hrest
    obtain rfl := Except.ok.inj hrest
    exact fun _ => rfl

theorem sameCodes_exitStep {op : ExitOp} {r : Option Delivered × ExitState}
    (hop : ∀ coreId exitCode, op ≠ .exit coreId exitCode)
    (hstep : exitStep cores x op = .ok r) : SameCodes x r.2 := by
  cases op with
  | sched op =>
      obtain ⟨σ, -, hrest⟩ := exec_bind_eq_ok_iff.mp hstep
      obtain rfl := Except.ok.inj hrest
      exact fun _ => rfl
  | append p t =>
      obtain rfl := Except.ok.inj hstep
      exact SameCodes.setResource (x.setProcess _ _) t rfl
  | threadWait coreId t =>
      obtain ⟨r', hrun, hrest⟩ := exec_bind_eq_ok_iff.mp hstep
      obtain rfl := Except.ok.inj hrest
      exact sameCodes_threadWait hrun
  | processWait coreId p =>
      obtain ⟨r', hrun, hrest⟩ := exec_bind_eq_ok_iff.mp hstep
      obtain rfl := Except.ok.inj hrest
      exact sameCodes_processWait hrun
  | goOn coreId =>
      obtain ⟨x', hrun, hrest⟩ := exec_bind_eq_ok_iff.mp hstep
      obtain rfl := Except.ok.inj hrest
      exact sameCodes_waiterGoOn hrun
  | read coreId => exact sameCodes_waiterRead hstep
  | processExit coreId exitCode =>
      obtain ⟨x', hrun, hrest⟩ := exec_bind_eq_ok_iff.mp hstep
      obtain rfl := Except.ok.inj hrest
      obtain ⟨cur, -, hrest⟩ := exec_bind_eq_ok_iff.mp hrun
      obtain ⟨-, -, hrest⟩ := exec_bind_eq_ok_iff.mp hrest
      obtain rfl := Except.ok.inj hrest
      exact fun _ => rfl
  | exit coreId exitCode => exact absurd rfl (hop coreId exitCode)
  | exitGoOn coreId =>
      obtain ⟨x', hrun, hrest⟩ := exec_bind_eq_ok_iff.mp hstep
      obtain rfl := Except.ok.inj hrest
      exact sameCodes_threadExitGoOn hrun

/-! ## One step -/

/-- The events of a step tell what becomes of the exit codes, and with which code the waiters
are notified. -/
structure CodeStep (y : EndState) (events : List EndEvent) (y' : EndState) : Prop where
  stored : ∀ t, y'.exitCode t = lastCode t events (y.exitCode t)
  passed : ∀ t a waiter code b, events = a ++ .passed t waiter code :: b →
    code = lastCode t a (y.exitCode t)

namespace CodeStep

theorem of_same (h : SameCodes y.exits y'.exits) : CodeStep y [] y' where
  stored := h
  passed t a waiter code b hsplit := by
    have hlength := congrArg List.length hsplit
    simp at hlength

theorem single {event : EndEvent} (hstored : ∀ t, y'.exitCode t = event.codeOf t (y.exitCode t))
    (hevent : ∀ t waiter code, event ≠ .passed t waiter code) : CodeStep y [event] y' where
  stored := hstored
  passed t a waiter code b hsplit := by
    have hmem : EndEvent.passed t waiter code ∈ [event] := by
      rw [hsplit]
      exact List.mem_append_right a (List.mem_cons_self ..)
    exact absurd (List.mem_singleton.mp hmem).symm (hevent t waiter code)

theorem begun {cur : ℕ} {code : BitVec 32} (hself : threadSelf cores y.sched c = .ok cur)
    (hrun : threadExitBegin cores y.exits c code = .ok x') (t : ℕ) :
    (x'.resource t).exitCode = if cur = t then code else y.exitCode t := by
  unfold threadExitBegin at hrun
  rw [show threadSelf cores y.exits.kernel.sched c = .ok cur from hself] at hrun
  obtain rfl := Except.ok.inj hrun
  show ((Function.update y.exits.resource cur _) t).exitCode = _
  by_cases ht : cur = t
  · subst ht
    rw [Function.update_self, if_pos rfl]
  · rw [Function.update_of_ne (Ne.symm ht), if_neg ht]
    rfl

theorem running_eq {cur : ℕ} (hself : threadSelf cores y.sched c = .ok cur) :
    y.running c = [cur] := by
  unfold threadSelf cpuGetIndex at hself
  obtain ⟨cpu, hcpu, hself⟩ := exec_bind_eq_ok_iff.mp hself
  obtain ⟨-, -, hcpu⟩ := exec_bind_eq_ok_iff.mp hcpu
  obtain rfl := Except.ok.inj hcpu
  unfold EndState.running
  split at hself
  · cases hself
  · next heq =>
      obtain rfl := Except.ok.inj hself
      rw [heq]
      rfl

/-- The running thread exits since it was terminated. -/
theorem exiting {y₀ : EndState} (hcpu : y₀.sched.cpuArray = y.sched.cpuArray)
    (hcodes : SameCodes y.exits y₀.exits) (hrun : threadExitCode cores y₀ c 1 = .ok y') :
    CodeStep y (y.noticedBy c true) y' := by
  unfold threadExitCode at hrun
  obtain ⟨cur, hself, hrest⟩ := exec_bind_eq_ok_iff.mp hrun
  obtain ⟨x, hbegin, hrest⟩ := exec_bind_eq_ok_iff.mp hrest
  obtain rfl := Except.ok.inj hrest
  have hrunning : y.running c = [cur] := by
    rw [← running_eq hself, EndState.running, EndState.running, hcpu]
  have hevents : y.noticedBy c true = [.noticed cur] := by
    rw [EndState.noticedBy, if_pos rfl, hrunning]
    rfl
  rw [hevents]
  refine single (fun t => ?_) fun t waiter code => (nomatch ·)
  refine (begun hself hbegin t).trans ?_
  rw [show y₀.exitCode t = y.exitCode t from hcodes t]
  rfl

theorem notice {y₀ : EndState} {goOn : Exec EndState} {noticed : Bool}
    (hcpu : y₀.sched.cpuArray = y.sched.cpuArray) (hcodes : SameCodes y.exits y₀.exits)
    (hgoOn : ∀ y', goOn = .ok y' → SameCodes y.exits y'.exits)
    (hrun : noticeTerminated cores y₀ c goOn = .ok (noticed, y')) :
    CodeStep y (y.noticedBy c noticed) y' := by
  unfold noticeTerminated at hrun
  obtain ⟨terminated, -, hrest⟩ := exec_bind_eq_ok_iff.mp hrun
  split at hrest
  · obtain ⟨y₁, hexit, hrest⟩ := exec_bind_eq_ok_iff.mp hrest
    obtain ⟨rfl, rfl⟩ := Prod.mk.inj (Except.ok.inj hrest)
    exact exiting hcpu hcodes hexit
  · obtain ⟨y₁, hgone, hrest⟩ := exec_bind_eq_ok_iff.mp hrest
    obtain ⟨rfl, rfl⟩ := Prod.mk.inj (Except.ok.inj hrest)
    exact of_same (hgoOn y₁ hgone)

theorem reSched {noticed : Bool} (hrun : reSchedCheckCode cores y c = .ok (noticed, y')) :
    CodeStep y (y.noticedBy c noticed) y' := by
  unfold reSchedCheckCode at hrun
  obtain ⟨cur, -, hrest⟩ := exec_bind_eq_ok_iff.mp hrun
  split at hrest
  · obtain ⟨y₁, hexit, hrest⟩ := exec_bind_eq_ok_iff.mp hrest
    obtain ⟨rfl, rfl⟩ := Prod.mk.inj (Except.ok.inj hrest)
    refine exiting ?_ ?_ hexit
    · rfl
    · exact fun _ => rfl
  · obtain ⟨σ, -, hrest⟩ := exec_bind_eq_ok_iff.mp hrest
    obtain ⟨rfl, rfl⟩ := Prod.mk.inj (Except.ok.inj hrest)
    exact of_same fun _ => rfl

theorem terminate {code : BitVec 32} {err : NxError}
    (hrun : threadTerminateCode cores y t code = .ok (err, y')) :
    CodeStep y (if err = .eok then [.terminated t code] else []) y' := by
  unfold threadTerminateCode at hrun
  obtain ⟨⟨err', σ⟩, -, hrest⟩ := exec_bind_eq_ok_iff.mp hrun
  dsimp only at hrest
  split at hrest
  · next herr =>
      obtain ⟨rfl, rfl⟩ := Prod.mk.inj (Except.ok.inj hrest)
      rw [if_neg herr]
      exact of_same fun _ => rfl
  · obtain ⟨rfl, rfl⟩ := Prod.mk.inj (Except.ok.inj hrest)
    rw [if_pos rfl]
    refine single (fun u => ?_) fun t waiter code => (nomatch ·)
    show ((Function.update y.exits.resource t _) u).exitCode = if t = u then code else _
    by_cases hu : t = u
    · subst hu
      rw [Function.update_self, if_pos rfl]
    · rw [Function.update_of_ne (Ne.symm hu), if_neg hu]
      rfl

theorem exit {code : BitVec 32} (hrun : threadExitBegin cores y.exits c code = .ok x') :
    CodeStep y ((y.running c).map (.exited · code)) (y.withExits x') := by
  have hself : ∃ cur, threadSelf cores y.sched c = .ok cur := by
    obtain ⟨cur, hself, -⟩ := exec_bind_eq_ok_iff.mp hrun
    exact ⟨cur, hself⟩
  obtain ⟨cur, hself⟩ := hself
  rw [running_eq hself]
  exact single (begun hself hrun) fun t waiter code => (nomatch ·)

theorem lastCode_of_passed {events : List EndEvent}
    (hpassed : ∀ e ∈ events, ∃ t waiter code, e = .passed t waiter code) (t : ℕ)
    (code : BitVec 32) : lastCode t events code = code := by
  induction events with
  | nil => rfl
  | cons e events ih =>
      obtain ⟨u, waiter, code', rfl⟩ := hpassed e (List.mem_cons_self ..)
      exact ih fun e he => hpassed e (List.mem_cons_of_mem _ he)

theorem goOn {x' : ExitState} (hrun : threadExitGoOn cores y.exits c = .ok x') :
    CodeStep y (y.exitEvents x' (.exitGoOn c)) (y.withExits x') := by
  have hsame := sameCodes_threadExitGoOn hrun
  have hself : ∃ cur, threadSelf cores y.sched c = .ok cur := by
    obtain ⟨cur, hself, -⟩ := exec_bind_eq_ok_iff.mp hrun
    exact ⟨cur, hself⟩
  obtain ⟨cur, hself⟩ := hself
  simp only [EndState.exitEvents, running_eq hself, List.flatMap_singleton]
  by_cases hbegun : y.exits.exitPoint cur = .begun
  · rw [if_pos hbegun]
    unfold threadExitGoOn at hrun
    rw [show threadSelf cores y.exits.kernel.sched c = .ok cur from hself, exec_ok_bind,
      hbegun] at hrun
    obtain rfl := Except.ok.inj hrun
    have hcode : ∀ waiter ∈ (y.exits.kernel.semaphore (.thread cur)).semWaitList,
        ((threadExitNotifyCopy y.exits cur).resource waiter).waitExitCode = y.exitCode cur := by
      intro waiter hwaiter
      unfold threadExitNotifyCopy
      rw [copy_resource]
      simp only [if_pos hwaiter]
      rfl
    have hpassed : ∀ e ∈ (y.exits.kernel.semaphore (.thread cur)).semWaitList.map fun waiter =>
        EndEvent.passed cur waiter (((threadExitNotifyCopy y.exits cur).setExitPoint cur
          .copied).resource waiter).waitExitCode,
        ∃ waiter, e = .passed cur waiter (y.exitCode cur) := by
      intro e he
      obtain ⟨waiter, hwaiter, rfl⟩ := List.mem_map.mp he
      exact ⟨waiter, by rw [← hcode waiter hwaiter]; rfl⟩
    refine ⟨fun t => ?_, fun t a waiter code b hsplit => ?_⟩
    · rw [lastCode_of_passed fun e he => ?_]
      · exact hsame t
      · obtain ⟨waiter, rfl⟩ := hpassed e he
        exact ⟨_, _, _, rfl⟩
    · have hmem : EndEvent.passed t waiter code ∈ a ++ .passed t waiter code :: b :=
        List.mem_append_right a (List.mem_cons_self ..)
      rw [← hsplit] at hmem
      obtain ⟨waiter', heq⟩ := hpassed _ hmem
      obtain ⟨rfl, -, rfl⟩ := EndEvent.passed.inj heq
      rw [lastCode_of_passed fun e he => ?_]
      have hbefore : e ∈ a ++ .passed t waiter (y.exitCode t) :: b := List.mem_append_left _ he
      rw [← hsplit] at hbefore
      obtain ⟨waiter'', rfl⟩ := hpassed _ hbefore
      exact ⟨_, _, _, rfl⟩
  · rw [if_neg hbegun]
    exact of_same hsame

theorem of_endStep {op : EndOp} {events : List EndEvent}
    (hstep : endStep cores y op = .ok (events, y')) : CodeStep y events y' := by
  cases op with
  | exits op =>
      obtain ⟨⟨d, x⟩, hrun, hrest⟩ := exec_bind_eq_ok_iff.mp hstep
      obtain ⟨rfl, rfl⟩ := Prod.mk.inj (Except.ok.inj hrest)
      cases op with
      | exit coreId exitCode =>
          obtain ⟨x₁, hbegin, hrest⟩ := exec_bind_eq_ok_iff.mp hrun
          obtain ⟨rfl, rfl⟩ := Prod.mk.inj (Except.ok.inj hrest)
          exact exit hbegin
      | exitGoOn coreId =>
          obtain ⟨x₁, hgone, hrest⟩ := exec_bind_eq_ok_iff.mp hrun
          obtain ⟨rfl, rfl⟩ := Prod.mk.inj (Except.ok.inj hrest)
          exact goOn hgone
      | sched op => exact of_same (sameCodes_exitStep (fun _ _ hno => by cases hno) hrun)
      | append p t => exact of_same (sameCodes_exitStep (fun _ _ hno => by cases hno) hrun)
      | threadWait coreId t => exact of_same (sameCodes_exitStep (fun _ _ hno => by cases hno) hrun)
      | processWait coreId p =>
          exact of_same (sameCodes_exitStep (fun _ _ hno => by cases hno) hrun)
      | goOn coreId => exact of_same (sameCodes_exitStep (fun _ _ hno => by cases hno) hrun)
      | read coreId => exact of_same (sameCodes_exitStep (fun _ _ hno => by cases hno) hrun)
      | processExit coreId code =>
          exact of_same (sameCodes_exitStep (fun _ _ hno => by cases hno) hrun)
  | block coreId t =>
      obtain ⟨⟨err, σ⟩, -, hrest⟩ := exec_bind_eq_ok_iff.mp hstep
      obtain ⟨rfl, rfl⟩ := Prod.mk.inj (Except.ok.inj hrest)
      exact of_same fun _ => rfl
  | terminate t exitCode =>
      obtain ⟨⟨err, y₁⟩, hrun, hrest⟩ := exec_bind_eq_ok_iff.mp hstep
      obtain ⟨rfl, rfl⟩ := Prod.mk.inj (Except.ok.inj hrest)
      exact terminate hrun
  | blockReturn coreId =>
      obtain ⟨⟨noticed, y₁⟩, hrun, hrest⟩ := exec_bind_eq_ok_iff.mp hstep
      obtain ⟨rfl, rfl⟩ := Prod.mk.inj (Except.ok.inj hrest)
      refine notice rfl (fun _ => rfl) (fun y₂ hgone => ?_) hrun
      obtain rfl := Except.ok.inj hgone
      exact fun _ => rfl
  | irq coreId =>
      obtain ⟨⟨noticed, y₁⟩, hrun, hrest⟩ := exec_bind_eq_ok_iff.mp hstep
      obtain ⟨rfl, rfl⟩ := Prod.mk.inj (Except.ok.inj hrest)
      refine notice rfl (fun _ => rfl) (fun y₂ hgone => ?_) hrun
      obtain ⟨σ, -, hrest⟩ := exec_bind_eq_ok_iff.mp hgone
      obtain rfl := Except.ok.inj hrest
      exact fun _ => rfl
  | reSched coreId =>
      obtain ⟨⟨noticed, y₁⟩, hrun, hrest⟩ := exec_bind_eq_ok_iff.mp hstep
      obtain ⟨rfl, rfl⟩ := Prod.mk.inj (Except.ok.inj hrest)
      exact reSched hrun
  | sleepBegin coreId =>
      obtain ⟨⟨noticed, y₁⟩, hrun, hrest⟩ := exec_bind_eq_ok_iff.mp hstep
      obtain ⟨rfl, rfl⟩ := Prod.mk.inj (Except.ok.inj hrest)
      refine notice rfl (fun _ => rfl) (fun y₂ hgone => ?_) hrun
      obtain ⟨self, -, hrest⟩ := exec_bind_eq_ok_iff.mp hgone
      obtain ⟨⟨err, σ⟩, -, hrest⟩ := exec_bind_eq_ok_iff.mp hrest
      obtain rfl := Except.ok.inj hrest
      exact fun _ => rfl
  | sleepTimeout t =>
      obtain ⟨y₁, hrun, hrest⟩ := exec_bind_eq_ok_iff.mp hstep
      obtain ⟨rfl, rfl⟩ := Prod.mk.inj (Except.ok.inj hrest)
      obtain ⟨⟨err, σ⟩, -, hrest⟩ := exec_bind_eq_ok_iff.mp hrun
      obtain rfl := Except.ok.inj hrest
      exact of_same fun _ => rfl
  | sleepEnd coreId =>
      obtain ⟨⟨noticed, y₁⟩, hrun, hrest⟩ := exec_bind_eq_ok_iff.mp hstep
      obtain ⟨rfl, rfl⟩ := Prod.mk.inj (Except.ok.inj hrest)
      obtain ⟨self, -, hrun⟩ := exec_bind_eq_ok_iff.mp hrun
      split at hrun
      · refine notice ?_ ?_ (fun y₂ hgone => ?_) hrun
        · rfl
        · exact fun _ => rfl
        · obtain rfl := Except.ok.inj hgone
          exact fun _ => rfl
      · obtain ⟨rfl, rfl⟩ := Prod.mk.inj (Except.ok.inj hrun)
        exact of_same fun _ => rfl

end CodeStep

/-! ## Every run -/

theorem lastCode_append (t : ℕ) (a b : List EndEvent) (code : BitVec 32) :
    lastCode t (a ++ b) code = lastCode t b (lastCode t a code) :=
  List.foldl_append ..

theorem EndRun.codes {r : EndRun} {σ : Scheduler}
    (hreach : Reachable (EndMove cores) (endStart σ) r) :
    (∀ t, r.state.exitCode t = lastCode t r.history 0) ∧
    ∀ t a waiter code b, r.history = a ++ .passed t waiter code :: b →
      code = lastCode t a 0 := by
  refine hreach.invariant (P := fun r => (∀ t, r.state.exitCode t = lastCode t r.history 0) ∧
    ∀ t a waiter code b, r.history = a ++ .passed t waiter code :: b → code = lastCode t a 0)
    ⟨fun t => rfl, fun t a waiter code b hsplit => ?_⟩ fun hinv hmove => ?_
  · cases a <;> cases hsplit
  · obtain ⟨hstored, hpassed⟩ := hinv
    obtain ⟨-, events, hstep, hhistory⟩ := hmove
    obtain ⟨hstored', hpassed'⟩ := CodeStep.of_endStep hstep
    rw [hhistory]
    refine ⟨fun t => ?_, fun t a waiter code b hsplit => ?_⟩
    · rw [hstored', lastCode_append, hstored]
    · rcases List.append_eq_append_iff.mp hsplit with ⟨a', rfl, hevents⟩ | ⟨b', hbefore, hrest⟩
      · rw [lastCode_append, ← hstored]
        exact hpassed' t a' waiter code b hevents
      · cases b' with
        | nil =>
            rw [List.append_nil] at hbefore
            rw [← hbefore, ← hstored]
            exact hpassed' t [] waiter code b hrest.symm
        | cons e b' =>
            obtain ⟨rfl, -⟩ := List.cons.inj hrest
            exact hpassed t a waiter code b' hbefore

/-- A thread was terminated with a code, and later exits since it was terminated.  It ends
with this code, and all its waiters get it, if and only if the last code that was written
after it noticed is this one, and so it was before each notification of a waiter.  The code
that is written when the thread notices is `1`. -/
theorem endReachable_code_iff (cores : ℕ) (σ : Scheduler) (r : EndRun)
    (hreach : Reachable (EndMove cores) (endStart σ) r) (t : ℕ) (exitCode : BitVec 32)
    (before mid after : List EndEvent)
    (hhistory : r.history = before ++ .terminated t exitCode :: (mid ++ .noticed t :: after)) :
    (r.state.exitCode t = exitCode ∧
      ∀ waiter code, .passed t waiter code ∈ after → code = exitCode) ↔
    lastCode t after 1 = exitCode ∧
      ∀ a waiter code b, after = a ++ .passed t waiter code :: b →
        lastCode t a 1 = exitCode := by
  obtain ⟨hstored, hpassed⟩ := EndRun.codes hreach
  have hsince : ∀ a, lastCode t (before ++ .terminated t exitCode :: (mid ++ .noticed t :: a)) 0 =
      lastCode t a 1 := by
    intro a
    rw [lastCode_append]
    show lastCode t (mid ++ .noticed t :: a) _ = _
    rw [lastCode_append]
    show lastCode t a (if t = t then 1 else _) = _
    rw [if_pos rfl]
  have hcode : ∀ a waiter code b, after = a ++ .passed t waiter code :: b →
      code = lastCode t a 1 := by
    intro a waiter code b hsplit
    rw [← hsince]
    refine hpassed t _ waiter code b ?_
    rw [hhistory, hsplit]
    simp
  rw [hstored, hhistory, hsince]
  refine and_congr_right fun _ => ⟨fun h a waiter code b hsplit => ?_,
    fun h waiter code hmem => ?_⟩
  · rw [← hcode a waiter code b hsplit]
    refine h waiter code ?_
    rw [hsplit]
    exact List.mem_append_right a (List.mem_cons_self ..)
  · obtain ⟨a, b, hsplit⟩ := List.append_of_mem hmem
    rw [hcode a waiter code b hsplit]
    exact h a waiter code b hsplit

/-! ## Runs that can be computed -/

instance (op : SchedOp) : Decidable op.Plain :=
  match op with
  | .block .. => .isFalse id
  | .terminate _ => .isFalse id
  | .irq _ => .isFalse id
  | .reSched _ => .isFalse id
  | .exit _ => .isFalse id
  | .create .. => .isTrue trivial
  | .setAffinity .. => .isTrue trivial
  | .start _ => .isTrue trivial
  | .enterCore => .isTrue trivial
  | .toFirst _ => .isTrue trivial
  | .yield _ => .isTrue trivial
  | .unblock _ => .isTrue trivial

instance (y : EndState) (op : EndOp) : Decidable (op.Allowed y) :=
  match op with
  | .exits (.sched op) => inferInstanceAs (Decidable op.Plain)
  | .exits (.goOn coreId) => inferInstanceAs (Decidable (∀ cur ∈ y.running coreId,
      (y.exits.kernel.point cur).isAsleep = true → (y.sched.thread cur).isTerminated = false))
  | .exits (.append ..) => .isTrue trivial
  | .exits (.threadWait ..) => .isTrue trivial
  | .exits (.processWait ..) => .isTrue trivial
  | .exits (.read _) => .isTrue trivial
  | .exits (.processExit ..) => .isTrue trivial
  | .exits (.exit ..) => .isTrue trivial
  | .exits (.exitGoOn _) => .isTrue trivial
  | .block .. => .isTrue trivial
  | .terminate .. => .isTrue trivial
  | .blockReturn _ => .isTrue trivial
  | .irq _ => .isTrue trivial
  | .reSched _ => .isTrue trivial
  | .sleepBegin _ => .isTrue trivial
  | .sleepTimeout _ => .isTrue trivial
  | .sleepEnd _ => .isTrue trivial

def endStepWhen (r : EndRun) (op : EndOp) : Option EndRun :=
  if op.Allowed r.state then
    (endStep 1 r.state op).toOption.map fun (events, y) => ⟨y, r.history ++ events⟩
  else none

/-- After the boot of one core thread `6` waits for thread `5`, which runs. -/
def performEnd (ops : List EndOp) : Option EndRun :=
  (threadInitIdle 1 (· + 1) 1).toOption.bind fun σ =>
    perform endStepWhen (endStart σ) ([.exits (.sched (.toFirst 0)),
      .exits (.sched (.create 6 3)), .exits (.sched (.start 6)), .exits (.sched (.create 5 3)),
      .exits (.sched (.start 5)), .exits (.sched (.yield 0)), .exits (.threadWait 0 5),
      .exits (.goOn 0)] ++ ops)

theorem reachable_of_performEnd {ops : List EndOp} {r : EndRun} (h : performEnd ops = some r) :
    ∃ start, Reachable (EndMove 1) (endStart start) r := by
  obtain ⟨start, -, hrun⟩ := Option.bind_eq_some_iff.mp h
  refine ⟨start, .of_perform (fun {r op r'} hstep => ?_) hrun⟩
  unfold endStepWhen at hstep
  split at hstep
  · next hallowed =>
      obtain ⟨⟨events, y⟩, heval, rfl⟩ := Option.map_eq_some_iff.mp hstep
      exact ⟨hallowed, events, toOption_eq_some heval, rfl⟩
  · cases hstep

/-- Thread `5` sleeps, is terminated with `1`, and notices after its sleep. -/
theorem endReachable_code_iff_one :
    ∃ start r, Reachable (EndMove 1) (endStart start) r ∧
      r.history = [.terminated 5 1, .noticed 5, .passed 5 6 1] ∧ r.state.exitCode 5 = 1 := by
  have heval : (performEnd [.sleepBegin 0, .terminate 5 1, .exits (.sched (.yield 0)),
      .blockReturn 0, .exits (.exitGoOn 0)]).map (·.history) =
      some [.terminated 5 1, .noticed 5, .passed 5 6 1] := by
    decide +kernel
  obtain ⟨r, hrun, hhistory⟩ := Option.map_eq_some_iff.mp heval
  obtain ⟨start, hreach⟩ := reachable_of_performEnd hrun
  have hcode := (endReachable_code_iff 1 start r hreach 5 1 [] [] [.passed 5 6 1] hhistory).mpr
    ⟨rfl, fun a waiter code b hsplit => by
      cases a with
      | nil => rfl
      | cons e a =>
          have hlength := congrArg List.length hsplit
          simp at hlength⟩
  exact ⟨start, r, hreach, hhistory, hcode.1⟩

/-- A thread is terminated with `7` while it runs, or while it sleeps.  It ends with `1`, and
its waiter gets `1`. -/
theorem threadTerminate_losesCode :
    (∃ start r, Reachable (EndMove 1) (endStart start) r ∧
      r.history = [.terminated 5 7, .noticed 5, .passed 5 6 1] ∧ r.state.exitCode 5 ≠ 7) ∧
    ∃ start r, Reachable (EndMove 1) (endStart start) r ∧
      r.history = [.terminated 5 7, .noticed 5, .passed 5 6 1] ∧ r.state.exitCode 5 ≠ 7 := by
  constructor
  · have heval : (performEnd [.terminate 5 7, .irq 0, .exits (.exitGoOn 0)]).map (fun r =>
        decide (r.history = [.terminated 5 7, .noticed 5, .passed 5 6 1] ∧
          r.state.exitCode 5 ≠ 7)) = some true := by
      decide +kernel
    obtain ⟨r, hrun, hr⟩ := Option.map_eq_some_iff.mp heval
    obtain ⟨start, hreach⟩ := reachable_of_performEnd hrun
    exact ⟨start, r, hreach, of_decide_eq_true hr⟩
  · have heval : (performEnd [.sleepBegin 0, .terminate 5 7, .exits (.sched (.yield 0)),
        .blockReturn 0, .exits (.exitGoOn 0)]).map (fun r =>
        decide (r.history = [.terminated 5 7, .noticed 5, .passed 5 6 1] ∧
          r.state.exitCode 5 ≠ 7)) = some true := by
      decide +kernel
    obtain ⟨r, hrun, hr⟩ := Option.map_eq_some_iff.mp heval
    obtain ⟨start, hreach⟩ := reachable_of_performEnd hrun
    exact ⟨start, r, hreach, of_decide_eq_true hr⟩

end Nxos.Sched
