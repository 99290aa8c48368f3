import Mathlib.Logic.Function.Basic
import Nxos.Base.Kernel

/-!
# Timers

The embedding of `time/timer.c`.  A timer is named by its address, the null pointer
is `0`, and what lies at an address is a timer only while it is live: from
`NX_TimerInit` until it is freed.  The handler of a client is any function of the
timer and of the rest of the kernel; it runs with `timersLock` held, so it calls none
of the functions below.

`NX_TimerRemove` and `NX_TimerGo` look for the next timeout on the list.  When no
timer of the list is late enough they read the field from where the head of the list
lies; what they find there is an argument of the model.

The state keeps a history of the calls and of what they did.  No function reads it.
-/

namespace Nxos.Time

/-! ## Ticks -/

/-- `NX_ClockTick`. -/
abbrev ClockTick := BitVec 64

/-- `NX_TICKS_PER_SECOND`, as every platform configures it. -/
def ticksPerSecond : BitVec 64 := 100

/-- `NX_TICKS_PER_MILLISECOND`. -/
def ticksPerMillisecond : BitVec 64 := 1000 / ticksPerSecond

/-- `NX_MILLISECOND_TO_TICKS`. -/
def millisecondToTicks (msec : BitVec 64) : ClockTick := msec / ticksPerMillisecond

/-- `NX_MAX_TIMER_TIMEOUT` -/
def maxTimerTimeout : BitVec 64 := 24 * 24 * 60 * 60 * 1000

/-- `NX_IDLE_TIMER_TIMEOUT_TICKS` -/
def idleTimerTimeoutTicks : ClockTick := maxTimerTimeout / (1000 / ticksPerSecond)

/-! ## Data -/

/-- `NX_TIMER_ONESHOT` -/
def timerOneshot : BitVec 32 := 0x01

/-- `NX_TIMER_PERIOD` -/
def timerPeriod : BitVec 32 := 0x02

/-- `NX_TIMER_DYNAMIC` -/
def timerDynamic : BitVec 32 := 0x08

/-- `enum NX_TimerState`. -/
inductive TimerState where
  | inited
  | waiting
  | processing
  | stopped
  deriving DecidableEq, Repr

/-- A handler with its argument: the handler of the idle timer, or one of a client. -/
inductive TimerHandler (κ : Type) where
  | idleTimerHandler
  | client (k : κ)

/-- `NX_Timer`, without its list node. -/
structure Timer (κ : Type) where
  state : TimerState
  timeout : ClockTick
  timeTicks : ClockTick
  flags : BitVec 32
  handler : TimerHandler κ

/-- `timer->flags & NX_TIMER_PERIOD` -/
def Timer.IsPeriod {κ : Type} (t : Timer κ) : Prop := t.flags &&& timerPeriod ≠ 0

instance {κ : Type} (t : Timer κ) : Decidable t.IsPeriod :=
  inferInstanceAs (Decidable (_ ≠ _))

/-- `timer->state = state` -/
def Timer.setState {κ : Type} (t : Timer κ) (state : TimerState) : Timer κ :=
  { t with state := state }

/-- `timer->timeout = timeout` -/
def Timer.setTimeout {κ : Type} (t : Timer κ) (timeout : ClockTick) : Timer κ :=
  { t with timeout := timeout }

/-- `timer->flags = flags` -/
def Timer.setFlags {κ : Type} (t : Timer κ) (flags : BitVec 32) : Timer κ :=
  { t with flags := flags }

inductive TimerEvent where
  /-- `NX_TimerStart` returned. -/
  | start (p : ℕ) (err : NxError)
  /-- `NX_TimerStop` returned. -/
  | stop (p : ℕ) (err : NxError)
  /-- `NX_TimerGo` counted a tick. -/
  | tick
  /-- `NX_TimerGo` called the handler of a timer with this period and these flags, and it
  answered `again`. -/
  | invoke (p : ℕ) (timeTicks : ClockTick) (flags : BitVec 32) (again : Bool)
  /-- `nextTimeoutTicks` was read from the list head. -/
  | headRead
  deriving DecidableEq

/-- The variables of `timer.c` and the memory of the timers. -/
structure Timers (κ : Type) where
  timer : ℕ → Timer κ
  live : ℕ → Bool
  timerList : List ℕ
  timerTicks : ClockTick
  nextTimeoutTicks : ClockTick
  history : List TimerEvent

/-- `&idleTimer` -/
def idleTimer : ℕ := 1

section Functions

variable {κ ω : Type}

def Timers.write (σ : Timers κ) (p : ℕ) (t : Timer κ) : Timers κ :=
  { σ with timer := Function.update σ.timer p t }

def Timers.log (σ : Timers κ) (e : TimerEvent) : Timers κ :=
  { σ with history := σ.history ++ [e] }

/-- `NX_MemFree` of a timer. -/
def Timers.memFree (σ : Timers κ) (p : ℕ) : Timers κ :=
  { σ with live := Function.update σ.live p false }

/-! ## Creation -/

/-- `NX_TimerInit`. -/
def timerInit (σ : Timers κ) (p : ℕ) (milliseconds : BitVec 64)
    (handler : Option (TimerHandler κ)) (flags : BitVec 32) : NxError × Timers κ :=
  match handler with
  | none => (.einval, σ)
  | some handler =>
      if p = 0 ∨ milliseconds = 0 ∨ flags = 0 then (.einval, σ)
      else if flags &&& (timerOneshot ||| timerPeriod) = 0 ∨ flags &&& timerDynamic ≠ 0 then
        (.einval, σ)
      else
        (.eok, { σ.write p
          { state := .inited
            timeout := 0
            timeTicks := millisecondToTicks milliseconds
            flags := flags
            handler := handler } with
          live := Function.update σ.live p true })

/-- `NX_TimerCreate`, where `NX_MemAlloc` returns `p`. -/
def timerCreate (σ : Timers κ) (p : ℕ) (milliseconds : BitVec 64)
    (handler : Option (TimerHandler κ)) (flags : BitVec 32) : ℕ × Timers κ :=
  if p = 0 then (0, σ)
  else
    let r := timerInit σ p milliseconds handler flags
    if r.1 = .eok then
      let t := r.2.timer p
      (p, r.2.write p (t.setFlags (t.flags ||| timerDynamic)))
    else (0, r.2.memFree p)

/-! ## The list -/

def Timers.firstLater (σ : Timers κ) : Option ℕ :=
  σ.timerList.find? fun p => σ.timerTicks < (σ.timer p).timeout

/-- Find the next timeout: the loop that ends `NX_TimerGo` and the removal of a timer.
The value `beyond` lies where a timer at the list head would have its timeout. -/
def Timers.findNext (σ : Timers κ) (beyond : ClockTick) : Timers κ :=
  match σ.firstLater with
  | some next => { σ with nextTimeoutTicks := (σ.timer next).timeout }
  | none => { σ.log .headRead with nextTimeoutTicks := beyond }

/-- `NX_TimerRemove`. -/
def timerRemove (σ : Timers κ) (p : ℕ) (onTimerList destroy : Bool) (beyond : ClockTick) :
    Timers κ :=
  let σ :=
    if onTimerList then { σ with timerList := σ.timerList.erase p }.findNext beyond else σ
  if destroy && decide ((σ.timer p).flags &&& timerDynamic ≠ 0) then σ.memFree p else σ

/-- `NX_TimerDestroy`. -/
def timerDestroy (σ : Timers κ) (p : ℕ) (beyond : ClockTick) : NxError × Timers κ :=
  if p = 0 then (.einval, σ)
  else
    match (σ.timer p).state with
    | .waiting => (.eagain, σ)
    | .processing => (.eagain, σ)
    | .stopped => (.eok, timerRemove σ p false true beyond)
    | .inited => (.eok, timerRemove σ p false true beyond)

/-- The loop over the list from its end that inserts `p` after the last timer whose
timeout is not later. -/
def insertAfterNearly (timeout : ℕ → ClockTick) (p : ℕ) : List ℕ → Option (List ℕ)
  | [] => none
  | prev :: rest =>
      match insertAfterNearly timeout p rest with
      | some rest => some (prev :: rest)
      | none => if timeout prev ≤ timeout p then some (prev :: p :: rest) else none

def Timers.insert (σ : Timers κ) (p : ℕ) : Timers κ :=
  let timeout := fun q => (σ.timer q).timeout
  match σ.timerList with
  | [] => { σ with timerList := [p], nextTimeoutTicks := timeout p }
  | first :: rest =>
      if timeout p < timeout first then
        { σ with timerList := p :: first :: rest, nextTimeoutTicks := timeout p }
      else
        { σ with
          timerList := (insertAfterNearly timeout p (first :: rest)).getD (first :: rest) }

/-- The locked section of `NX_TimerStart`.  The timeout is written before the checks. -/
def timerStartLocked (σ : Timers κ) (p : ℕ) : NxError × Timers κ :=
  let t := (σ.timer p).setTimeout ((σ.timer p).timeTicks + σ.timerTicks)
  let σ := σ.write p t
  if idleTimerTimeoutTicks - t.timeTicks < σ.timerTicks then (.einval, σ)
  else if p ∈ σ.timerList then (.eagain, σ)
  else (.eok, (σ.write p (t.setState .waiting)).insert p)

/-- `NX_TimerStart`. -/
def timerStart (σ : Timers κ) (p : ℕ) : NxError × Timers κ :=
  let r := if p = 0 then (.einval, σ) else timerStartLocked σ p
  (r.1, r.2.log (.start p r.1))

/-- `NX_TimerStopUnlocked`. -/
def timerStopUnlocked (σ : Timers κ) (p : ℕ) (beyond : ClockTick) : NxError × Timers κ :=
  if p = 0 then (.einval, σ)
  else
    let stopped := σ.write p ((σ.timer p).setState .stopped)
    match (σ.timer p).state with
    | .processing => (.eok, stopped)
    | .waiting => (.eok, timerRemove stopped p true false beyond)
    | .inited => (.eagain, σ)
    | .stopped => (.eagain, σ)

/-- `NX_TimerStop`. -/
def timerStop (σ : Timers κ) (p : ℕ) (beyond : ClockTick) : NxError × Timers κ :=
  let r := timerStopUnlocked σ p beyond
  (r.1, r.2.log (.stop p r.1))

/-! ## Ticks -/

/-- `idleTimerHandler`: the tick count and every timeout on the list go back by the
timeout of the idle timer. -/
def idleTimerHandler (σ : Timers κ) : Timers κ :=
  let delta := (σ.timer idleTimer).timeout
  { σ with
    timerTicks := σ.timerTicks - delta
    timer := fun p =>
      if p ∈ σ.timerList then (σ.timer p).setTimeout ((σ.timer p).timeout - delta)
      else σ.timer p }

/-- Call the handler of a timer.  A handler of a client sees the rest of the kernel. -/
def callHandler (call : ℕ → κ → ω → Bool × ω) (σ : Timers κ) (w : ω) (p : ℕ) :
    Bool × Timers κ × ω :=
  let r :=
    match (σ.timer p).handler with
    | .idleTimerHandler => (true, idleTimerHandler σ, w)
    | .client k => ((call p k w).1, σ, (call p k w).2)
  (r.1, r.2.1.log (.invoke p (σ.timer p).timeTicks (σ.timer p).flags r.1), r.2.2)

/-- What `NX_TimerInvoke` does after the handler returned. -/
def finishInvoke (σ : Timers κ) (p : ℕ) (again : Bool) (beyond : ClockTick) : Timers κ :=
  let t := σ.timer p
  if again = false ∧ t.IsPeriod then
    timerRemove (σ.write p (t.setState .stopped)) p true true beyond
  else if t.state = .stopped then timerRemove σ p true true beyond
  else if t.IsPeriod then
    σ.write p ((t.setTimeout (σ.timerTicks + t.timeTicks)).setState .waiting)
  else timerRemove (σ.write p (t.setState .stopped)) p true true beyond

/-- `NX_TimerInvoke`. -/
def timerInvoke (call : ℕ → κ → ω → Bool × ω) (beyond : ClockTick) (σ : Timers κ) (w : ω)
    (p : ℕ) : Timers κ × ω :=
  let σ := σ.write p ((σ.timer p).setState .processing)
  let r := callHandler call σ w p
  (finishInvoke r.2.1 p r.1 beyond, r.2.2)

/-- The loop of `NX_TimerGo` over the timers that have timed out.  An invocation takes
at most its own timer off the list, so the loop runs over the list as it was. -/
def expire (call : ℕ → κ → ω → Bool × ω) (beyond : ClockTick) (σ : Timers κ) (w : ω) :
    List ℕ → Timers κ × ω
  | [] => (σ, w)
  | p :: rest =>
      if σ.timerTicks < (σ.timer p).timeout then (σ, w)
      else
        let r := timerInvoke call beyond σ w p
        expire call beyond r.1 r.2 rest

/-- `NX_TimerGo`. -/
def timerGo (call : ℕ → κ → ω → Bool × ω) (beyond : ClockTick) (σ : Timers κ) (w : ω) :
    Timers κ × ω :=
  let σ := { σ with timerTicks := σ.timerTicks + 1 }.log .tick
  if σ.timerTicks < σ.nextTimeoutTicks then (σ, w)
  else
    let r := expire call beyond σ w σ.timerList
    (r.1.findNext beyond, r.2)

/-- The variables before `NX_TimersInit`, with any memory. -/
def timersZero (mem : ℕ → Timer κ) : Timers κ where
  timer := mem
  live := fun _ => false
  timerList := []
  timerTicks := 0
  nextTimeoutTicks := 0
  history := []

/-- `NX_TimersInit`. -/
def timersInit (mem : ℕ → Timer κ) : Exec (Timers κ) := do
  let (err, σ) := timerInit (timersZero mem) idleTimer maxTimerTimeout
    (some .idleTimerHandler) 1
  nxAssert (err = .eok)
  let (err, σ) := timerStart σ idleTimer
  nxAssert (err = .eok)
  return σ

end Functions

/-! ## Clients -/

section Clients

variable {κ : Type}

/-- A call from outside `timer.c`.  A tick comes with the answers of the handlers. -/
inductive TimerOp (κ : Type) where
  | init (p : ℕ) (milliseconds : BitVec 64) (handler : Option κ) (flags : BitVec 32)
  | create (p : ℕ) (milliseconds : BitVec 64) (handler : Option κ) (flags : BitVec 32)
  | destroy (p : ℕ)
  | start (p : ℕ)
  | stop (p : ℕ)
  | go (answer : ℕ → Bool)

def timerStep (σ : Timers κ) (beyond : ClockTick) : TimerOp κ → Timers κ
  | .init p milliseconds handler flags =>
      (timerInit σ p milliseconds (handler.map .client) flags).2
  | .create p milliseconds handler flags =>
      (timerCreate σ p milliseconds (handler.map .client) flags).2
  | .destroy p => (timerDestroy σ p beyond).2
  | .start p => (timerStart σ p).2
  | .stop p => (timerStop σ p beyond).2
  | .go answer => (timerGo (fun p _ w => (answer p, w)) beyond σ ()).1

/-- What the callers promise: memory is initialised as a timer while no timer that is
on the list lies there, `NX_MemAlloc` returns memory that is not in use, and only live
timers are passed on.  The idle timer is private to `timer.c`. -/
def TimerOp.Allowed (σ : Timers κ) : TimerOp κ → Prop
  | .init p _ _ _ => p ≠ idleTimer ∧ p ∉ σ.timerList
  | .create p _ _ _ => p ≠ idleTimer ∧ σ.live p = false
  | .destroy p => p ≠ idleTimer ∧ (p = 0 ∨ σ.live p = true)
  | .start p => p ≠ idleTimer ∧ (p = 0 ∨ σ.live p = true)
  | .stop p => p ≠ idleTimer ∧ (p = 0 ∨ σ.live p = true)
  | .go _ => True

def TimerMove (σ : Timers κ) (op : TimerOp κ) (τ : Timers κ) : Prop :=
  op.Allowed σ ∧ ∃ beyond, τ = timerStep σ beyond op

end Clients

end Nxos.Time
