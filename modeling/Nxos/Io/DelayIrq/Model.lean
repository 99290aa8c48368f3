import Mathlib.Logic.Function.Basic
import Nxos.Base.Kernel

/-!
# Deferred interrupt work

The embedding of `io/delay_irq.c` on one core with nested interrupts.  The stack holds what is
being executed: interrupt handlers, the calls of `NX_IRQ_DelayWorkHandle` and the checks on their
way out, each interrupted by the one above it.  Reads and writes of a flag word, of the event word
and of the interrupt state are single steps.

The last three fields of the state record requests and calls; they are not part of the source.
-/

namespace Nxos.Io

/-! ## Data -/

/-- `NX_IRQ_QUEUE_NR` -/
def irqQueueNr : ℕ := 5

/-- `NX_IRQ_DELAY_WORK_CHECK_TIMES` -/
def irqDelayWorkCheckTimes : ℕ := 5

/-- `NX_IRQ_WORK_NOREENTER` -/
def irqWorkNoreenter : BitVec 32 := 0x01

/-- `NX_IRQ_WORK_PENDING` -/
def irqWorkPending : BitVec 32 := 0x80000000

/-- `NX_IRQ_WORK_ON_QUEUED` -/
def irqWorkOnQueued : BitVec 32 := 0x40000000

/-- `NX_IRQ_DelayWork`, without its list node, handler and argument. -/
structure DelayWork where
  flags : BitVec 32
  queue : ℕ
  deriving DecidableEq

def DelayWork.Has (work : DelayWork) (flag : BitVec 32) : Prop := work.flags &&& flag ≠ 0

instance (work : DelayWork) (flag : BitVec 32) : Decidable (work.Has flag) :=
  inferInstanceAs (Decidable (_ ≠ _))

def HasQueue (event : BitVec 32) (queue : ℕ) : Prop := event &&& ((1 : BitVec 32) <<< queue) ≠ 0

instance (event : BitVec 32) (queue : ℕ) : Decidable (HasQueue event queue) :=
  inferInstanceAs (Decidable (_ ≠ _))

/-- The variables of `NX_IRQ_DelayQueueCheck` in its scan: `checkTimes`, `irqEvent`, `i`, and
the place of `work` on its list. -/
structure Scan where
  times : ℕ
  event : BitVec 32
  queue : ℕ
  index : ℕ
  deriving DecidableEq

def Scan.nextQueue (p : Scan) : Scan := { p with queue := p.queue + 1, index := 0 }

def Scan.nextWork (p : Scan) : Scan := { p with index := p.index + 1 }

/-- Where a scan is in `IRQ_DelayWorkCheck`. -/
inductive ScanPoint (ω : Type) where
  /-- At the conditions of the loops. -/
  | next
  /-- Before the test for the pending flag. -/
  | test (w : ω)
  /-- Before the read, and before the write, of `work->flags &= ~NX_IRQ_WORK_PENDING`. -/
  | read (w : ω)
  | write (w : ω) (flags : BitVec 32)
  /-- Before `NX_IRQ_Enable` and its test. -/
  | enable (w : ω)
  | call (w : ω)
  /-- In the handler of the work. -/
  | running (w : ω)
  /-- Before `NX_IRQ_Disable` and its test. -/
  | disable (w : ω)
  deriving DecidableEq

/-- What is being executed. -/
inductive IrqPoint (ω : Type) where
  /-- An interrupt handler. -/
  | handler
  /-- In `NX_IRQ_DelayWorkHandle`, before `IRQ_DelayEventSet`. -/
  | handleSet (w : ω)
  /-- Before the read, and before the write, of `work->flags |= NX_IRQ_WORK_PENDING`. -/
  | handleRead (w : ω)
  | handleWrite (w : ω) (flags : BitVec 32)
  /-- In `NX_IRQ_DelayQueueCheck`, before the test of `checkTimes` and `IRQ_DelayEventGet`. -/
  | checkGet (times : ℕ)
  /-- Before `IRQ_DelayEventClear`. -/
  | checkClear (times : ℕ) (event : BitVec 32)
  /-- Before the test of `irqEvent`. -/
  | checkTest (times : ℕ) (event : BitVec 32)
  | scan (p : Scan) (point : ScanPoint ω)
  deriving DecidableEq

/-- The works and their lists, the event word, the interrupt state and what is being executed, the
latest first.  A work is owed a call of its handler when it was requested since the last one. -/
structure DelayIrq (ω : Type) where
  event : BitVec 32
  work : ω → DelayWork
  list : ℕ → List ω
  irqOn : Bool
  stack : List (IrqPoint ω)
  owed : ω → Bool
  clears : ω → ℕ
  entries : ω → ℕ

variable {ω : Type}

/-- `NX_IRQ_DelayWorkInit` -/
def delayWorkInit (work : DelayWork) (flags : BitVec 32) : DelayWork :=
  { work with flags := flags &&& ~~~irqWorkNoreenter }

/-- The works are initialised, some of them with `NX_IRQ_WORK_NOREENTER`, and
`NX_IRQ_DelayQueueInit` was called. -/
def DelayIrq.new (raw : ω → DelayWork) (noreenter : ω → Bool) : DelayIrq ω where
  event := 0
  work w := delayWorkInit (raw w) (if noreenter w then irqWorkNoreenter else 0)
  list _ := []
  irqOn := false
  stack := []
  owed _ := false
  clears _ := 0
  entries _ := 0

/-! ## Steps -/

section Steps

variable [DecidableEq ω]

def DelayIrq.setFlags (s : DelayIrq ω) (w : ω) (flags : BitVec 32) : DelayIrq ω :=
  { s with work := Function.update s.work w { s.work w with flags := flags } }

def DelayIrq.leave (s : DelayIrq ω) (rest : List (IrqPoint ω)) : DelayIrq ω :=
  { s with stack := rest, irqOn := true }

/-- `NX_IRQ_DelayQueueEnter` of a work on no other queue. -/
def DelayIrq.queueEnter (s : DelayIrq ω) (queue : ℕ) (w : ω) : DelayIrq ω :=
  if irqQueueNr ≤ queue ∨ w ∈ s.list queue then s
  else
    { s with
      work := Function.update s.work w ⟨(s.work w).flags ||| irqWorkOnQueued, queue⟩
      list := Function.update s.list queue (s.list queue ++ [w]) }

/-- The start of `NX_IRQ_DelayWorkHandle`. -/
def DelayIrq.workHandle (s : DelayIrq ω) (w : ω) : DelayIrq ω :=
  if ¬(s.work w).Has irqWorkOnQueued ∨ irqQueueNr ≤ (s.work w).queue then s
  else { s with stack := .handleSet w :: s.stack }

def scanGoOn (s : DelayIrq ω) (rest : List (IrqPoint ω)) (p : Scan) :
    ScanPoint ω → DelayIrq ω
  | .next =>
      if irqQueueNr ≤ p.queue then { s with stack := .checkGet p.times :: rest, irqOn := false }
      else if ¬HasQueue p.event p.queue then { s with stack := .scan p.nextQueue .next :: rest }
      else
        match (s.list p.queue)[p.index]? with
        | none => { s with stack := .scan p.nextQueue .next :: rest }
        | some w => { s with stack := .scan p (.test w) :: rest }
  | .test w =>
      if (s.work w).Has irqWorkPending then { s with stack := .scan p (.read w) :: rest }
      else { s with stack := .scan p.nextWork .next :: rest }
  | .read w => { s with stack := .scan p (.write w (s.work w).flags) :: rest }
  | .write w flags =>
      { s.setFlags w (flags &&& ~~~irqWorkPending) with
        stack := .scan p (.enable w) :: rest
        clears := Function.update s.clears w (s.clears w + 1) }
  | .enable w =>
      { s with
        stack := .scan p (.call w) :: rest
        irqOn := if (s.work w).Has irqWorkNoreenter then s.irqOn else true }
  | .call w =>
      { s with
        stack := .scan p (.running w) :: rest
        entries := Function.update s.entries w (s.entries w + 1)
        owed := Function.update s.owed w false }
  | .running w => { s with stack := .scan p (.disable w) :: rest }
  | .disable w =>
      { s with
        stack := .scan p.nextWork .next :: rest
        irqOn := if (s.work w).Has irqWorkNoreenter then s.irqOn else false }

/-- The next step of `NX_IRQ_DelayWorkHandle` or `NX_IRQ_DelayQueueCheck`. -/
def irqGoOn (s : DelayIrq ω) (rest : List (IrqPoint ω)) : IrqPoint ω → Option (DelayIrq ω)
  | .handler => none
  | .handleSet w =>
      some { s with
        event := s.event ||| ((1 : BitVec 32) <<< (s.work w).queue)
        stack := .handleRead w :: rest }
  | .handleRead w => some { s with stack := .handleWrite w (s.work w).flags :: rest }
  | .handleWrite w flags =>
      some { s.setFlags w (flags ||| irqWorkPending) with
        stack := rest
        owed := Function.update s.owed w true }
  | .checkGet 0 => some (s.leave rest)
  | .checkGet (times + 1) => some { s with stack := .checkClear times s.event :: rest }
  | .checkClear times event => some { s with event := 0, stack := .checkTest times event :: rest }
  | .checkTest times event =>
      if event = 0 then some (s.leave rest)
      else some { s with stack := .scan ⟨times, event, 0, 0⟩ .next :: rest, irqOn := true }
  | .scan p point => some (scanGoOn s rest p point)

/-- The code of a driver is executed: of a thread, of an interrupt handler or of the handler of a
work. -/
def InDriver : List (IrqPoint ω) → Prop
  | [] => True
  | .handler :: _ => True
  | .scan _ (.running _) :: _ => True
  | _ => False

instance (stack : List (IrqPoint ω)) : Decidable (InDriver stack) := by
  unfold InDriver
  split <;> infer_instance

/-- An interrupt arrives, a driver calls `NX_IRQ_DelayWorkHandle`, enables or disables interrupts
or enters a work, an interrupt handler comes to its exit, or a call goes on. -/
inductive IrqOp (ω : Type) where
  | interrupt
  | workHandle (w : ω)
  | setIrq (on : Bool)
  | queueEnter (queue : ℕ) (w : ω)
  | exit
  | goOn

/-- Perform a step.  `NX_IRQ_DelayWorkHandle` and `NX_IRQ_DelayQueueCheck` are called with
interrupts disabled, and a work is entered on one queue only. -/
def irqStep (s : DelayIrq ω) : IrqOp ω → Option (DelayIrq ω)
  | .interrupt =>
      if s.irqOn then some { s with stack := .handler :: s.stack, irqOn := false } else none
  | .workHandle w => if InDriver s.stack ∧ s.irqOn = false then some (s.workHandle w) else none
  | .setIrq on => if InDriver s.stack then some { s with irqOn := on } else none
  | .queueEnter queue w =>
      if InDriver s.stack ∧ ((s.work w).Has irqWorkOnQueued → (s.work w).queue = queue) then
        some (s.queueEnter queue w)
      else none
  | .exit =>
      match s.stack with
      | .handler :: rest =>
          if s.irqOn then none
          else some { s with stack := .checkGet irqDelayWorkCheckTimes :: rest }
      | _ => none
  | .goOn =>
      match s.stack with
      | [] => none
      | point :: rest => irqGoOn s rest point

def IrqMove (s : DelayIrq ω) (op : IrqOp ω) (s' : DelayIrq ω) : Prop := irqStep s op = some s'

end Steps

end Nxos.Io
