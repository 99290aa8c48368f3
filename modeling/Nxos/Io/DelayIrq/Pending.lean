import Mathlib.Data.List.Basic
import Nxos.Io.DelayIrq.Model
import Nxos.Support.Transition

/-!
# No request is lost

A request sets the bit of its queue and then the pending flag of its work.  A check takes all bits
at once and scans the queues that had one, with interrupts enabled.  So a pending work has its bit
set, or some check on the stack has taken it and has not come past the work yet.
-/

namespace Nxos.Io

open Nxos.Transition

variable {ω : Type}

/-! ## Flags and queues -/

section Flags

variable {work : DelayWork} {event event' flags flag other : BitVec 32} {queue q : ℕ}

theorem not_has_clear (queue : ℕ) :
    ¬(DelayWork.mk (flags &&& ~~~flag) queue).Has flag := by
  rw [DelayWork.Has, BitVec.and_assoc, BitVec.and_comm (~~~flag), BitVec.and_not_self]
  simp

theorem has_clear_iff (hother : ~~~flag &&& other = other) :
    (DelayWork.mk (flags &&& ~~~flag) queue).Has other ↔ (DelayWork.mk flags queue).Has other := by
  rw [DelayWork.Has, DelayWork.Has, BitVec.and_assoc, hother]

theorem and_or_and_ne_zero {mask : BitVec 32} :
    (flags ||| flag) &&& mask ≠ 0 ↔ flags &&& mask ≠ 0 ∨ flag &&& mask ≠ 0 := by
  rw [BitVec.and_or_distrib_right]
  exact (not_congr BitVec.or_eq_zero_iff).trans not_and_or

theorem has_set : (DelayWork.mk (flags ||| flag) queue).Has other ↔
    (DelayWork.mk flags queue).Has other ∨ flag &&& other ≠ 0 :=
  and_or_and_ne_zero

theorem hasQueue_or : HasQueue (event ||| event') q ↔ HasQueue event q ∨ HasQueue event' q :=
  and_or_and_ne_zero

theorem not_hasQueue_zero : ¬HasQueue 0 q := by
  simp [HasQueue]

theorem hasQueue_shift (hq : q < irqQueueNr) : HasQueue ((1 : BitVec 32) <<< q) q := by
  have hall : ∀ q : Fin irqQueueNr, HasQueue ((1 : BitVec 32) <<< q.val) q.val := by decide
  exact hall ⟨q, hq⟩

end Flags

/-! ## What is promised -/

def DelayIrq.Pending (s : DelayIrq ω) (w : ω) : Prop := (s.work w).Has irqWorkPending

def DelayIrq.Signalled (s : DelayIrq ω) (w : ω) : Prop := HasQueue s.event (s.work w).queue

/-- Part of `NX_IRQ_DelayQueueCheck` is executed. -/
def IrqPoint.Checking : IrqPoint ω → Prop
  | .checkGet _ => True
  | .checkClear _ _ => True
  | .checkTest _ _ => True
  | .scan _ _ => True
  | _ => False

/-- The pending flag of the work was cleared, and its handler is to be called. -/
def IrqPoint.Entering (w : ω) : IrqPoint ω → Prop
  | .scan _ (.enable w') => w' = w
  | .scan _ (.call w') => w' = w
  | _ => False

instance [DecidableEq ω] (w : ω) (point : IrqPoint ω) : Decidable (point.Entering w) := by
  unfold IrqPoint.Entering
  split <;> infer_instance

/-- Outside of checks a pending work has the bit of its queue set.  A request is pending, or a
check is about to call the handler; and the handler is called as often as the flag is cleared,
where a check that has cleared it is still to call it. -/
structure WorksKept [DecidableEq ω] (s : DelayIrq ω) : Prop where
  signalled : (∀ point ∈ s.stack, ¬point.Checking) → ∀ w, s.Pending w → s.Signalled w
  owed : ∀ w, s.owed w = true → s.Pending w ∨ ∃ point ∈ s.stack, point.Entering w
  matched : ∀ w, s.clears w = s.entries w + s.stack.countP (fun point => point.Entering w)

/-! ## The invariant -/

/-- The scan is before the place where it clears the pending flag. -/
def ScanPoint.Before : ScanPoint ω → Prop
  | .next => True
  | .test _ => True
  | .read _ => True
  | .write _ _ => True
  | _ => False

def ScanPoint.work : ScanPoint ω → Option ω
  | .next => none
  | .test w => some w
  | .read w => some w
  | .write w _ => some w
  | .enable w => some w
  | .call w => some w
  | .running w => some w
  | .disable w => some w

/-- The scan has still to come to the work on the queue. -/
def Scan.Ahead (p : Scan) (point : ScanPoint ω) (list : ℕ → List ω) (queue : ℕ) (w : ω) : Prop :=
  p.queue < queue ∨ p.queue = queue ∧
    ∃ i, (list queue)[i]? = some w ∧ (p.index < i ∨ p.index = i ∧ point.Before)

/-- A check has taken the bit of the queue, and has still to come to the work. -/
def IrqPoint.Covers (list : ℕ → List ω) (queue : ℕ) (w : ω) : IrqPoint ω → Prop
  | .checkClear _ event => HasQueue event queue
  | .checkTest _ event => HasQueue event queue
  | .scan p point => HasQueue p.event queue ∧ p.Ahead point list queue w
  | _ => False

def IrqPoint.Atomic : IrqPoint ω → Prop
  | .handleSet _ => True
  | .handleRead _ => True
  | .handleWrite _ _ => True
  | .checkGet _ => True
  | .checkClear _ _ => True
  | .checkTest _ _ => True
  | _ => False

def DelayIrq.Guards (s : DelayIrq ω) : IrqPoint ω → Prop
  | .handleSet w => s.irqOn = false ∧ (s.work w).Has irqWorkOnQueued
  | .handleRead w => s.irqOn = false ∧ (s.work w).Has irqWorkOnQueued ∧ s.Signalled w
  | .handleWrite w flags => s.irqOn = false ∧ (s.work w).Has irqWorkOnQueued ∧ s.Signalled w ∧
      flags = (s.work w).flags
  | .checkGet _ => s.irqOn = false
  | .checkClear _ event => s.irqOn = false ∧ event = s.event
  | .checkTest _ _ => s.irqOn = false
  | _ => True

/-- A scan is at the place of its work, whose other flags are as it has read them. -/
def DelayIrq.Placed (s : DelayIrq ω) : IrqPoint ω → Prop
  | .scan p point => (∀ w ∈ point.work, (s.list p.queue)[p.index]? = some w) ∧
      ∀ w flags, point = .write w flags →
        flags &&& ~~~irqWorkPending = (s.work w).flags &&& ~~~irqWorkPending
  | _ => True

/-- The works on their queues, and the requests that a check has still to come to. -/
structure IrqInv [DecidableEq ω] (s : DelayIrq ω) : Prop where
  listed : ∀ w q, w ∈ s.list q →
    (s.work w).Has irqWorkOnQueued ∧ (s.work w).queue = q ∧ q < irqQueueNr
  queued : ∀ w, (s.work w).Has irqWorkOnQueued → w ∈ s.list (s.work w).queue
  pendingQueued : ∀ w, s.Pending w → (s.work w).Has irqWorkOnQueued
  signalled : ∀ w, s.Pending w →
    s.Signalled w ∨ ∃ point ∈ s.stack, point.Covers s.list (s.work w).queue w
  below : ∀ point ∈ s.stack.tail, ¬point.Atomic
  top : ∀ point ∈ s.stack.head?, s.Guards point
  placed : ∀ point ∈ s.stack, s.Placed point
  owed : ∀ w, s.owed w = true → s.Pending w ∨ ∃ point ∈ s.stack, point.Entering w
  matched : ∀ w, s.clears w = s.entries w + s.stack.countP (fun point => point.Entering w)

section Invariant

theorem guards_of_not_atomic {s : DelayIrq ω} {point : IrqPoint ω} (hatomic : ¬point.Atomic) :
    s.Guards point := by
  cases point <;> first | trivial | exact absurd trivial hatomic

theorem irqOff_of_atomic {s : DelayIrq ω} {point : IrqPoint ω} (hguards : s.Guards point)
    (hatomic : point.Atomic) : s.irqOn = false := by
  cases point <;> first | exact hguards.1 | exact hguards | exact absurd hatomic id

theorem getElem?_update_append {list : ℕ → List ω} {q queue i : ℕ} {w w' : ω}
    (hi : (list q)[i]? = some w') :
    (Function.update list queue (list queue ++ [w]) q)[i]? = some w' := by
  by_cases heq : q = queue
  · subst heq
    rw [Function.update_self, List.getElem?_append_left (List.getElem?_eq_some_iff.mp hi).1, hi]
  · rw [Function.update_of_ne heq, hi]

theorem IrqPoint.Covers.append {point : IrqPoint ω} {list : ℕ → List ω} {q queue : ℕ} {w w' : ω}
    (hcovers : point.Covers list q w') :
    point.Covers (Function.update list queue (list queue ++ [w])) q w' := by
  cases point with
  | scan p point =>
      refine ⟨hcovers.1, hcovers.2.imp_right ?_⟩
      rintro ⟨hqueue, i, hi, hplace⟩
      exact ⟨hqueue, i, getElem?_update_append hi, hplace⟩
  | _ => exact hcovers

theorem head_not_atomic {s : DelayIrq ω} (hdriver : InDriver s.stack) :
    ∀ point ∈ s.stack.head?, ¬point.Atomic := by
  intro point hmem
  cases hstack : s.stack with
  | nil => simp [hstack] at hmem
  | cons first rest =>
      rw [hstack] at hdriver hmem
      cases hmem
      cases point <;> first | exact id | exact absurd hdriver id

theorem placed_next {s : DelayIrq ω} {p : Scan} : s.Placed (.scan p .next) :=
  ⟨by simp [ScanPoint.work], by simp⟩

theorem ahead_of_mem {p : Scan} {list : ℕ → List ω} {q : ℕ} {w : ω} (hqueue : p.queue ≤ q)
    (hindex : p.index = 0) (hmem : w ∈ list q) : p.Ahead .next list q w := by
  rcases hqueue.lt_or_eq with hlt | heq
  · exact .inl hlt
  · obtain ⟨i, hi⟩ := List.mem_iff_getElem?.mp hmem
    refine .inr ⟨heq, i, hi, ?_⟩
    rw [hindex]
    exact (Nat.eq_zero_or_pos i).elim (fun hzero => .inr ⟨hzero.symm, trivial⟩) .inl

theorem Scan.Ahead.nextWork {p : Scan} {point : ScanPoint ω} {list : ℕ → List ω} {q : ℕ} {w : ω}
    (hahead : p.Ahead point list q w)
    (hskip : p.queue = q → (list q)[p.index]? = some w → ¬point.Before) :
    p.nextWork.Ahead .next list q w := by
  refine hahead.imp_right ?_
  rintro ⟨hqueue, i, hi, hplace⟩
  refine ⟨hqueue, i, hi, ?_⟩
  rcases hplace with hlt | ⟨heq, hbefore⟩
  · exact (Nat.lt_or_eq_of_le hlt).imp_right fun heq => ⟨heq, trivial⟩
  · exact absurd hbefore (hskip hqueue (heq ▸ hi))

variable [DecidableEq ω] {s s' : DelayIrq ω} {point point' : IrqPoint ω} {rest : List (IrqPoint ω)}

theorem IrqInv.new (raw : ω → DelayWork) (noreenter : ω → Bool) :
    IrqInv (.new raw noreenter) := by
  have hflags : ∀ w flag, flag = irqWorkPending ∨ flag = irqWorkOnQueued →
      ¬((DelayIrq.new raw noreenter).work w).Has flag := by
    intro w flag hflag
    simp only [DelayIrq.new, delayWorkInit, DelayWork.Has]
    cases noreenter w <;> rcases hflag with rfl | rfl <;> decide
  exact {
    listed := fun w q hw => by simp [DelayIrq.new] at hw
    queued := fun w hw => absurd hw (hflags w _ (.inr rfl))
    pendingQueued := fun w hw => absurd hw (hflags w _ (.inl rfl))
    signalled := fun w hw => absurd hw (hflags w _ (.inl rfl))
    below := by simp [DelayIrq.new]
    top := by simp [DelayIrq.new]
    placed := by simp [DelayIrq.new]
    owed := by simp [DelayIrq.new]
    matched := by simp [DelayIrq.new] }

theorem IrqInv.worksKept (hinv : IrqInv s) : WorksKept s where
  signalled hidle w hpending := by
    rcases hinv.signalled w hpending with hsignalled | ⟨point, hmem, hcovers⟩
    · exact hsignalled
    · have hchecking := hidle point hmem
      cases point <;> first | exact absurd trivial hchecking | cases hcovers
  owed := hinv.owed
  matched := hinv.matched

/-! ## Steps that only change what is executed -/

theorem IrqInv.goTop (hinv : IrqInv s) (on : Bool) (hstack : s.stack = point :: rest)
    (hcovers : ∀ w, s.Pending w → point.Covers s.list (s.work w).queue w →
      s.Signalled w ∨ point'.Covers s.list (s.work w).queue w)
    (hguards : ({ s with stack := point' :: rest, irqOn := on } : DelayIrq ω).Guards point')
    (hplaced : s.Placed point') (hentering : ∀ w, point'.Entering w ↔ point.Entering w) :
    IrqInv { s with stack := point' :: rest, irqOn := on } where
  listed := hinv.listed
  queued := hinv.queued
  pendingQueued := hinv.pendingQueued
  signalled w hpending := by
    have hsignalled := hinv.signalled w hpending
    have hcovers := hcovers w hpending
    rw [hstack] at hsignalled
    grind [DelayIrq.Signalled]
  below := by
    have hbelow := hinv.below
    rw [hstack] at hbelow
    exact hbelow
  top := by simpa using hguards
  placed := by
    have hplaced' := hinv.placed
    rw [hstack] at hplaced'
    intro point hmem
    rcases List.mem_cons.mp hmem with rfl | hmem
    · exact hplaced
    · exact hplaced' point (List.mem_cons_of_mem _ hmem)
  owed w howed := by
    have howed' := hinv.owed w howed
    have hentering := hentering w
    rw [hstack] at howed'
    grind [DelayIrq.Pending]
  matched w := by
    have hmatched := hinv.matched w
    rw [hstack] at hmatched
    simpa [List.countP_cons, hentering w] using hmatched

theorem IrqInv.push (hinv : IrqInv s) (htop : ∀ point ∈ s.stack.head?, ¬point.Atomic)
    (hguards : ({ s with stack := point' :: s.stack, irqOn := on } : DelayIrq ω).Guards point')
    (hplaced : s.Placed point') (hentering : ∀ w, ¬point'.Entering w) :
    IrqInv { s with stack := point' :: s.stack, irqOn := on } where
  listed := hinv.listed
  queued := hinv.queued
  pendingQueued := hinv.pendingQueued
  signalled w hpending := by
    rcases hinv.signalled w hpending with hsignalled | ⟨point, hmem, hcovers⟩
    · exact .inl hsignalled
    · exact .inr ⟨point, List.mem_cons_of_mem _ hmem, hcovers⟩
  below := by
    intro point hmem
    cases hstack : s.stack with
    | nil => simp [hstack] at hmem
    | cons first rest =>
        have hbelow := hinv.below
        rw [hstack] at hbelow htop
        rcases List.mem_cons.mp (hstack ▸ hmem : point ∈ first :: rest) with rfl | hrest
        · exact htop point rfl
        · exact hbelow point hrest
  top := by simpa using hguards
  placed := by
    intro point hmem
    rcases List.mem_cons.mp hmem with rfl | hmem
    · exact hplaced
    · exact hinv.placed point hmem
  owed w howed := by
    rcases hinv.owed w howed with hpending | ⟨point, hmem, hentering⟩
    · exact .inl hpending
    · exact .inr ⟨point, List.mem_cons_of_mem _ hmem, hentering⟩
  matched w := by
    simpa [List.countP_cons, hentering w] using hinv.matched w

theorem IrqInv.leave (hinv : IrqInv s) (hstack : s.stack = point :: rest)
    (hcovers : ∀ queue w, ¬point.Covers s.list queue w) (hentering : ∀ w, ¬point.Entering w) :
    IrqInv (s.leave rest) where
  listed := hinv.listed
  queued := hinv.queued
  pendingQueued := hinv.pendingQueued
  signalled w hpending := by
    have hsignalled := hinv.signalled w hpending
    have hcovers := hcovers (s.work w).queue w
    rw [hstack] at hsignalled
    simp only [List.exists_mem_cons_iff, hcovers, false_or] at hsignalled
    exact hsignalled
  below := by
    have hbelow := hinv.below
    rw [hstack] at hbelow
    exact fun point hmem => hbelow point (List.mem_of_mem_tail hmem)
  top := by
    have hbelow := hinv.below
    rw [hstack] at hbelow
    exact fun point hmem => guards_of_not_atomic (hbelow point (List.mem_of_mem_head? hmem))
  placed := by
    have hplaced := hinv.placed
    rw [hstack] at hplaced
    exact fun point hmem => hplaced point (List.mem_cons_of_mem _ hmem)
  owed w howed := by
    have howed' := hinv.owed w howed
    rw [hstack] at howed'
    simp only [List.exists_mem_cons_iff, hentering w, false_or] at howed'
    exact howed'
  matched w := by
    have hmatched := hinv.matched w
    rw [hstack] at hmatched
    simpa [DelayIrq.leave, List.countP_cons, hentering w] using hmatched

/-! ## The event word -/

theorem IrqInv.setEvent {w : ω} (hinv : IrqInv s) (hstack : s.stack = .handleSet w :: rest)
    (event : BitVec 32) : IrqInv { s with event := s.event ||| event } where
  listed := hinv.listed
  queued := hinv.queued
  pendingQueued := hinv.pendingQueued
  signalled w' hpending :=
    (hinv.signalled w' hpending).imp_left fun hsignalled => hasQueue_or.mpr (.inl hsignalled)
  below := hinv.below
  top point hmem := by
    obtain rfl : .handleSet w = point := by simpa [hstack] using hmem
    exact hinv.top (.handleSet w) (by simp [hstack])
  placed := hinv.placed
  owed := hinv.owed
  matched := hinv.matched

/-- `IRQ_DelayEventClear`, when the bits are taken. -/
theorem IrqInv.clearEvent {times : ℕ} (hinv : IrqInv s)
    (hstack : s.stack = .checkTest times s.event :: rest) : IrqInv { s with event := 0 } where
  listed := hinv.listed
  queued := hinv.queued
  pendingQueued := hinv.pendingQueued
  signalled w hpending := by
    rcases hinv.signalled w hpending with hsignalled | hcovered
    · refine .inr ⟨.checkTest times s.event, ?_, hsignalled⟩
      simp [hstack]
    · exact .inr hcovered
  below := hinv.below
  top point hmem := by
    obtain rfl : .checkTest times s.event = point := by simpa [hstack] using hmem
    exact hinv.top (.checkTest times s.event) (by simp [hstack])
  placed := hinv.placed
  owed := hinv.owed
  matched := hinv.matched

/-! ## The pending flag -/

theorem setFlags_queue {w w' : ω} {flags : BitVec 32} :
    ((s.setFlags w flags).work w').queue = (s.work w').queue := by
  simp only [DelayIrq.setFlags, Function.update_apply]
  split
  · next heq => rw [heq]
  · rfl

theorem setFlags_has_iff {w w' : ω} {flags flag : BitVec 32}
    (hsame : (DelayWork.mk flags (s.work w).queue).Has flag ↔ (s.work w).Has flag) :
    ((s.setFlags w flags).work w').Has flag ↔ (s.work w').Has flag := by
  simp only [DelayIrq.setFlags, Function.update_apply]
  split
  · next heq =>
    rw [heq]
    exact hsame
  · rfl

theorem setFlags_has_of_ne {w w' : ω} {flags flag : BitVec 32} (hne : w' ≠ w) :
    ((s.setFlags w flags).work w').Has flag ↔ (s.work w').Has flag := by
  simp [DelayIrq.setFlags, hne]

theorem setFlags_flags_self {w : ω} {flags : BitVec 32} :
    ((s.setFlags w flags).work w).flags = flags := by
  simp [DelayIrq.setFlags]

theorem and_not_of_or {flags flag : BitVec 32} : (flags ||| flag) &&& ~~~flag = flags &&& ~~~flag := by
  rw [BitVec.and_or_distrib_right, BitVec.and_not_self]
  exact BitVec.or_zero

theorem and_not_idem {flags flag : BitVec 32} : flags &&& ~~~flag &&& ~~~flag = flags &&& ~~~flag := by
  rw [BitVec.and_assoc, BitVec.and_self]

theorem DelayIrq.Placed.setFlags {w : ω} {flags : BitVec 32} (hplaced : s.Placed point)
    (hsame : flags &&& ~~~irqWorkPending = (s.work w).flags &&& ~~~irqWorkPending) :
    (s.setFlags w flags).Placed point := by
  cases point with
  | scan p point =>
      refine ⟨hplaced.1, fun w' flags' hpoint => ?_⟩
      rw [hplaced.2 w' flags' hpoint]
      by_cases heq : w' = w
      · rw [heq, setFlags_flags_self, hsame]
      · simp [DelayIrq.setFlags, heq]
  | _ => trivial

theorem IrqInv.setFlags_listed {w : ω} {flags : BitVec 32} (hinv : IrqInv s)
    (hsame : (DelayWork.mk flags (s.work w).queue).Has irqWorkOnQueued ↔
      (s.work w).Has irqWorkOnQueued) :
    (∀ w' q, w' ∈ s.list q → ((s.setFlags w flags).work w').Has irqWorkOnQueued ∧
      ((s.setFlags w flags).work w').queue = q ∧ q < irqQueueNr) ∧
    ∀ w', ((s.setFlags w flags).work w').Has irqWorkOnQueued →
      w' ∈ s.list ((s.setFlags w flags).work w').queue := by
  constructor
  · intro w' q hmem
    rw [setFlags_has_iff hsame, setFlags_queue]
    exact hinv.listed w' q hmem
  · intro w' honQueue
    rw [setFlags_has_iff hsame] at honQueue
    rw [setFlags_queue]
    exact hinv.queued w' honQueue

/-- The end of `NX_IRQ_DelayWorkHandle`. -/
theorem IrqInv.handleWrite {w : ω} {flags : BitVec 32} (hinv : IrqInv s)
    (hstack : s.stack = .handleWrite w flags :: rest) :
    IrqInv { s.setFlags w (flags ||| irqWorkPending) with
      stack := rest
      owed := Function.update s.owed w true } := by
  have hbelow := hinv.below
  have hplaced := hinv.placed
  have htop := hinv.top
  rw [hstack] at hbelow hplaced htop
  obtain ⟨-, honQueue, hevent, rfl⟩ := htop _ rfl
  have hsame : (DelayWork.mk ((s.work w).flags ||| irqWorkPending) (s.work w).queue).Has
      irqWorkOnQueued ↔ (s.work w).Has irqWorkOnQueued :=
    has_set.trans (or_iff_left (by decide))
  obtain ⟨hlisted, hqueued⟩ := hinv.setFlags_listed hsame
  have hpending : (s.setFlags w ((s.work w).flags ||| irqWorkPending)).Pending w := by
    rw [DelayIrq.Pending, DelayWork.Has, setFlags_flags_self]
    exact and_or_and_ne_zero.mpr (.inr (by decide))
  have hrest : ∀ w', w' ≠ w →
      ((s.setFlags w ((s.work w).flags ||| irqWorkPending)).Pending w' ↔ s.Pending w') :=
    fun w' hne => setFlags_has_of_ne hne
  constructor
  · exact hlisted
  · exact hqueued
  · intro w' hpending'
    by_cases heq : w' = w
    · exact (setFlags_has_iff hsame).mpr (heq ▸ honQueue)
    · exact (setFlags_has_iff hsame).mpr (hinv.pendingQueued w' ((hrest w' heq).mp hpending'))
  · intro w' hpending'
    rw [DelayIrq.Signalled, setFlags_queue]
    by_cases heq : w' = w
    · exact .inl (heq ▸ hevent)
    · have hsignalled := hinv.signalled w' ((hrest w' heq).mp hpending')
      rw [hstack] at hsignalled
      rcases hsignalled with hevent' | ⟨point, hmem, hcovers⟩
      · exact .inl hevent'
      · rcases List.mem_cons.mp hmem with rfl | hmem
        · cases hcovers
        · exact .inr ⟨point, hmem, hcovers⟩
  · exact fun point hmem => hbelow point (List.mem_of_mem_tail hmem)
  · exact fun point hmem => guards_of_not_atomic (hbelow point (List.mem_of_mem_head? hmem))
  · intro point hmem
    exact (hplaced point (List.mem_cons_of_mem _ hmem)).setFlags and_not_of_or
  · intro w' howed
    by_cases heq : w' = w
    · exact .inl (heq ▸ hpending)
    · have howed' := hinv.owed w' (by simpa [heq] using howed)
      rw [hstack] at howed'
      rcases howed' with hpending' | ⟨point, hmem, hentering⟩
      · exact .inl ((hrest w' heq).mpr hpending')
      · rcases List.mem_cons.mp hmem with rfl | hmem
        · cases hentering
        · exact .inr ⟨point, hmem, hentering⟩
  · intro w'
    have hmatched := hinv.matched w'
    have hentering : ¬(IrqPoint.handleWrite w (s.work w).flags).Entering w' := id
    rw [hstack] at hmatched
    simpa [DelayIrq.setFlags, List.countP_cons, hentering] using hmatched

theorem IrqInv.scanWrite {w : ω} {flags : BitVec 32} {p : Scan} (hinv : IrqInv s)
    (hstack : s.stack = .scan p (.write w flags) :: rest) :
    IrqInv { s.setFlags w (flags &&& ~~~irqWorkPending) with
      stack := .scan p (.enable w) :: rest
      clears := Function.update s.clears w (s.clears w + 1) } := by
  have hbelow := hinv.below
  have hplaced := hinv.placed
  rw [hstack] at hbelow hplaced
  obtain ⟨hplace, hflags⟩ := hplaced _ List.mem_cons_self
  have hplace := hplace w rfl
  rw [hflags w flags rfl]
  have hsame : (DelayWork.mk ((s.work w).flags &&& ~~~irqWorkPending) (s.work w).queue).Has
      irqWorkOnQueued ↔ (s.work w).Has irqWorkOnQueued := has_clear_iff (by decide)
  obtain ⟨hlisted, hqueued⟩ := hinv.setFlags_listed hsame
  have hpending : ¬(s.setFlags w ((s.work w).flags &&& ~~~irqWorkPending)).Pending w := by
    rw [DelayIrq.Pending, DelayWork.Has, setFlags_flags_self]
    exact not_has_clear 0
  have hrest : ∀ w', w' ≠ w →
      ((s.setFlags w ((s.work w).flags &&& ~~~irqWorkPending)).Pending w' ↔ s.Pending w') :=
    fun w' hne => setFlags_has_of_ne hne
  constructor
  · exact hlisted
  · exact hqueued
  · intro w' hpending'
    have hne : w' ≠ w := fun heq => hpending (heq ▸ hpending')
    exact (setFlags_has_iff hsame).mpr (hinv.pendingQueued w' ((hrest w' hne).mp hpending'))
  · intro w' hpending'
    have hne : w' ≠ w := fun heq => hpending (heq ▸ hpending')
    have hsignalled := hinv.signalled w' ((hrest w' hne).mp hpending')
    rw [DelayIrq.Signalled, setFlags_queue]
    rw [hstack] at hsignalled
    rcases hsignalled with hevent | ⟨point, hmem, hcovers⟩
    · exact .inl hevent
    · rcases List.mem_cons.mp hmem with rfl | hmem
      · -- The place of the scan is that of the other work.
        refine .inr ⟨_, List.mem_cons_self, hcovers.1, hcovers.2.imp_right ?_⟩
        rintro ⟨hqueue, i, hi, hlt | ⟨heq, -⟩⟩
        · exact ⟨hqueue, i, hi, .inl hlt⟩
        · rw [← hqueue, ← heq, hplace] at hi
          exact absurd (Option.some.inj hi).symm hne
      · exact .inr ⟨point, List.mem_cons_of_mem _ hmem, hcovers⟩
  · exact hbelow
  · exact fun point hmem => guards_of_not_atomic (by cases hmem; exact id)
  · intro point hmem
    rcases List.mem_cons.mp hmem with rfl | hmem
    · refine ⟨fun w' hw' => ?_, fun w' flags hpoint => by cases hpoint⟩
      cases hw'
      exact hplace
    · exact (hplaced point (List.mem_cons_of_mem _ hmem)).setFlags and_not_idem
  · intro w' howed
    by_cases heq : w' = w
    · exact .inr ⟨_, List.mem_cons_self, heq.symm⟩
    · have howed' := hinv.owed w' howed
      rw [hstack] at howed'
      rcases howed' with hpending' | ⟨point, hmem, hentering⟩
      · exact .inl ((hrest w' heq).mpr hpending')
      · rcases List.mem_cons.mp hmem with rfl | hmem
        · cases hentering
        · exact .inr ⟨point, List.mem_cons_of_mem _ hmem, hentering⟩
  · intro w'
    have hmatched := hinv.matched w'
    have hentering : ¬(IrqPoint.scan p (.write w flags)).Entering w' := id
    have hentering' : (IrqPoint.scan p (.enable w)).Entering w' ↔ w = w' := Iff.rfl
    rw [hstack] at hmatched
    by_cases heq : w' = w
    · subst heq
      simp only [hentering, not_false_eq_true, decide_false, List.countP_cons_of_neg,
        Bool.false_eq_true] at hmatched
      simp only [Function.update_self, hentering', decide_true, List.countP_cons_of_pos,
        DelayIrq.setFlags]
      omega
    · have hne : w ≠ w' := Ne.symm heq
      simpa [DelayIrq.setFlags, List.countP_cons, hentering, hentering', heq, hne] using hmatched

theorem IrqInv.scanCall {w : ω} {p : Scan} (hinv : IrqInv s)
    (hstack : s.stack = .scan p (.call w) :: rest) :
    IrqInv { s with
      stack := .scan p (.running w) :: rest
      entries := Function.update s.entries w (s.entries w + 1)
      owed := Function.update s.owed w false } := by
  have hbelow := hinv.below
  have hplaced := hinv.placed
  rw [hstack] at hbelow hplaced
  constructor
  · exact hinv.listed
  · exact hinv.queued
  · exact hinv.pendingQueued
  · intro w' hpending
    have hsignalled := hinv.signalled w' hpending
    rw [hstack] at hsignalled
    rcases hsignalled with hevent | ⟨point, hmem, hcovers⟩
    · exact .inl hevent
    · rcases List.mem_cons.mp hmem with rfl | hmem
      · exact .inr ⟨_, List.mem_cons_self, hcovers⟩
      · exact .inr ⟨point, List.mem_cons_of_mem _ hmem, hcovers⟩
  · exact hbelow
  · exact fun point hmem => guards_of_not_atomic (by cases hmem; exact id)
  · intro point hmem
    rcases List.mem_cons.mp hmem with rfl | hmem
    · refine ⟨(hplaced _ List.mem_cons_self).1, fun w' flags hpoint => by cases hpoint⟩
    · exact hplaced point (List.mem_cons_of_mem _ hmem)
  · intro w' howed
    have hne : w' ≠ w := by
      rintro rfl
      simp at howed
    have howed' := hinv.owed w' (by simpa [hne] using howed)
    rw [hstack] at howed'
    rcases howed' with hpending | ⟨point, hmem, hentering⟩
    · exact .inl hpending
    · rcases List.mem_cons.mp hmem with rfl | hmem
      · exact absurd hentering.symm hne
      · exact .inr ⟨point, List.mem_cons_of_mem _ hmem, hentering⟩
  · intro w'
    have hmatched := hinv.matched w'
    have hentering : ¬(IrqPoint.scan p (.running w)).Entering w' := id
    have hentering' : (IrqPoint.scan p (.call w)).Entering w' ↔ w = w' := Iff.rfl
    rw [hstack] at hmatched
    by_cases heq : w' = w
    · subst heq
      simp only [hentering', decide_true, List.countP_cons_of_pos] at hmatched
      simp only [Function.update_self, hentering, not_false_eq_true, decide_false,
        List.countP_cons_of_neg, Bool.false_eq_true]
      omega
    · have hne : w ≠ w' := Ne.symm heq
      simpa [List.countP_cons, hentering, hentering', heq, hne] using hmatched

/-! ## Entering works -/

/-- `NX_IRQ_DelayQueueEnter` of a work on no queue. -/
theorem IrqInv.enter {queue : ℕ} {w : ω} (hinv : IrqInv s) (hdriver : InDriver s.stack)
    (hqueue : queue < irqQueueNr) (hoff : ¬(s.work w).Has irqWorkOnQueued) :
    IrqInv { s with
      work := Function.update s.work w ⟨(s.work w).flags ||| irqWorkOnQueued, queue⟩
      list := Function.update s.list queue (s.list queue ++ [w]) } := by
  have hunlisted : ∀ q, w ∉ s.list q := fun q hmem => hoff (hinv.listed w q hmem).1
  have hidle : ¬(DelayWork.mk ((s.work w).flags ||| irqWorkOnQueued) queue).Has irqWorkPending := by
    rw [has_set]
    rintro (hpending | hmask)
    · exact hoff (hinv.pendingQueued w hpending)
    · exact hmask (by decide)
  have hother : ∀ w', (Function.update s.work w
      ⟨(s.work w).flags ||| irqWorkOnQueued, queue⟩ w').Has irqWorkPending →
      w' ≠ w ∧ s.Pending w' := by
    intro w' hpending
    by_cases heq : w' = w
    · subst heq
      rw [Function.update_self] at hpending
      exact absurd hpending hidle
    · rw [Function.update_of_ne heq] at hpending
      exact ⟨heq, hpending⟩
  constructor
  · intro w' q hmem
    by_cases heq : w' = w
    · subst heq
      have hqueue' : q = queue := by
        by_contra hne
        simp only [Function.update_of_ne hne] at hmem
        exact hunlisted q hmem
      simp only [Function.update_self]
      exact ⟨has_set.mpr (.inr (by decide)), hqueue'.symm, hqueue' ▸ hqueue⟩
    · have hmem' : w' ∈ s.list q := by
        by_cases hne : q = queue
        · subst hne
          simpa [heq] using hmem
        · simpa [Function.update_of_ne hne] using hmem
      simpa [Function.update_of_ne heq] using hinv.listed w' q hmem'
  · intro w' honQueue
    by_cases heq : w' = w
    · subst heq
      simp
    · simp only [Function.update_of_ne heq] at honQueue ⊢
      have hmem := hinv.queued w' honQueue
      by_cases hne : (s.work w').queue = queue
      · rw [hne] at hmem ⊢
        simp [hmem]
      · rwa [Function.update_of_ne hne]
  · intro w' hpending
    obtain ⟨hne, hpending'⟩ := hother w' hpending
    simpa [Function.update_of_ne hne] using hinv.pendingQueued w' hpending'
  · intro w' hpending
    obtain ⟨hne, hpending'⟩ := hother w' hpending
    simp only [DelayIrq.Signalled, Function.update_of_ne hne]
    rcases hinv.signalled w' hpending' with hevent | ⟨point, hmem, hcovers⟩
    · exact .inl hevent
    · exact .inr ⟨point, hmem, hcovers.append⟩
  · exact hinv.below
  · exact fun point hmem => guards_of_not_atomic (head_not_atomic hdriver point hmem)
  · intro point hmem
    have hplaced := hinv.placed point hmem
    cases point with
    | scan p point =>
        refine ⟨fun w' hw' => getElem?_update_append (hplaced.1 w' hw'),
          fun w' flags hpoint => ?_⟩
        have hne : w' ≠ w := by
          rintro rfl
          have hw' := hplaced.1 w' (by rw [hpoint]; rfl)
          exact hunlisted p.queue (List.mem_of_getElem? hw')
        simpa [Function.update_of_ne hne] using hplaced.2 w' flags hpoint
    | _ => trivial
  · intro w' howed
    rcases hinv.owed w' howed with hpending | hentering
    · have hne : w' ≠ w := fun heq => hoff (hinv.pendingQueued w (heq ▸ hpending))
      refine .inl ?_
      simpa [DelayIrq.Pending, Function.update_of_ne hne] using hpending
    · exact .inr hentering
  · exact hinv.matched

theorem IrqInv.queueEnter {queue : ℕ} {w : ω} (hinv : IrqInv s) (hdriver : InDriver s.stack)
    (honce : (s.work w).Has irqWorkOnQueued → (s.work w).queue = queue) :
    IrqInv (s.queueEnter queue w) := by
  unfold DelayIrq.queueEnter
  split
  · exact hinv
  · next hnew =>
    rw [not_or, Nat.not_le] at hnew
    refine hinv.enter hdriver hnew.1 fun honQueue => hnew.2 ?_
    rw [← honce honQueue]
    exact hinv.queued w honQueue

/-! ## Runs -/

theorem IrqInv.setIrq (hinv : IrqInv s) (hdriver : InDriver s.stack) :
    IrqInv { s with irqOn := on } where
  listed := hinv.listed
  queued := hinv.queued
  pendingQueued := hinv.pendingQueued
  signalled := hinv.signalled
  below := hinv.below
  top point hmem := guards_of_not_atomic (head_not_atomic hdriver point hmem)
  placed := hinv.placed
  owed := hinv.owed
  matched := hinv.matched

theorem IrqInv.workHandle {w : ω} (hinv : IrqInv s) (hdriver : InDriver s.stack)
    (hoff : s.irqOn = false) : IrqInv (s.workHandle w) := by
  unfold DelayIrq.workHandle
  split
  · exact hinv
  · next hqueued =>
    rw [not_or, not_not] at hqueued
    exact hinv.push (head_not_atomic hdriver) ⟨hoff, hqueued.1⟩ trivial (fun _ => id)

/-- The scan comes to the next queue, when the work of no pending request is left on its list. -/
theorem IrqInv.nextQueue {p : Scan} (hinv : IrqInv s) (on : Bool)
    (hstack : s.stack = .scan p .next :: rest)
    (hdone : ∀ w, ¬(HasQueue p.event p.queue ∧ ∃ i, (s.list p.queue)[i]? = some w ∧ p.index ≤ i)) :
    IrqInv { s with stack := .scan p.nextQueue .next :: rest, irqOn := on } := by
  refine hinv.goTop _ hstack (fun w hpending hcovers => .inr ⟨hcovers.1, ?_⟩) trivial placed_next
    (fun _ => Iff.rfl)
  have hmem := hinv.queued w (hinv.pendingQueued w hpending)
  rcases hcovers.2 with hlt | ⟨heq, i, hi, hplace⟩
  · exact ahead_of_mem hlt rfl hmem
  · refine absurd ⟨heq ▸ hcovers.1, i, heq ▸ hi, ?_⟩ (hdone w)
    omega

theorem IrqInv.scanGoOn {p : Scan} {at' : ScanPoint ω} (hinv : IrqInv s)
    (hstack : s.stack = .scan p at' :: rest) : IrqInv (scanGoOn s rest p at') := by
  have hplaced : s.Placed (.scan p at') := hinv.placed _ (by rw [hstack]; exact List.mem_cons_self)
  cases at' with
  | next =>
      simp only [Io.scanGoOn]
      split
      · next hend =>
        refine hinv.goTop false hstack (fun w hpending hcovers => ?_) rfl trivial
          (fun _ => Iff.rfl)
        have hqueue := (hinv.listed w _ (hinv.queued w (hinv.pendingQueued w hpending))).2.2
        have hahead := hcovers.2
        unfold Scan.Ahead at hahead
        omega
      · split
        · next hevent =>
          exact hinv.nextQueue s.irqOn hstack fun w hleft => hevent hleft.1
        · split
          · next hnone =>
            refine hinv.nextQueue s.irqOn hstack ?_
            rintro w ⟨-, i, hi, hle⟩
            have hlt := (List.getElem?_eq_some_iff.mp hi).1
            have hlength := List.getElem?_eq_none_iff.mp hnone
            omega
          · next w hw =>
            refine hinv.goTop s.irqOn hstack (fun w hpending hcovers => .inr hcovers)
              trivial ⟨fun w' hw' => ?_, fun _ _ hpoint => by cases hpoint⟩ (fun _ => Iff.rfl)
            cases hw'
            exact hw
  | test w =>
      simp only [Io.scanGoOn]
      split
      · exact hinv.goTop s.irqOn hstack (fun w hpending hcovers => .inr hcovers) trivial
          ⟨hplaced.1, fun _ _ hpoint => by cases hpoint⟩ (fun _ => Iff.rfl)
      · next hidle =>
        refine hinv.goTop s.irqOn hstack
          (fun w' hpending hcovers => .inr ⟨hcovers.1, hcovers.2.nextWork fun heq hplace => ?_⟩)
          trivial placed_next (fun _ => Iff.rfl)
        -- The work at the place is not pending, so it is another one.
        rw [← heq, hplaced.1 w rfl] at hplace
        cases hplace
        exact absurd hpending hidle
  | read w =>
      refine hinv.goTop s.irqOn hstack (fun w hpending hcovers => .inr hcovers) trivial
        ⟨hplaced.1, fun w' flags hpoint => ?_⟩ (fun _ => Iff.rfl)
      cases hpoint
      rfl
  | write w flags => exact hinv.scanWrite hstack
  | enable w =>
      exact hinv.goTop _ hstack (fun w hpending hcovers => .inr hcovers) trivial
        ⟨hplaced.1, fun _ _ hpoint => by cases hpoint⟩ (fun _ => Iff.rfl)
  | call w => exact hinv.scanCall hstack
  | running w =>
      exact hinv.goTop s.irqOn hstack (fun w hpending hcovers => .inr hcovers) trivial
        ⟨hplaced.1, fun _ _ hpoint => by cases hpoint⟩ (fun _ => Iff.rfl)
  | disable w =>
      exact hinv.goTop _ hstack
        (fun w' hpending hcovers => .inr ⟨hcovers.1, hcovers.2.nextWork fun _ _ => id⟩) trivial
        placed_next (fun _ => Iff.rfl)

theorem IrqInv.goOn (hinv : IrqInv s) (hstack : s.stack = point :: rest)
    (hstep : irqGoOn s rest point = some s') : IrqInv s' := by
  have htop := hinv.top point (by rw [hstack]; rfl)
  cases point with
  | handler => cases hstep
  | handleSet w =>
      cases hstep
      have hqueue := (hinv.listed w _ (hinv.queued w htop.2)).2.2
      have hevent : IrqInv { s with event := s.event ||| ((1 : BitVec 32) <<< (s.work w).queue) } :=
        hinv.setEvent hstack _
      exact hevent.goTop s.irqOn hstack (fun _ _ hcovers => absurd hcovers id)
        ⟨htop.1, htop.2, hasQueue_or.mpr (.inr (hasQueue_shift hqueue))⟩ trivial
        (fun _ => Iff.rfl)
  | handleRead w =>
      cases hstep
      exact hinv.goTop s.irqOn hstack (fun _ _ hcovers => absurd hcovers id)
        ⟨htop.1, htop.2.1, htop.2.2, rfl⟩ trivial (fun _ => Iff.rfl)
  | handleWrite w flags =>
      cases hstep
      exact hinv.handleWrite hstack
  | checkGet times =>
      cases times with
      | zero =>
          cases hstep
          exact hinv.leave hstack (fun _ _ => id) (fun _ => id)
      | succ times =>
          cases hstep
          exact hinv.goTop s.irqOn hstack (fun _ _ hcovers => absurd hcovers id)
            ⟨htop, rfl⟩ trivial (fun _ => Iff.rfl)
  | checkClear times event =>
      cases hstep
      obtain ⟨hoff, rfl⟩ := htop
      have htest : IrqInv { s with stack := .checkTest times s.event :: rest, irqOn := s.irqOn } :=
        hinv.goTop _ hstack (fun _ _ hcovers => .inr hcovers) hoff trivial (fun _ => Iff.rfl)
      exact htest.clearEvent rfl
  | checkTest times event =>
      simp only [irqGoOn] at hstep
      split at hstep
      · next hzero =>
        cases hstep
        refine hinv.leave hstack (fun queue w => ?_) (fun _ => id)
        rw [hzero]
        exact not_hasQueue_zero
      · cases hstep
        refine hinv.goTop true hstack (fun w hpending hcovers => .inr ⟨hcovers, ?_⟩) trivial
          placed_next (fun _ => Iff.rfl)
        exact ahead_of_mem (Nat.zero_le _) rfl (hinv.queued w (hinv.pendingQueued w hpending))
  | scan p point =>
      cases hstep
      exact hinv.scanGoOn hstack

theorem IrqInv.step {op : IrqOp ω} (hinv : IrqInv s) (hmove : IrqMove s op s') : IrqInv s' := by
  cases op with
  | interrupt =>
      simp only [IrqMove, irqStep] at hmove
      split at hmove
      · next hon =>
        cases hmove
        refine hinv.push (fun point hmem hatomic => ?_) trivial trivial (fun _ => id)
        rw [irqOff_of_atomic (hinv.top point hmem) hatomic] at hon
        cases hon
      · cases hmove
  | workHandle w =>
      simp only [IrqMove, irqStep] at hmove
      split at hmove
      · next hcall =>
        cases hmove
        exact hinv.workHandle hcall.1 hcall.2
      · cases hmove
  | setIrq on =>
      simp only [IrqMove, irqStep] at hmove
      split at hmove
      · next hdriver =>
        cases hmove
        exact hinv.setIrq hdriver
      · cases hmove
  | queueEnter queue w =>
      simp only [IrqMove, irqStep] at hmove
      split at hmove
      · next hcall =>
        cases hmove
        exact hinv.queueEnter hcall.1 hcall.2
      · cases hmove
  | exit =>
      simp only [IrqMove, irqStep] at hmove
      split at hmove
      · next rest hstack =>
        split at hmove
        · cases hmove
        · next hoff =>
          cases hmove
          have hoff' : s.irqOn = false := by simpa using hoff
          exact hinv.goTop s.irqOn hstack (fun _ _ hcovers => absurd hcovers id) hoff'
            trivial (fun _ => Iff.rfl)
      · cases hmove
  | goOn =>
      simp only [IrqMove, irqStep] at hmove
      split at hmove
      · cases hmove
      · next point rest hstack => exact hinv.goOn hstack hmove

/-- In every run with nested interrupts from initialised works: outside of checks a pending work
has the bit of its queue set; a request is pending or its handler is about to be called; and the
handler is called behind every time the pending flag is cleared. -/
theorem irqReachable_worksKept {raw : ω → DelayWork} {noreenter : ω → Bool}
    (hreach : Reachable IrqMove (.new raw noreenter) s) : WorksKept s := by
  have hinv : IrqInv s := hreach.invariant (.new raw noreenter) fun hinv hmove => hinv.step hmove
  exact hinv.worksKept

end Invariant

def servedRun : List (IrqOp Unit) :=
  [.queueEnter 1 (), .setIrq true, .interrupt, .workHandle (), .goOn, .goOn, .goOn, .exit] ++
    List.replicate 20 .goOn

theorem irqReachable_worksKept_served : ∃ s : DelayIrq Unit,
    Reachable IrqMove (.new (fun _ => ⟨0, 0⟩) fun _ => true) s ∧
      (s.stack, s.clears (), s.entries ()) = ([], 1, 1) ∧ WorksKept s := by
  have heval : (perform irqStep (.new (fun _ => ⟨0, 0⟩) fun _ => true) servedRun).map
      (fun s => (s.stack, s.clears (), s.entries ())) = some ([], 1, 1) := by
    decide +kernel
  obtain ⟨s, hrun, hcounts⟩ := Option.map_eq_some_iff.mp heval
  have hreach : Reachable IrqMove (.new (fun _ => ⟨0, 0⟩) fun _ => true) s :=
    Reachable.of_perform id hrun
  exact ⟨s, hreach, hcounts, irqReachable_worksKept hreach⟩

end Nxos.Io
