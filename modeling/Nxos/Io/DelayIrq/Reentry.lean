import Nxos.Io.DelayIrq.Pending

/-!
# Handlers that are not to be reentered

`NX_IRQ_WORK_NOREENTER` is taken off by `NX_IRQ_DelayWorkInit`, so a check calls every handler with
interrupts enabled.  An interrupt that requests the work of a running handler calls it again, from
its own check.  A handler is not reentered as long as its work is not requested while it runs.
-/

namespace Nxos.Io

open Nxos.Transition

variable {ω : Type}

/-! ## What is promised, and when it holds -/

def IrqPoint.Running (w : ω) : IrqPoint ω → Prop
  | .scan _ (.running w') => w' = w
  | _ => False

def IrqPoint.Calling (w : ω) : IrqPoint ω → Prop
  | .scan _ (.call w') => w' = w
  | _ => False

/-- No invocation of the handler interrupts another. -/
def NotReentered (w : ω) (s : DelayIrq ω) : Prop :=
  s.stack.Pairwise fun above below => below.Running w → ¬above.Running w

/-- The work is not requested while its handler runs, and has no request when it is called. -/
def RunsAlone (w : ω) (s : DelayIrq ω) : IrqOp ω → Prop
  | .workHandle w' => w' = w → ∀ point ∈ s.stack, ¬point.Running w
  | .goOn => ∀ point ∈ s.stack.head?, point.Calling w → ¬s.Pending w
  | _ => True

def AloneIrqMove [DecidableEq ω] (w : ω) (s : DelayIrq ω) (op : IrqOp ω) (s' : DelayIrq ω) :
    Prop :=
  RunsAlone w s op ∧ IrqMove s op s'

def IrqPoint.scanPoint : IrqPoint ω → Option (ScanPoint ω)
  | .scan _ point => some point
  | _ => none

theorem IrqPoint.running_iff {w : ω} {point : IrqPoint ω} :
    point.scanPoint = some (.running w) ↔ point.Running w := by
  cases point with
  | scan p point => cases point <;> simp [scanPoint, Running, eq_comm]
  | _ => simp [scanPoint, Running]

theorem IrqPoint.calling_iff {w : ω} {point : IrqPoint ω} :
    point.scanPoint = some (.call w) ↔ point.Calling w := by
  cases point with
  | scan p point => cases point <;> simp [scanPoint, Calling, eq_comm]
  | _ => simp [scanPoint, Calling]

instance [DecidableEq ω] (w : ω) (point : IrqPoint ω) : Decidable (point.Running w) :=
  decidable_of_iff _ IrqPoint.running_iff

instance [DecidableEq ω] (w : ω) (point : IrqPoint ω) : Decidable (point.Calling w) :=
  decidable_of_iff _ IrqPoint.calling_iff

instance [DecidableEq ω] (w : ω) (s : DelayIrq ω) : Decidable (NotReentered w s) :=
  inferInstanceAs (Decidable (s.stack.Pairwise _))

instance (w : ω) (s : DelayIrq ω) : Decidable (s.Pending w) :=
  inferInstanceAs (Decidable ((s.work w).Has irqWorkPending))

instance [DecidableEq ω] (w : ω) (s : DelayIrq ω) (op : IrqOp ω) : Decidable (RunsAlone w s op) :=
  match op with
  | .workHandle w' => inferInstanceAs (Decidable (w' = w → ∀ point ∈ s.stack, ¬point.Running w))
  | .goOn => inferInstanceAs (Decidable (∀ point ∈ s.stack.head?, point.Calling w → ¬s.Pending w))
  | .interrupt | .setIrq _ | .queueEnter _ _ | .exit => .isTrue trivial

def aloneIrqStep [DecidableEq ω] (w : ω) (s : DelayIrq ω) (op : IrqOp ω) : Option (DelayIrq ω) :=
  if RunsAlone w s op then irqStep s op else none

theorem aloneIrqMove_of_aloneIrqStep [DecidableEq ω] {w : ω} {s s' : DelayIrq ω} {op : IrqOp ω}
    (hstep : aloneIrqStep w s op = some s') : AloneIrqMove w s op s' :=
  Option.ite_none_right_eq_some.mp hstep

/-! ## The invariant -/

/-- The work is requested there, or its flag was seen and its handler is not called yet, or it is
executed. -/
def IrqPoint.Touches (w : ω) : IrqPoint ω → Prop
  | .handleSet w' => w' = w
  | .handleRead w' => w' = w
  | .handleWrite w' _ => w' = w
  | .scan _ (.read w') => w' = w
  | .scan _ (.write w' _) => w' = w
  | .scan _ (.enable w') => w' = w
  | .scan _ (.call w') => w' = w
  | .scan _ (.running w') => w' = w
  | _ => False

/-- While the handler is executed, its work is not pending, and nothing above comes to it. -/
structure AloneInv (w : ω) (s : DelayIrq ω) : Prop where
  idle : (∃ point ∈ s.stack, point.Running w) → ¬s.Pending w
  alone : s.stack.Pairwise fun above below => below.Running w → ¬above.Touches w

section Invariant

variable {w : ω} {s s' : DelayIrq ω} {point point' : IrqPoint ω} {rest : List (IrqPoint ω)}

theorem IrqPoint.Running.touches (hrunning : point.Running w) : point.Touches w := by
  cases point with
  | scan p at' => cases at' <;> first | exact hrunning | exact absurd hrunning id
  | _ => exact absurd hrunning id

theorem AloneInv.notReentered (hinv : AloneInv w s) : NotReentered w s :=
  hinv.alone.imp fun halone hbelow habove => halone hbelow habove.touches

theorem AloneInv.push (hinv : AloneInv w s) (hstack : s'.stack = point' :: s.stack)
    (hpending : s'.Pending w → s.Pending w) (hidle : ¬point'.Running w)
    (htouches : point'.Touches w → ∀ point ∈ s.stack, ¬point.Running w) : AloneInv w s' where
  idle := by
    rintro ⟨point, hmem, hrunning⟩ hpending'
    rw [hstack] at hmem
    rcases List.mem_cons.mp hmem with rfl | hmem
    · exact hidle hrunning
    · exact hinv.idle ⟨point, hmem, hrunning⟩ (hpending hpending')
  alone := by
    rw [hstack]
    exact List.pairwise_cons.mpr
      ⟨fun below hbelow hrunning htouching => htouches htouching below hbelow hrunning, hinv.alone⟩

/-- What is executed goes on, to the work only from there or while its handler is not executed. -/
theorem AloneInv.replace (hinv : AloneInv w s) (hstack : s.stack = point :: rest)
    (hstack' : s'.stack = point' :: rest) (hpending : s'.Pending w → s.Pending w)
    (hidle : point'.Running w → ¬s'.Pending w)
    (htouches : point'.Touches w → point.Touches w ∨ ∀ below ∈ rest, ¬below.Running w) :
    AloneInv w s' where
  idle := by
    rintro ⟨point, hmem, hrunning⟩ hpending'
    rw [hstack'] at hmem
    rcases List.mem_cons.mp hmem with rfl | hmem
    · exact hidle hrunning hpending'
    · refine hinv.idle ⟨point, ?_, hrunning⟩ (hpending hpending')
      rw [hstack]
      exact List.mem_cons_of_mem _ hmem
  alone := by
    have halone := hinv.alone
    rw [hstack, List.pairwise_cons] at halone
    rw [hstack']
    refine List.pairwise_cons.mpr ⟨fun below hbelow hrunning htouching => ?_, halone.2⟩
    rcases htouches htouching with htouched | hrest
    · exact halone.1 below hbelow hrunning htouched
    · exact hrest below hbelow hrunning

theorem AloneInv.pop (hinv : AloneInv w s) (hstack : s.stack = point :: rest)
    (hstack' : s'.stack = rest)
    (hpending : s'.Pending w → s.Pending w ∨ point.Touches w) : AloneInv w s' where
  idle := by
    rintro ⟨below, hmem, hrunning⟩ hpending'
    have halone := hinv.alone
    rw [hstack, List.pairwise_cons] at halone
    rw [hstack'] at hmem
    rcases hpending hpending' with hpending | htouches
    · refine hinv.idle ⟨below, ?_, hrunning⟩ hpending
      rw [hstack]
      exact List.mem_cons_of_mem _ hmem
    · exact halone.1 below hmem hrunning htouches
  alone := by
    have halone := hinv.alone
    rw [hstack, List.pairwise_cons] at halone
    rw [hstack']
    exact halone.2

variable [DecidableEq ω]

theorem pending_of_clear {w' : ω} {flags : BitVec 32}
    (hpending : (s.setFlags w' (flags &&& ~~~irqWorkPending)).Pending w) : w ≠ w' ∧ s.Pending w := by
  by_cases heq : w = w'
  · rw [DelayIrq.Pending, DelayWork.Has, ← heq, setFlags_flags_self] at hpending
    exact absurd hpending (not_has_clear 0)
  · exact ⟨heq, (setFlags_has_of_ne heq).mp hpending⟩

theorem AloneInv.scanGoOn {p : Scan} {at' : ScanPoint ω} (hinv : AloneInv w s)
    (hstack : s.stack = .scan p at' :: rest)
    (hcall : (IrqPoint.scan p at').Calling w → ¬s.Pending w) :
    AloneInv w (scanGoOn s rest p at') := by
  cases at' with
  | next =>
      simp only [Io.scanGoOn]
      split
      · exact hinv.replace hstack rfl id (fun h => absurd h id) (fun h => absurd h id)
      · split
        · exact hinv.replace hstack rfl id (fun h => absurd h id) (fun h => absurd h id)
        · split
          · exact hinv.replace hstack rfl id (fun h => absurd h id) (fun h => absurd h id)
          · exact hinv.replace hstack rfl id (fun h => absurd h id) (fun h => absurd h id)
  | test w' =>
      simp only [Io.scanGoOn]
      split
      · next hpending =>
        refine hinv.replace hstack rfl id (fun h => absurd h id) (fun htouches => .inr ?_)
        -- A pending work is not one whose handler is executed.
        rintro below hbelow hrunning
        refine hinv.idle ⟨below, ?_, hrunning⟩ (htouches ▸ hpending)
        rw [hstack]
        exact List.mem_cons_of_mem _ hbelow
      · exact hinv.replace hstack rfl id (fun h => absurd h id) (fun h => absurd h id)
  | read w' => exact hinv.replace hstack rfl id (fun h => absurd h id) .inl
  | write w' flags =>
      exact hinv.replace hstack rfl (fun hpending => (pending_of_clear hpending).2)
        (fun h => absurd h id) .inl
  | enable w' => exact hinv.replace hstack rfl id (fun h => absurd h id) .inl
  | call w' => exact hinv.replace hstack rfl id hcall .inl
  | running w' => exact hinv.replace hstack rfl id (fun h => absurd h id) (fun h => absurd h id)
  | disable w' => exact hinv.replace hstack rfl id (fun h => absurd h id) (fun h => absurd h id)

theorem AloneInv.goOn (hinv : AloneInv w s) (hstack : s.stack = point :: rest)
    (hcall : point.Calling w → ¬s.Pending w) (hstep : irqGoOn s rest point = some s') :
    AloneInv w s' := by
  cases point with
  | handler => cases hstep
  | handleSet w' =>
      cases hstep
      exact hinv.replace hstack rfl id (fun h => absurd h id) .inl
  | handleRead w' =>
      cases hstep
      exact hinv.replace hstack rfl id (fun h => absurd h id) .inl
  | handleWrite w' flags =>
      cases hstep
      refine hinv.pop hstack rfl fun hpending => ?_
      by_cases heq : w = w'
      · exact .inr heq.symm
      · exact .inl ((setFlags_has_of_ne heq).mp hpending)
  | checkGet times =>
      cases times with
      | zero =>
          cases hstep
          exact hinv.pop hstack rfl .inl
      | succ times =>
          cases hstep
          exact hinv.replace hstack rfl id (fun h => absurd h id) (fun h => absurd h id)
  | checkClear times event =>
      cases hstep
      exact hinv.replace hstack rfl id (fun h => absurd h id) (fun h => absurd h id)
  | checkTest times event =>
      simp only [irqGoOn] at hstep
      split at hstep
      · cases hstep
        exact hinv.pop hstack rfl .inl
      · cases hstep
        exact hinv.replace hstack rfl id (fun h => absurd h id) (fun h => absurd h id)
  | scan p at' =>
      cases hstep
      exact hinv.scanGoOn hstack hcall

theorem AloneInv.queueEnter {queue : ℕ} {w' : ω} (hinv : AloneInv w s) :
    AloneInv w (s.queueEnter queue w') := by
  unfold DelayIrq.queueEnter
  split
  · exact hinv
  · refine ⟨fun hrunning hpending => hinv.idle hrunning ?_, hinv.alone⟩
    by_cases heq : w = w'
    · subst heq
      simp only [DelayIrq.Pending, Function.update_self] at hpending
      exact (has_set.mp hpending).resolve_right (by decide)
    · simpa [DelayIrq.Pending, Function.update_of_ne heq] using hpending

theorem AloneInv.step {op : IrqOp ω} (hinv : AloneInv w s) (hmove : AloneIrqMove w s op s') :
    AloneInv w s' := by
  obtain ⟨halone, hstep⟩ := hmove
  cases op with
  | interrupt =>
      simp only [IrqMove, irqStep] at hstep
      split at hstep
      · cases hstep
        exact hinv.push rfl id id (fun h => absurd h id)
      · cases hstep
  | workHandle w' =>
      simp only [IrqMove, irqStep] at hstep
      split at hstep
      · cases hstep
        unfold DelayIrq.workHandle
        split
        · exact hinv
        · exact hinv.push rfl id id halone
      · cases hstep
  | setIrq on =>
      simp only [IrqMove, irqStep] at hstep
      split at hstep
      · cases hstep
        exact ⟨hinv.idle, hinv.alone⟩
      · cases hstep
  | queueEnter queue w' =>
      simp only [IrqMove, irqStep] at hstep
      split at hstep
      · cases hstep
        exact hinv.queueEnter
      · cases hstep
  | exit =>
      simp only [IrqMove, irqStep] at hstep
      split at hstep
      · next rest hstack =>
        split at hstep
        · cases hstep
        · cases hstep
          exact hinv.replace hstack rfl id (fun h => absurd h id) (fun h => absurd h id)
      · cases hstep
  | goOn =>
      simp only [IrqMove, irqStep] at hstep
      split at hstep
      · cases hstep
      · next point rest hstack =>
        exact hinv.goOn hstack (halone point (by rw [hstack]; rfl)) hstep

/-- In every run in which the work is not requested while its handler runs, and has no request
when it is called, its handler is not reentered. -/
theorem aloneReachable_notReentered {raw : ω → DelayWork} {noreenter : ω → Bool}
    (hreach : Reachable (AloneIrqMove w) (.new raw noreenter) s) : NotReentered w s := by
  have hinv : AloneInv w s := hreach.invariant
    ⟨by simp [DelayIrq.new], List.Pairwise.nil⟩ fun hinv hmove => hinv.step hmove
  exact hinv.notReentered

end Invariant

theorem aloneReachable_notReentered_served : ∃ s : DelayIrq Unit,
    Reachable (AloneIrqMove ()) (.new (fun _ => ⟨0, 0⟩) fun _ => true) s ∧ s.entries () = 1 ∧
      NotReentered () s := by
  have heval : (perform (aloneIrqStep ()) (.new (fun _ => ⟨0, 0⟩) fun _ => true) servedRun).map
      (fun s => s.entries ()) = some 1 := by
    decide +kernel
  obtain ⟨s, hrun, hentries⟩ := Option.map_eq_some_iff.mp heval
  have hreach : Reachable (AloneIrqMove ()) (.new (fun _ => ⟨0, 0⟩) fun _ => true) s :=
    Reachable.of_perform aloneIrqMove_of_aloneIrqStep hrun
  exact ⟨s, hreach, hentries, aloneReachable_notReentered hreach⟩

def nestedRun : List (IrqOp Unit) :=
  [.queueEnter 1 (), .setIrq true, .interrupt, .workHandle (), .goOn, .goOn, .goOn, .exit] ++
    List.replicate 10 .goOn ++
    [.interrupt, .workHandle (), .goOn, .goOn, .goOn, .exit] ++ List.replicate 10 .goOn

/-- The handler of a work that was initialised with `NX_IRQ_WORK_NOREENTER` is reentered. -/
theorem irqReachable_reentered : ∃ s : DelayIrq Unit,
    Reachable IrqMove (.new (fun _ => ⟨0, 0⟩) fun _ => true) s ∧ ¬NotReentered () s := by
  have heval : (perform irqStep (.new (fun _ => ⟨0, 0⟩) fun _ => true) nestedRun).map
      (fun s => decide (NotReentered () s)) = some false := by
    decide +kernel
  obtain ⟨s, hrun, hreentered⟩ := Option.map_eq_some_iff.mp heval
  exact ⟨s, Reachable.of_perform id hrun, of_decide_eq_false hreentered⟩

end Nxos.Io
