import Nxos.Time.Timer.Punctual

/-!
# Refused starts

`NX_TimerStart` writes the timeout of the timer before it makes its checks.  A start that is
refused therefore moves the timeout of a timer that may be on the list, and leaves everything
else alone.  Nothing changes exactly when the new timeout is the one that the timer had.
-/

namespace Nxos.Time

open Nxos.Transition

variable {κ : Type}

/-- `NX_TimerStart` returns `NX_EAGAIN` or `NX_EINVAL`. -/
def StartRefused (σ : Timers κ) (p : ℕ) : Prop :=
  (timerStart σ p).1 = .eagain ∨ (timerStart σ p).1 = .einval

/-- The timers and their list, as far as the expiry of timers depends on them. -/
structure SameTimers (σ τ : Timers κ) : Prop where
  timerList : τ.timerList = σ.timerList
  timeout : ∀ q, (τ.timer q).timeout = (σ.timer q).timeout
  state : ∀ q, (τ.timer q).state = (σ.timer q).state
  nextTimeoutTicks : τ.nextTimeoutTicks = σ.nextTimeoutTicks

theorem sameTimers_log (σ : Timers κ) (e : TimerEvent) : SameTimers σ (σ.log e) :=
  ⟨rfl, fun _ => rfl, fun _ => rfl, rfl⟩

theorem sameTimers_setTimeout_iff (σ : Timers κ) (p : ℕ) (timeout : ClockTick) (e : TimerEvent) :
    SameTimers σ ((σ.write p ((σ.timer p).setTimeout timeout)).log e) ↔
      (σ.timer p).timeout = timeout := by
  constructor
  · intro hsame
    have hp := hsame.timeout p
    change ((σ.write p _).timer p).timeout = _ at hp
    rw [write_timer_self] at hp
    exact hp.symm
  · intro heq
    have hself : (σ.timer p).setTimeout timeout = σ.timer p := by
      subst heq
      rfl
    have hwrite : (σ.write p ((σ.timer p).setTimeout timeout)).timer = σ.timer := by
      rw [hself]
      exact Function.update_eq_self p σ.timer
    refine ⟨rfl, fun q => ?_, fun q => ?_, rfl⟩
    · exact congrArg (fun mem => (mem q).timeout) hwrite
    · exact congrArg (fun mem => (mem q).state) hwrite

/-- A refused start changes nothing exactly when the timer is the null pointer or already has
the timeout that a start at this tick gives it. -/
theorem timerStart_refused_sameTimers_iff (σ : Timers κ) (p : ℕ) (hrefused : StartRefused σ p) :
    SameTimers σ (timerStart σ p).2 ↔
      p = 0 ∨ (σ.timer p).timeout = (σ.timer p).timeTicks + σ.timerTicks := by
  unfold StartRefused at hrefused
  have houtcome := startOutcome σ p
  generalize timerStart σ p = r at houtcome hrefused ⊢
  cases houtcome with
  | null hnull => exact iff_of_true (sameTimers_log σ _) (Or.inl hnull)
  | refused err hnull herr =>
      rw [or_iff_right hnull]
      exact sameTimers_setTimeout_iff σ p _ _
  | accepted τ hnull hfree hcheck hinserted => simp at hrefused

def startedRun : List (TimerOp Unit) :=
  [.init 2 20 (some ()) timerOneshot, .init 3 20 (some ()) timerOneshot, .start 2, .start 3]

theorem timerStart_refused_sameTimers_same_tick :
    ∃ σ, perform allowedStep (timersStarted blankMemory) startedRun = some σ ∧
      StartRefused σ 2 ∧ SameTimers σ (timerStart σ 2).2 := by
  have heval : (perform allowedStep (timersStarted blankMemory) startedRun).map
      (fun σ => ((timerStart σ 2).1,
        decide ((σ.timer 2).timeout = (σ.timer 2).timeTicks + σ.timerTicks))) =
      some (.eagain, true) := by
    decide +kernel
  obtain ⟨σ, hrun, hσ⟩ := Option.map_eq_some_iff.mp heval
  obtain ⟨herr, hsame⟩ := Prod.mk.inj hσ
  have hrefused : StartRefused σ 2 := Or.inl herr
  exact ⟨σ, hrun, hrefused,
    (timerStart_refused_sameTimers_iff σ 2 hrefused).mpr (Or.inr (of_decide_eq_true hsame))⟩

/-- One tick later the timer gets a later timeout where it is on the list, and the list is no
longer in order. -/
theorem exists_timerStart_refused_moved :
    ∃ start σ, timersInit blankMemory = .ok start ∧ Reachable TimerMove start σ ∧
      (timerStart σ 2).1 = .eagain ∧ σ.InOrder ∧ ¬SameTimers σ (timerStart σ 2).2 ∧
      ¬(timerStart σ 2).2.InOrder := by
  have heval : (perform allowedStep (timersStarted blankMemory)
      (startedRun ++ [.go fun _ => true])).map
      (fun σ => ((timerStart σ 2).1, decide (σ.InOrder ∧
        (σ.timer 2).timeout ≠ ((timerStart σ 2).2.timer 2).timeout ∧
        ¬(timerStart σ 2).2.InOrder))) =
      some (.eagain, true) := by
    decide +kernel
  obtain ⟨σ, hrun, hσ⟩ := Option.map_eq_some_iff.mp heval
  obtain ⟨herr, hfacts⟩ := Prod.mk.inj hσ
  obtain ⟨horder, hmoved, hdisorder⟩ := of_decide_eq_true hfacts
  refine ⟨_, σ, timersInit_eq blankMemory, .of_perform timerMove_of_allowedStep hrun, herr,
    horder, ?_, hdisorder⟩
  intro hsame
  exact hmoved (hsame.timeout 2).symm

end Nxos.Time
