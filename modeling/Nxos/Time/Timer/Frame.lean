import Nxos.Time.Timer.Waiting

/-!
# What the timer functions leave alone

A call that is about one timer keeps what the other ones are: they stay live or free, on the
list or off it, with their handlers and flags.
-/

namespace Nxos.Time

variable {κ : Type} {σ τ ρ : Timers κ} {p : ℕ}

def TimerOp.address : TimerOp κ → Option ℕ
  | .init p _ _ _ => some p
  | .create p _ _ _ => some p
  | .destroy p => some p
  | .start p => some p
  | .stop p => some p
  | .go _ => none

def TimerOp.handler : TimerOp κ → Option κ
  | .init _ _ handler _ => handler
  | .create _ _ handler _ => handler
  | .destroy _ => none
  | .start _ => none
  | .stop _ => none
  | .go _ => none

/-- Timers other than `p` stay as they are, up to their timeouts. -/
structure Elsewhere (σ τ : Timers κ) (p : ℕ) : Prop where
  live : ∀ q, q ≠ p → τ.live q = σ.live q
  handler : ∀ q, q ≠ p → (τ.timer q).handler = (σ.timer q).handler
  flags : ∀ q, q ≠ p → (τ.timer q).flags = (σ.timer q).flags
  listed : ∀ q, q ≠ p → (q ∈ τ.timerList ↔ q ∈ σ.timerList)

namespace Elsewhere

theorem refl (σ : Timers κ) (p : ℕ) : Elsewhere σ σ p :=
  ⟨fun _ _ => rfl, fun _ _ => rfl, fun _ _ => rfl, fun _ _ => Iff.rfl⟩

theorem trans (h : Elsewhere σ τ p) (h' : Elsewhere τ ρ p) : Elsewhere σ ρ p where
  live := fun q hq => (h'.live q hq).trans (h.live q hq)
  handler := fun q hq => (h'.handler q hq).trans (h.handler q hq)
  flags := fun q hq => (h'.flags q hq).trans (h.flags q hq)
  listed := fun q hq => (h'.listed q hq).trans (h.listed q hq)

theorem write (σ : Timers κ) (p : ℕ) (t : Timer κ) : Elsewhere σ (σ.write p t) p :=
  ⟨fun _ _ => rfl, fun _ hq => congrArg Timer.handler (write_timer_of_ne hq),
    fun _ hq => congrArg Timer.flags (write_timer_of_ne hq), fun _ _ => Iff.rfl⟩

theorem log (h : Elsewhere σ τ p) (e : TimerEvent) : Elsewhere σ (τ.log e) p :=
  h.trans ⟨fun _ _ => rfl, fun _ _ => rfl, fun _ _ => rfl, fun _ _ => Iff.rfl⟩

theorem setLive (σ : Timers κ) (p : ℕ) (b : Bool) :
    Elsewhere σ { σ with live := Function.update σ.live p b } p :=
  ⟨fun _ hq => Function.update_of_ne hq .., fun _ _ => rfl, fun _ _ => rfl, fun _ _ => Iff.rfl⟩

theorem memFree (σ : Timers κ) (p : ℕ) : Elsewhere σ (σ.memFree p) p := setLive σ p false

theorem insert (h : Inserted σ τ p) : Elsewhere σ τ p := by
  refine ⟨fun q _ => congrFun h.live q, fun q _ => by rw [h.timer], fun q _ => by rw [h.timer],
    fun q hq => ?_⟩
  rw [h.perm.mem_iff, List.mem_cons, or_iff_right hq]

theorem remove (h : Removed σ τ p) : Elsewhere σ τ p := by
  refine ⟨h.live, fun q _ => by rw [h.timer], fun q _ => by rw [h.timer], fun q hq => ?_⟩
  rw [h.timerList]
  exact List.mem_erase_of_ne hq

/-! ## The calls -/

theorem init (σ : Timers κ) (p : ℕ) (milliseconds : BitVec 64)
    (handler : Option (TimerHandler κ)) (flags : BitVec 32) :
    Elsewhere σ (timerInit σ p milliseconds handler flags).2 p := by
  cases handler with
  | none => exact .refl σ p
  | some handler =>
      simp only [timerInit]
      split
      · exact .refl σ p
      · split
        · exact .refl σ p
        · exact (write σ p _).trans (setLive _ p true)

theorem create (σ : Timers κ) (p : ℕ) (milliseconds : BitVec 64)
    (handler : Option (TimerHandler κ)) (flags : BitVec 32) :
    Elsewhere σ (timerCreate σ p milliseconds handler flags).2 p := by
  have hinit := init σ p milliseconds handler flags
  rw [timerCreate]
  split
  · exact .refl σ p
  · simp only
    split
    · exact hinit.trans (write _ p _)
    · exact hinit.trans (memFree _ p)

theorem destroy (σ : Timers κ) (p : ℕ) (beyond : ClockTick) :
    Elsewhere σ (timerDestroy σ p beyond).2 p := by
  have hremove : Elsewhere σ (timerRemove σ p false true beyond) p := by
    rw [timerRemove]
    simp only [Bool.false_eq_true, if_false]
    split
    · exact memFree σ p
    · exact .refl σ p
  rw [timerDestroy]
  split
  · exact .refl σ p
  · cases (σ.timer p).state with
    | waiting => exact .refl σ p
    | processing => exact .refl σ p
    | stopped => exact hremove
    | inited => exact hremove

theorem start (σ : Timers κ) (p : ℕ) : Elsewhere σ (timerStart σ p).2 p := by
  have houtcome := startOutcome σ p
  generalize timerStart σ p = r at houtcome ⊢
  cases houtcome with
  | null hnull => exact (refl σ p).log _
  | refused err hnull herr => exact (write σ p _).log _
  | accepted τ hnull hfree hcheck hinserted => exact ((write σ p _).trans (insert hinserted)).log _

theorem stop (beyond : ClockTick) (hsettled : p ≠ 0 → (σ.timer p).state ≠ .processing) :
    Elsewhere σ (timerStop σ p beyond).2 p := by
  have houtcome := stopOutcome beyond hsettled
  generalize timerStop σ p beyond = r at houtcome ⊢
  cases houtcome with
  | refused err herr => exact (refl σ p).log _
  | stopped τ hnull hwaiting hremoved hlive => exact ((write σ p _).trans (remove hremoved)).log _

theorem invoke {again : Bool} (h : Invocation σ τ p again) : Elsewhere σ τ p := by
  have hsame : ∀ q, q ≠ p → (τ.timer q).handler = (σ.timer q).handler ∧
      (τ.timer q).flags = (σ.timer q).flags := by
    intro q hq
    by_cases hlisted : q ∈ σ.timerList
    · rw [h.listed q hlisted hq]
      exact ⟨rfl, rfl⟩
    · rw [h.unlisted q hlisted]
      exact ⟨rfl, rfl⟩
  exact ⟨h.live, fun q hq => (hsame q hq).1, fun q hq => (hsame q hq).2,
    fun q hq => TimerInv.listed_of_invocation h hq⟩

end Elsewhere

/-! ## The timer that the call is about -/

/-- A timer that is live afterwards is the one from before, or it got its handler from the
caller. -/
def SameTimer (σ τ : Timers κ) (p : ℕ) (handler : Option (TimerHandler κ)) : Prop :=
  τ.live p = true →
    σ.live p = true ∧ (τ.timer p).handler = (σ.timer p).handler ∨
      some (τ.timer p).handler = handler

theorem SameTimer.of_eq {handler : Option (TimerHandler κ)} (hlive : τ.live p = σ.live p)
    (htimer : (τ.timer p).handler = (σ.timer p).handler) : SameTimer σ τ p handler :=
  fun h => .inl ⟨hlive ▸ h, htimer⟩

theorem sameTimer_init (σ : Timers κ) (p : ℕ) (milliseconds : BitVec 64)
    (handler : Option (TimerHandler κ)) (flags : BitVec 32) :
    SameTimer σ (timerInit σ p milliseconds handler flags).2 p handler := by
  cases handler with
  | none => exact .of_eq rfl rfl
  | some handler =>
      simp only [timerInit]
      split
      · exact .of_eq rfl rfl
      · split
        · exact .of_eq rfl rfl
        · exact fun _ => .inr (congrArg (fun t => some t.handler) (write_timer_self σ p _))

theorem sameTimer_create (σ : Timers κ) (p : ℕ) (milliseconds : BitVec 64)
    (handler : Option (TimerHandler κ)) (flags : BitVec 32) :
    SameTimer σ (timerCreate σ p milliseconds handler flags).2 p handler := by
  have hinit := sameTimer_init σ p milliseconds handler flags
  rw [timerCreate]
  split
  · exact .of_eq rfl rfl
  · simp only
    split
    · intro hlive
      rw [write_timer_self]
      exact hinit hlive
    · intro hlive
      exact Bool.noConfusion ((Function.update_self ..).symm.trans hlive)

theorem sameTimer_destroy (σ : Timers κ) (p : ℕ) (beyond : ClockTick) :
    SameTimer σ (timerDestroy σ p beyond).2 p none := by
  have hremove : SameTimer σ (timerRemove σ p false true beyond) p none := by
    rw [timerRemove]
    simp only [Bool.false_eq_true, if_false]
    split
    · intro hlive
      exact Bool.noConfusion ((Function.update_self ..).symm.trans hlive)
    · exact .of_eq rfl rfl
  rw [timerDestroy]
  split
  · exact .of_eq rfl rfl
  · cases (σ.timer p).state with
    | waiting => exact .of_eq rfl rfl
    | processing => exact .of_eq rfl rfl
    | stopped => exact hremove
    | inited => exact hremove

theorem sameTimer_start (σ : Timers κ) (p : ℕ) : SameTimer σ (timerStart σ p).2 p none := by
  have houtcome := startOutcome σ p
  generalize timerStart σ p = r at houtcome ⊢
  cases houtcome with
  | null hnull => exact .of_eq rfl rfl
  | refused err hnull herr =>
      exact .of_eq rfl ((congrArg Timer.handler (write_timer_self σ p _)).trans rfl)
  | accepted τ hnull hfree hcheck hinserted =>
      refine .of_eq (congrFun hinserted.live p) ?_
      have hself := (congrFun hinserted.timer p).trans (write_timer_self σ p _)
      exact (congrArg Timer.handler hself).trans rfl

theorem sameTimer_stop (beyond : ClockTick) (hsettled : p ≠ 0 → (σ.timer p).state ≠ .processing) :
    SameTimer σ (timerStop σ p beyond).2 p none := by
  have houtcome := stopOutcome beyond hsettled
  generalize timerStop σ p beyond = r at houtcome ⊢
  cases houtcome with
  | refused err herr => exact .of_eq rfl rfl
  | stopped τ hnull hwaiting hremoved hlive =>
      refine .of_eq (congrFun hlive p) ?_
      have hself := (congrFun hremoved.timer p).trans (write_timer_self σ p _)
      exact (congrArg Timer.handler hself).trans rfl

theorem timerStep_frame (hinv : TimerInv σ) {op : TimerOp κ} (hallowed : op.Allowed σ)
    (haddress : p ∈ op.address) (beyond : ClockTick) :
    Elsewhere σ (timerStep σ beyond op) p ∧
      SameTimer σ (timerStep σ beyond op) p (op.handler.map .client) := by
  cases op with
  | init q milliseconds handler flags =>
      cases haddress
      exact ⟨.init .., sameTimer_init σ p milliseconds _ flags⟩
  | create q milliseconds handler flags =>
      cases haddress
      exact ⟨.create .., sameTimer_create σ p milliseconds _ flags⟩
  | destroy q =>
      cases haddress
      exact ⟨.destroy .., sameTimer_destroy σ p beyond⟩
  | start q =>
      cases haddress
      exact ⟨.start .., sameTimer_start σ p⟩
  | stop q =>
      cases haddress
      have hsettled : p ≠ 0 → (σ.timer p).state ≠ .processing :=
        fun hnull => hinv.settled p (hallowed.2.resolve_left hnull)
      exact ⟨.stop beyond hsettled, sameTimer_stop beyond hsettled⟩
  | go answer => cases haddress

/-! ## Outcomes -/

/-- The memory of a timer that `NX_TimerInit` accepts. -/
def initedTimer (milliseconds : BitVec 64) (handler : TimerHandler κ) (flags : BitVec 32) :
    Timer κ where
  state := .inited
  timeout := 0
  timeTicks := millisecondToTicks milliseconds
  flags := flags
  handler := handler

theorem timerInit_oneshot (σ : Timers κ) {milliseconds : BitVec 64} (hnull : p ≠ 0)
    (hzero : milliseconds ≠ 0) (handler : TimerHandler κ) :
    timerInit σ p milliseconds (some handler) timerOneshot =
      (.eok, { σ.write p (initedTimer milliseconds handler timerOneshot) with
        live := Function.update σ.live p true }) := by
  have hflags : ¬(p = 0 ∨ milliseconds = 0 ∨ timerOneshot = 0) := by
    rintro (h | h | h)
    · exact hnull h
    · exact hzero h
    · exact absurd h (by decide)
  simp only [timerInit]
  rw [if_neg hflags, if_neg (by decide)]
  rfl

/-- `NX_TimerStart` accepts a timer off the list whose time is short enough. -/
theorem timerStart_eok (hnull : p ≠ 0) (hfree : p ∉ σ.timerList)
    (hcheck : ¬idleTimerTimeoutTicks - (σ.timer p).timeTicks < σ.timerTicks) :
    (timerStart σ p).1 = .eok := by
  rw [timerStart]
  have hlocked : timerStartLocked σ p = (.eok, (((σ.write p ((σ.timer p).setTimeout
      ((σ.timer p).timeTicks + σ.timerTicks))).write p (σ.armed p)).insert p)) :=
    (if_neg hcheck).trans (if_neg hfree)
  simp only [if_neg hnull, hlocked]

theorem timerStop_not_listed (hinv : TimerInv σ) (hnull : p ≠ 0)
    (beyond : ClockTick) : p ∉ (timerStop σ p beyond).2.timerList := by
  rw [timerStop, timerStopUnlocked, if_neg hnull]
  by_cases hp : p ∈ σ.timerList
  · simp only [((hinv.waiting p).mp hp).2]
    show p ∉ (timerRemove _ p true false beyond).timerList
    rw [(removed _ p false beyond).timerList]
    exact fun h => ((hinv.nodup.mem_erase_iff).mp h).1 rfl
  · cases hstate : (σ.timer p).state with
    | inited => exact hp
    | stopped => exact hp
    | processing => exact hp
    | waiting =>
        simp only
        show p ∉ (timerRemove _ p true false beyond).timerList
        rw [(removed _ p false beyond).timerList]
        exact fun h => hp (List.mem_of_mem_erase h)

end Nxos.Time
