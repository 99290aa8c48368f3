import Mathlib.Data.BitVec
import Mathlib.Data.List.Pairwise
import Nxos.Time.Timer.Model

/-!
# What the timer functions do

One specification for each function of `timer.c` says what it changes: where a started
timer is inserted, what the removal of a timer leaves, and the two ways in which an
invocation can end.  The loop of a tick has a rule of its own.
-/

namespace Nxos.Time

variable {κ ω : Type}

/-! ## Small facts -/

@[simp] theorem write_timer_self (σ : Timers κ) (p : ℕ) (t : Timer κ) :
    (σ.write p t).timer p = t :=
  Function.update_self ..

theorem write_timer_of_ne {σ : Timers κ} {p q : ℕ} {t : Timer κ} (h : q ≠ p) :
    (σ.write p t).timer q = σ.timer q :=
  Function.update_of_ne h ..

@[simp] theorem write_timerList (σ : Timers κ) (p : ℕ) (t : Timer κ) :
    (σ.write p t).timerList = σ.timerList := rfl

@[simp] theorem write_timerTicks (σ : Timers κ) (p : ℕ) (t : Timer κ) :
    (σ.write p t).timerTicks = σ.timerTicks := rfl

@[simp] theorem write_history (σ : Timers κ) (p : ℕ) (t : Timer κ) :
    (σ.write p t).history = σ.history := rfl

@[simp] theorem setTimeout_timeout (t : Timer κ) (timeout : ClockTick) :
    (t.setTimeout timeout).timeout = timeout := rfl

@[simp] theorem setTimeout_timeTicks (t : Timer κ) (timeout : ClockTick) :
    (t.setTimeout timeout).timeTicks = t.timeTicks := rfl

/-- The search for the next timeout changes `nextTimeoutTicks` and the history only. -/
structure FindsNext (σ τ : Timers κ) : Prop where
  timer : τ.timer = σ.timer
  live : τ.live = σ.live
  timerList : τ.timerList = σ.timerList
  timerTicks : τ.timerTicks = σ.timerTicks
  history : τ.history = σ.history ∨ τ.history = σ.history ++ [.headRead]

theorem findsNext (σ : Timers κ) (beyond : ClockTick) : FindsNext σ (σ.findNext beyond) := by
  unfold Timers.findNext
  cases σ.firstLater with
  | some next => exact ⟨rfl, rfl, rfl, rfl, .inl rfl⟩
  | none => exact ⟨rfl, rfl, rfl, rfl, .inr rfl⟩

theorem findNext_of_later {σ : Timers κ} {first : ℕ} {rest : List ℕ} (beyond : ClockTick)
    (hlist : σ.timerList = first :: rest) (hlater : σ.timerTicks < (σ.timer first).timeout) :
    σ.findNext beyond = { σ with nextTimeoutTicks := (σ.timer first).timeout } := by
  have hfirst : σ.firstLater = some first := by
    rw [Timers.firstLater, hlist, List.find?_cons_of_pos (by simpa using hlater)]
  rw [Timers.findNext, hfirst]

theorem findNext_history {σ : Timers κ} {p : ℕ} (beyond : ClockTick) (hp : p ∈ σ.timerList)
    (hlater : σ.timerTicks < (σ.timer p).timeout) :
    (σ.findNext beyond).history = σ.history := by
  rw [Timers.findNext]
  cases hfirst : σ.firstLater with
  | some next => rfl
  | none =>
      have hnone := List.find?_eq_none.mp hfirst p hp
      rw [decide_eq_true hlater] at hnone
      exact absurd rfl hnone

/-! ## Insertion -/

theorem insertAfterNearly_eq_some {timeout : ℕ → ClockTick} {p : ℕ} {list list' : List ℕ}
    (h : insertAfterNearly timeout p list = some list') :
    ∃ before prev after, list = before ++ prev :: after ∧
      list' = before ++ prev :: p :: after ∧ timeout prev ≤ timeout p ∧
      ∀ q ∈ after, timeout p < timeout q := by
  have hnone : ∀ {list : List ℕ}, insertAfterNearly timeout p list = none →
      ∀ q ∈ list, timeout p < timeout q := by
    intro list hlist
    induction list with
    | nil =>
        intro q hq
        cases hq
    | cons head rest ih =>
        rw [insertAfterNearly] at hlist
        cases hrest : insertAfterNearly timeout p rest with
        | some list => rw [hrest] at hlist; cases hlist
        | none =>
            rw [hrest] at hlist
            have hhead : ¬timeout head ≤ timeout p := by
              intro hle
              simp only [if_pos hle] at hlist
              cases hlist
            intro q hq
            rcases List.mem_cons.mp hq with rfl | hq
            · exact BitVec.not_le.mp hhead
            · exact ih hrest q hq
  induction list generalizing list' with
  | nil => cases h
  | cons head rest ih =>
      rw [insertAfterNearly] at h
      cases hrest : insertAfterNearly timeout p rest with
      | some tail =>
          rw [hrest] at h
          cases h
          obtain ⟨before, prev, after, rfl, rfl, hle, hafter⟩ := ih hrest
          exact ⟨head :: before, prev, after, rfl, rfl, hle, hafter⟩
      | none =>
          rw [hrest] at h
          by_cases hle : timeout head ≤ timeout p
          · simp only [if_pos hle] at h
            cases h
            exact ⟨[], head, rest, rfl, rfl, hle, hnone hrest⟩
          · simp only [if_neg hle] at h
            cases h

theorem insertAfterNearly_isSome (timeout : ℕ → ClockTick) {p first : ℕ} (rest : List ℕ)
    (hle : timeout first ≤ timeout p) :
    ∃ list, insertAfterNearly timeout p (first :: rest) = some list := by
  rw [insertAfterNearly]
  cases insertAfterNearly timeout p rest with
  | some tail => exact ⟨_, rfl⟩
  | none => exact ⟨_, if_pos hle⟩

/-- A timer is inserted at the front, when it is earlier than the first one, or right
behind a timer that is not later. -/
structure Inserted (σ τ : Timers κ) (p : ℕ) : Prop where
  timer : τ.timer = σ.timer
  live : τ.live = σ.live
  timerTicks : τ.timerTicks = σ.timerTicks
  history : τ.history = σ.history
  place :
    (τ.timerList = p :: σ.timerList ∧ τ.nextTimeoutTicks = (σ.timer p).timeout ∧
      ∀ first rest, σ.timerList = first :: rest →
        (σ.timer p).timeout < (σ.timer first).timeout) ∨
    ∃ before prev after, σ.timerList = before ++ prev :: after ∧
      τ.timerList = before ++ prev :: p :: after ∧
      τ.nextTimeoutTicks = σ.nextTimeoutTicks ∧
      (σ.timer prev).timeout ≤ (σ.timer p).timeout ∧
      ∀ q ∈ after, (σ.timer p).timeout < (σ.timer q).timeout

theorem inserted (σ : Timers κ) (p : ℕ) : Inserted σ (σ.insert p) p := by
  cases hlist : σ.timerList with
  | nil =>
      rw [Timers.insert]
      simp only [hlist]
      refine ⟨rfl, rfl, rfl, rfl, .inl ⟨by rw [hlist], rfl, ?_⟩⟩
      intro first rest hcons
      rw [hlist] at hcons
      cases hcons
  | cons first rest =>
      rw [Timers.insert]
      simp only [hlist]
      by_cases hlt : (σ.timer p).timeout < (σ.timer first).timeout
      · rw [if_pos hlt]
        refine ⟨rfl, rfl, rfl, rfl, .inl ⟨by rw [hlist], rfl, ?_⟩⟩
        intro head tail hcons
        rw [hlist] at hcons
        cases hcons
        exact hlt
      · rw [if_neg hlt]
        obtain ⟨list, hinsert⟩ := insertAfterNearly_isSome (fun q => (σ.timer q).timeout)
          (p := p) rest (BitVec.not_lt.mp hlt)
        obtain ⟨before, prev, after, hsplit, rfl, hle, hafter⟩ :=
          insertAfterNearly_eq_some hinsert
        rw [hinsert, Option.getD_some]
        exact ⟨rfl, rfl, rfl, rfl,
          .inr ⟨before, prev, after, hlist.trans hsplit, rfl, rfl, hle, hafter⟩⟩

theorem Inserted.perm {σ τ : Timers κ} {p : ℕ} (h : Inserted σ τ p) :
    τ.timerList.Perm (p :: σ.timerList) := by
  rcases h.place with ⟨hlist, -⟩ | ⟨before, prev, after, hσ, hτ, -⟩
  · rw [hlist]
  · rw [hσ, hτ]
    have hswap : (before ++ [prev] ++ p :: after).Perm (p :: (before ++ [prev] ++ after)) :=
      List.perm_middle
    simpa only [List.append_assoc, List.singleton_append] using hswap

/-! ## Removal -/

/-- A timer is taken off the list, and freed when that is asked for. -/
structure Removed (σ τ : Timers κ) (p : ℕ) : Prop where
  timer : τ.timer = σ.timer
  timerList : τ.timerList = σ.timerList.erase p
  timerTicks : τ.timerTicks = σ.timerTicks
  live : ∀ q, q ≠ p → τ.live q = σ.live q
  liveSelf : (σ.timer p).flags &&& timerDynamic = 0 → τ.live p = σ.live p
  next : ∀ first rest, σ.timerList.erase p = first :: rest →
    σ.timerTicks < (σ.timer first).timeout → τ.nextTimeoutTicks = (σ.timer first).timeout
  history : τ.history = σ.history ∨ τ.history = σ.history ++ [.headRead]
  quiet : ∀ q ∈ σ.timerList.erase p, σ.timerTicks < (σ.timer q).timeout →
    τ.history = σ.history

theorem removed (σ : Timers κ) (p : ℕ) (destroy : Bool) (beyond : ClockTick) :
    Removed σ (timerRemove σ p true destroy beyond) p := by
  have hfinds := findsNext { σ with timerList := σ.timerList.erase p } beyond
  have hnext : ∀ first rest, σ.timerList.erase p = first :: rest →
      σ.timerTicks < (σ.timer first).timeout →
      (Timers.findNext { σ with timerList := σ.timerList.erase p } beyond).nextTimeoutTicks =
        (σ.timer first).timeout := by
    intro first rest hlist hlater
    rw [findNext_of_later (σ := { σ with timerList := σ.timerList.erase p }) beyond hlist hlater]
  have hquiet : ∀ q ∈ σ.timerList.erase p, σ.timerTicks < (σ.timer q).timeout →
      (Timers.findNext { σ with timerList := σ.timerList.erase p } beyond).history =
        σ.history := by
    intro q hq hlater
    exact findNext_history (σ := { σ with timerList := σ.timerList.erase p }) beyond hq hlater
  rw [timerRemove]
  simp only [if_true]
  by_cases hfree : (destroy && decide ((σ.timer p).flags &&& timerDynamic ≠ 0)) = true
  · rw [hfinds.timer, if_pos hfree]
    refine ⟨hfinds.timer, hfinds.timerList, hfinds.timerTicks, ?_, ?_, hnext, hfinds.history,
      hquiet⟩
    · intro q hq
      rw [Timers.memFree, hfinds.live]
      exact Function.update_of_ne hq ..
    · intro hflags
      rw [Bool.and_eq_true, decide_eq_true_eq] at hfree
      exact absurd hflags hfree.2
  · rw [hfinds.timer, if_neg hfree]
    exact ⟨hfinds.timer, hfinds.timerList, hfinds.timerTicks,
      fun q _ => congrFun hfinds.live q, fun _ => congrFun hfinds.live p, hnext,
      hfinds.history, hquiet⟩

/-! ## Invocation -/

/-- What the handler of a timer answers, when those of the clients answer by `answer`. -/
def Timer.answer (t : Timer κ) (answer : κ → Bool) : Bool :=
  match t.handler with
  | .idleTimerHandler => true
  | .client k => answer k

def Timers.turnedBack (σ : Timers κ) (p : ℕ) : ClockTick :=
  match (σ.timer p).handler with
  | .idleTimerHandler => (σ.timer idleTimer).timeout
  | .client _ => 0

/-- The timer is armed again by an invocation in which its handler answers `again`. -/
def Timer.Rearms (t : Timer κ) (again : Bool) : Prop := again = true ∧ t.IsPeriod

/-- An invocation of the timer `p` on the list.  The timeouts go back with the tick count;
then the timer gets its next timeout, or it is taken off the list. -/
structure Invocation (σ τ : Timers κ) (p : ℕ) (again : Bool) : Prop where
  timerTicks : τ.timerTicks = σ.timerTicks - σ.turnedBack p
  listed : ∀ q ∈ σ.timerList, q ≠ p →
    τ.timer q = (σ.timer q).setTimeout ((σ.timer q).timeout - σ.turnedBack p)
  unlisted : ∀ q ∉ σ.timerList, τ.timer q = σ.timer q
  timeTicks : (τ.timer p).timeTicks = (σ.timer p).timeTicks
  flags : (τ.timer p).flags = (σ.timer p).flags
  handler : (τ.timer p).handler = (σ.timer p).handler
  live : ∀ q, q ≠ p → τ.live q = σ.live q
  liveSelf : (σ.timer p).flags &&& timerDynamic = 0 → τ.live p = σ.live p
  rearmed : (σ.timer p).Rearms again →
    τ.timerList = σ.timerList ∧ τ.live = σ.live ∧ (τ.timer p).state = .waiting ∧
      (τ.timer p).timeout = τ.timerTicks + (σ.timer p).timeTicks ∧
      τ.history = σ.history ++ [.invoke p (σ.timer p).timeTicks (σ.timer p).flags again]
  removed : ¬(σ.timer p).Rearms again →
    τ.timerList = σ.timerList.erase p ∧ (τ.timer p).state = .stopped ∧
      ∃ tail, (tail = [] ∨ tail = [TimerEvent.headRead]) ∧ τ.history = σ.history ++
        .invoke p (σ.timer p).timeTicks (σ.timer p).flags again :: tail ∧
      ∀ q ∈ σ.timerList.erase p, τ.timerTicks < (τ.timer q).timeout → tail = []

structure Handled (σ τ : Timers κ) (p : ℕ) (again : Bool) : Prop where
  timerTicks : τ.timerTicks = σ.timerTicks - σ.turnedBack p
  listed : ∀ q ∈ σ.timerList, q ≠ p →
    τ.timer q = (σ.timer q).setTimeout ((σ.timer q).timeout - σ.turnedBack p)
  unlisted : ∀ q ∉ σ.timerList, τ.timer q = σ.timer q
  self : τ.timer p =
    ((σ.timer p).setState .processing).setTimeout ((σ.timer p).timeout - σ.turnedBack p)
  live : τ.live = σ.live
  timerList : τ.timerList = σ.timerList
  history : τ.history = σ.history ++ [.invoke p (σ.timer p).timeTicks (σ.timer p).flags again]

theorem callHandler_client {call : ℕ → κ → ω → Bool × ω} {σ : Timers κ} {w : ω} {p : ℕ}
    {k : κ} (h : (σ.timer p).handler = .client k) :
    callHandler call σ w p = ((call p k w).1,
      σ.log (.invoke p (σ.timer p).timeTicks (σ.timer p).flags (call p k w).1),
        (call p k w).2) := by
  rw [callHandler]
  simp only [Timers.log, h]

theorem callHandler_idle (call : ℕ → κ → ω → Bool × ω) {σ : Timers κ} (w : ω) {p : ℕ}
    (h : (σ.timer p).handler = .idleTimerHandler) :
    ∃ τ, callHandler call σ w p = (true, τ, w) ∧
      τ.timerTicks = σ.timerTicks - (σ.timer idleTimer).timeout ∧
      (∀ q ∈ σ.timerList, τ.timer q =
        (σ.timer q).setTimeout ((σ.timer q).timeout - (σ.timer idleTimer).timeout)) ∧
      (∀ q ∉ σ.timerList, τ.timer q = σ.timer q) ∧
      τ.live = σ.live ∧ τ.timerList = σ.timerList ∧
      τ.history = σ.history ++
        [.invoke p (σ.timer p).timeTicks (σ.timer p).flags true] := by
  refine ⟨(idleTimerHandler σ).log (.invoke p (σ.timer p).timeTicks (σ.timer p).flags true), ?_, rfl,
    fun q hq => if_pos hq, fun q hq => if_neg hq, rfl, rfl, rfl⟩
  rw [callHandler]
  simp only [Timers.log, h]

theorem handled (call : ℕ → κ → ω → Bool × ω) {σ : Timers κ} (w : ω) {p : ℕ}
    (hp : p ∈ σ.timerList) :
    Handled σ (callHandler call (σ.write p ((σ.timer p).setState .processing)) w p).2.1 p
        ((σ.timer p).answer fun k => (call p k w).1) ∧
      (callHandler call (σ.write p ((σ.timer p).setState .processing)) w p).1 =
        (σ.timer p).answer fun k => (call p k w).1 := by
  have hself := write_timer_self σ p ((σ.timer p).setState .processing)
  have hunlisted : ∀ q ∉ σ.timerList,
      (σ.write p ((σ.timer p).setState .processing)).timer q = σ.timer q := by
    intro q hq
    exact write_timer_of_ne fun h => hq (h ▸ hp)
  cases hhandler : (σ.timer p).handler with
  | client k =>
      have hback : σ.turnedBack p = 0 := by rw [Timers.turnedBack, hhandler]
      rw [callHandler_client (by rw [hself]; exact hhandler), hself, Timer.answer, hhandler]
      refine ⟨⟨?_, ?_, hunlisted, ?_, rfl, rfl, rfl⟩, rfl⟩
      · rw [hback, sub_zero]
        rfl
      · intro q _ hne
        rw [hback, sub_zero]
        exact write_timer_of_ne hne
      · rw [hback, sub_zero]
        exact hself
  | idleTimerHandler =>
      have hback : ((σ.write p ((σ.timer p).setState .processing)).timer idleTimer).timeout =
          σ.turnedBack p := by
        rw [Timers.turnedBack, hhandler]
        by_cases hidle : idleTimer = p
        · rw [hidle, hself]
          rfl
        · rw [write_timer_of_ne hidle]
      obtain ⟨τ, hrun, hticks, hlisted, hkept, hlive, hlist, hhistory⟩ :=
        callHandler_idle call w
          (show ((σ.write p ((σ.timer p).setState .processing)).timer p).handler =
            .idleTimerHandler by rw [hself]; exact hhandler)
      rw [hrun, Timer.answer, hhandler]
      rw [hback] at hticks hlisted
      refine ⟨⟨hticks, ?_, ?_, ?_, hlive, hlist, ?_⟩, rfl⟩
      · intro q hq hne
        rw [hlisted q hq, write_timer_of_ne hne]
      · intro q hq
        rw [hkept q hq, hunlisted q hq]
      · rw [hlisted p hp, hself]
        rfl
      · rw [hhistory, hself]
        rfl

namespace Handled

variable {σ τ : Timers κ} {p : ℕ} {again : Bool}

theorem state_ne_stopped (h : Handled σ τ p again) : (τ.timer p).state ≠ .stopped := by
  rw [h.self]
  intro hstate
  cases hstate

theorem isPeriod_iff (h : Handled σ τ p again) :
    (τ.timer p).IsPeriod ↔ (σ.timer p).IsPeriod := by
  rw [Timer.IsPeriod, h.self]
  rfl

theorem write_unlisted (h : Handled σ τ p again) (hp : p ∈ σ.timerList) (t : Timer κ) :
    ∀ q ∉ σ.timerList, (τ.write p t).timer q = σ.timer q := by
  intro q hq
  have hne : q ≠ p := fun heq => hq (heq ▸ hp)
  rw [write_timer_of_ne hne, h.unlisted q hq]

/-- A periodic timer whose handler wants to go on is armed again. -/
theorem finishInvoke_rearms (h : Handled σ τ p again) (beyond : ClockTick)
    (hrearms : (σ.timer p).Rearms again) : finishInvoke τ p again beyond =
      τ.write p (((τ.timer p).setTimeout (τ.timerTicks + (τ.timer p).timeTicks)).setState
        .waiting) := by
  have hagain : ¬(again = false ∧ (τ.timer p).IsPeriod) := by
    rw [hrearms.1]
    exact fun h => Bool.noConfusion h.1
  exact (if_neg hagain).trans
    ((if_neg h.state_ne_stopped).trans (if_pos (h.isPeriod_iff.mpr hrearms.2)))

/-- Every other branch writes `stopped` and takes the timer off the list. -/
theorem finishInvoke_removes (h : Handled σ τ p again) (beyond : ClockTick)
    (hrearms : ¬(σ.timer p).Rearms again) : finishInvoke τ p again beyond =
      timerRemove (τ.write p ((τ.timer p).setState .stopped)) p true true beyond := by
  by_cases hstop : again = false ∧ (τ.timer p).IsPeriod
  · exact if_pos hstop
  · refine (if_neg hstop).trans ((if_neg h.state_ne_stopped).trans (if_neg ?_))
    intro hperiod
    refine hrearms ⟨?_, h.isPeriod_iff.mp hperiod⟩
    cases again with
    | true => rfl
    | false => exact absurd ⟨rfl, hperiod⟩ hstop

theorem rearmed (h : Handled σ τ p again) (hp : p ∈ σ.timerList)
    (hrearms : (σ.timer p).Rearms again) :
    Invocation σ (τ.write p (((τ.timer p).setTimeout
      (τ.timerTicks + (τ.timer p).timeTicks)).setState .waiting)) p again := by
  have hself := h.self
  refine ⟨h.timerTicks, ?_, h.write_unlisted hp _, ?_, ?_, ?_, ?_, ?_, ?_, ?_⟩
  · intro q hq hne
    exact (write_timer_of_ne hne).trans (h.listed q hq hne)
  · exact (congrArg Timer.timeTicks (write_timer_self ..)).trans (by rw [hself]; rfl)
  · exact (congrArg Timer.flags (write_timer_self ..)).trans (by rw [hself]; rfl)
  · exact (congrArg Timer.handler (write_timer_self ..)).trans (by rw [hself]; rfl)
  · intro q _
    exact congrFun h.live q
  · intro _
    exact congrFun h.live p
  · intro _
    refine ⟨h.timerList, h.live, ?_, ?_, h.history⟩
    · exact congrArg Timer.state (write_timer_self ..)
    · refine (congrArg Timer.timeout (write_timer_self ..)).trans ?_
      rw [hself]
      rfl
  · intro hnot
    exact absurd hrearms hnot

theorem stopped (h : Handled σ τ p again) (hp : p ∈ σ.timerList)
    (hrearms : ¬(σ.timer p).Rearms again) {ρ : Timers κ}
    (hremoved : Removed (τ.write p ((τ.timer p).setState .stopped)) ρ p) :
    Invocation σ ρ p again := by
  have hself := h.self
  have hρself := (congrFun hremoved.timer p).trans (write_timer_self ..)
  refine ⟨hremoved.timerTicks.trans h.timerTicks, ?_, ?_, ?_, ?_, ?_, ?_, ?_, ?_, ?_⟩
  · intro q hq hne
    rw [congrFun hremoved.timer q, write_timer_of_ne hne, h.listed q hq hne]
  · intro q hq
    rw [congrFun hremoved.timer q, h.write_unlisted hp _ q hq]
  · rw [hρself, hself]
    rfl
  · rw [hρself, hself]
    rfl
  · rw [hρself, hself]
    rfl
  · intro q hne
    exact (hremoved.live q hne).trans (congrFun h.live q)
  · intro hflags
    refine (hremoved.liveSelf ?_).trans (congrFun h.live p)
    rw [write_timer_self, hself]
    exact hflags
  · intro hnot
    exact absurd hnot hrearms
  · intro _
    refine ⟨?_, by rw [hρself]; rfl, ?_⟩
    · rw [hremoved.timerList, write_timerList, h.timerList]
    · have hquiet : ∀ q ∈ σ.timerList.erase p, ρ.timerTicks < (ρ.timer q).timeout →
          ρ.history = τ.history := by
        intro q hq hlater
        refine hremoved.quiet q ?_ ?_
        · rw [write_timerList, h.timerList]
          exact hq
        · rw [hremoved.timerTicks, hremoved.timer] at hlater
          exact hlater
      rcases hremoved.history with hhistory | hhistory
      · refine ⟨[], .inl rfl, ?_, fun _ _ _ => rfl⟩
        rw [hhistory, write_history, h.history]
      · refine ⟨[.headRead], .inr rfl, ?_, fun q hq hlater => ?_⟩
        · rw [hhistory, write_history, h.history, List.append_assoc]
          rfl
        · have hsame := hquiet q hq hlater
          rw [hhistory, write_history] at hsame
          exact absurd hsame (by simp)

end Handled

/-- `NX_TimerInvoke`. -/
theorem invocation (call : ℕ → κ → ω → Bool × ω) (beyond : ClockTick) {σ : Timers κ} (w : ω)
    {p : ℕ} (hp : p ∈ σ.timerList) :
    Invocation σ (timerInvoke call beyond σ w p).1 p
      ((σ.timer p).answer fun k => (call p k w).1) := by
  obtain ⟨hhandled, hagain⟩ := handled call w hp
  rw [timerInvoke]
  simp only [hagain]
  generalize ((σ.timer p).answer fun k => (call p k w).1) = again at hhandled ⊢
  generalize (callHandler call (σ.write p ((σ.timer p).setState .processing)) w p).2.1 = τ
    at hhandled
  by_cases hrearms : (σ.timer p).Rearms again
  · rw [hhandled.finishInvoke_rearms beyond hrearms]
    exact hhandled.rearmed hp hrearms
  · rw [hhandled.finishInvoke_removes beyond hrearms]
    exact hhandled.stopped hp hrearms (removed ..)

/-! ## Creation -/

/-- What does not concern the list: its timers, the ticks and the history stay. -/
structure SameList (σ τ : Timers κ) : Prop where
  timerList : τ.timerList = σ.timerList
  timerTicks : τ.timerTicks = σ.timerTicks
  nextTimeoutTicks : τ.nextTimeoutTicks = σ.nextTimeoutTicks
  history : τ.history = σ.history
  listed : ∀ p ∈ σ.timerList, τ.timer p = σ.timer p

theorem SameList.refl (σ : Timers κ) : SameList σ σ := ⟨rfl, rfl, rfl, rfl, fun _ _ => rfl⟩

theorem SameList.trans {σ τ ρ : Timers κ} (h : SameList σ τ) (h' : SameList τ ρ) :
    SameList σ ρ where
  timerList := h'.timerList.trans h.timerList
  timerTicks := h'.timerTicks.trans h.timerTicks
  nextTimeoutTicks := h'.nextTimeoutTicks.trans h.nextTimeoutTicks
  history := h'.history.trans h.history
  listed := fun p hp => (h'.listed p (h.timerList ▸ hp)).trans (h.listed p hp)

theorem sameList_write {σ : Timers κ} {p : ℕ} (hp : p ∉ σ.timerList) (t : Timer κ) :
    SameList σ (σ.write p t) := by
  refine ⟨rfl, rfl, rfl, rfl, fun q hq => ?_⟩
  have hne : q ≠ p := fun h => hp (h ▸ hq)
  exact write_timer_of_ne hne

theorem sameList_init {σ : Timers κ} {p : ℕ} (hp : p ∉ σ.timerList) (milliseconds : BitVec 64)
    (handler : Option (TimerHandler κ)) (flags : BitVec 32) :
    SameList σ (timerInit σ p milliseconds handler flags).2 := by
  cases handler with
  | none => exact .refl σ
  | some handler =>
      simp only [timerInit]
      split
      · exact .refl σ
      · split
        · exact .refl σ
        · exact (sameList_write hp _).trans ⟨rfl, rfl, rfl, rfl, fun _ _ => rfl⟩

theorem sameList_create {σ : Timers κ} {p : ℕ} (hp : p ∉ σ.timerList) (milliseconds : BitVec 64)
    (handler : Option (TimerHandler κ)) (flags : BitVec 32) :
    SameList σ (timerCreate σ p milliseconds handler flags).2 := by
  have hinit := sameList_init hp milliseconds handler flags
  rw [timerCreate]
  split
  · exact .refl σ
  · simp only
    split
    · exact hinit.trans (sameList_write (hinit.timerList ▸ hp) _)
    · exact hinit.trans ⟨rfl, rfl, rfl, rfl, fun _ _ => rfl⟩

theorem sameList_destroy (σ : Timers κ) (p : ℕ) (beyond : ClockTick) :
    SameList σ (timerDestroy σ p beyond).2 := by
  have hremove : SameList σ (timerRemove σ p false true beyond) := by
    rw [timerRemove]
    simp only [Bool.false_eq_true, if_false]
    split
    · exact ⟨rfl, rfl, rfl, rfl, fun _ _ => rfl⟩
    · exact .refl σ
  rw [timerDestroy]
  split
  · exact .refl σ
  · cases (σ.timer p).state with
    | waiting => exact .refl σ
    | processing => exact .refl σ
    | stopped => exact hremove
    | inited => exact hremove

/-! ## Starting and stopping -/

theorem write_write (σ : Timers κ) (p : ℕ) (t u : Timer κ) :
    (σ.write p t).write p u = σ.write p u := by
  rw [Timers.write, Timers.write, Timers.write]
  simp only [Function.update_idem]

def Timers.armed (σ : Timers κ) (p : ℕ) : Timer κ :=
  ((σ.timer p).setTimeout ((σ.timer p).timeTicks + σ.timerTicks)).setState .waiting

/-- The ways in which `NX_TimerStart` returns. -/
inductive StartOutcome (σ : Timers κ) (p : ℕ) : NxError × Timers κ → Prop
  | null (hnull : p = 0) : StartOutcome σ p (.einval, σ.log (.start p .einval))
  | refused (err : NxError) (hnull : p ≠ 0) (herr : err ≠ .eok) : StartOutcome σ p
      (err, (σ.write p ((σ.timer p).setTimeout ((σ.timer p).timeTicks + σ.timerTicks))).log
        (.start p err))
  | accepted (τ : Timers κ) (hnull : p ≠ 0) (hfree : p ∉ σ.timerList)
      (hcheck : ¬idleTimerTimeoutTicks - (σ.timer p).timeTicks < σ.timerTicks)
      (hinserted : Inserted (σ.write p (σ.armed p)) τ p) :
      StartOutcome σ p (.eok, τ.log (.start p .eok))

theorem startOutcome (σ : Timers κ) (p : ℕ) : StartOutcome σ p (timerStart σ p) := by
  rw [timerStart]
  by_cases hnull : p = 0
  · simp only [if_pos hnull]
    exact .null hnull
  · simp only [if_neg hnull, timerStartLocked, write_timerTicks, write_timerList, write_write,
      setTimeout_timeTicks]
    by_cases hcheck : idleTimerTimeoutTicks - (σ.timer p).timeTicks < σ.timerTicks
    · rw [if_pos hcheck]
      exact .refused .einval hnull (by decide)
    · rw [if_neg hcheck]
      by_cases hlisted : p ∈ σ.timerList
      · rw [if_pos hlisted]
        exact .refused .eagain hnull (by decide)
      · rw [if_neg hlisted]
        exact .accepted _ hnull hlisted hcheck (inserted _ p)

/-- The ways in which `NX_TimerStop` returns, when no timer is being invoked. -/
inductive StopOutcome (σ : Timers κ) (p : ℕ) : NxError × Timers κ → Prop
  | refused (err : NxError) (herr : err ≠ .eok) : StopOutcome σ p (err, σ.log (.stop p err))
  | stopped (τ : Timers κ) (hnull : p ≠ 0) (hwaiting : (σ.timer p).state = .waiting)
      (hremoved : Removed (σ.write p ((σ.timer p).setState .stopped)) τ p)
      (hlive : τ.live = σ.live) :
      StopOutcome σ p (.eok, τ.log (.stop p .eok))

theorem stopOutcome {σ : Timers κ} {p : ℕ} (beyond : ClockTick)
    (hsettled : p ≠ 0 → (σ.timer p).state ≠ .processing) :
    StopOutcome σ p (timerStop σ p beyond) := by
  rw [timerStop, timerStopUnlocked]
  by_cases hnull : p = 0
  · rw [if_pos hnull]
    exact .refused .einval (by decide)
  · rw [if_neg hnull]
    cases hstate : (σ.timer p).state with
    | inited => exact .refused .eagain (by decide)
    | stopped => exact .refused .eagain (by decide)
    | processing => exact absurd hstate (hsettled hnull)
    | waiting =>
        refine .stopped _ hnull hstate (removed _ p false beyond) ?_
        exact (findsNext _ beyond).live

/-! ## The loop of a tick -/

theorem timerInvoke_world (call : ℕ → κ → ω → Bool × ω) (beyond : ClockTick) (σ : Timers κ)
    (w : ω) (p : ℕ) :
    (timerInvoke call beyond σ w p).2 =
      match (σ.timer p).handler with
      | .idleTimerHandler => w
      | .client k => (call p k w).2 := by
  have hself : ((σ.write p ((σ.timer p).setState .processing)).timer p).handler =
      (σ.timer p).handler := by
    rw [write_timer_self]
    rfl
  rw [timerInvoke]
  cases hhandler : (σ.timer p).handler with
  | client k => rw [callHandler_client (hself.trans hhandler)]
  | idleTimerHandler =>
      obtain ⟨τ, hrun, -⟩ := callHandler_idle call w (hself.trans hhandler)
      rw [hrun]

/-- The loop rule of `NX_TimerGo`, over the timers and the rest of the kernel: what an
invocation of the timer at hand carries on to the rest of the list holds where the loop
stops. -/
theorem expire_run (call : ℕ → κ → ω → Bool × ω) (beyond : ClockTick)
    {P : List ℕ → Timers κ → ω → Prop}
    (hinvoke : ∀ {p rest σ w}, P (p :: rest) σ w → ¬σ.timerTicks < (σ.timer p).timeout →
      P rest (timerInvoke call beyond σ w p).1 (timerInvoke call beyond σ w p).2)
    {list : List ℕ} {σ : Timers κ} {w : ω} (h : P list σ w) :
    ∃ rest, P rest (expire call beyond σ w list).1 (expire call beyond σ w list).2 ∧
      ∀ p rest', rest = p :: rest' →
        (expire call beyond σ w list).1.timerTicks <
          ((expire call beyond σ w list).1.timer p).timeout := by
  induction list generalizing σ w with
  | nil => exact ⟨[], h, fun p rest' hcons => by cases hcons⟩
  | cons p rest ih =>
      by_cases hlater : σ.timerTicks < (σ.timer p).timeout
      · rw [show expire call beyond σ w (p :: rest) = (σ, w) from if_pos hlater]
        refine ⟨p :: rest, h, fun q rest' hcons => ?_⟩
        cases hcons
        exact hlater
      · rw [show expire call beyond σ w (p :: rest) = expire call beyond
          (timerInvoke call beyond σ w p).1 (timerInvoke call beyond σ w p).2 rest from
            if_neg hlater]
        exact ih (hinvoke h hlater)

theorem expire_rule (call : ℕ → κ → ω → Bool × ω) (beyond : ClockTick)
    {P : List ℕ → Timers κ → Prop}
    (hmem : ∀ {p rest σ}, P (p :: rest) σ → p ∈ σ.timerList)
    (hinvoke : ∀ {p rest σ τ again}, P (p :: rest) σ →
      ¬σ.timerTicks < (σ.timer p).timeout → Invocation σ τ p again →
      (∃ w, again = (σ.timer p).answer fun k => (call p k w).1) → P rest τ)
    {list : List ℕ} {σ : Timers κ} (w : ω) (h : P list σ) :
    ∃ rest, P rest (expire call beyond σ w list).1 ∧
      ∀ p rest', rest = p :: rest' →
        (expire call beyond σ w list).1.timerTicks <
          ((expire call beyond σ w list).1.timer p).timeout :=
  expire_run call beyond (P := fun rest σ _ => P rest σ)
    (fun {_ _ _ w} h hdue => hinvoke h hdue (invocation call beyond w (hmem h)) ⟨w, rfl⟩) h

end Nxos.Time
