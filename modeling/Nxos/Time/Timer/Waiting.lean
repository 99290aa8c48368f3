import Mathlib.Data.List.Nodup
import Nxos.Support.Transition
import Nxos.Time.Timer.Operations

/-!
# The timers on the list

Between two calls the timers on the list are exactly the live ones that wait.  Each
function keeps this, from the state that `NX_TimersInit` leaves on.
-/

namespace Nxos.Time

open Nxos.Transition

variable {κ ω : Type}

/-! ## The invariant of the list -/

/-- Between two calls the list holds the live timers that wait, each once, and no timer is
in the middle of an invocation. -/
structure TimerInv (σ : Timers κ) : Prop where
  nodup : σ.timerList.Nodup
  waiting : ∀ p, p ∈ σ.timerList ↔ σ.live p = true ∧ (σ.timer p).state = .waiting
  settled : ∀ p, σ.live p = true → (σ.timer p).state ≠ .processing
  handler : ∀ p, σ.live p = true → (σ.timer p).handler = .idleTimerHandler → p = idleTimer

/-- The state in which `NX_TimerGo` has counted a tick. -/
def Timers.ticked (σ : Timers κ) : Timers κ :=
  { σ with timerTicks := σ.timerTicks + 1 }.log .tick

namespace TimerInv

variable {σ τ : Timers κ} {p : ℕ}

theorem of_same (hinv : TimerInv σ) (htimer : τ.timer = σ.timer) (hlive : τ.live = σ.live)
    (hlist : τ.timerList = σ.timerList) : TimerInv τ := by
  refine ⟨hlist ▸ hinv.nodup, ?_, ?_, ?_⟩
  · rw [htimer, hlive, hlist]
    exact hinv.waiting
  · rw [htimer, hlive]
    exact hinv.settled
  · rw [htimer, hlive]
    exact hinv.handler

theorem not_listed (hinv : TimerInv σ) (hp : σ.live p = false) : p ∉ σ.timerList := by
  intro h
  have hlive := ((hinv.waiting p).mp h).1
  rw [hp] at hlive
  cases hlive

theorem log (hinv : TimerInv σ) (e : TimerEvent) : TimerInv (σ.log e) :=
  hinv.of_same rfl rfl rfl

theorem findNext (hinv : TimerInv σ) (beyond : ClockTick) : TimerInv (σ.findNext beyond) :=
  let h := findsNext σ beyond
  hinv.of_same h.timer h.live h.timerList

theorem replace (hinv : TimerInv σ) (hp : p ∉ σ.timerList) {t : Timer κ} {b : Bool}
    (hwaiting : t.state ≠ .waiting) (hprocessing : t.state ≠ .processing)
    (hhandler : t.handler = .idleTimerHandler → p = idleTimer) :
    TimerInv { σ.write p t with live := Function.update σ.live p b } := by
  refine ⟨hinv.nodup, ?_, ?_, ?_⟩
  · intro q
    by_cases hq : q = p
    · subst hq
      refine iff_of_false hp fun h => hwaiting ?_
      exact (congrArg Timer.state (write_timer_self ..)).symm.trans h.2
    · show q ∈ σ.timerList ↔ Function.update σ.live p b q = true ∧
        ((σ.write p t).timer q).state = .waiting
      rw [Function.update_of_ne hq, write_timer_of_ne hq]
      exact hinv.waiting q
  · intro q hlive
    by_cases hq : q = p
    · subst hq
      exact fun h => hprocessing ((congrArg Timer.state (write_timer_self ..)).symm.trans h)
    · show ((σ.write p t).timer q).state ≠ .processing
      rw [write_timer_of_ne hq]
      exact hinv.settled q ((Function.update_of_ne hq ..).symm.trans hlive)
  · intro q hlive hidle
    by_cases hq : q = p
    · subst hq
      exact hhandler ((congrArg Timer.handler (write_timer_self ..)).symm.trans hidle)
    · replace hidle : ((σ.write p t).timer q).handler = .idleTimerHandler := hidle
      rw [write_timer_of_ne hq] at hidle
      exact hinv.handler q ((Function.update_of_ne hq ..).symm.trans hlive) hidle

theorem memFree (hinv : TimerInv σ) (hp : p ∉ σ.timerList) : TimerInv (σ.memFree p) := by
  refine ⟨hinv.nodup, ?_, ?_, ?_⟩
  · intro q
    by_cases hq : q = p
    · subst hq
      refine iff_of_false hp fun h => ?_
      exact Bool.noConfusion ((Function.update_self ..).symm.trans h.1)
    · show q ∈ σ.timerList ↔ Function.update σ.live p false q = true ∧ _
      rw [Function.update_of_ne hq]
      exact hinv.waiting q
  · intro q hlive
    by_cases hq : q = p
    · subst hq
      exact Bool.noConfusion ((Function.update_self ..).symm.trans hlive)
    · exact hinv.settled q ((Function.update_of_ne hq ..).symm.trans hlive)
  · intro q hlive
    by_cases hq : q = p
    · subst hq
      exact Bool.noConfusion ((Function.update_self ..).symm.trans hlive)
    · exact hinv.handler q ((Function.update_of_ne hq ..).symm.trans hlive)

theorem setTimeouts (hinv : TimerInv σ) (hlive : τ.live = σ.live)
    (hlist : τ.timerList = σ.timerList)
    (htimer : ∀ q, (τ.timer q).state = (σ.timer q).state ∧
      (τ.timer q).handler = (σ.timer q).handler) : TimerInv τ := by
  refine ⟨hlist ▸ hinv.nodup, ?_, ?_, ?_⟩
  · intro q
    rw [hlist, hlive, (htimer q).1]
    exact hinv.waiting q
  · intro q
    rw [hlive, (htimer q).1]
    exact hinv.settled q
  · intro q
    rw [hlive, (htimer q).2]
    exact hinv.handler q

theorem init (hinv : TimerInv σ) (hp : p ∉ σ.timerList) (milliseconds : BitVec 64)
    (handler : Option κ) (flags : BitVec 32) :
    TimerInv (timerInit σ p milliseconds (handler.map .client) flags).2 := by
  cases handler with
  | none => exact hinv
  | some k =>
      simp only [timerInit, Option.map_some]
      split
      · exact hinv
      · split
        · exact hinv
        · exact hinv.replace hp (by simp) (by simp) (fun h => by cases h)

theorem create (hinv : TimerInv σ) (hp : σ.live p = false) (milliseconds : BitVec 64)
    (handler : Option κ) (flags : BitVec 32) :
    TimerInv (timerCreate σ p milliseconds (handler.map .client) flags).2 := by
  have hfree := hinv.not_listed hp
  have hinit := hinv.init hfree milliseconds handler flags
  have hlist := (sameList_init hfree milliseconds (handler.map .client) flags).timerList
  rw [timerCreate]
  split
  · exact hinv
  · simp only
    split
    · refine hinit.setTimeouts rfl rfl fun q => ?_
      by_cases hq : q = p
      · subst hq
        rw [write_timer_self]
        exact ⟨rfl, rfl⟩
      · rw [write_timer_of_ne hq]
        exact ⟨rfl, rfl⟩
    · exact hinit.memFree (hlist ▸ hfree)

theorem destroy (hinv : TimerInv σ) (beyond : ClockTick) :
    TimerInv (timerDestroy σ p beyond).2 := by
  have hremove : (σ.timer p).state ≠ .waiting → TimerInv (timerRemove σ p false true beyond) := by
    intro hstate
    rw [timerRemove]
    simp only [Bool.false_eq_true, if_false]
    split
    · exact hinv.memFree fun h => hstate ((hinv.waiting p).mp h).2
    · exact hinv
  rw [timerDestroy]
  split
  · exact hinv
  · cases hstate : (σ.timer p).state with
    | waiting => exact hinv
    | processing => exact hinv
    | stopped => exact hremove (by rw [hstate]; decide)
    | inited => exact hremove (by rw [hstate]; decide)

theorem writeTimeout (hinv : TimerInv σ) (timeout : ClockTick) :
    TimerInv (σ.write p ((σ.timer p).setTimeout timeout)) := by
  refine hinv.setTimeouts rfl rfl fun q => ?_
  by_cases hq : q = p
  · subst hq
    rw [write_timer_self]
    exact ⟨rfl, rfl⟩
  · rw [write_timer_of_ne hq]
    exact ⟨rfl, rfl⟩

theorem insert (hinv : TimerInv σ) (hfree : p ∉ σ.timerList) (hlive : σ.live p = true)
    (h : Inserted (σ.write p (σ.armed p)) τ p) : TimerInv τ := by
  have htimer : ∀ q, τ.timer q = (σ.write p (σ.armed p)).timer q := congrFun h.timer
  have hmem : ∀ q, q ∈ τ.timerList ↔ q = p ∨ q ∈ σ.timerList := by
    intro q
    rw [h.perm.mem_iff, List.mem_cons]
    rfl
  refine ⟨h.perm.nodup_iff.mpr (List.nodup_cons.mpr ⟨hfree, hinv.nodup⟩), ?_, ?_, ?_⟩
  · intro q
    rw [hmem, htimer, h.live]
    by_cases hq : q = p
    · subst hq
      rw [write_timer_self]
      exact iff_of_true (.inl rfl) ⟨hlive, rfl⟩
    · rw [write_timer_of_ne hq, or_iff_right hq]
      exact hinv.waiting q
  · intro q hq
    rw [h.live] at hq
    rw [htimer]
    by_cases hne : q = p
    · subst hne
      rw [write_timer_self]
      exact fun h => TimerState.noConfusion h
    · rw [write_timer_of_ne hne]
      exact hinv.settled q hq
  · intro q hq
    rw [h.live] at hq
    rw [htimer]
    by_cases hne : q = p
    · subst hne
      rw [write_timer_self]
      exact hinv.handler q hq
    · rw [write_timer_of_ne hne]
      exact hinv.handler q hq

theorem start (hinv : TimerInv σ) (hlive : p = 0 ∨ σ.live p = true) :
    TimerInv (timerStart σ p).2 := by
  have houtcome := startOutcome σ p
  generalize timerStart σ p = r at houtcome ⊢
  cases houtcome with
  | null hnull => exact hinv.log _
  | refused err hnull herr => exact (hinv.writeTimeout _).log _
  | accepted τ hnull hfree hcheck hinserted =>
      exact (hinv.insert hfree (hlive.resolve_left hnull) hinserted).log _

theorem unlist (hinv : TimerInv σ) (h : Removed (σ.write p ((σ.timer p).setState .stopped)) τ p)
    (hlive : τ.live = σ.live) : TimerInv τ := by
  have htimer : ∀ q, τ.timer q = (σ.write p ((σ.timer p).setState .stopped)).timer q :=
    congrFun h.timer
  have hlist : τ.timerList = σ.timerList.erase p := h.timerList
  refine ⟨hlist ▸ hinv.nodup.erase p, ?_, ?_, ?_⟩
  · intro q
    rw [hlist, hinv.nodup.mem_erase_iff, htimer, hlive]
    by_cases hq : q = p
    · subst hq
      rw [write_timer_self]
      exact iff_of_false (fun h => h.1 rfl) fun h => TimerState.noConfusion h.2
    · rw [write_timer_of_ne hq, and_iff_right hq]
      exact hinv.waiting q
  · intro q hq
    rw [hlive] at hq
    rw [htimer]
    by_cases hne : q = p
    · subst hne
      rw [write_timer_self]
      exact fun h => TimerState.noConfusion h
    · rw [write_timer_of_ne hne]
      exact hinv.settled q hq
  · intro q hq
    rw [hlive] at hq
    rw [htimer]
    by_cases hne : q = p
    · subst hne
      rw [write_timer_self]
      exact hinv.handler q hq
    · rw [write_timer_of_ne hne]
      exact hinv.handler q hq

theorem stop (hinv : TimerInv σ) (hlive : p = 0 ∨ σ.live p = true) (beyond : ClockTick) :
    TimerInv (timerStop σ p beyond).2 := by
  have houtcome := stopOutcome (p := p) beyond
    fun hnull => hinv.settled p (hlive.resolve_left hnull)
  generalize timerStop σ p beyond = r at houtcome ⊢
  cases houtcome with
  | refused err herr => exact hinv.log _
  | stopped τ hnull hwaiting hremoved hsame => exact (hinv.unlist hremoved hsame).log _

theorem invoke {again : Bool} (hinv : TimerInv σ) (hp : p ∈ σ.timerList)
    (h : Invocation σ τ p again) : TimerInv τ := by
  have hsame : ∀ q, q ≠ p → (τ.timer q).state = (σ.timer q).state ∧
      (τ.timer q).handler = (σ.timer q).handler := by
    intro q hne
    by_cases hq : q ∈ σ.timerList
    · rw [h.listed q hq hne]
      exact ⟨rfl, rfl⟩
    · rw [h.unlisted q hq]
      exact ⟨rfl, rfl⟩
  have hhandler : ∀ q, τ.live q = true → (τ.timer q).handler = .idleTimerHandler →
      q = idleTimer := by
    intro q hlive hidle
    by_cases hne : q = p
    · subst hne
      rw [h.handler] at hidle
      exact hinv.handler q ((hinv.waiting q).mp hp).1 hidle
    · rw [h.live q hne] at hlive
      rw [(hsame q hne).2] at hidle
      exact hinv.handler q hlive hidle
  by_cases hrearms : (σ.timer p).Rearms again
  · obtain ⟨hlist, hlive, hstate, -⟩ := h.rearmed hrearms
    refine ⟨hlist ▸ hinv.nodup, ?_, ?_, hhandler⟩
    · intro q
      rw [hlist, hlive]
      by_cases hne : q = p
      · subst hne
        rw [hstate]
        exact iff_of_true hp ⟨((hinv.waiting q).mp hp).1, rfl⟩
      · rw [(hsame q hne).1]
        exact hinv.waiting q
    · intro q hq
      rw [hlive] at hq
      by_cases hne : q = p
      · subst hne
        rw [hstate]
        decide
      · rw [(hsame q hne).1]
        exact hinv.settled q hq
  · obtain ⟨hlist, hstate, -⟩ := h.removed hrearms
    refine ⟨hlist ▸ hinv.nodup.erase p, ?_, ?_, hhandler⟩
    · intro q
      rw [hlist, hinv.nodup.mem_erase_iff]
      by_cases hne : q = p
      · subst hne
        rw [hstate]
        exact iff_of_false (fun h => h.1 rfl) fun h => TimerState.noConfusion h.2
      · rw [(hsame q hne).1, h.live q hne, and_iff_right hne]
        exact hinv.waiting q
    · intro q hq
      by_cases hne : q = p
      · subst hne
        rw [hstate]
        decide
      · rw [h.live q hne] at hq
        rw [(hsame q hne).1]
        exact hinv.settled q hq

theorem listed_of_invocation {again : Bool} {q : ℕ} (h : Invocation σ τ p again) (hne : q ≠ p) :
    q ∈ τ.timerList ↔ q ∈ σ.timerList := by
  by_cases hrearms : (σ.timer p).Rearms again
  · rw [(h.rearmed hrearms).1]
  · rw [(h.removed hrearms).1]
    exact List.mem_erase_of_ne hne

/-- The loop rule, with the invariant: the timers still to be visited are on the list, each
once. -/
theorem expire_run (call : ℕ → κ → ω → Bool × ω) (beyond : ClockTick)
    {P : List ℕ → Timers κ → ω → Prop}
    (hinvoke : ∀ {p rest σ w}, TimerInv σ → (p :: rest).Nodup →
      (∀ q ∈ p :: rest, q ∈ σ.timerList) → P (p :: rest) σ w →
      ¬σ.timerTicks < (σ.timer p).timeout →
      P rest (timerInvoke call beyond σ w p).1 (timerInvoke call beyond σ w p).2)
    (hinv : TimerInv σ) {w : ω} (h : P σ.timerList σ w) :
    ∃ rest, P rest (expire call beyond σ w σ.timerList).1
        (expire call beyond σ w σ.timerList).2 ∧
      TimerInv (expire call beyond σ w σ.timerList).1 := by
  obtain ⟨rest, ⟨hresult, -, -, hP⟩, -⟩ := Time.expire_run call beyond
    (P := fun rest σ w => TimerInv σ ∧ rest.Nodup ∧ (∀ p ∈ rest, p ∈ σ.timerList) ∧ P rest σ w)
    (fun {p rest σ w} h hdue => by
      obtain ⟨hinv, hnodup, hlisted, hP⟩ := h
      have hp := hlisted p (List.mem_cons_self ..)
      have hinvoked := invocation call beyond w hp
      refine ⟨hinv.invoke hp hinvoked, hnodup.of_cons, fun q hq => ?_,
        hinvoke hinv hnodup hlisted hP hdue⟩
      have hne : q ≠ p := fun h => (List.nodup_cons.mp hnodup).1 (h ▸ hq)
      exact (listed_of_invocation hinvoked hne).mpr (hlisted q (List.mem_cons_of_mem _ hq)))
    ⟨hinv, hinv.nodup, fun _ h => h, h⟩
  exact ⟨rest, hP, hresult⟩

theorem expire_rule (call : ℕ → κ → ω → Bool × ω) (beyond : ClockTick)
    {P : List ℕ → Timers κ → Prop}
    (hinvoke : ∀ {p rest σ τ again}, TimerInv σ → (p :: rest).Nodup →
      (∀ q ∈ p :: rest, q ∈ σ.timerList) → P (p :: rest) σ → σ.timerTicks ≥ (σ.timer p).timeout →
      Invocation σ τ p again → (∃ w, again = (σ.timer p).answer fun k => (call p k w).1) →
      P rest τ)
    (hinv : TimerInv σ) (w : ω) (h : P σ.timerList σ) :
    ∃ rest, P rest (expire call beyond σ w σ.timerList).1 ∧
      TimerInv (expire call beyond σ w σ.timerList).1 :=
  expire_run call beyond (P := fun rest σ _ => P rest σ)
    (fun {_ _ _ w} hinv hnodup hlisted hP hdue => hinvoke hinv hnodup hlisted hP
      (BitVec.not_lt.mp hdue) (invocation call beyond w (hlisted _ (List.mem_cons_self ..)))
      ⟨w, rfl⟩) hinv h

theorem expire (hinv : TimerInv σ) (call : ℕ → κ → ω → Bool × ω) (beyond : ClockTick) (w : ω) :
    TimerInv (expire call beyond σ w σ.timerList).1 := by
  obtain ⟨rest, -, hresult⟩ := expire_rule call beyond
    (P := fun _ _ => True) (fun _ _ _ _ _ _ _ => trivial) hinv w trivial
  exact hresult

theorem go (hinv : TimerInv σ) (call : ℕ → κ → ω → Bool × ω) (beyond : ClockTick) (w : ω) :
    TimerInv (timerGo call beyond σ w).1 := by
  have htick : TimerInv σ.ticked := hinv.of_same rfl rfl rfl
  rw [timerGo]
  simp only
  split
  · exact htick
  · exact (htick.expire call beyond w).findNext beyond

/-- The rule of a tick: what holds of the timers still to be visited when the tick is
counted, and is carried on by each invocation and by the search for the next timeout. -/
theorem go_rule {P : List ℕ → Timers κ → Prop} (hinv : TimerInv σ) (answer : ℕ → Bool)
    (beyond : ClockTick) (hticked : P σ.timerList σ.ticked)
    (hinvoke : ∀ {p rest σ τ again}, TimerInv σ → (p :: rest).Nodup →
      (∀ q ∈ p :: rest, q ∈ σ.timerList) → P (p :: rest) σ → σ.timerTicks ≥ (σ.timer p).timeout →
      Invocation σ τ p again → again = ((σ.timer p).answer fun _ => answer p) → P rest τ)
    (hfind : ∀ {rest τ}, P rest τ → P rest (τ.findNext beyond)) :
    ∃ rest, P rest (timerStep σ beyond (.go answer)) := by
  have htick : TimerInv σ.ticked := hinv.of_same rfl rfl rfl
  by_cases hrun : σ.ticked.timerTicks < σ.nextTimeoutTicks
  · rw [show timerStep σ beyond (.go answer) = σ.ticked from congrArg Prod.fst (if_pos hrun)]
    exact ⟨_, hticked⟩
  · rw [show timerStep σ beyond (.go answer) = (Time.expire (fun p _ w => (answer p, w)) beyond
      σ.ticked () σ.timerList).1.findNext beyond from congrArg Prod.fst (if_neg hrun)]
    obtain ⟨rest, hresult, -⟩ := htick.expire_rule (fun p (_ : κ) (w : Unit) => (answer p, w))
      beyond (fun hinv hnodup hlisted h hdue hinvoked hagain =>
        hinvoke hinv hnodup hlisted h hdue hinvoked hagain.choose_spec) () hticked
    exact ⟨rest, hfind hresult⟩

/-- The rule of a tick, over the timers and the rest of the kernel, for what an invocation
carries on whatever timers are left. -/
theorem go_run {P : Timers κ → ω → Prop} (hinv : TimerInv σ) (call : ℕ → κ → ω → Bool × ω)
    (beyond : ClockTick) {w : ω} (hticked : P σ.ticked w)
    (hinvoke : ∀ {p σ w}, TimerInv σ → p ∈ σ.timerList → P σ w →
      ¬σ.timerTicks < (σ.timer p).timeout →
      P (timerInvoke call beyond σ w p).1 (timerInvoke call beyond σ w p).2)
    (hfind : ∀ {τ w}, P τ w → P (τ.findNext beyond) w) :
    P (timerGo call beyond σ w).1 (timerGo call beyond σ w).2 := by
  have htick : TimerInv σ.ticked := hinv.of_same rfl rfl rfl
  rw [timerGo]
  simp only
  split
  · exact hticked
  · obtain ⟨rest, hresult, -⟩ := htick.expire_run call beyond (P := fun _ σ w => P σ w)
      (fun hinv _ hlisted hP hdue =>
        hinvoke hinv (hlisted _ (List.mem_cons_self ..)) hP hdue) hticked
    exact hfind hresult

theorem step (hinv : TimerInv σ) {op : TimerOp κ} (hmove : TimerMove σ op τ) : TimerInv τ := by
  obtain ⟨hallowed, beyond, rfl⟩ := hmove
  cases op with
  | init p milliseconds handler flags => exact hinv.init hallowed.2 _ _ _
  | create p milliseconds handler flags => exact hinv.create hallowed.2 _ _ _
  | destroy p => exact hinv.destroy beyond
  | start p => exact hinv.start hallowed.2
  | stop p => exact hinv.stop hallowed.2 beyond
  | go answer => exact hinv.go _ beyond ()

end TimerInv

/-! ## Runs that can be computed -/

instance (σ : Timers κ) (op : TimerOp κ) : Decidable (op.Allowed σ) :=
  match op with
  | .init p _ _ _ => inferInstanceAs (Decidable (p ≠ idleTimer ∧ p ∉ σ.timerList))
  | .create p _ _ _ => inferInstanceAs (Decidable (p ≠ idleTimer ∧ σ.live p = false))
  | .destroy p => inferInstanceAs (Decidable (p ≠ idleTimer ∧ (p = 0 ∨ σ.live p = true)))
  | .start p => inferInstanceAs (Decidable (p ≠ idleTimer ∧ (p = 0 ∨ σ.live p = true)))
  | .stop p => inferInstanceAs (Decidable (p ≠ idleTimer ∧ (p = 0 ∨ σ.live p = true)))
  | .go _ => .isTrue trivial

/-- Perform a call, if it keeps the promises.  Where the list head is read, there is a
zero. -/
def allowedStep (σ : Timers κ) (op : TimerOp κ) : Option (Timers κ) :=
  if op.Allowed σ then some (timerStep σ 0 op) else none

theorem timerMove_of_allowedStep {σ τ : Timers κ} {op : TimerOp κ}
    (h : allowedStep σ op = some τ) : TimerMove σ op τ := by
  rw [allowedStep] at h
  split at h
  · next hallowed => exact ⟨hallowed, 0, (Option.some.inj h).symm⟩
  · cases h

def stepWhen (keeps : Timers κ → TimerOp κ → Prop) [∀ σ op, Decidable (keeps σ op)]
    (σ : Timers κ) (op : TimerOp κ) : Option (Timers κ) :=
  if keeps σ op then allowedStep σ op else none

theorem timerMove_of_stepWhen {keeps : Timers κ → TimerOp κ → Prop}
    [∀ σ op, Decidable (keeps σ op)] {σ τ : Timers κ} {op : TimerOp κ}
    (h : stepWhen keeps σ op = some τ) : TimerMove σ op τ ∧ keeps σ op := by
  rw [stepWhen] at h
  split at h
  · next hkeeps => exact ⟨timerMove_of_allowedStep h, hkeeps⟩
  · cases h

/-! ## The state after `NX_TimersInit` -/

/-- The idle timer, started at tick `0`. -/
def startedIdleTimer : Timer κ where
  state := .waiting
  timeout := idleTimerTimeoutTicks
  timeTicks := idleTimerTimeoutTicks
  flags := timerOneshot
  handler := .idleTimerHandler

def timersStarted (mem : ℕ → Timer κ) : Timers κ where
  timer := Function.update mem idleTimer startedIdleTimer
  live := Function.update (fun _ => false) idleTimer true
  timerList := [idleTimer]
  timerTicks := 0
  nextTimeoutTicks := idleTimerTimeoutTicks
  history := [.start idleTimer .eok]

theorem timersInit_eq (mem : ℕ → Timer κ) : timersInit mem = .ok (timersStarted mem) := by
  have hrun : timersInit mem = .ok { timersStarted mem with
      timer := Function.update (Function.update (Function.update mem idleTimer
        ((startedIdleTimer.setTimeout 0).setState .inited)) idleTimer
        (startedIdleTimer.setState .inited)) idleTimer startedIdleTimer } :=
    rfl
  rw [hrun, Function.update_idem, Function.update_idem]
  rfl

theorem timerInv_started (mem : ℕ → Timer κ) : TimerInv (timersStarted mem) := by
  have hlive : ∀ p, (timersStarted mem).live p = true ↔ p = idleTimer := by
    intro p
    by_cases hp : p = idleTimer
    · subst hp
      exact iff_of_true rfl rfl
    · have hdead : (timersStarted mem).live p = false := by
        show Function.update (fun _ => false) idleTimer true p = false
        rw [Function.update_of_ne hp]
      rw [hdead]
      exact iff_of_false Bool.false_ne_true hp
  refine ⟨List.nodup_singleton _, fun p => ?_, fun p hp => ?_, fun p hp _ => (hlive p).mp hp⟩
  · rw [hlive]
    show p ∈ [idleTimer] ↔ _
    rw [List.mem_singleton]
    exact ⟨fun h => ⟨h, h ▸ rfl⟩, And.left⟩
  · rw [(hlive p).mp hp]
    exact fun h => TimerState.noConfusion h

end Nxos.Time
