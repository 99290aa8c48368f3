import Nxos.Time.Timer.Idle

/-!
# When timers are invoked

The history of a run tells for each timer how many ticks ago it was armed, by a start or
by its own invocation, as long as it was not stopped or used up since.  Exactly the
timers on the list are armed.  So an invocation always has a start before it, and there
is a new start between a stop, or the invocation of a one-shot timer, and the next
invocation.

A timer is not invoked early as long as no timeout is computed that is past the last
tick a word can count.  `NX_TimerStart` refuses some of these, but not those of periods
above the limit, and a period timer is armed again without a check.
-/

namespace Nxos.Time

open Nxos.Transition

variable {κ : Type}

/-! ## Armed timers -/

/-- The event arms the timer: a successful start, or an invocation of a period timer that
answers to go on. -/
def TimerEvent.Arms (p : ℕ) : TimerEvent → Prop
  | .start q err => q = p ∧ err = .eok
  | .stop _ _ => False
  | .tick => False
  | .invoke q _ flags again => q = p ∧ again = true ∧ flags &&& timerPeriod ≠ 0
  | .headRead => False

/-- The number of ticks since the timer was armed, if it still is, after one more event. -/
def track (p : ℕ) (ticks : Option ℕ) : TimerEvent → Option ℕ
  | .start q err => if q = p ∧ err = .eok then some 0 else ticks
  | .stop q err => if q = p ∧ err = .eok then none else ticks
  | .tick => ticks.map (· + 1)
  | .invoke q _ flags again =>
      if q = p then if again = true ∧ flags &&& timerPeriod ≠ 0 then some 0 else none
      else ticks
  | .headRead => ticks

def ticksSinceArmed (p : ℕ) (history : List TimerEvent) : Option ℕ :=
  history.foldl (track p) none

theorem ticksSinceArmed_concat (p : ℕ) (history : List TimerEvent) (e : TimerEvent) :
    ticksSinceArmed p (history ++ [e]) = track p (ticksSinceArmed p history) e := by
  rw [ticksSinceArmed, List.foldl_append]
  rfl

theorem track_of_arms {p : ℕ} {e : TimerEvent} (h : e.Arms p) (ticks : Option ℕ) :
    track p ticks e = some 0 := by
  cases e with
  | start q err => exact if_pos h
  | stop q err => exact h.elim
  | tick => exact h.elim
  | invoke q timeTicks flags again => exact (if_pos h.1).trans (if_pos h.2)
  | headRead => exact h.elim

theorem track_of_not_arms {p n : ℕ} {e : TimerEvent} {ticks : Option ℕ} (h : ¬e.Arms p)
    (hsome : track p ticks e = some n) :
    ∃ m, ticks = some m ∧ n = m + [e].count .tick := by
  cases e with
  | start q err =>
      have hkept : ticks = some n := (if_neg h).symm.trans hsome
      exact ⟨n, hkept, by simp⟩
  | stop q err =>
      rw [track] at hsome
      split at hsome
      · cases hsome
      · exact ⟨n, hsome, by simp⟩
  | tick =>
      obtain ⟨m, hm, rfl⟩ := Option.map_eq_some_iff.mp hsome
      exact ⟨m, hm, by simp⟩
  | invoke q timeTicks flags again =>
      rw [track] at hsome
      by_cases hq : q = p
      · rw [if_pos hq, if_neg fun hagain => h ⟨hq, hagain⟩] at hsome
        cases hsome
      · rw [if_neg hq] at hsome
        exact ⟨n, hsome, by simp⟩
  | headRead => exact ⟨n, hsome, by simp⟩

/-- A timer that is armed was armed by some event, and the ticks since then are counted. -/
theorem exists_arms {p n : ℕ} {history : List TimerEvent}
    (h : ticksSinceArmed p history = some n) :
    ∃ before arm since, history = before ++ arm :: since ∧ arm.Arms p ∧
      (∀ e ∈ since, ¬e.Arms p) ∧ since.count .tick = n := by
  induction history using List.reverseRecOn generalizing n with
  | nil => cases h
  | append_singleton history e ih =>
      rw [ticksSinceArmed_concat] at h
      by_cases harms : e.Arms p
      · rw [track_of_arms harms] at h
        cases h
        exact ⟨history, e, [], rfl, harms, by simp, rfl⟩
      · obtain ⟨m, hm, rfl⟩ := track_of_not_arms harms h
        obtain ⟨before, arm, since, rfl, harm, hsince, hcount⟩ := ih hm
        refine ⟨before, arm, since ++ [e], by simp, harm, ?_, ?_⟩
        · intro x hx
          rcases List.mem_append.mp hx with hx | hx
          · exact hsince x hx
          · rw [List.mem_singleton.mp hx]
            exact harms
        · rw [List.count_append, hcount]

/-! ## Properties of all invocations -/

/-- Every invocation in the history has the property, which may look at what was before
it. -/
def Invocations (P : List TimerEvent → ℕ → ClockTick → Prop) (history : List TimerEvent) :
    Prop :=
  ∀ before p timeTicks flags again after,
    history = before ++ .invoke p timeTicks flags again :: after → P before p timeTicks

theorem Invocations.nil (P : List TimerEvent → ℕ → ClockTick → Prop) : Invocations P [] :=
  fun before _ _ _ _ _ h => by cases before <;> cases h

theorem Invocations.concat {P : List TimerEvent → ℕ → ClockTick → Prop}
    {history : List TimerEvent} {e : TimerEvent} (h : Invocations P history)
    (hnew : ∀ p timeTicks flags again, e = .invoke p timeTicks flags again →
      P history p timeTicks) : Invocations P (history ++ [e]) := by
  intro before p timeTicks flags again after heq
  cases after using List.reverseRecOn with
  | nil =>
      obtain ⟨hbefore, he⟩ := List.append_inj' heq rfl
      rw [← hbefore]
      exact hnew p timeTicks flags again (List.singleton_inj.mp he)
  | append_singleton after last =>
      rw [← List.cons_append, ← List.append_assoc] at heq
      exact h before p timeTicks flags again after (List.append_inj' heq rfl).1

def WasArmed (before : List TimerEvent) (p : ℕ) (_ : ClockTick) : Prop :=
  (ticksSinceArmed p before).isSome = true

/-- The timer was armed at least its period ago, if it was armed. -/
def WasDue (before : List TimerEvent) (p : ℕ) (timeTicks : ClockTick) : Prop :=
  ∀ n, ticksSinceArmed p before = some n → timeTicks.toNat ≤ n

theorem start_mem_of_invoke {p : ℕ} {before between after : List TimerEvent}
    {timeTicks : ClockTick} {flags : BitVec 32} {again : Bool}
    (hall : Invocations WasArmed
      (before ++ (between ++ .invoke p timeTicks flags again :: after)))
    (hnone : ticksSinceArmed p before = none) : .start p .eok ∈ between := by
  by_contra hstart
  -- without a start, nothing arms the timer again
  have hstays : ∀ first rest, between = first ++ rest →
      ticksSinceArmed p (before ++ first) = none := by
    intro first
    induction first using List.reverseRecOn with
    | nil =>
        intro rest _
        rw [List.append_nil]
        exact hnone
    | append_singleton first e ih =>
        intro rest hsplit
        have hfirst := ih (e :: rest) (by rw [hsplit, List.append_assoc, List.singleton_append])
        rw [← List.append_assoc, ticksSinceArmed_concat, hfirst]
        have harms : ¬e.Arms p := by
          intro harms
          cases e with
          | start q err =>
              obtain ⟨rfl, rfl⟩ := harms
              exact hstart (by simp [hsplit])
          | stop q err => exact harms
          | tick => exact harms
          | headRead => exact harms
          | invoke q timeTicks' flags' again' =>
              obtain ⟨rfl, -⟩ := harms
              have harmed := hall (before ++ first) q timeTicks' flags' again'
                (rest ++ .invoke q timeTicks flags again :: after) (by simp [hsplit])
              rw [WasArmed, hfirst] at harmed
              cases harmed
        cases hres : track p none e with
        | none => rfl
        | some n =>
            obtain ⟨m, hm, -⟩ := track_of_not_arms harms hres
            cases hm
  have harmed := hall (before ++ between) p timeTicks flags again after (by simp)
  rw [WasArmed, hstays between [] (by simp)] at harmed
  cases harmed

/-! ## What the history says of the list -/

/-- The timers on the list are those that are armed, and only armed ones were invoked. -/
structure Recorded (σ : Timers κ) : Prop where
  listed : ∀ p, (ticksSinceArmed p σ.history).isSome = true ↔ p ∈ σ.timerList
  invoked : Invocations WasArmed σ.history

/-- No timer on the list gets due before its period is over, and none was invoked
before. -/
structure Elapsed (σ : Timers κ) : Prop where
  listed : ∀ p ∈ σ.timerList, ∀ n, ticksSinceArmed p σ.history = some n →
    (σ.timer p).timeTicks.toNat + σ.timerTicks.toNat ≤ n + (σ.timer p).timeout.toNat
  invoked : Invocations WasDue σ.history

/-- What the search for the next timeout adds to the history. -/
def Quiet (tail : List TimerEvent) : Prop := tail = [] ∨ tail = [.headRead]

theorem ticksSinceArmed_quiet {tail : List TimerEvent} (h : Quiet tail) (p : ℕ)
    (history : List TimerEvent) :
    ticksSinceArmed p (history ++ tail) = ticksSinceArmed p history := by
  rcases h with rfl | rfl
  · rw [List.append_nil]
  · exact ticksSinceArmed_concat p history .headRead

theorem Invocations.quiet {P : List TimerEvent → ℕ → ClockTick → Prop}
    {history tail : List TimerEvent} (h : Invocations P history) (htail : Quiet tail) :
    Invocations P (history ++ tail) := by
  rcases htail with rfl | rfl
  · rw [List.append_nil]
    exact h
  · exact h.concat fun _ _ _ _ he => by cases he

theorem quiet_findNext (σ : Timers κ) (beyond : ClockTick) :
    ∃ tail, Quiet tail ∧ (σ.findNext beyond).history = σ.history ++ tail := by
  rcases (findsNext σ beyond).history with h | h
  · exact ⟨[], .inl rfl, by rw [h, List.append_nil]⟩
  · exact ⟨_, .inr rfl, h⟩

theorem Removed.quietHistory {σ τ : Timers κ} {p : ℕ} (h : Removed σ τ p) :
    ∃ tail, Quiet tail ∧ τ.history = σ.history ++ tail := by
  rcases h.history with h | h
  · exact ⟨[], .inl rfl, by rw [h, List.append_nil]⟩
  · exact ⟨_, .inr rfl, h⟩

theorem Invocation.history {σ τ : Timers κ} {p : ℕ} {again : Bool}
    (h : Invocation σ τ p again) : ∃ tail, Quiet tail ∧ τ.history =
      σ.history ++ [.invoke p (σ.timer p).timeTicks (σ.timer p).flags again] ++ tail := by
  by_cases hrearms : (σ.timer p).Rearms again
  · obtain ⟨-, -, -, -, hhistory⟩ := h.rearmed hrearms
    exact ⟨[], .inl rfl, by rw [hhistory, List.append_nil]⟩
  · obtain ⟨-, -, tail, htail, hhistory, -⟩ := h.removed hrearms
    exact ⟨tail, htail, by rw [hhistory, List.append_assoc, List.singleton_append]⟩

theorem track_invoke_of_ne {p q : ℕ} (h : q ≠ p) (ticks : Option ℕ) (timeTicks : ClockTick)
    (flags : BitVec 32) (again : Bool) :
    track p ticks (.invoke q timeTicks flags again) = ticks :=
  if_neg h

namespace Recorded

variable {σ τ : Timers κ} {p : ℕ}

theorem sameList (h : Recorded σ) (hsame : SameList σ τ) : Recorded τ := by
  refine ⟨fun q => ?_, ?_⟩
  · rw [hsame.history, hsame.timerList]
    exact h.listed q
  · rw [hsame.history]
    exact h.invoked

theorem findNext (h : Recorded σ) (beyond : ClockTick) : Recorded (σ.findNext beyond) := by
  obtain ⟨tail, htail, hhistory⟩ := quiet_findNext σ beyond
  refine ⟨fun q => ?_, ?_⟩
  · rw [hhistory, ticksSinceArmed_quiet htail, (findsNext σ beyond).timerList]
    exact h.listed q
  · rw [hhistory]
    exact h.invoked.quiet htail

theorem ticked (h : Recorded σ) : Recorded σ.ticked := by
  refine ⟨fun q => ?_, h.invoked.concat fun _ _ _ _ he => by cases he⟩
  rw [show σ.ticked.history = σ.history ++ [.tick] from rfl, ticksSinceArmed_concat, track,
    Option.isSome_map]
  exact h.listed q

theorem start (h : Recorded σ) : Recorded (timerStart σ p).2 := by
  have houtcome := startOutcome σ p
  generalize timerStart σ p = r at houtcome ⊢
  cases houtcome with
  | null hnull =>
      refine ⟨fun q => ?_, h.invoked.concat fun _ _ _ _ he => by cases he⟩
      rw [show (σ.log _).history = σ.history ++ [_] from rfl, ticksSinceArmed_concat, track,
        if_neg (by simp)]
      exact h.listed q
  | refused err hnull herr =>
      refine ⟨fun q => ?_, h.invoked.concat fun _ _ _ _ he => by cases he⟩
      rw [show ((σ.write p _).log _).history = σ.history ++ [_] from rfl, ticksSinceArmed_concat,
        track, if_neg fun h => herr h.2]
      exact h.listed q
  | accepted τ hnull hfree hcheck hinserted =>
      have hhistory : τ.history = σ.history := hinserted.history
      refine ⟨fun q => ?_, ?_⟩
      · rw [show (τ.log _).history = τ.history ++ [_] from rfl, hhistory, ticksSinceArmed_concat,
          track]
        show _ ↔ q ∈ τ.timerList
        rw [hinserted.perm.mem_iff, List.mem_cons]
        by_cases hq : p = q
        · rw [if_pos ⟨hq, rfl⟩]
          exact iff_of_true rfl (.inl hq.symm)
        · rw [if_neg fun h => hq h.1, h.listed q]
          exact ⟨.inr, fun hmem => hmem.resolve_left fun heq => hq heq.symm⟩
      · rw [show (τ.log _).history = τ.history ++ [_] from rfl, hhistory]
        exact h.invoked.concat fun _ _ _ _ he => by cases he

theorem stop (hinv : TimerInv σ) (h : Recorded σ) (hlive : p = 0 ∨ σ.live p = true)
    (beyond : ClockTick) : Recorded (timerStop σ p beyond).2 := by
  have houtcome := stopOutcome (p := p) beyond
    fun hnull => hinv.settled p (hlive.resolve_left hnull)
  generalize timerStop σ p beyond = r at houtcome ⊢
  cases houtcome with
  | refused err herr =>
      refine ⟨fun q => ?_, h.invoked.concat fun _ _ _ _ he => by cases he⟩
      rw [show (σ.log _).history = σ.history ++ [_] from rfl, ticksSinceArmed_concat, track,
        if_neg fun h => herr h.2]
      exact h.listed q
  | stopped τ hnull hwaiting hremoved hsame =>
      obtain ⟨tail, htail, hhistory⟩ := hremoved.quietHistory
      have hlist : τ.timerList = σ.timerList.erase p := hremoved.timerList
      refine ⟨fun q => ?_, ?_⟩
      · rw [show (τ.log _).history = τ.history ++ [_] from rfl, hhistory,
          ticksSinceArmed_concat, ticksSinceArmed_quiet htail, track]
        show _ ↔ q ∈ τ.timerList
        rw [hlist, hinv.nodup.mem_erase_iff]
        by_cases hq : p = q
        · rw [if_pos ⟨hq, rfl⟩]
          exact iff_of_false Bool.false_ne_true fun hmem => hmem.1 hq.symm
        · rw [if_neg fun h => hq h.1]
          exact (h.listed q).trans ⟨fun hmem => ⟨fun heq => hq heq.symm, hmem⟩, And.right⟩
      · rw [show (τ.log _).history = τ.history ++ [_] from rfl, hhistory]
        exact (h.invoked.quiet htail).concat fun _ _ _ _ he => by cases he

theorem invoke {again : Bool} (hinv : TimerInv σ) (h : Recorded σ) (hp : p ∈ σ.timerList)
    (hinvoked : Invocation σ τ p again) : Recorded τ := by
  obtain ⟨tail, htail, hhistory⟩ := hinvoked.history
  refine ⟨fun q => ?_, ?_⟩
  · rw [hhistory, ticksSinceArmed_quiet htail, ticksSinceArmed_concat]
    by_cases hrearms : (σ.timer p).Rearms again
    · rw [(hinvoked.rearmed hrearms).1]
      by_cases hq : p = q
      · subst hq
        rw [track_of_arms (e := .invoke p (σ.timer p).timeTicks (σ.timer p).flags again)
          ⟨rfl, hrearms⟩]
        exact iff_of_true rfl hp
      · rw [track_invoke_of_ne hq]
        exact h.listed q
    · rw [(hinvoked.removed hrearms).1, hinv.nodup.mem_erase_iff]
      by_cases hq : p = q
      · subst hq
        rw [show track p _ (.invoke p (σ.timer p).timeTicks (σ.timer p).flags again) = none from
          (if_pos rfl).trans (if_neg hrearms)]
        exact iff_of_false Bool.false_ne_true fun hmem => hmem.1 rfl
      · rw [track_invoke_of_ne hq]
        exact (h.listed q).trans ⟨fun hmem => ⟨fun heq => hq heq.symm, hmem⟩, And.right⟩
  · rw [hhistory]
    refine (h.invoked.concat ?_).quiet htail
    intro q timeTicks flags again' he
    cases he
    exact (h.listed p).mpr hp

theorem go (hinv : TimerInv σ) (h : Recorded σ) (answer : ℕ → Bool) (beyond : ClockTick) :
    Recorded (timerStep σ beyond (.go answer)) := by
  obtain ⟨rest, hresult⟩ := hinv.go_rule (P := fun _ τ => Recorded τ) answer beyond h.ticked
    (fun hinv _ hlisted h _ hinvoked _ =>
      h.invoke hinv (hlisted _ (List.mem_cons_self ..)) hinvoked)
    fun h => h.findNext beyond
  exact hresult

theorem step {op : TimerOp κ} (hinv : TimerInv σ) (h : Recorded σ) (hmove : TimerMove σ op τ) :
    Recorded τ := by
  obtain ⟨hallowed, beyond, rfl⟩ := hmove
  cases op with
  | init p milliseconds handler flags => exact h.sameList (sameList_init hallowed.2 ..)
  | create p milliseconds handler flags =>
      exact h.sameList (sameList_create (hinv.not_listed hallowed.2) ..)
  | destroy p => exact h.sameList (sameList_destroy ..)
  | start p => exact h.start
  | stop p => exact h.stop hinv hallowed.2 beyond
  | go answer => exact h.go hinv answer beyond

end Recorded

/-! ## Periods -/

/-- No timeout of a timer that is on the list, or is put there, is computed past the last
tick that a word can count. -/
def TimerOp.Unwrapped (σ : Timers κ) : TimerOp κ → Prop
  | .init _ _ _ _ => True
  | .create _ _ _ _ => True
  | .destroy _ => True
  | .start p => p ≠ 0 →
      p ∈ σ.timerList ∨ ¬idleTimerTimeoutTicks - (σ.timer p).timeTicks < σ.timerTicks →
      (σ.timer p).timeTicks.toNat + σ.timerTicks.toNat < 2 ^ 64
  | .stop _ => True
  | .go answer => ∀ p ∈ σ.timerList, σ.ticked.Due p → σ.ticked.RearmsWith answer p →
      (σ.timer p).timeTicks.toNat + σ.ticked.timerTicks.toNat < 2 ^ 64

namespace Elapsed

variable {σ τ : Timers κ} {p : ℕ}

theorem sameList (h : Elapsed σ) (hsame : SameList σ τ) : Elapsed τ := by
  refine ⟨fun q hq n hn => ?_, ?_⟩
  · rw [hsame.timerList] at hq
    rw [hsame.history] at hn
    rw [hsame.listed q hq, hsame.timerTicks]
    exact h.listed q hq n hn
  · rw [hsame.history]
    exact h.invoked

theorem findNext (h : Elapsed σ) (beyond : ClockTick) : Elapsed (σ.findNext beyond) := by
  obtain ⟨tail, htail, hhistory⟩ := quiet_findNext σ beyond
  have hfinds := findsNext σ beyond
  refine ⟨fun q hq n hn => ?_, ?_⟩
  · rw [hfinds.timerList] at hq
    rw [hhistory, ticksSinceArmed_quiet htail] at hn
    rw [hfinds.timer, hfinds.timerTicks]
    exact h.listed q hq n hn
  · rw [hhistory]
    exact h.invoked.quiet htail

theorem ticked (h : Elapsed σ) : Elapsed σ.ticked := by
  refine ⟨fun q hq n hn => ?_, h.invoked.concat fun _ _ _ _ he => by cases he⟩
  rw [show σ.ticked.history = σ.history ++ [.tick] from rfl, ticksSinceArmed_concat] at hn
  obtain ⟨m, hm, rfl⟩ := Option.map_eq_some_iff.mp hn
  have hle := h.listed q hq m hm
  show (σ.timer q).timeTicks.toNat + (σ.timerTicks + 1).toNat ≤
    m + 1 + (σ.timer q).timeout.toNat
  bv_omega

theorem start (h : Elapsed σ) (hrecorded : Recorded σ)
    (hunwrapped : (TimerOp.start p : TimerOp κ).Unwrapped σ) :
    Elapsed (timerStart σ p).2 := by
  have houtcome := startOutcome σ p
  generalize timerStart σ p = r at houtcome ⊢
  cases houtcome with
  | null hnull =>
      refine ⟨fun q hq n hn => ?_, h.invoked.concat fun _ _ _ _ he => by cases he⟩
      rw [show (σ.log _).history = σ.history ++ [_] from rfl, ticksSinceArmed_concat, track,
        if_neg (by simp)] at hn
      exact h.listed q hq n hn
  | refused err hnull herr =>
      refine ⟨fun q hq n hn => ?_, h.invoked.concat fun _ _ _ _ he => by cases he⟩
      rw [show ((σ.write p _).log _).history = σ.history ++ [_] from rfl, ticksSinceArmed_concat,
        track, if_neg fun h => herr h.2] at hn
      show ((σ.write p _).timer q).timeTicks.toNat + σ.timerTicks.toNat ≤
        n + ((σ.write p _).timer q).timeout.toNat
      by_cases hqp : q = p
      · subst hqp
        rw [write_timer_self, setTimeout_timeTicks, setTimeout_timeout]
        have := hunwrapped hnull (.inl hq)
        bv_omega
      · rw [write_timer_of_ne hqp]
        exact h.listed q hq n hn
  | accepted τ hnull hfree hcheck hinserted =>
      have hhistory : τ.history = σ.history := hinserted.history
      refine ⟨fun q hq n hn => ?_, ?_⟩
      · rw [show (τ.log _).history = τ.history ++ [_] from rfl, hhistory, ticksSinceArmed_concat,
          track] at hn
        show (τ.timer q).timeTicks.toNat + τ.timerTicks.toNat ≤ n + (τ.timer q).timeout.toNat
        rw [hinserted.timer, hinserted.timerTicks, write_timerTicks]
        by_cases hqp : q = p
        · subst hqp
          rw [write_timer_self]
          have := hunwrapped hnull (.inr hcheck)
          show (σ.timer q).timeTicks.toNat + σ.timerTicks.toNat ≤
            n + ((σ.timer q).timeTicks + σ.timerTicks).toNat
          bv_omega
        · rw [if_neg fun h => hqp h.1.symm] at hn
          rw [write_timer_of_ne hqp]
          exact h.listed q ((hrecorded.listed q).mp (by rw [hn]; rfl)) n hn
      · rw [show (τ.log _).history = τ.history ++ [_] from rfl, hhistory]
        exact h.invoked.concat fun _ _ _ _ he => by cases he

theorem stop (hinv : TimerInv σ) (h : Elapsed σ) (hlive : p = 0 ∨ σ.live p = true)
    (beyond : ClockTick) : Elapsed (timerStop σ p beyond).2 := by
  have houtcome := stopOutcome (p := p) beyond
    fun hnull => hinv.settled p (hlive.resolve_left hnull)
  generalize timerStop σ p beyond = r at houtcome ⊢
  cases houtcome with
  | refused err herr =>
      refine ⟨fun q hq n hn => ?_, h.invoked.concat fun _ _ _ _ he => by cases he⟩
      rw [show (σ.log _).history = σ.history ++ [_] from rfl, ticksSinceArmed_concat, track,
        if_neg fun h => herr h.2] at hn
      exact h.listed q hq n hn
  | stopped τ hnull hwaiting hremoved hsame =>
      obtain ⟨tail, htail, hhistory⟩ := hremoved.quietHistory
      have hlist : τ.timerList = σ.timerList.erase p := hremoved.timerList
      refine ⟨fun q hq n hn => ?_, ?_⟩
      · replace hq : q ∈ τ.timerList := hq
        rw [hlist, hinv.nodup.mem_erase_iff] at hq
        rw [show (τ.log _).history = τ.history ++ [_] from rfl, hhistory,
          ticksSinceArmed_concat, ticksSinceArmed_quiet htail, track,
          if_neg fun h => hq.1 h.1.symm] at hn
        show (τ.timer q).timeTicks.toNat + τ.timerTicks.toNat ≤ n + (τ.timer q).timeout.toNat
        rw [hremoved.timer, hremoved.timerTicks, write_timer_of_ne hq.1]
        exact h.listed q hq.2 n hn
      · rw [show (τ.log _).history = τ.history ++ [_] from rfl, hhistory]
        exact (h.invoked.quiet htail).concat fun _ _ _ _ he => by cases he

theorem invoke {again : Bool} (hinv : TimerInv σ) (h : Elapsed σ) (hp : p ∈ σ.timerList)
    (hdue : σ.Due p) (hinvoked : Invocation σ τ p again)
    (hunwrapped : (σ.timer p).Rearms again →
      (σ.timer p).timeTicks.toNat + σ.timerTicks.toNat < 2 ^ 64) : Elapsed τ := by
  obtain ⟨tail, htail, hhistory⟩ := hinvoked.history
  have hback := BitVec.le_trans (turnedBack_le hinv hp) hdue
  have hticks := hinvoked.timerTicks
  refine ⟨fun q hq n hn => ?_, ?_⟩
  · rw [hhistory, ticksSinceArmed_quiet htail, ticksSinceArmed_concat] at hn
    by_cases hqp : q = p
    · subst hqp
      by_cases hrearms : (σ.timer q).Rearms again
      · obtain ⟨-, -, -, hself, -⟩ := hinvoked.rearmed hrearms
        have := hunwrapped hrearms
        rw [hself, hinvoked.timeTicks, hticks]
        bv_omega
      · rw [(hinvoked.removed hrearms).1, hinv.nodup.mem_erase_iff] at hq
        exact absurd rfl hq.1
    · have hqσ : q ∈ σ.timerList := by
        by_cases hrearms : (σ.timer p).Rearms again
        · rw [(hinvoked.rearmed hrearms).1] at hq
          exact hq
        · rw [(hinvoked.removed hrearms).1] at hq
          exact List.mem_of_mem_erase hq
      rw [track_invoke_of_ne fun h => hqp h.symm] at hn
      have hle := h.listed q hqσ n hn
      rw [hinvoked.listed q hqσ hqp, setTimeout_timeTicks, setTimeout_timeout, hticks]
      bv_omega
  · rw [hhistory]
    refine (h.invoked.concat ?_).quiet htail
    intro q timeTicks flags again' he
    cases he
    intro n hn
    have hle := h.listed p hp n hn
    rw [Timers.Due] at hdue
    bv_omega

theorem go (hinv : TimerInv σ) (h : Elapsed σ) (answer : ℕ → Bool) (beyond : ClockTick)
    (hunwrapped : (TimerOp.go answer).Unwrapped σ) :
    Elapsed (timerStep σ beyond (.go answer)) := by
  obtain ⟨rest, hresult, -⟩ := hinv.go_rule
    (P := fun rest τ => Elapsed τ ∧ τ.timerTicks.toNat ≤ σ.ticked.timerTicks.toNat ∧
      ∀ q ∈ rest, q ∈ σ.timerList ∧ (τ.timer q).timeTicks = (σ.timer q).timeTicks ∧
        (τ.timer q).flags = (σ.timer q).flags ∧
        (τ.timer q).handler = (σ.timer q).handler ∧ (τ.Due q → σ.ticked.Due q))
    answer beyond ⟨h.ticked, Nat.le_refl _, fun q hq => ⟨hq, rfl, rfl, rfl, id⟩⟩
    (fun {p rest τ ρ again} hinv hnodup hlisted h hdue hinvoked hanswer => by
      obtain ⟨helapsed, hticks, hrest⟩ := h
      obtain ⟨hp, htimeTicks, hflags, hhandler, hdueσ⟩ := hrest p (List.mem_cons_self ..)
      have hback := BitVec.le_trans (turnedBack_le hinv (hlisted p (List.mem_cons_self ..))) hdue
      have hback' := hinvoked.timerTicks
      refine ⟨?_, by bv_omega, fun q hq => ?_⟩
      · refine helapsed.invoke hinv (hlisted p (List.mem_cons_self ..)) hdue hinvoked
          fun hrearms => ?_
        have hrearmsσ : σ.ticked.RearmsWith answer p := by
          rwa [hanswer, Timer.Rearms, Timer.IsPeriod, Timer.answer, hflags, hhandler] at hrearms
        have := hunwrapped p hp (hdueσ hdue) hrearmsσ
        rw [htimeTicks]
        omega
      · have hne : q ≠ p := fun h => (List.nodup_cons.mp hnodup).1 (h ▸ hq)
        have hsame := hinvoked.listed q (hlisted q (List.mem_cons_of_mem _ hq)) hne
        obtain ⟨hq, htimeTicks, hflags, hhandler, hdueσ⟩ := hrest q (List.mem_cons_of_mem _ hq)
        refine ⟨hq, ?_, ?_, ?_, fun hdueρ => hdueσ ?_⟩
        · rw [hsame, setTimeout_timeTicks, htimeTicks]
        · rw [hsame]
          exact hflags
        · rw [hsame]
          exact hhandler
        · rw [Timers.Due, hsame, setTimeout_timeout] at hdueρ
          rw [Timers.Due]
          bv_omega)
    fun {rest τ} ⟨helapsed, hticks, hrest⟩ => by
      have hfinds := findsNext τ beyond
      refine ⟨helapsed.findNext beyond, hfinds.timerTicks ▸ hticks, fun q hq => ?_⟩
      rw [Timers.Due, hfinds.timer, hfinds.timerTicks]
      exact hrest q hq
  exact hresult

theorem step {op : TimerOp κ} (hinv : TimerInv σ) (hrecorded : Recorded σ) (h : Elapsed σ)
    (hmove : TimerMove σ op τ) (hunwrapped : op.Unwrapped σ) : Elapsed τ := by
  obtain ⟨hallowed, beyond, rfl⟩ := hmove
  cases op with
  | init p milliseconds handler flags => exact h.sameList (sameList_init hallowed.2 ..)
  | create p milliseconds handler flags =>
      exact h.sameList (sameList_create (hinv.not_listed hallowed.2) ..)
  | destroy p => exact h.sameList (sameList_destroy ..)
  | start p => exact h.start hrecorded hunwrapped
  | stop p => exact h.stop hinv hallowed.2 beyond
  | go answer => exact h.go hinv answer beyond hunwrapped

end Elapsed

/-! ## Runs -/

theorem recorded_started (mem : ℕ → Timer κ) : Recorded (timersStarted mem) := by
  refine ⟨fun p => ?_, ?_⟩
  · show (track p none (.start idleTimer .eok)).isSome = true ↔ p ∈ [idleTimer]
    rw [track, List.mem_singleton]
    by_cases hp : idleTimer = p
    · rw [if_pos ⟨hp, rfl⟩]
      exact iff_of_true rfl hp.symm
    · rw [if_neg fun h => hp h.1]
      exact iff_of_false Bool.false_ne_true fun h => hp h.symm
  · exact (Invocations.nil WasArmed).concat fun _ _ _ _ he => by cases he

theorem elapsed_started (mem : ℕ → Timer κ) : Elapsed (timersStarted mem) := by
  refine ⟨fun p hp n hn => ?_, ?_⟩
  · have htimer : (timersStarted mem).timer idleTimer = startedIdleTimer := by
      simp [timersStarted]
    rw [List.mem_singleton.mp hp, htimer]
    show idleTimerTimeoutTicks.toNat + (0 : ClockTick).toNat ≤ n + idleTimerTimeoutTicks.toNat
    generalize idleTimerTimeoutTicks.toNat = limit
    simp
  · exact (Invocations.nil WasDue).concat fun _ _ _ _ he => by cases he

/-- Only `NX_TimerGo` invokes a timer. -/
theorem go_of_invoke {σ τ : Timers κ} {op : TimerOp κ} (hinv : TimerInv σ)
    (hmove : TimerMove σ op τ) (hop : ∀ answer, op ≠ .go answer) :
    ∃ new, τ.history = σ.history ++ new ∧
      ∀ p timeTicks flags again, .invoke p timeTicks flags again ∉ new := by
  obtain ⟨hallowed, beyond, rfl⟩ := hmove
  have hsame : ∀ {τ : Timers κ}, SameList σ τ → ∃ new, τ.history = σ.history ++ new ∧
      ∀ p timeTicks flags again, .invoke p timeTicks flags again ∉ new :=
    fun h => ⟨[], by rw [h.history, List.append_nil], by simp⟩
  cases op with
  | init p milliseconds handler flags => exact hsame (sameList_init hallowed.2 ..)
  | create p milliseconds handler flags =>
      exact hsame (sameList_create (hinv.not_listed hallowed.2) ..)
  | destroy p => exact hsame (sameList_destroy ..)
  | start p =>
      have houtcome := startOutcome σ p
      rw [timerStep]
      generalize timerStart σ p = r at houtcome ⊢
      cases houtcome with
      | null hnull => exact ⟨_, rfl, by simp⟩
      | refused err hnull herr => exact ⟨_, rfl, by simp⟩
      | accepted τ hnull hfree hcheck hinserted =>
          refine ⟨[.start p .eok], ?_, by simp⟩
          rw [show (τ.log _).history = τ.history ++ [_] from rfl, hinserted.history]
          rfl
  | stop p =>
      have houtcome := stopOutcome (p := p) beyond
        fun hnull => hinv.settled p (hallowed.2.resolve_left hnull)
      rw [timerStep]
      generalize timerStop σ p beyond = r at houtcome ⊢
      cases houtcome with
      | refused err herr => exact ⟨_, rfl, by simp⟩
      | stopped τ hnull hwaiting hremoved hlive =>
          obtain ⟨tail, htail, hhistory⟩ := hremoved.quietHistory
          refine ⟨tail ++ [.stop p .eok], ?_, ?_⟩
          · rw [show (τ.log _).history = τ.history ++ [_] from rfl, hhistory, List.append_assoc]
            rfl
          · rcases htail with rfl | rfl <;> simp
  | go answer => exact absurd rfl (hop answer)

/-- The history is empty, or ends with a stop of the timer or with its invocation as a
one-shot timer. -/
def Unarmed (p : ℕ) (history : List TimerEvent) : Prop :=
  history = [] ∨ (∃ earlier, history = earlier ++ [.stop p .eok]) ∨
    ∃ earlier timeTicks flags again,
      history = earlier ++ [.invoke p timeTicks flags again] ∧ flags &&& timerPeriod = 0

theorem ticksSinceArmed_unarmed {p : ℕ} {history : List TimerEvent} (h : Unarmed p history) :
    ticksSinceArmed p history = none := by
  rcases h with rfl | ⟨earlier, rfl⟩ | ⟨earlier, timeTicks, flags, again, rfl, hflags⟩
  · rfl
  · rw [ticksSinceArmed_concat]
    exact if_pos ⟨rfl, rfl⟩
  · rw [ticksSinceArmed_concat]
    exact (if_pos rfl).trans (if_neg fun h => h.2 hflags)

/-- At least this many ticks were counted since the timer was armed last. -/
def TicksSince (p : ℕ) (history : List TimerEvent) (timeTicks : ClockTick) : Prop :=
  ∃ before arm since, history = before ++ arm :: since ∧ arm.Arms p ∧
    (∀ e ∈ since, ¬e.Arms p) ∧ timeTicks.toNat ≤ since.count .tick

def UnwrappedMove (σ : Timers κ) (op : TimerOp κ) (τ : Timers κ) : Prop :=
  TimerMove σ op τ ∧ op.Unwrapped σ

/-- In every run from `NX_TimersInit` only `NX_TimerGo` invokes timers, and a timer is
started before it is invoked for the first time, again after it was stopped, and again
after it was invoked as a one-shot timer.  In every run that computes no timeout past the
last tick, a timer is not invoked before its period is over. -/
theorem timerReachable_invocations (mem : ℕ → Timer κ) :
    ∃ start, timersInit mem = .ok start ∧
      (∀ σ, Reachable TimerMove start σ →
        (∀ op τ, TimerMove σ op τ → (∀ answer, op ≠ .go answer) →
          ∃ new, τ.history = σ.history ++ new ∧
            ∀ p timeTicks flags again, .invoke p timeTicks flags again ∉ new) ∧
        ∀ p before between timeTicks flags again after,
          σ.history = before ++ (between ++ .invoke p timeTicks flags again :: after) →
          Unarmed p before → .start p .eok ∈ between) ∧
      ∀ σ, Reachable UnwrappedMove start σ → ∀ p before timeTicks flags again after,
        σ.history = before ++ .invoke p timeTicks flags again :: after →
        TicksSince p before timeTicks := by
  refine ⟨_, timersInit_eq mem, fun σ hreach => ?_, fun σ hreach => ?_⟩
  · obtain ⟨hinv, hrecorded⟩ := hreach.invariant
      (P := fun σ => TimerInv σ ∧ Recorded σ) ⟨timerInv_started mem, recorded_started mem⟩
      fun h hmove => ⟨h.1.step hmove, h.2.step h.1 hmove⟩
    refine ⟨fun op τ hmove hop => go_of_invoke hinv hmove hop, ?_⟩
    intro p before between timeTicks flags again after hhistory hunarmed
    exact start_mem_of_invoke (hhistory ▸ hrecorded.invoked) (ticksSinceArmed_unarmed hunarmed)
  · obtain ⟨-, hrecorded, helapsed⟩ := hreach.invariant
      (P := fun σ => TimerInv σ ∧ Recorded σ ∧ Elapsed σ)
      ⟨timerInv_started mem, recorded_started mem, elapsed_started mem⟩
      fun h hmove => ⟨h.1.step hmove.1, h.2.1.step h.1 hmove.1,
        h.2.2.step h.1 h.2.1 hmove.1 hmove.2⟩
    intro p before timeTicks flags again after hhistory
    obtain ⟨n, hn⟩ := Option.isSome_iff_exists.mp
      (hrecorded.invoked before p timeTicks flags again after hhistory)
    obtain ⟨first, arm, since, hbefore, harms, hsince, rfl⟩ := exists_arms hn
    exact ⟨first, arm, since, hbefore, harms, hsince,
      helapsed.invoked before p timeTicks flags again after hhistory _ hn⟩

instance (σ : Timers κ) (op : TimerOp κ) : Decidable (op.Unwrapped σ) :=
  match op with
  | .init _ _ _ _ => .isTrue trivial
  | .create _ _ _ _ => .isTrue trivial
  | .destroy _ => .isTrue trivial
  | .start p => inferInstanceAs (Decidable (p ≠ 0 →
      p ∈ σ.timerList ∨ ¬idleTimerTimeoutTicks - (σ.timer p).timeTicks < σ.timerTicks →
      (σ.timer p).timeTicks.toNat + σ.timerTicks.toNat < 2 ^ 64))
  | .stop _ => .isTrue trivial
  | .go answer => inferInstanceAs (Decidable (∀ p ∈ σ.timerList, σ.ticked.Due p →
      σ.ticked.RearmsWith answer p →
      (σ.timer p).timeTicks.toNat + σ.ticked.timerTicks.toNat < 2 ^ 64))

def twiceRun : List (TimerOp Unit) :=
  [.init 2 10 (some ()) timerOneshot, .start 2, .go fun _ => false, .start 2,
    .go fun _ => false]

theorem timerReachable_invocations_twiceRun :
    ∃ start σ, timersInit blankMemory = .ok start ∧ Reachable UnwrappedMove start σ ∧
      σ.history = [.start idleTimer .eok, .start 2 .eok, .tick, .invoke 2 1 timerOneshot false] ++
        ([.start 2 .eok, .tick] ++ .invoke 2 1 timerOneshot false :: []) ∧
      TimerEvent.start 2 .eok ∈ [TimerEvent.start 2 .eok, .tick] ∧
      TicksSince 2 [.start idleTimer .eok, .start 2 .eok, .tick] 1 := by
  obtain ⟨start, hinit, hstarts, hperiods⟩ := timerReachable_invocations blankMemory
  rw [timersInit_eq] at hinit
  cases hinit
  have heval : (perform (stepWhen fun σ op => op.Unwrapped σ) (timersStarted blankMemory)
      twiceRun).map (·.history) =
      some [.start idleTimer .eok, .start 2 .eok, .tick, .invoke 2 1 timerOneshot false,
        .start 2 .eok, .tick, .invoke 2 1 timerOneshot false] := by
    decide +kernel
  obtain ⟨σ, hrun, hhistory⟩ := Option.map_eq_some_iff.mp heval
  have hreach : Reachable UnwrappedMove (timersStarted blankMemory) σ :=
    .of_perform timerMove_of_stepWhen hrun
  refine ⟨_, σ, timersInit_eq _, hreach, hhistory, ?_, ?_⟩
  · exact (hstarts σ (hreach.mono And.left)).2 2 _ _ 1 timerOneshot false [] hhistory
      (.inr (.inr ⟨[.start idleTimer .eok, .start 2 .eok, .tick], 1, timerOneshot, false, rfl,
        rfl⟩))
  · exact hperiods σ hreach 2 _ 1 timerOneshot false _ hhistory

/-! ## A timer that is invoked early -/

/-- Without timers, ticks only count. -/
theorem reachable_count {σ : Timers κ} (hlist : σ.timerList = []) (hticks : σ.timerTicks = 0)
    (n : ℕ) : ∃ τ, Reachable TimerMove σ τ ∧ τ.timerList = [] ∧
      τ.timerTicks = BitVec.ofNat 64 n := by
  induction n with
  | zero => exact ⟨σ, .refl, hlist, hticks⟩
  | succ n ih =>
      obtain ⟨τ, hreach, hlist, hticks⟩ := ih
      have hsucc : τ.timerTicks + 1 = BitVec.ofNat 64 (n + 1) := by
        rw [hticks, BitVec.ofNat_add]
        rfl
      refine ⟨timerStep τ 0 (.go fun _ => true), hreach.tail (a := .go fun _ => true) ⟨trivial, 0, rfl⟩,
        ?_⟩
      by_cases hrun : τ.ticked.timerTicks < τ.nextTimeoutTicks
      · rw [show timerStep τ 0 (.go fun _ => true) = τ.ticked from congrArg Prod.fst (if_pos hrun)]
        exact ⟨hlist, hsucc⟩
      · rw [show timerStep τ 0 (.go fun _ => true) = (expire (fun p _ w => (true, w)) 0
          τ.ticked () τ.timerList).1.findNext 0 from congrArg Prod.fst (if_neg hrun), hlist]
        have hfinds := findsNext τ.ticked 0
        exact ⟨hfinds.timerList.trans hlist, hfinds.timerTicks.trans hsucc⟩

def longestPeriod : ClockTick := millisecondToTicks (-1)

/-- A timer of the longest period is started so late that its timeout starts over from
zero. -/
def wrappedRun : List (TimerOp Unit) :=
  [.init 2 (-1) (some ()) timerOneshot, .start 2, .go fun _ => false]

/-- A one-shot timer of the longest period was initialised, with no other on the list. -/
def lateInit (timer : ℕ → Timer Unit) (live : ℕ → Bool) (next : ClockTick)
    (history : List TimerEvent) : Timers Unit where
  timer := Function.update timer 2 ⟨.inited, 0, longestPeriod, timerOneshot, .client ()⟩
  live := Function.update live 2 true
  timerList := []
  timerTicks := -longestPeriod
  nextTimeoutTicks := next
  history := history

def lateStart (timer : ℕ → Timer Unit) (live : ℕ → Bool)
    (history : List TimerEvent) : Timers Unit where
  timer := Function.update timer 2 ⟨.waiting, 0, longestPeriod, timerOneshot, .client ()⟩
  live := Function.update live 2 true
  timerList := [2]
  timerTicks := -longestPeriod
  nextTimeoutTicks := 0
  history := history ++ [.start 2 .eok]

theorem lateInit_start (timer : ℕ → Timer Unit) (live : ℕ → Bool) (next : ClockTick)
    (history : List TimerEvent) :
    allowedStep (lateInit timer live next history) (.start 2) =
      some (lateStart timer live history) := by
  have hcheck : ¬idleTimerTimeoutTicks - longestPeriod < -longestPeriod := by decide
  simp [lateInit, lateStart, allowedStep, TimerOp.Allowed, timerStep, timerStart,
    timerStartLocked, Timers.write, Timers.insert, Timers.log, Timer.setTimeout, Timer.setState,
    hcheck, idleTimer]

theorem lateStart_go (timer : ℕ → Timer Unit) (live : ℕ → Bool) (history : List TimerEvent) :
    (allowedStep (lateStart timer live history) (.go fun _ => false)).map (·.history) =
      some (history ++ [.start 2 .eok] ++ [.tick] ++
        [.invoke 2 longestPeriod timerOneshot false] ++ [.headRead] ++ [.headRead]) := by
  have hperiod : timerOneshot &&& timerPeriod = 0 := rfl
  have hdynamic : timerOneshot &&& timerDynamic = 0 := rfl
  simp [lateStart, allowedStep, TimerOp.Allowed, timerStep, timerGo, expire, timerInvoke,
    callHandler, finishInvoke, timerRemove, Timers.findNext, Timers.firstLater, Timers.write,
    Timers.log, Timer.setState, Timer.IsPeriod, hperiod, hdynamic]

/-- A timer whose timeout starts over is invoked at the next tick, with its whole period to
go. -/
theorem timerReachable_early :
    ∃ start σ, timersInit blankMemory = .ok start ∧ Reachable TimerMove start σ ∧
      ∃ before after, σ.history =
          before ++ .invoke 2 longestPeriod timerOneshot false :: after ∧
        ¬TicksSince 2 before longestPeriod := by
  obtain ⟨σ, hreach, hlist, hticks, -⟩ := reachable_idleGone blankMemory
  obtain ⟨τ, hcount, hlist, hticks⟩ := reachable_count hlist hticks (-longestPeriod).toNat
  rw [BitVec.ofNat_toNat, BitVec.setWidth_eq] at hticks
  obtain ⟨timer, live, timerList, timerTicks, nextTimeoutTicks, history⟩ := τ
  obtain rfl : timerTicks = -longestPeriod := hticks
  obtain rfl : timerList = [] := hlist
  have heval : (perform allowedStep ⟨timer, live, [], -longestPeriod, nextTimeoutTicks, history⟩
      wrappedRun).map (·.history) = some (history ++ [.start 2 .eok] ++ [.tick] ++
        [.invoke 2 longestPeriod timerOneshot false] ++ [.headRead] ++ [.headRead]) := by
    have hinit : allowedStep ⟨timer, live, [], -longestPeriod, nextTimeoutTicks, history⟩
        (.init 2 (-1) (some ()) timerOneshot) =
        some (lateInit timer live nextTimeoutTicks history) := rfl
    rw [wrappedRun, perform, hinit, Option.bind_some, perform, lateInit_start, Option.bind_some]
    simpa [perform] using lateStart_go timer live history
  obtain ⟨ρ, hrun, hhistory⟩ := Option.map_eq_some_iff.mp heval
  refine ⟨_, ρ, timersInit_eq _, Reachable.trans (.of_perform timerMove_of_allowedStep hrun)
    (hcount.trans hreach), history ++ [.start 2 .eok] ++ [.tick], [.headRead, .headRead], ?_, ?_⟩
  · rw [hhistory]
    simp
  · rintro ⟨before, arm, since, hsplit, harms, hsince, hticks⟩
    cases since using List.reverseRecOn with
    | nil =>
        obtain ⟨-, harm⟩ := List.append_inj' hsplit rfl
        rw [← List.singleton_inj.mp harm] at harms
        exact harms
    | append_singleton since last =>
        rw [← List.cons_append, ← List.append_assoc] at hsplit
        obtain ⟨hsplit, hlast⟩ := List.append_inj' hsplit rfl
        cases since using List.reverseRecOn with
        | nil =>
            rw [← hlast] at hticks
            exact absurd hticks (by decide)
        | append_singleton since last =>
            rw [← List.cons_append, ← List.append_assoc] at hsplit
            obtain ⟨-, hstart⟩ := List.append_inj' hsplit rfl
            refine hsince last (by simp) ?_
            rw [← List.singleton_inj.mp hstart]
            exact ⟨rfl, rfl⟩

end Nxos.Time
