import Nxos.Sched.Sleep.Model
import Nxos.Time.Timer.Frame

/-!
# Sleeping threads and their timers

Each thread in `NX_ThreadSleep` owns one live timer, which ends its sleep, and no other timer
does.  While the thread relies on the timer, it was accepted and is on the list; once the
timer fired or was stopped, `resource.sleepTimer` is null.  This is kept by whatever leaves
the timers of the sleeps alone, and by each part of `NX_ThreadSleep`.
-/

namespace Nxos.Sched

open Nxos.Time

variable {w w' : SleepThreads} {σ τ : Timers SleepHandler} {t p : ℕ}

/-- The thread relies on the timer `p`, for which `NX_TimerStart` answered `err`. -/
def SleepPoint.ReliesOn (point : SleepPoint) (p : ℕ) (err : NxError) : Prop :=
  point = .started p err ∨ point = .asleep p err

theorem SleepPoint.ReliesOn.timer {point : SleepPoint} {err : NxError}
    (h : point.ReliesOn p err) : point.timer = some p := by
  rcases h with rfl | rfl <;> rfl

/-- The threads in `NX_ThreadSleep` and the timers that end their sleeps. -/
structure SleepLinks (w : SleepThreads) (σ : Timers SleepHandler) : Prop where
  owned : ∀ t p, (w.point t).timer = some p → p ≠ 0 ∧ σ.live p = true ∧
    sleeper (σ.timer p) = some t ∧ (σ.timer p).flags = timerOneshot
  owner : ∀ p t, σ.live p = true → sleeper (σ.timer p) = some t → (w.point t).timer = some p
  pending : ∀ t p, (w.point t).timer = some p → p ∈ σ.timerList → w.sleepTimer t = p
  pointed : ∀ t, w.sleepTimer t ≠ 0 → (w.point t).timer = some (w.sleepTimer t)
  armed : ∀ t p err, (w.point t).ReliesOn p err → err = .eok ∧ p ∈ σ.timerList

theorem sleeper_of_handler {timer timer' : Timer SleepHandler}
    (h : timer'.handler = timer.handler) : sleeper timer' = sleeper timer := by
  rw [sleeper, sleeper, h]

namespace SleepLinks

theorem owner_unique (h : SleepLinks w σ) {u : ℕ} (ht : (w.point t).timer = some p)
    (hu : (w.point u).timer = some p) : t = u :=
  Option.some.inj ((h.owned t p ht).2.2.1.symm.trans (h.owned u p hu).2.2.1)

theorem ne_of_ne (h : SleepLinks w σ) {u q : ℕ} (hne : u ≠ t) (ht : (w.point t).timer = some p)
    (hu : (w.point u).timer = some q) : q ≠ p := by
  rintro rfl
  exact hne (h.owner_unique hu ht)

/-! ## What leaves the sleeps alone -/

/-- The threads go on, and none begins to rely on its timer. -/
theorem of_points (h : SleepLinks w σ)
    (htimer : ∀ t, (w'.point t).timer = (w.point t).timer)
    (hrelies : ∀ t p err, (w'.point t).ReliesOn p err → (w.point t).ReliesOn p err)
    (hsleep : w'.sleepTimer = w.sleepTimer) : SleepLinks w' σ where
  owned := fun t p ht => h.owned t p (htimer t ▸ ht)
  owner := fun p t hp ht => (htimer t).trans (h.owner p t hp ht)
  pending := fun t p ht hp => hsleep ▸ h.pending t p (htimer t ▸ ht) hp
  pointed := fun t ht => by
    rw [htimer, hsleep]
    exact h.pointed t (hsleep ▸ ht)
  armed := fun t p err ht => h.armed t p err (hrelies t p err ht)

theorem of_same (h : SleepLinks w σ) (htimer : τ.timer = σ.timer) (hlive : τ.live = σ.live)
    (hlist : τ.timerList = σ.timerList) : SleepLinks w τ where
  owned := by
    rw [htimer, hlive]
    exact h.owned
  owner := by
    rw [htimer, hlive]
    exact h.owner
  pending := by
    rw [hlist]
    exact h.pending
  pointed := h.pointed
  armed := by
    rw [hlist]
    exact h.armed

theorem of_elsewhere (h : SleepLinks w σ) (helse : Elsewhere σ τ p)
    (hbefore : σ.live p = true → sleeper (σ.timer p) = none)
    (hafter : τ.live p = true → sleeper (τ.timer p) = none) : SleepLinks w τ := by
  have hne : ∀ t q, (w.point t).timer = some q → q ≠ p := by
    rintro t q ht rfl
    obtain ⟨-, hlive, hsleeper, -⟩ := h.owned t q ht
    rw [hbefore hlive] at hsleeper
    cases hsleeper
  constructor
  · intro t q ht
    obtain ⟨hnull, hlive, hsleeper, hflags⟩ := h.owned t q ht
    have hq := hne t q ht
    exact ⟨hnull, (helse.live q hq).trans hlive,
      (sleeper_of_handler (helse.handler q hq)).trans hsleeper, (helse.flags q hq).trans hflags⟩
  · intro q t hlive hsleeper
    by_cases hq : q = p
    · subst hq
      rw [hafter hlive] at hsleeper
      cases hsleeper
    · exact h.owner q t ((helse.live q hq).symm.trans hlive)
        ((sleeper_of_handler (helse.handler q hq)).symm.trans hsleeper)
  · intro t q ht hq
    exact h.pending t q ht ((helse.listed q (hne t q ht)).mp hq)
  · exact h.pointed
  · intro t q err ht
    obtain ⟨herr, hq⟩ := h.armed t q err ht
    exact ⟨herr, (helse.listed q (hne t q ht.timer)).mpr hq⟩

/-! ## The sleep of one thread -/

/-- A thread starts its timer, in memory that no timer lies in. -/
theorem enter (h : SleepLinks w σ) (helse : Elsewhere σ τ p) (hnull : p ≠ 0)
    (hfree : σ.live p = false) (hlive : τ.live p = true) (hsleeper : sleeper (τ.timer p) = some t)
    (hflags : (τ.timer p).flags = timerOneshot) (hlisted : p ∈ τ.timerList)
    (houtside : w.point t = .outside)
    (hpoint : w'.point = Function.update w.point t (.started p .eok))
    (hsleep : w'.sleepTimer = Function.update w.sleepTimer t p) : SleepLinks w' τ := by
  have hself : w'.point t = .started p .eok := by rw [hpoint, Function.update_self]
  have hother : ∀ {u}, u ≠ t → w'.point u = w.point u ∧ w'.sleepTimer u = w.sleepTimer u := by
    intro u hu
    rw [hpoint, hsleep]
    exact ⟨Function.update_of_ne hu .., Function.update_of_ne hu ..⟩
  have hne : ∀ {u q}, (w.point u).timer = some q → q ≠ p := by
    rintro u q hu rfl
    have hlive := (h.owned u q hu).2.1
    rw [hfree] at hlive
    cases hlive
  constructor
  · intro u q hu
    by_cases hut : u = t
    · subst hut
      rw [hself] at hu
      cases hu
      exact ⟨hnull, hlive, hsleeper, hflags⟩
    · rw [(hother hut).1] at hu
      obtain ⟨hq, hqlive, hqsleeper, hqflags⟩ := h.owned u q hu
      have hqp := hne hu
      exact ⟨hq, (helse.live q hqp).trans hqlive,
        (sleeper_of_handler (helse.handler q hqp)).trans hqsleeper,
        (helse.flags q hqp).trans hqflags⟩
  · intro q u hqlive hqsleeper
    by_cases hqp : q = p
    · subst hqp
      obtain rfl := Option.some.inj (hsleeper.symm.trans hqsleeper)
      rw [hself]
      rfl
    · have hu := h.owner q u ((helse.live q hqp).symm.trans hqlive)
        ((sleeper_of_handler (helse.handler q hqp)).symm.trans hqsleeper)
      have hut : u ≠ t := by
        rintro rfl
        rw [houtside] at hu
        cases hu
      rw [(hother hut).1]
      exact hu
  · intro u q hu hq
    by_cases hut : u = t
    · subst hut
      rw [hself] at hu
      cases hu
      rw [hsleep, Function.update_self]
    · rw [(hother hut).1] at hu
      rw [(hother hut).2]
      exact h.pending u q hu ((helse.listed q (hne hu)).mp hq)
  · intro u hu
    by_cases hut : u = t
    · subst hut
      rw [hself, hsleep, Function.update_self]
      rfl
    · rw [(hother hut).2] at hu ⊢
      rw [(hother hut).1]
      exact h.pointed u hu
  · intro u q err hu
    by_cases hut : u = t
    · subst hut
      rw [hself] at hu
      rcases hu with hu | hu <;> cases hu
      exact ⟨rfl, hlisted⟩
    · rw [(hother hut).1] at hu
      obtain ⟨herr, hq⟩ := h.armed u q err hu
      exact ⟨herr, (helse.listed q (hne hu.timer)).mpr hq⟩

/-- The timer of a thread fires: it is taken off the list, and the thread no longer relies
on it. -/
theorem fire (h : SleepLinks w σ) (helse : Elsewhere σ τ p) (ht : (w.point t).timer = some p)
    (hlive : τ.live p = σ.live p) (hhandler : (τ.timer p).handler = (σ.timer p).handler)
    (hflags : (τ.timer p).flags = (σ.timer p).flags) (hlisted : p ∉ τ.timerList)
    (htimer : ∀ u, (w'.point u).timer = (w.point u).timer)
    (hrelies : ∀ u q err, (w'.point u).ReliesOn q err → u ≠ t ∧ (w.point u).ReliesOn q err)
    (hsleep : w'.sleepTimer = Function.update w.sleepTimer t 0) : SleepLinks w' τ := by
  have hlives : ∀ q, τ.live q = σ.live q := by
    intro q
    by_cases hq : q = p
    · exact hq ▸ hlive
    · exact helse.live q hq
  have hsleepers : ∀ q, sleeper (τ.timer q) = sleeper (σ.timer q) := by
    intro q
    by_cases hq : q = p
    · exact sleeper_of_handler (hq ▸ hhandler)
    · exact sleeper_of_handler (helse.handler q hq)
  constructor
  · intro u q hu
    rw [htimer] at hu
    obtain ⟨hnull, hqlive, hqsleeper, hqflags⟩ := h.owned u q hu
    refine ⟨hnull, (hlives q).trans hqlive, (hsleepers q).trans hqsleeper, ?_⟩
    by_cases hq : q = p
    · subst hq
      exact hflags.trans hqflags
    · exact (helse.flags q hq).trans hqflags
  · intro q u hqlive hqsleeper
    rw [htimer]
    exact h.owner q u ((hlives q).symm.trans hqlive) ((hsleepers q).symm.trans hqsleeper)
  · intro u q hu hq
    rw [htimer] at hu
    have hqp : q ≠ p := fun heq => hlisted (heq ▸ hq)
    have hut : u ≠ t := by
      rintro rfl
      exact hqp (Option.some.inj (hu.symm.trans ht))
    rw [hsleep, Function.update_of_ne hut]
    exact h.pending u q hu ((helse.listed q hqp).mp hq)
  · intro u hu
    rw [hsleep] at hu ⊢
    by_cases hut : u = t
    · subst hut
      rw [Function.update_self] at hu
      exact absurd rfl hu
    · rw [Function.update_of_ne hut] at hu ⊢
      rw [htimer]
      exact h.pointed u hu
  · intro u q err hu
    obtain ⟨hut, hu⟩ := hrelies u q err hu
    obtain ⟨herr, hq⟩ := h.armed u q err hu
    exact ⟨herr, (helse.listed q (h.ne_of_ne hut ht hu.timer)).mpr hq⟩

theorem forget (h : SleepLinks w σ) (helse : Elsewhere σ τ p) (ht : (w.point t).timer = some p)
    (hfree : τ.live p = false) (hpoint : w'.point = Function.update w.point t .outside)
    (hsleep : w'.sleepTimer = Function.update w.sleepTimer t 0) : SleepLinks w' τ := by
  have houtside : w'.point t = .outside := by rw [hpoint, Function.update_self]
  have hpoints : ∀ {u}, u ≠ t → w'.point u = w.point u := by
    intro u hu
    rw [hpoint, Function.update_of_ne hu]
  have hkept : ∀ {u q}, (w'.point u).timer = some q →
      u ≠ t ∧ (w.point u).timer = some q ∧ q ≠ p := by
    intro u q hu
    have hut : u ≠ t := by
      rintro rfl
      rw [houtside] at hu
      cases hu
    rw [hpoints hut] at hu
    exact ⟨hut, hu, h.ne_of_ne hut ht hu⟩
  constructor
  · intro u q hu
    obtain ⟨-, hu, hq⟩ := hkept hu
    obtain ⟨hnull, hlive, hsleeper, hflags⟩ := h.owned u q hu
    exact ⟨hnull, (helse.live q hq).trans hlive,
      (sleeper_of_handler (helse.handler q hq)).trans hsleeper, (helse.flags q hq).trans hflags⟩
  · intro q u hlive hsleeper
    have hq : q ≠ p := by
      rintro rfl
      rw [hfree] at hlive
      cases hlive
    have hu := h.owner q u ((helse.live q hq).symm.trans hlive)
      ((sleeper_of_handler (helse.handler q hq)).symm.trans hsleeper)
    have hut : u ≠ t := by
      rintro rfl
      exact hq (Option.some.inj (hu.symm.trans ht))
    rw [hpoints hut]
    exact hu
  · intro u q hu hlisted
    obtain ⟨hut, hu, hq⟩ := hkept hu
    rw [hsleep, Function.update_of_ne hut]
    exact h.pending u q hu ((helse.listed q hq).mp hlisted)
  · intro u hu
    rw [hsleep] at hu ⊢
    by_cases hut : u = t
    · subst hut
      rw [Function.update_self] at hu
      exact absurd rfl hu
    · rw [Function.update_of_ne hut] at hu ⊢
      rw [hpoints hut]
      exact h.pointed u hu
  · intro u q err hu
    obtain ⟨hut, -, hq⟩ := hkept hu.timer
    rw [hpoints hut] at hu
    obtain ⟨herr, hlisted⟩ := h.armed u q err hu
    exact ⟨herr, (helse.listed q hq).mpr hlisted⟩

end SleepLinks

/-! ## Waking -/

theorem wake_timer (w : SleepThreads) (t : ℕ) : (w.wake.point t).timer = (w.point t).timer := by
  rw [SleepThreads.wake]
  cases hpoint : w.point t with
  | outside => simp only [hpoint]
  | started p err => simp only [hpoint]
  | woken p => simp only [hpoint]
  | asleep p err =>
      simp only [hpoint]
      split <;> rfl

theorem wake_eq_asleep {err : NxError} (h : w.wake.point t = .asleep p err) :
    w.point t = .asleep p err ∧ (w.sched.thread t).state = .blocked := by
  rw [SleepThreads.wake] at h
  cases hpoint : w.point t with
  | outside => simp only [hpoint, reduceCtorEq] at h
  | started q err' => simp only [hpoint, reduceCtorEq] at h
  | woken q => simp only [hpoint, reduceCtorEq] at h
  | asleep q err' =>
      simp only [hpoint] at h
      by_cases hstate : (w.sched.thread t).state = .blocked
      · rw [if_pos hstate] at h
        exact ⟨h, hstate⟩
      · rw [if_neg hstate] at h
        cases h

theorem wake_eq_started {err : NxError} (h : w.wake.point t = .started p err) :
    w.point t = .started p err := by
  rw [SleepThreads.wake] at h
  cases hpoint : w.point t with
  | outside => simp only [hpoint, reduceCtorEq] at h
  | started q err' =>
      simp only [hpoint] at h
      exact h
  | woken q => simp only [hpoint, reduceCtorEq] at h
  | asleep q err' =>
      simp only [hpoint] at h
      split at h <;> cases h

theorem wake_reliesOn {err : NxError} (h : (w.wake.point t).ReliesOn p err) :
    (w.point t).ReliesOn p err :=
  h.imp wake_eq_started fun hasleep => (wake_eq_asleep hasleep).1

theorem SleepLinks.wake (h : SleepLinks w σ) : SleepLinks w.wake σ :=
  h.of_points (wake_timer w) (fun _ _ _ => wake_reliesOn) rfl

def SleepThreads.Asleep (w : SleepThreads) : Prop :=
  ∀ t p err, w.point t = .asleep p err → (w.sched.thread t).state = .blocked

theorem asleep_wake (w : SleepThreads) : w.wake.Asleep :=
  fun _ _ _ h => (wake_eq_asleep h).2

end Nxos.Sched
