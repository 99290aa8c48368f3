import Nxos.Sched.Semaphore.Runs

/-!
# Threads that are left on a wait list

`NX_ThreadTerminate` and `SysThreadResume` make a thread ready without taking it off the
wait list.  A terminated thread exits while it is linked.  When neither is used on a thread
that is linked, every linked thread is inside `NX_SemaphoreWait` on that semaphore.
-/

namespace Nxos.Sched

open Nxos.Transition

variable {ι : Type} {cores : ℕ} {k : Kernel ι} {t c : ℕ}

/-- The linked threads are inside `NX_SemaphoreWait` on the semaphore of the list. -/
def LinkedInside (k : Kernel ι) : Prop :=
  ∀ s, ∀ t ∈ (k.semaphore s).semWaitList,
    (k.point t).waitsFor = some s ∧ (k.sched.thread t).state ≠ .exit

/-- No linked thread is terminated or resumed, and no thread is suspended while another core
runs it. -/
def LeavesLinked (cores : ℕ) (k : Kernel ι) : SemOp ι → Prop
  | .sched (.terminate t) => k.blockList t = none
  | .sched (.unblock t) => k.blockList t = none
  | .sched (.block c t) => ∀ d, k.sched.Runs cores d t → d = c
  | _ => True

namespace WaitInv

theorem linkedInside (h : WaitInv cores k) : LinkedInside k := by
  intro s t ht
  obtain ⟨hpoint, hstate⟩ := h.asleep t s ((h.linked t s).mp ht)
  rw [hpoint, hstate]
  exact ⟨rfl, fun hno => nomatch hno⟩

theorem unblock (h : WaitInv cores k) (hfree : k.blockList t = none) :
    ∃ r, threadUnblock cores k.sched t = .ok r ∧ WaitInv cores { k with sched := r.2 } := by
  obtain ⟨r, hrun, hinv, hidle, hblocked, hother⟩ := h.sched.unblock t
  refine ⟨r, hrun, h.withSched hinv (fun u hu => ?_) hidle⟩
  have hut := ne_of_linked hfree hu
  by_cases hstate : (k.sched.thread t).state = .blocked
  · rw [hblocked hstate, Function.update_of_ne hut]
    exact h.blocked_of_linked hu
  · rw [hother hstate]
    exact h.blocked_of_linked hu

theorem terminate (h : WaitInv cores k) (ht : ¬k.sched.IsIdle cores t)
    (hfree : k.blockList t = none) :
    ∃ r, threadTerminate cores k.sched t = .ok r ∧ WaitInv cores { k with sched := r.2 } := by
  obtain ⟨r, hrun, hinv, hidle, hother⟩ := h.sched.terminate ht
  refine ⟨r, hrun, h.withSched hinv (fun u hu => ?_) hidle⟩
  rw [hother u (ne_of_linked hfree hu)]
  exact h.blocked_of_linked hu

theorem block (h : WaitInv cores k)
    (hallowed : (SemOp.sched (.block c t) : SemOp ι).Allowed cores k) :
    ∃ r, threadBlock cores k.sched c t = .ok r ∧ WaitInv cores { k with sched := r.2 } := by
  obtain ⟨⟨ht, cur, hrun, rfl | hstate⟩, -⟩ := hallowed
  · obtain ⟨τ, hblock, hτ, hkept, -⟩ := h.sched.blockSelf ht hrun
    refine ⟨_, hblock, h.withSched hτ (fun u hu => ?_) hkept.idleThread⟩
    have hut := ne_of_linked (h.unlinked_of_runs hrun) hu
    exact (hkept.blocked u hut).mpr (h.blocked_of_linked hu)
  · obtain ⟨r, hblock, hr, hkept, hstill⟩ := h.sched.blockOther ht hstate c
    refine ⟨_, hblock, h.withSched hr (fun u hu => ?_) hkept.idleThread⟩
    by_cases hut : u = t
    · subst hut
      exact hstill (h.blocked_of_linked hu)
    · exact (hkept.blocked u hut).mpr (h.blocked_of_linked hu)

variable [DecidableEq ι]

theorem step (h : WaitInv cores k) {op : SemOp ι} (hleaves : LeavesLinked cores k op)
    (hallowed : op.Allowed cores k) :
    ∃ e k', semStep cores k op = .ok (e, k') ∧ WaitInv cores k' := by
  by_cases hquiet : op.Quiet
  · obtain ⟨e, k', hstep, hinv, heffect⟩ := h.step_effect hquiet hallowed
    exact ⟨e, k', hstep, h.effect hinv heffect⟩
  · cases op with
    | sched op =>
        cases op with
        | block c t =>
            obtain ⟨r, hblock, hr⟩ := h.block hallowed
            exact ⟨none, _, by rw [semStep, schedStep, hblock]; rfl, hr⟩
        | unblock t =>
            obtain ⟨r, hunblock, hr⟩ := h.unblock hleaves
            exact ⟨none, _, by rw [semStep, schedStep, hunblock]; rfl, hr⟩
        | terminate t =>
            obtain ⟨r, hterminate, hr⟩ := h.terminate hallowed.1 hleaves
            exact ⟨none, _, by rw [semStep, schedStep, hterminate]; rfl, hr⟩
        | _ => exact absurd trivial hquiet
    | _ => exact absurd trivial hquiet

end WaitInv

variable [DecidableEq ι]

/-- In every run in which no linked thread is terminated or resumed, and no thread that
another core runs is suspended, the threads on a wait list are inside `NX_SemaphoreWait` on
its semaphore. -/
theorem semReachable_linkedInside (cores : ℕ) (idle : ℕ → ℕ) (hnull : ∀ c < cores, idle c ≠ 0)
    (hdiffer : ∀ c < cores, ∀ d < cores, idle c = idle d → c = d) :
    ∃ start, threadInitIdle cores idle cores = .ok start ∧
      ∀ r : SemRun ι, Reachable (SemMoveWhen cores (LeavesLinked cores)) (semStart start) r →
        LinkedInside r.kernel := by
  obtain ⟨start, hboot, hqueues, hidle, -⟩ :=
    threadInitIdle_inv idle hnull hdiffer (Nat.le_refl cores)
  refine ⟨start, hboot, fun r hreach => ?_⟩
  have hinv : WaitInv cores r.kernel := by
    refine hreach.invariant (P := fun r => WaitInv cores r.kernel)
      (waitInv_semStart ⟨hqueues, hidle⟩) fun hinv hmove => ?_
    obtain ⟨hleaves, hallowed, e, hstep, -⟩ := hmove
    obtain ⟨e', k', hstep', hk'⟩ := hinv.step hleaves hallowed
    obtain ⟨rfl, rfl⟩ := Prod.mk.inj (Except.ok.inj (hstep.symm.trans hstep'))
    exact hk'
  exact hinv.linkedInside

instance (k : Kernel ι) (op : SemOp ι) : Decidable (LeavesLinked cores k op) :=
  match op with
  | .sched (.terminate t) => inferInstanceAs (Decidable (k.blockList t = none))
  | .sched (.unblock t) => inferInstanceAs (Decidable (k.blockList t = none))
  | .sched (.block c t) => decidable_of_iff (∀ d < cores, k.sched.Runs cores d t → d = c)
      ⟨fun h d hrun => h d hrun.1 hrun, fun h d _ hrun => h d hrun⟩
  | .sched (.create ..) => .isTrue trivial
  | .sched (.setAffinity ..) => .isTrue trivial
  | .sched (.start ..) => .isTrue trivial
  | .sched .enterCore => .isTrue trivial
  | .sched (.toFirst ..) => .isTrue trivial
  | .sched (.yield ..) => .isTrue trivial
  | .sched (.reSched ..) => .isTrue trivial
  | .sched (.irq ..) => .isTrue trivial
  | .sched (.exit ..) => .isTrue trivial
  | .init .. => .isTrue trivial
  | .wait .. => .isTrue trivial
  | .goOn .. => .isTrue trivial
  | .tryWait .. => .isTrue trivial
  | .signal .. => .isTrue trivial
  | .signalAll .. => .isTrue trivial

/-- Thread `5` sleeps on a semaphore. -/
def oneSleeperRun : List (SemOp ℕ) :=
  [.init (some 9) 0, .sched (.toFirst 0), .sched (.create 5 3), .sched (.start 5),
    .sched (.yield 0), .wait 0 (some 9), .goOn 0]

/-- Another thread is suspended, resumed and terminated meanwhile. -/
theorem semReachable_linkedInside_oneSleeper :
    ∃ (start : Scheduler) (r : SemRun ℕ), threadInitIdle 1 (· + 1) 1 = .ok start ∧
      Reachable (SemMoveWhen 1 (LeavesLinked 1)) (semStart start) r ∧
      5 ∈ (r.kernel.semaphore 9).semWaitList ∧ (r.kernel.point 5).waitsFor = some 9 := by
  obtain ⟨start, hboot, hruns⟩ := semReachable_linkedInside (ι := ℕ) 1 (· + 1)
    (fun _ _ => Nat.succ_ne_zero _) fun _ _ _ _ => Nat.succ.inj
  have heval : (performSem (LeavesLinked 1) 1 (oneSleeperRun ++
      [.sched (.create 6 3), .sched (.start 6), .sched (.yield 0), .sched (.block 0 6),
        .sched (.unblock 6), .sched (.terminate 6)])).map (fun r =>
      decide (5 ∈ (r.kernel.semaphore 9).semWaitList)) = some true := by
    decide +kernel
  obtain ⟨r, hrun, hr⟩ := Option.map_eq_some_iff.mp heval
  obtain ⟨start', hboot', hreach⟩ := reachable_of_performSem hrun
  obtain rfl := Except.ok.inj (hboot.symm.trans hboot')
  have hmem := of_decide_eq_true hr
  exact ⟨start, r, hboot, hreach, hmem, (hruns r hreach 9 5 hmem).1⟩

/-- Thread `5` is terminated, exits, and is still on the list. -/
theorem threadTerminate_leavesLink :
    ∃ (start : Scheduler) (r : SemRun ℕ), threadInitIdle 1 (· + 1) 1 = .ok start ∧
      Reachable (SemMove 1) (semStart start) r ∧ (r.kernel.sched.thread 5).state = .exit ∧
      5 ∈ (r.kernel.semaphore 9).semWaitList ∧ ¬LinkedInside r.kernel := by
  have heval : (performSem (fun _ _ => True) 1 (oneSleeperRun ++
      [.sched (.terminate 5), .sched (.yield 0), .goOn 0])).map (fun r =>
      decide ((r.kernel.sched.thread 5).state = .exit ∧
        5 ∈ (r.kernel.semaphore 9).semWaitList)) = some true := by
    decide +kernel
  obtain ⟨r, hrun, hr⟩ := Option.map_eq_some_iff.mp heval
  obtain ⟨hexit, hmem⟩ := of_decide_eq_true hr
  obtain ⟨start, hboot, hreach⟩ := reachable_of_performSem hrun
  exact ⟨start, r, hboot, hreach.mono fun hmove => hmove.2, hexit, hmem,
    fun hinside => (hinside 9 5 hmem).2 hexit⟩

end Nxos.Sched
