import Nxos.Sched.Runs

/-!
# Blocking another thread

`NX_ThreadBlock` takes a ready thread off its queue, and reschedules when the thread is
running.  It takes a running thread for the caller.  When another core runs the thread, the
core of the caller goes on to the next thread, and the caller is left in the state
`NX_THREAD_RUNNING`, on no core and on no queue.
-/

namespace Nxos.Sched

open Nxos.Transition

variable {cores : ℕ} {σ τ : Scheduler} {t c cur : ℕ}

/-- Every thread other than `t` that is ready or running is on a core or on one queue. -/
def OthersSchedulable (cores : ℕ) (σ : Scheduler) (t : ℕ) : Prop :=
  ∀ u, u ≠ t → (σ.thread u).state = .ready ∨ (σ.thread u).state = .running →
    (∃ c < cores, (σ.cpuArray c).threadRunning = some u) ∨ ∃! q, u ∈ σ.queue q

theorem QueueInv.othersSchedulable (h : QueueInv cores ∅ ∅ σ) (t : ℕ) :
    OthersSchedulable cores σ t := by
  intro u _ hstate
  rcases hstate with hstate | hstate
  · refine .inr ⟨(σ.thread u).home cores, ?_, fun q hq => ?_⟩
    · exact (h.queued u _).mpr ⟨Set.notMem_empty u, hstate, rfl⟩
    · exact ((h.queued u q).mp hq).2.2.symm
  · obtain ⟨hc, -, hrun⟩ := (h.running u _).mpr ⟨Set.notMem_empty u, hstate, rfl⟩
    exact .inl ⟨_, hc, hrun⟩

theorem SchedInv.idle_ready (h : SchedInv cores σ) (hrun : σ.Runs cores c cur)
    (hcur : ¬σ.IsIdle cores cur) : ∃ i, i ≠ cur ∧ (σ.thread i).state = .ready ∧
      (σ.thread i).onCore = c ∧ (σ.thread i).coreAffinity < cores := by
  obtain ⟨i, hi, hcore, haffinity, -, hstate⟩ := h.idle.idle c hrun.1
  have hne : i ≠ cur := fun heq => hcur ⟨c, hrun.1, heq ▸ hi⟩
  refine ⟨i, hne, hstate.resolve_right fun hrunning => ?_, hcore, haffinity ▸ hrun.1⟩
  obtain ⟨-, -, hrun'⟩ := (h.queues.running i c).mpr ⟨Set.notMem_empty i, hrunning, hcore⟩
  exact hne (Option.some.inj (hrun'.symm.trans hrun.2))

theorem threadBlock_loses_caller (h : SchedInv cores σ) (hrun : σ.Runs cores c cur)
    (hcur : ¬σ.IsIdle cores cur) (ht : t ≠ cur) (hstate : (σ.thread t).state = .running) :
    ∃ r, threadBlock cores σ c t = .ok r ∧ ¬OthersSchedulable cores r.2 t := by
  obtain ⟨hcurState, hcurCore⟩ := h.running_of_runs hrun
  have hlisted := h.listed_of_state hstate (by decide) (by decide)
  have hzero : t ≠ 0 := by
    rintro rfl
    rw [h.queues.null.1] at hstate
    cases hstate
  obtain ⟨hcoreT, -, hrunT⟩ :=
    (h.queues.running t _).mpr ⟨Set.notMem_empty t, hstate, rfl⟩
  have hcores : (σ.thread t).onCore ≠ c := by
    intro heq
    rw [heq] at hrunT
    exact ht (Option.some.inj (hrunT.symm.trans hrun.2))
  -- both cores are open: the caller is held, and the blocked thread belongs nowhere
  set opened : Set ℕ := insert (σ.thread t).onCore ∅ with hopened
  have hcOpen : c ∉ opened := fun hmem => hcores (hmem.resolve_right (Set.notMem_empty c)).symm
  set blocked := σ.write t ((σ.thread t).setState .blocked) with hblocked
  have hwf : ((σ.thread t).setState .blocked).WellFormed cores := by
    obtain ⟨hcore, hfixed, hsharing, hconstant⟩ := h.queues.wellFormed t
    exact ⟨hcore, hfixed, hsharing, hconstant⟩
  have hdropped : QueueInv cores ∅ opened blocked :=
    ((h.queues.release hcoreT (Set.notMem_empty _) hrunT).write (Set.mem_insert ..) hwf).drop
      (Set.notMem_empty t) (by rw [write_thread_self]; rfl) hlisted
  have hinv := hdropped.release hrun.1 hcOpen (t := cur) hrun.2
  obtain ⟨i, hine, histate, hicore, hibound⟩ := h.idle_ready hrun hcur
  have hit : i ≠ t := by
    rintro rfl
    rw [hstate] at histate
    cases histate
  have hspare : blocked.SpareOn cores (insert cur ∅) c := by
    refine ⟨i, fun hmem => hine (hmem.resolve_right (Set.notMem_empty i)), ?_⟩
    rw [hblocked, write_thread_of_ne hit]
    exact ⟨histate, hicore, hibound⟩
  obtain ⟨next, τ, hsched, hτ, hnext, hswitched⟩ :=
    schedLockedIRQ_switches hinv hcOpen hrun.1 (t := cur) hrun.2 hspare
  refine ⟨(.eok, τ), ?_, fun hothers => ?_⟩
  · unfold threadBlock
    rw [if_neg hzero]
    simp only [hstate, ← hblocked, hsched, exec_ok_bind]
    rfl
  · have hcurNext : cur ≠ next := fun heq => hnext (heq ▸ Set.mem_insert ..)
    have hcurBlocked : blocked.thread cur = σ.thread cur := write_thread_of_ne ht.symm
    have hstill : (τ.thread cur).state = .running := by
      rw [hswitched.state cur hcurNext, hcurBlocked, hcurState]
    rcases hothers cur ht.symm (.inr hstill) with ⟨d, hd, hrunD⟩ | ⟨q, hq, -⟩
    · by_cases hdc : d = c
      · rw [hdc, hswitched.threadRunning] at hrunD
        exact hcurNext (Option.some.inj hrunD).symm
      · rw [hswitched.otherCores d hdc] at hrunD
        obtain ⟨-, -, hcore⟩ := (h.queues.running cur d).mp ⟨hd, Set.notMem_empty d, hrunD⟩
        exact hdc (hcore.symm.trans hcurCore)
    · exact ((hτ.queued cur q).mp hq).1 (Set.mem_insert cur ∅)

theorem threadBlock_keeps_others (h : SchedInv cores σ)
    (hstate : (σ.thread t).state ≠ .running) (c : ℕ) :
    ∃ r, threadBlock cores σ c t = .ok r ∧ OthersSchedulable cores r.2 t := by
  unfold threadBlock
  split
  · exact ⟨_, rfl, h.queues.othersSchedulable t⟩
  · simp only
    cases hcase : (σ.thread t).state with
    | init => exact ⟨_, rfl, h.queues.othersSchedulable t⟩
    | blocked => exact ⟨_, rfl, h.queues.othersSchedulable t⟩
    | exit => exact ⟨_, rfl, h.queues.othersSchedulable t⟩
    | running => exact absurd hcase hstate
    | ready =>
        obtain ⟨τ, hunready, hτ, -⟩ :=
          h.queues.threadUnreadyRun_blocked (Set.notMem_empty t) hcase
        simp only [hunready]
        exact ⟨_, rfl, hτ.othersSchedulable t⟩

/-- `NX_ThreadBlock` of another thread keeps all others schedulable exactly when no core runs
that thread. -/
theorem threadBlock_othersSchedulable_iff (h : SchedInv cores σ) (hrun : σ.Runs cores c cur)
    (hcur : ¬σ.IsIdle cores cur) (ht : t ≠ cur) :
    (∃ r, threadBlock cores σ c t = .ok r ∧ OthersSchedulable cores r.2 t) ↔
      (σ.thread t).state ≠ .running := by
  refine ⟨fun hkeeps hstate => ?_, fun hstate => threadBlock_keeps_others h hstate c⟩
  obtain ⟨r, hr, hothers⟩ := hkeeps
  obtain ⟨r', hr', hlost⟩ := threadBlock_loses_caller h hrun hcur ht hstate
  obtain rfl := Except.ok.inj (hr.symm.trans hr')
  exact hlost hothers

/-- Thread `5` runs on the first core and thread `6` on the second. -/
def twoThreadsRun : List SchedOp :=
  [.toFirst 0, .create 5 3, .start 5, .yield 0, .enterCore, .toFirst 1, .create 6 3, .start 6,
    .yield 1]

theorem schedInv_performBooted {ops : List SchedOp} (h : performBooted cores ops = some σ) :
    SchedInv cores σ := by
  obtain ⟨start, hboot, hreach⟩ := reachable_of_performBooted h
  obtain ⟨start', hboot', hqueues, hidle, -⟩ := threadInitIdle_inv (· + 1)
    (fun _ _ => Nat.succ_ne_zero _) (fun _ _ _ _ => Nat.succ.inj) (Nat.le_refl cores)
  obtain rfl := Except.ok.inj (hboot.symm.trans hboot')
  exact SchedInv.of_reachable ⟨hqueues, hidle⟩ hreach

theorem threadBlock_othersSchedulable_iff_twoThreads :
    ∃ σ, performBooted 2 (twoThreadsRun ++ [.yield 1]) = some σ ∧
      ((∃ r, threadBlock 2 σ 0 2 = .ok r ∧ OthersSchedulable 2 r.2 2) ↔
        (σ.thread 2).state ≠ .running) := by
  have heval : (performBooted 2 (twoThreadsRun ++ [.yield 1])).map (fun σ =>
      decide (σ.Runs 2 0 5 ∧ ¬σ.IsIdle 2 5)) = some true := by
    decide +kernel
  obtain ⟨σ, hrun, hσ⟩ := Option.map_eq_some_iff.mp heval
  obtain ⟨hfive, hidle⟩ := of_decide_eq_true hσ
  exact ⟨σ, hrun, threadBlock_othersSchedulable_iff (schedInv_performBooted hrun) hfive hidle
    (by decide)⟩

/-- Thread `5` suspends thread `6`, and is lost. -/
theorem threadBlock_lostCaller :
    ∃ start σ, threadInitIdle 2 (· + 1) 2 = .ok start ∧ Reachable (SchedMove 2) start σ ∧
      σ.Runs 2 0 5 ∧ σ.Runs 2 1 6 ∧
      ∃ r, threadBlock 2 σ 0 6 = .ok r ∧ ¬OthersSchedulable 2 r.2 6 := by
  have heval : (performBooted 2 twoThreadsRun).map (fun σ =>
      decide (σ.Runs 2 0 5 ∧ σ.Runs 2 1 6 ∧ ¬σ.IsIdle 2 5)) = some true := by
    decide +kernel
  obtain ⟨σ, hrun, hσ⟩ := Option.map_eq_some_iff.mp heval
  obtain ⟨hfive, hsix, hidle⟩ := of_decide_eq_true hσ
  have hinv := schedInv_performBooted hrun
  obtain ⟨start, hboot, hreach⟩ := reachable_of_performBooted hrun
  exact ⟨start, σ, hboot, hreach, hfive, hsix, threadBlock_loses_caller hinv hfive hidle
    (by decide) (hinv.running_of_runs hsix).1⟩

end Nxos.Sched
