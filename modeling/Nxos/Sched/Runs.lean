import Nxos.Sched.Schedule
import Nxos.Support.Transition

/-!
# Runs of the scheduler

Each entry point of the scheduler is one step of one core.  The invariant of the queues and
the binding of the idle threads hold after the boot, and every step keeps them and does not
fault.
-/

namespace Nxos.Sched

open Nxos.Transition

variable {cores : ℕ} {σ τ ρ : Scheduler} {t c : ℕ}

/-! ## Steps -/

/-- A call of the scheduler, by the core that it is on where this matters. -/
inductive SchedOp where
  | create (t : ℕ) (priority : BitVec 32)
  | setAffinity (t coreId : ℕ)
  | start (t : ℕ)
  | enterCore
  | toFirst (coreId : ℕ)
  | yield (coreId : ℕ)
  | reSched (coreId : ℕ)
  | irq (coreId : ℕ)
  | block (coreId t : ℕ)
  | unblock (t : ℕ)
  | terminate (t : ℕ)
  | exit (coreId : ℕ)

/-- The call neither blocks, unblocks nor terminates a thread. -/
def SchedOp.Quiet : SchedOp → Prop
  | .block .. => False
  | .unblock .. => False
  | .terminate .. => False
  | _ => True

/-- Perform a call.  A core that enters `NX_Main` counts itself among the active ones. -/
def schedStep (cores : ℕ) (σ : Scheduler) : SchedOp → Exec Scheduler
  | .create t priority => .ok (threadCreate cores σ t priority).2
  | .setAffinity t coreId => .ok (threadSetAffinity cores σ t coreId).2
  | .start t => (threadStart cores σ t).map (·.2)
  | .enterCore => .ok { σ with activedCoreCount := σ.activedCoreCount + 1 }
  | .toFirst coreId => schedToFirstThread cores σ coreId
  | .yield coreId => schedYield cores σ coreId
  | .reSched coreId => reSchedCheck cores σ coreId
  | .irq coreId => schedIrqHandler cores σ coreId
  | .block coreId t => (threadBlock cores σ coreId t).map (·.2)
  | .unblock t => (threadUnblock cores σ t).map (·.2)
  | .terminate t => (threadTerminate cores σ t).map (·.2)
  | .exit coreId => threadExit cores σ coreId

def Scheduler.Runs (cores : ℕ) (σ : Scheduler) (c t : ℕ) : Prop :=
  c < cores ∧ (σ.cpuArray c).threadRunning = some t

instance (cores : ℕ) (σ : Scheduler) (c t : ℕ) : Decidable (σ.Runs cores c t) :=
  inferInstanceAs (Decidable (_ ∧ _))

/-- The call may end the thread: it was terminated before, or it ends itself. -/
def SchedOp.MayEnd (cores : ℕ) (σ : Scheduler) (op : SchedOp) (u : ℕ) : Prop :=
  (σ.thread u).isTerminated = true ∨ ∃ c, op = .exit c ∧ σ.Runs cores c u

/-- What the callers promise: a thread is set up and started once, a core that runs no
thread yet is started, an idle thread neither blocks nor exits nor is terminated, and a
thread that another core runs is not blocked. -/
def SchedOp.Allowed (cores : ℕ) (σ : Scheduler) : SchedOp → Prop
  | .create t _ => (σ.thread t).state = .init
  | .setAffinity t _ => (σ.thread t).state = .init
  | .start t => (σ.thread t).state = .init
  | .enterCore => True
  | .toFirst coreId => coreId < cores ∧ (σ.cpuArray coreId).threadRunning = none
  | .yield coreId => ∃ cur, σ.Runs cores coreId cur
  | .reSched coreId => ∃ cur, σ.Runs cores coreId cur
  | .irq coreId => ∃ cur, σ.Runs cores coreId cur
  | .block coreId t => ¬σ.IsIdle cores t ∧
      ∃ cur, σ.Runs cores coreId cur ∧ (t = cur ∨ (σ.thread t).state ≠ .running)
  | .unblock _ => True
  | .terminate t => ¬σ.IsIdle cores t
  | .exit coreId => ∃ cur, σ.Runs cores coreId cur ∧ ¬σ.IsIdle cores cur

def SchedMove (cores : ℕ) (σ : Scheduler) (op : SchedOp) (τ : Scheduler) : Prop :=
  op.Allowed cores σ ∧ schedStep cores σ op = .ok τ

/-- The invariant between calls. -/
structure SchedInv (cores : ℕ) (σ : Scheduler) : Prop where
  queues : QueueInv cores ∅ ∅ σ
  idle : IdleInv cores cores σ

namespace SchedInv

theorem running_of_runs (h : SchedInv cores σ) (hrun : σ.Runs cores c t) :
    (σ.thread t).state = .running ∧ (σ.thread t).onCore = c :=
  ((h.queues.running t c).mp ⟨hrun.1, Set.notMem_empty c, hrun.2⟩).2

theorem listed_of_state (h : SchedInv cores σ) {state : ThreadState}
    (hstate : (σ.thread t).state = state) (hinit : state ≠ .init) (hexit : state ≠ .exit) :
    t ∈ σ.manager.globalList :=
  (h.queues.listed t (Set.notMem_empty t)).mpr (by rw [hstate]; exact ⟨hinit, hexit⟩)

theorem threadSelf_eq (hrun : σ.Runs cores c t) : threadSelf cores σ c = .ok t := by
  unfold threadSelf cpuGetIndex
  rw [nxAssert_pos hrun.1]
  simp only [exec_ok_bind, exec_pure, hrun.2]

/-! ## Calls of the running thread -/

/-- The running thread goes to the end of its queue and the next one runs. -/
theorem requeue (h : SchedInv cores σ) (hrun : σ.Runs cores c t) :
    ∃ τ, (threadReadyRun cores σ t .tail >>= fun σ => schedLockedIRQ cores σ c) = .ok τ ∧
      SchedInv cores τ ∧ SameBlocked ∅ σ τ := by
  obtain ⟨hstate, -⟩ := h.running_of_runs hrun
  have hlisted := h.listed_of_state hstate (by decide) (by decide)
  obtain ⟨τ, hready, hτ, hthread, hsame⟩ := threadReadyRun_held
    (h.queues.release hrun.1 (Set.notMem_empty c) hrun.2) (Set.notMem_empty t) hlisted .tail
  have hidle : IdleInv cores cores τ := by
    refine h.idle.of_kept hsame.idleThread fun d _ i _ _ _ hi => ?_
    rw [hthread]
    by_cases hit : i = t
    · subst hit
      rw [Function.update_self]
      exact ⟨rfl, rfl, rfl, .inl rfl⟩
    · rw [Function.update_of_ne hit]
      exact ⟨rfl, rfl, rfl, hi⟩
  have hspare := hidle.spareOn hτ hrun.1 (Set.mem_insert c ∅) fun i _ => Set.notMem_empty i
  obtain ⟨next, ρ, hsched, hρ, -, hswitched⟩ := schedLockedIRQ_switches hτ (Set.notMem_empty c)
    hrun.1 ((hsame.threadRunning c).trans hrun.2) hspare
  refine ⟨ρ, ?_, ⟨hρ, hidle.switched hswitched⟩,
    (SameBlocked.update hthread ?_ ThreadState.noConfusion id (fun _ _ => .inl rfl)
      hsame.idleThread).trans hswitched.sameBlocked⟩
  · rw [hready, exec_ok_bind, hsched]
  · rw [hstate]
    decide

theorem yield (h : SchedInv cores σ) (hrun : σ.Runs cores c t) :
    ∃ τ, schedYield cores σ c = .ok τ ∧ SchedInv cores τ ∧ SameBlocked ∅ σ τ := by
  unfold schedYield
  rw [threadSelf_eq hrun, exec_ok_bind]
  exact h.requeue hrun

theorem rewrite (h : SchedInv cores σ) (th : Thread) (hstate : th.state = (σ.thread t).state)
    (hcore : th.onCore = (σ.thread t).onCore)
    (hpriority : th.priority = (σ.thread t).priority)
    (hfixed : th.fixedPriority = (σ.thread t).fixedPriority)
    (haffinity : th.coreAffinity = (σ.thread t).coreAffinity)
    (hterminated : th.isTerminated = (σ.thread t).isTerminated ∨ ¬σ.IsIdle cores t) :
    SchedInv cores (σ.write t th) := by
  refine ⟨h.queues.modify th hstate hcore hpriority hfixed,
    h.idle.of_kept (fun _ => rfl) fun d hd i hi _ _ histate => ?_⟩
  by_cases hit : i = t
  · subst hit
    rw [write_thread_self]
    exact ⟨hcore, haffinity, hterminated.resolve_right fun hno => hno ⟨d, hd, hi⟩,
      hstate ▸ histate⟩
  · rw [write_thread_of_ne hit]
    exact ⟨rfl, rfl, rfl, histate⟩

theorem idle_of_other (h : SchedInv cores σ) (ht : ¬σ.IsIdle cores t) {th : Thread}
    (hthread : τ.thread = Function.update σ.thread t th)
    (hidle : ∀ c, (τ.cpuArray c).idleThread = (σ.cpuArray c).idleThread) :
    IdleInv cores cores τ := by
  refine h.idle.of_kept hidle fun d hd i hi _ _ histate => ?_
  have hit : i ≠ t := fun heq => ht ⟨d, hd, heq ▸ hi⟩
  rw [hthread, Function.update_of_ne hit]
  exact ⟨rfl, rfl, rfl, histate⟩

theorem exit (h : SchedInv cores σ) (hrun : σ.Runs cores c t) (ht : ¬σ.IsIdle cores t) :
    ∃ τ, threadExit cores σ c = .ok τ ∧ SchedInv cores τ ∧ SameBlocked {t} σ τ ∧
      (τ.thread t).state = .exit := by
  obtain ⟨hstate, -⟩ := h.running_of_runs hrun
  have hlisted := h.listed_of_state hstate (by decide) (by decide)
  have hfree : t ∉ σ.manager.exitList := by
    intro hmem
    have hexit := (h.queues.exited t hmem).2
    rw [hstate] at hexit
    cases hexit
  set exited : Scheduler :=
    { σ.write t ((σ.thread t).setState .exit) with
      manager :=
        { σ.manager with
          globalList := σ.manager.globalList.erase t
          activeThreadCount := σ.manager.activeThreadCount - 1
          exitList := t :: σ.manager.exitList } } with hexited
  have hinv : QueueInv cores ∅ (insert c ∅) exited :=
    (h.queues.release hrun.1 (Set.notMem_empty c) hrun.2).retire (Set.notMem_empty t)
      rfl rfl rfl rfl rfl rfl rfl
  have hidle : IdleInv cores cores exited := h.idle_of_other ht rfl fun _ => rfl
  have hspare := hidle.spareOn hinv hrun.1 (Set.mem_insert c ∅) fun i _ => Set.notMem_empty i
  obtain ⟨next, ρ, hsched, hρ, -, hswitched⟩ := schedLockedIRQ_switches hinv
    (Set.notMem_empty c) hrun.1 (t := t) hrun.2 hspare
  have hself : exited.thread t = (σ.thread t).setState .exit := write_thread_self ..
  have hnext : t ≠ next := by
    rintro rfl
    have hready := hswitched.wasReady
    rw [hself] at hready
    cases hready
  have hsame : SameBlocked {t} σ exited :=
    SameBlocked.update rfl (by rw [hstate]; decide) ThreadState.noConfusion id
      (fun hno => absurd rfl hno) fun _ => rfl
  refine ⟨ρ, ?_, ⟨hρ, hidle.switched hswitched⟩, 
    hsame.trans (hswitched.sameBlocked.mono (Set.empty_subset _)),
    by rw [hswitched.state t hnext, hself]; rfl⟩
  set dequeued : Scheduler :=
    { σ with
      manager :=
        { σ.manager with
          globalList := σ.manager.globalList.erase t
          activeThreadCount := σ.manager.activeThreadCount - 1 } } with hdequeued
  have hself : threadSelf cores dequeued c = .ok t := threadSelf_eq (σ := dequeued) hrun
  have hassert :
      nxAssert (t ∉ (dequeued.write t ((dequeued.thread t).setState .exit)).manager.exitList) =
        .ok () :=
    nxAssert_pos hfree
  unfold threadExit threadDeququeGlobalList schedExit threadEnququeExitList
  rw [threadSelf_eq hrun, exec_ok_bind, if_pos hlisted, exec_ok_bind, ← hdequeued, hself,
    exec_ok_bind]
  simp only [hassert, exec_ok_bind]
  exact hsched

theorem not_idle_of_terminated (h : SchedInv cores σ)
    (hterminated : (σ.thread t).isTerminated = true) : ¬σ.IsIdle cores t := by
  rintro ⟨d, hd, hi⟩
  obtain ⟨i, hi', -, -, hno, -⟩ := h.idle.idle d hd
  rw [Option.some.inj (hi.symm.trans hi'), hno] at hterminated
  cases hterminated

theorem sameBlocked_write (h : SchedInv cores σ) (hrun : σ.Runs cores c t) (th : Thread)
    (hstate : th.state = (σ.thread t).state)
    (hterminated : th.isTerminated = true → (σ.thread t).isTerminated = true) (gone : Set ℕ) :
    SameBlocked gone σ (σ.write t th) := by
  have hnotBlocked : (σ.thread t).state ≠ .blocked := by
    rw [(h.running_of_runs hrun).1]
    decide
  refine .update rfl hnotBlocked (hstate ▸ hnotBlocked) hterminated (fun _ hs => ?_) fun _ => rfl
  unfold Thread.Schedulable
  rw [hstate]
  exact hs

theorem reSched (h : SchedInv cores σ) (hrun : σ.Runs cores c t) :
    ∃ τ, reSchedCheck cores σ c = .ok τ ∧ SchedInv cores τ ∧
      SameBlocked {u | (σ.thread u).isTerminated = true} σ τ := by
  unfold reSchedCheck
  rw [threadSelf_eq hrun, exec_ok_bind]
  simp only
  split
  · next hterminated =>
      have ht := h.not_idle_of_terminated hterminated
      obtain ⟨τ, hexit, hτ, hsame, -⟩ := (h.rewrite
        { σ.thread t with isTerminated := false } rfl rfl rfl rfl rfl (.inr ht)).exit hrun ht
      have hwrite := h.sameBlocked_write hrun { σ.thread t with isTerminated := false } rfl
        (fun hno => nomatch hno) {u | (σ.thread u).isTerminated = true}
      exact ⟨τ, hexit, hτ, hwrite.trans (hsame.mono (Set.singleton_subset_iff.mpr hterminated))⟩
  · split
    · obtain ⟨τ, hrequeue, hτ, hsame⟩ := (h.rewrite
        { σ.thread t with needSched := false, ticks := (σ.thread t).timeslice }
        rfl rfl rfl rfl rfl (.inl rfl)).requeue hrun
      have hwrite := h.sameBlocked_write hrun
        { σ.thread t with needSched := false, ticks := (σ.thread t).timeslice } rfl id
        {u | (σ.thread u).isTerminated = true}
      exact ⟨τ, hrequeue, hτ, hwrite.trans (hsame.mono (Set.empty_subset _))⟩
    · exact ⟨σ, rfl, h, .refl _ σ⟩

theorem irq (h : SchedInv cores σ) (hrun : σ.Runs cores c t) :
    ∃ τ, schedIrqHandler cores σ c = .ok τ ∧ SchedInv cores τ ∧
      SameBlocked {u | (σ.thread u).isTerminated = true} σ τ := by
  unfold schedIrqHandler
  rw [threadSelf_eq hrun, exec_ok_bind]
  simp only
  split
  · next hterminated =>
      obtain ⟨τ, hexit, hτ, hsame, -⟩ := h.exit hrun (h.not_idle_of_terminated hterminated)
      exact ⟨τ, hexit, hτ, hsame.mono (Set.singleton_subset_iff.mpr hterminated)⟩
  · refine ⟨_, rfl, h.rewrite _ rfl rfl rfl rfl rfl (.inl rfl), ?_⟩
    apply h.sameBlocked_write hrun
    · rfl
    · exact id

/-! ## Calls for any thread -/

theorem unblock (h : SchedInv cores σ) (t : ℕ) :
    ∃ r, threadUnblock cores σ t = .ok r ∧ SchedInv cores r.2 ∧ SameIdle σ r.2 ∧
      ((σ.thread t).state = .blocked →
        r.2.thread = Function.update σ.thread t ((σ.thread t).setState .ready)) ∧
      ((σ.thread t).state ≠ .blocked → r.2.thread = σ.thread) := by
  obtain ⟨r, hrun, hr, hsame, hblocked, hother⟩ :=
    h.queues.unblock (t := t) fun _ => Set.notMem_empty t
  refine ⟨r, hrun, ⟨hr, ?_⟩, hsame.idleThread, hblocked, hother⟩
  by_cases hstate : (σ.thread t).state = .blocked
  · refine h.idle.of_kept hsame.idleThread fun d _ i _ _ _ hi => ?_
    have hit : i ≠ t := by
      rintro rfl
      rcases hi with hi | hi <;> rw [hstate] at hi <;> cases hi
    rw [hblocked hstate, Function.update_of_ne hit]
    exact ⟨rfl, rfl, rfl, hi⟩
  · refine h.idle.of_kept hsame.idleThread fun d _ i _ _ _ hi => ?_
    rw [hother hstate]
    exact ⟨rfl, rfl, rfl, hi⟩

theorem terminate (h : SchedInv cores σ) (ht : ¬σ.IsIdle cores t) :
    ∃ r, threadTerminate cores σ t = .ok r ∧ SchedInv cores r.2 ∧ SameIdle σ r.2 ∧
      ∀ u, u ≠ t → r.2.thread u = σ.thread u := by
  unfold threadTerminate
  split
  · exact ⟨_, rfl, h, fun _ => rfl, fun _ _ => rfl⟩
  · split
    · exact ⟨_, rfl, h, fun _ => rfl, fun _ _ => rfl⟩
    · set marked := σ.write t { σ.thread t with isTerminated := true } with hmarked
      have hinv : SchedInv cores marked := h.rewrite _ rfl rfl rfl rfl rfl (.inr ht)
      obtain ⟨r, hunblock, hr, hidle, hblocked, hother⟩ := hinv.unblock t
      rw [hunblock]
      refine ⟨_, rfl, hr, hidle, fun u hu => ?_⟩
      have hkept : marked.thread u = σ.thread u := write_thread_of_ne hu
      rw [← hkept]
      show r.2.thread u = _
      by_cases hstate : (marked.thread t).state = .blocked
      · rw [hblocked hstate, Function.update_of_ne hu]
      · rw [hother hstate]

/-- `NX_ThreadBlock` of the running thread itself. -/
theorem blockSelf (h : SchedInv cores σ) (ht : ¬σ.IsIdle cores t) (hrun : σ.Runs cores c t) :
    ∃ τ, threadBlock cores σ c t = .ok (.eok, τ) ∧ SchedInv cores τ ∧ OtherKept σ τ t ∧
      (τ.thread t).state = .blocked := by
  have hstate := (h.running_of_runs hrun).1
  have hnull : t ≠ 0 := by
    rintro rfl
    rw [h.queues.null.1] at hstate
    cases hstate
  have hlisted := h.listed_of_state hstate (by decide) (by decide)
  have hwf : ((σ.thread t).setState .blocked).WellFormed cores := by
    obtain ⟨hcore, hfixed, hsharing, hconstant⟩ := h.queues.wellFormed t
    exact ⟨hcore, hfixed, hsharing, hconstant⟩
  have hinv := ((h.queues.release hrun.1 (Set.notMem_empty c) hrun.2).write
    (Set.mem_insert ..) hwf).drop (Set.notMem_empty t) (by rw [write_thread_self]; rfl)
    hlisted
  have hidle : IdleInv cores cores (σ.write t ((σ.thread t).setState .blocked)) :=
    h.idle_of_other ht rfl fun _ => rfl
  have hspare := hidle.spareOn hinv hrun.1 (Set.mem_insert c ∅) fun i _ => Set.notMem_empty i
  obtain ⟨next, ρ, hsched, hρ, -, hswitched⟩ := schedLockedIRQ_switches hinv
    (Set.notMem_empty c) hrun.1 (t := t) hrun.2 hspare
  have hself : ((σ.write t ((σ.thread t).setState .blocked)).thread t).state = .blocked := by
    rw [write_thread_self]
    rfl
  have hkept : OtherKept σ (σ.write t ((σ.thread t).setState .blocked)) t :=
    .update (fun _ => rfl) rfl
  refine ⟨ρ, ?_, ⟨hρ, hidle.switched hswitched⟩, hkept.switched hswitched,
    (hswitched.sameBlocked.blocked t).mpr hself⟩
  unfold threadBlock
  rw [if_neg hnull]
  simp only [hstate, hsched]
  rfl

/-- `NX_ThreadBlock` of a thread that no core runs. -/
theorem blockOther (h : SchedInv cores σ) (ht : ¬σ.IsIdle cores t)
    (hstate : (σ.thread t).state ≠ .running) (c : ℕ) :
    ∃ r, threadBlock cores σ c t = .ok r ∧ SchedInv cores r.2 ∧ OtherKept σ r.2 t ∧
      ((σ.thread t).state = .blocked → (r.2.thread t).state = .blocked) := by
  unfold threadBlock
  split
  · exact ⟨_, rfl, h, .refl σ t, id⟩
  · simp only
    cases hcase : (σ.thread t).state with
    | init => exact ⟨_, rfl, h, .refl σ t, fun hno => nomatch hno⟩
    | blocked => exact ⟨_, rfl, h, .refl σ t, fun _ => hcase⟩
    | exit => exact ⟨_, rfl, h, .refl σ t, fun hno => nomatch hno⟩
    | running => exact absurd hcase hstate
    | ready =>
        obtain ⟨τ, hunready, hτ, hthread, hsame⟩ :=
          h.queues.threadUnreadyRun_blocked (Set.notMem_empty t) hcase
        simp only [hunready]
        exact ⟨_, rfl, ⟨hτ, h.idle_of_other ht hthread hsame.idleThread⟩,
          .update hsame.idleThread hthread, fun hno => nomatch hno⟩

/-! ## New threads and cores -/

theorem wellFormed_threadInit (cores : ℕ) (priority : BitVec 32)
    (hpriority : priority.toNat < threadMaxPriorityNr) :
    (threadInit cores priority).WellFormed cores :=
  ⟨Nat.le_refl cores, hpriority, fun h => ⟨h.1, BitVec.le_refl _⟩, fun _ => rfl⟩

theorem not_idle_of_init {n : ℕ} (h : IdleInv cores n σ) (hstate : (σ.thread t).state = .init)
    {d : ℕ} (hd : d < n) (hi : (σ.cpuArray d).idleThread = some t) : False := by
  obtain ⟨i, hi', -, -, -, histate⟩ := h.idle d hd
  obtain rfl := Option.some.inj (hi.symm.trans hi')
  rcases histate with histate | histate <;> rw [hstate] at histate <;> cases histate

theorem write_init {n : ℕ} (th : Thread) (hqueues : QueueInv cores ∅ ∅ σ)
    (hidle : IdleInv cores n σ) (hstate : (σ.thread t).state = .init) (hth : th.state = .init)
    (hwf : th.WellFormed cores) :
    QueueInv cores ∅ ∅ (σ.write t th) ∧ IdleInv cores n (σ.write t th) := by
  refine ⟨hqueues.rewrite hwf (hth.trans hstate.symm) (fun h => ?_) fun h => ?_,
    hidle.of_kept (fun _ => rfl) fun d hd i hi _ _ histate => ?_⟩
  · rw [hth] at h
    cases h
  · rw [hth] at h
    cases h
  · have hit : i ≠ t := fun heq => not_idle_of_init hidle hstate hd (heq ▸ hi)
    rw [write_thread_of_ne hit]
    exact ⟨rfl, rfl, rfl, histate⟩

theorem start_init {n : ℕ} (hqueues : QueueInv cores ∅ ∅ σ) (hidle : IdleInv cores n σ)
    (hnull : t ≠ 0) (hstate : (σ.thread t).state = .init) :
    ∃ τ, threadStart cores σ t = .ok (.eok, τ) ∧ QueueInv cores ∅ ∅ τ ∧ IdleInv cores n τ ∧
      τ.thread = Function.update σ.thread t ((σ.thread t).setState .ready) ∧
      (∀ c, (τ.cpuArray c).threadRunning = (σ.cpuArray c).threadRunning) ∧ SameIdle σ τ := by
  obtain ⟨τ, hrun, hτ, hthread, hsame⟩ := hqueues.start hnull (Set.notMem_empty t) hstate
  refine ⟨τ, hrun, hτ, hidle.of_kept hsame.idleThread fun d hd i hi _ _ histate => ?_, hthread,
    hsame.threadRunning, hsame.idleThread⟩
  have hit : i ≠ t := fun heq => not_idle_of_init hidle hstate hd (heq ▸ hi)
  rw [hthread, Function.update_of_ne hit]
  exact ⟨rfl, rfl, rfl, histate⟩

theorem not_schedulable_init {th : Thread} {p : Prop} (hstate : th.state = .init)
    (hs : th.Schedulable) : p := by
  rcases hs with hs | hs <;> rw [hstate] at hs <;> cases hs

theorem create (h : SchedInv cores σ) (hstate : (σ.thread t).state = .init)
    (priority : BitVec 32) : SchedInv cores (threadCreate cores σ t priority).2 ∧
      SameBlocked ∅ σ (threadCreate cores σ t priority).2 := by
  unfold threadCreate
  split
  · exact ⟨h, .refl ∅ σ⟩
  · next hpriority =>
      split
      · exact ⟨h, .refl ∅ σ⟩
      · obtain ⟨hqueues, hidle⟩ := write_init _ h.queues h.idle hstate rfl
          (wellFormed_threadInit cores priority (Nat.lt_of_not_le hpriority))
        exact ⟨⟨hqueues, hidle⟩, .update rfl (by rw [hstate]; decide)
          ThreadState.noConfusion (fun hno => nomatch hno)
          (fun _ => not_schedulable_init hstate) fun _ => rfl⟩

theorem wellFormed_bind {th : Thread} (h : th.WellFormed cores) (hc : c < cores) :
    Thread.WellFormed cores { th with coreAffinity := c, onCore := c } := by
  obtain ⟨-, hfixed, hsharing, hconstant⟩ := h
  exact ⟨Nat.le_of_lt hc, hfixed, hsharing, hconstant⟩

theorem setAffinity (h : SchedInv cores σ) (hstate : (σ.thread t).state = .init)
    (coreId : ℕ) : SchedInv cores (threadSetAffinity cores σ t coreId).2 ∧
      SameBlocked ∅ σ (threadSetAffinity cores σ t coreId).2 := by
  unfold threadSetAffinity
  split
  · exact ⟨h, .refl ∅ σ⟩
  · next hargs =>
      obtain ⟨hqueues, hidle⟩ := write_init
        { σ.thread t with coreAffinity := coreId, onCore := coreId } h.queues h.idle hstate hstate
        (wellFormed_bind (h.queues.wellFormed t) (Nat.lt_of_not_le (not_or.mp hargs).2))
      have hnotBlocked : (σ.thread t).state ≠ .blocked := by
        rw [hstate]
        decide
      exact ⟨⟨hqueues, hidle⟩, 
        .update rfl hnotBlocked hnotBlocked id (fun _ => id) fun _ => rfl⟩

theorem start (h : SchedInv cores σ) (hstate : (σ.thread t).state = .init) :
    ∃ r, threadStart cores σ t = .ok r ∧ SchedInv cores r.2 ∧ SameBlocked ∅ σ r.2 := by
  by_cases hnull : t = 0
  · exact ⟨_, if_pos hnull, h, .refl ∅ σ⟩
  · obtain ⟨τ, hrun, hqueues, hidle, hthread, -, hsame⟩ := start_init h.queues h.idle hnull hstate
    exact ⟨_, hrun, ⟨hqueues, hidle⟩, .update hthread (by rw [hstate]; decide)
      ThreadState.noConfusion id (fun _ _ => .inl rfl) hsame⟩

theorem toFirst (h : SchedInv cores σ) (hc : c < cores)
    (hnone : (σ.cpuArray c).threadRunning = none) :
    ∃ τ, schedToFirstThread cores σ c = .ok τ ∧ SchedInv cores τ ∧ SameBlocked ∅ σ τ := by
  have hopen := h.queues.openCore hnone
  have hspare := h.idle.spareOn hopen hc (Set.mem_insert c ∅) fun i _ => Set.notMem_empty i
  obtain ⟨next, τ, hpick, herr, hinv, -, -, hswitched⟩ :=
    pick_switches hopen (Set.notMem_empty c) hc hspare
  refine ⟨_, ?_, ⟨hinv, h.idle.switched hswitched⟩, hswitched.sameBlocked⟩
  unfold schedToFirstThread
  rw [hpick, exec_ok_bind]
  simp only [herr, nxAssert_pos, exec_ok_bind]
  rfl

theorem enterCore (h : SchedInv cores σ) :
    SchedInv cores { σ with activedCoreCount := σ.activedCoreCount + 1 } :=
  ⟨h.queues.enterCore, h.idle.idle, h.idle.bound⟩

/-! ## One call -/

theorem quiet (h : SchedInv cores σ) {op : SchedOp} (hquiet : op.Quiet)
    (hallowed : op.Allowed cores σ) :
    ∃ τ, schedStep cores σ op = .ok τ ∧ SchedInv cores τ ∧
      SameBlocked {u | op.MayEnd cores σ u} σ τ := by
  have hmono : ∀ {τ}, SameBlocked ∅ σ τ → SameBlocked {u | op.MayEnd cores σ u} σ τ :=
    fun hsame => hsame.mono (Set.empty_subset _)
  cases op with
  | create t priority =>
      obtain ⟨hτ, hsame⟩ := h.create hallowed priority
      exact ⟨_, rfl, hτ, hmono hsame⟩
  | setAffinity t coreId =>
      obtain ⟨hτ, hsame⟩ := h.setAffinity hallowed coreId
      exact ⟨_, rfl, hτ, hmono hsame⟩
  | start t =>
      obtain ⟨r, hrun, hr, hsame⟩ := h.start hallowed
      exact ⟨r.2, by rw [schedStep, hrun]; rfl, hr, hmono hsame⟩
  | enterCore => exact ⟨_, rfl, h.enterCore, fun _ => Iff.rfl, fun _ => id, fun _ _ => id,
      fun _ => rfl⟩
  | toFirst coreId =>
      obtain ⟨τ, hrun, hτ, hsame⟩ := h.toFirst hallowed.1 hallowed.2
      exact ⟨τ, hrun, hτ, hmono hsame⟩
  | yield coreId =>
      obtain ⟨cur, hrun⟩ := hallowed
      obtain ⟨τ, hyield, hτ, hsame⟩ := h.yield hrun
      exact ⟨τ, hyield, hτ, hmono hsame⟩
  | reSched coreId =>
      obtain ⟨cur, hrun⟩ := hallowed
      obtain ⟨τ, hcheck, hτ, hsame⟩ := h.reSched hrun
      exact ⟨τ, hcheck, hτ, hsame.mono fun u hu => .inl hu⟩
  | irq coreId =>
      obtain ⟨cur, hrun⟩ := hallowed
      obtain ⟨τ, hirq, hτ, hsame⟩ := h.irq hrun
      exact ⟨τ, hirq, hτ, hsame.mono fun u hu => .inl hu⟩
  | exit coreId =>
      obtain ⟨cur, hrun, ht⟩ := hallowed
      obtain ⟨τ, hexit, hτ, hsame, -⟩ := h.exit hrun ht
      exact ⟨τ, hexit, hτ, hsame.mono (Set.singleton_subset_iff.mpr (.inr ⟨coreId, rfl, hrun⟩))⟩
  | block coreId t => cases hquiet
  | unblock t => cases hquiet
  | terminate t => cases hquiet

theorem step (h : SchedInv cores σ) {op : SchedOp} (hallowed : op.Allowed cores σ) :
    ∃ τ, schedStep cores σ op = .ok τ ∧ SchedInv cores τ := by
  by_cases hquiet : op.Quiet
  · obtain ⟨τ, hrun, hτ, -⟩ := h.quiet hquiet hallowed
    exact ⟨τ, hrun, hτ⟩
  · cases op with
    | block coreId t =>
        obtain ⟨ht, cur, hrun, rfl | hstate⟩ := hallowed
        · obtain ⟨τ, hblock, hτ, -⟩ := h.blockSelf ht hrun
          exact ⟨τ, by rw [schedStep, hblock]; rfl, hτ⟩
        · obtain ⟨r, hblock, hr, -⟩ := h.blockOther ht hstate coreId
          exact ⟨r.2, by rw [schedStep, hblock]; rfl, hr⟩
    | unblock t =>
        obtain ⟨r, hunblock, hr, -⟩ := h.unblock t
        exact ⟨r.2, by rw [schedStep, hunblock]; rfl, hr⟩
    | terminate t =>
        obtain ⟨r, hterminate, hr, -⟩ := h.terminate hallowed
        exact ⟨r.2, by rw [schedStep, hterminate]; rfl, hr⟩
    | _ => exact absurd trivial hquiet

end SchedInv

/-! ## Boot -/

theorem queueInv_zero (cores : ℕ) : QueueInv cores ∅ ∅ (schedZero cores) := by
  have hqueue : ∀ q, (schedZero cores).queue q = [] := by
    intro q
    cases q <;> rfl
  refine ⟨fun t q => ?_, fun q => ?_, fun core => ?_, fun t d => ?_, fun t => ?_,
    ⟨rfl, Set.notMem_empty 0⟩, fun t _ => ?_, List.nodup_nil, ?_, ?_⟩
  · rw [hqueue]
    exact iff_of_false List.not_mem_nil fun h => ThreadState.noConfusion h.2.1
  · rw [hqueue]
    exact List.nodup_nil
  · cases core with
    | none => rfl
    | some c =>
        rw [surplus_some, show ((schedZero cores).cpuArray c).readyCount = 0 from
          Finset.sum_const_zero]
        rfl
  · exact iff_of_false (fun h => nomatch h.2.2) fun h => ThreadState.noConfusion h.2.1
  · exact SchedInv.wellFormed_threadInit cores _ (by decide)
  · exact iff_of_false List.not_mem_nil fun h => h.1 rfl
  · intro t ht
    cases ht
  · show (0 : ℤ) < 1
    decide

theorem QueueInv.setIdle {held opened : Set ℕ} (h : QueueInv cores held opened σ) (c t : ℕ) :
    QueueInv cores held opened (smpSetIdle cores σ c t).2 := by
  unfold smpSetIdle
  split
  · exact h
  · have hcpu : ∀ d,
        ((σ.setCpu c { σ.cpuArray c with idleThread := some t }).cpuArray d).threadReadyList =
          (σ.cpuArray d).threadReadyList ∧
        ((σ.setCpu c { σ.cpuArray c with idleThread := some t }).cpuArray d).threadRunning =
          (σ.cpuArray d).threadRunning ∧
        ((σ.setCpu c { σ.cpuArray c with idleThread := some t }).cpuArray d).threadCount =
          (σ.cpuArray d).threadCount := by
      intro d
      by_cases hd : d = c
      · subst hd
        rw [setCpu_cpuArray_self]
        exact ⟨rfl, rfl, rfl⟩
      · rw [setCpu_cpuArray_of_ne hd]
        exact ⟨rfl, rfl, rfl⟩
    have hqueue : ∀ q, (σ.setCpu c { σ.cpuArray c with idleThread := some t }).queue q =
        σ.queue q := by
      intro q
      cases q with
      | ready d prio => exact congrFun (hcpu d).1 prio
      | pending => rfl
    refine ⟨fun u q => ?_, fun q => ?_, fun core => ?_, fun u d => ?_, h.wellFormed, h.null,
      h.listed, h.globalNodup, h.exited, h.active⟩
    · rw [hqueue]
      exact h.queued u q
    · rw [hqueue]
      exact h.nodup q
    · cases core with
      | none => exact h.counted none
      | some d =>
          rw [surplus_some]
          unfold Cpu.readyCount
          rw [(hcpu d).1, (hcpu d).2.2]
          exact h.counted (some d)
    · rw [(hcpu d).2.1]
      exact h.running u d

theorem threadInitIdleCore_inv {n : ℕ} (hqueues : QueueInv cores ∅ ∅ σ)
    (hidle : IdleInv cores n σ) (hn : n < cores) (hnull : t ≠ 0)
    (hstate : (σ.thread t).state = .init) :
    ∃ τ, threadInitIdleCore cores σ n t = .ok τ ∧ QueueInv cores ∅ ∅ τ ∧
      IdleInv cores (n + 1) τ ∧ (∀ u, u ≠ t → τ.thread u = σ.thread u) ∧
      (τ.thread t).isTerminated = false ∧
      ∀ c, (τ.cpuArray c).threadRunning = (σ.cpuArray c).threadRunning := by
  set created := σ.write t (threadInit cores threadPriorityIdle) with hcreated
  have hcreate : threadCreate cores σ t threadPriorityIdle = (t, created) := by
    unfold threadCreate
    rw [if_neg (by decide), if_neg hnull]
  obtain ⟨hqueues, hidle⟩ := SchedInv.write_init _ hqueues hidle hstate rfl
    (SchedInv.wellFormed_threadInit cores threadPriorityIdle (by decide))
  rw [← hcreated] at hqueues hidle
  have hself : created.thread t = threadInit cores threadPriorityIdle := write_thread_self ..
  set th : Thread := { created.thread t with coreAffinity := n, onCore := n } with hth
  have haffinity : threadSetAffinity cores created t n = (.eok, created.write t th) := by
    unfold threadSetAffinity
    rw [if_neg (not_or.mpr ⟨hnull, Nat.not_le_of_lt hn⟩)]
  obtain ⟨hqueues, hidle⟩ := SchedInv.write_init th hqueues hidle (by rw [hself]; rfl)
    (by rw [hth, hself]; rfl) (SchedInv.wellFormed_bind (hqueues.wellFormed t) hn)
  have hbound : (created.write t th).thread t = th := write_thread_self ..
  obtain ⟨τ, hstart, hqueues, hidle, hthread, hrunning, -⟩ :=
    SchedInv.start_init hqueues hidle hnull (by rw [hbound, hth, hself]; rfl)
  have hready : τ.thread t = th.setState .ready := by
    rw [hthread, Function.update_self, hbound]
  have hkept : (smpSetIdle cores τ n t).2.thread = τ.thread := by
    unfold smpSetIdle
    split <;> rfl
  refine ⟨(smpSetIdle cores τ n t).2, ?_, hqueues.setIdle n t, ?_, ?_, ?_, ?_⟩
  · unfold threadInitIdleCore
    rw [hcreate]
    simp only [haffinity, hstart, nxAssert_pos hnull, nxAssert_pos, exec_ok_bind]
    rfl
  · unfold smpSetIdle
    rw [if_neg (not_or.mpr ⟨Nat.not_le_of_lt hn, hnull⟩)]
    refine ⟨fun c hc => ?_, hn⟩
    by_cases hcn : c = n
    · subst hcn
      refine ⟨t, by simp only [setCpu_cpuArray_self], ?_⟩
      show (τ.thread t).onCore = c ∧ (τ.thread t).coreAffinity = c ∧
        (τ.thread t).isTerminated = false ∧
        ((τ.thread t).state = .ready ∨ (τ.thread t).state = .running)
      rw [hready, hth, hself]
      exact ⟨rfl, rfl, rfl, .inl rfl⟩
    · obtain ⟨i, hi, hfields⟩ :=
        hidle.idle c (Nat.lt_of_le_of_ne (Nat.le_of_lt_succ hc) hcn)
      refine ⟨i, ?_, hfields⟩
      rw [setCpu_cpuArray_of_ne hcn]
      exact hi
  · intro u hu
    rw [hkept, hthread, Function.update_of_ne hu, write_thread_of_ne hu, hcreated,
      write_thread_of_ne hu]
  · rw [hkept, hready, hth, hself]
    rfl
  · intro c
    refine Eq.trans ?_ (hrunning c)
    unfold smpSetIdle
    split
    · rfl
    · by_cases hcn : c = n
      · subst hcn
        simp only [setCpu_cpuArray_self]
      · simp only [setCpu_cpuArray_of_ne hcn]

/-- `NX_ThreadInitIdle` sets up the idle threads, when `NX_MemAlloc` returns different
addresses for them. -/
theorem threadInitIdle_inv (idle : ℕ → ℕ) (hnull : ∀ c < cores, idle c ≠ 0)
    (hdiffer : ∀ c < cores, ∀ d < cores, idle c = idle d → c = d) {n : ℕ} (hn : n ≤ cores) :
    ∃ σ, threadInitIdle cores idle n = .ok σ ∧ QueueInv cores ∅ ∅ σ ∧ IdleInv cores n σ ∧
      (∀ t, (∀ c < n, idle c ≠ t) → (σ.thread t).state = .init) ∧
      (∀ t, (σ.thread t).isTerminated = false) ∧
      ∀ c, (σ.cpuArray c).threadRunning = none := by
  induction n with
  | zero =>
      exact ⟨_, rfl, queueInv_zero cores, ⟨fun c hc => absurd hc (Nat.not_lt_zero c), hn⟩,
        fun _ _ => rfl, fun _ => rfl, fun _ => rfl⟩
  | succ n ih =>
      obtain ⟨σ, hrun, hqueues, hidle, hinit, hterminated, hrunning⟩ := ih (Nat.le_of_succ_le hn)
      have hstate : (σ.thread (idle n)).state = .init := by
        refine hinit _ fun c hc heq => ?_
        exact Nat.ne_of_lt hc (hdiffer c (Nat.lt_of_lt_of_le hc (Nat.le_of_succ_le hn)) n hn heq)
      obtain ⟨τ, hcore, hqueues, hidle, hother, hself, hsame⟩ :=
        threadInitIdleCore_inv hqueues hidle hn (hnull n hn) hstate
      refine ⟨τ, ?_, hqueues, hidle, fun t ht => ?_, fun t => ?_,
        fun c => (hsame c).trans (hrunning c)⟩
      · unfold threadInitIdle
        rw [hrun, exec_ok_bind, hcore]
      · rw [hother t fun heq => ht n (Nat.lt_succ_self n) heq.symm]
        exact hinit t fun c hc => ht c (Nat.lt_succ_of_lt hc)
      · by_cases ht : t = idle n
        · rw [ht, hself]
        · rw [hother t ht, hterminated t]

theorem SchedInv.of_reachable {start : Scheduler} (hstart : SchedInv cores start)
    (hreach : Reachable (SchedMove cores) start σ) : SchedInv cores σ := by
  refine hreach.invariant hstart fun hinv hmove => ?_
  obtain ⟨τ, hrun, hτ⟩ := hinv.step hmove.1
  rw [hmove.2] at hrun
  cases hrun
  exact hτ

/-! ## Every run -/

/-- In every state that the scheduler reaches, each thread that is ready is on the one
queue that it belongs to and no other thread is on a queue, the counts are the lengths of
the queues, the priorities are in their ranges, the idle thread of each core runs on it or
waits on it, and no call faults. -/
theorem schedReachable_queues (cores : ℕ) (idle : ℕ → ℕ) (hnull : ∀ c < cores, idle c ≠ 0)
    (hdiffer : ∀ c < cores, ∀ d < cores, idle c = idle d → c = d) :
    ∃ start, threadInitIdle cores idle cores = .ok start ∧
      ∀ σ, Reachable (SchedMove cores) start σ →
        (∀ t, (σ.thread t).state = .ready →
          (σ.thread t).onCore < cores ∧ t ∈ (σ.cpuArray (σ.thread t).onCore).threadReadyList
              (σ.thread t).priority.toNat ∨
            (σ.thread t).onCore = cores ∧ t ∈ σ.manager.pendingList) ∧
        (∀ t q q', t ∈ σ.queue q → t ∈ σ.queue q' → q = q') ∧
        (∀ q, (σ.queue q).Nodup) ∧
        (∀ t q, t ∈ σ.queue q → (σ.thread t).state = .ready) ∧
        (∀ c, (σ.cpuArray c).threadCount = (σ.cpuArray c).readyCount) ∧
        σ.manager.pendingThreadCount = σ.manager.pendingList.length ∧
        (∀ t, (σ.thread t).TimeSharing → threadPriorityLow ≤ (σ.thread t).priority ∧
          (σ.thread t).priority ≤ (σ.thread t).fixedPriority) ∧
        (∀ c < cores, ∃ i, (σ.cpuArray c).idleThread = some i ∧
          ((σ.cpuArray c).threadRunning = some i ∨
            i ∈ (σ.cpuArray c).threadReadyList (σ.thread i).priority.toNat)) ∧
        ∀ op : SchedOp, op.Allowed cores σ → ∃ τ, schedStep cores σ op = .ok τ := by
  obtain ⟨start, hboot, hqueues, hidle, -⟩ := threadInitIdle_inv idle hnull hdiffer (Nat.le_refl cores)
  refine ⟨start, hboot, fun σ hreach => ?_⟩
  obtain ⟨hqueues, hidle⟩ := SchedInv.of_reachable ⟨hqueues, hidle⟩ hreach
  have hready : ∀ {t}, (σ.thread t).state = .ready → (σ.thread t).onCore < cores →
      t ∈ (σ.cpuArray (σ.thread t).onCore).threadReadyList (σ.thread t).priority.toNat :=
    fun hstate hcore => (hqueues.queued _ (.ready _ _)).mpr
      ⟨Set.notMem_empty _, hstate, home_of_lt hcore⟩
  refine ⟨fun t hstate => ?_, fun t q q' hq hq' => hqueues.only hq' hq, hqueues.nodup,
    fun t q hq => ((hqueues.queued t q).mp hq).2.1, fun c => ?_, ?_,
    fun t => (hqueues.wellFormed t).sharing, fun c hc => ?_, fun op hallowed => ?_⟩
  · by_cases hcore : (σ.thread t).onCore < cores
    · exact .inl ⟨hcore, hready hstate hcore⟩
    · refine .inr ⟨Nat.le_antisymm (hqueues.wellFormed t).onCore (Nat.le_of_not_lt hcore), ?_⟩
      exact (hqueues.queued t .pending).mpr
        ⟨Set.notMem_empty t, hstate, home_of_not_lt hcore⟩
  · exact sub_eq_zero.mp (hqueues.counted (some c))
  · exact sub_eq_zero.mp (hqueues.counted none)
  · obtain ⟨i, hi, hcore, -, -, hstate | hstate⟩ := hidle.idle c hc
    · refine ⟨i, hi, .inr ?_⟩
      rw [← hcore] at hc ⊢
      exact hready hstate hc
    · exact ⟨i, hi, .inl ((hqueues.running i c).mpr ⟨Set.notMem_empty i, hstate, hcore⟩).2.2⟩
  · obtain ⟨τ, hrun, -⟩ := SchedInv.step ⟨hqueues, hidle⟩ hallowed
    exact ⟨τ, hrun⟩

/-! ## Runs that can be computed -/

instance (σ : Scheduler) (c : ℕ) : Decidable (∃ cur, σ.Runs cores c cur) :=
  decidable_of_iff (c < cores ∧ (σ.cpuArray c).threadRunning.isSome = true) (by
    rw [Option.isSome_iff_exists]
    exact exists_and_left.symm)

instance (σ : Scheduler) (c : ℕ) (P : ℕ → Prop) [DecidablePred P] :
    Decidable (∃ cur, σ.Runs cores c cur ∧ P cur) :=
  decidable_of_iff (c < cores ∧ ∃ cur ∈ (σ.cpuArray c).threadRunning, P cur) (by
    rw [← exists_and_left]
    exact exists_congr fun cur => and_assoc.symm)

instance (cores : ℕ) (σ : Scheduler) (op : SchedOp) : Decidable (op.Allowed cores σ) :=
  match op with
  | .create t _ => inferInstanceAs (Decidable ((σ.thread t).state = .init))
  | .setAffinity t _ => inferInstanceAs (Decidable ((σ.thread t).state = .init))
  | .start t => inferInstanceAs (Decidable ((σ.thread t).state = .init))
  | .enterCore => .isTrue trivial
  | .toFirst coreId => inferInstanceAs (Decidable
      (coreId < cores ∧ (σ.cpuArray coreId).threadRunning = none))
  | .yield coreId => inferInstanceAs (Decidable (∃ cur, σ.Runs cores coreId cur))
  | .reSched coreId => inferInstanceAs (Decidable (∃ cur, σ.Runs cores coreId cur))
  | .irq coreId => inferInstanceAs (Decidable (∃ cur, σ.Runs cores coreId cur))
  | .block coreId t => inferInstanceAs (Decidable (¬σ.IsIdle cores t ∧
      ∃ cur, σ.Runs cores coreId cur ∧ (t = cur ∨ (σ.thread t).state ≠ .running)))
  | .unblock _ => .isTrue trivial
  | .terminate t => inferInstanceAs (Decidable ¬σ.IsIdle cores t)
  | .exit coreId => inferInstanceAs (Decidable
      (∃ cur, σ.Runs cores coreId cur ∧ ¬σ.IsIdle cores cur))

def allowedSchedStep (cores : ℕ) (σ : Scheduler) (op : SchedOp) : Option Scheduler :=
  if op.Allowed cores σ then (schedStep cores σ op).toOption else none

theorem schedMove_of_allowedSchedStep {op : SchedOp}
    (h : allowedSchedStep cores σ op = some τ) : SchedMove cores σ op τ := by
  unfold allowedSchedStep at h
  split at h
  · next hallowed => exact ⟨hallowed, toOption_eq_some h⟩
  · cases h

/-- Perform calls after the boot, where the idle threads lie at `1`, `2`, and so on. -/
def performBooted (cores : ℕ) (ops : List SchedOp) : Option Scheduler :=
  (threadInitIdle cores (· + 1) cores).toOption.bind fun σ =>
    perform (allowedSchedStep cores) σ ops

theorem reachable_of_performBooted {ops : List SchedOp}
    (h : performBooted cores ops = some σ) :
    ∃ start, threadInitIdle cores (· + 1) cores = .ok start ∧
      Reachable (SchedMove cores) start σ := by
  obtain ⟨start, hboot, hrun⟩ := Option.bind_eq_some_iff.mp h
  exact ⟨start, toOption_eq_some hboot, .of_perform schedMove_of_allowedSchedStep hrun⟩

def startedRun : List SchedOp :=
  [.toFirst 0, .create 5 3, .start 5, .yield 0, .enterCore, .toFirst 1]

theorem schedReachable_queues_startedRun :
    ∃ start σ, threadInitIdle 2 (· + 1) 2 = .ok start ∧ Reachable (SchedMove 2) start σ ∧
      (σ.cpuArray 0).threadRunning = some 5 ∧
      (∃ i, (σ.cpuArray 0).idleThread = some i ∧ ((σ.cpuArray 0).threadRunning = some i ∨
        i ∈ (σ.cpuArray 0).threadReadyList (σ.thread i).priority.toNat)) ∧
      ∃ τ, schedStep 2 σ (.block 0 5) = .ok τ := by
  obtain ⟨start, hboot, hruns⟩ := schedReachable_queues 2 (· + 1)
    (fun _ _ => Nat.succ_ne_zero _) fun _ _ _ _ => Nat.succ.inj
  have heval : (performBooted 2 startedRun).map (fun σ =>
      decide ((σ.cpuArray 0).threadRunning = some 5 ∧ (SchedOp.block 0 5).Allowed 2 σ)) =
      some true := by
    decide +kernel
  obtain ⟨σ, hrun, hσ⟩ := Option.map_eq_some_iff.mp heval
  obtain ⟨hfive, hallowed⟩ := of_decide_eq_true hσ
  obtain ⟨start', hboot', hreach⟩ := reachable_of_performBooted hrun
  obtain rfl := Except.ok.inj (hboot.symm.trans hboot')
  obtain ⟨-, -, -, -, -, -, -, hidle, hsteps⟩ := hruns σ hreach
  exact ⟨start, σ, hboot, hreach, hfive, hidle 0 (by decide), hsteps _ hallowed⟩

end Nxos.Sched
