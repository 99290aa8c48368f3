import Nxos.Sched.Invariant

/-!
# What the scheduler functions do

One specification for each locked function: it does not fault, which threads are held and
which cores are open afterwards, and what it left alone.  The schedule puts them together.
-/

namespace Nxos.Sched

variable {cores : ℕ} {held opened : Set ℕ} {σ τ : Scheduler} {t c : ℕ}

/-! ## Queues -/

theorem home_of_lt {th : Thread} (h : th.onCore < cores) :
    th.home cores = .ready th.onCore th.priority.toNat :=
  if_pos h

theorem home_of_not_lt {th : Thread} (h : ¬th.onCore < cores) : th.home cores = .pending :=
  if_neg h

theorem threadReadyRun_held (h : QueueInv cores (insert t held) opened σ) (ht : t ∉ held)
    (hlisted : t ∈ σ.manager.globalList) (flags : SchedFlag) :
    ∃ τ, threadReadyRun cores σ t flags = .ok τ ∧ QueueInv cores held opened τ ∧
      τ.thread = Function.update σ.thread t ((σ.thread t).setState .ready) ∧ SameCores σ τ := by
  set ready := (σ.thread t).setState .ready with hready
  have hwf : ready.WellFormed cores := by
    obtain ⟨hcore, hfixed, hsharing, hconstant⟩ := h.wellFormed t
    exact ⟨hcore, hfixed, hsharing, hconstant⟩
  have hwrite := h.write (Set.mem_insert ..) hwf
  have hself : (σ.write t ready).thread t = ready := write_thread_self ..
  have hgiven : ∀ {τ}, Enqueued (σ.write t ready) τ t (ready.home cores) →
      QueueInv cores held opened τ ∧ τ.thread = Function.update σ.thread t ready ∧
        SameCores σ τ := by
    intro τ henqueued
    refine ⟨hwrite.enqueue ht (by rw [hself]; rfl) hlisted ?_, henqueued.thread,
      (sameCores_write σ t ready).trans henqueued.same⟩
    rw [hself]
    exact henqueued
  unfold threadReadyRun
  simp only [← hready, hself]
  by_cases hcore : ready.onCore < cores
  · rw [if_pos hcore]
    obtain ⟨τ, hrun, henqueued⟩ := enqueued_ready (σ := σ.write t ready) (t := t) flags hcore
      (by rw [hself]; exact hwf.priority)
    rw [hself, ← home_of_lt hcore] at henqueued
    exact ⟨τ, hrun, hgiven henqueued⟩
  · rw [if_neg hcore]
    refine ⟨_, rfl, hgiven ?_⟩
    rw [home_of_not_lt hcore]
    exact enqueued_pending ..

namespace QueueInv

theorem listDel_eq {q : Queue} (h : QueueInv cores held opened σ) (hmem : t ∈ σ.queue q) :
    listDel cores σ t = .ok (σ.unlink t) := by
  refine if_pos ?_
  cases q with
  | pending => exact .inr hmem
  | ready c prio =>
      obtain ⟨-, -, hhome⟩ := (h.queued t _).mp hmem
      have hwf := h.wellFormed t
      by_cases hcore : (σ.thread t).onCore < cores
      · rw [home_of_lt hcore] at hhome
        obtain ⟨rfl, rfl⟩ := Queue.ready.inj hhome
        exact .inl ⟨_, hcore, _, hwf.priority, hmem⟩
      · rw [home_of_not_lt hcore] at hhome
        cases hhome

theorem only {q q' : Queue} (h : QueueInv cores held opened σ) (hmem : t ∈ σ.queue q)
    (hmem' : t ∈ σ.queue q') : q' = q :=
  ((h.queued t q').mp hmem').2.2.symm.trans ((h.queued t q).mp hmem).2.2

theorem of_mem_ready {prio : ℕ} (h : QueueInv cores held opened σ)
    (hmem : t ∈ σ.queue (.ready c prio)) : t ∉ held ∧ (σ.thread t).state = .ready ∧
      (σ.thread t).onCore = c ∧ c < cores ∧ (σ.thread t).priority.toNat = prio := by
  obtain ⟨hheld, hstate, hhome⟩ := (h.queued t _).mp hmem
  by_cases hcore : (σ.thread t).onCore < cores
  · rw [home_of_lt hcore] at hhome
    obtain ⟨rfl, rfl⟩ := Queue.ready.inj hhome
    exact ⟨hheld, hstate, rfl, hcore, rfl⟩
  · rw [home_of_not_lt hcore] at hhome
    cases hhome

theorem of_mem_pending (h : QueueInv cores held opened σ) (hmem : t ∈ σ.queue .pending) :
    t ∉ held ∧ (σ.thread t).state = .ready ∧ cores ≤ (σ.thread t).onCore := by
  obtain ⟨hheld, hstate, hhome⟩ := (h.queued t _).mp hmem
  by_cases hcore : (σ.thread t).onCore < cores
  · rw [home_of_lt hcore] at hhome
    cases hhome
  · exact ⟨hheld, hstate, Nat.le_of_not_lt hcore⟩

theorem takeReady {prio : ℕ} (h : QueueInv cores held opened σ)
    (hmem : t ∈ σ.queue (.ready c prio)) :
    QueueInv cores (insert t held) opened ((σ.unlink t).decThreadCount c) ∧
      Dequeued σ ((σ.unlink t).decThreadCount c) t := by
  obtain ⟨-, -, -, -, rfl⟩ := h.of_mem_ready hmem
  have hdequeued := dequeued_ready (h.wellFormed t).priority hmem fun q => h.only hmem
  exact ⟨h.dequeue hmem hdequeued, hdequeued⟩

theorem takePending (h : QueueInv cores held opened σ) (hmem : t ∈ σ.queue .pending) :
    QueueInv cores (insert t held) opened (σ.unlink t).decPendingThreadCount ∧
      Dequeued σ (σ.unlink t).decPendingThreadCount t := by
  have hdequeued := dequeued_pending hmem fun q => h.only hmem
  exact ⟨h.dequeue hmem hdequeued, hdequeued⟩

/-- `NX_ThreadUnreadyRun` of a ready thread whose state was written before. -/
theorem threadUnreadyRun_blocked (h : QueueInv cores held opened σ) (ht : t ∉ held)
    (hstate : (σ.thread t).state = .ready) :
    ∃ τ, threadUnreadyRun cores (σ.write t ((σ.thread t).setState .blocked)) t = .ok τ ∧
      QueueInv cores held opened τ ∧
      τ.thread = Function.update σ.thread t ((σ.thread t).setState .blocked) ∧
      SameCores σ τ := by
  set blocked := (σ.thread t).setState .blocked with hblocked
  have hself : (σ.write t blocked).thread t = blocked := write_thread_self ..
  have hwf : blocked.WellFormed cores := by
    obtain ⟨hcore, hfixed, hsharing, hconstant⟩ := h.wellFormed t
    exact ⟨hcore, hfixed, hsharing, hconstant⟩
  have hmem : t ∈ σ.queue ((σ.thread t).home cores) := (h.queued t _).mpr ⟨ht, hstate, rfl⟩
  have hlisted : t ∈ σ.manager.globalList :=
    (h.listed t ht).mpr (by rw [hstate]; exact ⟨by decide, by decide⟩)
  -- the state is written before the thread is taken off; in the end both were done
  have hlinked : listDel cores (σ.write t blocked) t = .ok ((σ.write t blocked).unlink t) := by
    have hok := h.listDel_eq hmem
    unfold listDel at hok ⊢
    split at hok
    · next hlinked => exact if_pos hlinked
    · cases hok
  have hgiven : ∀ {τ}, QueueInv cores (insert t held) opened τ → Dequeued σ τ t →
      QueueInv cores held opened (τ.write t blocked) ∧
        (τ.write t blocked).thread = Function.update σ.thread t blocked ∧
        SameCores σ (τ.write t blocked) := by
    intro τ hτ hdequeued
    refine ⟨?_, by rw [← hdequeued.thread]; rfl,
      hdequeued.same.trans (sameCores_write τ t blocked)⟩
    refine (hτ.write (Set.mem_insert ..) hwf).drop ht (by rw [write_thread_self]; rfl) ?_
    exact hdequeued.same.globalList ▸ hlisted
  have hready : blocked.state ≠ .ready := fun h => ThreadState.noConfusion h
  unfold threadUnreadyRun
  rw [hself, nxAssert_pos hready, exec_ok_bind]
  by_cases hcore : (σ.thread t).onCore < cores
  · rw [if_pos (show blocked.onCore < cores from hcore)]
    rw [home_of_lt hcore] at hmem
    obtain ⟨hτ, hdequeued⟩ := h.takeReady hmem
    refine ⟨_, ?_, hgiven hτ hdequeued⟩
    unfold smpDequeueThread cpuGetIndex
    rw [hself, nxAssert_pos hwf.priority,
      nxAssert_pos (show blocked.onCore < cores from hcore), hlinked]
    rfl
  · rw [if_neg (show ¬blocked.onCore < cores from hcore)]
    rw [home_of_not_lt hcore] at hmem
    obtain ⟨hτ, hdequeued⟩ := h.takePending hmem
    refine ⟨_, ?_, hgiven hτ hdequeued⟩
    unfold threadDelFromGlobalPendingList
    rw [hlinked]
    rfl

end QueueInv

/-! ## Taking a thread from a queue -/

theorem findDown_eq_some {find : ℕ → Option ℕ} {n : ℕ} (h : findDown find n = some t) :
    ∃ prio < n, find prio = some t ∧ ∀ prio' < n, prio < prio' → find prio' = none := by
  induction n with
  | zero => cases h
  | succ n ih =>
      unfold findDown at h
      cases hfind : find n with
      | some u =>
          rw [hfind] at h
          refine ⟨n, Nat.lt_succ_self n, hfind.trans h, fun prio' hlt hgt => ?_⟩
          exact absurd hlt (Nat.not_lt_of_le (Nat.succ_le_of_lt hgt))
      | none =>
          rw [hfind] at h
          obtain ⟨prio, hprio, hfound, hrest⟩ := ih h
          refine ⟨prio, Nat.lt_succ_of_lt hprio, hfound, fun prio' hlt hgt => ?_⟩
          rcases Nat.lt_succ_iff_lt_or_eq.mp hlt with hlt | rfl
          · exact hrest prio' hlt hgt
          · exact hfind

theorem findDown_eq_none {find : ℕ → Option ℕ} {n prio : ℕ} (h : findDown find n = none)
    (hprio : prio < n) : find prio = none := by
  induction n with
  | zero => cases hprio
  | succ n ih =>
      unfold findDown at h
      cases hfind : find n with
      | some u =>
          rw [hfind] at h
          cases h
      | none =>
          rw [hfind] at h
          rcases Nat.lt_succ_iff_lt_or_eq.mp hprio with hlt | rfl
          · exact ih h hlt
          · exact hfind

/-- What a function returns that takes a thread with this property, if it finds one. -/
inductive TakeOutcome (cores : ℕ) (held opened : Set ℕ) (σ : Scheduler) (P : Thread → Prop) :
    Option ℕ × Scheduler → Prop
  | none : TakeOutcome cores held opened σ P (none, σ)
  | some (t : ℕ) (τ : Scheduler) (ht : t ∉ held) (hstate : (σ.thread t).state = .ready)
      (hP : P (σ.thread t)) (hinv : QueueInv cores (insert t held) opened τ)
      (hthread : τ.thread = σ.thread) (hsame : SameCores σ τ) :
      TakeOutcome cores held opened σ P (some t, τ)

theorem threadPickPendingList_takes (h : QueueInv cores held opened σ) :
    ∃ r, threadPickPendingList cores σ = .ok r ∧
      TakeOutcome cores held opened σ (fun th => cores ≤ th.onCore) r := by
  unfold threadPickPendingList
  cases hhead : σ.manager.pendingList.head? with
  | none => exact ⟨_, rfl, .none⟩
  | some t =>
      have hmem : t ∈ σ.queue .pending := List.mem_of_mem_head? hhead
      obtain ⟨hheld, hstate, hcore⟩ := h.of_mem_pending hmem
      obtain ⟨hτ, hdequeued⟩ := h.takePending hmem
      refine ⟨_, ?_, .some t _ hheld hstate hcore hτ hdequeued.thread hdequeued.same⟩
      simp only [h.listDel_eq hmem, exec_ok_bind]
      rfl

theorem smpDeququeNoAffinityThread_takes (h : QueueInv cores held opened σ) (hc : c < cores) :
    ∃ r, smpDeququeNoAffinityThread cores σ c = .ok r ∧
      TakeOutcome cores held opened σ
        (fun th => th.onCore = c ∧ cores ≤ th.coreAffinity) r := by
  unfold smpDeququeNoAffinityThread cpuGetIndex
  rw [nxAssert_pos hc]
  simp only [exec_ok_bind, exec_pure]
  cases hfind : findDown (fun prio => ((σ.cpuArray c).threadReadyList prio).find? fun t =>
      decide (cores ≤ (σ.thread t).coreAffinity)) threadMaxPriorityNr with
  | none => exact ⟨_, rfl, .none⟩
  | some t =>
      obtain ⟨prio, -, hfound, -⟩ := findDown_eq_some hfind
      have hmem : t ∈ σ.queue (.ready c prio) := List.mem_of_find?_eq_some hfound
      obtain ⟨hheld, hstate, hcore, -⟩ := h.of_mem_ready hmem
      obtain ⟨hτ, hdequeued⟩ := h.takeReady hmem
      have hfree := List.find?_some (p := fun t => decide (cores ≤ (σ.thread t).coreAffinity)) hfound
      refine ⟨_, ?_, .some t _ hheld hstate ⟨hcore, of_decide_eq_true hfree⟩ hτ
        hdequeued.thread hdequeued.same⟩
      simp only [h.listDel_eq hmem, exec_ok_bind]

/-! ## Balance -/

/-- The balance gives a pending thread to the core, or a thread of the core that is bound to
none back to the pending list. -/
def Balanced (cores : ℕ) (σ τ : Scheduler) (c : ℕ) : Prop :=
  ∀ u, τ.thread u = σ.thread u ∨ (σ.thread u).state = .ready ∧
    (cores ≤ (σ.thread u).onCore ∧ τ.thread u = (σ.thread u).setOnCore c ∨
      cores ≤ (σ.thread u).coreAffinity ∧ τ.thread u = (σ.thread u).setOnCore cores)

theorem wellFormed_setOnCore {th : Thread} (h : th.WellFormed cores) (hc : c ≤ cores) :
    (th.setOnCore c).WellFormed cores := by
  obtain ⟨-, hfixed, hsharing, hconstant⟩ := h
  exact ⟨hc, hfixed, hsharing, hconstant⟩

theorem QueueInv.pend (h : QueueInv cores (insert t held) opened σ) (ht : t ∉ held)
    (hstate : (σ.thread t).state = .ready) (hlisted : t ∈ σ.manager.globalList) :
    QueueInv cores held opened
        (threadAddToGlobalPendingList (σ.write t ((σ.thread t).setOnCore cores)) t .head) ∧
      Enqueued (σ.write t ((σ.thread t).setOnCore cores))
        (threadAddToGlobalPendingList (σ.write t ((σ.thread t).setOnCore cores)) t .head) t
        .pending := by
  set pushed := (σ.thread t).setOnCore cores with hpushed
  have hwf := wellFormed_setOnCore (h.wellFormed t) (Nat.le_refl cores)
  have hself : (σ.write t pushed).thread t = pushed := write_thread_self ..
  have hhome : pushed.home cores = .pending := home_of_not_lt (Nat.lt_irrefl cores)
  have henqueued := enqueued_pending (σ.write t pushed) t .head
  refine ⟨(h.write (Set.mem_insert ..) hwf).enqueue ht ?_ hlisted ?_, henqueued⟩
  · rw [hself]
    exact hstate
  · rw [hself, hhome]
    exact henqueued

theorem pullThread_balances (h : QueueInv cores held opened σ) (hc : c < cores) :
    ∃ τ, pullThread cores σ c = .ok τ ∧ QueueInv cores held opened τ ∧ SameCores σ τ ∧
      Balanced cores σ τ c := by
  obtain ⟨r, hrun, htakes⟩ := threadPickPendingList_takes h
  unfold pullThread
  rw [hrun, exec_ok_bind]
  cases htakes with
  | none => exact ⟨σ, rfl, h, .refl σ, fun u => .inl rfl⟩
  | some t τ ht hstate hcore hinv hthread hsame =>
      have hwf := wellFormed_setOnCore (hinv.wellFormed t) (Nat.le_of_lt hc)
      have hlisted : t ∈ σ.manager.globalList :=
        (h.listed t ht).mpr (by rw [hstate]; exact ⟨by decide, by decide⟩)
      obtain ⟨ρ, hready, hρ, hρthread, hρsame⟩ := threadReadyRun_held
        (hinv.write (Set.mem_insert ..) hwf) ht (hsame.globalList ▸ hlisted) .head
      refine ⟨ρ, hready, hρ, (hsame.trans (sameCores_write ..)).trans hρsame, fun u => ?_⟩
      by_cases hut : u = t
      · subst hut
        refine .inr ⟨hstate, .inl ⟨hcore, ?_⟩⟩
        rw [hρthread, Function.update_self, write_thread_self, hthread]
        simp only [Thread.setState, Thread.setOnCore, hstate]
      · left
        rw [hρthread, Function.update_of_ne hut, write_thread_of_ne hut, hthread]

theorem pushThread_balances (h : QueueInv cores held opened σ) (hc : c < cores) :
    ∃ τ, pushThread cores σ c = .ok τ ∧ QueueInv cores held opened τ ∧ SameCores σ τ ∧
      Balanced cores σ τ c := by
  obtain ⟨r, hrun, htakes⟩ := smpDeququeNoAffinityThread_takes h hc
  unfold pushThread
  rw [hrun, exec_ok_bind]
  cases htakes with
  | none => exact ⟨σ, rfl, h, .refl σ, fun u => .inl rfl⟩
  | some t τ ht hstate hfree hinv hthread hsame =>
      have hlisted : t ∈ σ.manager.globalList :=
        (h.listed t ht).mpr (by rw [hstate]; exact ⟨by decide, by decide⟩)
      obtain ⟨hρ, henqueued⟩ := hinv.pend ht (hthread ▸ hstate) (hsame.globalList ▸ hlisted)
      refine ⟨_, rfl, hρ, (hsame.trans (sameCores_write ..)).trans henqueued.same,
        fun u => ?_⟩
      rw [henqueued.thread]
      by_cases hut : u = t
      · subst hut
        refine .inr ⟨hstate, .inr ⟨hfree.2, ?_⟩⟩
        rw [write_thread_self, hthread]
      · left
        rw [write_thread_of_ne hut, hthread]

theorem pullOrPushThread_balances (h : QueueInv cores held opened σ) (hc : c < cores) :
    ∃ τ, pullOrPushThread cores σ c = .ok τ ∧ QueueInv cores held opened τ ∧ SameCores σ τ ∧
      Balanced cores σ τ c := by
  unfold pullOrPushThread cpuGetIndex
  rw [nxAssert_pos hc]
  simp only [exec_ok_bind, exec_pure]
  rw [if_neg (Int.ne_of_gt h.active)]
  split
  · exact pullThread_balances h hc
  · split
    · exact pushThread_balances h hc
    · exact ⟨σ, rfl, h, .refl σ, fun u => .inl rfl⟩

/-! ## The next thread -/

/-- `NX_SMP_PickThreadIrqDisabled` finds a thread when one is ready on the core. -/
theorem smpPickThread_takes {u prio : ℕ} (h : QueueInv cores held opened σ) (hc : c < cores)
    (hu : u ∈ σ.queue (.ready c prio)) :
    ∃ t τ, smpPickThread cores σ c = .ok (t, τ) ∧ t ∉ held ∧
      QueueInv cores (insert t held) opened τ ∧ (σ.thread t).state = .ready ∧
      (σ.thread t).onCore = c ∧ SameCores σ τ ∧
      τ.thread = Function.update σ.thread t (threadLowerPriority (σ.thread t)) := by
  unfold smpPickThread cpuGetIndex
  rw [nxAssert_pos hc]
  simp only [exec_ok_bind, exec_pure]
  cases hfind : findDown (fun prio => ((σ.cpuArray c).threadReadyList prio).head?)
      threadMaxPriorityNr with
  | none =>
      obtain ⟨-, -, -, -, rfl⟩ := h.of_mem_ready hu
      have hempty := List.head?_eq_none_iff.mp
        (findDown_eq_none hfind (h.wellFormed u).priority)
      replace hu : u ∈ (σ.cpuArray c).threadReadyList (σ.thread u).priority.toNat := hu
      rw [hempty] at hu
      cases hu
  | some t =>
      obtain ⟨prio', -, hhead, -⟩ := findDown_eq_some hfind
      have hmem : t ∈ σ.queue (.ready c prio') := List.mem_of_mem_head? hhead
      obtain ⟨hheld, hstate, hcore, -⟩ := h.of_mem_ready hmem
      obtain ⟨hτ, hdequeued⟩ := h.takeReady hmem
      have hlower := (h.wellFormed t).lowerPriority
      refine ⟨t, _, ?_, hheld, hτ.write (Set.mem_insert ..) hlower, hstate, hcore,
        hdequeued.same.trans (sameCores_write ..), rfl⟩
      simp only [h.listDel_eq hmem, exec_ok_bind]
      rfl

/-- `NX_SMP_SetRunning` runs a held thread on an open core. -/
theorem smpSetRunning_runs (h : QueueInv cores (insert t held) (insert c opened) σ)
    (ht : t ∉ held) (hopen : c ∉ opened) (hc : c < cores) (hcore : (σ.thread t).onCore = c)
    (hlisted : t ∈ σ.manager.globalList) :
    (smpSetRunning cores σ c t).1 = .eok ∧
      QueueInv cores held opened (smpSetRunning cores σ c t).2 := by
  have hzero : t ≠ 0 := fun heq => h.null.2 (heq ▸ Set.mem_insert ..)
  unfold smpSetRunning
  rw [if_neg (not_or.mpr ⟨Nat.not_le_of_lt hc, hzero⟩)]
  refine ⟨rfl, ?_⟩
  set running := (σ.thread t).setState .running with hrunning
  have hwf : running.WellFormed cores := by
    obtain ⟨hcore, hfixed, hsharing, hconstant⟩ := h.wellFormed t
    exact ⟨hcore, hfixed, hsharing, hconstant⟩
  have hwrite := h.write (Set.mem_insert ..) hwf
  set cpu : Cpu := { (σ.write t running).cpuArray c with threadRunning := some t } with hcpu
  have hself : ((σ.write t running).setCpu c cpu).cpuArray c = cpu := setCpu_cpuArray_self ..
  have hother : ∀ {d}, d ≠ c →
      ((σ.write t running).setCpu c cpu).cpuArray d = σ.cpuArray d :=
    fun hd => setCpu_cpuArray_of_ne hd
  have hlists : ∀ d, (((σ.write t running).setCpu c cpu).cpuArray d).threadReadyList =
      (σ.cpuArray d).threadReadyList := by
    intro d
    by_cases hd : d = c
    · rw [hd, hself]
      rfl
    · rw [hother hd]
  have hcounts : ∀ d, (((σ.write t running).setCpu c cpu).cpuArray d).threadCount =
      (σ.cpuArray d).threadCount := by
    intro d
    by_cases hd : d = c
    · rw [hd, hself]
      rfl
    · rw [hother hd]
  have hqueue : ∀ q, ((σ.write t running).setCpu c cpu).queue q = σ.queue q := by
    intro q
    cases q with
    | pending => rfl
    | ready d prio => exact congrFun (hlists d) prio
  have hthread : ((σ.write t running).setCpu c cpu).thread t = running := write_thread_self ..
  have hthreads : ∀ {u}, u ≠ t →
      ((σ.write t running).setCpu c cpu).thread u = σ.thread u :=
    fun hu => write_thread_of_ne hu
  have hsplit : ∀ {u}, u ≠ t → (u ∉ insert t held ↔ u ∉ held) :=
    fun hut => not_congr (Set.mem_insert_iff.trans (or_iff_right hut))
  refine ⟨?_, fun q => hqueue q ▸ h.nodup q, ?_, ?_, hwrite.wellFormed, ?_, ?_, h.globalNodup, ?_,
    h.active⟩
  · intro u q
    rw [hqueue, h.queued]
    by_cases hut : u = t
    · subst hut
      rw [hthread]
      exact iff_of_false (fun hu => hu.1 (Set.mem_insert u held))
        fun hu => ThreadState.noConfusion hu.2.1
    · rw [hsplit hut, hthreads hut]
  · intro core
    cases core with
    | none => exact h.counted none
    | some d =>
        rw [surplus_some]
        unfold Cpu.readyCount
        rw [hlists, hcounts]
        exact h.counted (some d)
  · intro u d
    by_cases hd : d = c
    · subst hd
      rw [hself]
      constructor
      · rintro ⟨-, -, hrun⟩
        obtain rfl := Option.some.inj hrun
        rw [hthread]
        exact ⟨ht, rfl, hcore⟩
      · rintro ⟨hu, hstate, hucore⟩
        by_cases hut : u = t
        · exact ⟨hc, hopen, hut ▸ rfl⟩
        · rw [hthreads hut] at hstate hucore
          have hrun := (h.running u d).mpr ⟨(hsplit hut).mpr hu, hstate, hucore⟩
          exact absurd (Set.mem_insert d opened) hrun.2.1
    · have hdopen : d ∉ insert c opened ↔ d ∉ opened :=
        not_congr (Set.mem_insert_iff.trans (or_iff_right hd))
      rw [hother hd, ← hdopen, h.running]
      by_cases hut : u = t
      · subst hut
        rw [hthread]
        exact iff_of_false (fun hu => hu.1 (Set.mem_insert u held))
          fun hu => hd (hu.2.2.symm.trans hcore)
      · rw [hsplit hut, hthreads hut]
  · rw [hthreads hzero.symm]
    exact ⟨h.null.1, fun hmem => h.null.2 (Set.mem_insert_of_mem t hmem)⟩
  · intro u hu
    by_cases hut : u = t
    · subst hut
      rw [hthread]
      exact iff_of_true hlisted
        ⟨fun h => ThreadState.noConfusion h, fun h => ThreadState.noConfusion h⟩
    · rw [hthreads hut]
      exact h.listed u ((hsplit hut).mpr hu)
  · intro u hu
    obtain ⟨huheld, hexit⟩ := h.exited u hu
    have hut : u ≠ t := fun heq => huheld (heq ▸ Set.mem_insert ..)
    rw [hthreads hut]
    exact ⟨fun hmem => huheld (Set.mem_insert_of_mem t hmem), hexit⟩

/-! ## Calls for any thread -/

namespace QueueInv

/-- `NX_ThreadStart` of a thread that was not started yet. -/
theorem start (h : QueueInv cores held opened σ) (hnull : t ≠ 0) (ht : t ∉ held)
    (hstate : (σ.thread t).state = .init) :
    ∃ τ, threadStart cores σ t = .ok (.eok, τ) ∧ QueueInv cores held opened τ ∧
      τ.thread = Function.update σ.thread t ((σ.thread t).setState .ready) ∧
      SameCores (threadEnququeGlobalList σ t) τ := by
  have hfree : t ∉ σ.manager.globalList := fun hmem => ((h.listed t ht).mp hmem).1 hstate
  have henlisted := (h.hold hnull (.inl hstate)).enlist (Set.mem_insert t held) hfree
  obtain ⟨τ, hready, hτ, hthread, hsame⟩ :=
    threadReadyRun_held henlisted ht (List.mem_cons_self ..) .tail
  refine ⟨τ, ?_, hτ, hthread, hsame⟩
  unfold threadStart
  rw [if_neg hnull, hready]
  rfl

/-- `NX_ThreadUnblock`: a thread that is blocked becomes ready. -/
theorem unblock (h : QueueInv cores held opened σ)
    (ht : (σ.thread t).state = .blocked → t ∉ held) :
    ∃ r, threadUnblock cores σ t = .ok r ∧ QueueInv cores held opened r.2 ∧
      SameCores σ r.2 ∧
      ((σ.thread t).state = .blocked →
        r.2.thread = Function.update σ.thread t ((σ.thread t).setState .ready)) ∧
      ((σ.thread t).state ≠ .blocked → r.2.thread = σ.thread) := by
  unfold threadUnblock
  by_cases hnull : t = 0
  · rw [if_pos hnull]
    refine ⟨_, rfl, h, .refl σ, fun hstate => ?_, fun _ => rfl⟩
    rw [hnull, h.null.1] at hstate
    cases hstate
  · rw [if_neg hnull]
    by_cases hstate : (σ.thread t).state = .blocked
    · rw [if_pos hstate]
      have hlisted : t ∈ σ.manager.globalList :=
        (h.listed t (ht hstate)).mpr (by rw [hstate]; exact ⟨by decide, by decide⟩)
      obtain ⟨τ, hready, hτ, hthread, hsame⟩ :=
        threadReadyRun_held (h.hold hnull (.inr hstate)) (ht hstate) hlisted .head
      rw [hready]
      exact ⟨_, rfl, hτ, hsame, fun _ => hthread, fun hno => absurd hstate hno⟩
    · rw [if_neg hstate]
      exact ⟨_, rfl, h, .refl σ, fun hblocked => absurd hblocked hstate, fun _ => rfl⟩

theorem enterCore (h : QueueInv cores held opened σ) :
    QueueInv cores held opened { σ with activedCoreCount := σ.activedCoreCount + 1 } := by
  have hqueue : ∀ q, ({ σ with activedCoreCount := σ.activedCoreCount + 1 } : Scheduler).queue q =
      σ.queue q := by
    intro q
    cases q <;> rfl
  have hactive := h.active
  refine ⟨fun u q => hqueue q ▸ h.queued u q, fun q => hqueue q ▸ h.nodup q,
    fun core => ?_, h.running, h.wellFormed, h.null, h.listed, h.globalNodup, h.exited, ?_⟩
  · cases core with
    | none => exact h.counted none
    | some c => exact h.counted (some c)
  · show 0 < σ.activedCoreCount + 1
    omega

end QueueInv

end Nxos.Sched
