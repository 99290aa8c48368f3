import Nxos.Sched.Queues

/-!
# The invariant of the queues

The invariant of the scheduler, for a set of held threads and a set of open cores, and what
each of the locked functions does to it.  A function that takes a thread off a queue holds
it; a function that puts it on a queue, or runs it, gives it back.
-/

namespace Nxos.Sched

/-- Every thread that is not held is where its state says, the counts are right, and each
core that is not open runs the thread that is running on it. -/
structure QueueInv (cores : ℕ) (held opened : Set ℕ) (σ : Scheduler) : Prop where
  queued : ∀ t q, t ∈ σ.queue q ↔
    t ∉ held ∧ (σ.thread t).state = .ready ∧ (σ.thread t).home cores = q
  nodup : ∀ q, (σ.queue q).Nodup
  counted : ∀ core, σ.surplus core = 0
  running : ∀ t c, (c < cores ∧ c ∉ opened ∧ (σ.cpuArray c).threadRunning = some t) ↔
    t ∉ held ∧ (σ.thread t).state = .running ∧ (σ.thread t).onCore = c
  wellFormed : ∀ t, (σ.thread t).WellFormed cores
  null : (σ.thread 0).state = .init ∧ 0 ∉ held
  listed : ∀ t ∉ held, t ∈ σ.manager.globalList ↔
    (σ.thread t).state ≠ .init ∧ (σ.thread t).state ≠ .exit
  globalNodup : σ.manager.globalList.Nodup
  exited : ∀ t ∈ σ.manager.exitList, t ∉ held ∧ (σ.thread t).state = .exit
  active : 0 < σ.activedCoreCount

namespace QueueInv

variable {cores : ℕ} {held opened : Set ℕ} {σ τ : Scheduler} {t c : ℕ}

/-! ## Threads are held and given back -/

theorem hold (h : QueueInv cores held opened σ) (ht : t ≠ 0)
    (hstate : (σ.thread t).state = .init ∨ (σ.thread t).state = .blocked) :
    QueueInv cores (insert t held) opened σ where
  queued := by
    intro u q
    rw [h.queued, Set.mem_insert_iff, not_or]
    refine ⟨fun hu => ⟨⟨?_, hu.1⟩, hu.2⟩, fun hu => ⟨hu.1.2, hu.2⟩⟩
    rintro rfl
    rcases hstate with hstate | hstate <;> rw [hstate] at hu <;> cases hu.2.1
  nodup := h.nodup
  counted := h.counted
  running := by
    intro u d
    rw [h.running, Set.mem_insert_iff, not_or]
    refine ⟨fun hu => ⟨⟨?_, hu.1⟩, hu.2⟩, fun hu => ⟨hu.1.2, hu.2⟩⟩
    rintro rfl
    rcases hstate with hstate | hstate <;> rw [hstate] at hu <;> cases hu.2.1
  wellFormed := h.wellFormed
  null := by
    refine ⟨h.null.1, fun hmem => ?_⟩
    rcases Set.mem_insert_iff.mp hmem with hzero | hmem
    · exact ht hzero.symm
    · exact h.null.2 hmem
  listed := fun u hu => h.listed u fun hmem => hu (Set.mem_insert_of_mem t hmem)
  globalNodup := h.globalNodup
  exited := by
    intro u hu
    obtain ⟨hheld, hexit⟩ := h.exited u hu
    refine ⟨fun hmem => ?_, hexit⟩
    rcases Set.mem_insert_iff.mp hmem with rfl | hmem
    · rcases hstate with hstate | hstate <;> rw [hstate] at hexit <;> cases hexit
    · exact hheld hmem
  active := h.active

theorem release (h : QueueInv cores held opened σ) (hc : c < cores) (hopen : c ∉ opened)
    (hrun : (σ.cpuArray c).threadRunning = some t) :
    QueueInv cores (insert t held) (insert c opened) σ := by
  obtain ⟨hheld, hstate, hcore⟩ := (h.running t c).mp ⟨hc, hopen, hrun⟩
  refine ⟨?_, h.nodup, h.counted, ?_, h.wellFormed, ?_, ?_, h.globalNodup, ?_, h.active⟩
  · intro u q
    rw [h.queued, Set.mem_insert_iff, not_or]
    refine ⟨fun hu => ⟨⟨?_, hu.1⟩, hu.2⟩, fun hu => ⟨hu.1.2, hu.2⟩⟩
    rintro rfl
    rw [hstate] at hu
    cases hu.2.1
  · intro u d
    rw [Set.mem_insert_iff, Set.mem_insert_iff, not_or, not_or]
    constructor
    · rintro ⟨hd, ⟨hdc, hdopen⟩, hrun'⟩
      obtain ⟨hu, hustate, hucore⟩ := (h.running u d).mp ⟨hd, hdopen, hrun'⟩
      refine ⟨⟨?_, hu⟩, hustate, hucore⟩
      rintro rfl
      exact hdc (hucore.symm.trans hcore)
    · rintro ⟨⟨hut, hu⟩, hustate, hucore⟩
      obtain ⟨hd, hdopen, hrun'⟩ := (h.running u d).mpr ⟨hu, hustate, hucore⟩
      refine ⟨hd, ⟨?_, hdopen⟩, hrun'⟩
      rintro rfl
      exact hut (Option.some.inj (hrun'.symm.trans hrun))
  · refine ⟨h.null.1, fun hmem => ?_⟩
    rcases Set.mem_insert_iff.mp hmem with rfl | hmem
    · rw [h.null.1] at hstate
      cases hstate
    · exact h.null.2 hmem
  · exact fun u hu => h.listed u fun hmem => hu (Set.mem_insert_of_mem t hmem)
  · intro u hu
    obtain ⟨huheld, hexit⟩ := h.exited u hu
    refine ⟨fun hmem => ?_, hexit⟩
    rcases Set.mem_insert_iff.mp hmem with rfl | hmem
    · rw [hstate] at hexit
      cases hexit
    · exact huheld hmem

theorem write (h : QueueInv cores held opened σ) (ht : t ∈ held) {th : Thread}
    (hth : th.WellFormed cores) : QueueInv cores held opened (σ.write t th) := by
  have hother : ∀ {u}, u ∉ held → (σ.write t th).thread u = σ.thread u :=
    fun hu => write_thread_of_ne fun heq => hu (heq ▸ ht)
  refine ⟨?_, fun q => write_queue σ t th q ▸ h.nodup q, fun core => ?_, ?_, ?_, ?_, ?_,
    h.globalNodup, ?_, h.active⟩
  · intro u q
    rw [write_queue, h.queued]
    refine and_congr_right fun hu => ?_
    rw [hother hu]
  · rw [write_surplus]
    exact h.counted core
  · intro u d
    rw [write_cpuArray, h.running]
    refine and_congr_right fun hu => ?_
    rw [hother hu]
  · intro u
    by_cases hut : u = t
    · rw [hut, write_thread_self]
      exact hth
    · rw [write_thread_of_ne hut]
      exact h.wellFormed u
  · rw [hother h.null.2]
    exact h.null
  · intro u hu
    rw [hother hu]
    exact h.listed u hu
  · intro u hu
    obtain ⟨huheld, hexit⟩ := h.exited u hu
    rw [hother huheld]
    exact ⟨huheld, hexit⟩

theorem rewrite (h : QueueInv cores held opened σ) {th : Thread} (hth : th.WellFormed cores)
    (hstate : th.state = (σ.thread t).state)
    (hready : th.state = .ready → th.home cores = (σ.thread t).home cores)
    (hrunning : th.state = .running → th.onCore = (σ.thread t).onCore) :
    QueueInv cores held opened (σ.write t th) := by
  have hkept : ∀ u, ((σ.write t th).thread u).state = (σ.thread u).state := by
    intro u
    by_cases hut : u = t
    · rw [hut, write_thread_self, hstate]
    · rw [write_thread_of_ne hut]
  refine ⟨?_, fun q => write_queue σ t th q ▸ h.nodup q, fun core => ?_, ?_, ?_, ?_, ?_,
    h.globalNodup, ?_, h.active⟩
  · intro u q
    rw [write_queue, h.queued, hkept]
    refine and_congr_right fun _ => and_congr_right fun hu => ?_
    by_cases hut : u = t
    · subst hut
      rw [write_thread_self, hready (hstate.trans hu)]
    · rw [write_thread_of_ne hut]
  · rw [write_surplus]
    exact h.counted core
  · intro u d
    rw [write_cpuArray, h.running, hkept]
    refine and_congr_right fun _ => and_congr_right fun hu => ?_
    by_cases hut : u = t
    · subst hut
      rw [write_thread_self, hrunning (hstate.trans hu)]
    · rw [write_thread_of_ne hut]
  · intro u
    by_cases hut : u = t
    · rw [hut, write_thread_self]
      exact hth
    · rw [write_thread_of_ne hut]
      exact h.wellFormed u
  · exact ⟨(hkept 0).trans h.null.1, h.null.2⟩
  · intro u hu
    rw [hkept]
    exact h.listed u hu
  · intro u hu
    rw [hkept]
    exact h.exited u hu

theorem modify (h : QueueInv cores held opened σ) (th : Thread)
    (hstate : th.state = (σ.thread t).state) (hcore : th.onCore = (σ.thread t).onCore)
    (hpriority : th.priority = (σ.thread t).priority)
    (hfixed : th.fixedPriority = (σ.thread t).fixedPriority) :
    QueueInv cores held opened (σ.write t th) := by
  have hwf : th.WellFormed cores := by
    obtain ⟨hcore', hfixed', hsharing, hconstant⟩ := h.wellFormed t
    refine ⟨hcore ▸ hcore', hfixed ▸ hfixed', ?_, ?_⟩
    · unfold Thread.TimeSharing
      rw [hfixed, hpriority]
      exact hsharing
    · unfold Thread.TimeSharing
      rw [hfixed, hpriority]
      exact hconstant
  refine h.rewrite hwf hstate (fun _ => ?_) fun _ => hcore
  unfold Thread.home
  rw [hcore, hpriority]

theorem openCore (h : QueueInv cores held opened σ)
    (hnone : (σ.cpuArray c).threadRunning = none) :
    QueueInv cores held (insert c opened) σ := by
  refine ⟨h.queued, h.nodup, h.counted, fun u d => ?_, h.wellFormed, h.null, h.listed,
    h.globalNodup, h.exited, h.active⟩
  rw [← h.running, Set.mem_insert_iff, not_or]
  refine ⟨fun hu => ⟨hu.1, hu.2.1.2, hu.2.2⟩, fun hu => ⟨hu.1, ⟨?_, hu.2.1⟩, hu.2.2⟩⟩
  rintro rfl
  rw [hnone] at hu
  cases hu.2.2

theorem enlist (h : QueueInv cores held opened σ) (ht : t ∈ held)
    (hfree : t ∉ σ.manager.globalList) :
    QueueInv cores held opened (threadEnququeGlobalList σ t) := by
  have hqueue : ∀ q, (threadEnququeGlobalList σ t).queue q = σ.queue q := by
    intro q
    cases q <;> rfl
  have hsurplus : ∀ core, (threadEnququeGlobalList σ t).surplus core = σ.surplus core := by
    intro core
    cases core <;> rfl
  refine ⟨fun u q => ?_, fun q => ?_, fun core => ?_, h.running, h.wellFormed, h.null, ?_,
    List.nodup_cons.mpr ⟨hfree, h.globalNodup⟩, h.exited, h.active⟩
  · rw [hqueue]
    exact h.queued u q
  · rw [hqueue]
    exact h.nodup q
  · rw [hsurplus]
    exact h.counted core
  · intro u hu
    refine List.mem_cons.trans ((or_iff_right fun heq => ?_).trans (h.listed u hu))
    exact hu (heq ▸ ht)

theorem delist (h : QueueInv cores held opened σ) (ht : t ∈ held) :
    QueueInv cores held opened { σ with
      manager :=
        { σ.manager with
          globalList := σ.manager.globalList.erase t
          activeThreadCount := σ.manager.activeThreadCount - 1 } } := by
  refine ⟨fun u q => ?_, fun q => ?_, fun core => ?_, h.running, h.wellFormed, h.null,
    fun u hu => ?_, h.globalNodup.erase t, h.exited, h.active⟩
  · cases q with
    | ready c prio => exact h.queued u (.ready c prio)
    | pending => exact h.queued u .pending
  · cases q with
    | ready c prio => exact h.nodup (.ready c prio)
    | pending => exact h.nodup .pending
  · cases core with
    | none => exact h.counted none
    | some c => exact h.counted (some c)
  · have hut : u ≠ t := fun heq => hu (heq ▸ ht)
    exact (List.mem_erase_of_ne hut).trans (h.listed u hu)

theorem retire (h : QueueInv cores (insert t held) opened σ) (ht : t ∉ held)
    (hthread : τ.thread = Function.update σ.thread t ((σ.thread t).setState .exit))
    (hcpu : τ.cpuArray = σ.cpuArray) (hpending : τ.manager.pendingList = σ.manager.pendingList)
    (hcount : τ.manager.pendingThreadCount = σ.manager.pendingThreadCount)
    (hglobal : τ.manager.globalList = σ.manager.globalList.erase t)
    (hexit : τ.manager.exitList = t :: σ.manager.exitList)
    (hactive : τ.activedCoreCount = σ.activedCoreCount) : QueueInv cores held opened τ := by
  have hsplit : ∀ {u}, u ≠ t → (u ∉ insert t held ↔ u ∉ held) :=
    fun hut => not_congr (Set.mem_insert_iff.trans (or_iff_right hut))
  have hself : τ.thread t = (σ.thread t).setState .exit := by
    rw [hthread, Function.update_self]
  have hother : ∀ {u}, u ≠ t → τ.thread u = σ.thread u := by
    intro u hu
    rw [hthread, Function.update_of_ne hu]
  have hqueue : ∀ q, τ.queue q = σ.queue q := by
    intro q
    cases q with
    | ready c prio => exact congrArg (fun cpus => (cpus c).threadReadyList prio) hcpu
    | pending => exact hpending
  have hzero : t ≠ 0 := fun heq => h.null.2 (heq ▸ Set.mem_insert ..)
  refine ⟨?_, fun q => hqueue q ▸ h.nodup q, ?_, ?_, ?_, ?_, ?_, ?_, ?_, hactive ▸ h.active⟩
  · intro u q
    rw [hqueue, h.queued]
    by_cases hut : u = t
    · subst hut
      rw [hself]
      exact iff_of_false (fun hu => hu.1 (Set.mem_insert u held))
        fun hu => ThreadState.noConfusion hu.2.1
    · rw [hsplit hut, hother hut]
  · intro core
    cases core with
    | none =>
        refine Eq.trans ?_ (h.counted none)
        show τ.manager.pendingThreadCount - (τ.manager.pendingList.length : ℤ) = _
        rw [hpending, hcount]
        rfl
    | some c =>
        rw [surplus_some, hcpu]
        exact h.counted (some c)
  · intro u d
    rw [hcpu, h.running]
    by_cases hut : u = t
    · subst hut
      rw [hself]
      exact iff_of_false (fun hu => hu.1 (Set.mem_insert u held))
        fun hu => ThreadState.noConfusion hu.2.1
    · rw [hsplit hut, hother hut]
  · intro u
    by_cases hut : u = t
    · subst hut
      rw [hself]
      obtain ⟨hcore, hfixed, hsharing, hconstant⟩ := h.wellFormed u
      exact ⟨hcore, hfixed, hsharing, hconstant⟩
    · rw [hother hut]
      exact h.wellFormed u
  · rw [hother hzero.symm]
    exact ⟨h.null.1, fun hmem => h.null.2 (Set.mem_insert_of_mem t hmem)⟩
  · intro u hu
    rw [hglobal, h.globalNodup.mem_erase_iff]
    by_cases hut : u = t
    · subst hut
      rw [hself]
      exact iff_of_false (fun hu => hu.1 rfl) fun hu => hu.2 rfl
    · rw [hother hut, and_iff_right hut]
      exact h.listed u ((hsplit hut).mpr hu)
  · rw [hglobal]
    exact h.globalNodup.erase t
  · intro u hu
    rw [hexit] at hu
    rcases List.mem_cons.mp hu with rfl | hu
    · exact ⟨ht, by rw [hself]; rfl⟩
    · obtain ⟨huheld, hustate⟩ := h.exited u hu
      have hut : u ≠ t := fun heq => huheld (heq ▸ Set.mem_insert ..)
      rw [hother hut]
      exact ⟨fun hmem => huheld (Set.mem_insert_of_mem t hmem), hustate⟩

theorem drop (h : QueueInv cores (insert t held) opened σ) (ht : t ∉ held)
    (hstate : (σ.thread t).state = .blocked) (hlisted : t ∈ σ.manager.globalList) :
    QueueInv cores held opened σ := by
  have hsplit : ∀ {u}, u ≠ t → (u ∉ insert t held ↔ u ∉ held) :=
    fun hut => not_congr (Set.mem_insert_iff.trans (or_iff_right hut))
  refine ⟨?_, h.nodup, h.counted, ?_, h.wellFormed, ?_, ?_, h.globalNodup, ?_, h.active⟩
  · intro u q
    rw [h.queued]
    by_cases hut : u = t
    · subst hut
      rw [hstate]
      exact iff_of_false (fun hu => hu.1 (Set.mem_insert u held))
        fun hu => ThreadState.noConfusion hu.2.1
    · rw [hsplit hut]
  · intro u d
    rw [h.running]
    by_cases hut : u = t
    · subst hut
      rw [hstate]
      exact iff_of_false (fun hu => hu.1 (Set.mem_insert u held))
        fun hu => ThreadState.noConfusion hu.2.1
    · rw [hsplit hut]
  · exact ⟨h.null.1, fun hmem => h.null.2 (Set.mem_insert_of_mem t hmem)⟩
  · intro u hu
    by_cases hut : u = t
    · subst hut
      rw [hstate]
      exact iff_of_true hlisted ⟨by decide, by decide⟩
    · exact h.listed u ((hsplit hut).mpr hu)
  · intro u hu
    obtain ⟨huheld, hexit⟩ := h.exited u hu
    exact ⟨fun hmem => huheld (Set.mem_insert_of_mem t hmem), hexit⟩

theorem enqueue (h : QueueInv cores (insert t held) opened σ) (ht : t ∉ held)
    (hstate : (σ.thread t).state = .ready) (hlisted : t ∈ σ.manager.globalList)
    (henqueued : Enqueued σ τ t ((σ.thread t).home cores)) :
    QueueInv cores held opened τ := by
  have hsplit : ∀ {u}, u ≠ t → (u ∉ insert t held ↔ u ∉ held) :=
    fun hut => not_congr (Set.mem_insert_iff.trans (or_iff_right hut))
  have hfree : ∀ q, t ∉ σ.queue q := fun q hmem => ((h.queued t q).mp hmem).1 (Set.mem_insert ..)
  have hthread := henqueued.thread
  have hsame := henqueued.same
  refine ⟨?_, fun q => henqueued.nodup q (hfree q) (h.nodup q),
    fun core => (henqueued.surplus core).trans (h.counted core), ?_, ?_, ?_, ?_, ?_, ?_, ?_⟩
  · intro u q
    rw [henqueued.mem, hthread, h.queued]
    by_cases hut : u = t
    · subst hut
      exact ⟨fun hu => hu.elim (fun hu => absurd (Set.mem_insert u held) hu.1)
        fun hu => ⟨ht, hstate, hu.2.symm⟩, fun hu => .inr ⟨rfl, hu.2.2.symm⟩⟩
    · rw [hsplit hut]
      exact or_iff_left fun hu => hut hu.1
  · intro u d
    rw [hsame.threadRunning, hthread, h.running]
    by_cases hut : u = t
    · subst hut
      rw [hstate]
      exact iff_of_false (fun hu => ThreadState.noConfusion hu.2.1)
        fun hu => ThreadState.noConfusion hu.2.1
    · rw [hsplit hut]
  · exact fun u => hthread ▸ h.wellFormed u
  · rw [hthread]
    exact ⟨h.null.1, fun hmem => h.null.2 (Set.mem_insert_of_mem t hmem)⟩
  · intro u hu
    rw [hsame.globalList, hthread]
    by_cases hut : u = t
    · subst hut
      rw [hstate]
      exact iff_of_true hlisted ⟨by decide, by decide⟩
    · exact h.listed u ((hsplit hut).mpr hu)
  · rw [hsame.globalList]
    exact h.globalNodup
  · intro u hu
    rw [hsame.exitList] at hu
    obtain ⟨huheld, hexit⟩ := h.exited u hu
    rw [hthread]
    exact ⟨fun hmem => huheld (Set.mem_insert_of_mem t hmem), hexit⟩
  · rw [hsame.activedCoreCount]
    exact h.active

theorem dequeue {q : Queue} (h : QueueInv cores held opened σ) (hmem : t ∈ σ.queue q)
    (hdequeued : Dequeued σ τ t) : QueueInv cores (insert t held) opened τ := by
  obtain ⟨hheld, hstate, -⟩ := (h.queued t q).mp hmem
  have hthread := hdequeued.thread
  have hsame := hdequeued.same
  refine ⟨?_, ?_, fun core => (hdequeued.surplus core).trans (h.counted core), ?_, ?_, ?_, ?_, ?_,
    ?_, ?_⟩
  · intro u q'
    rw [hdequeued.queue, (h.nodup q').mem_erase_iff, h.queued, hthread, Set.mem_insert_iff,
      not_or]
    exact and_assoc.symm
  · intro q'
    rw [hdequeued.queue]
    exact (h.nodup q').erase t
  · intro u d
    rw [hsame.threadRunning, h.running, hthread, Set.mem_insert_iff, not_or]
    refine ⟨fun hu => ⟨⟨?_, hu.1⟩, hu.2⟩, fun hu => ⟨hu.1.2, hu.2⟩⟩
    rintro rfl
    rw [hstate] at hu
    cases hu.2.1
  · exact fun u => hthread ▸ h.wellFormed u
  · rw [hthread]
    refine ⟨h.null.1, fun hmem => ?_⟩
    rcases Set.mem_insert_iff.mp hmem with rfl | hmem
    · rw [h.null.1] at hstate
      cases hstate
    · exact h.null.2 hmem
  · intro u hu
    rw [hsame.globalList, hthread]
    exact h.listed u fun hmem => hu (Set.mem_insert_of_mem t hmem)
  · rw [hsame.globalList]
    exact h.globalNodup
  · intro u hu
    rw [hsame.exitList] at hu
    obtain ⟨huheld, hexit⟩ := h.exited u hu
    rw [hthread]
    refine ⟨fun hmem => ?_, hexit⟩
    rcases Set.mem_insert_iff.mp hmem with rfl | hmem
    · rw [hstate] at hexit
      cases hexit
    · exact huheld hmem
  · rw [hsame.activedCoreCount]
    exact h.active

end QueueInv

end Nxos.Sched
