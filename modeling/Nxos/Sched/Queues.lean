import Mathlib.Algebra.BigOperators.Group.Finset.Piecewise
import Mathlib.Data.Set.Insert
import Mathlib.Tactic.Ring
import Nxos.Sched.Model

/-!
# The queues of the scheduler

A thread that is ready is on the queue that it belongs to: the list of its priority on its
core, or the pending list while it has no core.  The scheduler takes threads off the
queues and changes them before they go to a core or to another queue.  In between, such a
thread is held, and nothing is said of its state; and a core that has given up its thread
for the next one is open.

The invariant is stated for any set of held threads and any set of open cores.  One lemma
for each thing that can happen to a thread says how these sets change.
-/

namespace Nxos.Sched

/-! ## Queues -/

/-- The lists that the node `list` of a thread can be on. -/
inductive Queue where
  | ready (core prio : ℕ)
  | pending
  deriving DecidableEq

def Scheduler.queue (σ : Scheduler) : Queue → List ℕ
  | .ready core prio => (σ.cpuArray core).threadReadyList prio
  | .pending => σ.manager.pendingList

def Thread.home (cores : ℕ) (th : Thread) : Queue :=
  if th.onCore < cores then .ready th.onCore th.priority.toNat else .pending

/-- The number of threads on the ready lists of a core. -/
def Cpu.readyCount (cpu : Cpu) : ℕ :=
  ∑ prio ∈ Finset.range threadMaxPriorityNr, (cpu.threadReadyList prio).length

/-- By how much the count of a queue is off. -/
def Scheduler.surplus (σ : Scheduler) : Option ℕ → ℤ
  | some core => (σ.cpuArray core).threadCount - (σ.cpuArray core).readyCount
  | none => σ.manager.pendingThreadCount - σ.manager.pendingList.length

theorem surplus_some (σ : Scheduler) (c : ℕ) : σ.surplus (some c) =
    (σ.cpuArray c).threadCount - (σ.cpuArray c).readyCount := rfl

def Thread.TimeSharing (th : Thread) : Prop :=
  threadPriorityLow ≤ th.fixedPriority ∧ th.fixedPriority ≤ threadPriorityHigh

instance (th : Thread) : Decidable th.TimeSharing := inferInstanceAs (Decidable (_ ∧ _))

/-- The core and the priorities of a thread are in their bounds. -/
structure Thread.WellFormed (cores : ℕ) (th : Thread) : Prop where
  onCore : th.onCore ≤ cores
  fixedPriority : th.fixedPriority.toNat < threadMaxPriorityNr
  sharing : th.TimeSharing → threadPriorityLow ≤ th.priority ∧ th.priority ≤ th.fixedPriority
  constant : ¬th.TimeSharing → th.priority = th.fixedPriority

theorem Thread.WellFormed.priority {cores : ℕ} {th : Thread} (h : th.WellFormed cores) :
    th.priority.toNat < threadMaxPriorityNr := by
  by_cases hsharing : th.TimeSharing
  · exact Nat.lt_of_le_of_lt (h.sharing hsharing).2 h.fixedPriority
  · rw [h.constant hsharing]
    exact h.fixedPriority

theorem Thread.WellFormed.lowerPriority {cores : ℕ} {th : Thread} (h : th.WellFormed cores) :
    (threadLowerPriority th).WellFormed cores := by
  unfold threadLowerPriority
  split
  · next hsharing =>
      have hpriority := h.sharing hsharing
      simp only
      split
      · exact ⟨h.onCore, h.fixedPriority, fun _ => ⟨hsharing.1, BitVec.le_refl _⟩,
          fun hno => absurd hsharing hno⟩
      · next hlow =>
          refine ⟨h.onCore, h.fixedPriority, fun _ => ⟨BitVec.not_lt.mp hlow, ?_⟩,
            fun hno => absurd hsharing hno⟩
          have hfixed := hpriority.2
          have hleast := hpriority.1
          show th.priority - 1 ≤ th.fixedPriority
          simp only [threadPriorityLow] at hleast
          bv_omega
  · exact h

@[simp] theorem threadLowerPriority_state (th : Thread) :
    (threadLowerPriority th).state = th.state := by
  unfold threadLowerPriority
  split
  · simp only
    split <;> rfl
  · rfl

@[simp] theorem threadLowerPriority_onCore (th : Thread) :
    (threadLowerPriority th).onCore = th.onCore := by
  unfold threadLowerPriority
  split
  · simp only
    split <;> rfl
  · rfl

@[simp] theorem threadLowerPriority_coreAffinity (th : Thread) :
    (threadLowerPriority th).coreAffinity = th.coreAffinity := by
  unfold threadLowerPriority
  split
  · simp only
    split <;> rfl
  · rfl

/-! ## Small facts -/

@[simp] theorem write_thread_self (σ : Scheduler) (t : ℕ) (th : Thread) :
    (σ.write t th).thread t = th :=
  Function.update_self ..

theorem write_thread_of_ne {σ : Scheduler} {t u : ℕ} {th : Thread} (h : u ≠ t) :
    (σ.write t th).thread u = σ.thread u :=
  Function.update_of_ne h ..

@[simp] theorem write_queue (σ : Scheduler) (t : ℕ) (th : Thread) (q : Queue) :
    (σ.write t th).queue q = σ.queue q := by
  cases q <;> rfl

@[simp] theorem write_cpuArray (σ : Scheduler) (t : ℕ) (th : Thread) :
    (σ.write t th).cpuArray = σ.cpuArray := rfl

@[simp] theorem write_manager (σ : Scheduler) (t : ℕ) (th : Thread) :
    (σ.write t th).manager = σ.manager := rfl

@[simp] theorem write_surplus (σ : Scheduler) (t : ℕ) (th : Thread) (core : Option ℕ) :
    (σ.write t th).surplus core = σ.surplus core := by
  cases core <;> rfl

@[simp] theorem setCpu_cpuArray_self (σ : Scheduler) (c : ℕ) (cpu : Cpu) :
    (σ.setCpu c cpu).cpuArray c = cpu :=
  Function.update_self ..

theorem setCpu_cpuArray_of_ne {σ : Scheduler} {c d : ℕ} {cpu : Cpu} (h : d ≠ c) :
    (σ.setCpu c cpu).cpuArray d = σ.cpuArray d :=
  Function.update_of_ne h ..

theorem mem_addToList {flags : SchedFlag} {t u : ℕ} {list : List ℕ} :
    u ∈ addToList flags t list ↔ u = t ∨ u ∈ list := by
  cases flags with
  | head => exact List.mem_cons
  | tail =>
      unfold addToList
      rw [List.mem_append, List.mem_singleton]
      exact or_comm

theorem nodup_addToList {flags : SchedFlag} {t : ℕ} {list : List ℕ} (hlist : list.Nodup)
    (ht : t ∉ list) : (addToList flags t list).Nodup := by
  cases flags with
  | head => exact List.nodup_cons.mpr ⟨ht, hlist⟩
  | tail =>
      refine List.nodup_append.mpr ⟨hlist, List.nodup_singleton t, ?_⟩
      intro u hu v hv huv
      exact ht (List.mem_singleton.mp hv ▸ huv ▸ hu)

theorem length_addToList (flags : SchedFlag) (t : ℕ) (list : List ℕ) :
    (addToList flags t list).length = list.length + 1 := by
  cases flags with
  | head => rfl
  | tail => exact List.length_append

theorem readyCount_update (cpu : Cpu) {prio : ℕ} (hprio : prio < threadMaxPriorityNr)
    (list : List ℕ) :
    (∑ p ∈ Finset.range threadMaxPriorityNr,
        (Function.update cpu.threadReadyList prio list p).length) +
      (cpu.threadReadyList prio).length = cpu.readyCount + list.length := by
  have hmem := Finset.mem_range.mpr hprio
  unfold Cpu.readyCount
  rw [← Finset.add_sum_erase _ _ hmem, ← Finset.add_sum_erase _ _ hmem, Function.update_self,
    Finset.sum_congr rfl (g := fun p => (cpu.threadReadyList p).length) fun p hp => by
      rw [Function.update_of_ne (Finset.ne_of_mem_erase hp)]]
  ring

/-! ## What changes -/

/-- Everything but the threads, the queues and their counts stays. -/
structure SameCores (σ τ : Scheduler) : Prop where
  threadRunning : ∀ c, (τ.cpuArray c).threadRunning = (σ.cpuArray c).threadRunning
  idleThread : ∀ c, (τ.cpuArray c).idleThread = (σ.cpuArray c).idleThread
  globalList : τ.manager.globalList = σ.manager.globalList
  exitList : τ.manager.exitList = σ.manager.exitList
  activeThreadCount : τ.manager.activeThreadCount = σ.manager.activeThreadCount
  activedCoreCount : τ.activedCoreCount = σ.activedCoreCount

theorem SameCores.refl (σ : Scheduler) : SameCores σ σ :=
  ⟨fun _ => rfl, fun _ => rfl, rfl, rfl, rfl, rfl⟩

theorem SameCores.trans {σ τ ρ : Scheduler} (h : SameCores σ τ) (h' : SameCores τ ρ) :
    SameCores σ ρ :=
  ⟨fun c => (h'.threadRunning c).trans (h.threadRunning c),
    fun c => (h'.idleThread c).trans (h.idleThread c), h'.globalList.trans h.globalList,
    h'.exitList.trans h.exitList, h'.activeThreadCount.trans h.activeThreadCount,
    h'.activedCoreCount.trans h.activedCoreCount⟩

theorem sameCores_write (σ : Scheduler) (t : ℕ) (th : Thread) : SameCores σ (σ.write t th) :=
  ⟨fun _ => rfl, fun _ => rfl, rfl, rfl, rfl, rfl⟩

theorem sameCores_unlink (σ : Scheduler) (t : ℕ) : SameCores σ (σ.unlink t) :=
  ⟨fun _ => rfl, fun _ => rfl, rfl, rfl, rfl, rfl⟩

theorem sameCores_setCpu {σ : Scheduler} {c : ℕ} {cpu : Cpu}
    (hrunning : cpu.threadRunning = (σ.cpuArray c).threadRunning)
    (hidle : cpu.idleThread = (σ.cpuArray c).idleThread) : SameCores σ (σ.setCpu c cpu) := by
  refine ⟨?_, ?_, rfl, rfl, rfl, rfl⟩
  · intro d
    by_cases hd : d = c
    · rw [hd, setCpu_cpuArray_self, hrunning]
    · rw [setCpu_cpuArray_of_ne hd]
  · intro d
    by_cases hd : d = c
    · rw [hd, setCpu_cpuArray_self, hidle]
    · rw [setCpu_cpuArray_of_ne hd]

/-- The thread was put on a queue, and counted. -/
structure Enqueued (σ τ : Scheduler) (t : ℕ) (q : Queue) : Prop where
  thread : τ.thread = σ.thread
  mem : ∀ u q', u ∈ τ.queue q' ↔ u ∈ σ.queue q' ∨ u = t ∧ q' = q
  nodup : ∀ q', t ∉ σ.queue q' → (σ.queue q').Nodup → (τ.queue q').Nodup
  surplus : ∀ core, τ.surplus core = σ.surplus core
  same : SameCores σ τ

/-- The thread was taken off its queue, and the count went down. -/
structure Dequeued (σ τ : Scheduler) (t : ℕ) : Prop where
  thread : τ.thread = σ.thread
  queue : ∀ q, τ.queue q = (σ.queue q).erase t
  surplus : ∀ core, τ.surplus core = σ.surplus core
  same : SameCores σ τ

theorem enqueued_ready {cores : ℕ} {σ : Scheduler} {c t : ℕ} (flags : SchedFlag)
    (hc : c < cores) (hprio : (σ.thread t).priority.toNat < threadMaxPriorityNr) :
    ∃ τ, smpEnqueueThread cores σ c t flags = .ok τ ∧
      Enqueued σ τ t (.ready c (σ.thread t).priority.toNat) := by
  generalize hp : (σ.thread t).priority.toNat = prio at hprio ⊢
  set list := addToList flags t ((σ.cpuArray c).threadReadyList prio) with hlist
  set cpu : Cpu :=
    { σ.cpuArray c with
      threadReadyList := Function.update (σ.cpuArray c).threadReadyList prio list
      threadCount := (σ.cpuArray c).threadCount + 1 } with hcpu
  have hself : (σ.setCpu c cpu).cpuArray c = cpu := setCpu_cpuArray_self ..
  have hother : ∀ {c'}, c' ≠ c → (σ.setCpu c cpu).cpuArray c' = σ.cpuArray c' :=
    fun h => setCpu_cpuArray_of_ne h
  have hqueue : ∀ q, (σ.setCpu c cpu).queue q =
      if q = .ready c prio then list else σ.queue q := by
    intro q
    cases q with
    | pending => rfl
    | ready c' p =>
        by_cases hc' : c' = c
        · subst hc'
          unfold Scheduler.queue
          simp only [hself]
          by_cases hp' : p = prio
          · subst hp'
            rw [if_pos rfl]
            exact Function.update_self ..
          · rw [if_neg fun h => hp' (Queue.ready.inj h).2]
            exact Function.update_of_ne hp' ..
        · rw [if_neg fun h => hc' (Queue.ready.inj h).1]
          unfold Scheduler.queue
          simp only [hother hc']
  refine ⟨σ.setCpu c cpu, ?_, rfl, ?_, ?_, ?_, sameCores_setCpu rfl rfl⟩
  · simp only [smpEnqueueThread, cpuGetIndex, hp, nxAssert_pos hprio, nxAssert_pos hc,
      exec_ok_bind]
    rfl
  · intro u q'
    rw [hqueue]
    by_cases hq : q' = .ready c prio
    · subst hq
      rw [if_pos rfl, mem_addToList]
      exact or_comm.trans (or_congr_right ⟨fun h => ⟨h, rfl⟩, And.left⟩)
    · rw [if_neg hq]
      exact ⟨.inl, fun h => h.resolve_right fun h => hq h.2⟩
  · intro q' ht hnodup
    rw [hqueue]
    by_cases hq : q' = .ready c prio
    · subst hq
      rw [if_pos rfl]
      exact nodup_addToList hnodup ht
    · rw [if_neg hq]
      exact hnodup
  · intro core
    cases core with
    | none => rfl
    | some c' =>
        rw [surplus_some, surplus_some]
        by_cases hc' : c' = c
        · subst hc'
          have hcount := readyCount_update (σ.cpuArray c') hprio list
          have hlength := length_addToList flags t ((σ.cpuArray c').threadReadyList prio)
          rw [← hlist] at hlength
          have hready : cpu.readyCount = (σ.cpuArray c').readyCount + 1 := by
            show (∑ p ∈ Finset.range threadMaxPriorityNr,
              (Function.update (σ.cpuArray c').threadReadyList prio list p).length) = _
            omega
          rw [hself, hready]
          show (σ.cpuArray c').threadCount + 1 - _ = _
          omega
        · rw [hother hc']

theorem enqueued_pending (σ : Scheduler) (t : ℕ) (flags : SchedFlag) :
    Enqueued σ (threadAddToGlobalPendingList σ t flags) t .pending := by
  refine ⟨rfl, ?_, ?_, ?_, fun _ => rfl, fun _ => rfl, rfl, rfl, rfl, rfl⟩
  · intro u q'
    cases q' with
    | ready c p => exact ⟨.inl, fun h => h.resolve_right fun h => Queue.noConfusion h.2⟩
    | pending =>
        refine mem_addToList.trans (or_comm.trans (or_congr_right ⟨fun h => ⟨h, rfl⟩, And.left⟩))
  · intro q' ht hnodup
    cases q' with
    | ready c p => exact hnodup
    | pending => exact nodup_addToList hnodup ht
  · intro core
    cases core with
    | some c => rfl
    | none =>
        have hlength := length_addToList flags t σ.manager.pendingList
        show σ.manager.pendingThreadCount + 1 -
          ((addToList flags t σ.manager.pendingList).length : ℤ) =
            σ.manager.pendingThreadCount - (σ.manager.pendingList.length : ℤ)
        omega

theorem unlink_queue (σ : Scheduler) (t : ℕ) (q : Queue) :
    (σ.unlink t).queue q = (σ.queue q).erase t := by
  cases q <;> rfl

theorem dequeued_ready {σ : Scheduler} {c prio t : ℕ} (hprio : prio < threadMaxPriorityNr)
    (hmem : t ∈ σ.queue (.ready c prio)) (honly : ∀ q, t ∈ σ.queue q → q = .ready c prio) :
    Dequeued σ ((σ.unlink t).decThreadCount c) t := by
  have herase : ∀ q, q ≠ .ready c prio → (σ.queue q).erase t = σ.queue q :=
    fun q hq => List.erase_of_not_mem fun h => hq (honly q h)
  have hself : ((σ.unlink t).decThreadCount c).cpuArray c =
      { (σ.unlink t).cpuArray c with
        threadCount := ((σ.unlink t).cpuArray c).threadCount - 1 } :=
    Function.update_self ..
  have hother : ∀ {c'}, c' ≠ c →
      ((σ.unlink t).decThreadCount c).cpuArray c' = (σ.unlink t).cpuArray c' :=
    fun h => Function.update_of_ne h ..
  have hlists : ∀ c', (((σ.unlink t).decThreadCount c).cpuArray c').threadReadyList =
      ((σ.unlink t).cpuArray c').threadReadyList := by
    intro c'
    by_cases hc' : c' = c
    · subst hc'
      rw [hself]
    · rw [hother hc']
  refine ⟨rfl, ?_, ?_, (sameCores_unlink σ t).trans (sameCores_setCpu rfl rfl)⟩
  · intro q
    rw [← unlink_queue]
    cases q with
    | pending => rfl
    | ready c' p => exact congrFun (hlists c') p
  · intro core
    cases core with
    | none =>
        show σ.manager.pendingThreadCount - ((σ.manager.pendingList.erase t).length : ℤ) = _
        rw [show σ.manager.pendingList.erase t = σ.manager.pendingList from
          herase .pending Queue.noConfusion]
        rfl
    | some c' =>
        rw [surplus_some, surplus_some]
        by_cases hc' : c' = c
        · subst hc'
          have hupdate : (fun p => ((σ.cpuArray c').threadReadyList p).erase t) =
              Function.update (σ.cpuArray c').threadReadyList prio
                (((σ.cpuArray c').threadReadyList prio).erase t) := by
            funext p
            by_cases hp : p = prio
            · subst hp
              rw [Function.update_self]
            · rw [Function.update_of_ne hp]
              exact herase (.ready c' p) fun h => hp (Queue.ready.inj h).2
          have hcount := readyCount_update (σ.cpuArray c') hprio
            (((σ.cpuArray c').threadReadyList prio).erase t)
          have hlength : (((σ.cpuArray c').threadReadyList prio).erase t).length + 1 =
              ((σ.cpuArray c').threadReadyList prio).length := List.length_erase_add_one hmem
          have hready : (((σ.unlink t).decThreadCount c').cpuArray c').readyCount + 1 =
              (σ.cpuArray c').readyCount := by
            have heq : (((σ.unlink t).decThreadCount c').cpuArray c').readyCount =
                ∑ p ∈ Finset.range threadMaxPriorityNr,
                  (Function.update (σ.cpuArray c').threadReadyList prio
                    (((σ.cpuArray c').threadReadyList prio).erase t) p).length := by
              unfold Cpu.readyCount
              rw [hlists, ← hupdate]
              rfl
            omega
          rw [show (((σ.unlink t).decThreadCount c').cpuArray c').threadCount =
            (σ.cpuArray c').threadCount - 1 by rw [hself]; rfl]
          omega
        · have hsame : (((σ.unlink t).decThreadCount c).cpuArray c').readyCount =
              (σ.cpuArray c').readyCount := by
            unfold Cpu.readyCount
            refine Finset.sum_congr rfl fun p _ => ?_
            rw [hlists]
            exact congrArg List.length (herase (.ready c' p) fun h => hc' (Queue.ready.inj h).1)
          rw [hsame, hother hc']
          rfl

theorem dequeued_pending {σ : Scheduler} {t : ℕ} (hmem : t ∈ σ.queue .pending)
    (honly : ∀ q, t ∈ σ.queue q → q = .pending) :
    Dequeued σ (σ.unlink t).decPendingThreadCount t := by
  have herase : ∀ q, q ≠ .pending → (σ.queue q).erase t = σ.queue q :=
    fun q hq => List.erase_of_not_mem fun h => hq (honly q h)
  refine ⟨rfl, ?_, ?_, fun _ => rfl, fun _ => rfl, rfl, rfl, rfl, rfl⟩
  · intro q
    cases q <;> rfl
  · intro core
    cases core with
    | none =>
        have hlength : (σ.manager.pendingList.erase t).length + 1 =
            σ.manager.pendingList.length := List.length_erase_add_one hmem
        show σ.manager.pendingThreadCount - 1 - ((σ.manager.pendingList.erase t).length : ℤ) =
          σ.manager.pendingThreadCount - (σ.manager.pendingList.length : ℤ)
        omega
    | some c =>
        have hready : ((σ.unlink t).cpuArray c).readyCount = (σ.cpuArray c).readyCount :=
          Finset.sum_congr rfl fun p _ =>
            congrArg List.length (herase (.ready c p) Queue.noConfusion)
        show (σ.cpuArray c).threadCount - (((σ.unlink t).cpuArray c).readyCount : ℤ) = _
        rw [hready]
        rfl

end Nxos.Sched
