import Nxos.Sched.Semaphore.Busy
import Nxos.Slots.Ownership

/-!
# Semaphores with waiting threads

A process creates, destroys and closes semaphores and mutexes while threads use them.  When
its threads wait at a counter of zero, no semaphore that is reported as unused has waiting
threads, and none is freed with waiting threads.
-/

namespace Nxos.Slots

open Nxos.Sched Nxos.Transition

variable {cores : ℕ} {m m' : ObjectMemory} {p p' : Process} {o : ℕ} {type : ExposedObjectType}

/-! ## The memory -/

/-- Threads wait at a counter of zero, no semaphore with waiting threads was freed, and no
mutex is a semaphore. -/
structure MemoryInv (m : ObjectMemory) : Prop where
  lists : ListInv m.kernel
  busy : BusyWaited m.kernel
  unstranded : m.stranded = []
  apart : ∀ o, (m.mutex o).magic = mutexMagic →
    (m.kernel.semaphore o).magic ≠ semaphoreMagic

structure SameWaiters (m m' : ObjectMemory) : Prop where
  list : ∀ o, (m'.kernel.semaphore o).semWaitList = (m.kernel.semaphore o).semWaitList
  semaphoreMagic : ∀ o, (m'.kernel.semaphore o).magic = (m.kernel.semaphore o).magic
  mutexMagic : ∀ o, (m'.mutex o).magic = (m.mutex o).magic

namespace MemoryInv

theorem empty_of_state (h : MemoryInv m) (hstate : objectState m o type = .eok) :
    (m.kernel.semaphore o).semWaitList = [] := by
  cases type with
  | semaphore => exact h.busy.empty hstate
  | mutex =>
      have hmagic : (m.mutex o).magic = mutexMagic := by
        by_contra hno
        have hfault : objectState m o .mutex = .efault := if_pos hno
        rw [hfault] at hstate
        cases hstate
      by_contra hne
      exact h.apart o hmagic (h.lists.listed o hne)
  | _ => cases hstate

theorem free (h : MemoryInv m) (hempty : (m.kernel.semaphore o).semWaitList = [])
    (type : ExposedObjectType) :
    MemoryInv (freeObject m o type) ∧ SameWaiters m (freeObject m o type) := by
  by_cases htype : type = .semaphore
  · subst htype
    have hlist : ∀ s, ((m.kernel.setValue o 0).semaphore s).semWaitList =
        (m.kernel.semaphore s).semWaitList :=
      sameList_of_update rfl rfl
    have hmagic := ListInv.magic_setValue (k := m.kernel) (s := o) 0
    refine ⟨⟨h.lists.setValue 0, fun s hne => ?_, ?_, fun s hs => ?_⟩, hlist, hmagic, fun _ => rfl⟩
    · by_cases hs : s = o
      · subst hs
        exact absurd ((hlist s).trans hempty) hne
      · have hsame : (m.kernel.setValue o 0).semaphore s = m.kernel.semaphore s :=
          Function.update_of_ne hs ..
        show ((m.kernel.setValue o 0).semaphore s).value = 0
        rw [hsame]
        exact h.busy s fun hnil => hne ((hlist s).trans hnil)
    · show m.stranded ++ ((m.kernel.setValue o 0).semaphore o).semWaitList = []
      rw [h.unstranded, hlist, hempty]
      rfl
    · show ((m.kernel.setValue o 0).semaphore s).magic ≠ _
      rw [hmagic]
      exact h.apart s hs
  · have hfree : freeObject m o type = m.freeMutex o := by
      cases type <;> first | rfl | exact absurd rfl htype
    have hmagic : ∀ s, ((m.freeMutex o).mutex s).magic = (m.mutex s).magic := by
      intro s
      show (Function.update m.mutex o { m.mutex o with value := 0 } s).magic = _
      by_cases hs : s = o
      · rw [hs, Function.update_self]
      · rw [Function.update_of_ne hs]
    rw [hfree]
    refine ⟨⟨h.lists, h.busy, ?_, fun s hs => ?_⟩, fun _ => rfl, fun _ => rfl, hmagic⟩
    · show m.stranded ++ (m.kernel.semaphore o).semWaitList = []
      rw [h.unstranded, hempty]
      rfl
    · exact h.apart s ((hmagic s).symm.trans hs)

/-- A close handler frees its object only if nobody waits for it. -/
theorem close (h : MemoryInv m) (call : CloseCall SoltCloseHandler) :
    MemoryInv (closeHandlers call m).2 ∧ SameWaiters m (closeHandlers call m).2 := by
  have hsame : SameWaiters m m := ⟨fun _ => rfl, fun _ => rfl, fun _ => rfl⟩
  have hclose : ∀ type, MemoryInv (closeSolt type call m).2 ∧
      SameWaiters m (closeSolt type call m).2 := by
    intro type
    unfold closeSolt
    by_cases htype : call.type = type
    · rw [if_neg (not_not.mpr htype)]
      by_cases hstate : objectState m call.object type = .eok
      · simp only [hstate, ne_eq, not_true_eq_false, if_false]
        exact h.free (h.empty_of_state hstate) type
      · simp only [ne_eq, hstate, not_false_eq_true, if_true]
        exact ⟨h, hsame⟩
    · rw [if_pos htype]
      exact ⟨h, hsame⟩
  unfold closeHandlers
  cases call.handler with
  | semaphore => exact hclose .semaphore
  | mutex => exact hclose .mutex

end MemoryInv

theorem SameWaiters.trans {m'' : ObjectMemory} (h : SameWaiters m m')
    (h' : SameWaiters m' m'') : SameWaiters m m'' :=
  ⟨fun o => (h'.list o).trans (h.list o),
    fun o => (h'.semaphoreMagic o).trans (h.semaphoreMagic o),
    fun o => (h'.mutexMagic o).trans (h.mutexMagic o)⟩

/-! ## Slots -/

variable {s : SlotState SoltCloseHandler ObjectMemory}

theorem uninstalllAt_waiters (h : MemoryInv s.world) (i : ℕ) :
    MemoryInv (exposedObjectUninstalllAt closeHandlers i s).2.world ∧
      SameWaiters s.world (exposedObjectUninstalllAt closeHandlers i s).2.world := by
  have hkept : MemoryInv s.world ∧ SameWaiters s.world s.world :=
    ⟨h, fun _ => rfl, fun _ => rfl, fun _ => rfl⟩
  unfold exposedObjectUninstalllAt
  split
  · exact hkept
  · split
    · exact hkept
    · split
      · exact hkept
      · split
        · exact hkept
        · have hcall : ∀ call, MemoryInv (callClose closeHandlers call s).2.world ∧
              SameWaiters s.world (callClose closeHandlers call s).2.world := h.close
          dsimp only
          split
          · exact hcall _
          · exact hcall _

theorem tableExit_waiters (h : MemoryInv s.world) :
    MemoryInv (exposedObjectTableExit closeHandlers s).world ∧
      SameWaiters s.world (exposedObjectTableExit closeHandlers s).world := by
  have hloop : ∀ (slots : List ℕ) (s : SlotState SoltCloseHandler ObjectMemory),
      MemoryInv s.world →
      MemoryInv (slots.foldl (fun s i => (exposedObjectUninstalllAt closeHandlers i s).2) s).world ∧
        SameWaiters s.world
          (slots.foldl (fun s i => (exposedObjectUninstalllAt closeHandlers i s).2) s).world := by
    intro slots
    induction slots with
    | nil => exact fun s h => ⟨h, fun _ => rfl, fun _ => rfl, fun _ => rfl⟩
    | cons i slots ih =>
        intro s h
        obtain ⟨hinv, hsame⟩ := uninstalllAt_waiters h i
        obtain ⟨hinv', hsame'⟩ := ih _ hinv
        exact ⟨hinv', hsame.trans hsame'⟩
  exact hloop _ s h

/-! ## Steps -/

structure WaitersInv (p : Process) : Prop where
  memory : MemoryInv p.memory
  semaphoreNew : ∀ o, p.allocated < o → (p.memory.kernel.semaphore o).magic ≠ semaphoreMagic
  mutexNew : ∀ o, p.allocated < o → (p.memory.mutex o).magic ≠ mutexMagic

namespace WaitersInv

theorem congr (h : WaitersInv p) (hmemory : MemoryInv p'.memory)
    (hsame : SameWaiters p.memory p'.memory) (hallocated : p'.allocated = p.allocated) :
    WaitersInv p' := by
  refine ⟨hmemory, fun o ho => ?_, fun o ho => ?_⟩
  · rw [hsame.semaphoreMagic]
    exact h.semaphoreNew o (hallocated ▸ ho)
  · rw [hsame.mutexMagic]
    exact h.mutexNew o (hallocated ▸ ho)

theorem soltClose (h : WaitersInv p) (solt : BitVec 32) :
    WaitersInv (sysSoltClose p solt).2 := by
  obtain ⟨hmemory, hsame⟩ := uninstalllAt_waiters h.memory (soltIndex solt)
  exact h.congr hmemory hsame rfl

theorem exit (h : WaitersInv p) : WaitersInv (processExit p) := by
  unfold processExit
  cases exposedObjectLocate p.slots.table mainThread .thread with
  | none =>
      obtain ⟨hmemory, hsame⟩ := tableExit_waiters h.memory
      exact h.congr hmemory hsame rfl
  | some i =>
      obtain ⟨hmemory, hsame⟩ := uninstalllAt_waiters h.memory i
      obtain ⟨hmemory', hsame'⟩ := tableExit_waiters hmemory
      exact h.congr hmemory' (hsame.trans hsame') rfl

theorem destroy (h : WaitersInv p) {solt : BitVec 32} {r : NxError × Process}
    (hrun : sysDestroy type p solt = .ok r) : WaitersInv r.2 := by
  unfold sysDestroy at hrun
  split at hrun
  · obtain rfl := Except.ok.inj hrun
    exact h
  · split at hrun
    · obtain rfl := Except.ok.inj hrun
      exact h
    · next exobj hget =>
        split at hrun
        · obtain rfl := Except.ok.inj hrun
          exact h
        · obtain ⟨-, -, hrun⟩ := exec_bind_eq_ok_iff.mp hrun
          dsimp only at hrun
          split at hrun
          · obtain rfl := Except.ok.inj hrun
            exact h
          · next hstate =>
              have hempty := h.memory.empty_of_state (not_not.mp hstate)
              obtain ⟨hmemory, hsame⟩ := uninstalllAt_waiters h.memory (soltIndex solt)
              split at hrun
              · obtain rfl := Except.ok.inj hrun
                exact h.congr hmemory hsame rfl
              · obtain rfl := Except.ok.inj hrun
                -- The handler of slot `0` may have freed the object before.
                obtain ⟨hmemory', hsame'⟩ :=
                  hmemory.free ((hsame.list exobj.object).trans hempty) type
                exact h.congr hmemory' (hsame.trans hsame') rfl

theorem installObject (h : WaitersInv p)
    (hempty : (p.memory.kernel.semaphore o).semWaitList = []) (handler : SoltCloseHandler) :
    WaitersInv (installObject p o type handler).2 := by
  unfold Slots.installObject
  split
  · refine h.congr ⟨h.memory.lists, h.memory.busy, ?_, h.memory.apart⟩
      ⟨fun _ => rfl, fun _ => rfl, fun _ => rfl⟩ rfl
    show p.memory.stranded ++ (p.memory.kernel.semaphore o).semWaitList = []
    rw [h.memory.unstranded, hempty]
    rfl
  · exact h.congr h.memory ⟨fun _ => rfl, fun _ => rfl, fun _ => rfl⟩ rfl

theorem empty_of_new (h : WaitersInv p) (ho : p.allocated < o) :
    (p.memory.kernel.semaphore o).semWaitList = [] := by
  by_contra hne
  exact h.semaphoreNew o ho (h.memory.lists.listed o hne)

theorem semaphoreCreate (h : WaitersInv p) (value : BitVec 64) (outSolt : ℕ) (memory : Bool) :
    WaitersInv (sysSemaphoreCreate p value outSolt memory).2 := by
  unfold sysSemaphoreCreate
  split
  · exact h
  · split
    · exact h
    · have hnew := h.empty_of_new (Nat.lt_succ_self p.allocated)
      have hself : (p.memory.kernel.setSemaphore (p.allocated + 1)
          ⟨value, [], semaphoreMagic⟩).semaphore (p.allocated + 1) = ⟨value, [], semaphoreMagic⟩ :=
        Function.update_self ..
      have hother : ∀ s, s ≠ p.allocated + 1 → (p.memory.kernel.setSemaphore (p.allocated + 1)
          ⟨value, [], semaphoreMagic⟩).semaphore s = p.memory.kernel.semaphore s :=
        fun s hs => Function.update_of_ne hs ..
      have hinv : WaitersInv ({ p with allocated := p.allocated + 1 }.setMemory
          { p.memory with
            kernel := p.memory.kernel.setSemaphore (p.allocated + 1)
              ⟨value, [], semaphoreMagic⟩ }) := by
        refine ⟨⟨h.memory.lists.setSemaphore hnew.symm fun _ => rfl, fun s hne => ?_,
          h.memory.unstranded, fun s hs => ?_⟩, fun s hs => ?_, fun s hs => ?_⟩
        · change ((p.memory.kernel.setSemaphore _ _).semaphore s).semWaitList ≠ [] at hne
          show ((p.memory.kernel.setSemaphore _ _).semaphore s).value = 0
          have hold : s ≠ p.allocated + 1 := by
            rintro rfl
            rw [hself] at hne
            exact hne rfl
          rw [hother s hold] at hne ⊢
          exact h.memory.busy s hne
        · change (p.memory.mutex s).magic = mutexMagic at hs
          show ((p.memory.kernel.setSemaphore _ _).semaphore s).magic ≠ _
          have hold : s ≠ p.allocated + 1 := by
            rintro rfl
            exact h.mutexNew _ (Nat.lt_succ_self _) hs
          rw [hother s hold]
          exact h.memory.apart s hs
        · change p.allocated + 1 < s at hs
          show ((p.memory.kernel.setSemaphore _ _).semaphore s).magic ≠ _
          rw [hother s hs.ne']
          exact h.semaphoreNew s (Nat.lt_of_succ_lt hs)
        · exact h.mutexNew s (Nat.lt_of_succ_lt hs)
      refine hinv.installObject ?_ .semaphore
      show ((p.memory.kernel.setSemaphore _ _).semaphore _).semWaitList = []
      rw [hself]

theorem setMutex (h : WaitersInv p) {mutex : Mutex}
    (hmagic : mutex.magic = mutexMagic → (p.memory.kernel.semaphore o).magic ≠ semaphoreMagic)
    (hnew : p.allocated < o → mutex.magic ≠ mutexMagic) : WaitersInv (p.setMutex o mutex) := by
  have hself : Function.update p.memory.mutex o mutex o = mutex := Function.update_self ..
  have hother : ∀ s, s ≠ o → Function.update p.memory.mutex o mutex s = p.memory.mutex s :=
    fun s hs => Function.update_of_ne hs ..
  refine ⟨⟨h.memory.lists, h.memory.busy, h.memory.unstranded, fun s hs => ?_⟩,
    h.semaphoreNew, fun s hs => ?_⟩
  · change (Function.update p.memory.mutex o mutex s).magic = mutexMagic at hs
    by_cases hso : s = o
    · subst hso
      rw [hself] at hs
      exact hmagic hs
    · rw [hother s hso] at hs
      exact h.memory.apart s hs
  · show (Function.update p.memory.mutex o mutex s).magic ≠ mutexMagic
    by_cases hso : s = o
    · subst hso
      rw [hself]
      exact hnew hs
    · rw [hother s hso]
      exact h.mutexNew s hs

theorem writeMutex (h : WaitersInv p) {mutex : Mutex}
    (hmagic : mutex.magic = (p.memory.mutex o).magic) : WaitersInv (p.setMutex o mutex) := by
  refine h.setMutex (fun hs => ?_) fun ho => ?_
  · rw [hmagic] at hs
    exact h.memory.apart o hs
  · rw [hmagic]
    exact h.mutexNew o ho

theorem mutexCreate (h : WaitersInv p) (attr : BitVec 32) (outSolt : ℕ) (memory : Bool) :
    WaitersInv (sysMutexCreate p attr outSolt memory).2 := by
  unfold sysMutexCreate
  split
  · exact h
  · split
    · exact h
    · have hnew := h.empty_of_new (Nat.lt_succ_self p.allocated)
      have halloc : WaitersInv { p with allocated := p.allocated + 1 } :=
        ⟨h.memory, fun s hs => h.semaphoreNew s (Nat.lt_of_succ_lt hs),
          fun s hs => h.mutexNew s (Nat.lt_of_succ_lt hs)⟩
      have hinv : ∀ mutex, WaitersInv
          ({ p with allocated := p.allocated + 1 }.setMutex (p.allocated + 1) mutex) :=
        fun mutex => halloc.setMutex
          (fun _ => h.semaphoreNew _ (Nat.lt_succ_self _)) fun hno => absurd hno (Nat.lt_irrefl _)
      exact (hinv _).installObject hnew .mutex

theorem mutexTryLock (h : WaitersInv p) (o : ℕ) :
    WaitersInv (p.setMutex o (mutexTryLock (p.memory.mutex o)).2) := by
  apply h.writeMutex
  unfold Slots.mutexTryLock
  split
  · rfl
  · split
    · rfl
    · split <;> rfl

theorem mutexUnlock (h : WaitersInv p) (o : ℕ) :
    WaitersInv (p.setMutex o (mutexUnlock (p.memory.mutex o)).2) := by
  apply h.writeMutex
  unfold Slots.mutexUnlock
  split
  · rfl
  · split <;> rfl

theorem semaphore (h : WaitersInv p) {op : SemOp ℕ} {e : Option (SemEvent ℕ)}
    {kernel : Kernel ℕ} (hsleep : SleepsAtZero p.memory.kernel op)
    (hallowed : op.Allowed cores p.memory.kernel) (hinit : ∀ sem value, op ≠ .init sem value)
    (hstep : semStep cores p.memory.kernel op = .ok (e, kernel)) :
    WaitersInv (p.setMemory { p.memory with kernel := kernel }) := by
  obtain ⟨hlists, hbusy, hmagic⟩ :=
    ZeroWaited.step h.memory.lists h.memory.busy hsleep hallowed hinit hstep
  refine ⟨⟨hlists, hbusy, h.memory.unstranded, fun s hs => ?_⟩, fun s hs => ?_, h.mutexNew⟩
  · show (kernel.semaphore s).magic ≠ _
    rw [hmagic]
    exact h.memory.apart s hs
  · show (kernel.semaphore s).magic ≠ _
    rw [hmagic]
    exact h.semaphoreNew s hs

end WaitersInv

/-- No thread goes to sleep at a negative counter, and `NX_SemaphoreSignal` finds one waiting
thread at most. -/
def WaitsAtZero (p : Process) : SlotOp → Prop
  | .semaphore op => SleepsAtZero p.memory.kernel op
  | _ => True

theorem WaitersInv.move {op : SlotOp} (h : WaitersInv p)
    (hmove : SlotMoveWhen cores WaitsAtZero p op p') : WaitersInv p' := by
  obtain ⟨hsleep, hallowed, hstep⟩ := hmove
  cases op with
  | semaphore op =>
      obtain ⟨⟨e, kernel⟩, hrun, hrest⟩ := exec_bind_eq_ok_iff.mp hstep
      obtain rfl := Except.ok.inj hrest
      exact h.semaphore hsleep hallowed.1 hallowed.2 hrun
  | mutexTryLock mutex =>
      obtain rfl := Except.ok.inj hstep
      exact h.mutexTryLock mutex
  | mutexUnlock mutex =>
      obtain rfl := Except.ok.inj hstep
      exact h.mutexUnlock mutex
  | semaphoreCreate value outSolt memory =>
      obtain rfl := Except.ok.inj hstep
      exact h.semaphoreCreate value outSolt memory
  | semaphoreDestroy solt =>
      obtain ⟨r, hrun, hrest⟩ := exec_bind_eq_ok_iff.mp hstep
      obtain rfl := Except.ok.inj hrest
      exact h.destroy hrun
  | mutexCreate attr outSolt memory =>
      obtain rfl := Except.ok.inj hstep
      exact h.mutexCreate attr outSolt memory
  | mutexDestroy solt =>
      obtain ⟨r, hrun, hrest⟩ := exec_bind_eq_ok_iff.mp hstep
      obtain rfl := Except.ok.inj hrest
      exact h.destroy hrun
  | close solt =>
      obtain rfl := Except.ok.inj hstep
      exact h.soltClose solt
  | exit =>
      obtain rfl := Except.ok.inj hstep
      exact h.exit

theorem waitersInv_launched (σ : Scheduler) : WaitersInv (launched σ) where
  memory :=
    { lists :=
        { linked := fun _ _ => iff_of_false List.not_mem_nil (nomatch ·)
          nodup := fun _ => List.nodup_nil
          waits := fun _ _ => (nomatch ·)
          listed := fun _ hno => absurd rfl hno }
      busy := fun _ hno => absurd rfl hno
      unstranded := rfl
      apart := fun _ => (nomatch ·) }
  semaphoreNew _ _ := (nomatch ·)
  mutexNew _ _ := (nomatch ·)

/-! ## Every run -/

instance (k : Kernel ℕ) (op : SemOp ℕ) : Decidable (SleepsAtZero k op) :=
  match op with
  | .goOn coreId => inferInstanceAs
      (Decidable (∀ s ∈ k.nextRound coreId, 0 ≤ (k.semaphore s).value.toInt))
  | .signal sem => inferInstanceAs
      (Decidable (∀ s ∈ sem, (k.semaphore s).semWaitList.length ≤ 1))
  | .init .. => .isTrue trivial
  | .wait .. => .isTrue trivial
  | .tryWait .. => .isTrue trivial
  | .signalAll .. => .isTrue trivial
  | .sched .. => .isTrue trivial

instance (p : Process) (op : SlotOp) : Decidable (WaitsAtZero p op) :=
  match op with
  | .semaphore op => inferInstanceAs (Decidable (SleepsAtZero p.memory.kernel op))
  | .mutexTryLock _ => .isTrue trivial
  | .mutexUnlock _ => .isTrue trivial
  | .semaphoreCreate .. => .isTrue trivial
  | .mutexCreate .. => .isTrue trivial
  | .semaphoreDestroy _ => .isTrue trivial
  | .mutexDestroy _ => .isTrue trivial
  | .close _ => .isTrue trivial
  | .exit => .isTrue trivial

/-- Perform steps on one core after the boot, where the idle thread lies at `1`. -/
def performSlots (condition : Process → SlotOp → Prop) [∀ p op, Decidable (condition p op)]
    (ops : List SlotOp) : Option Process :=
  (threadInitIdle 1 (· + 1) 1).toOption.bind fun σ =>
    perform (slotStepWhen condition 1) (launched σ) ops

theorem reachable_of_performSlots {condition : Process → SlotOp → Prop}
    [∀ p op, Decidable (condition p op)] {ops : List SlotOp}
    (h : performSlots condition ops = some p) :
    ∃ start, Reachable (SlotMoveWhen 1 condition) (launched start) p := by
  obtain ⟨start, -, hrun⟩ := Option.bind_eq_some_iff.mp h
  exact ⟨start, .of_perform slotMove_of_slotStepWhen hrun⟩

/-- A semaphore is created as object `2`, and the threads `5` and `6` run. -/
def twoThreadsRun (value : BitVec 64) : List SlotOp :=
  [.semaphoreCreate value 7 true, .semaphore (.sched (.toFirst 0)),
    .semaphore (.sched (.create 5 3)), .semaphore (.sched (.start 5)),
    .semaphore (.sched (.create 6 3)), .semaphore (.sched (.start 6)),
    .semaphore (.sched (.yield 0))]

def sleepRun : List SlotOp := [.semaphore (.wait 0 (some 2)), .semaphore (.goOn 0)]

end Nxos.Slots
