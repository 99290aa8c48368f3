import Nxos.Sched.Semaphore.Links
import Nxos.Sched.Semaphore.Lists

/-!
# Waking all threads

`NX_SemaphoreSignalAll` adds one unit and wakes all threads of the wait list.  Each of them
takes the lock again and checks the counter again, so that the threads for which there is no
unit go back to sleep.

The runs are arbitrary: the scheduler may terminate, suspend and resume threads at any time.
What is known of every run is that the nodes of the threads are linked on the lists of
initialised semaphores.
-/

namespace Nxos.Sched

open Nxos.Transition

variable {ι : Type} [DecidableEq ι] {cores : ℕ} {k k' : Kernel ι} {s : ι} {t cur c : ℕ}

/-! ## Running again -/

/-- The threads on the wait list that are inside `NX_SemaphoreWait` on the semaphore. -/
def Kernel.waiters (k : Kernel ι) (s : ι) : List ℕ :=
  (k.semaphore s).semWaitList.filter fun t => (k.point t).waitsFor = some s

/-- The thread will take the lock of the semaphore and check the counter. -/
def Kernel.AwaitsRound (k : Kernel ι) (s : ι) (t : ℕ) : Prop :=
  (k.point t).waitsFor = some s ∧ t ∉ (k.semaphore s).semWaitList

/-- There is a unit for each thread that `NX_SemaphoreSignalAll` wakes. -/
def Kernel.UnitsForAll (k : Kernel ι) (s : ι) : Prop :=
  k.waiters s = [] ∨ ((k.waiters s).length : ℤ) ≤ ((k.semaphore s).value + 1).toInt

/-- The operation is none on the semaphore, but one of the woken threads may go on. -/
def OnlyRerun (s : ι) (woken : List ℕ) (k : Kernel ι) : SemOp ι → Prop
  | .init sem _ => sem ≠ some s
  | .wait _ sem => sem ≠ some s
  | .goOn c => ∀ cur ∈ (k.sched.cpuArray c).threadRunning,
      (k.point cur).waitsFor = some s → cur ∈ woken
  | .tryWait sem => sem ≠ some s
  | .signal sem => sem ≠ some s
  | .signalAll sem => sem ≠ some s
  | .sched _ => True

/-- The thread that goes on was not terminated meanwhile. -/
def GoesOnAlive (k : Kernel ι) : SemOp ι → Prop
  | .goOn c => ∀ cur ∈ (k.sched.cpuArray c).threadRunning,
      (k.sched.thread cur).isTerminated = false
  | _ => True

/-- What happens to the semaphore and to the threads that wait for it. -/
inductive RerunEffect (cores : ℕ) (s : ι) (woken : List ℕ) (k : Kernel ι) (op : SemOp ι)
    (k' : Kernel ι) : Prop
  | kept (hsem : k'.semaphore s = k.semaphore s)
      (hwaits : ∀ t, (k'.point t).waitsFor = some s ↔ (k.point t).waitsFor = some s)
  | took (cur : ℕ) (hwoken : cur ∈ woken) (hcur : (k.point cur).waitsFor = some s)
      (hunit : 0 < (k.semaphore s).value.toInt)
      (hsem : k'.semaphore s = { k.semaphore s with value := (k.semaphore s).value - 1 })
      (hwaits : ∀ t, (k'.point t).waitsFor = some s ↔ t ≠ cur ∧ (k.point t).waitsFor = some s)
  | slept (cur : ℕ) (hwoken : cur ∈ woken) (hcur : (k.point cur).waitsFor = some s)
      (hunit : (k.semaphore s).value.toInt ≤ 0)
      (hsem : (k'.semaphore s).value = (k.semaphore s).value)
      (hwaits : ∀ t, (k'.point t).waitsFor = some s ↔ (k.point t).waitsFor = some s)
  | ended (cur c : ℕ) (hop : op = .goOn c) (hrun : k.sched.Runs cores c cur)
      (hwoken : cur ∈ woken) (hcur : (k.point cur).waitsFor = some s)
      (hterminated : (k.sched.thread cur).isTerminated = true)
      (hsem : k'.semaphore s = k.semaphore s)
      (hwaits : ∀ t, (k'.point t).waitsFor = some s ↔ t ≠ cur ∧ (k.point t).waitsFor = some s)

section Points

omit [DecidableEq ι]

theorem waitsFor_setPoint_other {point : WaitPoint ι} (hcur : (k.point cur).waitsFor ≠ some s)
    (hpoint : point.waitsFor ≠ some s) (t : ℕ) :
    ((k.setPoint cur point).point t).waitsFor = some s ↔ (k.point t).waitsFor = some s := by
  change (Function.update k.point cur point t).waitsFor = some s ↔ _
  by_cases ht : t = cur
  · subst ht
    rw [Function.update_self]
    exact iff_of_false hpoint hcur
  · rw [Function.update_of_ne ht]

theorem waitsFor_setPoint_stay {point : WaitPoint ι} (hcur : (k.point cur).waitsFor = some s)
    (hpoint : point.waitsFor = some s) (t : ℕ) :
    ((k.setPoint cur point).point t).waitsFor = some s ↔ (k.point t).waitsFor = some s := by
  change (Function.update k.point cur point t).waitsFor = some s ↔ _
  by_cases ht : t = cur
  · subst ht
    rw [Function.update_self]
    exact iff_of_true hpoint hcur
  · rw [Function.update_of_ne ht]

theorem waitsFor_setPoint_outside (t : ℕ) :
    ((k.setPoint cur .outside).point t).waitsFor = some s ↔
      t ≠ cur ∧ (k.point t).waitsFor = some s := by
  change (Function.update k.point cur .outside t).waitsFor = some s ↔ _
  by_cases ht : t = cur
  · subst ht
    rw [Function.update_self]
    exact iff_of_false nofun fun hno => hno.1 rfl
  · rw [Function.update_of_ne ht]
    exact (and_iff_right ht).symm

end Points

theorem semaphore_setValue_of_ne {s' : ι} (hs : s ≠ s') (value : BitVec 64) :
    (k.setValue s' value).semaphore s = k.semaphore s :=
  Function.update_of_ne hs ..

theorem semaphore_linkOnce_of_ne {s' : ι} (hs : s ≠ s') :
    (if k.blockList cur = none then listAddTail k cur s' else k).semaphore s =
      k.semaphore s := by
  split
  · exact Function.update_of_ne hs ..
  · rfl

theorem point_linkOnce {s' : ι} :
    (if k.blockList cur = none then listAddTail k cur s' else k).point = k.point := by
  split <;> rfl

theorem value_linkOnce :
    ((if k.blockList cur = none then listAddTail k cur s else k).semaphore s).value =
      (k.semaphore s).value := by
  split
  · unfold listAddTail
    simp only [Function.update_self]
  · rfl

theorem goOn_rerun {woken : List ℕ} {err : Option NxError}
    (hallowed : (SemOp.goOn c).Allowed cores k) (honly : OnlyRerun s woken k (.goOn c))
    (hrun : semaphoreGoOn cores k c = .ok (err, k')) :
    RerunEffect cores s woken k (.goOn c) k' := by
  obtain ⟨cur, s', hcur, hwaits, hround⟩ := semaphoreGoOn_cases hallowed hrun
  by_cases hs : s = s'
  · subst hs
    have hwoken := honly cur hcur.2 hwaits
    rcases hround with ⟨-, hround⟩ | ⟨hterminated, σ, rfl⟩
    · rcases semaphoreWaitRound_cases hround with ⟨hunit, rfl⟩ | ⟨hunit, σ, point, hpoint, rfl⟩
      · exact .took cur hwoken hwaits hunit (Function.update_self ..) waitsFor_setPoint_outside
      · refine .slept cur hwoken hwaits hunit value_linkOnce fun t => ?_
        refine (waitsFor_setPoint_stay ?_ hpoint t).trans ?_
        · change ((ite _ (listAddTail k cur s) k).point cur).waitsFor = some s
          rw [point_linkOnce]
          exact hwaits
        · change ((ite _ (listAddTail k cur s) k).point t).waitsFor = some s ↔ _
          rw [point_linkOnce]
    · exact .ended cur c rfl hcur hwoken hwaits hterminated rfl waitsFor_setPoint_outside
  · have hother : (k.point cur).waitsFor ≠ some s := by
      rw [hwaits]
      exact fun heq => hs (Option.some.inj heq).symm
    rcases hround with ⟨-, hround⟩ | ⟨-, σ, rfl⟩
    · rcases semaphoreWaitRound_cases hround with ⟨-, rfl⟩ | ⟨-, σ, point, hpoint, rfl⟩
      · exact .kept (semaphore_setValue_of_ne hs _)
          (waitsFor_setPoint_other (k := k.setValue s' _) hother nofun)
      · have hpoint' : point.waitsFor ≠ some s := by
          rw [hpoint]
          exact fun heq => hs (Option.some.inj heq).symm
        refine .kept (semaphore_linkOnce_of_ne hs) fun t => ?_
        refine (waitsFor_setPoint_other ?_ hpoint' t).trans ?_
        · change ((ite _ (listAddTail k cur s') k).point cur).waitsFor ≠ some s
          rw [point_linkOnce]
          exact hother
        · change ((ite _ (listAddTail k cur s') k).point t).waitsFor = some s ↔ _
          rw [point_linkOnce]
    · exact .kept rfl (waitsFor_setPoint_other (k := { k with sched := σ }) hother nofun)

theorem ListInv.raise_rerun {woken : List ℕ} {wake : List ℕ → List ℕ} {sem : Option ι}
    {err : NxError} {op : SemOp ι} (h : ListInv k) (hwake : ∀ list, wake list ⊆ list)
    (hs : sem ≠ some s) (hrun : semaphoreRaise cores wake k sem = .ok (err, k')) :
    RerunEffect cores s woken k op k' := by
  rcases semaphoreCheck_cases k sem with ⟨err', -, hcheck⟩ | ⟨s', rfl, hmagic, -⟩
  · rw [semaphoreRaise_of_error hcheck hrun]
    exact .kept rfl fun _ => Iff.rfl
  · obtain ⟨woken', hsignalled, -⟩ := h.raise hwake hmagic hrun
    refine .kept (hsignalled.other s fun heq => hs (congrArg some heq.symm)) fun t => ?_
    rw [hsignalled.point]

theorem ListInv.rerun {woken : List ℕ} {op : SemOp ι} {e : Option (SemEvent ι)} (h : ListInv k)
    (hallowed : op.Allowed cores k) (honly : OnlyRerun s woken k op)
    (hstep : semStep cores k op = .ok (e, k')) : RerunEffect cores s woken k op k' := by
  have hnone : RerunEffect cores s woken k op k := .kept rfl fun _ => Iff.rfl
  cases op with
  | init sem value =>
      obtain rfl := (Prod.mk.inj (Except.ok.inj hstep)).2
      cases sem with
      | none => exact hnone
      | some s' =>
          exact .kept (Function.update_of_ne (fun heq => honly (congrArg some heq.symm)) ..)
            fun _ => Iff.rfl
  | wait coreId sem =>
      obtain ⟨⟨err, k₁⟩, hrun, hrest⟩ := exec_bind_eq_ok_iff.mp hstep
      obtain rfl := (Prod.mk.inj (Except.ok.inj hrest)).2
      unfold semaphoreWait at hrun
      rcases semaphoreCheck_cases k sem with ⟨err, -, hcheck⟩ | ⟨s', rfl, hmagic, hcheck⟩
      · rw [hcheck] at hrun
        obtain rfl := (Prod.mk.inj (Except.ok.inj hrun)).2
        exact hnone
      · obtain ⟨cur, hcur, houtside, -⟩ := hallowed
        rw [hcheck] at hrun
        dsimp only at hrun
        rw [SchedInv.threadSelf_eq hcur, exec_ok_bind] at hrun
        obtain rfl := (Prod.mk.inj (Except.ok.inj hrun)).2
        refine .kept rfl (waitsFor_setPoint_other ?_ honly)
        rw [houtside]
        exact nofun
  | goOn coreId =>
      obtain ⟨⟨err, k₁⟩, hrun, hrest⟩ := exec_bind_eq_ok_iff.mp hstep
      obtain rfl := (Prod.mk.inj (Except.ok.inj hrest)).2
      exact goOn_rerun hallowed honly hrun
  | tryWait sem =>
      obtain rfl := (Prod.mk.inj (Except.ok.inj hstep)).2
      rcases semaphoreCheck_cases k sem with ⟨err, -, hcheck⟩ | ⟨s', rfl, -, hcheck⟩
      · rw [hcheck]
        exact hnone
      · rw [hcheck]
        dsimp only
        split
        · exact .kept (semaphore_setValue_of_ne (fun heq => honly (congrArg some heq.symm)) _)
            fun _ => Iff.rfl
        · exact hnone
  | signal sem =>
      obtain ⟨⟨err, k₁⟩, hrun, hrest⟩ := exec_bind_eq_ok_iff.mp hstep
      obtain rfl := (Prod.mk.inj (Except.ok.inj hrest)).2
      exact h.raise_rerun (fun list => List.take_subset 1 list) honly hrun
  | signalAll sem =>
      obtain ⟨⟨err, k₁⟩, hrun, hrest⟩ := exec_bind_eq_ok_iff.mp hstep
      obtain rfl := (Prod.mk.inj (Except.ok.inj hrest)).2
      exact h.raise_rerun (fun list => List.Subset.refl list) honly hrun
  | sched op =>
      obtain ⟨σ, -, hrest⟩ := exec_bind_eq_ok_iff.mp hstep
      obtain rfl := (Prod.mk.inj (Except.ok.inj hrest)).2
      exact .kept rfl fun _ => Iff.rfl

/-! ## Units and waiting threads -/

/-- The woken threads that are still inside `NX_SemaphoreWait` on the semaphore. -/
def Kernel.stillWaiting (k : Kernel ι) (s : ι) (woken : List ℕ) : Finset ℕ :=
  woken.toFinset.filter fun t => (k.point t).waitsFor = some s

theorem mem_stillWaiting {woken : List ℕ} :
    t ∈ k.stillWaiting s woken ↔ t ∈ woken ∧ (k.point t).waitsFor = some s := by
  unfold Kernel.stillWaiting
  rw [Finset.mem_filter, List.mem_toFinset]

theorem stillWaiting_congr {woken : List ℕ}
    (hwaits : ∀ t, (k'.point t).waitsFor = some s ↔ (k.point t).waitsFor = some s) :
    k'.stillWaiting s woken = k.stillWaiting s woken := by
  ext t
  rw [mem_stillWaiting, mem_stillWaiting, hwaits]

theorem card_stillWaiting_leave {woken : List ℕ} (hwoken : cur ∈ woken)
    (hcur : (k.point cur).waitsFor = some s)
    (hwaits : ∀ t, (k'.point t).waitsFor = some s ↔ t ≠ cur ∧ (k.point t).waitsFor = some s) :
    (k'.stillWaiting s woken).card + 1 = (k.stillWaiting s woken).card := by
  have herase : k'.stillWaiting s woken = (k.stillWaiting s woken).erase cur := by
    ext t
    rw [Finset.mem_erase, mem_stillWaiting, mem_stillWaiting, hwaits]
    exact and_left_comm
  rw [herase]
  exact Finset.card_erase_add_one (mem_stillWaiting.mpr ⟨hwoken, hcur⟩)

/-- There is a unit for each of the woken threads, and none of them is on the list. -/
structure Supplied (s : ι) (woken : List ℕ) (k : Kernel ι) : Prop where
  lists : ListInv k
  units : ((k.stillWaiting s woken).card : ℤ) ≤ (k.semaphore s).value.toInt
  away : ∀ t ∈ woken, t ∉ (k.semaphore s).semWaitList

/-- No woken thread finds the counter at zero, whatever the scheduler does. -/
theorem Supplied.step {woken : List ℕ} {op : SemOp ι} {e : Option (SemEvent ι)}
    (h : Supplied s woken k) (hallowed : op.Allowed cores k) (honly : OnlyRerun s woken k op)
    (hstep : semStep cores k op = .ok (e, k')) : Supplied s woken k' := by
  have hlists := h.lists.step hallowed hstep
  cases h.lists.rerun hallowed honly hstep with
  | kept hsem hwaits =>
      refine ⟨hlists, ?_, ?_⟩
      · rw [stillWaiting_congr hwaits, hsem]
        exact h.units
      · rw [hsem]
        exact h.away
  | took cur hwoken hcur hunit hsem hwaits =>
      have hleave := card_stillWaiting_leave hwoken hcur hwaits
      have hunits := h.units
      refine ⟨hlists, ?_, ?_⟩
      · rw [hsem]
        dsimp only
        rw [toInt_sub_one hunit]
        omega
      · rw [hsem]
        exact h.away
  | slept cur hwoken hcur hunit hsem hwaits =>
      have hpos : 0 < (k.stillWaiting s woken).card :=
        Finset.card_pos.mpr ⟨cur, mem_stillWaiting.mpr ⟨hwoken, hcur⟩⟩
      have hunits := h.units
      omega
  | ended cur c hop hrun hwoken hcur hterminated hsem hwaits =>
      have hleave := card_stillWaiting_leave hwoken hcur hwaits
      have hunits := h.units
      refine ⟨hlists, ?_, ?_⟩
      · rw [hsem]
        omega
      · rw [hsem]
        exact h.away

/-- The units that were taken since the counter had the value `units`. -/
structure Counted (s : ι) (woken : List ℕ) (units : ℤ) (k : Kernel ι) : Prop where
  lists : ListInv k
  total : (k.semaphore s).value.toInt + woken.length =
    units + (k.stillWaiting s woken).card
  low : (k.stillWaiting s woken).card = woken.length ∨ 0 ≤ (k.semaphore s).value.toInt

theorem Counted.step {woken : List ℕ} {units : ℤ} {op : SemOp ι} {e : Option (SemEvent ι)}
    (h : Counted s woken units k) (hallowed : op.Allowed cores k)
    (honly : OnlyRerun s woken k op) (halive : GoesOnAlive k op)
    (hstep : semStep cores k op = .ok (e, k')) : Counted s woken units k' := by
  have hlists := h.lists.step hallowed hstep
  have htotal := h.total
  have hlow := h.low
  cases h.lists.rerun hallowed honly hstep with
  | kept hsem hwaits =>
      refine ⟨hlists, ?_, ?_⟩
      · rw [stillWaiting_congr hwaits, hsem]
        exact htotal
      · rw [stillWaiting_congr hwaits, hsem]
        exact hlow
  | took cur hwoken hcur hunit hsem hwaits =>
      have hleave := card_stillWaiting_leave hwoken hcur hwaits
      have hvalue : (k'.semaphore s).value.toInt = (k.semaphore s).value.toInt - 1 := by
        rw [hsem]
        exact toInt_sub_one hunit
      refine ⟨hlists, ?_, ?_⟩
      · omega
      · omega
  | slept cur hwoken hcur hunit hsem hwaits =>
      refine ⟨hlists, ?_, ?_⟩
      · rw [stillWaiting_congr hwaits, hsem]
        exact htotal
      · rw [stillWaiting_congr hwaits, hsem]
        exact hlow
  | ended cur c hop hrun hwoken hcur hterminated hsem hwaits =>
      subst hop
      rw [halive cur hrun.2] at hterminated
      cases hterminated

/-! ## Every run -/

omit [DecidableEq ι] in
theorem listInv_semStart (σ : Scheduler) : ListInv (semStart (ι := ι) σ).kernel where
  linked _ _ := iff_of_false List.not_mem_nil nofun
  nodup _ := List.nodup_nil
  waits _ _ := nofun
  listed _ hne := absurd rfl hne

theorem ListInv.nodup_waiters (h : ListInv k) (s : ι) : (k.waiters s).Nodup :=
  (h.nodup s).filter _

theorem ListInv.card_stillWaiting_waiters (h : ListInv k) (hpoint : k'.point = k.point) :
    (k'.stillWaiting s (k.waiters s)).card = (k.waiters s).length := by
  have hall : k'.stillWaiting s (k.waiters s) = (k.waiters s).toFinset := by
    refine Finset.filter_true_of_mem fun t ht => ?_
    rw [hpoint]
    exact of_decide_eq_true (List.mem_filter.mp (List.mem_toFinset.mp ht)).2
  rw [hall, List.toFinset_card_of_nodup (h.nodup_waiters s)]

/-- What `NX_SemaphoreSignalAll` leaves, when threads are on the list. -/
theorem ListInv.signalAll {err : NxError} (h : ListInv k) (hne : k.waiters s ≠ [])
    (hrun : semaphoreSignalAll cores k (some s) = .ok (err, k')) :
    ∃ woken, Signalled k k' s woken ∧ (0 < ((k.semaphore s).value + 1).toInt →
      woken = (k.semaphore s).semWaitList) := by
  refine h.raise (fun list => List.Subset.refl list) (h.listed s ?_) hrun
  intro hnil
  refine hne ?_
  unfold Kernel.waiters
  rw [hnil]
  rfl

theorem ListInv.counted {err : NxError} (h : ListInv k) (hne : k.waiters s ≠ [])
    (hrun : semaphoreSignalAll cores k (some s) = .ok (err, k')) :
    Counted s (k.waiters s) ((k.semaphore s).value + 1).toInt k' := by
  obtain ⟨woken, hsignalled, -⟩ := h.signalAll hne hrun
  have hcard := h.card_stillWaiting_waiters (s := s) hsignalled.point
  refine ⟨hsignalled.lists, ?_, Or.inl hcard⟩
  rw [hsignalled.value, hcard]

theorem ListInv.supplied {err : NxError} (h : ListInv k) (hne : k.waiters s ≠ [])
    (hunits : ((k.waiters s).length : ℤ) ≤ ((k.semaphore s).value + 1).toInt)
    (hrun : semaphoreSignalAll cores k (some s) = .ok (err, k')) :
    Supplied s (k.waiters s) k' := by
  obtain ⟨woken, hsignalled, hwoken⟩ := h.signalAll hne hrun
  have hlength := List.length_pos_iff.mpr hne
  have hall := hwoken (by omega)
  refine ⟨hsignalled.lists, ?_, ?_⟩
  · rw [h.card_stillWaiting_waiters hsignalled.point, hsignalled.value]
    exact hunits
  · rw [hsignalled.semWaitList, hall, diff_self]
    exact fun _ _ => List.not_mem_nil

/-- In every run, when there is a unit for each thread that waits, none of them is on the list
again after `NX_SemaphoreSignalAll`, as long as there is no further operation on the semaphore.
When no woken thread is terminated, and all of them ran again, this is so only then. -/
theorem semReachable_signalAll (cores : ℕ) (idle : ℕ → ℕ) (hnull : ∀ c < cores, idle c ≠ 0)
    (hdiffer : ∀ c < cores, ∀ d < cores, idle c = idle d → c = d) :
    ∃ start, threadInitIdle cores idle cores = .ok start ∧
      ∀ (s : ι) (r r₁ : SemRun ι), Reachable (SemMove cores) (semStart start) r →
        SemMove cores r (.signalAll (some s)) r₁ →
        (r.kernel.UnitsForAll s → ∀ r₂,
          Reachable (SemMoveWhen cores (OnlyRerun s (r.kernel.waiters s))) r₁ r₂ →
          ∀ t ∈ r.kernel.waiters s, t ∉ (r₂.kernel.semaphore s).semWaitList) ∧
        ∀ r₂, Reachable (SemMoveWhen cores fun k op =>
            OnlyRerun s (r.kernel.waiters s) k op ∧ GoesOnAlive k op) r₁ r₂ →
          (∀ t ∈ r.kernel.waiters s, ¬r₂.kernel.AwaitsRound s t) →
          ((∀ t ∈ r.kernel.waiters s, t ∉ (r₂.kernel.semaphore s).semWaitList) ↔
            r.kernel.UnitsForAll s) := by
  obtain ⟨start, hboot, -⟩ := threadInitIdle_inv idle hnull hdiffer (Nat.le_refl cores)
  refine ⟨start, hboot, fun s r r₁ hreach hsignal => ?_⟩
  have hlists : ListInv r.kernel :=
    hreach.invariant (P := fun r => ListInv r.kernel) (listInv_semStart start)
      fun h ⟨hallowed, e, hstep, _⟩ => h.step hallowed hstep
  obtain ⟨-, e, hstep, -⟩ := hsignal
  obtain ⟨⟨err, k₁⟩, hrun, hrest⟩ := exec_bind_eq_ok_iff.mp hstep
  obtain rfl := (Prod.mk.inj (Except.ok.inj hrest)).2
  have hsufficient : r.kernel.UnitsForAll s → ∀ r₂,
      Reachable (SemMoveWhen cores (OnlyRerun s (r.kernel.waiters s))) r₁ r₂ →
      ∀ t ∈ r.kernel.waiters s, t ∉ (r₂.kernel.semaphore s).semWaitList := by
    intro hunits r₂ hrerun t ht
    have hne := List.ne_nil_of_mem ht
    have hsupplied : Supplied s (r.kernel.waiters s) r₂.kernel :=
      hrerun.invariant (P := fun r₂ => Supplied s (r.kernel.waiters s) r₂.kernel)
        (hlists.supplied hne (hunits.resolve_left hne) hrun)
        fun h ⟨honly, hallowed, e, hstep, _⟩ => h.step hallowed honly hstep
    exact hsupplied.away t ht
  refine ⟨hsufficient, fun r₂ hrerun hran => ⟨fun haway => ?_, fun hunits =>
    hsufficient hunits r₂ (hrerun.mono fun hmove => ⟨hmove.1.1, hmove.2⟩)⟩⟩
  by_cases hne : r.kernel.waiters s = []
  · exact Or.inl hne
  · have hcounted : Counted s (r.kernel.waiters s) ((r.kernel.semaphore s).value + 1).toInt
        r₂.kernel :=
      hrerun.invariant (P := fun r₂ => Counted s (r.kernel.waiters s)
          ((r.kernel.semaphore s).value + 1).toInt r₂.kernel) (hlists.counted hne hrun)
        fun h ⟨⟨honly, halive⟩, hallowed, e, hstep, _⟩ => h.step hallowed honly halive hstep
    -- All of them left, and each took a unit.
    have hleft : (r₂.kernel.stillWaiting s (r.kernel.waiters s)).card = 0 := by
      refine Finset.card_eq_zero.mpr (Finset.eq_empty_of_forall_notMem fun t ht => ?_)
      obtain ⟨hmem, hwaits⟩ := mem_stillWaiting.mp ht
      exact hran t hmem ⟨hwaits, haway t hmem⟩
    have htotal := hcounted.total
    have hlow := hcounted.low
    have hlength := List.length_pos_iff.mpr hne
    exact Or.inr (by omega)

/-! ## One and two sleepers -/

instance (k : Kernel ι) (s : ι) : Decidable (k.UnitsForAll s) :=
  inferInstanceAs (Decidable (_ ∨ _))

instance (k : Kernel ι) (s : ι) (t : ℕ) : Decidable (k.AwaitsRound s t) :=
  inferInstanceAs (Decidable (_ ∧ _))

instance (s : ι) (woken : List ℕ) (k : Kernel ι) (op : SemOp ι) :
    Decidable (OnlyRerun s woken k op) :=
  match op with
  | .init sem _ => inferInstanceAs (Decidable (sem ≠ some s))
  | .wait _ sem => inferInstanceAs (Decidable (sem ≠ some s))
  | .goOn c => inferInstanceAs (Decidable (∀ cur ∈ (k.sched.cpuArray c).threadRunning,
      (k.point cur).waitsFor = some s → cur ∈ woken))
  | .tryWait sem => inferInstanceAs (Decidable (sem ≠ some s))
  | .signal sem => inferInstanceAs (Decidable (sem ≠ some s))
  | .signalAll sem => inferInstanceAs (Decidable (sem ≠ some s))
  | .sched _ => .isTrue trivial

instance (k : Kernel ι) (op : SemOp ι) : Decidable (GoesOnAlive k op) :=
  match op with
  | .goOn c => inferInstanceAs (Decidable (∀ cur ∈ (k.sched.cpuArray c).threadRunning,
      (k.sched.thread cur).isTerminated = false))
  | .init .. => .isTrue trivial
  | .wait .. => .isTrue trivial
  | .tryWait _ => .isTrue trivial
  | .signal _ => .isTrue trivial
  | .signalAll _ => .isTrue trivial
  | .sched _ => .isTrue trivial

/-- After some operations all threads that wait for the semaphore `9` are woken, and other
operations follow. -/
def signalAllRun (before after : List (SemOp ℕ)) : Option (SemRun ℕ × SemRun ℕ × SemRun ℕ) :=
  (performSem (fun _ _ => True) 1 before).bind fun r =>
    (semStepWhen (fun _ _ => True) 1 r (.signalAll (some 9))).bind fun r₁ =>
      (perform (semStepWhen (fun k op => OnlyRerun 9 (r.kernel.waiters 9) k op ∧
        GoesOnAlive k op) 1) r₁ after).map fun r₂ => (r, r₁, r₂)

theorem reachable_of_signalAllRun {before after : List (SemOp ℕ)} {r r₁ r₂ : SemRun ℕ}
    (h : signalAllRun before after = some (r, r₁, r₂)) :
    ∃ start, threadInitIdle 1 (· + 1) 1 = .ok start ∧
      Reachable (SemMove 1) (semStart start) r ∧ SemMove 1 r (.signalAll (some 9)) r₁ ∧
      Reachable (SemMoveWhen 1 fun k op => OnlyRerun 9 (r.kernel.waiters 9) k op ∧
        GoesOnAlive k op) r₁ r₂ := by
  obtain ⟨ρ, hbefore, h⟩ := Option.bind_eq_some_iff.mp h
  obtain ⟨ρ₁, hsignal, h⟩ := Option.bind_eq_some_iff.mp h
  obtain ⟨ρ₂, hafter, heq⟩ := Option.map_eq_some_iff.mp h
  cases heq
  obtain ⟨start, hboot, hreach⟩ := reachable_of_performSem hbefore
  exact ⟨start, hboot, hreach.mono fun hmove => hmove.2, (semMove_of_semStepWhen hsignal).2,
    .of_perform semMove_of_semStepWhen hafter⟩

/-- Thread `5` is the only one that waits. -/
theorem semReachable_signalAll_oneSleeper :
    ∃ (start : Scheduler) (r r₁ r₂ : SemRun ℕ), threadInitIdle 1 (· + 1) 1 = .ok start ∧
      Reachable (SemMove 1) (semStart start) r ∧ SemMove 1 r (.signalAll (some 9)) r₁ ∧
      r.kernel.waiters 9 = [5] ∧ ¬r₂.kernel.AwaitsRound 9 5 ∧
      5 ∉ (r₂.kernel.semaphore 9).semWaitList := by
  obtain ⟨start, hboot, hruns⟩ := semReachable_signalAll (ι := ℕ) 1 (· + 1)
    (fun _ _ => Nat.succ_ne_zero _) fun _ _ _ _ => Nat.succ.inj
  have heval : (signalAllRun oneSleeperRun [.sched (.yield 0), .goOn 0]).map (fun r =>
      decide (r.1.kernel.waiters 9 = [5] ∧ r.1.kernel.UnitsForAll 9 ∧
        ¬r.2.2.kernel.AwaitsRound 9 5)) = some true := by
    decide +kernel
  obtain ⟨⟨r, r₁, r₂⟩, hrun, hr⟩ := Option.map_eq_some_iff.mp heval
  obtain ⟨hwaiters, hunits, hran⟩ := of_decide_eq_true hr
  obtain ⟨start', hboot', hreach, hsignal, hrerun⟩ := reachable_of_signalAllRun hrun
  obtain rfl := Except.ok.inj (hboot.symm.trans hboot')
  refine ⟨start, r, r₁, r₂, hboot, hreach, hsignal, hwaiters, hran, ?_⟩
  have hall : ∀ t ∈ r.kernel.waiters 9, ¬r₂.kernel.AwaitsRound 9 t := by
    rw [hwaiters]
    intro t ht
    rw [List.mem_singleton.mp ht]
    exact hran
  refine ((hruns 9 r r₁ hreach hsignal).2 r₂ hrerun hall).mpr hunits 5 ?_
  rw [hwaiters]
  exact List.mem_singleton_self 5

/-- Threads `5` and `6` sleep on a semaphore, and are woken and run again: one of them is on the
list again. -/
theorem semaphoreSignalAll_oneSleepsAgain :
    ∃ (start : Scheduler) (r r₁ r₂ : SemRun ℕ), threadInitIdle 1 (· + 1) 1 = .ok start ∧
      Reachable (SemMove 1) (semStart start) r ∧ SemMove 1 r (.signalAll (some 9)) r₁ ∧
      Reachable (SemMoveWhen 1 fun k op => OnlyRerun 9 (r.kernel.waiters 9) k op ∧
        GoesOnAlive k op) r₁ r₂ ∧
      r.kernel.waiters 9 = [5, 6] ∧ (∀ t ∈ r.kernel.waiters 9, ¬r₂.kernel.AwaitsRound 9 t) ∧
      5 ∈ (r₂.kernel.semaphore 9).semWaitList ∧ (r₂.kernel.sched.thread 5).state = .blocked := by
  have heval : (signalAllRun
      [.init (some 9) 0, .sched (.toFirst 0), .sched (.create 5 3), .sched (.start 5),
        .sched (.create 6 3), .sched (.start 6), .sched (.yield 0), .wait 0 (some 9), .goOn 0,
        .wait 0 (some 9), .goOn 0]
      [.sched (.yield 0), .goOn 0, .sched (.yield 0), .goOn 0]).map (fun r =>
      decide (r.1.kernel.waiters 9 = [5, 6] ∧
        (∀ t ∈ r.1.kernel.waiters 9, ¬r.2.2.kernel.AwaitsRound 9 t) ∧
        5 ∈ (r.2.2.kernel.semaphore 9).semWaitList ∧
        (r.2.2.kernel.sched.thread 5).state = .blocked)) = some true := by
    decide +kernel
  obtain ⟨⟨r, r₁, r₂⟩, hrun, hr⟩ := Option.map_eq_some_iff.mp heval
  obtain ⟨hwaiters, hran, hlisted, hblocked⟩ := of_decide_eq_true hr
  obtain ⟨start, hboot, hreach, hsignal, hrerun⟩ := reachable_of_signalAllRun hrun
  exact ⟨start, r, r₁, r₂, hboot, hreach, hsignal, hrerun, hwaiters, hran, hlisted, hblocked⟩

end Nxos.Sched
