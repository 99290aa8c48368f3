import Nxos.Sched.Semaphore.Lists

/-!
# Waiting at a counter of zero

`NX_SemaphoreState` takes a counter of zero for waiting threads.  Threads wait at a counter of
zero as long as none goes to sleep at a negative counter, and a signal leaves no thread on the
list.  The scheduler does not matter: it may terminate, suspend and resume the threads.
-/

namespace Nxos.Sched

variable {ι : Type} {cores : ℕ} {k k' : Kernel ι} {s : ι} {t cur c : ℕ}

/-! ## Counters -/

def BusyWaited (k : Kernel ι) : Prop :=
  ∀ s, (k.semaphore s).semWaitList ≠ [] → (k.semaphore s).value = 0

theorem BusyWaited.empty (h : BusyWaited k) (hstate : semaphoreState k (some s) = .eok) :
    (k.semaphore s).semWaitList = [] := by
  by_contra hne
  unfold semaphoreState at hstate
  rcases semaphoreCheck_cases k (some s) with ⟨err, herr, hcheck⟩ | ⟨s', hs, -, hcheck⟩
  · rw [hcheck] at hstate
    exact herr hstate
  · obtain rfl := Option.some.inj hs
    rw [hcheck] at hstate
    simp only [h s hne, if_true] at hstate
    cases hstate

/-- A thread does not go to sleep at a negative counter, and a signal that wakes one thread
finds no other one. -/
def SleepsAtZero (k : Kernel ι) : SemOp ι → Prop
  | .goOn coreId => ∀ s ∈ k.nextRound coreId, 0 ≤ (k.semaphore s).value.toInt
  | .signal sem => ∀ s ∈ sem, (k.semaphore s).semWaitList.length ≤ 1
  | _ => True

/-! ## Operations -/

namespace BusyWaited

variable [DecidableEq ι]

theorem take (hb : BusyWaited k) (hunit : 0 < (k.semaphore s).value.toInt) :
    BusyWaited (k.setValue s ((k.semaphore s).value - 1)) := by
  intro s' hne
  rw [Kernel.setValue, Kernel.setSemaphore] at hne ⊢
  by_cases hs : s' = s
  · simp only [hs, Function.update_self] at hne
    rw [hb s hne] at hunit
    exact absurd hunit (by decide)
  · simp only [Function.update_of_ne hs] at hne ⊢
    exact hb s' hne

theorem sleep (hb : BusyWaited k) (hvalue : (k.semaphore s).value = 0) :
    BusyWaited (listAddTail k t s) := by
  intro s' hne
  rw [listAddTail] at hne ⊢
  by_cases hs : s' = s
  · simp only [hs, Function.update_self]
    exact hvalue
  · simp only [Function.update_of_ne hs] at hne ⊢
    exact hb s' hne

theorem round {err : Option NxError} (hb : BusyWaited k)
    (hsleep : 0 ≤ (k.semaphore s).value.toInt)
    (hrun : semaphoreWaitRound cores k c cur s = .ok (err, k')) :
    BusyWaited k' ∧ ∀ s, (k'.semaphore s).magic = (k.semaphore s).magic := by
  rcases semaphoreWaitRound_cases hrun with ⟨hunit, rfl⟩ | ⟨hunit, σ, point, -, rfl⟩
  · exact ⟨hb.take hunit, ListInv.magic_setValue _⟩
  · have hzero : (k.semaphore s).value = 0 :=
      BitVec.eq_of_toInt_eq (Int.le_antisymm hunit hsleep)
    -- The thread is linked, unless it was resumed while it was linked.
    by_cases hfree : k.blockList cur = none
    · rw [if_pos hfree]
      exact ⟨hb.sleep hzero, ListInv.magic_setSemaphore rfl⟩
    · rw [if_neg hfree]
      exact ⟨hb, fun _ => rfl⟩

theorem goOn {err : Option NxError} (hb : BusyWaited k) (hsleep : SleepsAtZero k (.goOn c))
    (hallowed : (SemOp.goOn c).Allowed cores k)
    (hrun : semaphoreGoOn cores k c = .ok (err, k')) :
    BusyWaited k' ∧ ∀ s, (k'.semaphore s).magic = (k.semaphore s).magic := by
  obtain ⟨cur, s, -, -, ⟨hnext, hround⟩ | ⟨-, σ, rfl⟩⟩ := semaphoreGoOn_cases hallowed hrun
  · exact hb.round (hsleep s hnext) hround
  · exact ⟨hb, fun _ => rfl⟩

theorem raise {wake : List ℕ → List ℕ} {sem : Option ι} {err : NxError} (hb : BusyWaited k)
    (h : ListInv k)
    (hwake : ∀ s ∈ sem, wake (k.semaphore s).semWaitList = (k.semaphore s).semWaitList)
    (hsub : ∀ list, wake list ⊆ list)
    (hrun : semaphoreRaise cores wake k sem = .ok (err, k')) : BusyWaited k' := by
  rcases semaphoreCheck_cases k sem with ⟨err', -, hcheck⟩ | ⟨s, rfl, hmagic, -⟩
  · rw [semaphoreRaise_of_error hcheck hrun]
    exact hb
  · obtain ⟨woken, hsignalled, hwoken⟩ := h.raise hsub hmagic hrun
    intro s' hne
    by_cases hs : s' = s
    · subst hs
      have hbefore : (k.semaphore s').semWaitList ≠ [] := by
        intro hnil
        rw [hsignalled.semWaitList, hnil] at hne
        exact hne (List.nil_diff woken)
      have hall := hwoken (by rw [hb s' hbefore]; decide)
      rw [hsignalled.semWaitList, hall, hwake s' rfl, diff_self] at hne
      exact absurd rfl hne
    · rw [hsignalled.other s' hs] at hne ⊢
      exact hb s' hne

end BusyWaited

/-- Threads wait on the lists at a counter of zero, for semaphores that were initialised in
the kernel `k`. -/
structure ZeroWaited (k k' : Kernel ι) : Prop where
  lists : ListInv k'
  busy : BusyWaited k'
  magic : ∀ s, (k'.semaphore s).magic = (k.semaphore s).magic

theorem ZeroWaited.step [DecidableEq ι] {op : SemOp ι} {e : Option (SemEvent ι)} (h : ListInv k)
    (hb : BusyWaited k) (hsleep : SleepsAtZero k op) (hallowed : op.Allowed cores k)
    (hinit : ∀ sem value, op ≠ .init sem value) (hstep : semStep cores k op = .ok (e, k')) :
    ZeroWaited k k' := by
  have hlists := h.step hallowed hstep
  cases op with
  | init sem value => exact absurd rfl (hinit sem value)
  | wait coreId sem =>
      obtain ⟨⟨err, k₁⟩, hrun, hrest⟩ := exec_bind_eq_ok_iff.mp hstep
      obtain rfl := (Prod.mk.inj (Except.ok.inj hrest)).2
      unfold semaphoreWait at hrun
      rcases semaphoreCheck_cases k sem with ⟨err, -, hcheck⟩ | ⟨s, -, hmagic, hcheck⟩
      · rw [hcheck] at hrun
        obtain rfl := (Prod.mk.inj (Except.ok.inj hrun)).2
        exact ⟨hlists, hb, fun _ => rfl⟩
      · rw [hcheck] at hrun
        obtain ⟨cur, -, hrest⟩ := exec_bind_eq_ok_iff.mp hrun
        obtain rfl := (Prod.mk.inj (Except.ok.inj hrest)).2
        exact ⟨hlists, hb, fun _ => rfl⟩
  | goOn coreId =>
      obtain ⟨⟨err, k₁⟩, hrun, hrest⟩ := exec_bind_eq_ok_iff.mp hstep
      obtain rfl := (Prod.mk.inj (Except.ok.inj hrest)).2
      obtain ⟨hbusy, hmagic⟩ := hb.goOn hsleep hallowed hrun
      exact ⟨hlists, hbusy, hmagic⟩
  | tryWait sem =>
      obtain rfl := (Prod.mk.inj (Except.ok.inj hstep)).2
      rcases semaphoreCheck_cases k sem with ⟨err, -, hcheck⟩ | ⟨s, -, -, hcheck⟩
      · rw [hcheck] at hlists ⊢
        exact ⟨hlists, hb, fun _ => rfl⟩
      · rw [hcheck] at hlists ⊢
        by_cases hunit : 0 < (k.semaphore s).value.toInt
        · simp only [if_pos hunit] at hlists ⊢
          exact ⟨hlists, hb.take hunit, ListInv.magic_setValue _⟩
        · simp only [if_neg hunit] at hlists ⊢
          exact ⟨hlists, hb, fun _ => rfl⟩
  | signal sem =>
      obtain ⟨⟨err, k₁⟩, hrun, hrest⟩ := exec_bind_eq_ok_iff.mp hstep
      obtain rfl := (Prod.mk.inj (Except.ok.inj hrest)).2
      have hall := fun s hs => List.take_of_length_le (hsleep s hs)
      have hbusy := hb.raise h hall (fun list => List.take_subset 1 list) hrun
      exact ⟨hlists, hbusy, h.raise_magic hrun⟩
  | signalAll sem =>
      obtain ⟨⟨err, k₁⟩, hrun, hrest⟩ := exec_bind_eq_ok_iff.mp hstep
      obtain rfl := (Prod.mk.inj (Except.ok.inj hrest)).2
      have hbusy := hb.raise h (fun _ _ => rfl) (fun list => List.Subset.refl list) hrun
      exact ⟨hlists, hbusy, h.raise_magic hrun⟩
  | sched op =>
      obtain ⟨σ, -, hrest⟩ := exec_bind_eq_ok_iff.mp hstep
      obtain rfl := (Prod.mk.inj (Except.ok.inj hrest)).2
      exact ⟨hlists, hb, fun _ => rfl⟩

end Nxos.Sched
