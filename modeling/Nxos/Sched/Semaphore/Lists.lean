import Nxos.Sched.Semaphore.Counting

/-!
# The wait lists

The nodes of the threads are linked on the wait lists of initialised semaphores, whatever the
threads do and whatever the scheduler does to them.
-/

namespace Nxos.Sched

variable {ι : Type} {cores : ℕ} {k k' : Kernel ι} {s : ι} {t cur c : ℕ}

/-- The nodes of the threads are linked on the lists of initialised semaphores. -/
structure ListInv (k : Kernel ι) : Prop where
  linked : ∀ t s, t ∈ (k.semaphore s).semWaitList ↔ k.blockList t = some s
  nodup : ∀ s, (k.semaphore s).semWaitList.Nodup
  waits : ∀ t s, (k.point t).waitsFor = some s → (k.semaphore s).magic = semaphoreMagic
  listed : ∀ s, (k.semaphore s).semWaitList ≠ [] → (k.semaphore s).magic = semaphoreMagic

theorem diff_self (list : List ℕ) : list.diff list = [] := by
  induction list with
  | nil => rfl
  | cons t list ih => rw [List.diff_cons, List.erase_cons_head, ih]

namespace ListInv

theorem congr (h : ListInv k)
    (hwait : ∀ s, (k'.semaphore s).semWaitList = (k.semaphore s).semWaitList)
    (hmagic : ∀ s, (k.semaphore s).magic = semaphoreMagic →
      (k'.semaphore s).magic = semaphoreMagic)
    (hlist : k'.blockList = k.blockList)
    (hpoint : ∀ t s, (k'.point t).waitsFor = some s → (k.point t).waitsFor = some s ∨
      (k'.semaphore s).magic = semaphoreMagic) : ListInv k' := by
  refine ⟨fun t s => ?_, fun s => ?_, fun t s hs => ?_, fun s hne => ?_⟩
  · rw [hwait, hlist]
    exact h.linked t s
  · rw [hwait]
    exact h.nodup s
  · rcases hpoint t s hs with hbefore | hnow
    · exact hmagic s (h.waits t s hbefore)
    · exact hnow
  · rw [hwait] at hne
    exact hmagic s (h.listed s hne)

theorem withSched (h : ListInv k) (σ : Scheduler) : ListInv { k with sched := σ } :=
  h.congr (fun _ => rfl) (fun _ => id) rfl fun _ _ => Or.inl

/-- The thread goes on to a point outside, or to wait for an initialised semaphore. -/
theorem setPoint (h : ListInv k) {point : WaitPoint ι}
    (hnew : ∀ s, point.waitsFor = some s → (k.semaphore s).magic = semaphoreMagic) :
    ListInv (k.setPoint t point) := by
  refine h.congr (fun _ => rfl) (fun _ => id) rfl fun u s hs => ?_
  rcases waitsFor_update hs with ⟨-, hnow⟩ | hbefore
  · exact .inr (hnew s hnow)
  · exact .inl hbefore

variable [DecidableEq ι]

theorem setSemaphore (h : ListInv k) {sem : Semaphore}
    (hwait : sem.semWaitList = (k.semaphore s).semWaitList)
    (hmagic : (k.semaphore s).magic = semaphoreMagic → sem.magic = semaphoreMagic) :
    ListInv (k.setSemaphore s sem) := by
  refine h.congr (sameList_of_update rfl hwait) (fun s' hs' => ?_) rfl fun u s hs => .inl hs
  show (Function.update k.semaphore s sem s').magic = semaphoreMagic
  by_cases hs : s' = s
  · subst hs
    rw [Function.update_self]
    exact hmagic hs'
  · rw [Function.update_of_ne hs]
    exact hs'

theorem setValue (h : ListInv k) (value : BitVec 64) : ListInv (k.setValue s value) :=
  h.setSemaphore rfl id

theorem link (h : ListInv k) (hfree : k.blockList t = none)
    (hmagic : (k.semaphore s).magic = semaphoreMagic) : ListInv (listAddTail k t s) := by
  have hnew : t ∉ (k.semaphore s).semWaitList := by
    rw [h.linked, hfree]
    exact fun hno => by cases hno
  unfold listAddTail
  refine ⟨fun u s' => ?_, fun s' => ?_, fun u s' hs' => ?_, fun s' hne => ?_⟩
  · simp only [Function.update_apply]
    by_cases hs : s' = s <;> by_cases hu : u = t
    · simp [hs, hu]
    · simp [hs, hu, h.linked]
    · simp [hs, hu, h.linked, hfree, Ne.symm hs]
    · simp [hs, hu, h.linked]
  · by_cases hs : s' = s
    · simp only [hs, Function.update_self]
      exact (h.nodup s).append (List.nodup_singleton t) (List.disjoint_singleton.mpr hnew)
    · simp only [Function.update_of_ne hs]
      exact h.nodup s'
  · by_cases hs : s' = s
    · simp only [hs, Function.update_self]
      exact hmagic
    · simp only [Function.update_of_ne hs]
      exact h.waits u s' hs'
  · by_cases hs : s' = s
    · simp only [hs, Function.update_self]
      exact hmagic
    · simp only [Function.update_of_ne hs] at hne ⊢
      exact h.listed s' hne

theorem listDelInit_eq (h : ListInv k) (t : ℕ) : listDelInit k t =
    { k with
      semaphore := fun s =>
        { k.semaphore s with semWaitList := (k.semaphore s).semWaitList.erase t }
      blockList := Function.update k.blockList t none } := by
  have hother : ∀ s, k.blockList t ≠ some s →
      { k.semaphore s with semWaitList := (k.semaphore s).semWaitList.erase t } =
        k.semaphore s := by
    intro s hs
    have hnot : t ∉ (k.semaphore s).semWaitList := fun hmem => hs ((h.linked t s).mp hmem)
    rw [List.erase_of_not_mem hnot]
  unfold listDelInit
  cases hlink : k.blockList t with
  | none =>
      have hsame : Function.update k.blockList t none = k.blockList := by
        rw [← hlink, Function.update_eq_self]
      rw [hsame, show (fun s => _) = k.semaphore from funext fun s => hother s (by simp [hlink])]
  | some s =>
      simp only
      congr 1
      funext s'
      by_cases hs : s' = s
      · rw [hs, Function.update_self]
      · rw [Function.update_of_ne hs, hother s' (by simp [hlink, Ne.symm hs])]

theorem unlink (h : ListInv k) (t : ℕ) : ListInv (listDelInit k t) := by
  rw [h.listDelInit_eq]
  refine ⟨fun u s => ?_, fun s => (h.nodup s).erase t, h.waits, fun s hne => ?_⟩
  · simp only [(h.nodup s).mem_erase_iff, h.linked, Function.update_apply]
    by_cases hu : u = t <;> simp [hu]
  · exact h.listed s fun hnil => hne (by simp [hnil])

theorem wakeup_foldlM {woken : List ℕ} (h : ListInv k)
    (hfold : woken.foldlM (wakeup cores) k = .ok k') :
    ListInv k' ∧ ∀ s, k'.semaphore s =
      { k.semaphore s with semWaitList := (k.semaphore s).semWaitList.diff woken } := by
  induction woken generalizing k with
  | nil =>
      obtain rfl : k = k' := Except.ok.inj hfold
      exact ⟨h, fun s => rfl⟩
  | cons t woken ih =>
      rw [List.foldlM_cons, exec_bind_eq_ok_iff] at hfold
      obtain ⟨k₁, hwake, hrest⟩ := hfold
      unfold wakeup at hwake
      obtain ⟨r, -, hk₁⟩ := exec_bind_eq_ok_iff.mp hwake
      obtain rfl : { listDelInit k t with sched := r.2 } = k₁ := Except.ok.inj hk₁
      obtain ⟨hinv, hlists⟩ := ih ((h.unlink t).withSched r.2) hrest
      refine ⟨hinv, fun s => ?_⟩
      rw [hlists, List.diff_cons]
      simp only [h.listDelInit_eq]

theorem magic_setSemaphore {sem : Semaphore} (hmagic : sem.magic = (k.semaphore s).magic)
    (s' : ι) : ((k.setSemaphore s sem).semaphore s').magic = (k.semaphore s').magic := by
  rw [Kernel.setSemaphore]
  by_cases hs : s' = s
  · simp only [hs, Function.update_self, hmagic]
  · simp only [Function.update_of_ne hs]

theorem magic_setValue (value : BitVec 64) (s' : ι) :
    ((k.setValue s value).semaphore s').magic = (k.semaphore s').magic := by
  apply magic_setSemaphore
  rfl

end ListInv

variable [DecidableEq ι]

/-! ## What an operation does -/

/-- A round of the loop takes a unit, or the thread goes on waiting on the list. -/
theorem semaphoreWaitRound_cases {err : Option NxError}
    (hrun : semaphoreWaitRound cores k c cur s = .ok (err, k')) :
    (0 < (k.semaphore s).value.toInt ∧
      k' = (k.setValue s ((k.semaphore s).value - 1)).setPoint cur .outside) ∨
    ((k.semaphore s).value.toInt ≤ 0 ∧ ∃ σ point, point.waitsFor = some s ∧
      k' = { (if k.blockList cur = none then listAddTail k cur s else k) with
        sched := σ }.setPoint cur point) := by
  unfold semaphoreWaitRound at hrun
  by_cases hunit : 0 < (k.semaphore s).value.toInt
  · rw [if_pos hunit] at hrun
    exact Or.inl ⟨hunit, (Prod.mk.inj (Except.ok.inj hrun)).2.symm⟩
  · rw [if_neg hunit] at hrun
    obtain ⟨⟨err', σ⟩, -, hrest⟩ := exec_bind_eq_ok_iff.mp hrun
    obtain ⟨-, -, hrest⟩ := exec_bind_eq_ok_iff.mp hrest
    refine Or.inr ⟨Int.not_lt.mp hunit, σ, ?_⟩
    dsimp only at hrest
    split at hrest
    · exact ⟨.asleep s, rfl, (Prod.mk.inj (Except.ok.inj hrest)).2.symm⟩
    · exact ⟨.loop s, rfl, (Prod.mk.inj (Except.ok.inj hrest)).2.symm⟩
    · cases hrest

/-- The semaphore for which the thread that runs on the core begins a round of the loop. -/
def Kernel.nextRound (k : Kernel ι) (coreId : ℕ) : Option ι :=
  (k.sched.cpuArray coreId).threadRunning.bind fun cur =>
    match k.point cur with
    | .outside => none
    | .loop s => some s
    | .asleep s => if (k.sched.thread cur).isTerminated then none else some s

theorem semaphoreGoOn_cases {err : Option NxError} (hallowed : (SemOp.goOn c).Allowed cores k)
    (hrun : semaphoreGoOn cores k c = .ok (err, k')) :
    ∃ cur s, k.sched.Runs cores c cur ∧ (k.point cur).waitsFor = some s ∧
      (k.nextRound c = some s ∧ semaphoreWaitRound cores k c cur s = .ok (err, k') ∨
        (k.sched.thread cur).isTerminated = true ∧
          ∃ σ, k' = { k with sched := σ }.setPoint cur .outside) := by
  obtain ⟨cur, hcur, hpoint⟩ := hallowed
  have hnext : k.nextRound c = match k.point cur with
      | .outside => none
      | .loop s => some s
      | .asleep s => if (k.sched.thread cur).isTerminated then none else some s := by
    unfold Kernel.nextRound
    rw [hcur.2, Option.bind_some]
  unfold semaphoreGoOn at hrun
  rw [SchedInv.threadSelf_eq hcur, exec_ok_bind] at hrun
  cases hcase : k.point cur with
  | outside => exact absurd hcase hpoint
  | loop s =>
      rw [hcase] at hrun hnext
      exact ⟨cur, s, hcur, by rw [hcase]; rfl, Or.inl ⟨hnext, hrun⟩⟩
  | asleep s =>
      rw [hcase] at hrun hnext
      refine ⟨cur, s, hcur, by rw [hcase]; rfl, ?_⟩
      simp only at hrun hnext
      by_cases hterminated : (k.sched.thread cur).isTerminated = true
      · rw [if_pos hterminated] at hrun
        obtain ⟨σ, -, hrest⟩ := exec_bind_eq_ok_iff.mp hrun
        exact Or.inr ⟨hterminated, σ, (Prod.mk.inj (Except.ok.inj hrest)).2.symm⟩
      · rw [if_neg hterminated] at hrun hnext
        exact Or.inl ⟨hnext, hrun⟩

theorem wakeup_foldlM_point {woken : List ℕ} (hfold : woken.foldlM (wakeup cores) k = .ok k') :
    k'.point = k.point := by
  induction woken generalizing k with
  | nil =>
      obtain rfl : k = k' := Except.ok.inj hfold
      rfl
  | cons t woken ih =>
      rw [List.foldlM_cons, exec_bind_eq_ok_iff] at hfold
      obtain ⟨k₁, hwake, hrest⟩ := hfold
      unfold wakeup at hwake
      obtain ⟨r, -, hk₁⟩ := exec_bind_eq_ok_iff.mp hwake
      obtain rfl : { listDelInit k t with sched := r.2 } = k₁ := Except.ok.inj hk₁
      refine (ih hrest).trans ?_
      show (listDelInit k t).point = k.point
      unfold listDelInit
      cases k.blockList t with
      | none => rfl
      | some s => rfl

theorem semaphoreRaise_of_error {wake : List ℕ → List ℕ} {sem : Option ι} {err err' : NxError}
    (hcheck : semaphoreCheck k sem = .error err)
    (hrun : semaphoreRaise cores wake k sem = .ok (err', k')) : k' = k := by
  unfold semaphoreRaise at hrun
  rw [hcheck] at hrun
  exact (Prod.mk.inj (Except.ok.inj hrun)).2.symm

/-- What a signal does: a unit is added, and the woken threads leave the list. -/
structure Signalled (k k' : Kernel ι) (s : ι) (woken : List ℕ) : Prop where
  lists : ListInv k'
  point : k'.point = k.point
  value : (k'.semaphore s).value = (k.semaphore s).value + 1
  semWaitList : (k'.semaphore s).semWaitList = (k.semaphore s).semWaitList.diff woken
  other : ∀ s', s' ≠ s → k'.semaphore s' = k.semaphore s'

namespace ListInv

/-- A signal for an initialised semaphore wakes threads when the counter is positive. -/
theorem raise {wake : List ℕ → List ℕ} {err : NxError} (h : ListInv k)
    (hwake : ∀ list, wake list ⊆ list) (hmagic : (k.semaphore s).magic = semaphoreMagic)
    (hrun : semaphoreRaise cores wake k (some s) = .ok (err, k')) :
    ∃ woken, Signalled k k' s woken ∧ (0 < ((k.semaphore s).value + 1).toInt →
      woken = wake (k.semaphore s).semWaitList) := by
  have hcheck : semaphoreCheck k (some s) = .ok s := if_neg (not_not.mpr hmagic)
  have hself : (k.setValue s ((k.semaphore s).value + 1)).semaphore s =
      { k.semaphore s with value := (k.semaphore s).value + 1 } :=
    Function.update_self ..
  have hother : ∀ s', s' ≠ s →
      (k.setValue s ((k.semaphore s).value + 1)).semaphore s' = k.semaphore s' :=
    fun s' hs => Function.update_of_ne hs ..
  have hset := h.setValue (s := s) ((k.semaphore s).value + 1)
  unfold semaphoreRaise at hrun
  rw [hcheck] at hrun
  simp only [hself] at hrun
  split at hrun
  · obtain ⟨k₁, hfold, hk₁⟩ := exec_bind_eq_ok_iff.mp hrun
    obtain rfl := (Prod.mk.inj (Except.ok.inj hk₁)).2
    obtain ⟨hinv, hlists⟩ := hset.wakeup_foldlM hfold
    refine ⟨wake (k.semaphore s).semWaitList, ⟨hinv, ?_, ?_, ?_, ?_⟩, fun _ => rfl⟩
    · exact (wakeup_foldlM_point hfold).trans rfl
    · rw [hlists, hself]
    · rw [hlists, hself]
    · intro s' hs
      rw [hlists, hother s' hs]
      have hapart : ∀ t ∈ (k.semaphore s').semWaitList,
          t ∉ wake (k.semaphore s).semWaitList := by
        intro t ht hwoken
        have hlink := (h.linked t s).mp (hwake _ hwoken)
        rw [(h.linked t s').mp ht] at hlink
        exact hs (Option.some.inj hlink)
      rw [(h.nodup s').sdiff_eq_filter, List.filter_eq_self.mpr]
      intro t ht
      exact decide_eq_true (hapart t ht)
  · next hvalue =>
      obtain rfl := (Prod.mk.inj (Except.ok.inj hrun)).2
      refine ⟨[], ⟨hset, rfl, ?_, ?_, hother⟩, fun hpos => absurd hpos hvalue⟩
      · rw [hself]
      · rw [hself, List.diff_nil]

theorem raise_lists {wake : List ℕ → List ℕ} {sem : Option ι} {err : NxError} (h : ListInv k)
    (hwake : ∀ list, wake list ⊆ list)
    (hrun : semaphoreRaise cores wake k sem = .ok (err, k')) : ListInv k' := by
  rcases semaphoreCheck_cases k sem with ⟨err', -, hcheck⟩ | ⟨s, rfl, hmagic, -⟩
  · rw [semaphoreRaise_of_error hcheck hrun]
    exact h
  · obtain ⟨woken, hsignalled, -⟩ := h.raise hwake hmagic hrun
    exact hsignalled.lists

theorem raise_magic {wake : List ℕ → List ℕ} {sem : Option ι} {err : NxError} (h : ListInv k)
    (hrun : semaphoreRaise cores wake k sem = .ok (err, k')) (s : ι) :
    (k'.semaphore s).magic = (k.semaphore s).magic := by
  rcases semaphoreCheck_cases k sem with ⟨err', -, hcheck⟩ | ⟨s₀, rfl, -, hcheck⟩
  · rw [semaphoreRaise_of_error hcheck hrun]
  · have hset := magic_setValue (k := k) (s := s₀) ((k.semaphore s₀).value + 1) s
    unfold semaphoreRaise at hrun
    rw [hcheck] at hrun
    dsimp only at hrun
    split at hrun
    · obtain ⟨k₁, hfold, hk₁⟩ := exec_bind_eq_ok_iff.mp hrun
      obtain rfl := (Prod.mk.inj (Except.ok.inj hk₁)).2
      rw [((h.setValue _).wakeup_foldlM hfold).2 s]
      exact hset
    · obtain rfl := (Prod.mk.inj (Except.ok.inj hrun)).2
      exact hset

theorem linkOnce (h : ListInv k) (cur : ℕ)
    (hmagic : (k.semaphore s).magic = semaphoreMagic) (σ : Scheduler) : ListInv
      { (if k.blockList cur = none then listAddTail k cur s else k) with sched := σ } ∧
    ((if k.blockList cur = none then listAddTail k cur s else k).semaphore s).magic =
      semaphoreMagic := by
  split
  · next hfree =>
      refine ⟨(h.link hfree hmagic).withSched σ, ?_⟩
      unfold listAddTail
      simp only [Function.update_self]
      exact hmagic
  · exact ⟨h.withSched σ, hmagic⟩

theorem goOn {err : Option NxError} (h : ListInv k) (hallowed : (SemOp.goOn c).Allowed cores k)
    (hrun : semaphoreGoOn cores k c = .ok (err, k')) : ListInv k' := by
  obtain ⟨cur, s, -, hwaits, ⟨-, hround⟩ | ⟨-, σ, rfl⟩⟩ := semaphoreGoOn_cases hallowed hrun
  · have hmagic := h.waits cur s hwaits
    rcases semaphoreWaitRound_cases hround with ⟨-, rfl⟩ | ⟨-, σ, point, hpoint, rfl⟩
    · exact (h.setValue _).setPoint nofun
    · obtain ⟨hlinked, hstill⟩ := h.linkOnce cur hmagic σ
      refine hlinked.setPoint fun s' hs' => ?_
      rw [hpoint] at hs'
      cases hs'
      exact hstill
  · exact (h.withSched σ).setPoint nofun

/-- Every operation keeps the nodes linked on the lists of initialised semaphores. -/
theorem step {op : SemOp ι} {e : Option (SemEvent ι)} (h : ListInv k)
    (hallowed : op.Allowed cores k) (hstep : semStep cores k op = .ok (e, k')) : ListInv k' := by
  cases op with
  | init sem value =>
      obtain rfl := (Prod.mk.inj (Except.ok.inj hstep)).2
      cases sem with
      | none => exact h
      | some s =>
          have hempty : (k.semaphore s).semWaitList = [] := by
            by_contra hne
            exact hallowed s rfl (h.listed s hne)
          exact h.setSemaphore hempty.symm fun _ => rfl
  | wait coreId sem =>
      obtain ⟨⟨err, k₁⟩, hrun, hrest⟩ := exec_bind_eq_ok_iff.mp hstep
      obtain rfl := (Prod.mk.inj (Except.ok.inj hrest)).2
      unfold semaphoreWait at hrun
      rcases semaphoreCheck_cases k sem with ⟨err, -, hcheck⟩ | ⟨s, -, hmagic, hcheck⟩
      · rw [hcheck] at hrun
        obtain rfl := (Prod.mk.inj (Except.ok.inj hrun)).2
        exact h
      · rw [hcheck] at hrun
        obtain ⟨cur, -, hrest⟩ := exec_bind_eq_ok_iff.mp hrun
        obtain rfl := (Prod.mk.inj (Except.ok.inj hrest)).2
        refine h.setPoint fun s' hs' => ?_
        cases hs'
        exact hmagic
  | goOn coreId =>
      obtain ⟨⟨err, k₁⟩, hrun, hrest⟩ := exec_bind_eq_ok_iff.mp hstep
      obtain rfl := (Prod.mk.inj (Except.ok.inj hrest)).2
      exact h.goOn hallowed hrun
  | tryWait sem =>
      obtain rfl := (Prod.mk.inj (Except.ok.inj hstep)).2
      rcases semaphoreCheck_cases k sem with ⟨err, -, hcheck⟩ | ⟨s, -, -, hcheck⟩
      · rw [hcheck]
        exact h
      · rw [hcheck]
        dsimp only
        split
        · exact h.setValue _
        · exact h
  | signal sem =>
      obtain ⟨⟨err, k₁⟩, hrun, hrest⟩ := exec_bind_eq_ok_iff.mp hstep
      obtain rfl := (Prod.mk.inj (Except.ok.inj hrest)).2
      exact h.raise_lists (fun list => List.take_subset 1 list) hrun
  | signalAll sem =>
      obtain ⟨⟨err, k₁⟩, hrun, hrest⟩ := exec_bind_eq_ok_iff.mp hstep
      obtain rfl := (Prod.mk.inj (Except.ok.inj hrest)).2
      exact h.raise_lists (fun list => List.Subset.refl list) hrun
  | sched op =>
      obtain ⟨σ, -, hrest⟩ := exec_bind_eq_ok_iff.mp hstep
      obtain rfl := (Prod.mk.inj (Except.ok.inj hrest)).2
      exact h.withSched σ

end ListInv

end Nxos.Sched
