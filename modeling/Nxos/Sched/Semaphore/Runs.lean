import Nxos.Sched.Semaphore.Waiters

/-!
# Runs of the semaphores

Any number of threads use any number of semaphores while the scheduler goes on.  Each
operation returns, keeps the invariant of the wait lists and has one of the effects.
-/

namespace Nxos.Sched

open Nxos.Transition

variable {ι : Type} [DecidableEq ι] {cores : ℕ} {k k' : Kernel ι} {s : ι} {t cur c : ℕ}

/-! ## Steps -/

/-- A section of a semaphore function, or a call of the scheduler. -/
inductive SemOp (ι : Type) where
  | init (sem : Option ι) (value : BitVec 64)
  | wait (coreId : ℕ) (sem : Option ι)
  | goOn (coreId : ℕ)
  | tryWait (sem : Option ι)
  | signal (sem : Option ι)
  | signalAll (sem : Option ι)
  | sched (op : SchedOp)

/-- The event of a call for the semaphore that returned this code. -/
def eventOf (event : ι → SemEvent ι) (sem : Option ι) (err : NxError) : Option (SemEvent ι) :=
  if err = .eok then sem.map event else none

def Kernel.runningWaitsFor (k : Kernel ι) (coreId : ℕ) : Option ι :=
  (k.sched.cpuArray coreId).threadRunning.bind fun cur => (k.point cur).waitsFor

def semStep (cores : ℕ) (k : Kernel ι) : SemOp ι → Exec (Option (SemEvent ι) × Kernel ι)
  | .init sem value =>
      let (err, k') := semaphoreInit k sem value
      .ok (eventOf (fun s => .initialised s value) sem err, k')
  | .wait coreId sem => do
      let (_, k') ← semaphoreWait cores k coreId sem
      return (none, k')
  | .goOn coreId => do
      let (err, k') ← semaphoreGoOn cores k coreId
      return (err.bind (eventOf .completed (k.runningWaitsFor coreId)), k')
  | .tryWait sem =>
      let (err, k') := semaphoreTryWait k sem
      .ok (eventOf .completed sem err, k')
  | .signal sem => do
      let (err, k') ← semaphoreSignal cores k sem
      return (eventOf .signalled sem err, k')
  | .signalAll sem => do
      let (err, k') ← semaphoreSignalAll cores k sem
      return (eventOf .signalled sem err, k')
  | .sched op => do
      let σ ← schedStep cores k.sched op
      return (none, { k with sched := σ })

/-- The running thread is not in `NX_SemaphoreWait`. -/
def Kernel.RunsOutside (cores : ℕ) (k : Kernel ι) (c : ℕ) : Prop :=
  ∃ cur, k.sched.Runs cores c cur ∧ k.point cur = .outside

/-- A thread that exits or blocks another one is not in `NX_SemaphoreWait`. -/
def SchedOp.FromOutside (cores : ℕ) (k : Kernel ι) : SchedOp → Prop
  | .exit c => k.RunsOutside cores c
  | .block c _ => k.RunsOutside cores c
  | _ => True

/-- What the callers promise: a semaphore is initialised once, a thread that waits is in one
call at a time, and no idle thread waits. -/
def SemOp.Allowed (cores : ℕ) (k : Kernel ι) : SemOp ι → Prop
  | .init sem _ => ∀ s, sem = some s → (k.semaphore s).magic ≠ semaphoreMagic
  | .wait coreId _ => ∃ cur, k.sched.Runs cores coreId cur ∧ k.point cur = .outside ∧
      ¬k.sched.IsIdle cores cur
  | .goOn coreId => ∃ cur, k.sched.Runs cores coreId cur ∧ k.point cur ≠ .outside
  | .tryWait _ => True
  | .signal _ => True
  | .signalAll _ => True
  | .sched op => op.Allowed cores k.sched ∧ op.FromOutside cores k

def SemOp.Quiet : SemOp ι → Prop
  | .sched op => op.Quiet
  | _ => True

structure SemRun (ι : Type) where
  kernel : Kernel ι
  events : List (SemEvent ι)

def SemMove (cores : ℕ) (r : SemRun ι) (op : SemOp ι) (r' : SemRun ι) : Prop :=
  op.Allowed cores r.kernel ∧ ∃ e, semStep cores r.kernel op = .ok (e, r'.kernel) ∧
    r'.events = r.events ++ e.toList

/-- An operation that keeps the promises, before which the condition holds. -/
def SemMoveWhen (cores : ℕ) (condition : Kernel ι → SemOp ι → Prop) (r : SemRun ι)
    (op : SemOp ι) (r' : SemRun ι) : Prop :=
  condition r.kernel op ∧ SemMove cores r op r'

def semStart (σ : Scheduler) : SemRun ι where
  kernel :=
    { sched := σ
      semaphore := fun _ => { value := 0, semWaitList := [], magic := 0 }
      blockList := fun _ => none
      point := fun _ => .outside }
  events := []

omit [DecidableEq ι] in
theorem waitInv_semStart {σ : Scheduler} (h : SchedInv cores σ) :
    WaitInv cores (semStart (ι := ι) σ).kernel where
  sched := h
  linked _ _ := iff_of_false List.not_mem_nil fun hno => by cases hno
  nodup _ := List.nodup_nil
  asleep _ _ hno := by cases hno
  magic _ _ hno := by cases hno
  idle _ _ hno := by cases hno

/-! ## The effect of each operation -/

omit [DecidableEq ι] in
theorem semaphoreCheck_cases (k : Kernel ι) (sem : Option ι) :
    (∃ err, err ≠ .eok ∧ semaphoreCheck k sem = .error err) ∨
      ∃ s, sem = some s ∧ (k.semaphore s).magic = semaphoreMagic ∧
        semaphoreCheck k sem = .ok s := by
  cases sem with
  | none => exact .inl ⟨.einval, by decide, rfl⟩
  | some s =>
      by_cases hmagic : (k.semaphore s).magic = semaphoreMagic
      · exact .inr ⟨s, rfl, hmagic, if_neg (not_not.mpr hmagic)⟩
      · exact .inl ⟨.efault, by decide, if_pos hmagic⟩

omit [DecidableEq ι] in
theorem eventOf_of_ne {event : ι → SemEvent ι} {sem : Option ι} {err : NxError}
    (herr : err ≠ .eok) : eventOf event sem err = none :=
  if_neg herr

namespace WaitInv

theorem effect_refl (k : Kernel ι) : SemEffect cores k k none :=
  .kept rfl rfl rfl (.refl _ _)

theorem init_effect {sem : Option ι} {value : BitVec 64}
    (hallowed : (SemOp.init sem value).Allowed cores k) :
    (semaphoreInit k sem value).2.sched = k.sched ∧
      SemEffect cores k (semaphoreInit k sem value).2
        (eventOf (fun s => .initialised s value) sem (semaphoreInit k sem value).1) := by
  cases sem with
  | none => exact ⟨rfl, effect_refl k⟩
  | some s => exact ⟨rfl, .initialised s value (hallowed s rfl) rfl rfl rfl rfl⟩

theorem tryWait_effect (k : Kernel ι) (sem : Option ι) :
    (semaphoreTryWait k sem).2.sched = k.sched ∧
      SemEffect cores k (semaphoreTryWait k sem).2
        (eventOf .completed sem (semaphoreTryWait k sem).1) := by
  unfold semaphoreTryWait
  rcases semaphoreCheck_cases k sem with ⟨err, herr, hcheck⟩ | ⟨s, rfl, hmagic, hcheck⟩
  · rw [hcheck]
    simp only [eventOf_of_ne herr]
    exact ⟨trivial, effect_refl k⟩
  · rw [hcheck]
    by_cases hvalue : 0 < (k.semaphore s).value.toInt
    · simp only [if_pos hvalue]
      exact ⟨rfl, .taken s hmagic hvalue rfl rfl rfl rfl⟩
    · simp only [if_neg hvalue]
      exact ⟨trivial, effect_refl k⟩

theorem wait_effect (h : WaitInv cores k) {sem : Option ι}
    (hallowed : (SemOp.wait c sem).Allowed cores k) :
    ∃ r, semaphoreWait cores k c sem = .ok r ∧ r.2.sched = k.sched ∧
      SemEffect cores k r.2 none := by
  obtain ⟨cur, hrun, hcur, hidle⟩ := hallowed
  unfold semaphoreWait
  rcases semaphoreCheck_cases k sem with ⟨err, herr, hcheck⟩ | ⟨s, rfl, hmagic, hcheck⟩
  · rw [hcheck]
    exact ⟨_, rfl, rfl, effect_refl k⟩
  · rw [hcheck]
    simp only [SchedInv.threadSelf_eq hrun, exec_ok_bind]
    exact ⟨_, rfl, rfl,
      .entered cur s hmagic hcur hidle (h.unlinked_of_runs hrun) rfl rfl rfl rfl⟩

/-- A round of the loop: the thread takes a unit and returns, or goes to sleep. -/
theorem round_cases (h : WaitInv cores k) (hrun : k.sched.Runs cores c cur)
    (hcur : (k.point cur).waitsFor = some s) :
    0 < (k.semaphore s).value.toInt ∧ semaphoreWaitRound cores k c cur s =
        .ok (some .eok, (k.setValue s ((k.semaphore s).value - 1)).setPoint cur .outside) ∨
      (k.semaphore s).value.toInt ≤ 0 ∧ ∃ τ, semaphoreWaitRound cores k c cur s =
          .ok (none, { listAddTail k cur s with sched := τ }.setPoint cur (.asleep s)) ∧
        SchedInv cores τ ∧ OtherKept k.sched τ cur ∧ (τ.thread cur).state = .blocked := by
  have hfree := h.unlinked_of_runs hrun
  unfold semaphoreWaitRound
  by_cases hvalue : 0 < (k.semaphore s).value.toInt
  · exact .inl ⟨hvalue, if_pos hvalue⟩
  · rw [if_neg hvalue]
    obtain ⟨τ, hblock, hτ, hkept, hblocked⟩ := h.sched.blockSelf (h.idle cur s hcur) hrun
    have hstate := (h.sched.running_of_runs hrun).1
    have hsched : (listAddTail k cur s).sched = k.sched := rfl
    refine .inr ⟨Int.not_lt.mp hvalue, τ, ?_, hτ, hkept, hblocked⟩
    simp only [if_pos hfree, hsched, hblock, exec_ok_bind, nxAssert_pos, hstate]
    rfl

theorem round_effect (h : WaitInv cores k) (hrun : k.sched.Runs cores c cur)
    (hcur : (k.point cur).waitsFor = some s) :
    ∃ r, semaphoreWaitRound cores k c cur s = .ok r ∧ SchedInv cores r.2.sched ∧
      SemEffect cores k r.2 (r.1.bind (eventOf .completed (some s))) := by
  have hfree := h.unlinked_of_runs hrun
  rcases h.round_cases hrun hcur with ⟨hvalue, hround⟩ | ⟨hvalue, τ, hround, hτ, hkept, hblocked⟩
  · exact ⟨_, hround, h.sched, .returned cur s hcur hfree hvalue rfl rfl rfl rfl⟩
  · exact ⟨_, hround, hτ, .slept cur s hcur hfree hvalue rfl rfl rfl hkept hblocked⟩

theorem goOn_effect (h : WaitInv cores k) (hallowed : (SemOp.goOn c).Allowed cores k) :
    ∃ r, semaphoreGoOn cores k c = .ok r ∧ SchedInv cores r.2.sched ∧
      SemEffect cores k r.2 (r.1.bind (eventOf .completed (k.runningWaitsFor c))) := by
  obtain ⟨cur, hrun, hpoint⟩ := hallowed
  have hwaits : k.runningWaitsFor c = (k.point cur).waitsFor := by
    unfold Kernel.runningWaitsFor
    rw [hrun.2]
    rfl
  unfold semaphoreGoOn
  rw [SchedInv.threadSelf_eq hrun, exec_ok_bind, hwaits]
  cases hcase : k.point cur with
  | outside => exact absurd hcase hpoint
  | loop s => exact h.round_effect hrun (by rw [hcase]; rfl)
  | asleep s =>
      simp only
      have hcur : (k.point cur).waitsFor = some s := by
        rw [hcase]
        rfl
      by_cases hterminated : (k.sched.thread cur).isTerminated = true
      · rw [if_pos hterminated]
        obtain ⟨τ, hexit, hτ, hsame, -⟩ := h.sched.exit hrun (h.idle cur s hcur)
        rw [hexit]
        exact ⟨_, rfl, hτ,
          .ended cur hterminated (h.unlinked_of_runs hrun) rfl rfl rfl hsame⟩
      · rw [if_neg hterminated]
        exact h.round_effect hrun hcur

theorem setState_setState (th : Thread) (state state' : ThreadState) :
    (th.setState state).setState state' = th.setState state' := rfl

theorem wakeup_raised {rest : List ℕ} (h : WaitInv cores k)
    (hsplit : (k.semaphore s).semWaitList = t :: rest) :
    ∃ k', wakeup cores k t = .ok k' ∧ SchedInv cores k'.sched ∧
      Raised k k' s (k.semaphore s).value [t] rest := by
  have hlink : k.blockList t = some s := by
    rw [← h.linked, hsplit]
    exact List.mem_cons_self ..
  obtain ⟨r, hunblock, hr, hidle, hready, -⟩ := h.sched.unblock t
  have hthread := hready (h.asleep t s hlink).2
  have hdel : listDelInit k t =
      { k with
        semaphore := Function.update k.semaphore s { k.semaphore s with semWaitList := rest }
        blockList := Function.update k.blockList t none } := by
    unfold listDelInit
    rw [hlink]
    simp only [hsplit, List.erase_cons_head]
  refine ⟨{ listDelInit k t with sched := r.2 }, ?_, hr, ?_, fun u => ?_, ?_, fun u => ?_, hidle⟩
  · have hsched : (listDelInit k t).sched = k.sched := by rw [hdel]
    unfold wakeup
    simp only [hsched, hunblock, exec_ok_bind, exec_pure]
  · rw [hdel]
  · rw [hdel]
    simp only [List.mem_singleton, Function.update_apply]
  · rw [hdel]
  · simp only [List.mem_singleton, hthread, Function.update_apply]
    split
    · next hu => rw [hu]
    · rfl

theorem wakeup_foldlM {rest : List ℕ} (woken : List ℕ) (h : WaitInv cores k)
    (hsplit : (k.semaphore s).semWaitList = woken ++ rest) :
    ∃ k', woken.foldlM (wakeup cores) k = .ok k' ∧ SchedInv cores k'.sched ∧
      Raised k k' s (k.semaphore s).value woken rest := by
  induction woken generalizing k with
  | nil =>
      have hsame : Function.update k.semaphore s
          { k.semaphore s with semWaitList := rest } = k.semaphore := by
        rw [List.nil_append] at hsplit
        rw [← hsplit]
        exact Function.update_eq_self s k.semaphore
      exact ⟨k, rfl, h.sched, hsame.symm, fun _ => rfl, rfl, fun _ => rfl, fun _ => rfl⟩
  | cons t woken ih =>
      have hfirst : (k.semaphore s).semWaitList = [t] ++ (woken ++ rest) := hsplit
      obtain ⟨k₁, hwake, hinv, hone⟩ := h.wakeup_raised hsplit
      have hsem : k₁.semaphore s =
          { k.semaphore s with semWaitList := woken ++ rest } := by
        rw [hone.semaphore, Function.update_self]
        rfl
      obtain ⟨k', hfold, hinv', hall⟩ := ih (h.raised hinv hfirst hone) (by rw [hsem])
      refine ⟨k', ?_, hinv', ?_, fun u => ?_, hall.point.trans hone.point, fun u => ?_,
        fun c => (hall.idleThread c).trans (hone.idleThread c)⟩
      · rw [List.foldlM_cons, hwake]
        exact hfold
      · rw [hall.semaphore, hsem, hone.semaphore, Function.update_idem]
      · rw [hall.blockList, hone.blockList]
        by_cases hu : u = t <;> by_cases hw : u ∈ woken <;> simp [hu, hw]
      · rw [hall.thread, hone.thread]
        by_cases hu : u = t <;> by_cases hw : u ∈ woken <;> simp [hu, hw, setState_setState]

/-- A unit is added, and when the counter is positive the first threads are woken. -/
theorem raise_raised (h : WaitInv cores k) (wake : List ℕ → List ℕ)
    (hwake : ∀ list, ∃ rest, list = wake list ++ rest)
    (hmagic : (k.semaphore s).magic = semaphoreMagic) :
    ∃ k' woken rest, semaphoreRaise cores wake k (some s) = .ok (.eok, k') ∧
      SchedInv cores k'.sched ∧ (k.semaphore s).semWaitList = woken ++ rest ∧
      (0 < ((k.semaphore s).value + 1).toInt → woken = wake (k.semaphore s).semWaitList) ∧
      (((k.semaphore s).value + 1).toInt ≤ 0 → woken = []) ∧
      Raised k k' s ((k.semaphore s).value + 1) woken rest := by
  have hcheck : semaphoreCheck k (some s) = .ok s := if_neg (not_not.mpr hmagic)
  have hself : (k.setValue s ((k.semaphore s).value + 1)).semaphore s =
      { k.semaphore s with value := (k.semaphore s).value + 1 } :=
    Function.update_self ..
  have hinv : WaitInv cores (k.setValue s ((k.semaphore s).value + 1)) :=
    h.written 0 .outside rfl rfl hmagic rfl (.inl rfl) rfl
  unfold semaphoreRaise
  rw [hcheck]
  simp only [hself]
  by_cases hvalue : 0 < ((k.semaphore s).value + 1).toInt
  · rw [if_pos hvalue]
    obtain ⟨rest, hsplit⟩ := hwake (k.semaphore s).semWaitList
    obtain ⟨k', hfold, hsched, hraised⟩ :=
      hinv.wakeup_foldlM (wake (k.semaphore s).semWaitList) (by rw [hself]; exact hsplit)
    rw [hfold]
    refine ⟨k', _, rest, rfl, hsched, hsplit, fun _ => rfl,
      fun hno => absurd hvalue (Int.not_lt.mpr hno), ?_, hraised.blockList, hraised.point,
      hraised.thread, hraised.idleThread⟩
    rw [hraised.semaphore, hself]
    exact Function.update_idem ..
  · rw [if_neg hvalue]
    exact ⟨_, [], _, rfl, h.sched, rfl, fun hno => absurd hno hvalue, fun _ => rfl, rfl,
      fun _ => rfl, rfl, fun _ => rfl, fun _ => rfl⟩

/-- A unit is added, and `wake` takes at least one thread. -/
theorem raise_effect (h : WaitInv cores k) {wake : List ℕ → List ℕ}
    (hwake : ∀ list, ∃ rest, list = wake list ++ rest)
    (hsome : ∀ list, wake list = [] → list = []) (sem : Option ι) :
    ∃ r, semaphoreRaise cores wake k sem = .ok r ∧ SchedInv cores r.2.sched ∧
      SemEffect cores k r.2 (eventOf .signalled sem r.1) := by
  rcases semaphoreCheck_cases k sem with ⟨err, herr, hcheck⟩ | ⟨s, rfl, hmagic, hcheck⟩
  · unfold semaphoreRaise
    rw [hcheck]
    refine ⟨_, rfl, h.sched, ?_⟩
    rw [eventOf_of_ne herr]
    exact effect_refl k
  · obtain ⟨k', woken, rest, hrun, hinv, hsplit, hwoken, hnone, hraised⟩ :=
      h.raise_raised wake hwake hmagic
    refine ⟨_, hrun, hinv, .raised s woken rest hmagic hsplit hnone (fun hpos hnil => ?_) hraised⟩
    rw [hsome _ ((hwoken hpos).symm.trans hnil)] at hsplit
    exact (List.append_eq_nil_iff.mp hsplit.symm).2

/-- A call of the scheduler that neither blocks nor wakes a thread. -/
theorem sched_effect (h : WaitInv cores k) {op : SchedOp} (hquiet : op.Quiet)
    (hallowed : (SemOp.sched op).Allowed cores k) :
    ∃ τ, schedStep cores k.sched op = .ok τ ∧ SchedInv cores τ ∧
      SemEffect cores k { k with sched := τ } none := by
  obtain ⟨hallowed, houtside⟩ := hallowed
  obtain ⟨τ, hstep, hτ, hsame⟩ := h.sched.quiet hquiet hallowed
  refine ⟨τ, hstep, hτ, .kept rfl rfl rfl (hsame.mono ?_)⟩
  rintro t (hterminated | ⟨d, rfl, hrun⟩)
  · exact .inl hterminated
  · obtain ⟨cur, hcur, hpoint⟩ := houtside
    obtain rfl := Option.some.inj (hrun.2.symm.trans hcur.2)
    exact .inr hpoint

/-- When only the semaphores block and wake threads, every operation has an effect. -/
theorem step_effect (h : WaitInv cores k) {op : SemOp ι} (hquiet : op.Quiet)
    (hallowed : op.Allowed cores k) :
    ∃ e k', semStep cores k op = .ok (e, k') ∧ SchedInv cores k'.sched ∧
      SemEffect cores k k' e := by
  cases op with
  | init sem value =>
      obtain ⟨hsched, heffect⟩ := init_effect hallowed
      exact ⟨_, _, rfl, hsched ▸ h.sched, heffect⟩
  | wait coreId sem =>
      obtain ⟨r, hrun, hsched, heffect⟩ := h.wait_effect hallowed
      refine ⟨_, r.2, ?_, hsched ▸ h.sched, heffect⟩
      rw [semStep, hrun]
      rfl
  | goOn coreId =>
      obtain ⟨r, hrun, hinv, heffect⟩ := h.goOn_effect hallowed
      refine ⟨_, r.2, ?_, hinv, heffect⟩
      rw [semStep, hrun]
      rfl
  | tryWait sem =>
      obtain ⟨hsched, heffect⟩ := tryWait_effect k sem
      exact ⟨_, _, rfl, hsched ▸ h.sched, heffect⟩
  | signal sem =>
      obtain ⟨r, hrun, hinv, heffect⟩ := h.raise_effect
        (fun list => ⟨list.drop 1, (List.take_append_drop 1 list).symm⟩)
        (fun list hnil => by cases list <;> simp_all) sem
      refine ⟨_, r.2, ?_, hinv, heffect⟩
      rw [semStep, semaphoreSignal, hrun]
      rfl
  | signalAll sem =>
      obtain ⟨r, hrun, hinv, heffect⟩ := h.raise_effect
        (fun list => ⟨[], (List.append_nil list).symm⟩) (fun list hnil => hnil) sem
      refine ⟨_, r.2, ?_, hinv, heffect⟩
      rw [semStep, semaphoreSignalAll, hrun]
      rfl
  | sched op =>
      obtain ⟨τ, hstep, hτ, heffect⟩ := h.sched_effect hquiet hallowed
      refine ⟨_, _, ?_, hτ, heffect⟩
      rw [semStep, hstep]
      rfl

end WaitInv

/-! ## Runs that can be computed -/

instance (k : Kernel ι) (c : ℕ) : Decidable (k.RunsOutside cores c) :=
  inferInstanceAs (Decidable (∃ cur, k.sched.Runs cores c cur ∧ k.point cur = .outside))

instance (k : Kernel ι) (op : SchedOp) : Decidable (op.FromOutside cores k) :=
  match op with
  | .exit c => inferInstanceAs (Decidable (k.RunsOutside cores c))
  | .block c _ => inferInstanceAs (Decidable (k.RunsOutside cores c))
  | .create _ _ => .isTrue trivial
  | .setAffinity _ _ => .isTrue trivial
  | .start _ => .isTrue trivial
  | .enterCore => .isTrue trivial
  | .toFirst _ => .isTrue trivial
  | .yield _ => .isTrue trivial
  | .reSched _ => .isTrue trivial
  | .irq _ => .isTrue trivial
  | .unblock _ => .isTrue trivial
  | .terminate _ => .isTrue trivial

instance (k : Kernel ι) (op : SemOp ι) : Decidable (op.Allowed cores k) :=
  match op with
  | .init none _ => .isTrue fun _ hno => nomatch hno
  | .init (some s) _ => decidable_of_iff ((k.semaphore s).magic ≠ semaphoreMagic)
      ⟨fun h _ heq => Option.some.inj heq ▸ h, fun h => h s rfl⟩
  | .wait coreId _ => inferInstanceAs (Decidable (∃ cur, k.sched.Runs cores coreId cur ∧
      k.point cur = .outside ∧ ¬k.sched.IsIdle cores cur))
  | .goOn coreId => inferInstanceAs (Decidable (∃ cur, k.sched.Runs cores coreId cur ∧
      k.point cur ≠ .outside))
  | .tryWait _ => .isTrue trivial
  | .signal _ => .isTrue trivial
  | .signalAll _ => .isTrue trivial
  | .sched op => inferInstanceAs (Decidable (op.Allowed cores k.sched ∧ op.FromOutside cores k))

instance (op : SemOp ι) : Decidable op.Quiet :=
  match op with
  | .sched (.block ..) => .isFalse id
  | .sched (.unblock ..) => .isFalse id
  | .sched (.terminate ..) => .isFalse id
  | .sched (.create ..) => .isTrue trivial
  | .sched (.setAffinity ..) => .isTrue trivial
  | .sched (.start ..) => .isTrue trivial
  | .sched .enterCore => .isTrue trivial
  | .sched (.toFirst ..) => .isTrue trivial
  | .sched (.yield ..) => .isTrue trivial
  | .sched (.reSched ..) => .isTrue trivial
  | .sched (.irq ..) => .isTrue trivial
  | .sched (.exit ..) => .isTrue trivial
  | .init .. => .isTrue trivial
  | .wait .. => .isTrue trivial
  | .goOn .. => .isTrue trivial
  | .tryWait .. => .isTrue trivial
  | .signal .. => .isTrue trivial
  | .signalAll .. => .isTrue trivial

variable (condition : Kernel ι → SemOp ι → Prop) [∀ k op, Decidable (condition k op)]

def semStepWhen (cores : ℕ) (r : SemRun ι) (op : SemOp ι) : Option (SemRun ι) :=
  if condition r.kernel op ∧ op.Allowed cores r.kernel then
    (semStep cores r.kernel op).toOption.map fun (e, k') => ⟨k', r.events ++ e.toList⟩
  else none

/-- Perform operations after the boot, where the idle threads lie at `1`, `2`, and so on. -/
def performSem (cores : ℕ) (ops : List (SemOp ι)) : Option (SemRun ι) :=
  (threadInitIdle cores (· + 1) cores).toOption.bind fun σ =>
    perform (semStepWhen condition cores) (semStart σ) ops

variable {condition}

theorem semMove_of_semStepWhen {r r' : SemRun ι} {op : SemOp ι}
    (h : semStepWhen condition cores r op = some r') :
    SemMoveWhen cores condition r op r' := by
  unfold semStepWhen at h
  split at h
  · next hallowed =>
      obtain ⟨⟨e, k'⟩, hstep, rfl⟩ := Option.map_eq_some_iff.mp h
      exact ⟨hallowed.1, hallowed.2, e, toOption_eq_some hstep, rfl⟩
  · cases h

theorem reachable_of_performSem {ops : List (SemOp ι)} {r : SemRun ι}
    (h : performSem condition cores ops = some r) :
    ∃ start, threadInitIdle cores (· + 1) cores = .ok start ∧
      Reachable (SemMoveWhen cores condition) (semStart start) r := by
  obtain ⟨start, hboot, hrun⟩ := Option.bind_eq_some_iff.mp h
  exact ⟨start, toOption_eq_some hboot, .of_perform semMove_of_semStepWhen hrun⟩

end Nxos.Sched
