import Nxos.Sched.Exit.Invariant

/-!
# Prompt waits

The steps of the waiters, of the scheduler and of the threads that begin to exit keep the
invariant of the exits.
-/

namespace Nxos.Sched

open Nxos.Transition

variable {cores : ℕ} {x x' : ExitState} {r : ExitRun} {t c p cur : ℕ} {w : Waited}

namespace ExitInv

theorem record_eq {op : ExitOp} (d : Option Delivered) (x' : ExitState)
    (hcopies : r.state.copies op = none)
    (hraises : r.state.raises op = none) :
    (r.record op d x').copied = r.copied ∧ (r.record op d x').raised = r.raised := by
  refine ⟨funext fun w => ?_, funext fun w => ?_⟩
  · simp only [ExitRun.record, hcopies, reduceCtorEq, and_false, if_false]
  · simp only [ExitRun.record, hraises, reduceCtorEq, if_false]

theorem of_record (h : ExitInv cores r) {op : ExitOp} {d : Option Delivered}
    (hcopies : r.state.copies op = none) (hraises : r.state.raises op = none)
    (hwaiters : WaitInv cores x'.kernel) (hwoken : WokenInv x'.kernel)
    (hmagic : ∀ w, (x'.kernel.semaphore w).magic = semaphoreMagic)
    (hexiting : ∀ t, x'.exitPoint t ≠ .alive → ¬x'.kernel.sched.IsIdle cores t ∧
      x'.kernel.point t = .outside)
    (hengagement : Engagement x') (htarget : ∀ w, TargetInv x' w (r.copied w) (r.raised w))
    (hlifecycle : Lifecycle x' r.copied)
    (hdelivered : ∀ y ∈ d, r.copied y.2.1 = some y.2.2) : ExitInv cores (r.record op d x') := by
  obtain ⟨hcopied, hraised⟩ := record_eq d x' hcopies hraises
  refine ⟨hwaiters, hwoken, hmagic, hexiting, hengagement, ?_, ?_, fun y hy => ?_⟩
  · rw [hcopied, hraised]
    exact htarget
  · rw [hcopied]
    exact hlifecycle
  · rw [hcopied]
    rcases List.mem_append.mp hy with hbefore | hnow
    · exact h.returned y hbefore
    · exact hdelivered y (Option.mem_toList.mp hnow)

theorem of_silent (h : ExitInv cores r) {op : ExitOp} (hcopies : r.state.copies op = none)
    (hraises : r.state.raises op = none) (hwaiters : WaitInv cores x'.kernel)
    (hwoken : WokenInv x'.kernel) (hmagic : ∀ w, (x'.kernel.semaphore w).magic = semaphoreMagic)
    (hexiting : ∀ t, x'.exitPoint t ≠ .alive → ¬x'.kernel.sched.IsIdle cores t ∧
      x'.kernel.point t = .outside)
    (hengagement : Engagement x') (htarget : ∀ w, TargetInv x' w (r.copied w) (r.raised w))
    (hlifecycle : Lifecycle x' r.copied) : ExitInv cores (r.record op none x') :=
  h.of_record hcopies hraises hwaiters hwoken hmagic hexiting hengagement htarget hlifecycle
    fun _ hno => nomatch hno

theorem withSched (h : ExitInv cores r) {τ : Scheduler} (hτ : SchedInv cores τ)
    (hsame : SameBlocked {t | r.state.kernel.MayEnd t} r.state.kernel.sched τ) {op : ExitOp}
    (hcopies : r.state.copies op = none) (hraises : r.state.raises op = none) :
    ExitInv cores
      (r.record op none (r.state.withKernel { r.state.kernel with sched := τ })) := by
  have heffect : SemEffect cores r.state.kernel { r.state.kernel with sched := τ } none :=
    .kept rfl rfl rfl hsame
  refine h.of_silent hcopies hraises (h.waiters.effect hτ heffect)
    (h.woken.effect h.waiters heffect) h.magic (fun t ht => ?_) ?_ (fun w => ?_) ?_
  · obtain ⟨hidle, hpoint⟩ := h.exiting t ht
    exact ⟨fun hno => hidle (hsame.idleThread.isIdle_iff.mp hno), hpoint⟩
  · exact h.engagement.mono (fun _ _ => id) h.engagement.reads h.engagement.alive fun _ _ _ => rfl
  · exact (h.target w).congr rfl (fun _ _ => ⟨rfl, rfl⟩) (fun _ => id) (fun _ _ _ => rfl)
      fun _ => rfl
  · exact h.lifecycle.congr rfl (fun _ => rfl) fun _ => rfl

theorem sched (h : ExitInv cores r) {op : SchedOp}
    (hallowed : (ExitOp.sched op).Allowed cores r.state) :
    ∃ d x', exitStep cores r.state (.sched op) = .ok (d, x') ∧
      ExitInv cores (r.record (.sched op) d x') := by
  obtain ⟨hquiet, hop, hexit⟩ := hallowed
  obtain ⟨τ, hstep, hτ, hsame⟩ := h.waiters.sched.quiet hquiet hop
  refine ⟨none, _, ?_, h.withSched hτ (hsame.mono ?_) rfl rfl⟩
  · rw [exitStep, hstep]
    rfl
  · rintro t (hterminated | ⟨d, rfl, -⟩)
    · exact .inl hterminated
    · exact absurd rfl (hexit d)

theorem append (h : ExitInv cores r) (hallowed : (ExitOp.append p t).Allowed cores r.state) :
    ∃ d x', exitStep cores r.state (.append p t) = .ok (d, x') ∧
      ExitInv cores (r.record (.append p t) d x') := by
  obtain ⟨hp, hover, hnone, halive, -⟩ := hallowed
  have hmoved := movedThread_of_writes r.state p t p 1
  have hfree : ∀ n, ¬r.state.Engaged t (.process n) :=
    fun n ht => h.engagement.bound t n ht hnone
  refine ⟨none, _, rfl, h.of_silent rfl rfl h.waiters h.woken h.magic h.exiting
    (hmoved.engagement h.engagement hfree) (fun w => hmoved.target (h.target w) hfree)
    ((LifeStep.of_append hmoved h.lifecycle hp hover hnone halive).lifecycle h.lifecycle)⟩

theorem processExit (h : ExitInv cores r) {exitCode : BitVec 32}
    (hallowed : (ExitOp.processExit c exitCode).Allowed cores r.state) :
    ∃ d x', exitStep cores r.state (.processExit c exitCode) = .ok (d, x') ∧
      ExitInv cores (r.record (.processExit c exitCode) d x') := by
  obtain ⟨cur, hrun, ⟨-, -, halive⟩, hprocess⟩ := hallowed
  set p := (r.state.resource cur).process with hp
  have hmember : r.state.IsMember p cur := ⟨rfl, by rw [halive]; trivial⟩
  have hopen : r.copied (.process p) = none := by
    by_contra hno
    obtain ⟨hne, hover⟩ := h.lifecycle.copiedProcess p hno
    exact h.lifecycle.ended p hne hover cur hmember
  refine ⟨none, r.state.setProcess p { r.state.process p with exitCode := exitCode }, ?_,
    h.of_silent rfl rfl h.waiters h.woken h.magic h.exiting ?_ (fun w => ?_) ?_⟩
  · unfold exitStep Sched.processExit
    simp only [SchedInv.threadSelf_eq hrun, exec_ok_bind, ← hp, nxAssert_pos hprocess]
    rfl
  · exact h.engagement.mono (fun _ _ => id) h.engagement.reads h.engagement.alive fun _ _ _ => rfl
  · refine (h.target w).congr rfl (fun _ _ => ⟨rfl, rfl⟩) (fun _ => id) (fun _ u _ => ?_)
      fun hcopied => ?_
    · cases w with
      | thread n => rfl
      | process n =>
          simp only [ExitState.waitCode, ExitState.setProcess, Function.update_apply]
          split
          · next heq => rw [heq]
          · rfl
    · cases w with
      | thread n => rfl
      | process n =>
          have hn : n ≠ p := by
            rintro rfl
            exact hcopied hopen
          simp only [ExitState.exitCode, ExitState.setProcess, Function.update_of_ne hn]
  · refine h.lifecycle.congr rfl (fun _ => rfl) fun q => ?_
    simp only [ExitState.setProcess, Function.update_apply]
    split
    · next heq => rw [heq]
    · rfl

theorem exit (h : ExitInv cores r) {exitCode : BitVec 32}
    (hallowed : (ExitOp.exit c exitCode).Allowed cores r.state) :
    ∃ d x', exitStep cores r.state (.exit c exitCode) = .ok (d, x') ∧
      ExitInv cores (r.record (.exit c exitCode) d x') := by
  obtain ⟨cur, hrun, hfree, hidle⟩ := hallowed
  have halive := hfree.2.2
  have hother : ∀ u w, r.state.Engaged u w → u ≠ cur := by
    rintro u w hu rfl
    exact ExitState.not_engaged_of_free hfree w hu
  have hopen : r.copied (.thread cur) = none := by
    by_contra hno
    exact (h.lifecycle.copiedThread cur hno).1 halive
  refine ⟨none, (r.state.setResource cur { r.state.resource cur with
    exitCode := exitCode }).setExitPoint cur .begun, ?_,
    h.of_silent rfl rfl h.waiters h.woken h.magic (fun t ht => ?_) ?_ (fun w => ?_) ?_⟩
  · unfold exitStep threadExitBegin
    simp only [SchedInv.threadSelf_eq hrun, exec_ok_bind]
    rfl
  · by_cases htcur : t = cur
    · subst htcur
      exact ⟨hidle, hfree.1⟩
    · refine h.exiting t ?_
      rw [← Function.update_of_ne htcur ExitPoint.begun r.state.exitPoint]
      exact ht
  · refine h.engagement.mono (fun _ _ => id) h.engagement.reads (fun u w hu => ?_)
      fun u q hu => ?_
    · exact (Function.update_of_ne (hother u w hu) ..).trans (h.engagement.alive u w hu)
    · simp only [ExitState.setExitPoint, ExitState.setResource,
        Function.update_of_ne (hother u _ hu)]
  · refine (h.target w).congr rfl (fun _ _ => ⟨rfl, rfl⟩) (fun _ => id) (fun _ u hu => ?_)
      fun hcopied => ?_
    · cases w <;> simp only [ExitState.waitCode, ExitState.setExitPoint, ExitState.setResource,
        Function.update_of_ne (hother u _ hu)]
    · cases w with
      | process n => rfl
      | thread n =>
          have hn : n ≠ cur := by
            rintro rfl
            exact hcopied hopen
          simp only [ExitState.exitCode, ExitState.setExitPoint, ExitState.setResource,
            Function.update_of_ne hn]
  · refine LifeStep.lifecycle (x := r.state) (t := cur) (.of_point .begun rfl (fun u => ?_)
      (fun _ => rfl) (.inr ?_) (fun _ hno => nomatch hno) (fun _ hno => ?_) (fun _ => id)
      (fun _ => .inl) (fun hno => absurd hopen hno) fun _ hno => nomatch hno) h.lifecycle
    · simp only [ExitState.setExitPoint, ExitState.setResource, Function.update_apply]
      split
      · next heq => rw [heq]
      · rfl
    · rw [halive]
      exact Iff.rfl
    · rcases hno with hno | hno <;> cases hno

theorem read (h : ExitInv cores r) (hallowed : (ExitOp.read c).Allowed cores r.state) :
    ∃ d x', exitStep cores r.state (.read c) = .ok (d, x') ∧
      ExitInv cores (r.record (.read c) d x') := by
  obtain ⟨cur, hrun, hreading⟩ := hallowed
  obtain ⟨w, hw⟩ := Option.ne_none_iff_exists'.mp hreading
  have hengaged : r.state.Engaged cur w := .inr hw
  -- the waiter returned from the semaphore, so that the notification came before
  have hraised : r.raised w = true := by
    by_contra hno
    exact ((h.target w).closed (Bool.eq_false_iff.mpr hno)).2 cur hw
  obtain ⟨code, hcode⟩ := Option.ne_none_iff_exists'.mp ((h.target w).order hraised)
  have hdelivered := (h.target w).delivered code hcode cur hengaged
  have hsub : ∀ t u, (r.state.setReading cur none).reading t = some u →
      r.state.reading t = some u := by
    intro t u ht
    simp only [ExitState.setReading, Function.update_apply] at ht
    split at ht
    · cases ht
    · exact ht
  refine ⟨some (cur, w, code), r.state.setReading cur none, ?_, h.of_record rfl rfl h.waiters
    h.woken h.magic h.exiting ?_ (fun u => ?_) ?_ fun y hy => ?_⟩
  · unfold exitStep waiterRead
    simp only [SchedInv.threadSelf_eq hrun, exec_ok_bind, hw]
    cases w with
    | thread n =>
        rw [← hdelivered]
        rfl
    | process n =>
        rw [← hdelivered]
        exact if_neg (h.engagement.bound cur n hengaged)
  · exact h.engagement.mono (fun t u => Or.imp_right (hsub t u))
      (fun t u ht => h.engagement.reads t u (hsub t u ht)) h.engagement.alive fun _ _ _ => rfl
  · exact (h.target u).congr rfl (fun _ _ => ⟨rfl, rfl⟩) (fun t => hsub t u) (fun _ _ _ => rfl)
      fun _ => rfl
  · exact h.lifecycle.congr rfl (fun _ => rfl) fun _ => rfl
  · obtain rfl := Option.some.inj hy
    exact hcode

/-! ### Waits -/

theorem idle (h : ExitInv cores r) {op : ExitOp} (hcopies : r.state.copies op = none)
    (hraises : r.state.raises op = none) : ExitInv cores (r.record op none r.state) :=
  h.of_silent hcopies hraises h.waiters h.woken h.magic h.exiting h.engagement h.target h.lifecycle

theorem semaphoreWait_eq (h : ExitInv cores r) (hrun : r.state.kernel.sched.Runs cores c cur)
    (w : Waited) : semaphoreWait cores r.state.kernel c (some w) =
      .ok (none, r.state.kernel.setPoint cur (.loop w)) := by
  unfold semaphoreWait semaphoreCheck
  simp only [if_neg (not_not.mpr (h.magic w)), SchedInv.threadSelf_eq hrun, exec_ok_bind]
  rfl

/-- A thread enters the loop of `NX_SemaphoreWait`. -/
theorem enter (h : ExitInv cores r) {op : ExitOp} (hrun : r.state.kernel.sched.Runs cores c cur)
    (hfree : r.state.Free cur) (hidle : ¬r.state.kernel.sched.IsIdle cores cur)
    (hprompt : PromptWaits r op) (hbegins : r.state.begins op = some (cur, w))
    (hprocess : ∀ p, w = .process p → (r.state.resource cur).process ≠ 0)
    (hcopies : r.state.copies op = none) (hraises : r.state.raises op = none) :
    ExitInv cores
      (r.record op none (r.state.withKernel (r.state.kernel.setPoint cur (.loop w)))) := by
  have hfresh : r.copied w = none := hprompt.early cur w hbegins
  have halone := hprompt.alone cur w hbegins
  obtain ⟨hpoint, hreading, halive⟩ := hfree
  have hother : ∀ {t}, t ≠ cur →
      (r.state.kernel.setPoint cur (.loop w)).point t = r.state.kernel.point t :=
    fun ht => Function.update_of_ne ht ..
  have hself : (r.state.kernel.setPoint cur (.loop w)).point cur = .loop w :=
    Function.update_self ..
  have heffect : SemEffect cores r.state.kernel (r.state.kernel.setPoint cur (.loop w)) none :=
    .entered cur w (h.magic w) hpoint hidle (h.waiters.unlinked_of_runs hrun) rfl rfl rfl rfl
  set x' := r.state.withKernel (r.state.kernel.setPoint cur (.loop w)) with hx'
  have hengaged : ∀ t u, x'.Engaged t u → t = cur ∧ u = w ∨ t ≠ cur ∧ r.state.Engaged t u := by
    rintro t u (hwaits | hreads)
    · by_cases ht : t = cur
      · subst ht
        change ((r.state.kernel.setPoint t (.loop w)).point t).waitsFor = some u at hwaits
        rw [hself] at hwaits
        exact .inl ⟨rfl, (Option.some.inj hwaits).symm⟩
      · change ((r.state.kernel.setPoint cur (.loop w)).point t).waitsFor = some u at hwaits
        rw [hother ht] at hwaits
        exact .inr ⟨ht, .inl hwaits⟩
    · refine .inr ⟨?_, .inr hreads⟩
      rintro rfl
      rw [show x'.reading t = none from hreading] at hreads
      cases hreads
  refine h.of_silent hcopies hraises (h.waiters.effect h.waiters.sched heffect)
    (h.woken.effect h.waiters heffect) h.magic (fun t ht => ?_)
    ⟨fun t u ht => ?_, fun t u ht => ?_, fun t u v ht hu => ?_, fun t p ht => ?_,
      fun t u p q ht hu heq => ?_⟩ (fun u => ?_) (h.lifecycle.congr rfl (fun _ => rfl) fun _ => rfl)
  · have htcur : t ≠ cur := by
      rintro rfl
      exact ht halive
    exact ⟨(h.exiting t ht).1, (hother htcur).trans (h.exiting t ht).2⟩
  · rcases hengaged t u ht with ⟨rfl, -⟩ | ⟨-, hbefore⟩
    · exact halive
    · exact h.engagement.alive t u hbefore
  · have htcur : t ≠ cur := by
      rintro rfl
      rw [show x'.reading t = none from hreading] at ht
      cases ht
    exact (hother htcur).trans (h.engagement.reads t u ht)
  · rcases hengaged t v ht with ⟨rfl, hv⟩ | ⟨-, ht'⟩ <;>
      rcases hengaged u v hu with ⟨rfl, hv'⟩ | ⟨-, hu'⟩
    · rfl
    · exact absurd (hv ▸ hu') (halone u)
    · exact absurd (hv' ▸ ht') (halone t)
    · exact h.engagement.single t u v ht' hu'
  · rcases hengaged t _ ht with ⟨rfl, hp⟩ | ⟨-, hbefore⟩
    · exact hprocess p hp.symm
    · exact h.engagement.bound t p hbefore
  · have hcase : ∀ p u q, .process p = w → r.state.Engaged u (.process q) →
        (r.state.resource u).process ≠ (r.state.resource cur).process := by
      rintro p u q rfl hu
      exact hprompt.apart cur p hbegins u q hu
    rcases hengaged t _ ht with ⟨rfl, hp⟩ | ⟨-, ht'⟩ <;>
      rcases hengaged u _ hu with ⟨rfl, hq⟩ | ⟨-, hu'⟩
    · rfl
    · exact absurd heq.symm (hcase p u q hp hu')
    · exact absurd heq (hcase q t p hq ht')
    · exact h.engagement.apart t u p q ht' hu' heq
  · by_cases hu : u = w
    · subst hu
      have htarget := h.target u
      have hnot : r.raised u = false := by
        refine Bool.eq_false_iff.mpr fun hno => ?_
        exact htarget.order hno hfresh
      rw [hfresh, hnot]
      rw [hfresh, hnot] at htarget
      exact ⟨htarget.nonneg, htarget.closed, fun hno => absurd rfl hno, (nomatch ·), (nomatch ·),
        fun _ => (nomatch ·), fun _ => (nomatch ·)⟩
    · refine (h.target u).congr rfl (fun t ht => ⟨hother ?_, rfl⟩) (fun _ => id)
        (fun _ _ _ => rfl) fun _ => rfl
      rintro rfl
      change ((r.state.kernel.setPoint t (.loop w)).point t).waitsFor = some u at ht
      rw [hself] at ht
      exact hu (Option.some.inj ht).symm

/-- `NX_ThreadWait` begins. -/
theorem threadWait (h : ExitInv cores r) (hprompt : PromptWaits r (.threadWait c t))
    (hallowed : (ExitOp.threadWait c t).Allowed cores r.state) :
    ∃ d x', exitStep cores r.state (.threadWait c t) = .ok (d, x') ∧
      ExitInv cores (r.record (.threadWait c t) d x') := by
  obtain ⟨cur, hrun, hfree, hidle⟩ := hallowed
  have hself := SchedInv.threadSelf_eq hrun
  by_cases hnull : t = 0
  · refine ⟨none, r.state, ?_, h.idle rfl rfl⟩
    rw [exitStep, Sched.threadWait, if_pos hnull]
    rfl
  · by_cases hcur : t = cur
    · refine ⟨none, r.state, ?_, h.idle rfl rfl⟩
      rw [exitStep, Sched.threadWait, if_neg hnull, hself, exec_ok_bind, if_pos hcur]
      rfl
    · refine ⟨none, _, ?_, h.enter (w := .thread t) hrun hfree hidle hprompt ?_
        (fun p hno => nomatch hno) rfl rfl⟩
      · simp only [exitStep, Sched.threadWait, waiterEnter, if_neg hnull, hself, exec_ok_bind,
          if_neg hcur, h.semaphoreWait_eq hrun]
        rfl
      · simp only [ExitState.begins, hrun.2, Option.bind_some, if_neg (not_or.mpr ⟨hnull, hcur⟩)]

/-- `NX_ProcessWait` begins. -/
theorem processWait (h : ExitInv cores r) (hprompt : PromptWaits r (.processWait c p))
    (hallowed : (ExitOp.processWait c p).Allowed cores r.state) :
    ∃ d x', exitStep cores r.state (.processWait c p) = .ok (d, x') ∧
      ExitInv cores (r.record (.processWait c p) d x') := by
  obtain ⟨cur, hrun, hfree, hidle, hprocess⟩ := hallowed
  have hself := SchedInv.threadSelf_eq hrun
  by_cases hnull : p = 0
  · refine ⟨none, r.state, ?_, h.idle rfl rfl⟩
    rw [exitStep, Sched.processWait, if_pos hnull]
    rfl
  · by_cases hown : (r.state.resource cur).process = p
    · refine ⟨none, r.state, ?_, h.idle rfl rfl⟩
      rw [exitStep, Sched.processWait, if_neg hnull, hself, exec_ok_bind, if_pos hown]
      rfl
    · refine ⟨none, _, ?_, h.enter (w := .process p) hrun hfree hidle hprompt ?_
        (fun _ _ => hprocess) rfl rfl⟩
      · simp only [exitStep, Sched.processWait, waiterEnter, if_neg hnull, hself, exec_ok_bind,
          if_neg hown, h.semaphoreWait_eq hrun]
        rfl
      · simp only [ExitState.begins, hrun.2, Option.bind_some, if_neg (not_or.mpr ⟨hnull, hown⟩)]

theorem semaphoreGoOn_eq (h : ExitInv cores r) (hrun : r.state.kernel.sched.Runs cores c cur)
    (hcur : (r.state.kernel.point cur).waitsFor = some w) :
    semaphoreGoOn cores r.state.kernel c = semaphoreWaitRound cores r.state.kernel c cur w := by
  unfold semaphoreGoOn
  rw [SchedInv.threadSelf_eq hrun, exec_ok_bind]
  cases hcase : r.state.kernel.point cur with
  | outside =>
      rw [hcase] at hcur
      cases hcur
  | loop s =>
      rw [hcase] at hcur
      cases hcur
      rfl
  | asleep s =>
      rw [hcase] at hcur
      cases hcur
      simp only [h.woken.unterminated cur, Bool.false_eq_true, if_false]

theorem magic_of_written {k k' : Kernel Waited} {sem : Semaphore}
    (hsem : k'.semaphore = Function.update k.semaphore w sem)
    (hmagic : sem.magic = (k.semaphore w).magic) (u : Waited) :
    (k'.semaphore u).magic = (k.semaphore u).magic := by
  by_cases hu : u = w
  · rw [hu, hsem, Function.update_self, hmagic]
  · rw [hsem, Function.update_of_ne hu]

theorem value_of_other {k k' : Kernel Waited} {sem : Semaphore} {u : Waited}
    (hsem : k'.semaphore = Function.update k.semaphore w sem) (hu : u ≠ w) :
    (k'.semaphore u).value = (k.semaphore u).value := by
  rw [hsem, Function.update_of_ne hu]

theorem takesUnit (h : ExitInv cores r) (hrun : r.state.kernel.sched.Runs cores c cur)
    (hcur : (r.state.kernel.point cur).waitsFor = some w)
    (hvalue : 0 < (r.state.kernel.semaphore w).value.toInt) :
    ExitInv cores (r.record (.goOn c) none ((r.state.withKernel
      ((r.state.kernel.setValue w ((r.state.kernel.semaphore w).value - 1)).setPoint cur
        .outside)).setReading cur (some w))) := by
  have hengaged : r.state.Engaged cur w := .inl hcur
  have hraised : r.raised w = true := by
    by_contra hno
    have hzero := ((h.target w).closed (Bool.eq_false_iff.mpr hno)).1
    omega
  have heffect : SemEffect cores r.state.kernel
      ((r.state.kernel.setValue w ((r.state.kernel.semaphore w).value - 1)).setPoint cur .outside)
      (some (.completed w)) :=
    .returned cur w hcur (h.waiters.unlinked_of_runs hrun) hvalue rfl rfl rfl rfl
  set k' := (r.state.kernel.setValue w ((r.state.kernel.semaphore w).value - 1)).setPoint cur
    .outside with hk'
  have hpoint : ∀ {t}, t ≠ cur → k'.point t = r.state.kernel.point t :=
    fun ht => Function.update_of_ne ht ..
  have hself : k'.point cur = .outside := Function.update_self ..
  set x' := (r.state.withKernel k').setReading cur (some w) with hx'
  have hreading : ∀ {t}, t ≠ cur → x'.reading t = r.state.reading t :=
    fun ht => Function.update_of_ne ht ..
  have hreadingSelf : x'.reading cur = some w := Function.update_self ..
  have hwaits : ∀ {t u}, (x'.kernel.point t).waitsFor = some u →
      t ≠ cur ∧ (r.state.kernel.point t).waitsFor = some u := by
    intro t u ht
    have htcur : t ≠ cur := by
      rintro rfl
      rw [show x'.kernel.point t = .outside from hself] at ht
      cases ht
    exact ⟨htcur, hpoint htcur ▸ ht⟩
  have hsub : ∀ t u, x'.Engaged t u → r.state.Engaged t u := by
    rintro t u (ht | ht)
    · exact .inl (hwaits ht).2
    · by_cases htcur : t = cur
      · subst htcur
        obtain rfl := Option.some.inj (hreadingSelf.symm.trans ht)
        exact hengaged
      · exact .inr (hreading htcur ▸ ht)
  have hsem : k'.semaphore = Function.update r.state.kernel.semaphore w
      { r.state.kernel.semaphore w with value := (r.state.kernel.semaphore w).value - 1 } := rfl
  refine h.of_silent rfl rfl (h.waiters.effect h.waiters.sched heffect)
    (h.woken.effect h.waiters heffect) (fun u => (magic_of_written hsem rfl u).trans (h.magic u))
    (fun t ht => ?_)
    (h.engagement.mono hsub (fun t u ht => ?_) h.engagement.alive fun _ _ _ => rfl)
    (fun u => ?_) (h.lifecycle.congr rfl (fun _ => rfl) fun _ => rfl)
  · obtain ⟨hidle, houtside⟩ := h.exiting t ht
    have htcur : t ≠ cur := by
      rintro rfl
      rw [houtside] at hcur
      cases hcur
    exact ⟨hidle, (hpoint htcur).trans houtside⟩
  · by_cases htcur : t = cur
    · rw [htcur]
      exact hself
    · exact (hpoint htcur).trans (h.engagement.reads t u (hreading htcur ▸ ht))
  · by_cases hu : u = w
    · subst hu
      have htarget := h.target u
      have hless : (x'.kernel.semaphore u).value.toInt =
          (r.state.kernel.semaphore u).value.toInt - 1 := by
        rw [← toInt_sub_one hvalue]
        change (k'.semaphore u).value.toInt = _
        rw [hsem, Function.update_self]
      refine ⟨by omega, fun hno => ?_, fun _ hno => ?_, fun _ t ht => ?_, htarget.order,
        fun code hcode t ht => htarget.delivered code hcode t (hsub t u ht), htarget.code⟩
      · rw [hraised] at hno
        cases hno
      · rw [hraised] at hno
        cases hno
      · obtain ⟨htcur, hbefore⟩ := hwaits ht
        exact absurd (h.engagement.single t cur u (.inl hbefore) hengaged) htcur
    · refine (h.target u).congr ?_ (fun t ht => ⟨hpoint (hwaits ht).1, rfl⟩) (fun t ht => ?_)
        (fun _ _ _ => rfl) fun _ => rfl
      · exact value_of_other hsem hu
      · have htcur : t ≠ cur := by
          rintro rfl
          exact hu (Option.some.inj (ht.symm.trans hreadingSelf))
        exact hreading htcur ▸ ht

theorem sleeps (h : ExitInv cores r) (hrun : r.state.kernel.sched.Runs cores c cur)
    (hcur : (r.state.kernel.point cur).waitsFor = some w)
    (hvalue : (r.state.kernel.semaphore w).value.toInt ≤ 0) {τ : Scheduler}
    (hτ : SchedInv cores τ) (hkept : OtherKept r.state.kernel.sched τ cur)
    (hblocked : (τ.thread cur).state = .blocked) :
    ExitInv cores (r.record (.goOn c) none (r.state.withKernel
      ({ listAddTail r.state.kernel cur w with sched := τ }.setPoint cur (.asleep w)))) := by
  have hfree := h.waiters.unlinked_of_runs hrun
  have hraised : r.raised w = false := by
    refine Bool.eq_false_iff.mpr fun hno => ?_
    have hunit := ((h.target w).awake hno cur hcur).2.2
    omega
  have hcopied : r.copied w = none := by
    by_contra hno
    rw [(h.target w).asleep hno hraised cur hcur] at hfree
    cases hfree
  set k' := { listAddTail r.state.kernel cur w with sched := τ }.setPoint cur (.asleep w) with hk'
  have heffect : SemEffect cores r.state.kernel k' none :=
    .slept cur w hcur hfree hvalue rfl rfl rfl hkept hblocked
  have hpoint : ∀ {t}, t ≠ cur → k'.point t = r.state.kernel.point t :=
    fun ht => Function.update_of_ne ht ..
  have hself : k'.point cur = .asleep w := Function.update_self ..
  have hwaits : ∀ t u, (k'.point t).waitsFor = some u →
      (r.state.kernel.point t).waitsFor = some u ∧ (t = cur → u = w) := by
    intro t u ht
    by_cases htcur : t = cur
    · subst htcur
      rw [hself] at ht
      obtain rfl := Option.some.inj ht
      exact ⟨hcur, fun _ => rfl⟩
    · exact ⟨hpoint htcur ▸ ht, fun heq => absurd heq htcur⟩
  have hsem : k'.semaphore = Function.update r.state.kernel.semaphore w
      { r.state.kernel.semaphore w with
        semWaitList := (r.state.kernel.semaphore w).semWaitList ++ [cur] } := rfl
  refine h.of_silent rfl rfl (h.waiters.effect hτ heffect) (h.woken.effect h.waiters heffect)
    (fun u => (magic_of_written hsem rfl u).trans (h.magic u)) (fun t ht => ?_)
    (h.engagement.mono (fun t u => Or.imp_left fun ht => (hwaits t u ht).1) (fun t u ht => ?_)
      h.engagement.alive fun _ _ _ => rfl)
    (fun u => ?_) (h.lifecycle.congr rfl (fun _ => rfl) fun _ => rfl)
  · obtain ⟨hidle, houtside⟩ := h.exiting t ht
    have htcur : t ≠ cur := by
      rintro rfl
      rw [houtside] at hcur
      cases hcur
    exact ⟨fun hno => hidle (hkept.idleThread.isIdle_iff.mp hno), (hpoint htcur).trans houtside⟩
  · have houtside := h.engagement.reads t u ht
    have htcur : t ≠ cur := by
      rintro rfl
      rw [houtside] at hcur
      cases hcur
    exact (hpoint htcur).trans houtside
  · by_cases hu : u = w
    · subst hu
      have htarget := h.target u
      rw [hcopied, hraised] at htarget ⊢
      have hsame : (k'.semaphore u).value = (r.state.kernel.semaphore u).value := by
        rw [hsem, Function.update_self]
      exact ⟨hsame ▸ htarget.nonneg, hsame ▸ htarget.closed, fun hno => absurd rfl hno,
        (nomatch ·), (nomatch ·), fun _ => (nomatch ·), fun _ => (nomatch ·)⟩
    · have hne : ∀ {t}, (k'.point t).waitsFor = some u → t ≠ cur :=
        fun ht heq => hu ((hwaits _ u ht).2 heq)
      exact (h.target u).congr (value_of_other hsem hu)
        (fun t ht => ⟨hpoint (hne ht), Function.update_of_ne (hne ht) ..⟩) (fun _ => id)
        (fun _ _ _ => rfl) fun _ => rfl

/-- A waiter goes on in `NX_SemaphoreWait`. -/
theorem goOn (h : ExitInv cores r) (hallowed : (ExitOp.goOn c).Allowed cores r.state) :
    ∃ d x', exitStep cores r.state (.goOn c) = .ok (d, x') ∧
      ExitInv cores (r.record (.goOn c) d x') := by
  obtain ⟨cur, hrun, hpoint⟩ := hallowed
  obtain ⟨w, hcur⟩ : ∃ w, (r.state.kernel.point cur).waitsFor = some w := by
    cases hcase : r.state.kernel.point cur with
    | outside => exact absurd hcase hpoint
    | loop w => exact ⟨w, rfl⟩
    | asleep w => exact ⟨w, rfl⟩
  have hgoOn := h.semaphoreGoOn_eq hrun hcur
  rcases h.waiters.round_cases hrun hcur with
    ⟨hvalue, hround⟩ | ⟨hvalue, τ, hround, hτ, hkept, hblocked⟩
  · refine ⟨none, _, ?_, h.takesUnit hrun hcur hvalue⟩
    simp only [exitStep, waiterGoOn, SchedInv.threadSelf_eq hrun, exec_ok_bind, hgoOn, hround, hcur]
    rfl
  · refine ⟨none, _, ?_, h.sleeps hrun hcur hvalue hτ hkept hblocked⟩
    simp only [exitStep, waiterGoOn, SchedInv.threadSelf_eq hrun, exec_ok_bind, hgoOn, hround]
    rfl

end ExitInv

end Nxos.Sched
