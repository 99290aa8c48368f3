import Nxos.Sched.Exit.Waits

/-!
# Delivery of exit codes

With prompt waits, every step keeps the invariant: a wait that returns delivers the exit code
of what it waited for, and after the notification the waiter can run and finds a unit.
-/

namespace Nxos.Sched

open Nxos.Transition

variable {cores : ℕ} {x x' : ExitState} {r : ExitRun} {t c p cur : ℕ} {w : Waited}

/-! ## The walks over the waiters -/

/-- The walk of `ThreadExitNotify` writes the codes of the waiters, and nothing else. -/
theorem copy_resource (t : ℕ) (waiters : List ℕ) (x : ExitState) :
    waiters.foldl (fun x u => x.setResource u
      { x.resource u with waitExitCode := (x.resource t).exitCode }) x =
    { x with
      resource := fun u =>
        if u ∈ waiters then { x.resource u with waitExitCode := (x.resource t).exitCode }
        else x.resource u } := by
  induction waiters generalizing x with
  | nil => simp only [List.foldl_nil, List.not_mem_nil, if_false]
  | cons v waiters ih =>
      have hcode : ∀ u, ((x.setResource v
          { x.resource v with waitExitCode := (x.resource t).exitCode }).resource u).exitCode =
          (x.resource u).exitCode := by
        intro u
        simp only [ExitState.setResource, Function.update_apply]
        split
        · next hu => rw [hu]
        · rfl
      rw [List.foldl_cons, ih, hcode]
      simp only [ExitState.setResource, ExitState.mk.injEq, true_and, and_true]
      funext u
      by_cases hu : u = v
      · subst hu
        simp only [Function.update_self, List.mem_cons_self, if_true, ite_self]
      · simp only [Function.update_of_ne hu, List.mem_cons, hu, false_or]

/-- The walk of `ProcessExitNotify` writes the codes of the processes of the waiters, which
must have one. -/
theorem copy_process (p : ℕ) (waiters : List ℕ) (x : ExitState)
    (hbound : ∀ u ∈ waiters, (x.resource u).process ≠ 0) :
    (waiters.foldlM (fun (x : ExitState) u => do
      let q := (x.resource u).process
      nxAssert (q ≠ 0)
      return x.setProcess q { x.process q with waitExitCode := (x.process p).exitCode }) x :
      Exec ExitState) =
    .ok { x with
      process := fun n =>
        if n ∈ waiters.map fun u => (x.resource u).process then
          { x.process n with waitExitCode := (x.process p).exitCode }
        else x.process n } := by
  induction waiters generalizing x with
  | nil => simp only [List.foldlM_nil, List.map_nil, List.not_mem_nil, if_false]; rfl
  | cons v waiters ih =>
      have hcode : ∀ n, ((x.setProcess (x.resource v).process { x.process (x.resource v).process
          with waitExitCode := (x.process p).exitCode }).process n).exitCode =
          (x.process n).exitCode := by
        intro n
        simp only [ExitState.setProcess, Function.update_apply]
        split
        · next hn => rw [hn]
        · rfl
      have hrest := ih (x.setProcess (x.resource v).process { x.process (x.resource v).process
        with waitExitCode := (x.process p).exitCode }) fun u hu =>
          hbound u (List.mem_cons_of_mem v hu)
      refine Eq.trans ?_ (hrest.trans ?_)
      · simp only [List.foldlM_cons, nxAssert_pos (hbound v (List.mem_cons_self ..)),
          exec_ok_bind, exec_pure]
      rw [hcode]
      simp only [ExitState.setProcess, Except.ok.injEq, ExitState.mk.injEq, true_and, and_true]
      funext n
      by_cases hn : n = (x.resource v).process
      · subst hn
        simp only [Function.update_self, List.map_cons, List.mem_cons_self, if_true, ite_self]
      · simp only [Function.update_of_ne hn, List.map_cons, List.mem_cons, hn, false_or]

/-! ## The exiting thread -/

theorem record_kept {op : ExitOp} {d : Option Delivered} {code : BitVec 32}
    (h : r.copied w = some code) : (r.record op d x').copied w = some code := by
  simp only [ExitRun.record, h, reduceCtorEq, false_and, if_false]

namespace ExitInv

/-- Nobody waits in `NX_ThreadExit`. -/
theorem ne_of_engaged (h : ExitInv cores r) (hcur : r.state.exitPoint cur ≠ .alive) {u : ℕ}
    (hu : r.state.Engaged u w) : u ≠ cur := by
  rintro rfl
  exact hcur (h.engagement.alive u w hu)

/-- A step of a thread in `NX_ThreadExit`. -/
theorem of_exiting (h : ExitInv cores r) {op : ExitOp} (hcur : r.state.exitPoint cur ≠ .alive)
    (hwaiters : WaitInv cores x'.kernel) (hwoken : WokenInv x'.kernel)
    (hmagic : ∀ w, (x'.kernel.semaphore w).magic = semaphoreMagic)
    (hidle : SameIdle r.state.kernel.sched x'.kernel.sched)
    (hpoint : x'.kernel.point = r.state.kernel.point) (hreading : x'.reading = r.state.reading)
    (htarget : ∀ w,
      TargetInv x' w ((r.record op none x').copied w) ((r.record op none x').raised w))
    (hlife : LifeStep r.state x' cur r.copied (r.record op none x').copied) :
    ExitInv cores (r.record op none x') := by
  have hengaged : ∀ u w, x'.Engaged u w ↔ r.state.Engaged u w := by
    intro u w
    unfold ExitState.Engaged
    rw [hpoint, hreading]
  refine ⟨hwaiters, hwoken, hmagic, fun t ht => ?_,
    h.engagement.mono (fun u w => (hengaged u w).mp) ?_ (fun u w hu => ?_) (fun u q hu => ?_),
    htarget, hlife.lifecycle h.lifecycle, fun y hy => ?_⟩
  · have hbefore : r.state.exitPoint t ≠ .alive := by
      by_cases htcur : t = cur
      · exact htcur ▸ hcur
      · exact (hlife.others t htcur).1 ▸ ht
    obtain ⟨hnot, houtside⟩ := h.exiting t hbefore
    exact ⟨fun hno => hnot (hidle.isIdle_iff.mp hno), hpoint ▸ houtside⟩
  · intro t w ht
    change x'.reading t = some w at ht
    rw [hreading] at ht
    exact (congrFun hpoint t).trans (h.engagement.reads t w ht)
  · exact (hlife.others u (h.ne_of_engaged hcur hu)).1.trans (h.engagement.alive u w hu)
  · exact (hlife.others u (h.ne_of_engaged hcur hu)).2
  · exact record_kept (h.returned y (List.append_nil r.returned ▸ hy))

theorem eq_of_linked (h : ExitInv cores r) {u : ℕ} {v : Waited}
    (hlink : r.state.kernel.blockList u = some w) (hu : r.state.Engaged u v) : v = w := by
  have hpoint := (h.waiters.asleep u w hlink).1
  rcases hu with hwaits | hreads
  · rw [hpoint] at hwaits
    exact (Option.some.inj hwaits).symm
  · rw [h.engagement.reads u v hreads] at hpoint
    cases hpoint

theorem engaged_of_linked (h : ExitInv cores r) {u : ℕ}
    (hlink : r.state.kernel.blockList u = some w) : r.state.Engaged u w := by
  refine .inl ?_
  rw [(h.waiters.asleep u w hlink).1]
  rfl

theorem copied (h : ExitInv cores r) {op : ExitOp}
    (hprompt : PromptWaits r op) (hcur : r.state.exitPoint cur ≠ .alive)
    (hcopies : r.state.copies op = some w) (hraises : r.state.raises op = none)
    (hkernel : x'.kernel = r.state.kernel) (hreading : x'.reading = r.state.reading)
    (hcode : ∀ v, x'.exitCode v = r.state.exitCode v)
    (hwait : ∀ u, r.state.kernel.blockList u = some w →
      x'.waitCode u w = r.state.exitCode w)
    (hsame : ∀ u v, r.state.Engaged u v → (r.state.kernel.blockList u = some w → v = w) →
      x'.waitCode u v = r.state.waitCode u v ∨ v = w ∧ x'.waitCode u v = r.state.exitCode w)
    (hlife : LifeStep r.state x' cur r.copied (r.record op none x').copied) :
    ExitInv cores (r.record op none x') := by
  have hraised : (r.record op none x').raised = r.raised := by
    funext v
    simp only [ExitRun.record, hraises, reduceCtorEq, if_false]
  have hengaged : ∀ u v, x'.Engaged u v ↔ r.state.Engaged u v := by
    intro u v
    unfold ExitState.Engaged
    rw [hkernel, hreading]
  refine h.of_exiting hcur (hkernel ▸ h.waiters) (hkernel ▸ h.woken) (hkernel ▸ h.magic)
    (fun _ => by rw [hkernel]) (by rw [hkernel]) hreading (fun v => ?_) hlife
  have htarget := h.target v
  rw [hraised]
  by_cases hv : v = w ∧ r.copied v = none
  · obtain ⟨rfl, hnone⟩ := hv
    have hnot : r.raised v = false :=
      Bool.eq_false_iff.mpr fun hno => htarget.order hno hnone
    have hnow : (r.record op none x').copied v = some (r.state.exitCode v) := by
      simp only [ExitRun.record, hnone, hcopies, and_self, if_true]
    obtain ⟨hzero, hreads⟩ := htarget.closed hnot
    rw [hnow, hnot]
    refine ⟨hkernel ▸ htarget.nonneg, fun _ => ⟨hkernel ▸ hzero, hreading ▸ hreads⟩,
      fun _ _ t ht => ?_, fun hno => absurd hno Bool.false_ne_true,
      fun hno => absurd hno Bool.false_ne_true, fun code heq t ht => ?_,
      fun code heq => (hcode v).trans (Option.some.inj heq)⟩
    · rw [hkernel] at ht ⊢
      exact hprompt.asleep v hcopies hnone t ht
    · -- the waiter is on the list, since it did not return yet
      rcases (hengaged t v).mp ht with hwaits | hread
      · rw [hwait t (hprompt.asleep v hcopies hnone t hwaits)]
        exact Option.some.inj heq
      · exact absurd hread (hreads t)
  · have hbefore : (r.record op none x').copied v = r.copied v := by
      simp only [ExitRun.record, hcopies, Option.some.injEq]
      exact if_neg fun hno => hv ⟨hno.2.symm, hno.1⟩
    rw [hbefore]
    refine ⟨hkernel ▸ htarget.nonneg, hkernel ▸ hreading ▸ htarget.closed,
      hkernel ▸ htarget.asleep, hkernel ▸ htarget.awake, htarget.order, fun code heq t ht => ?_,
      fun code heq => (hcode v).trans (htarget.code code heq)⟩
    have hbound := (hengaged t v).mp ht
    rcases hsame t v hbound fun hlink => h.eq_of_linked hlink hbound with hkept | ⟨rfl, hnew⟩
    · exact hkept.trans (htarget.delivered code heq t hbound)
    · exact hnew.trans (htarget.code code heq)

theorem record_copied {op : ExitOp} {d : Option Delivered} {v : Waited}
    (hcopies : r.state.copies op = some w) (hv : (r.record op d x').copied v ≠ none) :
    r.copied v ≠ none ∨ v = w := by
  by_contra hno
  obtain ⟨hnone, hne⟩ := not_or.mp hno
  apply hv
  simp only [ExitRun.record, hcopies, Option.some.injEq]
  rw [if_neg fun heq => hne heq.2.symm]
  exact not_not.mp hnone

theorem record_copied_self {op : ExitOp} {d : Option Delivered}
    (hcopies : r.state.copies op = some w) : (r.record op d x').copied w ≠ none := by
  cases hw : r.copied w with
  | some code =>
      rw [record_kept hw]
      exact Option.some_ne_none code
  | none =>
      simp only [ExitRun.record, hcopies, hw, and_self, if_true]
      exact Option.some_ne_none _

/-- `ThreadExitNotify`, the walk. -/
theorem begun (h : ExitInv cores r) {op : ExitOp} (hprompt : PromptWaits r op)
    (hcur : r.state.exitPoint cur = .begun) (hcopies : r.state.copies op = some (.thread cur))
    (hraises : r.state.raises op = none) :
    ExitInv cores
      (r.record op none ((threadExitNotifyCopy r.state cur).setExitPoint cur .copied)) := by
  set x' := (threadExitNotifyCopy r.state cur).setExitPoint cur .copied with hx'
  have halive : r.state.exitPoint cur ≠ .alive := by
    rw [hcur]
    exact fun hno => nomatch hno
  have hx : x' =
      { r.state with
        resource := fun u =>
          if r.state.kernel.blockList u = some (.thread cur) then
            { r.state.resource u with waitExitCode := (r.state.resource cur).exitCode }
          else r.state.resource u
        exitPoint := Function.update r.state.exitPoint cur .copied } := by
    rw [hx', threadExitNotifyCopy, copy_resource]
    simp only [h.waiters.linked]
    rfl
  have hprocess : ∀ u, (x'.resource u).process = (r.state.resource u).process := by
    intro u
    rw [hx]
    show (if _ then _ else _ : ThreadResource).process = _
    split <;> rfl
  refine h.copied hprompt halive hcopies hraises (by rw [hx]) (by rw [hx]) (fun v => ?_)
    (fun u hu => ?_) (fun u v hu hlink => ?_)
    (.of_point .copied (by rw [hx]) hprocess (fun q => by rw [hx]) (.inr ?_)
      (fun _ hno => nomatch hno) (fun _ hno => ?_) (fun v hv => ?_)
      (fun v hv => ?_) (fun _ => ⟨ExitPoint.noConfusion, ExitPoint.noConfusion⟩) fun v hv => ?_)
  · rw [hx]
    cases v with
    | process q => rfl
    | thread u =>
        show (if _ then _ else _ : ThreadResource).exitCode = _
        split <;> rfl
  · rw [hx]
    show (if _ then _ else _ : ThreadResource).waitExitCode = _
    rw [if_pos hu]
    rfl
  · rw [hx]
    cases v with
    | thread n =>
        show (if _ then _ else _ : ThreadResource).waitExitCode = _ ∨
          _ ∧ (if _ then _ else _ : ThreadResource).waitExitCode = _
        by_cases hlinked : r.state.kernel.blockList u = some (.thread cur)
        · rw [if_pos hlinked]
          exact .inr ⟨hlink hlinked, rfl⟩
        · rw [if_neg hlinked]
          exact .inl rfl
    | process q =>
        left
        show (r.state.process (if _ then _ else _ : ThreadResource).process).waitExitCode = _
        split <;> rfl
  · rw [hcur]
    exact Iff.rfl
  · rcases hno with hno | hno <;> cases hno
  · obtain ⟨code, hcode⟩ := Option.ne_none_iff_exists'.mp hv
    rw [record_kept hcode]
    exact Option.some_ne_none code
  · rw [hcur]
    refine (record_copied hcopies hv).imp_right fun heq => ?_
    rw [heq]
    rfl
  · obtain rfl := Option.some.inj hv
    exact record_copied_self hcopies

/-- `ProcessExitNotify`, the walk.  It may come twice, with the same code. -/
theorem last (h : ExitInv cores r) {op : ExitOp} (hprompt : PromptWaits r op)
    (hcur : r.state.exitPoint cur = .last p) (hcopies : r.state.copies op = some (.process p))
    (hraises : r.state.raises op = none) :
    ∃ x', processExitNotifyCopy r.state p = .ok x' ∧
      ExitInv cores (r.record op none (x'.setExitPoint cur (.lastCopied p))) := by
  set waiters := (r.state.kernel.semaphore (.process p)).semWaitList with hwaiters
  have hmem : ∀ u, u ∈ waiters ↔ r.state.kernel.blockList u = some (.process p) :=
    fun u => h.waiters.linked u _
  have hwalk := copy_process p waiters r.state fun u hu =>
    h.engagement.bound u p (h.engaged_of_linked ((hmem u).mp hu))
  refine ⟨_, hwalk, ?_⟩
  set processes := waiters.map fun u => (r.state.resource u).process with hprocesses
  set x' := ExitState.setExitPoint { r.state with
    process := fun n =>
      if n ∈ processes then
        { r.state.process n with waitExitCode := (r.state.process p).exitCode }
      else r.state.process n } cur (.lastCopied p) with hx'
  have halive : r.state.exitPoint cur ≠ .alive := by
    rw [hcur]
    exact fun hno => nomatch hno
  have hbound := h.lifecycle.last cur p (.inl hcur)
  -- the waiter is the only one of its process
  have halone : ∀ u v q, r.state.Engaged u (.process q) → v ∈ waiters →
      (r.state.resource u).process = (r.state.resource v).process → v = u := by
    intro u v q hu hv heq
    exact (h.engagement.apart u v q p hu (h.engaged_of_linked ((hmem v).mp hv)) heq).symm
  refine h.copied hprompt halive hcopies hraises rfl rfl (fun v => ?_) (fun u hu => ?_)
    (fun u v hu hlink => ?_)
    (.of_point (.lastCopied p) rfl (fun _ => rfl) (fun q => ?_) (.inr ?_)
      (fun _ hno => nomatch hno) (fun q hq => ?_) (fun v hv => ?_) (fun v hv => ?_)
      (fun _ => ⟨ExitPoint.noConfusion, ExitPoint.noConfusion⟩) fun v hv => ?_)
  · cases v with
    | thread u => rfl
    | process q =>
        show (if _ then _ else _ : ProcessObject).exitCode = _
        split <;> rfl
  · show (if _ then _ else _ : ProcessObject).waitExitCode = _
    have hin : (x'.resource u).process ∈ processes :=
      List.mem_map.mpr ⟨u, (hmem u).mpr hu, rfl⟩
    rw [if_pos hin]
    rfl
  · cases v with
    | thread n => exact .inl rfl
    | process q =>
        show (if _ then _ else _ : ProcessObject).waitExitCode = _ ∨
          _ ∧ (if _ then _ else _ : ProcessObject).waitExitCode = _
        by_cases hq : (x'.resource u).process ∈ processes
        · rw [if_pos hq]
          obtain ⟨v, hv, heq⟩ := List.mem_map.mp hq
          obtain rfl := halone u v q hu hv heq.symm
          exact .inr ⟨hlink ((hmem v).mp hv), rfl⟩
        · rw [if_neg hq]
          exact .inl rfl
  · show (if _ then _ else _ : ProcessObject).threadCount = _
    split <;> rfl
  · rw [hcur]
    exact Iff.rfl
  · rcases hq with hq | hq <;> cases hq
    exact hbound
  · obtain ⟨code, hcode⟩ := Option.ne_none_iff_exists'.mp hv
    rw [record_kept hcode]
    exact Option.some_ne_none code
  · rw [hcur]
    refine (record_copied hcopies hv).imp_right fun heq => ?_
    rw [heq]
    rfl
  · obtain rfl := Option.some.inj hv
    exact record_copied_self hcopies

theorem raised (h : ExitInv cores r) {op : ExitOp} (point : ExitPoint)
    (hprompt : PromptWaits r op) (hcur : (r.state.exitPoint cur).raises cur = some w)
    (hcopies : r.state.copies op = none) (hraises : r.state.raises op = some w)
    (hstays : (r.state.resource cur).process = 0 ∨
      (point.Stays ↔ (r.state.exitPoint cur).Stays))
    (hpoint : point = .notified ∨ point = .released) :
    ∃ k', semaphoreSignalAll cores r.state.kernel (some w) = .ok (.eok, k') ∧
      ExitInv cores (r.record op none ((r.state.withKernel k').setExitPoint cur point)) := by
  have halive : r.state.exitPoint cur ≠ .alive := by
    intro hno
    rw [hno] at hcur
    cases hcur
  have hnonneg := (h.target w).nonneg
  have hroom := hprompt.room w hraises
  obtain ⟨k', woken, rest, hrun, hinv, hsplit, hwoken, hnone, hraised⟩ :=
    h.waiters.raise_raised (fun list => list)
      (fun list => ⟨[], (List.append_nil list).symm⟩) (h.magic w)
  have hone : ((r.state.kernel.semaphore w).value + 1).toInt =
      (r.state.kernel.semaphore w).value.toInt + 1 := by
    rw [BitVec.toInt_add, show (1 : BitVec 64).toInt = 1 from rfl]
    exact Int.bmod_eq_of_le (by omega) (by omega)
  have hpos : 0 < ((r.state.kernel.semaphore w).value + 1).toInt := by omega
  have hall := hwoken hpos
  have hrest : rest = [] := by
    rw [← hall] at hsplit
    exact List.self_eq_append_right.mp hsplit
  have heffect : SemEffect cores r.state.kernel k' (some (.signalled w)) :=
    .raised w woken rest (h.magic w) hsplit hnone (fun _ _ => hrest) hraised
  refine ⟨k', hrun, ?_⟩
  set x' := (r.state.withKernel k').setExitPoint cur point with hx'
  have hcopied : (r.record op none x').copied = r.copied := by
    funext v
    simp only [ExitRun.record, hcopies, reduceCtorEq, and_false, if_false]
  have hwaits : ∀ t, r.state.kernel.blockList t = some w → k'.blockList t = none := by
    intro t ht
    rw [hraised.blockList, if_pos]
    rw [hall, h.waiters.linked]
    exact ht
  have hsame : ∀ t, r.state.kernel.blockList t ≠ some w →
      k'.blockList t = r.state.kernel.blockList t := by
    intro t ht
    rw [hraised.blockList, if_neg]
    rw [hall, h.waiters.linked]
    exact ht
  refine h.of_exiting halive (h.waiters.effect hinv heffect) (h.woken.effect h.waiters heffect)
    (fun v => (magic_of_written hraised.semaphore rfl v).trans (h.magic v)) hraised.idleThread
    hraised.point rfl (fun v => ?_) ?_
  · rw [hcopied]
    have htarget := h.target v
    have hengaged : ∀ t, x'.Engaged t v ↔ r.state.Engaged t v := by
      intro t
      unfold ExitState.Engaged
      rw [show x'.kernel.point = _ from hraised.point]
      rfl
    by_cases hv : v = w
    · subst hv
      have hnow : (r.record op none x').raised v = true := by
        simp only [ExitRun.record, hraises, if_true]
      have hvalue : (x'.kernel.semaphore v).value.toInt =
          (r.state.kernel.semaphore v).value.toInt + 1 := by
        rw [← hone]
        change (k'.semaphore v).value.toInt = _
        rw [hraised.semaphore, Function.update_self]
      have hdone := h.lifecycle.copying cur v hcur
      rw [hnow]
      refine ⟨by omega, fun hno => absurd hno.symm Bool.false_ne_true,
        fun _ hno => absurd hno.symm Bool.false_ne_true, fun _ t ht => ?_, fun _ => hdone,
        fun code hcode t ht => htarget.delivered code hcode t ((hengaged t).mp ht),
        htarget.code⟩
      change (k'.point t).waitsFor = some v at ht
      change k'.point t = _ ∧ k'.blockList t = none ∧ _
      rw [hraised.point] at ht ⊢
      have hasleep : r.state.kernel.point t = .asleep v ∧ k'.blockList t = none := by
        by_cases hbefore : r.raised v = true
        · obtain ⟨hasleep, hlink, -⟩ := htarget.awake hbefore t ht
          refine ⟨hasleep, (hsame t ?_).trans hlink⟩
          rw [hlink]
          exact fun hno => by cases hno
        · have hlink := htarget.asleep hdone (Bool.eq_false_iff.mpr hbefore) t ht
          exact ⟨(h.waiters.asleep t v hlink).1, hwaits t hlink⟩
      exact ⟨hasleep.1, hasleep.2, by omega⟩
    · have hnow : (r.record op none x').raised v = r.raised v := by
        simp only [ExitRun.record, hraises, Option.some.injEq, Ne.symm hv, if_false]
      rw [hnow]
      refine htarget.congr (value_of_other hraised.semaphore hv) (fun t ht => ?_) (fun _ => id)
        (fun _ _ _ => rfl) fun _ => rfl
      change (k'.point t).waitsFor = some v at ht
      change k'.point t = _ ∧ k'.blockList t = _
      rw [hraised.point] at ht ⊢
      refine ⟨rfl, hsame t fun hlink => hv ?_⟩
      exact h.eq_of_linked hlink (.inl ht)
  · rw [hcopied]
    refine .of_point point rfl (fun _ => rfl) (fun _ => rfl) hstays (fun q hno => ?_)
      (fun q hno => ?_) (fun _ => id) (fun _ => .inl) (fun _ => ?_) fun v hv => ?_
    · rcases hpoint with rfl | rfl <;> cases hno
    · rcases hpoint with rfl | rfl <;> rcases hno with hno | hno <;> cases hno
    · rcases hpoint with rfl | rfl <;> exact ⟨ExitPoint.noConfusion, ExitPoint.noConfusion⟩
    · rcases hpoint with rfl | rfl <;> cases hv

theorem notified (h : ExitInv cores r) {op : ExitOp} (hcur : r.state.exitPoint cur = .notified)
    (hcopies : r.state.copies op = none) (hraises : r.state.raises op = none)
    (hprocess : (r.state.resource cur).process ≠ 0) :
    ExitInv cores (r.record op none
      ((processDeleteThread r.state (r.state.resource cur).process cur).setExitPoint cur
        (.deleted (r.state.resource cur).process))) := by
  set p := (r.state.resource cur).process with hp
  have halive : r.state.exitPoint cur ≠ .alive := by
    rw [hcur]
    exact fun hno => nomatch hno
  have hmoved : MovedThread r.state (processDeleteThread r.state p cur) p cur 0 (-1) :=
    movedThread_of_writes r.state p cur 0 (-1)
  set x₁ := processDeleteThread r.state p cur with hx₁
  set x' := x₁.setExitPoint cur (.deleted p) with hx'
  have hself : x'.exitPoint cur = .deleted p := Function.update_self ..
  have hzero : (x'.resource cur).process = 0 := (hmoved.process cur).trans (if_pos rfl)
  have hmember : r.state.IsMember p cur := ⟨rfl, by rw [hcur]; trivial⟩
  have hgone : ∀ q, ¬x'.IsMember q cur := by
    rintro q ⟨-, hstays⟩
    rw [hself] at hstays
    exact hstays
  obtain ⟨hcopied, hraised⟩ := record_eq none x' hcopies hraises
  refine h.of_exiting halive h.waiters h.woken h.magic (fun _ => rfl) rfl rfl (fun v => ?_)
    ⟨fun u hu => ⟨Function.update_of_ne hu .., (hmoved.process u).trans (if_neg hu)⟩,
      fun q _ hno => absurd hno (hgone q), fun q _ hbefore _ => ?_, fun q hq hsame => ?_,
      fun q hq heq _ => ?_, fun q _ _ hno => ?_, fun q hq => ?_, fun q hq => ?_, ?_, ?_,
      fun _ => ?_, fun v hv => ?_⟩
  · rw [hcopied, hraised]
    refine (hmoved.target (h.target v) fun n hn => ?_).congr rfl (fun _ _ => ⟨rfl, rfl⟩)
      (fun _ => id) (fun _ _ _ => rfl) fun _ => rfl
    exact h.ne_of_engaged halive hn rfl
  · obtain rfl : p = q := hbefore.1
    exact (hmoved.threadCount p).trans (if_pos rfl)
  · rw [show (x'.process q).threadCount = _ from hmoved.threadCount q, if_neg]
    rintro rfl
    exact hgone p (hsame.mpr hmember)
  · exact absurd (heq.symm.trans hzero) hq
  · exact absurd hmember.2 hno
  · rw [hself] at hq
    obtain rfl := ExitPoint.deleted.inj hq
    exact ⟨hprocess, hzero⟩
  · rw [hself] at hq
    rcases hq with hq | hq <;> cases hq
  · rw [hcopied]
    exact fun _ => id
  · rw [hcopied]
    exact fun _ => .inl
  · rw [hself]
    exact ⟨ExitPoint.noConfusion, ExitPoint.noConfusion⟩
  · rw [hself] at hv
    cases hv

theorem foundLast (h : ExitInv cores r) {op : ExitOp}
    (hcur : r.state.exitPoint cur = .deleted p) (hcopies : r.state.copies op = none)
    (hraises : r.state.raises op = none) (hcount : (r.state.process p).threadCount = 0) :
    ExitInv cores (r.record op none ((r.state.setResource cur
      { r.state.resource cur with process := p }).setExitPoint cur (.last p))) := by
  obtain ⟨hp, hzero⟩ := h.lifecycle.deleted cur p hcur
  have halive : r.state.exitPoint cur ≠ .alive := by
    rw [hcur]
    exact fun hno => nomatch hno
  have hnobody : ∀ u, ¬r.state.IsMember p u := by
    obtain ⟨members, hmem, hcard⟩ := h.lifecycle.members p hp
    rw [hcount] at hcard
    have hempty : members = ∅ := Finset.card_eq_zero.mp (by omega)
    intro u hu
    have hin := (hmem u).mpr hu
    rw [hempty] at hin
    exact Finset.notMem_empty u hin
  set x' := (r.state.setResource cur
    { r.state.resource cur with process := p }).setExitPoint cur (.last p) with hx'
  have hself : x'.exitPoint cur = .last p := Function.update_self ..
  have hresource : x'.resource cur = { r.state.resource cur with process := p } :=
    Function.update_self ..
  have hother : ∀ {u}, u ≠ cur → x'.resource u = r.state.resource u :=
    fun hu => Function.update_of_ne hu ..
  have hgone : ∀ q, ¬x'.IsMember q cur := by
    rintro q ⟨-, hstays⟩
    rw [hself] at hstays
    exact hstays
  have hbefore : ∀ q, ¬r.state.IsMember q cur := by
    rintro q ⟨-, hstays⟩
    rw [hcur] at hstays
    exact hstays
  obtain ⟨hcopied, hraised⟩ := record_eq none x' hcopies hraises
  refine h.of_exiting halive h.waiters h.woken h.magic (fun _ => rfl) rfl rfl (fun v => ?_)
    ⟨fun u hu => ⟨Function.update_of_ne hu .., by rw [hother hu]⟩,
      fun q _ hno => absurd hno (hgone q), fun q _ hno => absurd hno (hbefore q),
      fun _ _ _ => rfl, fun q hq heq _ => ?_, fun q hq heq => ?_, fun q hq => ?_, fun q hq => ?_,
      ?_, ?_, fun _ => ?_, fun v hv => ?_⟩
  · rw [hcopied, hraised]
    refine (h.target v).congr rfl (fun _ _ => ⟨rfl, rfl⟩) (fun _ => id) (fun _ u hu => ?_)
      fun _ => ?_
    · have hne := h.ne_of_engaged halive hu
      cases v with
      | thread n =>
          change (x'.resource u).waitExitCode = _
          rw [hother hne]
          rfl
      | process q =>
          change (r.state.process (x'.resource u).process).waitExitCode = _
          rw [hother hne]
          rfl
    · cases v with
      | process q => rfl
      | thread n =>
          change (x'.resource n).exitCode = (r.state.resource n).exitCode
          by_cases hn : n = cur
          · rw [hn, hresource]
          · rw [hother hn]
  · rw [hresource] at heq
    obtain rfl : p = q := heq
    exact .inr hnobody
  · exact absurd (heq.symm.trans hzero) hq
  · rw [hself] at hq
    cases hq
  · rw [hself] at hq
    rw [hresource]
    rcases hq with hq | hq <;> cases hq
    exact ⟨hp, rfl⟩
  · rw [hcopied]
    exact fun _ => id
  · rw [hcopied]
    exact fun _ => .inl
  · rw [hself]
    exact ⟨ExitPoint.noConfusion, ExitPoint.noConfusion⟩
  · rw [hself] at hv
    cases hv

theorem skipped (h : ExitInv cores r) {op : ExitOp} (hcur : r.state.exitPoint cur ≠ .alive)
    (hcopies : r.state.copies op = none) (hraises : r.state.raises op = none)
    (hnone : (r.state.resource cur).process = 0) :
    ExitInv cores (r.record op none (r.state.setExitPoint cur .released)) := by
  obtain ⟨hcopied, hraised⟩ :=
    record_eq none (r.state.setExitPoint cur .released) hcopies hraises
  refine h.of_exiting hcur h.waiters h.woken h.magic (fun _ => rfl) rfl rfl (fun v => ?_) ?_
  · rw [hcopied, hraised]
    exact (h.target v).congr rfl (fun _ _ => ⟨rfl, rfl⟩) (fun _ => id) (fun _ _ _ => rfl)
      fun _ => rfl
  · rw [hcopied]
    refine .of_point .released rfl (fun _ => rfl) (fun _ => rfl) (.inl hnone)
      (fun _ hno => nomatch hno) (fun _ hno => ?_) (fun _ => id) (fun _ => .inl)
      (fun _ => ⟨ExitPoint.noConfusion, ExitPoint.noConfusion⟩) fun _ hno => nomatch hno
    rcases hno with hno | hno <;> cases hno

/-- The running thread goes on in `NX_ThreadExit`. -/
theorem exitGoOn (h : ExitInv cores r) (hprompt : PromptWaits r (.exitGoOn c))
    (hallowed : (ExitOp.exitGoOn c).Allowed cores r.state) :
    ∃ d x', exitStep cores r.state (.exitGoOn c) = .ok (d, x') ∧
      ExitInv cores (r.record (.exitGoOn c) d x') := by
  obtain ⟨cur, hrun, halive⟩ := hallowed
  have hself := SchedInv.threadSelf_eq hrun
  have hcopies : r.state.copies (.exitGoOn c) = (r.state.exitPoint cur).copies cur := by
    simp only [ExitState.copies, hrun.2, Option.bind_some]
  have hraises : r.state.raises (.exitGoOn c) = (r.state.exitPoint cur).raises cur := by
    simp only [ExitState.raises, hrun.2, Option.bind_some]
  -- a step of `NX_ThreadExit` is a step of the run
  have hstep : ∀ {x'}, threadExitGoOn cores r.state c = .ok x' →
      exitStep cores r.state (.exitGoOn c) = .ok (none, x') := by
    intro x' hgo
    rw [exitStep, hgo]
    rfl
  unfold threadExitGoOn at hstep
  simp only [hself, exec_ok_bind] at hstep
  cases hcur : r.state.exitPoint cur with
  | alive => exact absurd hcur halive
  | begun =>
      simp only [hcur] at hstep hcopies hraises
      exact ⟨none, _, hstep rfl, h.begun hprompt hcur hcopies hraises⟩
  | copied =>
      simp only [hcur] at hstep hcopies hraises
      obtain ⟨k', hrun, hinv⟩ := h.raised .notified hprompt (by rw [hcur]; rfl)
        hcopies hraises (.inr (by rw [hcur]; exact Iff.rfl)) (.inl rfl)
      exact ⟨none, _, hstep (by rw [hrun]; rfl), hinv⟩
  | notified =>
      simp only [hcur] at hstep hcopies hraises
      by_cases hnone : (r.state.resource cur).process = 0
      · exact ⟨none, _, hstep (if_pos hnone), h.skipped halive hcopies hraises hnone⟩
      · exact ⟨none, _, hstep (if_neg hnone), h.notified hcur hcopies hraises hnone⟩
  | deleted p =>
      simp only [hcur] at hstep hcopies hraises
      by_cases hcount : (r.state.process p).threadCount = 0
      · exact ⟨none, _, hstep (if_pos hcount), h.foundLast hcur hcopies hraises hcount⟩
      · exact ⟨none, _, hstep (if_neg hcount),
          h.skipped halive hcopies hraises (h.lifecycle.deleted cur p hcur).2⟩
  | last p =>
      simp only [hcur] at hstep hcopies hraises
      obtain ⟨x', hwalk, hinv⟩ := h.last hprompt hcur hcopies hraises
      exact ⟨none, _, hstep (by rw [hwalk]; rfl), hinv⟩
  | lastCopied p =>
      simp only [hcur] at hstep hcopies hraises
      obtain ⟨k', hrun, hinv⟩ := h.raised .released hprompt (by rw [hcur]; rfl)
        hcopies hraises (.inr (by rw [hcur]; exact Iff.rfl)) (.inr rfl)
      exact ⟨none, _, hstep (by rw [hrun]; rfl), hinv⟩
  | released =>
      simp only [hcur] at hstep hcopies hraises
      obtain ⟨hidle, hpoint⟩ := h.exiting cur halive
      obtain ⟨τ, hexit, hτ, hsame, -⟩ := h.waiters.sched.exit hrun hidle
      refine ⟨none, _, hstep (by rw [hexit]; rfl), h.withSched hτ (hsame.mono ?_) hcopies hraises⟩
      rintro t rfl
      exact .inr hpoint

theorem step (h : ExitInv cores r) {op : ExitOp} (hprompt : PromptWaits r op)
    (hallowed : op.Allowed cores r.state) :
    ∃ d x', exitStep cores r.state op = .ok (d, x') ∧ ExitInv cores (r.record op d x') := by
  cases op with
  | sched op => exact h.sched hallowed
  | append p t => exact h.append hallowed
  | threadWait coreId t => exact h.threadWait hprompt hallowed
  | processWait coreId p => exact h.processWait hprompt hallowed
  | goOn coreId => exact h.goOn hallowed
  | read coreId => exact h.read hallowed
  | processExit coreId exitCode => exact h.processExit hallowed
  | exit coreId exitCode => exact h.exit hallowed
  | exitGoOn coreId => exact h.exitGoOn hprompt hallowed

theorem move {r' : ExitRun} {op : ExitOp} (h : ExitInv cores r)
    (hmove : PromptMove cores r op r') : ExitInv cores r' := by
  obtain ⟨hprompt, hallowed, d, x', hstep, rfl⟩ := hmove
  obtain ⟨d', x'', hstep', hinv⟩ := h.step hprompt hallowed
  obtain ⟨rfl, rfl⟩ := Prod.mk.inj (Except.ok.inj (hstep.symm.trans hstep'))
  exact hinv

/-- The waiter of a target that was signalled is awake: it can run, and finds a unit. -/
theorem awake (h : ExitInv cores r) (hraised : r.raised w = true)
    (ht : (r.state.kernel.point t).waitsFor = some w) :
    r.state.kernel.blockList t = none ∧ (r.state.kernel.sched.thread t).Schedulable ∧
      0 < (r.state.kernel.semaphore w).value.toInt := by
  obtain ⟨hpoint, hlink, hvalue⟩ := (h.target w).awake hraised t ht
  refine ⟨hlink, h.woken.schedulable w t ⟨hpoint, ?_⟩, hvalue⟩
  exact h.waiters.notMem_of_unlinked hlink w

end ExitInv

theorem exitInv_exitStart {σ : Scheduler} (h : SchedInv cores σ)
    (hterminated : ∀ t, (σ.thread t).isTerminated = false) : ExitInv cores (exitStart σ) where
  waiters :=
    { sched := h
      linked := fun _ _ => iff_of_false List.not_mem_nil (nomatch ·)
      nodup := fun _ => List.nodup_nil
      asleep := fun _ _ hno => nomatch hno
      magic := fun _ _ _ => rfl
      idle := fun _ _ hno => nomatch hno }
  woken :=
    { unterminated := hterminated
      schedulable := fun _ _ ht => nomatch ht.1
      cover := fun _ => ⟨∅, fun t => iff_of_false (Finset.notMem_empty t) fun ht => (nomatch ht.1),
        fun hno => absurd rfl hno⟩ }
  magic _ := rfl
  exiting _ ht := absurd rfl ht
  engagement :=
    { alive := fun _ _ _ => rfl
      reads := fun _ _ _ => rfl
      single := fun _ _ _ ht => by rcases ht with ht | ht <;> cases ht
      bound := fun _ _ ht => by rcases ht with ht | ht <;> cases ht
      apart := fun _ _ _ _ ht => by rcases ht with ht | ht <;> cases ht }
  target w :=
    { nonneg := Int.le_refl 0
      closed := fun _ => ⟨rfl, fun _ => (nomatch ·)⟩
      asleep := fun hno => absurd rfl hno
      awake := (nomatch ·)
      order := (nomatch ·)
      delivered := fun _ => (nomatch ·)
      code := fun _ => (nomatch ·) }
  lifecycle :=
    { members := fun p hp => ⟨∅,
        fun t => iff_of_false (Finset.notMem_empty t) fun ht => hp ht.1.symm, rfl⟩
      ended := fun p hp hover => absurd hover fun ⟨_, heq, _⟩ => hp heq.symm
      deleted := fun _ _ => (nomatch ·)
      last := fun _ _ ht => by rcases ht with ht | ht <;> cases ht
      copiedThread := fun _ hno => absurd rfl hno
      copiedProcess := fun _ hno => absurd rfl hno
      copying := fun _ _ => (nomatch ·) }
  returned _ hd := absurd hd List.not_mem_nil

/-! ## Every run -/

/-- In every run with prompt waits, a wait that returned delivered the exit code of what it
waited for, and a waiter whose target has signalled is off the wait list, can run and finds a
unit.  No step faults. -/
theorem promptReachable_delivers (cores : ℕ) (idle : ℕ → ℕ) (hnull : ∀ c < cores, idle c ≠ 0)
    (hdiffer : ∀ c < cores, ∀ d < cores, idle c = idle d → c = d) :
    ∃ start, threadInitIdle cores idle cores = .ok start ∧
      ∀ r : ExitRun, Reachable (PromptMove cores) (exitStart start) r →
        (∀ t w code, (t, w, code) ∈ r.returned → r.state.exitCode w = code) ∧
        (∀ w, r.raised w = true → ∀ t, (r.state.kernel.point t).waitsFor = some w →
          r.state.kernel.blockList t = none ∧ (r.state.kernel.sched.thread t).Schedulable ∧
            0 < (r.state.kernel.semaphore w).value.toInt) ∧
        ∀ op : ExitOp, PromptWaits r op → op.Allowed cores r.state →
          ∃ d x', exitStep cores r.state op = .ok (d, x') := by
  obtain ⟨start, hboot, hqueues, hidle, -, hterminated, -⟩ :=
    threadInitIdle_inv idle hnull hdiffer (Nat.le_refl cores)
  refine ⟨start, hboot, fun r hreach => ?_⟩
  have hinv := hreach.invariant (exitInv_exitStart ⟨hqueues, hidle⟩ hterminated)
    fun hinv hmove => hinv.move hmove
  refine ⟨fun t w code hd => ?_, fun w hraised t ht => hinv.awake hraised ht,
    fun op hprompt hallowed => ?_⟩
  · exact (hinv.target w).code code (hinv.returned _ hd)
  · obtain ⟨d, x', hstep, -⟩ := hinv.step hprompt hallowed
    exact ⟨d, x', hstep⟩

/-! ## Runs that can be computed -/

def SchedOp.isSilent : SchedOp → Bool
  | .block .. => false
  | .unblock .. => false
  | .terminate .. => false
  | .exit .. => false
  | _ => true

def ExitOp.Checked (cores : ℕ) (x : ExitState) : ExitOp → Prop
  | .append _ _ => False
  | .sched op => op.isSilent = true ∧ op.Allowed cores x.kernel.sched
  | op => op.Allowed cores x

instance (x : ExitState) (op : ExitOp) : Decidable (op.Checked cores x) :=
  match op with
  | .append _ _ => .isFalse id
  | .sched op => inferInstanceAs (Decidable (op.isSilent = true ∧
      op.Allowed cores x.kernel.sched))
  | .threadWait coreId _ => inferInstanceAs (Decidable (∃ cur,
      x.kernel.sched.Runs cores coreId cur ∧ (x.kernel.point cur = .outside ∧
        x.reading cur = none ∧ x.exitPoint cur = .alive) ∧ ¬x.kernel.sched.IsIdle cores cur))
  | .processWait coreId _ => inferInstanceAs (Decidable (∃ cur,
      x.kernel.sched.Runs cores coreId cur ∧ (x.kernel.point cur = .outside ∧
        x.reading cur = none ∧ x.exitPoint cur = .alive) ∧ ¬x.kernel.sched.IsIdle cores cur ∧
          (x.resource cur).process ≠ 0))
  | .goOn coreId => inferInstanceAs (Decidable (∃ cur,
      x.kernel.sched.Runs cores coreId cur ∧ x.kernel.point cur ≠ .outside))
  | .read coreId => inferInstanceAs (Decidable (∃ cur,
      x.kernel.sched.Runs cores coreId cur ∧ x.reading cur ≠ none))
  | .processExit coreId _ => inferInstanceAs (Decidable (∃ cur,
      x.kernel.sched.Runs cores coreId cur ∧ (x.kernel.point cur = .outside ∧
        x.reading cur = none ∧ x.exitPoint cur = .alive) ∧ (x.resource cur).process ≠ 0))
  | .exit coreId _ => inferInstanceAs (Decidable (∃ cur,
      x.kernel.sched.Runs cores coreId cur ∧ (x.kernel.point cur = .outside ∧
        x.reading cur = none ∧ x.exitPoint cur = .alive) ∧ ¬x.kernel.sched.IsIdle cores cur))
  | .exitGoOn coreId => inferInstanceAs (Decidable (∃ cur,
      x.kernel.sched.Runs cores coreId cur ∧ x.exitPoint cur ≠ .alive))

theorem allowed_of_checked {op : ExitOp} (h : op.Checked cores x) : op.Allowed cores x := by
  cases op with
  | append p t => exact absurd h id
  | sched op =>
      obtain ⟨hsilent, hallowed⟩ := h
      cases op with
      | block c t => cases hsilent
      | unblock t => cases hsilent
      | terminate t => cases hsilent
      | exit c => cases hsilent
      | create t priority => exact ⟨trivial, hallowed, fun _ => (nomatch ·)⟩
      | setAffinity t c => exact ⟨trivial, hallowed, fun _ => (nomatch ·)⟩
      | start t => exact ⟨trivial, hallowed, fun _ => (nomatch ·)⟩
      | enterCore => exact ⟨trivial, hallowed, fun _ => (nomatch ·)⟩
      | toFirst c => exact ⟨trivial, hallowed, fun _ => (nomatch ·)⟩
      | yield c => exact ⟨trivial, hallowed, fun _ => (nomatch ·)⟩
      | reSched c => exact ⟨trivial, hallowed, fun _ => (nomatch ·)⟩
      | irq c => exact ⟨trivial, hallowed, fun _ => (nomatch ·)⟩
  | threadWait c t => exact h
  | processWait c p => exact h
  | goOn c => exact h
  | read c => exact h
  | processExit c exitCode => exact h
  | exit c exitCode => exact h
  | exitGoOn c => exact h

section Computed

variable (condition : ExitRun → ExitOp → Prop) [∀ r op, Decidable (condition r op)]

def exitStepWhen (cores : ℕ) (r : ExitRun) (op : ExitOp) : Option ExitRun :=
  if condition r op ∧ op.Checked cores r.state then
    (exitStep cores r.state op).toOption.map fun (d, x') => r.record op d x'
  else none

variable {condition}

theorem exitMove_of_exitStepWhen {r' : ExitRun} {op : ExitOp}
    (h : exitStepWhen condition cores r op = some r') :
    condition r op ∧ ExitMove cores r op r' := by
  unfold exitStepWhen at h
  split at h
  · next hchecked =>
      obtain ⟨⟨d, x'⟩, hstep, rfl⟩ := Option.map_eq_some_iff.mp h
      exact ⟨hchecked.1, allowed_of_checked hchecked.2, d, x', toOption_eq_some hstep, rfl⟩
  · cases h

end Computed

/-- A step of a run with a single waiter, which waits already.  It sleeps when the
notification comes. -/
def SingleWaiter (u : ℕ) (r : ExitRun) (op : ExitOp) : Prop :=
  r.state.begins op = none ∧
    (∀ w ∈ r.state.copies op, (r.state.kernel.point u).waitsFor = some w ∧
      r.state.kernel.blockList u = some w) ∧
    ∀ w ∈ r.state.raises op, (r.state.kernel.semaphore w).value.toInt < 2 ^ 63 - 1

instance (u : ℕ) (r : ExitRun) (op : ExitOp) : Decidable (SingleWaiter u r op) :=
  inferInstanceAs (Decidable (_ ∧ _ ∧ _))

theorem ExitInv.promptWaits (h : ExitInv cores r) {op : ExitOp} {u : ℕ}
    (hsingle : SingleWaiter u r op) : PromptWaits r op := by
  obtain ⟨hbegins, hcopies, hraises⟩ := hsingle
  refine ⟨fun t w hno => ?_, fun t w hno => ?_, fun t p hno => ?_, fun w hw _ t ht => ?_,
    fun w hw => hraises w hw⟩
  · rw [hbegins] at hno
    cases hno
  · rw [hbegins] at hno
    cases hno
  · rw [hbegins] at hno
    cases hno
  · obtain ⟨hwaits, hlink⟩ := hcopies w hw
    obtain rfl := h.engagement.single t u w (.inl ht) (.inl hwaits)
    exact hlink

def OnlyScheduler (_ : ExitRun) (op : ExitOp) : Prop :=
  match op with
  | .sched _ => True
  | _ => False

instance (r : ExitRun) (op : ExitOp) : Decidable (OnlyScheduler r op) :=
  match op with
  | .sched _ => .isTrue trivial
  | .append .. => .isFalse id
  | .threadWait .. => .isFalse id
  | .processWait .. => .isFalse id
  | .goOn _ => .isFalse id
  | .read _ => .isFalse id
  | .processExit .. => .isFalse id
  | .exit .. => .isFalse id
  | .exitGoOn _ => .isFalse id

theorem onlyScheduler_move {r' : ExitRun} {op : ExitOp} (honly : OnlyScheduler r op)
    (hmove : ExitMove cores r op r') (hnone : ∀ t w, ¬r.state.Engaged t w) :
    PromptMove cores r op r' ∧ ∀ t w, ¬r'.state.Engaged t w := by
  cases op with
  | sched op =>
      refine ⟨⟨⟨fun _ _ => (nomatch ·), fun _ _ => (nomatch ·), fun _ _ => (nomatch ·),
        fun _ => (nomatch ·), fun _ => (nomatch ·)⟩, hmove⟩, ?_⟩
      obtain ⟨-, d, x', hstep, rfl⟩ := hmove
      cases hτ : schedStep cores r.state.kernel.sched op with
      | error e =>
          rw [exitStep, hτ] at hstep
          cases hstep
      | ok τ =>
          rw [exitStep, hτ] at hstep
          cases hstep
          exact hnone
  | append p t => exact absurd honly id
  | threadWait c t => exact absurd honly id
  | processWait c p => exact absurd honly id
  | goOn c => exact absurd honly id
  | read c => exact absurd honly id
  | processExit c exitCode => exact absurd honly id
  | exit c exitCode => exact absurd honly id
  | exitGoOn c => exact absurd honly id

/-- The threads `5` and `6` are started, and `5` runs. -/
def twoThreads : List ExitOp :=
  [.sched (.toFirst 0), .sched (.create 5 3), .sched (.start 5), .sched (.create 6 3),
    .sched (.start 6), .sched (.yield 0)]

/-- Thread `5` waits for thread `6`, which exits with code `7`. -/
def soleWaiterRun (start : Scheduler) : Option ExitRun := do
  let r ← perform (exitStepWhen OnlyScheduler 1) (exitStart start) twoThreads
  let r ← exitStepWhen (fun r op => r.state.begins op = some (5, .thread 6) ∧
    r.copied (.thread 6) = none) 1 r (.threadWait 0 6)
  perform (exitStepWhen (SingleWaiter 5) 1) r
    [.goOn 0, .exit 0 7, .exitGoOn 0, .exitGoOn 0, .exitGoOn 0, .exitGoOn 0, .goOn 0, .read 0]

theorem promptReachable_delivers_soleWaiter :
    ∃ (start : Scheduler) (r : ExitRun), threadInitIdle 1 (· + 1) 1 = .ok start ∧
      Reachable (PromptMove 1) (exitStart start) r ∧ (5, .thread 6, 7) ∈ r.returned ∧
      r.state.exitCode (.thread 6) = 7 := by
  obtain ⟨start, hboot, hruns⟩ := promptReachable_delivers 1 (· + 1)
    (fun _ _ => Nat.succ_ne_zero _) fun _ _ _ _ => Nat.succ.inj
  obtain ⟨start', hboot', hqueues, hidle, -, hterminated, -⟩ :=
    threadInitIdle_inv (· + 1) (fun _ _ => Nat.succ_ne_zero _)
      (fun _ _ _ _ => Nat.succ.inj) (Nat.le_refl 1)
  obtain rfl := Except.ok.inj (hboot.symm.trans hboot')
  have heval : ((threadInitIdle 1 (· + 1) 1).toOption.bind soleWaiterRun).map (fun r =>
      decide ((5, .thread 6, 7) ∈ r.returned)) = some true := by
    decide +kernel
  obtain ⟨r, hrun, hr⟩ := Option.map_eq_some_iff.mp heval
  rw [hboot] at hrun
  change soleWaiterRun start = some r at hrun
  obtain ⟨r₁, hfirst, hrest⟩ := Option.bind_eq_some_iff.mp hrun
  obtain ⟨r₂, hbegin, hlast⟩ := Option.bind_eq_some_iff.mp hrest
  obtain ⟨hreach₁, hnone⟩ := (Reachable.of_perform exitMove_of_exitStepWhen hfirst).invariant
    (P := fun r => Reachable (PromptMove 1) (exitStart start) r ∧ ∀ t w, ¬r.state.Engaged t w)
    ⟨.refl, fun t w ht => by rcases ht with ht | ht <;> cases ht⟩ fun h hmove =>
      have hprompt := onlyScheduler_move hmove.1 hmove.2 h.2
      ⟨h.1.tail hprompt.1, hprompt.2⟩
  obtain ⟨⟨hbegins, hearly⟩, hmove⟩ := exitMove_of_exitStepWhen hbegin
  have hprompt : PromptWaits r₁ (.threadWait 0 6) := by
    refine ⟨fun t w hw => ?_, fun t w _ u => hnone u w,
      fun t p _ u q hu => absurd hu (hnone u _), fun _ => (nomatch ·), fun _ => (nomatch ·)⟩
    obtain ⟨rfl, rfl⟩ := Prod.mk.inj (Option.some.inj (hbegins.symm.trans hw))
    exact hearly
  have hreach₂ : Reachable (PromptMove 1) (exitStart start) r₂ := hreach₁.tail ⟨hprompt, hmove⟩
  have hinv : ∀ {r}, Reachable (PromptMove 1) (exitStart start) r → ExitInv 1 r := fun hreach =>
    hreach.invariant (exitInv_exitStart ⟨hqueues, hidle⟩ hterminated) fun h hmove => h.move hmove
  have hreach : Reachable (PromptMove 1) (exitStart start) r :=
    (Reachable.of_perform exitMove_of_exitStepWhen hlast).invariant hreach₂ fun h hmove =>
      h.tail ⟨(hinv h).promptWaits hmove.1, hmove.2⟩
  have hreturned := of_decide_eq_true hr
  exact ⟨start, r, hboot, hreach, hreturned, (hruns r hreach).1 5 _ 7 hreturned⟩

def performExit (cores : ℕ) (ops : List ExitOp) : Option ExitRun :=
  (threadInitIdle cores (· + 1) cores).toOption.bind fun σ =>
    perform (exitStepWhen (fun _ _ => True) cores) (exitStart σ) ops

theorem reachable_of_performExit {ops : List ExitOp} (h : performExit cores ops = some r) :
    ∃ start, threadInitIdle cores (· + 1) cores = .ok start ∧
      Reachable (ExitMove cores) (exitStart start) r := by
  obtain ⟨start, hboot, hrun⟩ := Option.bind_eq_some_iff.mp h
  exact ⟨start, toOption_eq_some hboot,
    .of_perform (fun hstep => (exitMove_of_exitStepWhen hstep).2) hrun⟩

/-- Thread `6` exits with code `7`, and after its notification thread `5` waits for it. -/
def lateWaiterRun : List ExitOp :=
  twoThreads ++ [.sched (.yield 0), .exit 0 7, .exitGoOn 0, .exitGoOn 0, .sched (.yield 0),
    .threadWait 0 6, .goOn 0, .read 0]

/-- The threads `5` and `8` wait for thread `6`, which exits with code `7`. -/
def twoWaitersRun : List ExitOp :=
  twoThreads ++ [.sched (.create 8 3), .sched (.start 8), .threadWait 0 6, .goOn 0,
    .sched (.yield 0), .threadWait 0 6, .goOn 0, .exit 0 7, .exitGoOn 0, .exitGoOn 0,
    .exitGoOn 0, .exitGoOn 0, .goOn 0, .read 0, .sched (.yield 0), .goOn 0]

/-- A wait that comes after the notification returns with another code, and of two threads
that were blocked at the exit one sleeps on. -/
theorem threadExit_missesWaiters :
    (∃ (start : Scheduler) (r : ExitRun), threadInitIdle 1 (· + 1) 1 = .ok start ∧
      Reachable (ExitMove 1) (exitStart start) r ∧ (5, .thread 6, 0) ∈ r.returned ∧
      r.state.exitCode (.thread 6) = 7) ∧
    ∃ (start : Scheduler) (r : ExitRun), threadInitIdle 1 (· + 1) 1 = .ok start ∧
      Reachable (ExitMove 1) (exitStart start) r ∧ r.raised (.thread 6) = true ∧
      r.state.kernel.blockList 5 = some (.thread 6) ∧
      (r.state.kernel.sched.thread 5).state = .blocked ∧
      (r.state.kernel.semaphore (.thread 6)).value = 0 := by
  refine ⟨?_, ?_⟩
  · have heval : (performExit 1 lateWaiterRun).map (fun r =>
        decide ((5, .thread 6, 0) ∈ r.returned ∧ r.state.exitCode (.thread 6) = 7)) =
        some true := by
      decide +kernel
    obtain ⟨r, hrun, hr⟩ := Option.map_eq_some_iff.mp heval
    obtain ⟨start, hboot, hreach⟩ := reachable_of_performExit hrun
    exact ⟨start, r, hboot, hreach, of_decide_eq_true hr⟩
  · have heval : (performExit 1 twoWaitersRun).map (fun r =>
        decide (r.raised (.thread 6) = true ∧ r.state.kernel.blockList 5 = some (.thread 6) ∧
          (r.state.kernel.sched.thread 5).state = .blocked ∧
          (r.state.kernel.semaphore (.thread 6)).value = 0)) = some true := by
      decide +kernel
    obtain ⟨r, hrun, hr⟩ := Option.map_eq_some_iff.mp heval
    obtain ⟨start, hboot, hreach⟩ := reachable_of_performExit hrun
    exact ⟨start, r, hboot, hreach, of_decide_eq_true hr⟩

end Nxos.Sched
