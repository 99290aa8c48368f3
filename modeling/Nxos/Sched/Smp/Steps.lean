import Nxos.Sched.Smp.Sections

/-!
# The steps keep the invariant

The calls first, which are about one thread and move no core, then the sections of a core
one after the other, and last the switch of the context.  What a section does to the queues
is the specification of the function that it calls.
-/

namespace Nxos.Sched

variable {cores c t : ℕ} {s s' : SmpState} {σ τ : Scheduler} {point : CorePoint}
  {prev : Option ℕ}

/-! ## A core goes on -/

@[simp] theorem goto_point_self (s : SmpState) (c : ℕ) (point : CorePoint) (τ : Scheduler) :
    (s.goto c point τ).point c = point :=
  Function.update_self ..

theorem goto_point_of_ne {d : ℕ} (hd : d ≠ c) : (s.goto c point τ).point d = s.point d :=
  Function.update_of_ne hd ..

theorem goto_held_none (hheld : point.held = none) :
    (s.goto c point τ).held = s.otherHeld c := by
  rw [held_of_none (c := c) (by rw [goto_point_self]; exact hheld)]
  exact otherHeld_congr fun d hd => goto_point_of_ne hd

theorem goto_held_some (hheld : point.held = some t) :
    (s.goto c point τ).held = insert t (s.otherHeld c) := by
  rw [held_of_some (c := c) (by rw [goto_point_self]; exact hheld)]
  exact congrArg (insert t) (otherHeld_congr fun d hd => goto_point_of_ne hd)

theorem goto_opened_open (hopen : point.IsOpen) :
    (s.goto c point τ).opened = insert c (s.otherOpen c) := by
  rw [opened_of_open (c := c) (by rw [goto_point_self]; exact hopen)]
  exact congrArg (insert c) (otherOpen_congr fun d hd => goto_point_of_ne hd)

theorem goto_opened_closed (hclosed : ¬point.IsOpen) :
    (s.goto c point τ).opened = s.otherOpen c := by
  rw [opened_of_closed (c := c) (by rw [goto_point_self]; exact hclosed)]
  exact otherOpen_congr fun d hd => goto_point_of_ne hd

theorem goto_queues_free (hheld : point.held = none) (hopen : point.IsOpen)
    (hqueues : QueueInv cores (s.otherHeld c) (insert c (s.otherOpen c)) τ) :
    QueueInv cores (s.goto c point τ).held (s.goto c point τ).opened τ := by
  rw [goto_held_none hheld, goto_opened_open hopen]
  exact hqueues

theorem goto_queues_held (hheld : point.held = some t) (hopen : point.IsOpen)
    (hqueues : QueueInv cores (insert t (s.otherHeld c)) (insert c (s.otherOpen c)) τ) :
    QueueInv cores (s.goto c point τ).held (s.goto c point τ).opened τ := by
  rw [goto_held_some hheld, goto_opened_open hopen]
  exact hqueues

theorem goto_queues_closed (hheld : point.held = none) (hclosed : ¬point.IsOpen)
    (hqueues : QueueInv cores (s.otherHeld c) (s.otherOpen c) τ) :
    QueueInv cores (s.goto c point τ).held (s.goto c point τ).opened τ := by
  rw [goto_held_none hheld, goto_opened_closed hclosed]
  exact hqueues

theorem notMem_otherHeld (hown : ∀ d, s.Uses d t → d = c) : t ∉ s.otherHeld c := by
  rintro ⟨d, hd, hheld⟩
  exact hd (hown d (.inr (.inr hheld)))

theorem exists_ready_of_pick (hrun : smpPickThread cores σ c = .ok (t, τ)) :
    ∃ u prio, u ∈ σ.queue (.ready c prio) := by
  obtain ⟨cpu, hcpu, hrun⟩ := exec_bind_eq_ok_iff.mp hrun
  obtain ⟨-, -, hget⟩ := exec_bind_eq_ok_iff.mp hcpu
  cases hget
  cases hfind : findDown (fun prio => ((σ.cpuArray c).threadReadyList prio).head?)
      threadMaxPriorityNr with
  | none =>
      simp only [hfind] at hrun
      cases hrun
  | some u =>
      obtain ⟨prio, -, hhead, -⟩ := findDown_eq_some hfind
      exact ⟨u, prio, List.mem_of_mem_head? hhead⟩

theorem firstUnbound_of_dequque
    (hrun : smpDeququeNoAffinityThread cores σ c = .ok (some t, τ)) :
    σ.FirstUnbound cores c t := by
  obtain ⟨cpu, hcpu, hrun⟩ := exec_bind_eq_ok_iff.mp hrun
  obtain ⟨-, -, hget⟩ := exec_bind_eq_ok_iff.mp hcpu
  cases hget
  simp only at hrun
  split at hrun
  · cases hrun
  · next u hfind =>
      obtain ⟨ρ, -, hrest⟩ := exec_bind_eq_ok_iff.mp hrun
      cases hrest
      obtain ⟨prio, hprio, hfound, hrest⟩ := findDown_eq_some hfind
      refine ⟨prio, hprio, hfound, fun prio' hlt hgt v hv => ?_⟩
      have hbound := List.find?_eq_none.mp (hrest prio' hlt hgt) v hv
      exact Nat.lt_of_not_le fun hle => hbound (decide_eq_true hle)

namespace SmpInv

theorem own_of_onCore (h : SmpInv cores s) (hcore : (s.sched.thread t).onCore = c) (d : ℕ)
    (hused : s.Uses d t) : d = c :=
  ((h.core d).used t hused).2.1.symm.trans hcore

theorem own_of_pending (h : SmpInv cores s) (hcore : cores ≤ (s.sched.thread t).onCore) (d : ℕ)
    (hused : s.Uses d t) : d = c := by
  obtain ⟨hd, hown, -⟩ := (h.core d).used t hused
  exact absurd hd (Nat.not_lt_of_le (hown ▸ hcore))

theorem own_of_init (h : SmpInv cores s) (hstate : (s.sched.thread t).state = .init) (d : ℕ)
    (hused : s.Uses d t) : d = c :=
  absurd hstate ((h.core d).used t hused).2.2

theorem goto (h : SmpInv cores s) (hc : c < cores) (htouches : Touches s.sched τ t)
    (hrunning : ∀ d, (τ.cpuArray d).threadRunning = (s.sched.cpuArray d).threadRunning)
    (hown : ∀ d, s.Uses d t → d = c)
    (hqueues : QueueInv cores (s.goto c point τ).held (s.goto c point τ).opened τ)
    (hheld : ∀ u, point.held = some u → u = t)
    (hused : (s.goto c point τ).Uses c t →
      (τ.thread t).onCore = c ∧ (τ.thread t).state ≠ .init)
    (hholds : point.Holds τ)
    (hshows : point.Shows (s.sched.cpuArray c).threadRunning (s.loaded c)) :
    SmpInv cores (s.goto c point τ) := by
  refine h.own (fun d hd => goto_point_of_ne hd) (fun _ _ => rfl) (fun d _ => hrunning d)
    htouches hown hqueues ⟨fun u hu => ⟨hc, ?_⟩, ?_, ?_⟩
  · by_cases hut : u = t
    · subst hut
      exact hused hu
    · have hbefore : s.Uses c u := by
        rcases hu with hu | hu | hu
        · exact .inl ((hrunning c).symm.trans hu)
        · exact .inr (.inl hu)
        · rw [goto_point_self] at hu
          exact absurd (hheld u hu) hut
      show (τ.thread u).onCore = c ∧ (τ.thread u).state ≠ .init
      rw [htouches.thread u hut]
      exact ((h.core c).used u hbefore).2
  · rw [goto_point_self]
    exact hholds
  · rw [goto_point_self]
    show point.Shows (τ.cpuArray c).threadRunning (s.loaded c)
    rw [hrunning]
    exact hshows

theorem pass (h : SmpInv cores s) (hc : c < cores) (hbefore : (s.point c).held = none)
    (hopenBefore : (s.point c).IsOpen) (hafter : point.held = none) (hopen : point.IsOpen)
    (hholds : point.Holds s.sched)
    (hshows : point.Shows (s.sched.cpuArray c).threadRunning (s.loaded c)) :
    SmpInv cores (s.goto c point s.sched) := by
  have hown : ∀ d, s.Uses d 0 → d = c := h.own_of_init h.queues.null.1
  refine h.goto hc (.refl s.sched 0) (fun _ => rfl) hown ?_ ?_ ?_ hholds hshows
  · refine goto_queues_free hafter hopen ?_
    rw [← held_of_none hbefore, ← opened_of_open hopenBefore]
    exact h.queues
  · intro u hu
    rw [hafter] at hu
    cases hu
  · rintro (hu | hu | hu)
    · exact absurd h.queues.null.1 ((h.core c).used 0 (.inl hu)).2.2
    · exact absurd h.queues.null.1 ((h.core c).used 0 (.inr (.inl hu))).2.2
    · rw [goto_point_self, hafter] at hu
      cases hu

/-! ## Calls -/

theorem linked_of_threadUnreadyRun (hrun : threadUnreadyRun cores σ t = .ok τ) :
    σ.Linked cores t := by
  have hlinked : ∀ {ρ}, listDel cores σ t = .ok ρ → σ.Linked cores t := by
    intro ρ hdel
    unfold listDel at hdel
    split at hdel
    · assumption
    · cases hdel
  obtain ⟨-, -, hrun⟩ := exec_bind_eq_ok_iff.mp hrun
  split at hrun
  · obtain ⟨-, -, hrun⟩ := exec_bind_eq_ok_iff.mp hrun
    obtain ⟨-, -, hrun⟩ := exec_bind_eq_ok_iff.mp hrun
    obtain ⟨ρ, hdel, -⟩ := exec_bind_eq_ok_iff.mp hrun
    exact hlinked hdel
  · obtain ⟨ρ, hdel, -⟩ := exec_bind_eq_ok_iff.mp hrun
    exact hlinked hdel

theorem notMem_held_of_linked {held opened : Set ℕ} (h : QueueInv cores held opened σ)
    (hlinked : σ.Linked cores t) : t ∉ held := by
  rcases hlinked with ⟨c, -, p, -, hmem⟩ | hmem
  · exact ((h.queued t (.ready c p)).mp hmem).1
  · exact ((h.queued t .pending).mp hmem).1

theorem modify (h : SmpInv cores s) (th : Thread) (hstate : th.state = (s.sched.thread t).state)
    (hcore : th.onCore = (s.sched.thread t).onCore)
    (hpriority : th.priority = (s.sched.thread t).priority)
    (hfixed : th.fixedPriority = (s.sched.thread t).fixedPriority) :
    SmpInv cores { s with sched := s.sched.write t th } := by
  refine h.call (h.queues.modify th hstate hcore hpriority hfixed) (.write s.sched t th)
    (fun _ => ⟨?_, Iff.rfl⟩) (fun _ => rfl) fun hinit => ?_
  · rw [write_thread_self]
    exact hstate
  · rw [write_thread_self]
    exact ⟨hcore, hstate ▸ hinit⟩

theorem notMem_held_of_state (h : SmpInv cores s) (hready : (s.sched.thread t).state ≠ .ready)
    (hrunning : (s.sched.thread t).state ≠ .running) : t ∉ s.held :=
  fun hheld => (h.state_of_held hheld).elim hready hrunning

theorem write_init (h : SmpInv cores s) (hstate : (s.sched.thread t).state = .init) (th : Thread)
    (hth : th.state = .init) (hwf : th.WellFormed cores) :
    SmpInv cores { s with sched := s.sched.write t th } := by
  have hqueues : QueueInv cores s.held s.opened (s.sched.write t th) := by
    refine h.queues.rewrite hwf (hth.trans hstate.symm) (fun hready => ?_) fun hrunning => ?_
    · rw [hth] at hready
      cases hready
    · rw [hth] at hrunning
      cases hrunning
  refine h.call hqueues (.write s.sched t th) (fun _ => ⟨?_, Iff.rfl⟩) (fun _ => rfl)
    fun hinit => absurd hstate hinit
  rw [write_thread_self, hth, hstate]

theorem create (h : SmpInv cores s) (hstate : (s.sched.thread t).state = .init)
    (priority : BitVec 32) :
    SmpInv cores { s with sched := (threadCreate cores s.sched t priority).2 } := by
  unfold threadCreate
  split
  · exact h
  · next hpriority =>
      split
      · exact h
      · exact h.write_init hstate _ rfl
          (SchedInv.wellFormed_threadInit cores priority (Nat.lt_of_not_le hpriority))

theorem setAffinity (h : SmpInv cores s) (hstate : (s.sched.thread t).state = .init)
    (coreId : ℕ) : SmpInv cores { s with sched := (threadSetAffinity cores s.sched t coreId).2 } := by
  unfold threadSetAffinity
  split
  · exact h
  · next hargs =>
      exact h.write_init hstate _ hstate
        (SchedInv.wellFormed_bind (h.queues.wellFormed t) (Nat.lt_of_not_le (not_or.mp hargs).2))

theorem start (h : SmpInv cores s) (hstate : (s.sched.thread t).state = .init)
    {r : NxError × Scheduler} (hrun : threadStart cores s.sched t = .ok r) :
    SmpInv cores { s with sched := r.2 } := by
  by_cases hnull : t = 0
  · rw [threadStart, if_pos hnull] at hrun
    cases hrun
    exact h
  · have hheld : t ∉ s.held := h.notMem_held_of_state (by rw [hstate]; decide)
      (by rw [hstate]; decide)
    obtain ⟨τ, hstart, hqueues, hthread, hsame⟩ := h.queues.start hnull hheld hstate
    obtain rfl := Except.ok.inj (hstart.symm.trans hrun)
    refine h.call hqueues ⟨fun u hu => ?_, fun u hu => ?_⟩ (fun hmem => absurd hmem hheld)
      hsame.threadRunning fun hinit => absurd hstate hinit
    · rw [hthread, Function.update_of_ne hu]
    · rw [hsame.globalList]
      exact List.mem_cons.trans (or_iff_right hu)

theorem enterCore (h : SmpInv cores s) :
    SmpInv cores { s with
      sched := { s.sched with activedCoreCount := s.sched.activedCoreCount + 1 } } :=
  h.call (t := 0) h.queues.enterCore ⟨fun _ _ => rfl, fun _ _ => Iff.rfl⟩
    (fun hmem => absurd hmem h.queues.null.2) (fun _ => rfl)
    fun hinit => absurd h.queues.null.1 hinit

theorem unblock (h : SmpInv cores s) {r : NxError × Scheduler}
    (hrun : threadUnblock cores s.sched t = .ok r) : SmpInv cores { s with sched := r.2 } := by
  have hfree : (s.sched.thread t).state = .blocked → t ∉ s.held := fun hblocked =>
    h.notMem_held_of_state (by rw [hblocked]; decide) (by rw [hblocked]; decide)
  obtain ⟨r', hrun', hqueues, hsame, hblocked, hother⟩ := h.queues.unblock hfree
  obtain rfl := Except.ok.inj (hrun.symm.trans hrun')
  by_cases hstate : (s.sched.thread t).state = .blocked
  · refine h.call hqueues (.update (hblocked hstate) hsame.globalList)
      (fun hmem => absurd hmem (hfree hstate)) hsame.threadRunning fun _ => ?_
    rw [hblocked hstate, Function.update_self]
    exact ⟨rfl, ThreadState.noConfusion⟩
  · have hthread := hother hstate
    refine h.call (t := t) hqueues (.same hthread hsame.globalList)
      (fun _ => ⟨by rw [hthread], by rw [hsame.globalList]⟩) hsame.threadRunning fun hinit => ?_
    rw [hthread]
    exact ⟨rfl, hinit⟩

theorem terminate (h : SmpInv cores s) {r : NxError × Scheduler}
    (hrun : threadTerminate cores s.sched t = .ok r) : SmpInv cores { s with sched := r.2 } := by
  unfold threadTerminate at hrun
  split at hrun
  · cases hrun
    exact h
  · split at hrun
    · cases hrun
      exact h
    · obtain ⟨r', hunblock, hrest⟩ := exec_bind_eq_ok_iff.mp hrun
      cases hrest
      have hmarked := h.modify { s.sched.thread t with isTerminated := true } rfl rfl rfl rfl
      have hready := hmarked.unblock hunblock
      exact hready

/-- `NX_ThreadBlock` of a thread that no core runs. -/
theorem blockOther (h : SmpInv cores s) (hstate : (s.sched.thread t).state ≠ .running)
    (hrun : s.threadBlock cores c t = .ok s') : SmpInv cores s' := by
  unfold SmpState.threadBlock at hrun
  split at hrun
  · cases hrun
    exact h
  · simp only at hrun
    cases hcase : (s.sched.thread t).state with
    | running => exact absurd hcase hstate
    | init =>
        rw [hcase] at hrun
        cases hrun
        exact h
    | blocked =>
        rw [hcase] at hrun
        cases hrun
        exact h
    | exit =>
        rw [hcase] at hrun
        cases hrun
        exact h
    | ready =>
        rw [hcase] at hrun
        obtain ⟨τ, hunready, hrest⟩ := exec_bind_eq_ok_iff.mp hrun
        cases hrest
        have hlinked := linked_of_threadUnreadyRun hunready
        have hheld : t ∉ s.held := notMem_held_of_linked h.queues hlinked
        obtain ⟨τ', hunready', hqueues, hthread, hsame⟩ :=
          h.queues.threadUnreadyRun_blocked hheld hcase
        obtain rfl := Except.ok.inj (hunready.symm.trans hunready')
        refine h.call hqueues (.update hthread hsame.globalList)
          (fun hmem => absurd hmem hheld) hsame.threadRunning fun _ => ?_
        rw [hthread, Function.update_self]
        exact ⟨rfl, ThreadState.noConfusion⟩

/-! ## Where a core is -/

theorem holds_at (h : SmpInv cores s) (hpoint : s.point c = point) : point.Holds s.sched :=
  hpoint ▸ (h.core c).holds

theorem shows_at (h : SmpInv cores s) (hpoint : s.point c = point) :
    point.Shows (s.sched.cpuArray c).threadRunning (s.loaded c) :=
  hpoint ▸ (h.core c).shows

theorem used_at (h : SmpInv cores s) (hpoint : s.point c = point) (hheld : point.held = some t) :
    c < cores ∧ (s.sched.thread t).onCore = c ∧ (s.sched.thread t).state ≠ .init :=
  (h.core c).used t (.inr (.inr (hpoint ▸ hheld)))

theorem queues_held (h : SmpInv cores s) (hpoint : s.point c = point)
    (hheld : point.held = some t) (hopen : point.IsOpen) :
    QueueInv cores (insert t (s.otherHeld c)) (insert c (s.otherOpen c)) s.sched := by
  subst hpoint
  rw [← held_of_some hheld, ← opened_of_open hopen]
  exact h.queues

theorem queues_free (h : SmpInv cores s) (hpoint : s.point c = point)
    (hheld : point.held = none) (hopen : point.IsOpen) :
    QueueInv cores (s.otherHeld c) (insert c (s.otherOpen c)) s.sched := by
  subst hpoint
  rw [← held_of_none hheld, ← opened_of_open hopen]
  exact h.queues

theorem queues_closed (h : SmpInv cores s) (hpoint : s.point c = point)
    (hheld : point.held = none) (hclosed : ¬point.IsOpen) :
    QueueInv cores (s.otherHeld c) (s.otherOpen c) s.sched := by
  subst hpoint
  rw [← held_of_none hheld, ← opened_of_closed hclosed]
  exact h.queues

/-! ## Calls of the running thread -/

theorem running_of_runs (h : SmpInv cores s) (hrun : s.RunsThread cores c t) :
    t ∉ s.held ∧ (s.sched.thread t).state = .running ∧ (s.sched.thread t).onCore = c := by
  obtain ⟨hpoint, hc, hrunning⟩ := hrun
  refine (h.queues.running t c).mp ⟨hc, fun hopen => ?_, hrunning⟩
  replace hopen : (s.point c).IsOpen := hopen
  rw [hpoint] at hopen
  exact hopen

theorem running_eq_loaded (h : SmpInv cores s) (hrun : s.RunsThread cores c t) :
    (s.sched.cpuArray c).threadRunning = s.loaded c :=
  h.shows_at hrun.1

theorem listed_of_runs (h : SmpInv cores s) (hrun : s.RunsThread cores c t) :
    t ∈ s.sched.manager.globalList := by
  obtain ⟨hheld, hstate, -⟩ := h.running_of_runs hrun
  exact (h.queues.listed t hheld).mpr (by rw [hstate]; exact ⟨by decide, by decide⟩)

theorem release (h : SmpInv cores s) (hrun : s.RunsThread cores c t) :
    QueueInv cores (insert t (s.otherHeld c)) (insert c (s.otherOpen c)) s.sched :=
  (h.queues_closed hrun.1 rfl id).release hrun.2.1 (notMem_otherOpen s c) hrun.2.2

theorem schedYield (h : SmpInv cores s) (hrun : s.RunsThread cores c t)
    (hstep : s.schedYield cores c = .ok s') : SmpInv cores s' := by
  obtain ⟨-, hstate, hcore⟩ := h.running_of_runs hrun
  have hown := h.own_of_onCore hcore
  obtain ⟨τ, hready, hτ, hthread, hsame⟩ := threadReadyRun_held (h.release hrun)
    (notMem_otherHeld hown) (h.listed_of_runs hrun) .tail
  unfold SmpState.schedYield at hstep
  rw [SchedInv.threadSelf_eq hrun.2, exec_ok_bind, hready] at hstep
  cases hstep
  refine h.goto hrun.2.1 (.update hthread hsame.globalList) hsame.threadRunning hown
    (goto_queues_free rfl trivial hτ) (fun u hu => nomatch hu) (fun _ => ?_) trivial
    (h.running_eq_loaded hrun)
  · rw [hthread, Function.update_self]
    exact ⟨hcore, ThreadState.noConfusion⟩

/-- `NX_ThreadBlock` of the running thread itself. -/
theorem blockSelf (h : SmpInv cores s) (hrun : s.RunsThread cores c t)
    (hstep : s.threadBlock cores c t = .ok s') : SmpInv cores s' := by
  obtain ⟨-, hstate, hcore⟩ := h.running_of_runs hrun
  have hown := h.own_of_onCore hcore
  have hnull : t ≠ 0 := by
    rintro rfl
    rw [h.queues.null.1] at hstate
    cases hstate
  unfold SmpState.threadBlock at hstep
  rw [if_neg hnull] at hstep
  simp only [hstate] at hstep
  cases hstep
  have hwf : ((s.sched.thread t).setState .blocked).WellFormed cores := by
    obtain ⟨hwfCore, hfixed, hsharing, hconstant⟩ := h.queues.wellFormed t
    exact ⟨hwfCore, hfixed, hsharing, hconstant⟩
  refine h.goto hrun.2.1 (.write s.sched t _) (fun _ => rfl) hown
    (goto_queues_free rfl trivial ?_) (fun u hu => nomatch hu) (fun _ => ?_) trivial
    (h.running_eq_loaded hrun)
  · exact ((h.release hrun).write (Set.mem_insert ..) hwf).drop (notMem_otherHeld hown)
      (by rw [write_thread_self]; rfl) (h.listed_of_runs hrun)
  · rw [write_thread_self]
    exact ⟨hcore, ThreadState.noConfusion⟩

theorem threadExit (h : SmpInv cores s) (hrun : s.RunsThread cores c t)
    (hstep : s.threadExit cores c = .ok s') : SmpInv cores s' := by
  obtain ⟨-, hstate, hcore⟩ := h.running_of_runs hrun
  have hown := h.own_of_onCore hcore
  unfold SmpState.threadExit threadDeququeGlobalList at hstep
  rw [SchedInv.threadSelf_eq hrun.2, exec_ok_bind, if_pos (h.listed_of_runs hrun),
    exec_ok_bind] at hstep
  cases hstep
  refine h.goto hrun.2.1 (t := t) ⟨fun _ _ => rfl, fun u hu => List.mem_erase_of_ne hu⟩
    (fun _ => rfl) hown
    (goto_queues_held rfl trivial ((h.release hrun).delist (Set.mem_insert ..)))
    (fun u hu => (Option.some.inj hu).symm) (fun _ => ⟨hcore, ?_⟩)
    ⟨hstate, h.queues.globalNodup.not_mem_erase⟩ ⟨hrun.2.2, ?_⟩
  · rw [hstate]
    decide
  · rw [← h.running_eq_loaded hrun]
    exact hrun.2.2

theorem reSchedCheck (h : SmpInv cores s) (hrun : s.RunsThread cores c t)
    (hstep : s.reSchedCheck cores c = .ok s') : SmpInv cores s' := by
  unfold SmpState.reSchedCheck at hstep
  rw [SchedInv.threadSelf_eq hrun.2, exec_ok_bind] at hstep
  simp only at hstep
  split at hstep
  · have hwrite := h.modify { s.sched.thread t with isTerminated := false } rfl rfl rfl rfl
    exact hwrite.threadExit hrun hstep
  · split at hstep
    · have hwrite := h.modify
        { s.sched.thread t with needSched := false, ticks := (s.sched.thread t).timeslice }
        rfl rfl rfl rfl
      exact hwrite.schedYield hrun hstep
    · cases hstep
      exact h

theorem schedIrqHandler (h : SmpInv cores s) (hrun : s.RunsThread cores c t)
    (hstep : s.schedIrqHandler cores c = .ok s') : SmpInv cores s' := by
  unfold SmpState.schedIrqHandler at hstep
  rw [SchedInv.threadSelf_eq hrun.2, exec_ok_bind] at hstep
  simp only at hstep
  split at hstep
  · exact h.threadExit hrun hstep
  · cases hstep
    exact h.modify _ rfl rfl rfl rfl

/-! ## Sections -/

theorem schedExit (h : SmpInv cores s) (hpoint : s.point c = .leaving t)
    (hstep : s.schedExit cores c = .ok s') : SmpInv cores s' := by
  obtain ⟨hc, hcore, -⟩ := h.used_at hpoint rfl
  obtain ⟨-, hout⟩ := h.holds_at hpoint
  obtain ⟨hrunning, hloaded⟩ := h.shows_at hpoint
  have hown := h.own_of_onCore hcore
  unfold SmpState.schedExit at hstep
  rw [SchedInv.threadSelf_eq ⟨hc, hrunning⟩, exec_ok_bind] at hstep
  obtain ⟨τ, hexit, hrest⟩ := exec_bind_eq_ok_iff.mp hstep
  obtain ⟨-, -, hτ⟩ := exec_bind_eq_ok_iff.mp hexit
  cases hτ
  cases hrest
  refine h.goto hc (.update rfl rfl) (fun _ => rfl) hown (goto_queues_free rfl trivial ?_)
    (fun u hu => nomatch hu) (fun _ => ?_) trivial (hrunning.trans hloaded.symm)
  · -- the thread is off the global list already
    exact (h.queues_held hpoint rfl trivial).retire (notMem_otherHeld hown) rfl rfl rfl rfl
      (List.erase_of_not_mem hout).symm rfl rfl
  · show ((s.sched.write t _).thread t).onCore = c ∧ ((s.sched.write t _).thread t).state ≠ _
    rw [write_thread_self]
    exact ⟨hcore, ThreadState.noConfusion⟩

theorem schedLockedIRQ (h : SmpInv cores s) (hc : c < cores) (hpoint : s.point c = .sched)
    (hstep : s.schedLockedIRQ cores c = .ok s') : SmpInv cores s' := by
  have hpass : ∀ {point}, point.held = none → point.IsOpen → point.Holds s.sched →
      point.Shows (s.sched.cpuArray c).threadRunning (s.loaded c) →
      SmpInv cores (s.goto c point s.sched) :=
    h.pass hc (by rw [hpoint]; rfl) (by rw [hpoint]; trivial)
  have hshows : (s.sched.cpuArray c).threadRunning = s.loaded c := h.shows_at hpoint
  obtain ⟨cur, -, hstep⟩ := exec_bind_eq_ok_iff.mp hstep
  obtain ⟨cpu, -, hstep⟩ := exec_bind_eq_ok_iff.mp hstep
  split at hstep
  · cases hstep
  · simp only at hstep
    split at hstep
    · cases hstep
      exact hpass rfl trivial trivial hshows
    · split at hstep
      · cases hstep
        exact hpass rfl trivial trivial hshows
      · cases hstep
        exact hpass rfl trivial trivial hshows

theorem pullThread (h : SmpInv cores s) (hc : c < cores) (hpoint : s.point c = .pull prev)
    (hstep : s.pullThread cores c prev = .ok s') : SmpInv cores s' := by
  have hshows : (s.sched.cpuArray c).threadRunning = s.loaded c := h.shows_at hpoint
  have hfree := h.queues_free hpoint rfl trivial
  obtain ⟨r, hrun, htakes⟩ := threadPickPendingList_takes hfree
  unfold SmpState.pullThread at hstep
  rw [hrun, exec_ok_bind] at hstep
  cases htakes with
  | none =>
      cases hstep
      exact h.pass hc (by rw [hpoint]; rfl) (by rw [hpoint]; trivial) rfl trivial trivial hshows
  | some t τ ht hstate hcore hinv hthread hsame =>
      cases hstep
      have hlisted : t ∈ s.sched.manager.globalList :=
        (hfree.listed t ht).mpr (by rw [hstate]; exact ⟨by decide, by decide⟩)
      have hready : ((τ.write t ((τ.thread t).setOnCore c)).thread t).state = .ready := by
        rw [write_thread_self, hthread]
        exact hstate
      have hwf := wellFormed_setOnCore (hinv.wellFormed t) (Nat.le_of_lt hc)
      refine h.goto hc ((Touches.same hthread hsame.globalList).trans (.write τ t _))
        hsame.threadRunning (h.own_of_pending hcore)
        (goto_queues_held rfl trivial (hinv.write (Set.mem_insert ..) hwf))
        (fun u hu => (Option.some.inj hu).symm) (fun _ => ⟨?_, ?_⟩)
        ⟨hready, hsame.globalList ▸ hlisted⟩ hshows
      · rw [write_thread_self]
        rfl
      · rw [hready]
        decide

theorem readyPulled (h : SmpInv cores s) (hpoint : s.point c = .pulled prev t)
    (hrun : threadReadyRun cores s.sched t .head = .ok τ) :
    SmpInv cores (s.goto c (.pick prev) τ) := by
  obtain ⟨hc, hcore, -⟩ := h.used_at hpoint rfl
  obtain ⟨-, hlisted⟩ := h.holds_at hpoint
  have hshows : (s.sched.cpuArray c).threadRunning = s.loaded c := h.shows_at hpoint
  have hown := h.own_of_onCore hcore
  obtain ⟨τ', hready, hτ, hthread, hsame⟩ := threadReadyRun_held
    (h.queues_held hpoint rfl trivial) (notMem_otherHeld hown) hlisted .head
  obtain rfl := Except.ok.inj (hrun.symm.trans hready)
  refine h.goto hc (.update hthread hsame.globalList) hsame.threadRunning hown
    (goto_queues_free rfl trivial hτ) (fun u hu => nomatch hu) (fun _ => ?_) trivial hshows
  rw [hthread, Function.update_self]
  exact ⟨hcore, ThreadState.noConfusion⟩

theorem pushThread (h : SmpInv cores s) (hc : c < cores) (hpoint : s.point c = .push prev)
    (hsaves : ∀ t ∈ s.loaded c, ¬s.sched.FirstUnbound cores c t)
    (hstep : s.pushThread cores c prev = .ok s') : SmpInv cores s' := by
  have hshows : (s.sched.cpuArray c).threadRunning = s.loaded c := h.shows_at hpoint
  have hfree := h.queues_free hpoint rfl trivial
  obtain ⟨r, hrun, htakes⟩ := smpDeququeNoAffinityThread_takes hfree hc
  unfold SmpState.pushThread at hstep
  rw [hrun, exec_ok_bind] at hstep
  cases htakes with
  | none =>
      cases hstep
      exact h.pass hc (by rw [hpoint]; rfl) (by rw [hpoint]; trivial) rfl trivial trivial hshows
  | some t τ ht hstate hcore hinv hthread hsame =>
      cases hstep
      have hlisted : t ∈ s.sched.manager.globalList :=
        (hfree.listed t ht).mpr (by rw [hstate]; exact ⟨by decide, by decide⟩)
      have hnot : s.loaded c ≠ some t :=
        fun hloaded => hsaves t hloaded (firstUnbound_of_dequque hrun)
      have hready : (τ.thread t).state = .ready := by
        rw [hthread]
        exact hstate
      refine h.goto hc (.same hthread hsame.globalList) hsame.threadRunning
        (h.own_of_onCore hcore.1) (goto_queues_held rfl trivial hinv)
        (fun u hu => (Option.some.inj hu).symm) (fun _ => ⟨?_, ?_⟩)
        ⟨hready, hsame.globalList ▸ hlisted⟩ ⟨hshows, hnot⟩
      · rw [hthread]
        exact hcore.1
      · rw [hready]
        decide

theorem pendPushed (h : SmpInv cores s) (hpoint : s.point c = .pushed prev t) :
    SmpInv cores (s.goto c (.pick prev) (threadAddToGlobalPendingList
      (s.sched.write t ((s.sched.thread t).setOnCore cores)) t .head)) := by
  obtain ⟨hc, hcore, -⟩ := h.used_at hpoint rfl
  obtain ⟨hstate, hlisted⟩ := h.holds_at hpoint
  obtain ⟨hshows, hnot⟩ := h.shows_at hpoint
  have hown := h.own_of_onCore hcore
  obtain ⟨hτ, henqueued⟩ := (h.queues_held hpoint rfl trivial).pend (notMem_otherHeld hown) hstate
    hlisted
  refine h.goto hc (.update rfl rfl) (fun _ => rfl) hown (goto_queues_free rfl trivial hτ)
    (fun u hu => nomatch hu) (fun hused => ?_) trivial hshows
  -- the core has nothing to do with the thread any more
  rcases hused with hused | hused | hused
  · exact absurd (hshows.symm.trans hused) hnot
  · exact absurd hused hnot
  · rw [goto_point_self] at hused
    cases hused

/-- `NX_SMP_PickThreadIrqDisabled` on an open core. -/
theorem pickThread (h : SmpInv cores s) (hc : c < cores)
    (hfree : QueueInv cores (s.otherHeld c) (insert c (s.otherOpen c)) s.sched)
    (hshows : (s.sched.cpuArray c).threadRunning = s.loaded c)
    (hrun : smpPickThread cores s.sched c = .ok (t, τ)) :
    SmpInv cores (s.goto c (.picked prev t) τ) := by
  obtain ⟨u, prio, hu⟩ := exists_ready_of_pick hrun
  obtain ⟨t', τ', hpick, ht, hinv, hstate, hcore, hsame, hthread⟩ := smpPickThread_takes hfree hc hu
  obtain ⟨rfl, rfl⟩ := Prod.mk.inj (Except.ok.inj (hrun.symm.trans hpick))
  have hlisted : t ∈ s.sched.manager.globalList :=
    (hfree.listed t ht).mpr (by rw [hstate]; exact ⟨by decide, by decide⟩)
  have hready : (τ.thread t).state = .ready := by
    rw [hthread, Function.update_self, threadLowerPriority_state]
    exact hstate
  refine h.goto hc (.update hthread hsame.globalList) hsame.threadRunning (h.own_of_onCore hcore)
    (goto_queues_held rfl trivial hinv) (fun u hu => (Option.some.inj hu).symm) (fun _ => ⟨?_, ?_⟩)
    ⟨hready, hsame.globalList ▸ hlisted⟩ hshows
  · rw [hthread, Function.update_self, threadLowerPriority_onCore]
    exact hcore
  · rw [hready]
    decide

theorem schedToFirstThread (h : SmpInv cores s) (hc : c < cores) (hpoint : s.point c = .runs)
    (hnone : (s.sched.cpuArray c).threadRunning = none)
    (hstep : s.schedToFirstThread cores c = .ok s') : SmpInv cores s' := by
  obtain ⟨⟨t, τ⟩, hpick, hrest⟩ := exec_bind_eq_ok_iff.mp hstep
  cases hrest
  exact h.pickThread hc ((h.queues_closed hpoint rfl id).openCore hnone) (h.shows_at hpoint) hpick

/-- `NX_SMP_SetRunning` of the thread that was picked. -/
theorem setRunning (h : SmpInv cores s) (hpoint : s.point c = .picked prev t) :
    SmpInv cores (s.goto c (.switch prev t) (smpSetRunning cores s.sched c t).2) := by
  obtain ⟨hc, hcore, hinit⟩ := h.used_at hpoint rfl
  obtain ⟨-, hlisted⟩ := h.holds_at hpoint
  have hown := h.own_of_onCore hcore
  have hnull : t ≠ 0 := fun hzero => hinit (hzero ▸ h.queues.null.1)
  obtain ⟨-, hqueues⟩ := smpSetRunning_runs (h.queues_held hpoint rfl trivial)
    (notMem_otherHeld hown) (notMem_otherOpen s c) hc hcore hlisted
  obtain ⟨hthread, hself, hother, -, hmanager, -⟩ := smpSetRunning_switches (σ := s.sched) hc hnull
  have htouches : Touches s.sched (smpSetRunning cores s.sched c t).2 t :=
    .update hthread (congrArg ThreadManager.globalList hmanager)
  refine h.own (fun d hd => goto_point_of_ne hd) (fun _ _ => rfl) hother htouches hown
    (goto_queues_closed rfl id hqueues) ⟨fun u hu => ⟨hc, ?_⟩, ?_, ?_⟩
  · show ((smpSetRunning cores s.sched c t).2.thread u).onCore = c ∧
      ((smpSetRunning cores s.sched c t).2.thread u).state ≠ .init
    by_cases hut : u = t
    · rw [hut, hthread, Function.update_self]
      exact ⟨hcore, ThreadState.noConfusion⟩
    · rw [htouches.thread u hut]
      rcases hu with hu | hu | hu
      · exact absurd (Option.some.inj (hu.symm.trans hself)) hut
      · exact ((h.core c).used u (.inr (.inl hu))).2
      · rw [goto_point_self] at hu
        cases hu
  · rw [goto_point_self]
    trivial
  · rw [goto_point_self]
    exact hself

theorem switchContext (h : SmpInv cores s) (hpoint : s.point c = .switch prev t) :
    SmpInv cores { s.goto c .runs s.sched with
      loaded := Function.update s.loaded c (some t) } := by
  have hrunning : (s.sched.cpuArray c).threadRunning = some t := h.shows_at hpoint
  have hused := (h.core c).used t (.inl hrunning)
  have hqueues : QueueInv cores (s.goto c .runs s.sched).held (s.goto c .runs s.sched).opened
      s.sched :=
    goto_queues_closed rfl id (h.queues_closed hpoint rfl id)
  refine h.own (fun d hd => Function.update_of_ne hd ..)
    (fun d hd => Function.update_of_ne hd ..) (fun _ _ => rfl) (.refl s.sched t) (h.own_of_onCore hused.2.1) hqueues
    ⟨fun u hu => ?_, ?_, ?_⟩
  · rcases hu with hu | hu | hu
    · exact (h.core c).used u (.inl hu)
    · replace hu : Function.update s.loaded c (some t) c = some u := hu
      rw [Function.update_self] at hu
      exact Option.some.inj hu ▸ hused
    · have hnone : ((s.goto c .runs s.sched).point c).held = some u := hu
      rw [goto_point_self] at hnone
      cases hnone
  · show ((s.goto c .runs s.sched).point c).Holds s.sched
    rw [goto_point_self]
    trivial
  · show ((s.goto c .runs s.sched).point c).Shows _ (Function.update s.loaded c (some t) c)
    rw [goto_point_self, Function.update_self]
    exact hrunning

end SmpInv

end Nxos.Sched
