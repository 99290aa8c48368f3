import Nxos.Sched.Smp.Steps

/-!
# Every order of the sections

As long as no core pushes the thread whose context it has yet to save, a thread is the
running one of at most one core, and is picked only where its context is saved first.  Two
cores run one thread when a thread that yields is pushed.
-/

namespace Nxos.Sched

open Nxos.Transition

variable {cores c t : ℕ} {s s' : SmpState} {σ : Scheduler}

namespace SmpInv

/-! ## One step -/

theorem advance (h : SmpInv cores s) (hc : c < cores)
    (hsaves : (SmpOp.advance c).Saves cores s) (hstep : s.advance cores c = .ok s') :
    SmpInv cores s' := by
  unfold SmpState.advance at hstep
  cases hpoint : s.point c with
  | runs =>
      simp only [hpoint] at hstep
      cases hstep
      exact h
  | leaving t =>
      simp only [hpoint] at hstep
      exact h.schedExit hpoint hstep
  | sched =>
      simp only [hpoint] at hstep
      exact h.schedLockedIRQ hc hpoint hstep
  | pull prev =>
      simp only [hpoint] at hstep
      exact h.pullThread hc hpoint hstep
  | pulled prev t =>
      simp only [hpoint] at hstep
      obtain ⟨τ, hready, hrest⟩ := exec_bind_eq_ok_iff.mp hstep
      cases hrest
      exact h.readyPulled hpoint hready
  | push prev =>
      simp only [hpoint] at hstep
      exact h.pushThread hc hpoint (hsaves (by rw [hpoint]; trivial)) hstep
  | pushed prev t =>
      simp only [hpoint] at hstep
      cases hstep
      exact h.pendPushed hpoint
  | pick prev =>
      simp only [hpoint] at hstep
      obtain ⟨⟨t, τ⟩, hpick, hrest⟩ := exec_bind_eq_ok_iff.mp hstep
      cases hrest
      exact h.pickThread hc (h.queues_free hpoint rfl trivial) (h.shows_at hpoint) hpick
  | picked prev t =>
      simp only [hpoint] at hstep
      cases hstep
      exact h.setRunning hpoint
  | switch prev t =>
      simp only [hpoint] at hstep
      cases hstep
      exact h.switchContext hpoint

theorem step (h : SmpInv cores s) {op : SmpOp} (hmove : SavingMove cores s op s') :
    SmpInv cores s' := by
  obtain ⟨⟨hallowed, hstep⟩, hsaves⟩ := hmove
  cases op with
  | create t priority =>
      cases hstep
      exact h.create hallowed priority
  | setAffinity t coreId =>
      cases hstep
      exact h.setAffinity hallowed coreId
  | start t =>
      obtain ⟨r, hstart, rfl⟩ := exec_map_eq_ok_iff.mp hstep
      exact h.start hallowed hstart
  | enterCore =>
      cases hstep
      exact h.enterCore
  | unblock t =>
      obtain ⟨r, hunblock, rfl⟩ := exec_map_eq_ok_iff.mp hstep
      exact h.unblock hunblock
  | terminate t =>
      obtain ⟨r, hterminate, rfl⟩ := exec_map_eq_ok_iff.mp hstep
      exact h.terminate hterminate
  | toFirst coreId =>
      obtain ⟨hpoint, hc, hnone⟩ := hallowed
      exact h.schedToFirstThread hc hpoint hnone hstep
  | yield coreId =>
      obtain ⟨cur, hrun⟩ := hallowed
      exact h.schedYield hrun hstep
  | reSched coreId =>
      obtain ⟨cur, hrun⟩ := hallowed
      exact h.reSchedCheck hrun hstep
  | irq coreId =>
      obtain ⟨cur, hrun⟩ := hallowed
      exact h.schedIrqHandler hrun hstep
  | block coreId t =>
      obtain ⟨cur, hrun, rfl | hstate⟩ := hallowed
      · exact h.blockSelf hrun hstep
      · exact h.blockOther hstate hstep
  | exit coreId =>
      obtain ⟨cur, hrun⟩ := hallowed
      exact h.threadExit hrun hstep
  | advance coreId => exact h.advance hallowed hsaves hstep

/-! ## The property -/

/-- A thread that a core is going to run belongs to this core. -/
theorem uses_of_next (h : SmpInv cores s) (hnext : (s.point c).next = some t) : s.Uses c t := by
  cases hpoint : s.point c with
  | picked prev next =>
      rw [hpoint] at hnext
      cases hnext
      exact .inr (.inr (by rw [hpoint]; rfl))
  | switch prev next =>
      rw [hpoint] at hnext
      cases hnext
      exact .inl (h.shows_at hpoint)
  | _ =>
      rw [hpoint] at hnext
      cases hnext

theorem exclusive (h : SmpInv cores s) : s.Exclusive :=
  ⟨fun _ _ _ hc hd => h.uses_unique (.inl hc) (.inl hd),
    fun _ _ _ hnext hloaded => h.uses_unique (.inr (.inl hloaded)) (h.uses_of_next hnext)⟩

end SmpInv

/-! ## Boot -/

theorem smpInv_start (hqueues : QueueInv cores ∅ ∅ σ)
    (hrunning : ∀ c, (σ.cpuArray c).threadRunning = none) : SmpInv cores (smpStart σ) := by
  have hheld : (smpStart σ).held = ∅ := Set.eq_empty_of_forall_notMem fun _ ⟨_, hd⟩ => nomatch hd
  have hopened : (smpStart σ).opened = ∅ := Set.eq_empty_of_forall_notMem fun _ hd => hd
  refine ⟨?_, fun c => ⟨fun t ht => ?_, trivial, hrunning c⟩⟩
  · rw [hheld, hopened]
    exact hqueues
  · rcases ht with ht | ht | ht
    · rw [show (smpStart σ).sched = σ from rfl, hrunning] at ht
      cases ht
    · cases ht
    · cases ht

/-! ## Every run -/

/-- In every order of the sections of any number of cores in which no core pushes the thread
whose context it has yet to save, no thread is the running one of two cores, and no core is
going to run a thread whose context another core has yet to save. -/
theorem smpReachable_exclusive (cores : ℕ) (idle : ℕ → ℕ) (hnull : ∀ c < cores, idle c ≠ 0)
    (hdiffer : ∀ c < cores, ∀ d < cores, idle c = idle d → c = d) :
    ∃ start, threadInitIdle cores idle cores = .ok start ∧
      ∀ s, Reachable (SavingMove cores) (smpStart start) s → s.Exclusive := by
  obtain ⟨start, hboot, hqueues, -, -, -, hrunning⟩ :=
    threadInitIdle_inv idle hnull hdiffer (Nat.le_refl cores)
  refine ⟨start, hboot, fun s hreach => ?_⟩
  have hinv : SmpInv cores s :=
    hreach.invariant (smpInv_start hqueues hrunning) fun hinv hmove => hinv.step hmove
  exact hinv.exclusive

/-! ## Runs that can be computed -/

instance decidableRunsThread (s : SmpState) (c t : ℕ) : Decidable (s.RunsThread cores c t) :=
  inferInstanceAs (Decidable (_ ∧ _))

instance decidableExistsRunsThread (s : SmpState) (c : ℕ) :
    Decidable (∃ cur, s.RunsThread cores c cur) :=
  decidable_of_iff (s.point c = .runs ∧ ∃ cur, s.sched.Runs cores c cur) exists_and_left.symm

instance decidableExistsRunsThreadAnd (s : SmpState) (c : ℕ) (P : ℕ → Prop)
    [DecidablePred P] : Decidable (∃ cur, s.RunsThread cores c cur ∧ P cur) :=
  decidable_of_iff (s.point c = .runs ∧ ∃ cur, s.sched.Runs cores c cur ∧ P cur) (by
    rw [← exists_and_left]
    exact exists_congr fun cur => and_assoc.symm)

instance decidableSmpAllowed (s : SmpState) (op : SmpOp) : Decidable (op.Allowed cores s) :=
  match op with
  | .create t _ => inferInstanceAs (Decidable ((s.sched.thread t).state = .init))
  | .setAffinity t _ => inferInstanceAs (Decidable ((s.sched.thread t).state = .init))
  | .start t => inferInstanceAs (Decidable ((s.sched.thread t).state = .init))
  | .enterCore => .isTrue trivial
  | .unblock _ => .isTrue trivial
  | .terminate _ => .isTrue trivial
  | .toFirst coreId => inferInstanceAs (Decidable (s.point coreId = .runs ∧ coreId < cores ∧
      (s.sched.cpuArray coreId).threadRunning = none))
  | .yield coreId => inferInstanceAs (Decidable (∃ cur, s.RunsThread cores coreId cur))
  | .reSched coreId => inferInstanceAs (Decidable (∃ cur, s.RunsThread cores coreId cur))
  | .irq coreId => inferInstanceAs (Decidable (∃ cur, s.RunsThread cores coreId cur))
  | .block coreId t => inferInstanceAs (Decidable (∃ cur, s.RunsThread cores coreId cur ∧
      (t = cur ∨ (s.sched.thread t).state ≠ .running)))
  | .exit coreId => inferInstanceAs (Decidable (∃ cur, s.RunsThread cores coreId cur))
  | .advance coreId => inferInstanceAs (Decidable (coreId < cores))

instance (point : CorePoint) : Decidable point.Pushes :=
  match point with
  | .push _ => .isTrue trivial
  | .runs | .leaving _ | .sched | .pull _ | .pulled _ _ | .pushed _ _ | .pick _ | .picked _ _
  | .switch _ _ => .isFalse id

instance decidableSaves (s : SmpState) (op : SmpOp) : Decidable (op.Saves cores s) :=
  match op with
  | .advance coreId => inferInstanceAs (Decidable ((s.point coreId).Pushes →
      ∀ t ∈ s.loaded coreId, ¬s.sched.FirstUnbound cores coreId t))
  | .create _ _ | .setAffinity _ _ | .start _ | .enterCore | .unblock _ | .terminate _
  | .toFirst _ | .yield _ | .reSched _ | .irq _ | .block _ _ | .exit _ => .isTrue trivial

def performSmpStep (cores : ℕ) (P : SmpState → SmpOp → Prop) [∀ s op, Decidable (P s op)]
    (s : SmpState) (op : SmpOp) : Option SmpState :=
  if op.Allowed cores s ∧ P s op then (smpStep cores s op).toOption else none

theorem smpMove_of_performSmpStep {P : SmpState → SmpOp → Prop} [∀ s op, Decidable (P s op)]
    {op : SmpOp} (h : performSmpStep cores P s op = some s') : SmpMove cores s op s' ∧ P s op := by
  unfold performSmpStep at h
  split at h
  · next hallowed => exact ⟨⟨hallowed.1, toOption_eq_some h⟩, hallowed.2⟩
  · cases h

/-- Perform steps after the boot, where the idle threads lie at `1`, `2`, and so on. -/
def performSmp (cores : ℕ) (P : SmpState → SmpOp → Prop) [∀ s op, Decidable (P s op)]
    (ops : List SmpOp) : Option SmpState :=
  (threadInitIdle cores (· + 1) cores).toOption.bind fun σ =>
    perform (performSmpStep cores P) (smpStart σ) ops

theorem reachable_of_performSmp {P : SmpState → SmpOp → Prop} [∀ s op, Decidable (P s op)]
    {ops : List SmpOp} (h : performSmp cores P ops = some s) :
    ∃ start, threadInitIdle cores (· + 1) cores = .ok start ∧
      Reachable (fun s op s' => SmpMove cores s op s' ∧ P s op) (smpStart start) s := by
  obtain ⟨start, hboot, hrun⟩ := Option.bind_eq_some_iff.mp h
  exact ⟨start, toOption_eq_some hboot, .of_perform smpMove_of_performSmpStep hrun⟩

def pullRun (coreId : ℕ) : List SmpOp := .yield coreId :: List.replicate 6 (.advance coreId)

def boundRun : List SmpOp :=
  [.create 6 3, .setAffinity 6 0, .start 6, .create 7 3, .setAffinity 7 0, .start 7, .enterCore,
    .toFirst 1, .advance 1, .advance 1]

/-- The first core gives up its thread and pushes one.  Before it picks the next, the second
core pulls a thread and picks it. -/
def crossRun : List SmpOp :=
  .yield 0 :: List.replicate 3 (.advance 0) ++ .yield 1 :: List.replicate 4 (.advance 1)

def savedRun : List SmpOp :=
  [.toFirst 0, .advance 0, .advance 0, .create 5 3, .start 5, .create 8 3, .start 8] ++
    pullRun 0 ++ pullRun 0 ++ boundRun ++ crossRun

theorem smpReachable_exclusive_savedRun :
    ∃ start s, threadInitIdle 2 (· + 1) 2 = .ok start ∧
      Reachable (SavingMove 2) (smpStart start) s ∧ s.point 1 = .picked (some 2) 5 ∧
      s.loaded 0 = some 8 ∧ s.Exclusive := by
  obtain ⟨start, hboot, hruns⟩ := smpReachable_exclusive 2 (· + 1)
    (fun _ _ => Nat.succ_ne_zero _) fun _ _ _ _ => Nat.succ.inj
  have heval : (performSmp 2 (fun s op => op.Saves 2 s) savedRun).map (fun s =>
      decide (s.point 1 = .picked (some 2) 5 ∧ s.loaded 0 = some 8)) = some true := by
    decide +kernel
  obtain ⟨s, hrun, hs⟩ := Option.map_eq_some_iff.mp heval
  obtain ⟨hpoint, hloaded⟩ := of_decide_eq_true hs
  obtain ⟨start', hboot', hreach⟩ := reachable_of_performSmp hrun
  obtain rfl := Except.ok.inj (hboot.symm.trans hboot')
  exact ⟨start, s, hboot, hreach, hpoint, hloaded, hruns s hreach⟩

/-- The first core runs the one thread that it has pulled, and pushes it.  The second core
picks it and runs it, before the first has saved its context. -/
def pushedRun : List SmpOp :=
  [.toFirst 0, .advance 0, .advance 0, .create 5 3, .start 5] ++ pullRun 0 ++ boundRun ++
    crossRun ++ [.advance 1]

theorem exists_not_exclusive :
    ∃ start s, threadInitIdle 2 (· + 1) 2 = .ok start ∧
      Reachable (SmpMove 2) (smpStart start) s ∧
      (s.sched.cpuArray 0).threadRunning = some 5 ∧ (s.sched.cpuArray 1).threadRunning = some 5 ∧
      (s.point 1).next = some 5 ∧ s.loaded 0 = some 5 ∧ ¬s.Exclusive := by
  have heval : (performSmp 2 (fun _ _ => True) pushedRun).map (fun s =>
      decide ((s.sched.cpuArray 0).threadRunning = some 5 ∧
        (s.sched.cpuArray 1).threadRunning = some 5 ∧ (s.point 1).next = some 5 ∧
        s.loaded 0 = some 5)) = some true := by
    decide +kernel
  obtain ⟨s, hrun, hs⟩ := Option.map_eq_some_iff.mp heval
  obtain ⟨hzero, hone, hnext, hloaded⟩ := of_decide_eq_true hs
  obtain ⟨start, hboot, hreach⟩ := reachable_of_performSmp hrun
  refine ⟨start, s, hboot, hreach.mono fun hmove => hmove.1, hzero, hone, hnext, hloaded,
    fun hexclusive => ?_⟩
  exact absurd (hexclusive.1 0 1 5 hzero hone) (by decide)

end Nxos.Sched
