import Nxos.Sched.Operations

/-!
# The schedule

A core gives up its thread and runs the next one.  The idle thread of the core is bound to
it and always ready or running, so that there is a next thread.
-/

namespace Nxos.Sched

variable {cores : ℕ} {held opened : Set ℕ} {σ τ ρ : Scheduler} {t c : ℕ}

/-! ## Switching -/

/-- A thread that is bound to the core is ready on it. -/
def Scheduler.SpareOn (cores : ℕ) (held : Set ℕ) (σ : Scheduler) (c : ℕ) : Prop :=
  ∃ u ∉ held, (σ.thread u).state = .ready ∧ (σ.thread u).onCore = c ∧
    (σ.thread u).coreAffinity < cores

/-- A core switched to the thread `next`.  Other threads changed their core at most, and
only when they are ready and not bound to one. -/
structure Switched (cores : ℕ) (σ τ : Scheduler) (c next : ℕ) : Prop where
  wasReady : (σ.thread next).state = .ready
  runs : (τ.thread next).state = .running
  threadRunning : (τ.cpuArray c).threadRunning = some next
  otherCores : ∀ d, d ≠ c → (τ.cpuArray d).threadRunning = (σ.cpuArray d).threadRunning
  idleThread : ∀ d, (τ.cpuArray d).idleThread = (σ.cpuArray d).idleThread
  state : ∀ u, u ≠ next → (τ.thread u).state = (σ.thread u).state
  coreAffinity : ∀ u, (τ.thread u).coreAffinity = (σ.thread u).coreAffinity
  isTerminated : ∀ u, (τ.thread u).isTerminated = (σ.thread u).isTerminated
  onCore : ∀ u, (σ.thread u).onCore < cores → (σ.thread u).coreAffinity < cores →
    (τ.thread u).onCore = (σ.thread u).onCore
  globalList : τ.manager.globalList = σ.manager.globalList
  exitList : τ.manager.exitList = σ.manager.exitList
  activedCoreCount : τ.activedCoreCount = σ.activedCoreCount

/-- The thread is ready or runs. -/
def Thread.Schedulable (th : Thread) : Prop := th.state = .ready ∨ th.state = .running

def SameIdle (σ τ : Scheduler) : Prop :=
  ∀ c, (τ.cpuArray c).idleThread = (σ.cpuArray c).idleThread

/-- No thread was blocked, unblocked or terminated.  Threads that were ready or ran still
do, except for those in `gone`. -/
structure SameBlocked (gone : Set ℕ) (σ τ : Scheduler) : Prop where
  blocked : ∀ u, (τ.thread u).state = .blocked ↔ (σ.thread u).state = .blocked
  terminated : ∀ u, (τ.thread u).isTerminated = true → (σ.thread u).isTerminated = true
  schedulable : ∀ u ∉ gone, (σ.thread u).Schedulable → (τ.thread u).Schedulable
  idleThread : SameIdle σ τ

namespace SameBlocked

variable {gone gone' : Set ℕ}

theorem refl (gone : Set ℕ) (σ : Scheduler) : SameBlocked gone σ σ :=
  ⟨fun _ => Iff.rfl, fun _ => id, fun _ _ => id, fun _ => rfl⟩

theorem trans (h : SameBlocked gone σ τ) (h' : SameBlocked gone τ ρ) : SameBlocked gone σ ρ :=
  ⟨fun u => (h'.blocked u).trans (h.blocked u), fun u hu => h.terminated u (h'.terminated u hu),
    fun u hu hs => h'.schedulable u hu (h.schedulable u hu hs),
    fun c => (h'.idleThread c).trans (h.idleThread c)⟩

theorem mono (h : SameBlocked gone σ τ) (hsub : gone ⊆ gone') : SameBlocked gone' σ τ :=
  ⟨h.blocked, h.terminated, fun u hu => h.schedulable u fun hmem => hu (hsub hmem), h.idleThread⟩

theorem update {th : Thread} (hthread : τ.thread = Function.update σ.thread t th)
    (hbefore : (σ.thread t).state ≠ .blocked) (hafter : th.state ≠ .blocked)
    (hterminated : th.isTerminated = true → (σ.thread t).isTerminated = true)
    (hschedulable : t ∉ gone → (σ.thread t).Schedulable → th.Schedulable)
    (hidle : SameIdle σ τ) : SameBlocked gone σ τ := by
  refine ⟨fun u => ?_, fun u hu => ?_, fun u hu hs => ?_, hidle⟩
  · by_cases hut : u = t
    · rw [hthread, hut, Function.update_self]
      exact iff_of_false hafter hbefore
    · rw [hthread, Function.update_of_ne hut]
  · by_cases hut : u = t
    · rw [hthread, hut, Function.update_self] at hu
      rw [hut]
      exact hterminated hu
    · rw [hthread, Function.update_of_ne hut] at hu
      exact hu
  · by_cases hut : u = t
    · subst hut
      rw [hthread, Function.update_self]
      exact hschedulable hu hs
    · rw [hthread, Function.update_of_ne hut]
      exact hs

end SameBlocked

theorem Switched.sameBlocked {next : ℕ} (h : Switched cores σ τ c next) :
    SameBlocked ∅ σ τ := by
  refine ⟨fun u => ?_, fun u hu => (h.isTerminated u).symm.trans hu, fun u _ hs => ?_,
    h.idleThread⟩
  · by_cases hu : u = next
    · rw [hu, h.runs, h.wasReady]
      exact iff_of_false ThreadState.noConfusion ThreadState.noConfusion
    · rw [h.state u hu]
  · by_cases hu : u = next
    · exact .inr (hu ▸ h.runs)
    · unfold Thread.Schedulable
      rw [h.state u hu]
      exact hs

/-- Blocking the thread `t` neither blocks, unblocks nor ends another thread, and terminates
none. -/
structure OtherKept (σ τ : Scheduler) (t : ℕ) : Prop where
  blocked : ∀ u, u ≠ t → ((τ.thread u).state = .blocked ↔ (σ.thread u).state = .blocked)
  schedulable : ∀ u, u ≠ t → (σ.thread u).Schedulable → (τ.thread u).Schedulable
  isTerminated : ∀ u, (τ.thread u).isTerminated = (σ.thread u).isTerminated
  idleThread : SameIdle σ τ

theorem OtherKept.refl (σ : Scheduler) (t : ℕ) : OtherKept σ σ t :=
  ⟨fun _ _ => Iff.rfl, fun _ _ => id, fun _ => rfl, fun _ => rfl⟩

theorem OtherKept.update {state : ThreadState} (hidle : SameIdle σ τ)
    (hthread : τ.thread = Function.update σ.thread t ((σ.thread t).setState state)) :
    OtherKept σ τ t := by
  refine ⟨fun u hu => ?_, fun u hu => ?_, fun u => ?_, hidle⟩
  · rw [hthread, Function.update_of_ne hu]
  · rw [hthread, Function.update_of_ne hu]
    exact id
  · rw [hthread]
    by_cases hut : u = t
    · rw [hut, Function.update_self]
      rfl
    · rw [Function.update_of_ne hut]

theorem OtherKept.switched {c next : ℕ} (h : OtherKept σ τ t)
    (hswitched : Switched cores τ ρ c next) : OtherKept σ ρ t := by
  have hsame := hswitched.sameBlocked
  exact ⟨fun u hu => (hsame.blocked u).trans (h.blocked u hu),
    fun u hu hs => hsame.schedulable u (Set.notMem_empty u) (h.schedulable u hu hs),
    fun u => (hswitched.isTerminated u).trans (h.isTerminated u),
    fun d => (hswitched.idleThread d).trans (h.idleThread d)⟩

theorem threadLowerPriority_isTerminated (th : Thread) :
    (threadLowerPriority th).isTerminated = th.isTerminated := by
  unfold threadLowerPriority
  split
  · simp only
    split <;> rfl
  · rfl

theorem Balanced.state (h : Balanced cores σ τ c) (u : ℕ) :
    (τ.thread u).state = (σ.thread u).state ∧
      (τ.thread u).coreAffinity = (σ.thread u).coreAffinity ∧
      (τ.thread u).isTerminated = (σ.thread u).isTerminated := by
  rcases h u with hu | ⟨-, ⟨-, hu⟩ | ⟨-, hu⟩⟩ <;> rw [hu] <;> exact ⟨rfl, rfl, rfl⟩

theorem Balanced.bound (h : Balanced cores σ τ c) {u : ℕ} (hcore : (σ.thread u).onCore < cores)
    (hbound : (σ.thread u).coreAffinity < cores) : τ.thread u = σ.thread u := by
  rcases h u with hu | ⟨-, ⟨hu, -⟩ | ⟨hu, -⟩⟩
  · exact hu
  · exact absurd hcore (Nat.not_lt_of_le hu)
  · exact absurd hbound (Nat.not_lt_of_le hu)

theorem smpSetRunning_switches {next : ℕ} (hc : c < cores) (hnext : next ≠ 0) :
    (smpSetRunning cores σ c next).2.thread =
        Function.update σ.thread next ((σ.thread next).setState .running) ∧
      ((smpSetRunning cores σ c next).2.cpuArray c).threadRunning = some next ∧
      (∀ d, d ≠ c → ((smpSetRunning cores σ c next).2.cpuArray d).threadRunning =
        (σ.cpuArray d).threadRunning) ∧
      (∀ d, ((smpSetRunning cores σ c next).2.cpuArray d).idleThread =
        (σ.cpuArray d).idleThread) ∧
      (smpSetRunning cores σ c next).2.manager = σ.manager ∧
      (smpSetRunning cores σ c next).2.activedCoreCount = σ.activedCoreCount := by
  unfold smpSetRunning
  rw [if_neg (not_or.mpr ⟨Nat.not_le_of_lt hc, hnext⟩)]
  refine ⟨rfl, by simp only [setCpu_cpuArray_self], fun d hd => ?_, fun d => ?_, rfl, rfl⟩
  · simp only [setCpu_cpuArray_of_ne hd, write_cpuArray]
  · by_cases hd : d = c
    · subst hd
      simp only [setCpu_cpuArray_self, write_cpuArray]
    · simp only [setCpu_cpuArray_of_ne hd, write_cpuArray]

theorem pick_switches (h : QueueInv cores held (insert c opened) σ) (hopen : c ∉ opened)
    (hc : c < cores) (hspare : σ.SpareOn cores held c) :
    ∃ next τ, smpPickThread cores σ c = .ok (next, τ) ∧
      (smpSetRunning cores τ c next).1 = .eok ∧
      QueueInv cores held opened (smpSetRunning cores τ c next).2 ∧ next ∉ held ∧
      (σ.thread next).onCore = c ∧
      Switched cores σ (smpSetRunning cores τ c next).2 c next := by
  obtain ⟨u, hu, hstate, hcore, -⟩ := hspare
  have hmem : u ∈ σ.queue (.ready c (σ.thread u).priority.toNat) := by
    refine (h.queued u _).mpr ⟨hu, hstate, ?_⟩
    rw [home_of_lt (hcore ▸ hc), hcore]
  obtain ⟨next, τ, hpick, hheld, hτ, hready, hnextCore, hsame, hthread⟩ :=
    smpPickThread_takes h hc hmem
  have hlisted : next ∈ τ.manager.globalList := by
    rw [hsame.globalList]
    exact (h.listed next hheld).mpr (by rw [hready]; exact ⟨by decide, by decide⟩)
  have hzero : next ≠ 0 := fun heq => hτ.null.2 (heq ▸ Set.mem_insert ..)
  have hnext : τ.thread next = threadLowerPriority (σ.thread next) := by
    rw [hthread, Function.update_self]
  have hother : ∀ {u}, u ≠ next → τ.thread u = σ.thread u := by
    intro u hu
    rw [hthread, Function.update_of_ne hu]
  obtain ⟨herr, hρ⟩ := smpSetRunning_runs hτ hheld hopen hc
    (by rw [hnext, threadLowerPriority_onCore, hnextCore]) hlisted
  obtain ⟨hrthread, hrself, hrother, hridle, hrmanager, hractive⟩ :=
    smpSetRunning_switches (σ := τ) hc hzero
  refine ⟨next, τ, hpick, herr, hρ, hheld, hnextCore, ?_⟩
  generalize (smpSetRunning cores τ c next).2 = ρ at *
  have hself : ρ.thread next = (threadLowerPriority (σ.thread next)).setState .running := by
    rw [hrthread, Function.update_self, hnext]
  have hkept : ∀ {u}, u ≠ next → ρ.thread u = σ.thread u := by
    intro u hu
    rw [hrthread, Function.update_of_ne hu, hother hu]
  have hfields : ∀ u, (ρ.thread u).coreAffinity = (σ.thread u).coreAffinity ∧
      (ρ.thread u).isTerminated = (σ.thread u).isTerminated ∧
      (ρ.thread u).onCore = (σ.thread u).onCore := by
    intro u
    by_cases hu : u = next
    · rw [hu, hself]
      exact ⟨threadLowerPriority_coreAffinity _, threadLowerPriority_isTerminated _,
        threadLowerPriority_onCore _⟩
    · rw [hkept hu]
      exact ⟨rfl, rfl, rfl⟩
  refine ⟨hready, by rw [hself]; rfl, hrself, fun d hd => ?_, fun d => ?_, fun u hu => ?_,
    fun u => (hfields u).1, fun u => (hfields u).2.1, fun u _ _ => (hfields u).2.2, ?_, ?_, ?_⟩
  · rw [hrother d hd, hsame.threadRunning]
  · rw [hridle, hsame.idleThread]
  · rw [hkept hu]
  · rw [hrmanager, hsame.globalList]
  · rw [hrmanager, hsame.exitList]
  · rw [hractive, hsame.activedCoreCount]

/-- `NX_SchedLockedIRQ` on a core that has given up its thread. -/
theorem schedLockedIRQ_switches (h : QueueInv cores held (insert c opened) σ)
    (hopen : c ∉ opened) (hc : c < cores) (hcur : (σ.cpuArray c).threadRunning = some t)
    (hspare : σ.SpareOn cores held c) :
    ∃ next τ, schedLockedIRQ cores σ c = .ok τ ∧ QueueInv cores held opened τ ∧
      next ∉ held ∧ Switched cores σ τ c next := by
  obtain ⟨ρ, hbalance, hρ, hsame, hbalanced⟩ := pullOrPushThread_balances h hc
  have hspareρ : ρ.SpareOn cores held c := by
    obtain ⟨u, hu, hstate, hcore, hbound⟩ := hspare
    have hkept := hbalanced.bound (hcore ▸ hc) hbound
    exact ⟨u, hu, by rw [hkept]; exact hstate, by rw [hkept]; exact hcore,
      by rw [hkept]; exact hbound⟩
  obtain ⟨next, υ, hpick, -, hinv, hheld, -, hswitched⟩ := pick_switches hρ hopen hc hspareρ
  refine ⟨next, _, ?_, hinv, hheld, ?_⟩
  · unfold schedLockedIRQ threadSelf cpuGetIndex
    rw [nxAssert_pos hc]
    simp only [exec_ok_bind, exec_pure, hcur, hbalance, hpick]
  · refine ⟨?_, hswitched.runs, hswitched.threadRunning, fun d hd => ?_, fun d => ?_,
      fun u hu => ?_, fun u => ?_, fun u => ?_, fun u hcore hbound => ?_, ?_, ?_, ?_⟩
    · rw [← (hbalanced.state next).1]
      exact hswitched.wasReady
    · rw [hswitched.otherCores d hd, hsame.threadRunning]
    · rw [hswitched.idleThread, hsame.idleThread]
    · rw [hswitched.state u hu, (hbalanced.state u).1]
    · rw [hswitched.coreAffinity, (hbalanced.state u).2.1]
    · rw [hswitched.isTerminated, (hbalanced.state u).2.2]
    · have hkept := hbalanced.bound hcore hbound
      rw [hswitched.onCore u (by rw [hkept]; exact hcore) (by rw [hkept]; exact hbound), hkept]
    · rw [hswitched.globalList, hsame.globalList]
    · rw [hswitched.exitList, hsame.exitList]
    · rw [hswitched.activedCoreCount, hsame.activedCoreCount]

/-! ## Idle threads -/

/-- The idle threads of the first `n` cores are bound to them, and ready or running. -/
structure IdleInv (cores n : ℕ) (σ : Scheduler) : Prop where
  idle : ∀ c < n, ∃ i, (σ.cpuArray c).idleThread = some i ∧ (σ.thread i).onCore = c ∧
    (σ.thread i).coreAffinity = c ∧ (σ.thread i).isTerminated = false ∧
    ((σ.thread i).state = .ready ∨ (σ.thread i).state = .running)
  bound : n ≤ cores

theorem IdleInv.of_kept {n : ℕ} (h : IdleInv cores n σ)
    (hidle : ∀ c, (τ.cpuArray c).idleThread = (σ.cpuArray c).idleThread)
    (hkept : ∀ c < n, ∀ i, (σ.cpuArray c).idleThread = some i →
      (σ.thread i).onCore < cores → (σ.thread i).coreAffinity < cores →
      (σ.thread i).state = .ready ∨ (σ.thread i).state = .running →
      (τ.thread i).onCore = (σ.thread i).onCore ∧
        (τ.thread i).coreAffinity = (σ.thread i).coreAffinity ∧
        (τ.thread i).isTerminated = (σ.thread i).isTerminated ∧
        ((τ.thread i).state = .ready ∨ (τ.thread i).state = .running)) :
    IdleInv cores n τ := by
  refine ⟨fun c hc => ?_, h.bound⟩
  obtain ⟨i, hi, hcore, haffinity, hterminated, hstate⟩ := h.idle c hc
  have hlt := Nat.lt_of_lt_of_le hc h.bound
  obtain ⟨hcore', haffinity', hterminated', hstate'⟩ :=
    hkept c hc i hi (hcore ▸ hlt) (haffinity ▸ hlt) hstate
  exact ⟨i, (hidle c).trans hi, hcore'.trans hcore, haffinity'.trans haffinity,
    hterminated'.trans hterminated, hstate'⟩

/-- A thread is the idle thread of some core. -/
def Scheduler.IsIdle (cores : ℕ) (σ : Scheduler) (t : ℕ) : Prop :=
  ∃ c < cores, (σ.cpuArray c).idleThread = some t

instance (cores : ℕ) (σ : Scheduler) (t : ℕ) : Decidable (σ.IsIdle cores t) :=
  inferInstanceAs (Decidable (∃ c < cores, _))

theorem IdleInv.switched {next : ℕ} (h : IdleInv cores cores σ)
    (hswitched : Switched cores σ τ c next) : IdleInv cores cores τ := by
  refine h.of_kept hswitched.idleThread fun d _ i _ hcore hbound hstate =>
    ⟨hswitched.onCore i hcore hbound, hswitched.coreAffinity i, hswitched.isTerminated i, ?_⟩
  by_cases hi : i = next
  · exact .inr (hi ▸ hswitched.runs)
  · rw [hswitched.state i hi]
    exact hstate

/-- On an open core the idle thread is spare, unless it is held. -/
theorem IdleInv.spareOn (h : IdleInv cores cores σ) (hinv : QueueInv cores held opened σ)
    (hc : c < cores) (hopen : c ∈ opened)
    (hfree : ∀ i, (σ.cpuArray c).idleThread = some i → i ∉ held) : σ.SpareOn cores held c := by
  obtain ⟨i, hi, hcore, haffinity, -, hstate⟩ := h.idle c hc
  refine ⟨i, hfree i hi, hstate.resolve_right fun hrunning => ?_, hcore, haffinity ▸ hc⟩
  exact ((hinv.running i c).mpr ⟨hfree i hi, hrunning, hcore⟩).2.1 hopen

end Nxos.Sched
