import Nxos.Sched.Smp.Model

/-!
# What a section leaves to the other cores

Whatever a core has to do with a thread, be it that the thread runs on it, that its context
is in the registers, or that the core holds it between two sections, the thread belongs to
this core: `onCore` says so, and nobody else changes it.  This and the invariant of the
queues are kept by every section.
-/

namespace Nxos.Sched

variable {cores c t : ℕ} {s s' : SmpState} {σ τ : Scheduler}

/-! ## The invariant -/

def CorePoint.Holds (point : CorePoint) (σ : Scheduler) : Prop :=
  match point with
  | .leaving t => (σ.thread t).state = .running ∧ t ∉ σ.manager.globalList
  | .pulled _ t => (σ.thread t).state = .ready ∧ t ∈ σ.manager.globalList
  | .pushed _ t => (σ.thread t).state = .ready ∧ t ∈ σ.manager.globalList
  | .picked _ t => (σ.thread t).state = .ready ∧ t ∈ σ.manager.globalList
  | _ => True

/-- The running thread of a core against the one whose context is on it. -/
def CorePoint.Shows (point : CorePoint) (running loaded : Option ℕ) : Prop :=
  match point with
  | .switch _ next => running = some next
  | .leaving t => running = some t ∧ loaded = some t
  | .pushed _ t => running = loaded ∧ loaded ≠ some t
  | _ => running = loaded

def SmpState.Uses (s : SmpState) (c t : ℕ) : Prop :=
  (s.sched.cpuArray c).threadRunning = some t ∨ s.loaded c = some t ∨
    (s.point c).held = some t

structure CoreOk (cores : ℕ) (s : SmpState) (c : ℕ) : Prop where
  used : ∀ t, s.Uses c t →
    c < cores ∧ (s.sched.thread t).onCore = c ∧ (s.sched.thread t).state ≠ .init
  holds : (s.point c).Holds s.sched
  shows : (s.point c).Shows (s.sched.cpuArray c).threadRunning (s.loaded c)

/-- The threads that are held, and the cores that are open. -/
def SmpState.held (s : SmpState) : Set ℕ := {t | ∃ c, (s.point c).held = some t}

def SmpState.opened (s : SmpState) : Set ℕ := {c | (s.point c).IsOpen}

structure SmpInv (cores : ℕ) (s : SmpState) : Prop where
  queues : QueueInv cores s.held s.opened s.sched
  core : ∀ c, CoreOk cores s c

/-- What concerns only the thread `t`. -/
structure Touches (σ τ : Scheduler) (t : ℕ) : Prop where
  thread : ∀ u, u ≠ t → τ.thread u = σ.thread u
  listed : ∀ u, u ≠ t → (u ∈ τ.manager.globalList ↔ u ∈ σ.manager.globalList)

theorem Touches.refl (σ : Scheduler) (t : ℕ) : Touches σ σ t :=
  ⟨fun _ _ => rfl, fun _ _ => Iff.rfl⟩

theorem Touches.same (hthread : τ.thread = σ.thread)
    (hlist : τ.manager.globalList = σ.manager.globalList) : Touches σ τ t :=
  ⟨fun u _ => congrFun hthread u, fun u _ => by rw [hlist]⟩

theorem Touches.update {th : Thread} (hthread : τ.thread = Function.update σ.thread t th)
    (hlist : τ.manager.globalList = σ.manager.globalList) : Touches σ τ t := by
  refine ⟨fun u hu => ?_, fun u _ => by rw [hlist]⟩
  rw [hthread, Function.update_of_ne hu]

theorem Touches.write (σ : Scheduler) (t : ℕ) (th : Thread) : Touches σ (σ.write t th) t :=
  .update rfl rfl

theorem Touches.trans {ρ : Scheduler} (h : Touches σ τ t) (h' : Touches τ ρ t) :
    Touches σ ρ t :=
  ⟨fun u hu => (h'.thread u hu).trans (h.thread u hu),
    fun u hu => (h'.listed u hu).trans (h.listed u hu)⟩

/-! ## The other cores -/

/-- What the cores other than `c` hold, and which of them are open. -/
def SmpState.otherHeld (s : SmpState) (c : ℕ) : Set ℕ :=
  {t | ∃ d, d ≠ c ∧ (s.point d).held = some t}

def SmpState.otherOpen (s : SmpState) (c : ℕ) : Set ℕ := {d | d ≠ c ∧ (s.point d).IsOpen}

theorem held_of_none (h : (s.point c).held = none) : s.held = s.otherHeld c := by
  ext t
  refine ⟨fun ⟨d, hd⟩ => ⟨d, ?_, hd⟩, fun ⟨d, _, hd⟩ => ⟨d, hd⟩⟩
  rintro rfl
  rw [h] at hd
  cases hd

theorem held_of_some (h : (s.point c).held = some t) :
    s.held = insert t (s.otherHeld c) := by
  ext u
  rw [Set.mem_insert_iff]
  constructor
  · rintro ⟨d, hd⟩
    by_cases hdc : d = c
    · subst hdc
      exact .inl (Option.some.inj (hd.symm.trans h))
    · exact .inr ⟨d, hdc, hd⟩
  · rintro (rfl | ⟨d, -, hd⟩)
    · exact ⟨c, h⟩
    · exact ⟨d, hd⟩

theorem opened_of_closed (h : ¬(s.point c).IsOpen) : s.opened = s.otherOpen c := by
  ext d
  refine ⟨fun hd => ⟨?_, hd⟩, fun hd => hd.2⟩
  rintro rfl
  exact h hd

theorem opened_of_open (h : (s.point c).IsOpen) : s.opened = insert c (s.otherOpen c) := by
  ext d
  rw [Set.mem_insert_iff]
  constructor
  · intro hd
    by_cases hdc : d = c
    · exact .inl hdc
    · exact .inr ⟨hdc, hd⟩
  · rintro (rfl | ⟨-, hd⟩)
    · exact h
    · exact hd

theorem notMem_otherOpen (s : SmpState) (c : ℕ) : c ∉ s.otherOpen c := fun h => h.1 rfl

theorem otherHeld_congr (h : ∀ d, d ≠ c → s'.point d = s.point d) :
    s'.otherHeld c = s.otherHeld c := by
  ext t
  refine exists_congr fun d => and_congr_right fun hd => ?_
  rw [h d hd]

theorem otherOpen_congr (h : ∀ d, d ≠ c → s'.point d = s.point d) :
    s'.otherOpen c = s.otherOpen c := by
  ext d
  refine and_congr_right fun hd => ?_
  rw [h d hd]

def SameStanding (σ τ : Scheduler) (t : ℕ) : Prop :=
  (τ.thread t).state = (σ.thread t).state ∧
    (t ∈ τ.manager.globalList ↔ t ∈ σ.manager.globalList)

/-- A core that takes no step is fine, when the thread that the step is about keeps its
standing, if the core holds it, and still belongs to the core. -/
theorem CoreOk.frame (h : CoreOk cores s c) (hpoint : s'.point c = s.point c)
    (hloaded : s'.loaded c = s.loaded c)
    (hrunning : (s'.sched.cpuArray c).threadRunning = (s.sched.cpuArray c).threadRunning)
    (htouches : Touches s.sched s'.sched t)
    (hholds : (s.point c).held = some t → SameStanding s.sched s'.sched t)
    (hused : s.Uses c t →
      (s'.sched.thread t).onCore = c ∧ (s'.sched.thread t).state ≠ .init) :
    CoreOk cores s' c := by
  have hheld : ∀ {u}, (s.point c).held = some u → SameStanding s.sched s'.sched u := by
    intro u hu
    by_cases hut : u = t
    · exact hut ▸ hholds (hut ▸ hu)
    · exact ⟨by rw [htouches.thread u hut], htouches.listed u hut⟩
  refine ⟨fun u hu => ?_, ?_, ?_⟩
  · replace hu : s.Uses c u := by
      rw [SmpState.Uses, hpoint, hloaded, hrunning] at hu
      exact hu
    obtain ⟨hc, hcore, hstate⟩ := h.used u hu
    by_cases hut : u = t
    · subst hut
      exact ⟨hc, hused hu⟩
    · rw [htouches.thread u hut]
      exact ⟨hc, hcore, hstate⟩
  · have hbefore := h.holds
    rw [hpoint]
    cases hcase : s.point c with
    | leaving u =>
        obtain ⟨hstate, hlist⟩ := hheld (u := u) (by rw [hcase]; rfl)
        rw [hcase] at hbefore
        exact ⟨hstate.trans hbefore.1, fun hmem => hbefore.2 (hlist.mp hmem)⟩
    | pulled prev u =>
        obtain ⟨hstate, hlist⟩ := hheld (u := u) (by rw [hcase]; rfl)
        rw [hcase] at hbefore
        exact ⟨hstate.trans hbefore.1, hlist.mpr hbefore.2⟩
    | pushed prev u =>
        obtain ⟨hstate, hlist⟩ := hheld (u := u) (by rw [hcase]; rfl)
        rw [hcase] at hbefore
        exact ⟨hstate.trans hbefore.1, hlist.mpr hbefore.2⟩
    | picked prev u =>
        obtain ⟨hstate, hlist⟩ := hheld (u := u) (by rw [hcase]; rfl)
        rw [hcase] at hbefore
        exact ⟨hstate.trans hbefore.1, hlist.mpr hbefore.2⟩
    | runs => trivial
    | sched => trivial
    | pull prev => trivial
    | push prev => trivial
    | pick prev => trivial
    | switch prev next => trivial
  · rw [hpoint, hloaded, hrunning]
    exact h.shows

namespace SmpInv

theorem uses_unique (h : SmpInv cores s) {d : ℕ} (hc : s.Uses c t) (hd : s.Uses d t) : c = d :=
  ((h.core c).used t hc).2.1.symm.trans ((h.core d).used t hd).2.1

theorem state_of_held (h : SmpInv cores s) (ht : t ∈ s.held) :
    (s.sched.thread t).state = .ready ∨ (s.sched.thread t).state = .running := by
  obtain ⟨c, hc⟩ := ht
  have hholds := (h.core c).holds
  cases hcase : s.point c with
  | leaving u =>
      rw [hcase] at hholds hc
      cases hc
      exact .inr hholds.1
  | pulled prev u =>
      rw [hcase] at hholds hc
      cases hc
      exact .inl hholds.1
  | pushed prev u =>
      rw [hcase] at hholds hc
      cases hc
      exact .inl hholds.1
  | picked prev u =>
      rw [hcase] at hholds hc
      cases hc
      exact .inl hholds.1
  | runs => rw [hcase] at hc; cases hc
  | sched => rw [hcase] at hc; cases hc
  | pull prev => rw [hcase] at hc; cases hc
  | push prev => rw [hcase] at hc; cases hc
  | pick prev => rw [hcase] at hc; cases hc
  | switch prev next => rw [hcase] at hc; cases hc

theorem call (h : SmpInv cores s) (hqueues : QueueInv cores s.held s.opened τ)
    (htouches : Touches s.sched τ t) (hheld : t ∈ s.held → SameStanding s.sched τ t)
    (hrunning : ∀ d, (τ.cpuArray d).threadRunning = (s.sched.cpuArray d).threadRunning)
    (hkept : (s.sched.thread t).state ≠ .init →
      (τ.thread t).onCore = (s.sched.thread t).onCore ∧ (τ.thread t).state ≠ .init) :
    SmpInv cores { s with sched := τ } := by
  refine ⟨hqueues, fun d => (h.core d).frame (t := t) rfl rfl (hrunning d) htouches
    (fun hd => hheld ⟨d, hd⟩) fun hused => ?_⟩
  obtain ⟨-, hcore, hstate⟩ := (h.core d).used t hused
  obtain ⟨honCore, hstate'⟩ := hkept hstate
  exact ⟨honCore.trans hcore, hstate'⟩

theorem own (h : SmpInv cores s) (hpoint : ∀ d, d ≠ c → s'.point d = s.point d)
    (hloaded : ∀ d, d ≠ c → s'.loaded d = s.loaded d)
    (hrunning : ∀ d, d ≠ c →
      (s'.sched.cpuArray d).threadRunning = (s.sched.cpuArray d).threadRunning)
    (htouches : Touches s.sched s'.sched t)
    (hown : ∀ d, s.Uses d t → d = c)
    (hqueues : QueueInv cores s'.held s'.opened s'.sched) (hcore : CoreOk cores s' c) :
    SmpInv cores s' := by
  refine ⟨hqueues, fun d => ?_⟩
  by_cases hd : d = c
  · exact hd ▸ hcore
  · exact (h.core d).frame (hpoint d hd) (hloaded d hd) (hrunning d hd) htouches
      (fun hheld => absurd (hown d (.inr (.inr hheld))) hd)
      fun hused => absurd (hown d hused) hd

end SmpInv

end Nxos.Sched
