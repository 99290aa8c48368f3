import Nxos.Sched.Semaphore.Model

/-!
# Wait lists

A thread is linked on the list of one semaphore at most, and only while it is blocked in
`NX_SemaphoreWait` on this semaphore.  What an operation does to the counters, the lists and
the threads is stated once, as an effect, and every effect keeps the invariant.
-/

namespace Nxos.Sched

variable {ι : Type} {cores : ℕ} {k k' : Kernel ι} {s : ι} {t cur c : ℕ}

/-! ## The invariant -/

structure WaitInv (cores : ℕ) (k : Kernel ι) : Prop where
  sched : SchedInv cores k.sched
  linked : ∀ t s, t ∈ (k.semaphore s).semWaitList ↔ k.blockList t = some s
  nodup : ∀ s, (k.semaphore s).semWaitList.Nodup
  asleep : ∀ t s, k.blockList t = some s →
    k.point t = .asleep s ∧ (k.sched.thread t).state = .blocked
  magic : ∀ t s, (k.point t).waitsFor = some s → (k.semaphore s).magic = semaphoreMagic
  idle : ∀ t s, (k.point t).waitsFor = some s → ¬k.sched.IsIdle cores t

theorem SameIdle.isIdle_iff {σ τ : Scheduler} (h : SameIdle σ τ) :
    τ.IsIdle cores t ↔ σ.IsIdle cores t := by
  refine exists_congr fun c => and_congr_right fun _ => ?_
  rw [h c]

theorem waitsFor_update {point : ℕ → WaitPoint ι} {new : WaitPoint ι}
    (h : (Function.update point cur new t).waitsFor = some s) :
    t = cur ∧ new.waitsFor = some s ∨ (point t).waitsFor = some s := by
  by_cases ht : t = cur
  · subst ht
    rw [Function.update_self] at h
    exact .inl ⟨rfl, h⟩
  · rw [Function.update_of_ne ht] at h
    exact .inr h

namespace WaitInv

theorem unlinked_of_ne (h : WaitInv cores k) (hstate : (k.sched.thread t).state ≠ .blocked) :
    k.blockList t = none := by
  cases hlink : k.blockList t with
  | none => rfl
  | some s => exact absurd (h.asleep t s hlink).2 hstate

theorem unlinked_of_runs (h : WaitInv cores k) (hrun : k.sched.Runs cores c t) :
    k.blockList t = none := by
  apply h.unlinked_of_ne
  rw [(h.sched.running_of_runs hrun).1]
  decide

theorem notMem_of_unlinked (h : WaitInv cores k) (hlink : k.blockList t = none) (s : ι) :
    t ∉ (k.semaphore s).semWaitList := by
  rw [h.linked, hlink]
  exact fun hno => nomatch hno

theorem empty_of_new (h : WaitInv cores k) (hnew : (k.semaphore s).magic ≠ semaphoreMagic) :
    (k.semaphore s).semWaitList = [] := by
  apply List.eq_nil_iff_forall_not_mem.mpr
  intro t ht
  have hpoint := (h.asleep t s ((h.linked t s).mp ht)).1
  exact hnew (h.magic t s (by rw [hpoint]; rfl))

theorem ne_of_linked (hfree : k.blockList cur = none) (ht : k.blockList t ≠ none) : t ≠ cur := by
  rintro rfl
  exact ht hfree

theorem of_sameLists (h : WaitInv cores k) (hinv : SchedInv cores k'.sched)
    (hwait : ∀ s, (k'.semaphore s).semWaitList = (k.semaphore s).semWaitList)
    (hmagic : ∀ s, (k.semaphore s).magic = semaphoreMagic →
      (k'.semaphore s).magic = semaphoreMagic)
    (hlist : k'.blockList = k.blockList)
    (hpoint : ∀ t, k.blockList t ≠ none → k'.point t = k.point t)
    (hwaits : ∀ t s, (k'.point t).waitsFor = some s → (k.point t).waitsFor = some s ∨
      (k'.semaphore s).magic = semaphoreMagic ∧ ¬k.sched.IsIdle cores t)
    (hblocked : ∀ t, k.blockList t ≠ none → (k'.sched.thread t).state = .blocked)
    (hidle : SameIdle k.sched k'.sched) : WaitInv cores k' := by
  refine ⟨hinv, fun t s => ?_, fun s => ?_, fun t s hlink => ?_, fun t s hs => ?_,
    fun t s hs => ?_⟩
  · rw [hwait, hlist]
    exact h.linked t s
  · rw [hwait]
    exact h.nodup s
  · rw [hlist] at hlink
    have hsome : k.blockList t ≠ none := by
      rw [hlink]
      exact Option.some_ne_none s
    exact ⟨(hpoint t hsome).trans (h.asleep t s hlink).1, hblocked t hsome⟩
  · rcases hwaits t s hs with hbefore | ⟨hnow, -⟩
    · exact hmagic s (h.magic t s hbefore)
    · exact hnow
  · rw [hidle.isIdle_iff]
    rcases hwaits t s hs with hbefore | ⟨-, hnow⟩
    · exact h.idle t s hbefore
    · exact hnow

theorem blocked_of_linked (h : WaitInv cores k) (hlink : k.blockList t ≠ none) :
    (k.sched.thread t).state = .blocked := by
  obtain ⟨s, hs⟩ := Option.ne_none_iff_exists'.mp hlink
  exact (h.asleep t s hs).2

theorem withSched {τ : Scheduler} (h : WaitInv cores k) (hτ : SchedInv cores τ)
    (hblocked : ∀ t, k.blockList t ≠ none → (τ.thread t).state = .blocked)
    (hidle : SameIdle k.sched τ) : WaitInv cores { k with sched := τ } :=
  h.of_sameLists hτ (fun _ => rfl) (fun _ => id) rfl (fun _ _ => rfl) (fun _ _ => .inl) hblocked
    hidle

theorem moved (h : WaitInv cores k) {point : WaitPoint ι} (hinv : SchedInv cores k'.sched)
    (hfree : k.blockList cur = none) (hsem : k'.semaphore = k.semaphore)
    (hlist : k'.blockList = k.blockList)
    (hpoint : k'.point = Function.update k.point cur point)
    (hwaits : ∀ s, point.waitsFor = some s →
      (k.semaphore s).magic = semaphoreMagic ∧ ¬k.sched.IsIdle cores cur)
    (hblocked : ∀ t, (k.sched.thread t).state = .blocked → (k'.sched.thread t).state = .blocked)
    (hidle : SameIdle k.sched k'.sched) : WaitInv cores k' := by
  refine h.of_sameLists hinv (fun s => by rw [hsem]) (fun s hs => by rw [hsem, hs]) hlist
    (fun t ht => ?_) (fun t s hs => ?_) (fun t ht => hblocked t (h.blocked_of_linked ht)) hidle
  · rw [hpoint, Function.update_of_ne (ne_of_linked hfree ht)]
  · rw [hpoint] at hs
    rcases waitsFor_update hs with ⟨rfl, hnow⟩ | hbefore
    · exact .inr (hsem ▸ hwaits s hnow)
    · exact .inl hbefore

end WaitInv

/-! ## Effects -/

inductive SemEvent (ι : Type) where
  | initialised (s : ι) (value : BitVec 64)
  | signalled (s : ι)
  | completed (s : ι)
  deriving DecidableEq

/-- A thread that may end: it was terminated, or it waits for no semaphore. -/
def Kernel.MayEnd (k : Kernel ι) (t : ℕ) : Prop :=
  (k.sched.thread t).isTerminated = true ∨ k.point t = .outside

variable [DecidableEq ι]

/-- The threads in `woken` are taken off the list of the semaphore and made ready, and its
counter is written. -/
structure Raised (k k' : Kernel ι) (s : ι) (value : BitVec 64) (woken rest : List ℕ) :
    Prop where
  semaphore : k'.semaphore = Function.update k.semaphore s
    { k.semaphore s with value := value, semWaitList := rest }
  blockList : ∀ t, k'.blockList t = if t ∈ woken then none else k.blockList t
  point : k'.point = k.point
  thread : ∀ t, k'.sched.thread t =
    if t ∈ woken then (k.sched.thread t).setState .ready else k.sched.thread t
  idleThread : SameIdle k.sched k'.sched

/-- What an operation does, with the event that it adds to the history. -/
inductive SemEffect (cores : ℕ) (k k' : Kernel ι) : Option (SemEvent ι) → Prop where
  /-- The scheduler goes on. -/
  | kept (hsem : k'.semaphore = k.semaphore) (hlist : k'.blockList = k.blockList)
      (hpoint : k'.point = k.point)
      (hsched : SameBlocked {t | k.MayEnd t} k.sched k'.sched) : SemEffect cores k k' none
  /-- A semaphore is initialised. -/
  | initialised (s : ι) (value : BitVec 64) (hnew : (k.semaphore s).magic ≠ semaphoreMagic)
      (hsem : k'.semaphore = Function.update k.semaphore s ⟨value, [], semaphoreMagic⟩)
      (hlist : k'.blockList = k.blockList) (hpoint : k'.point = k.point)
      (hsched : k'.sched = k.sched) : SemEffect cores k k' (some (.initialised s value))
  /-- A thread begins to wait. -/
  | entered (cur : ℕ) (s : ι) (hmagic : (k.semaphore s).magic = semaphoreMagic)
      (hcur : k.point cur = .outside) (hidle : ¬k.sched.IsIdle cores cur)
      (hfree : k.blockList cur = none)
      (hsem : k'.semaphore = k.semaphore) (hlist : k'.blockList = k.blockList)
      (hpoint : k'.point = Function.update k.point cur (.loop s))
      (hsched : k'.sched = k.sched) : SemEffect cores k k' none
  /-- `NX_SemaphoreTryWait` takes a unit. -/
  | taken (s : ι) (hmagic : (k.semaphore s).magic = semaphoreMagic)
      (hvalue : 0 < (k.semaphore s).value.toInt)
      (hsem : k'.semaphore = Function.update k.semaphore s
        { k.semaphore s with value := (k.semaphore s).value - 1 })
      (hlist : k'.blockList = k.blockList) (hpoint : k'.point = k.point)
      (hsched : k'.sched = k.sched) : SemEffect cores k k' (some (.completed s))
  /-- `NX_SemaphoreWait` takes a unit and returns. -/
  | returned (cur : ℕ) (s : ι) (hcur : (k.point cur).waitsFor = some s)
      (hfree : k.blockList cur = none) (hvalue : 0 < (k.semaphore s).value.toInt)
      (hsem : k'.semaphore = Function.update k.semaphore s
        { k.semaphore s with value := (k.semaphore s).value - 1 })
      (hlist : k'.blockList = k.blockList)
      (hpoint : k'.point = Function.update k.point cur .outside)
      (hsched : k'.sched = k.sched) : SemEffect cores k k' (some (.completed s))
  /-- A waiting thread finds no unit and goes to sleep. -/
  | slept (cur : ℕ) (s : ι) (hcur : (k.point cur).waitsFor = some s)
      (hfree : k.blockList cur = none) (hvalue : (k.semaphore s).value.toInt ≤ 0)
      (hsem : k'.semaphore = Function.update k.semaphore s
        { k.semaphore s with semWaitList := (k.semaphore s).semWaitList ++ [cur] })
      (hlist : k'.blockList = Function.update k.blockList cur (some s))
      (hpoint : k'.point = Function.update k.point cur (.asleep s))
      (hsched : OtherKept k.sched k'.sched cur)
      (hblocked : (k'.sched.thread cur).state = .blocked) : SemEffect cores k k' none
  /-- A unit is added, and the threads in `woken` are taken off the list. -/
  | raised (s : ι) (woken rest : List ℕ) (hmagic : (k.semaphore s).magic = semaphoreMagic)
      (hsplit : (k.semaphore s).semWaitList = woken ++ rest)
      (hnone : ((k.semaphore s).value + 1).toInt ≤ 0 → woken = [])
      (hsome : 0 < ((k.semaphore s).value + 1).toInt → woken = [] → rest = [])
      (hraised : Raised k k' s ((k.semaphore s).value + 1) woken rest) :
      SemEffect cores k k' (some (.signalled s))
  /-- A terminated thread exits when it wakes. -/
  | ended (cur : ℕ) (hterminated : (k.sched.thread cur).isTerminated = true)
      (hfree : k.blockList cur = none)
      (hsem : k'.semaphore = k.semaphore) (hlist : k'.blockList = k.blockList)
      (hpoint : k'.point = Function.update k.point cur .outside)
      (hsched : SameBlocked {cur} k.sched k'.sched) : SemEffect cores k k' none

namespace WaitInv

theorem slept (h : WaitInv cores k) (hinv : SchedInv cores k'.sched)
    (hcur : (k.point cur).waitsFor = some s) (hfree : k.blockList cur = none)
    (hsem : k'.semaphore = Function.update k.semaphore s
      { k.semaphore s with semWaitList := (k.semaphore s).semWaitList ++ [cur] })
    (hlist : k'.blockList = Function.update k.blockList cur (some s))
    (hpoint : k'.point = Function.update k.point cur (.asleep s))
    (hsched : OtherKept k.sched k'.sched cur)
    (hblocked : (k'.sched.thread cur).state = .blocked) : WaitInv cores k' := by
  have hnew := h.notMem_of_unlinked hfree
  have hself : k'.blockList cur = some s := by
    rw [hlist, Function.update_self]
  have hother : ∀ {t}, t ≠ cur → k'.blockList t = k.blockList t := by
    intro t ht
    rw [hlist, Function.update_of_ne ht]
  have hwait : ∀ s', s' ≠ s → k'.semaphore s' = k.semaphore s' := by
    intro s' hs
    rw [hsem, Function.update_of_ne hs]
  have hwaitSelf : (k'.semaphore s).semWaitList = (k.semaphore s).semWaitList ++ [cur] := by
    rw [hsem, Function.update_self]
  have hmagic : ∀ s', (k'.semaphore s').magic = (k.semaphore s').magic := by
    intro s'
    by_cases hs : s' = s
    · rw [hs, hsem, Function.update_self]
    · rw [hwait s' hs]
  have hwaits : ∀ t s', (k'.point t).waitsFor = some s' → (k.point t).waitsFor = some s' := by
    intro t s' hs'
    rw [hpoint] at hs'
    rcases waitsFor_update hs' with ⟨rfl, hnow⟩ | hbefore
    · cases hnow
      exact hcur
    · exact hbefore
  refine ⟨hinv, fun t s' => ?_, fun s' => ?_, fun t s' hlink => ?_, fun t s' hs => ?_,
    fun t s' hs => ?_⟩
  · by_cases ht : t = cur
    · subst ht
      rw [hself]
      by_cases hs : s' = s
      · rw [hs, hwaitSelf]
        exact iff_of_true (List.mem_append_right _ (List.mem_singleton_self t)) rfl
      · rw [hwait s' hs]
        exact iff_of_false (hnew s') fun heq => hs (Option.some.inj heq).symm
    · rw [hother ht, ← h.linked]
      by_cases hs : s' = s
      · rw [hs, hwaitSelf, List.mem_append, List.mem_singleton]
        exact or_iff_left ht
      · rw [hwait s' hs]
  · by_cases hs : s' = s
    · rw [hs, hwaitSelf]
      exact (h.nodup s).append (List.nodup_singleton cur)
        (List.disjoint_singleton.mpr (hnew s))
    · rw [hwait s' hs]
      exact h.nodup s'
  · by_cases ht : t = cur
    · subst ht
      obtain rfl := Option.some.inj (hself.symm.trans hlink)
      rw [hpoint, Function.update_self]
      exact ⟨rfl, hblocked⟩
    · rw [hother ht] at hlink
      obtain ⟨hasleep, hstate⟩ := h.asleep t s' hlink
      rw [hpoint, Function.update_of_ne ht]
      exact ⟨hasleep, (hsched.blocked t ht).mpr hstate⟩
  · rw [hmagic]
    exact h.magic t s' (hwaits t s' hs)
  · rw [hsched.idleThread.isIdle_iff]
    exact h.idle t s' (hwaits t s' hs)

theorem raised {woken rest : List ℕ} {value : BitVec 64} (h : WaitInv cores k)
    (hinv : SchedInv cores k'.sched)
    (hsplit : (k.semaphore s).semWaitList = woken ++ rest)
    (hraised : Raised k k' s value woken rest) : WaitInv cores k' := by
  obtain ⟨hsem, hlist, hpoint, hthread, hidle⟩ := hraised
  have hnodup := h.nodup s
  rw [hsplit] at hnodup
  have hlinked : ∀ t ∈ woken, k.blockList t = some s := by
    intro t ht
    rw [← h.linked, hsplit]
    exact List.mem_append_left rest ht
  have hwait : ∀ s', s' ≠ s → k'.semaphore s' = k.semaphore s' := by
    intro s' hs
    rw [hsem, Function.update_of_ne hs]
  have hwaitSelf : (k'.semaphore s).semWaitList = rest := by
    rw [hsem, Function.update_self]
  have hstill : ∀ {t s'}, k'.blockList t = some s' → t ∉ woken ∧ k.blockList t = some s' := by
    intro t s' hlink
    rw [hlist] at hlink
    split at hlink
    · cases hlink
    · next ht => exact ⟨ht, hlink⟩
  have hmagic : ∀ s', (k'.semaphore s').magic = (k.semaphore s').magic := by
    intro s'
    by_cases hs : s' = s
    · rw [hs, hsem, Function.update_self]
    · rw [hwait s' hs]
  refine ⟨hinv, fun t s' => ?_, fun s' => ?_, fun t s' hlink => ?_, fun t s' hs => ?_,
    fun t s' hs => ?_⟩
  · by_cases ht : t ∈ woken
    · rw [hlist, if_pos ht]
      refine iff_of_false (fun hmem => ?_) fun hno => nomatch hno
      by_cases hs : s' = s
      · rw [hs, hwaitSelf] at hmem
        exact List.disjoint_of_nodup_append hnodup ht hmem
      · rw [hwait s' hs, h.linked, hlinked t ht] at hmem
        exact hs (Option.some.inj hmem).symm
    · rw [hlist, if_neg ht, ← h.linked]
      by_cases hs : s' = s
      · rw [hs, hwaitSelf, hsplit, List.mem_append]
        exact (or_iff_right ht).symm
      · rw [hwait s' hs]
  · by_cases hs : s' = s
    · rw [hs, hwaitSelf]
      exact hnodup.of_append_right
    · rw [hwait s' hs]
      exact h.nodup s'
  · obtain ⟨ht, hbefore⟩ := hstill hlink
    rw [hpoint, hthread, if_neg ht]
    exact h.asleep t s' hbefore
  · rw [hpoint] at hs
    rw [hmagic]
    exact h.magic t s' hs
  · rw [hpoint] at hs
    rw [hidle.isIdle_iff]
    exact h.idle t s' hs

theorem written (h : WaitInv cores k) {sem : Semaphore} (cur : ℕ) (point : WaitPoint ι)
    (hsem : k'.semaphore = Function.update k.semaphore s sem)
    (hwait : sem.semWaitList = (k.semaphore s).semWaitList)
    (hmagic : sem.magic = semaphoreMagic) (hlist : k'.blockList = k.blockList)
    (hpoint : k'.point = k.point ∨
      k.blockList cur = none ∧ k'.point = Function.update k.point cur point ∧
        point.waitsFor = none)
    (hsched : k'.sched = k.sched) : WaitInv cores k' := by
  refine h.of_sameLists (hsched ▸ h.sched) (fun s' => ?_) (fun s' hs' => ?_) hlist
    (fun t ht => ?_) (fun t s' hs' => .inl ?_) (fun t ht => hsched ▸ h.blocked_of_linked ht)
    fun c => by rw [hsched]
  · by_cases hs : s' = s
    · rw [hs, hsem, Function.update_self, hwait]
    · rw [hsem, Function.update_of_ne hs]
  · by_cases hs : s' = s
    · rw [hs, hsem, Function.update_self, hmagic]
    · rw [hsem, Function.update_of_ne hs, hs']
  · rcases hpoint with hpoint | ⟨hfree, hpoint, -⟩
    · rw [hpoint]
    · rw [hpoint, Function.update_of_ne (ne_of_linked hfree ht)]
  · rcases hpoint with hpoint | ⟨-, hpoint, hnone⟩
    · rw [← hpoint]
      exact hs'
    · rw [hpoint] at hs'
      rcases waitsFor_update hs' with ⟨-, hnow⟩ | hbefore
      · rw [hnone] at hnow
        cases hnow
      · exact hbefore

theorem effect {e : Option (SemEvent ι)} (h : WaitInv cores k) (hinv : SchedInv cores k'.sched)
    (heffect : SemEffect cores k k' e) : WaitInv cores k' := by
  cases heffect with
  | kept hsem hlist hpoint hsched =>
      exact h.of_sameLists hinv (fun s => by rw [hsem]) (fun s hs => by rw [hsem, hs]) hlist
        (fun t _ => by rw [hpoint]) (fun t s hs => .inl (hpoint ▸ hs))
        (fun t ht => (hsched.blocked t).mpr (h.blocked_of_linked ht)) hsched.idleThread
  | initialised s value hnew hsem hlist hpoint hsched =>
      exact h.written 0 .outside hsem (h.empty_of_new hnew).symm rfl hlist
        (.inl hpoint) hsched
  | entered cur s hmagic hcur hidle hfree hsem hlist hpoint hsched =>
      refine h.moved hinv hfree hsem hlist hpoint (fun s' hs' => ?_) (fun t ht => hsched ▸ ht)
        fun c => by rw [hsched]
      cases hs'
      exact ⟨hmagic, hidle⟩
  | taken s hmagic hvalue hsem hlist hpoint hsched =>
      exact h.written 0 .outside hsem rfl hmagic hlist (.inl hpoint) hsched
  | returned cur s hcur hfree hvalue hsem hlist hpoint hsched =>
      exact h.written cur .outside hsem rfl (h.magic cur s hcur) hlist (.inr ⟨hfree, hpoint, rfl⟩) hsched
  | slept cur s hcur hfree hvalue hsem hlist hpoint hsched hstate =>
      exact h.slept hinv hcur hfree hsem hlist hpoint hsched hstate
  | raised s woken rest hmagic hsplit hnone hsome hraised =>
      exact h.raised hinv hsplit hraised
  | ended cur hterminated hfree hsem hlist hpoint hsched =>
      exact h.moved hinv hfree hsem hlist hpoint (fun s hs => nomatch hs)
        (fun t ht => (hsched.blocked t).mpr ht) hsched.idleThread

end WaitInv

end Nxos.Sched
