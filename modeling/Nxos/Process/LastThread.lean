import Mathlib.Data.Finset.Card
import Mathlib.Data.List.Nodup
import Nxos.Support.Transition

/-!
# The last thread of a process

The embedding of `NX_ThreadExitProcess` for all the threads of one process, with the release
of the threads by the daemon.  Every section under a lock and the read of `threadCount` is one
step.  The thread that finds `threadCount` at `0` keeps the process, and the daemon destroys
the process when it releases this thread.
-/

namespace Nxos.Process

open Nxos.Transition

/-! ## Data -/

/-- Where a thread of the process is. -/
inductive LeavePoint where
  /-- Not appended yet. -/
  | outside
  | alive
  /-- After `NX_ProcessDeleteThread`. -/
  | deleted
  /-- After its slot was uninstalled. -/
  | uninstalled
  | stackUnmapped
  /-- Before the test of `threadCount`. -/
  | tlsUnmapped
  /-- It keeps the process, before `ProcessExitNotify`. -/
  | last
  /-- Before `NX_SchedExit`. -/
  | left
  /-- On the exit list. -/
  | exited
  /-- In the hand of the daemon. -/
  | dequeued
  | released
  deriving DecidableEq, Repr

/-- The thread has left the list of the process and has not tested `threadCount` yet. -/
def LeavePoint.Leaving : LeavePoint → Prop
  | .deleted => True
  | .uninstalled => True
  | .stackUnmapped => True
  | .tlsUnmapped => True
  | _ => False

/-- The thread has tested `threadCount`. -/
def LeavePoint.Tested : LeavePoint → Prop
  | .last => True
  | .left => True
  | .exited => True
  | .dequeued => True
  | .released => True
  | _ => False

instance (point : LeavePoint) : Decidable point.Leaving := by
  cases point <;> first | exact .isTrue trivial | exact .isFalse id

instance (point : LeavePoint) : Decidable point.Tested := by
  cases point <;> first | exact .isTrue trivial | exact .isFalse id

/-- What the exits of the threads read and write: `resourceProcess` tells whether
`resource.process` of a thread is the process, and `userStack` and `tls` which mappings of a
thread there are.  The last four fields record the threads that were appended, the threads
that found `threadCount` at `0`, the calls of `NX_ProcessDestroyObject`, and the threads that
used the process after the first of them. -/
structure ProcessExits where
  threadCount : ℤ
  threadPool : List ℕ
  resourceProcess : ℕ → Bool
  userStack : ℕ → Bool
  tls : ℕ → Bool
  point : ℕ → LeavePoint
  exitList : List ℕ
  daemon : Option ℕ
  appended : List ℕ
  found : List ℕ
  destroyed : ℕ
  late : List ℕ

namespace ProcessExits

def setPoint (s : ProcessExits) (t : ℕ) (point : LeavePoint) : ProcessExits :=
  { s with point := Function.update s.point t point }

def use (s : ProcessExits) (t : ℕ) : ProcessExits :=
  { s with late := if s.destroyed = 0 then s.late else s.late ++ [t] }

end ProcessExits

/-! ## Operations -/

/-- `NX_ProcessAppendThread`. -/
def processAppendThread (s : ProcessExits) (t : ℕ) : ProcessExits :=
  { s with
    threadCount := s.threadCount + 1
    threadPool := t :: s.threadPool
    resourceProcess := Function.update s.resourceProcess t true
    appended := s.appended ++ [t] }

/-- `NX_ProcessDeleteThread`. -/
def processDeleteThread (s : ProcessExits) (t : ℕ) : ProcessExits :=
  { s with
    threadCount := s.threadCount - 1
    threadPool := s.threadPool.erase t
    resourceProcess := Function.update s.resourceProcess t false }

/-- What `SysThreadCreate` does for the new thread: its stack and TLS are mapped, and it is
appended. -/
def sysThreadCreate (s : ProcessExits) (new : ℕ) (stack : Bool) : ProcessExits :=
  let s :=
    { s with
      userStack := Function.update s.userStack new stack
      tls := Function.update s.tls new true }
  (processAppendThread s new).setPoint new .alive

/-- The test of `threadCount`. -/
def testThreadCount (s : ProcessExits) (t : ℕ) : ProcessExits :=
  if s.threadCount = 0 then
    { s with
      resourceProcess := Function.update s.resourceProcess t true
      found := s.found ++ [t] }.setPoint t .last
  else s.setPoint t .left

/-- `NX_ThreadEnququeExitList`. -/
def threadEnququeExitList (s : ProcessExits) (t : ℕ) : ProcessExits :=
  { s with exitList := t :: s.exitList }

/-- The thread goes on in `NX_ThreadExit`. -/
def leaveGoOn (s : ProcessExits) (t : ℕ) : Option ProcessExits :=
  match s.point t with
  | .alive => some ((processDeleteThread (s.use t) t).setPoint t .deleted)
  | .deleted => some ((s.use t).setPoint t .uninstalled)
  | .uninstalled =>
      let s := s.use t
      some ({ s with userStack := Function.update s.userStack t false }.setPoint t .stackUnmapped)
  | .stackUnmapped =>
      let s := s.use t
      some ({ s with tls := Function.update s.tls t false }.setPoint t .tlsUnmapped)
  | .tlsUnmapped => some (testThreadCount (s.use t) t)
  | .last => some ((s.use t).setPoint t .left)
  | .left => some ((threadEnququeExitList s t).setPoint t .exited)
  | _ => none

/-- `NX_ThreadDeququeExitList`, when the daemon holds no thread. -/
def threadDeququeExitList (s : ProcessExits) : Option ProcessExits :=
  match s.daemon, s.exitList with
  | none, t :: rest =>
      some ({ s with exitList := rest, daemon := some t }.setPoint t .dequeued)
  | _, _ => none

/-- `ThreadRelease`: the process is destroyed if the thread keeps it. -/
def threadRelease (s : ProcessExits) : Option ProcessExits :=
  s.daemon.map fun t =>
    let destroyed := if s.resourceProcess t then s.destroyed + 1 else s.destroyed
    { s with
      destroyed := destroyed
      resourceProcess := Function.update s.resourceProcess t false
      daemon := none }.setPoint t .released

/-! ## Steps -/

inductive LeaveOp where
  | create (t new : ℕ) (stack : Bool)
  | goOn (t : ℕ)
  | dequeue
  | release

def leaveStep (s : ProcessExits) : LeaveOp → Option ProcessExits
  | .create t new stack =>
      if s.point t = .alive ∧ s.point new = .outside then
        some (sysThreadCreate (s.use t) new stack)
      else none
  | .goOn t => leaveGoOn s t
  | .dequeue => threadDeququeExitList s
  | .release => threadRelease s

/-- When a thread takes `threadCount` to `0`, no other thread is between its removal and its
test. -/
def LeavesAlone (s : ProcessExits) : LeaveOp → Prop
  | .goOn t => s.point t = .alive → s.threadCount = 1 → ∀ u ∈ s.appended, ¬(s.point u).Leaving
  | _ => True

instance (s : ProcessExits) (op : LeaveOp) : Decidable (LeavesAlone s op) :=
  match op with
  | .goOn t => inferInstanceAs (Decidable (s.point t = .alive → s.threadCount = 1 →
      ∀ u ∈ s.appended, ¬(s.point u).Leaving))
  | .create .. => .isTrue trivial
  | .dequeue => .isTrue trivial
  | .release => .isTrue trivial

def LeaveMove (s : ProcessExits) (op : LeaveOp) (s' : ProcessExits) : Prop :=
  leaveStep s op = some s'

/-- A step before which the condition holds. -/
def LeaveMoveWhen (condition : ProcessExits → LeaveOp → Prop) (s : ProcessExits) (op : LeaveOp)
    (s' : ProcessExits) : Prop :=
  condition s op ∧ LeaveMove s op s'

/-- The process with its first thread, as `NX_ProcessLaunch` leaves it: `ProcessMapStack` maps
a stack that `userStackBase` does not name. -/
def launchedProcess (main : ℕ) : ProcessExits where
  threadCount := 1
  threadPool := [main]
  resourceProcess := fun t => t = main
  userStack := fun _ => false
  tls := fun t => t = main
  point := fun t => if t = main then .alive else .outside
  exitList := []
  daemon := none
  appended := [main]
  found := []
  destroyed := 0
  late := []

/-! ## The invariant -/

variable {s s' : ProcessExits} {t u new : ℕ}

theorem ProcessExits.use_eq (hzero : s.destroyed = 0) : s.use t = s := by
  unfold ProcessExits.use
  rw [if_pos hzero]

structure ThreadInv (s : ProcessExits) (t : ℕ) : Prop where
  pool : t ∈ s.threadPool ↔ s.point t = .alive
  appended : t ∈ s.appended ↔ s.point t ≠ .outside
  tested : t ∈ s.found → (s.point t).Tested
  last : s.point t = .last → t ∈ s.found
  process : s.resourceProcess t = true ↔
    s.point t = .alive ∨ t ∈ s.found ∧ s.point t ≠ .released
  exitList : t ∈ s.exitList ↔ s.point t = .exited
  daemon : s.daemon = some t ↔ s.point t = .dequeued
  stack : s.userStack t = true →
    s.point t = .alive ∨ s.point t = .deleted ∨ s.point t = .uninstalled
  tls : s.tls t = true → s.point t = .alive ∨ s.point t = .deleted ∨
    s.point t = .uninstalled ∨ s.point t = .stackUnmapped

structure SameThread (s s' : ProcessExits) (t : ℕ) : Prop where
  point : s'.point t = s.point t
  pool : t ∈ s'.threadPool ↔ t ∈ s.threadPool
  appended : t ∈ s'.appended ↔ t ∈ s.appended
  found : t ∈ s'.found ↔ t ∈ s.found
  process : s'.resourceProcess t = s.resourceProcess t
  exitList : t ∈ s'.exitList ↔ t ∈ s.exitList
  daemon : s'.daemon = some t ↔ s.daemon = some t
  stack : s'.userStack t = true → s.userStack t = true
  tls : s'.tls t = true → s.tls t = true

theorem ThreadInv.of_same (h : ThreadInv s t) (hsame : SameThread s s' t) : ThreadInv s' t where
  pool := by rw [hsame.pool, hsame.point, h.pool]
  appended := by rw [hsame.appended, hsame.point, h.appended]
  tested hfound := hsame.point ▸ h.tested (hsame.found.mp hfound)
  last hlast := hsame.found.mpr (h.last (hsame.point ▸ hlast))
  process := by rw [hsame.process, hsame.found, hsame.point, h.process]
  exitList := by rw [hsame.exitList, hsame.point, h.exitList]
  daemon := by rw [hsame.daemon, hsame.point, h.daemon]
  stack hstack := hsame.point ▸ h.stack (hsame.stack hstack)
  tls htls := hsame.point ▸ h.tls (hsame.tls htls)

structure LeaveInv (s : ProcessExits) : Prop where
  threads : ∀ t, ThreadInv s t
  count : s.threadCount = s.threadPool.length
  nodup : s.threadPool.Nodup
  exitNodup : s.exitList.Nodup
  started : s.appended ≠ []
  single : s.found.length ≤ 1
  closed : s.found ≠ [] → s.threadPool = [] ∧ ∀ t, ¬(s.point t).Leaving
  alone : s.threadPool = [] → s.found = [] →
    ∃ t, (s.point t).Leaving ∧ ∀ u, (s.point u).Leaving → u = t
  destroyed : s.destroyed = (s.found.filter fun t => s.point t = .released).length
  late : s.late = []

theorem LeavePoint.leaving_iff {point : LeavePoint} : point.Leaving ↔
    point = .deleted ∨ point = .uninstalled ∨ point = .stackUnmapped ∨ point = .tlsUnmapped := by
  cases point <;> simp [LeavePoint.Leaving]

theorem LeavePoint.Leaving.elsewhere {point : LeavePoint} (h : point.Leaving) :
    point ≠ .alive ∧ point ≠ .outside ∧ point ≠ .last ∧ point ≠ .exited ∧ point ≠ .dequeued := by
  cases point <;> simp_all [LeavePoint.Leaving]

theorem LeavePoint.tested_iff {point : LeavePoint} : point.Tested ↔
    point = .last ∨ point = .left ∨ point = .exited ∨ point = .dequeued ∨ point = .released := by
  cases point <;> simp [LeavePoint.Tested]

namespace LeaveInv

theorem undestroyed (h : LeaveInv s) (hfound : s.found = []) : s.destroyed = 0 := by
  rw [h.destroyed, hfound]
  rfl

theorem threads_update (h : LeaveInv s) (hself : ThreadInv s' t)
    (hothers : ∀ u, u ≠ t → SameThread s s' u) (u : ℕ) : ThreadInv s' u := by
  by_cases hut : u = t
  · exact hut ▸ hself
  · exact (h.threads u).of_same (hothers u hut)

/-- Nobody has found `0` while a thread is alive or leaving. -/
theorem found_of_alive (h : LeaveInv s) (ht : s.point t = .alive) : s.found = [] := by
  by_contra hne
  have hmem := (h.threads t).pool.mpr ht
  rw [(h.closed hne).1] at hmem
  cases hmem

theorem found_of_leaving (h : LeaveInv s) (ht : (s.point t).Leaving) : s.found = [] := by
  by_contra hne
  exact (h.closed hne).2 t ht

/-- A step that neither takes `threadCount` nor tests it. -/
theorem of_sameLeaving (h : LeaveInv s) (hthreads : ∀ u, ThreadInv s' u)
    (hcount : s'.threadCount = s.threadCount) (hpool : s'.threadPool = s.threadPool)
    (hnodup : s'.exitList.Nodup) (happended : s'.appended = s.appended)
    (hfound : s'.found = s.found)
    (hleaving : ∀ u, (s'.point u).Leaving ↔ (s.point u).Leaving)
    (hdestroyed : s'.destroyed = (s.found.filter fun t => s'.point t = .released).length)
    (hlate : s'.late = s.late) : LeaveInv s' where
  threads := hthreads
  count := by rw [hcount, hpool, h.count]
  nodup := hpool ▸ h.nodup
  exitNodup := hnodup
  started := happended ▸ h.started
  single := hfound ▸ h.single
  closed hne := by
    simp only [hpool, hleaving]
    exact h.closed (hfound ▸ hne)
  alone hnil hnone := by
    simp only [hleaving]
    exact h.alone (hpool ▸ hnil) (hfound ▸ hnone)
  destroyed := by rw [hdestroyed, hfound]
  late := hlate.trans h.late

@[simp] theorem point_setPoint (s : ProcessExits) (t : ℕ) (point : LeavePoint) :
    (s.setPoint t point).point = Function.update s.point t point := rfl

theorem leaving_update {point : LeavePoint}
    (hpoint : point.Leaving ↔ (s.point t).Leaving) (u : ℕ) :
    ((s.setPoint t point).point u).Leaving ↔ (s.point u).Leaving := by
  rw [point_setPoint]
  by_cases hu : u = t
  · subst hu
    rw [Function.update_self]
    exact hpoint
  · rw [Function.update_of_ne hu]

theorem leaving (h : LeaveInv s) (point : LeavePoint) (hleaving : (s.point t).Leaving)
    (hpoint : point.Leaving) {userStack tls : ℕ → Bool}
    (hstack : ∀ u, userStack u = true → s.userStack u = true ∧
      (u = t → point = .deleted ∨ point = .uninstalled))
    (htls : ∀ u, tls u = true → s.tls u = true ∧ (u = t → point ≠ .tlsUnmapped)) :
    LeaveInv ({ s with userStack := userStack, tls := tls }.setPoint t point) := by
  have hfound := h.found_of_leaving hleaving
  refine h.of_sameLeaving (h.threads_update (t := t) ?_ fun u hut => ?_) rfl rfl h.exitNodup rfl rfl
    (leaving_update (iff_of_true hpoint hleaving)) ?_ rfl
  · obtain ⟨hpool, happended, -, -, hprocess, hexit, hdaemon, -, -⟩ := h.threads t
    obtain ⟨halive, hout, -, hexited, hdequeued⟩ := hleaving.elsewhere
    have hnew := hpoint.elsewhere
    rw [LeavePoint.leaving_iff] at hpoint
    refine ⟨?_, ?_, ?_, ?_, ?_, ?_, ?_, fun hu => ?_, fun hu => ?_⟩
    all_goals simp only [ProcessExits.setPoint, Function.update_self]
    · simp [hpool, halive, hnew]
    · simp [happended, hout, hnew]
    · simp [hfound]
    · simp [hnew]
    · simp [hprocess, halive, hfound, hnew]
    · simp [hexit, hexited, hnew]
    · simp [hdaemon, hdequeued, hnew]
    · exact .inr ((hstack t hu).2 rfl)
    · obtain rfl | rfl | rfl | rfl := hpoint
      · exact .inr (.inl rfl)
      · exact .inr (.inr (.inl rfl))
      · exact .inr (.inr (.inr rfl))
      · exact absurd rfl ((htls t hu).2 rfl)
  · exact ⟨Function.update_of_ne hut .., .rfl, .rfl, .rfl, rfl, .rfl, .rfl,
      fun hu => (hstack u hu).1, fun hu => (htls u hu).1⟩
  · rw [hfound, h.undestroyed hfound]
    rfl

/-- `NX_ProcessDeleteThread`. -/
theorem delete (h : LeaveInv s) (ht : s.point t = .alive)
    (halone : s.threadCount = 1 → ∀ u ∈ s.appended, ¬(s.point u).Leaving) :
    LeaveInv ((processDeleteThread s t).setPoint t .deleted) := by
  have hfound := h.found_of_alive ht
  have hmem := (h.threads t).pool.mpr ht
  have hlength := List.length_erase_of_mem hmem
  have hpositive := List.length_pos_of_mem hmem
  refine ⟨h.threads_update (t := t) ?_ fun u hut => ?_, ?_, h.nodup.erase t, h.exitNodup,
    h.started, h.single, fun hne => absurd hfound hne, fun hnil _ => ⟨t, ?_, fun u hu => ?_⟩, ?_,
    h.late⟩
  · obtain ⟨-, happended, -, -, -, hexit, hdaemon, -, -⟩ := h.threads t
    constructor
    all_goals simp_all [processDeleteThread, ProcessExits.setPoint, h.nodup.not_mem_erase]
  · exact ⟨Function.update_of_ne hut .., List.mem_erase_of_ne hut, .rfl, .rfl,
      Function.update_of_ne hut .., .rfl, .rfl, id, id⟩
  · show s.threadCount - 1 = ((s.threadPool.erase t).length : ℤ)
    rw [h.count, hlength]
    omega
  · rw [point_setPoint, Function.update_self]
    trivial
  · -- Another thread that is leaving would be there when the count becomes `0`.
    by_contra hut
    have hone : s.threadCount = 1 := by
      have hzero : (s.threadPool.erase t).length = 0 := by
        rw [List.length_eq_zero_iff]
        exact hnil
      rw [h.count]
      omega
    rw [point_setPoint, Function.update_of_ne hut] at hu
    refine halone hone u ((h.threads u).appended.mpr fun hno => ?_) hu
    change (s.point u).Leaving at hu
    rw [hno] at hu
    exact hu
  · show s.destroyed = (s.found.filter _).length
    rw [hfound, h.undestroyed hfound]
    rfl

theorem test (h : LeaveInv s) (ht : s.point t = .tlsUnmapped) :
    LeaveInv (testThreadCount s t) := by
  have hleaving : (s.point t).Leaving := by
    rw [ht]
    trivial
  have hfound := h.found_of_leaving hleaving
  have hzero : s.threadCount = 0 ↔ s.threadPool = [] := by
    rw [h.count, Int.natCast_eq_zero, List.length_eq_zero_iff]
  have hothers : s.threadPool = [] → ∀ u, u ≠ t → ¬(s.point u).Leaving := by
    intro hnil u hut hu
    obtain ⟨v, -, hsingle⟩ := h.alone hnil hfound
    exact hut ((hsingle u hu).trans (hsingle t hleaving).symm)
  unfold testThreadCount
  by_cases hcount : s.threadCount = 0
  · have hnil := hzero.mp hcount
    rw [if_pos hcount]
    refine ⟨h.threads_update (t := t) ?_ fun u hut => ?_, h.count, h.nodup, h.exitNodup,
      h.started, ?_, fun _ => ⟨hnil, fun u hu => ?_⟩, fun _ hnone => ?_, ?_, h.late⟩
    · obtain ⟨hpool, happended, -, -, -, hexit, hdaemon, hstack, htls⟩ := h.threads t
      constructor
      all_goals simp_all [ProcessExits.setPoint, LeavePoint.Tested]
    · refine ⟨Function.update_of_ne hut .., .rfl, .rfl, ?_, Function.update_of_ne hut .., .rfl,
        .rfl, id, id⟩
      exact List.mem_append.trans (or_iff_left fun hmem => hut (List.mem_singleton.mp hmem))
    · show (s.found ++ [t]).length ≤ 1
      rw [hfound]
      exact Nat.le_refl 1
    · rw [point_setPoint] at hu
      by_cases hut : u = t
      · rw [hut, Function.update_self] at hu
        exact hu
      · rw [Function.update_of_ne hut] at hu
        exact hothers hnil u hut hu
    · exact absurd hnone (List.append_ne_nil_of_right_ne_nil _ (List.cons_ne_nil t []))
    · show s.destroyed = ((s.found ++ [t]).filter fun u =>
        Function.update s.point t .last u = .released).length
      rw [h.undestroyed hfound, hfound]
      simp
  · have hsome : s.threadPool ≠ [] := fun hnil => hcount (hzero.mpr hnil)
    rw [if_neg hcount]
    refine ⟨h.threads_update (t := t) ?_ fun u hut => ?_, h.count, h.nodup, h.exitNodup,
      h.started, h.single, fun hne => absurd hfound hne, fun hnil => absurd hnil hsome, ?_, h.late⟩
    · obtain ⟨hpool, happended, -, -, hprocess, hexit, hdaemon, hstack, htls⟩ := h.threads t
      constructor
      all_goals simp_all [ProcessExits.setPoint]
    · exact ⟨Function.update_of_ne hut .., .rfl, .rfl, .rfl, rfl, .rfl, .rfl, id, id⟩
    · show s.destroyed = (s.found.filter _).length
      rw [hfound, h.undestroyed hfound]
      rfl

theorem found_eq (h : LeaveInv s) (ht : t ∈ s.found) : s.found = [t] := by
  obtain ⟨u, hu⟩ := List.length_eq_one_iff.mp
    (Nat.le_antisymm h.single (List.length_pos_of_mem ht))
  rw [hu, List.mem_singleton] at ht
  rw [hu, ht]

theorem filter_update {point : LeavePoint} (ht : s.point t ≠ .released)
    (hpoint : point ≠ .released) :
    s.found.filter (fun u => Function.update s.point t point u = .released) =
      s.found.filter fun u => s.point u = .released := by
  refine List.filter_congr fun u _ => ?_
  by_cases hu : u = t
  · subst hu
    rw [Function.update_self]
    simp [ht, hpoint]
  · rw [Function.update_of_ne hu]

/-- `ProcessExitNotify`. -/
theorem notify (h : LeaveInv s) (ht : s.point t = .last) :
    LeaveInv ((s.use t).setPoint t .left) := by
  have hfound := h.found_eq ((h.threads t).last ht)
  have hzero : s.destroyed = 0 := by
    rw [h.destroyed, hfound]
    simp [ht]
  rw [ProcessExits.use_eq hzero]
  refine h.of_sameLeaving (h.threads_update (t := t) ?_ fun u hut => ?_) rfl rfl h.exitNodup rfl
    rfl (leaving_update (iff_of_false id (by rw [ht]; exact id))) ?_ rfl
  · obtain ⟨hpool, happended, -, hlast, hprocess, hexit, hdaemon, hstack, htls⟩ := h.threads t
    constructor
    all_goals simp_all [ProcessExits.setPoint, LeavePoint.Tested]
  · exact ⟨Function.update_of_ne hut .., .rfl, .rfl, .rfl, rfl, .rfl, .rfl, id, id⟩
  · show s.destroyed =
      (s.found.filter fun u => Function.update s.point t .left u = .released).length
    rw [filter_update (by rw [ht]; decide) (by decide), h.destroyed]

/-- `NX_ThreadEnququeExitList`. -/
theorem enquque (h : LeaveInv s) (ht : s.point t = .left) :
    LeaveInv ((threadEnququeExitList s t).setPoint t .exited) := by
  refine h.of_sameLeaving (h.threads_update (t := t) ?_ fun u hut => ?_) rfl rfl ?_ rfl rfl
    (leaving_update (iff_of_false id (ht ▸ id))) ?_ rfl
  · obtain ⟨hpool, happended, htested, -, hprocess, -, hdaemon, hstack, htls⟩ := h.threads t
    constructor
    all_goals simp_all [threadEnququeExitList, ProcessExits.setPoint, LeavePoint.Tested]
  · exact ⟨Function.update_of_ne hut .., .rfl, .rfl, .rfl, rfl,
      List.mem_cons.trans (or_iff_right hut), .rfl, id, id⟩
  · refine List.nodup_cons.mpr ⟨fun hmem => ?_, h.exitNodup⟩
    have hexited := (h.threads t).exitList.mp hmem
    rw [ht] at hexited
    cases hexited
  · show s.destroyed =
      (s.found.filter fun u => Function.update s.point t .exited u = .released).length
    rw [filter_update (by rw [ht]; decide) (by decide), h.destroyed]

/-- `NX_ThreadDeququeExitList`. -/
theorem dequque (h : LeaveInv s) (hstep : threadDeququeExitList s = some s') : LeaveInv s' := by
  unfold threadDeququeExitList at hstep
  split at hstep
  · next t rest hdaemon hlist =>
      obtain rfl := Option.some.inj hstep
      have hmem : t ∈ s.exitList := by
        rw [hlist]
        exact List.mem_cons_self ..
      have ht := (h.threads t).exitList.mp hmem
      have hnodup := h.exitNodup
      rw [hlist, List.nodup_cons] at hnodup
      refine h.of_sameLeaving (h.threads_update (t := t) ?_ fun u hut => ?_) rfl rfl hnodup.2 rfl
        rfl (leaving_update (iff_of_false id (by rw [ht]; exact id))) ?_ rfl
      · obtain ⟨hpool, happended, htested, -, hprocess, -, -, hstack, htls⟩ := h.threads t
        constructor
        all_goals simp_all [ProcessExits.setPoint, LeavePoint.Tested]
      · refine ⟨Function.update_of_ne hut .., .rfl, .rfl, .rfl, rfl, ?_, ?_, id, id⟩
        · rw [hlist, List.mem_cons, or_iff_right hut]
          rfl
        · rw [hdaemon]
          exact iff_of_false (fun heq => hut (Option.some.inj heq).symm) nofun
      · show s.destroyed =
          (s.found.filter fun u => Function.update s.point t .dequeued u = .released).length
        rw [filter_update (by rw [ht]; decide) (by decide), h.destroyed]
  · cases hstep

/-- `ThreadRelease`. -/
theorem release (h : LeaveInv s) (hstep : threadRelease s = some s') : LeaveInv s' := by
  obtain ⟨t, hdaemon, rfl⟩ := Option.map_eq_some_iff.mp hstep
  have ht := (h.threads t).daemon.mp hdaemon
  have hprocess := (h.threads t).process
  refine h.of_sameLeaving (h.threads_update (t := t) ?_ fun u hut => ?_) rfl rfl h.exitNodup rfl
    rfl (leaving_update (iff_of_false id (by rw [ht]; exact id))) ?_ rfl
  · obtain ⟨hpool, happended, htested, -, -, hexit, -, hstack, htls⟩ := h.threads t
    constructor
    all_goals simp_all [ProcessExits.setPoint, LeavePoint.Tested]
  · refine ⟨Function.update_of_ne hut .., .rfl, .rfl, .rfl, Function.update_of_ne hut .., .rfl, ?_,
      id, id⟩
    rw [hdaemon]
    exact iff_of_false nofun fun heq => hut (Option.some.inj heq).symm
  · show (if s.resourceProcess t = true then s.destroyed + 1 else s.destroyed) =
      (s.found.filter fun u => Function.update s.point t .released u = .released).length
    by_cases hmem : t ∈ s.found
    · have hfound := h.found_eq hmem
      rw [if_pos (hprocess.mpr (.inr ⟨hmem, by rw [ht]; decide⟩)), h.destroyed, hfound]
      simp [ht]
    · have hnot : s.resourceProcess t ≠ true := fun hyes => by
        rcases hprocess.mp hyes with halive | hlast
        · rw [ht] at halive
          cases halive
        · exact hmem hlast.1
      rw [if_neg hnot, h.destroyed]
      congr 1
      refine List.filter_congr fun u hu => ?_
      have hut : u ≠ t := by
        rintro rfl
        exact hmem hu
      rw [Function.update_of_ne hut]

/-- `SysThreadCreate`. -/
theorem create (h : LeaveInv s) (ht : s.point t = .alive) (hnew : s.point new = .outside)
    (stack : Bool) : LeaveInv (sysThreadCreate s new stack) := by
  have hfound := h.found_of_alive ht
  have hout : new ∉ s.threadPool := fun hmem => by
    have halive := (h.threads new).pool.mp hmem
    rw [hnew] at halive
    cases halive
  refine ⟨h.threads_update (t := new) ?_ fun u hut => ?_, ?_,
    List.nodup_cons.mpr ⟨hout, h.nodup⟩, h.exitNodup, ?_, h.single,
    fun hne => absurd hfound hne, fun hnil => ?_, ?_, h.late⟩
  · obtain ⟨-, -, -, -, -, hexit, hdaemon, -, -⟩ := h.threads new
    constructor
    all_goals simp_all [sysThreadCreate, processAppendThread, ProcessExits.setPoint]
  · refine ⟨Function.update_of_ne hut .., List.mem_cons.trans (or_iff_right hut), ?_, .rfl,
      Function.update_of_ne hut .., .rfl, .rfl, fun hu => ?_, fun hu => ?_⟩
    · exact List.mem_append.trans (or_iff_left fun hmem => hut (List.mem_singleton.mp hmem))
    · exact (Function.update_of_ne hut ..).symm.trans hu
    · exact (Function.update_of_ne hut ..).symm.trans hu
  · show s.threadCount + 1 = ((new :: s.threadPool).length : ℤ)
    rw [h.count, List.length_cons]
    omega
  · exact List.append_ne_nil_of_right_ne_nil _ (List.cons_ne_nil new [])
  · exact absurd hnil (List.cons_ne_nil new s.threadPool)
  · show s.destroyed = (s.found.filter _).length
    rw [hfound, h.undestroyed hfound]
    rfl

theorem goOn (h : LeaveInv s) (halone : LeavesAlone s (.goOn t))
    (hstep : leaveGoOn s t = some s') : LeaveInv s' := by
  have huse : (s.point t).Leaving → s.use t = s := fun hleaving =>
    ProcessExits.use_eq (h.undestroyed (h.found_of_leaving hleaving))
  unfold leaveGoOn at hstep
  cases hcase : s.point t with
  | alive =>
      rw [hcase, ProcessExits.use_eq (h.undestroyed (h.found_of_alive hcase))] at hstep
      obtain rfl := Option.some.inj hstep
      exact h.delete hcase (halone hcase)
  | deleted =>
      have hleaving : (s.point t).Leaving := by
        rw [hcase]
        trivial
      rw [hcase, huse hleaving] at hstep
      obtain rfl := Option.some.inj hstep
      exact h.leaving .uninstalled hleaving trivial (fun u hu => ⟨hu, fun _ => .inr rfl⟩)
        fun u hu => ⟨hu, fun _ => (nomatch ·)⟩
  | uninstalled =>
      have hleaving : (s.point t).Leaving := by
        rw [hcase]
        trivial
      rw [hcase, huse hleaving] at hstep
      obtain rfl := Option.some.inj hstep
      refine h.leaving .stackUnmapped hleaving trivial (fun u hu => ?_)
        fun u hu => ⟨hu, fun _ => (nomatch ·)⟩
      rw [Function.update_apply] at hu
      split at hu
      · cases hu
      · next hut => exact ⟨hu, fun heq => absurd heq hut⟩
  | stackUnmapped =>
      have hleaving : (s.point t).Leaving := by
        rw [hcase]
        trivial
      rw [hcase, huse hleaving] at hstep
      obtain rfl := Option.some.inj hstep
      refine h.leaving .tlsUnmapped hleaving trivial (fun u hu => ⟨hu, fun heq => ?_⟩)
        fun u hu => ?_
      · subst heq
        have hpoint := (h.threads u).stack hu
        rw [hcase] at hpoint
        simp at hpoint
      · rw [Function.update_apply] at hu
        split at hu
        · cases hu
        · next hut => exact ⟨hu, fun heq => absurd heq hut⟩
  | tlsUnmapped =>
      rw [hcase, huse (by rw [hcase]; trivial)] at hstep
      obtain rfl := Option.some.inj hstep
      exact h.test hcase
  | last =>
      rw [hcase] at hstep
      obtain rfl := Option.some.inj hstep
      exact h.notify hcase
  | left =>
      rw [hcase] at hstep
      obtain rfl := Option.some.inj hstep
      exact h.enquque hcase
  | outside => rw [hcase] at hstep; cases hstep
  | exited => rw [hcase] at hstep; cases hstep
  | dequeued => rw [hcase] at hstep; cases hstep
  | released => rw [hcase] at hstep; cases hstep

theorem move {op : LeaveOp} (h : LeaveInv s) (hmove : LeaveMoveWhen LeavesAlone s op s') :
    LeaveInv s' := by
  obtain ⟨halone, hstep⟩ := hmove
  cases op with
  | create t new stack =>
      by_cases hallowed : s.point t = .alive ∧ s.point new = .outside
      · obtain ⟨ht, hnew⟩ := hallowed
        obtain rfl := Option.some.inj ((if_pos ⟨ht, hnew⟩).symm.trans hstep)
        rw [ProcessExits.use_eq (h.undestroyed (h.found_of_alive ht))]
        exact h.create ht hnew stack
      · cases (if_neg hallowed).symm.trans hstep
  | goOn t => exact h.goOn halone hstep
  | dequeue => exact h.dequque hstep
  | release => exact h.release hstep

theorem launched (main : ℕ) : LeaveInv (launchedProcess main) := by
  refine ⟨fun u => ?_, rfl, List.nodup_singleton main, List.nodup_nil, List.cons_ne_nil main [],
    Nat.zero_le 1, fun hne => absurd rfl hne, fun hnil => absurd hnil (List.cons_ne_nil main []),
    rfl, rfl⟩
  constructor
  all_goals simp only [launchedProcess]
  all_goals grind

end LeaveInv

/-! ## Every interleaving -/

/-- When every thread that takes `threadCount` to `0` is the only one between its removal and
its test, then at most one thread finds `0`, and exactly one when all have tested.  This one
keeps the process until it is released, and no other thread does.  The process is destroyed at
most once, after all threads have unmapped their stacks and their TLS, nobody uses it
afterwards, and when all threads are released it was destroyed exactly once. -/
theorem leaveReachable_destroysOnce (main : ℕ) (s : ProcessExits)
    (hreach : Reachable (LeaveMoveWhen LeavesAlone) (launchedProcess main) s) :
    s.found.length ≤ 1 ∧ s.destroyed ≤ 1 ∧ s.late = [] ∧
    (∀ t, (s.point t).Tested → s.point t ≠ .released →
      (s.resourceProcess t = true ↔ t ∈ s.found)) ∧
    (0 < s.destroyed → ∀ t ∈ s.appended,
      (s.point t).Tested ∧ s.userStack t = false ∧ s.tls t = false) ∧
    ((∀ t ∈ s.appended, (s.point t).Tested) → ∃ t, s.found = [t]) ∧
    ((∀ t ∈ s.appended, s.point t = .released) → s.destroyed = 1) := by
  have hinv := hreach.invariant (LeaveInv.launched main) fun hinv hmove => hinv.move hmove
  have hexists : (∀ t ∈ s.appended, (s.point t).Tested) → ∃ t, s.found = [t] := by
    intro hall
    have happended : ∀ t, s.point t ≠ .outside → (s.point t).Tested :=
      fun t ht => hall t ((hinv.threads t).appended.mpr ht)
    have hnil : s.threadPool = [] := by
      refine List.eq_nil_iff_forall_not_mem.mpr fun t ht => ?_
      have halive := (hinv.threads t).pool.mp ht
      have htested := happended t (by rw [halive]; decide)
      rw [halive] at htested
      exact htested
    have hsome : s.found ≠ [] := by
      intro hnone
      obtain ⟨t, hleaving, -⟩ := hinv.alone hnil hnone
      rw [LeavePoint.leaving_iff] at hleaving
      have htested := happended t (by grind)
      rw [LeavePoint.tested_iff] at htested
      grind
    exact List.length_eq_one_iff.mp
      (Nat.le_antisymm hinv.single (List.length_pos_iff.mpr hsome))
  refine ⟨hinv.single, ?_, hinv.late, fun t htested hheld => ?_, fun hpos t ht => ?_, hexists,
    fun hall => ?_⟩
  · rw [hinv.destroyed]
    exact (List.length_filter_le _ _).trans hinv.single
  · rw [(hinv.threads t).process, LeavePoint.tested_iff] at *
    grind
  · have hsome : s.found ≠ [] := by
      intro hnone
      rw [hinv.undestroyed hnone] at hpos
      exact absurd hpos (Nat.lt_irrefl 0)
    obtain ⟨hnil, hnobody⟩ := hinv.closed hsome
    have hpool := (hinv.threads t).pool
    have hstack := (hinv.threads t).stack
    have htls := (hinv.threads t).tls
    have happended := (hinv.threads t).appended.mp ht
    have hleaving := hnobody t
    rw [hnil] at hpool
    rw [LeavePoint.leaving_iff] at hleaving
    rw [LeavePoint.tested_iff]
    cases hcase : s.point t <;> simp_all
  · obtain ⟨t, hfound⟩ := hexists fun t ht => by rw [hall t ht]; trivial
    have ht : t ∈ s.found := by
      rw [hfound]
      exact List.mem_singleton_self t
    have hreleased : s.point t = .released := by
      refine hall t ((hinv.threads t).appended.mpr fun hno => ?_)
      have htested := (hinv.threads t).tested ht
      rw [hno] at htested
      exact htested
    rw [hinv.destroyed, hfound]
    simp [hreleased]

/-! ## Interleavings that can be computed -/

def goOnTimes (t n : ℕ) : List LeaveOp := List.replicate n (.goOn t)

/-- Thread `2` is created and leaves first, then thread `1`. -/
theorem leaveReachable_destroysOnce_oneAfterTheOther :
    ∃ s, Reachable (LeaveMoveWhen LeavesAlone) (launchedProcess 1) s ∧ s.appended = [1, 2] ∧
      s.found = [1] ∧ s.destroyed = 1 := by
  have heval : (perform (fun s op => if LeavesAlone s op then leaveStep s op else none)
      (launchedProcess 1) (.create 1 2 true :: goOnTimes 2 5 ++ goOnTimes 1 7 ++ goOnTimes 2 1 ++
        [.dequeue, .release, .dequeue, .release])).map (fun s =>
      decide (s.appended = [1, 2] ∧ s.found = [1] ∧ s.point 1 = .released ∧
        s.point 2 = .released)) = some true := by
    decide +kernel
  obtain ⟨s, hrun, hs⟩ := Option.map_eq_some_iff.mp heval
  obtain ⟨happended, hfound, hfirst, hsecond⟩ := of_decide_eq_true hs
  have hreach : Reachable (LeaveMoveWhen LeavesAlone) (launchedProcess 1) s := by
    refine .of_perform (fun {s op s'} hstep => ?_) hrun
    by_cases halone : LeavesAlone s op
    · exact ⟨halone, (if_pos halone).symm.trans hstep⟩
    · cases (if_neg halone).symm.trans hstep
  obtain ⟨-, -, -, -, -, -, honce⟩ := leaveReachable_destroysOnce 1 s hreach
  refine ⟨s, hreach, happended, hfound, honce fun t ht => ?_⟩
  rw [happended, List.mem_pair] at ht
  rcases ht with rfl | rfl
  · exact hfirst
  · exact hsecond

/-- Two threads leave the list before either tests `threadCount`: both find `0` and keep the
process, it is destroyed twice, and thread `2` unmaps its stack afterwards. -/
theorem threadExitProcess_destroysTwice :
    (∃ s, Reachable LeaveMove (launchedProcess 1) s ∧ s.found = [1, 2] ∧ s.destroyed = 2) ∧
    ∃ s, Reachable LeaveMove (launchedProcess 1) s ∧ 0 < s.destroyed ∧ s.late = [2] ∧
      s.userStack 2 = true := by
  constructor
  · have heval : (perform leaveStep (launchedProcess 1)
        (.create 1 2 true :: goOnTimes 1 1 ++ goOnTimes 2 1 ++ goOnTimes 1 6 ++ goOnTimes 2 6 ++
          [.dequeue, .release, .dequeue, .release])).map (fun s =>
        decide (s.found = [1, 2] ∧ s.destroyed = 2)) = some true := by
      decide +kernel
    obtain ⟨s, hrun, hs⟩ := Option.map_eq_some_iff.mp heval
    exact ⟨s, .of_perform id hrun, of_decide_eq_true hs⟩
  · have heval : (perform leaveStep (launchedProcess 1)
        (.create 1 2 true :: goOnTimes 1 1 ++ goOnTimes 2 1 ++ goOnTimes 1 6 ++
          [.dequeue, .release, .goOn 2])).map (fun s =>
        decide (0 < s.destroyed ∧ s.late = [2] ∧ s.userStack 2 = true)) = some true := by
      decide +kernel
    obtain ⟨s, hrun, hs⟩ := Option.map_eq_some_iff.mp heval
    exact ⟨s, .of_perform id hrun, of_decide_eq_true hs⟩

end Nxos.Process
