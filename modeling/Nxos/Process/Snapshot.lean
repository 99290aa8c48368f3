import Nxos.Fs.AbsPath
import Nxos.Slots.Table

/-!
# Snapshots

The embedding of `process/snapshot.c` and `NX_ThreadWalk`: a snapshot is created in one walk over
the live threads, installed in a slot and read with a cursor.

The walk of a process snapshot adds an entry for every thread of a process, and a walk that runs out
of memory ends early, which the caller does not look at.
-/

namespace Nxos.Process

open Nxos.Fs Nxos.Slots

/-! ## Data -/

/-- `NX_THREAD_NAME_LEN` -/
def threadNameLen : ℕ := 32

/-- What a snapshot reads of `NX_Thread`. -/
structure ThreadInfo where
  name : Str
  state : BitVec 32
  tid : BitVec 32
  process : Option ℕ
  fixedPriority : BitVec 32
  priority : BitVec 32
  onCore : BitVec 32
  coreAffinity : BitVec 32

/-- What a snapshot reads of `NX_Process`. -/
structure ProcessInfo where
  exePath : Str
  pid : BitVec 32
  threadCount : BitVec 32
  parentPid : BitVec 32

/-- `NX_SnapshotThread` -/
structure SnapshotThread where
  usage : BitVec 32
  state : BitVec 32
  threadId : BitVec 32
  ownerProcessId : BitVec 32
  fixedPriority : BitVec 32
  priority : BitVec 32
  onCore : BitVec 32
  coreAffinity : BitVec 32
  flags : BitVec 32
  name : Str
  deriving DecidableEq

/-- `NX_SnapshotProcess` -/
structure SnapshotProcess where
  usage : BitVec 32
  processId : BitVec 32
  threadCount : BitVec 32
  parentProcessId : BitVec 32
  flags : BitVec 32
  exePath : Str
  deriving DecidableEq

/-- `body` of `NX_SnapshotHead` -/
inductive SnapshotBody where
  | thread (body : SnapshotThread)
  | process (body : SnapshotProcess)
  deriving DecidableEq

/-- `NX_SnapshotHead`, with the thread or the process that it was filled from, which is not part of
the source. -/
structure SnapshotHead where
  body : SnapshotBody
  subject : ℕ
  deriving DecidableEq

/-- `NX_Snapshot`.  The list does not change once it is there, and the cursor is a place in it. -/
structure Snapshot where
  list : List SnapshotHead
  snapshotType : BitVec 32
  lastSnapshot : Option ℕ
  deriving DecidableEq

/-- `NX_SNAPSHOT_PROCESS` -/
def snapshotProcess : BitVec 32 := 1

/-- `NX_SNAPSHOT_THREAD` -/
def snapshotThread : BitVec 32 := 2

/-- `NX_SNAPSHOT_MAX` -/
def snapshotMax : BitVec 32 := 3

/-- `NX_SOLT_INVALID_VALUE` -/
def soltInvalidValue : BitVec 32 := -1

/-- The live threads, which the list of `NX_ThreadWalk` holds once each, the processes, the table of
the current process and the snapshots.  Allocation `k` succeeds when `memory k` says so, and an
object is named by the number behind that of its allocation. -/
structure SnapshotKernel (η : Type) where
  globalList : List ℕ
  thread : ℕ → ThreadInfo
  process : ℕ → ProcessInfo
  current : Option (ExposedObjectTable η)
  snapshot : ℕ → Snapshot
  allocs : ℕ
  memory : ℕ → Bool
  once : globalList.Nodup

section Calls

variable {η σ : Type}

/-! ## The walk -/

/-- `NX_ThreadWalk` -/
def threadWalk (handler : ℕ → σ → NxError × σ) : List ℕ → σ → NxError × σ
  | [], s => (.eok, s)
  | t :: rest, s =>
      let (err, s) := handler t s
      if err ≠ .eok then (err, s) else threadWalk handler rest s

/-- `SnapshotThreadWalkHandler` and `SnapshotProcessWalkHandler`: add an entry for a thread, if
there is one. -/
def snapshotWalkHandler (memory : ℕ → Bool) (fill : ℕ → Option SnapshotHead) (t : ℕ)
    (s : Snapshot × ℕ) : NxError × Snapshot × ℕ :=
  match fill t with
  | none => (.eok, s)
  | some head =>
      if memory s.2 then (.eok, { s.1 with list := s.1.list ++ [head] }, s.2 + 1)
      else (.enomem, s.1, s.2 + 1)

def SnapshotKernel.threadEntry (k : SnapshotKernel η) (t : ℕ) : SnapshotHead :=
  let thread := k.thread t
  ⟨.thread
    { usage := 0
      state := thread.state
      threadId := thread.tid
      ownerProcessId := match thread.process with
        | some p => (k.process p).pid
        | none => 0
      fixedPriority := thread.fixedPriority
      priority := thread.priority
      onCore := thread.onCore
      coreAffinity := thread.coreAffinity
      flags := 0
      name := (strCopyN thread.name threadNameLen).1 }, t⟩

def SnapshotKernel.processEntry (k : SnapshotKernel η) (p : ℕ) : SnapshotHead :=
  ⟨.process
    { usage := 0
      processId := (k.process p).pid
      threadCount := (k.process p).threadCount
      parentProcessId := (k.process p).parentPid
      flags := 0
      exePath := (strCopyN (k.process p).exePath vfsMaxPath).1 }, p⟩

/-- `SnapshotThreadWalkHandler` -/
def SnapshotKernel.snapshotThreadWalkHandler (k : SnapshotKernel η) :
    ℕ → Snapshot × ℕ → NxError × Snapshot × ℕ :=
  snapshotWalkHandler k.memory fun t => some (k.threadEntry t)

/-- `SnapshotProcessWalkHandler` -/
def SnapshotKernel.snapshotProcessWalkHandler (k : SnapshotKernel η) :
    ℕ → Snapshot × ℕ → NxError × Snapshot × ℕ :=
  snapshotWalkHandler k.memory fun t => (k.thread t).process.map k.processEntry

/-- `DoSnapshot`, `DoSnapshotThread` and `DoSnapshotProcess`, which drop the result of the walk. -/
def SnapshotKernel.doSnapshot (k : SnapshotKernel η) (s : Snapshot × ℕ) (snapshotType : BitVec 32) :
    NxError × Snapshot × ℕ :=
  if snapshotType = snapshotProcess then
    (.eok, (threadWalk k.snapshotProcessWalkHandler k.globalList s).2)
  else if snapshotType = snapshotThread then
    (.eok, (threadWalk k.snapshotThreadWalkHandler k.globalList s).2)
  else (.einval, s)

/-! ## System calls -/

def SnapshotKernel.setSnapshot (k : SnapshotKernel η) (object : ℕ) (s : Snapshot) :
    SnapshotKernel η :=
  { k with snapshot := Function.update k.snapshot object s }

/-- `NX_SnapshotCreate`, with the handler `SnapshotClose`. -/
def snapshotCreate (snapshotClose : η) (k : SnapshotKernel η) (snapshotType _flags : BitVec 32) :
    Except NxError (BitVec 32) × SnapshotKernel η :=
  if snapshotType = 0 ∨ snapshotMax ≤ snapshotType then (.error .einval, k)
  else
    match k.current with
    | none => (.error .enores, k)
    | some table =>
        let object := k.allocs + 1
        if k.memory k.allocs = false then (.error .enomem, { k with allocs := k.allocs + 1 })
        else
          let (err, snapshot, allocs) :=
            k.doSnapshot (⟨[], snapshotType, none⟩, k.allocs + 1) snapshotType
          let k := { k with allocs := allocs }
          if err ≠ .eok then (.error err, k)
          else
            match exposedObjectInstall table object .snapshot (some snapshotClose) with
            | .error err => (.error err, k)
            | .ok (solt, table) =>
                (.ok (BitVec.ofNat 32 solt),
                  { k.setSnapshot object snapshot with current := some table })

/-- The start of `NX_SnapshotFirst` and `NX_SnapshotNext`: the snapshot in a slot. -/
def SnapshotKernel.getSnapshot (k : SnapshotKernel η) (solt : BitVec 32) (object : ℕ) :
    Except NxError ℕ :=
  if solt = soltInvalidValue ∨ object = 0 then .error .einval
  else
    match k.current with
    | none => .error .enores
    | some table =>
        match exposedObjectGet table solt with
        | none => .error .einval
        | some exobj => if exobj.type ≠ .snapshot then .error .eperm else .ok exobj.object

/-- The end of `NX_SnapshotFirst` and `NX_SnapshotNext`: store an entry to the object of the caller
and set the cursor to it. -/
def SnapshotKernel.readHead (k : SnapshotKernel η) (name i : ℕ) (head : SnapshotHead) :
    Except NxError SnapshotHead × SnapshotKernel η :=
  let snapshot := k.snapshot name
  if snapshot.snapshotType = snapshotProcess ∨ snapshot.snapshotType = snapshotThread then
    (.ok head, k.setSnapshot name { snapshot with lastSnapshot := some i })
  else (.error .enores, k)

/-- `NX_SnapshotFirst` -/
def snapshotFirst (k : SnapshotKernel η) (solt : BitVec 32) (object : ℕ) :
    Except NxError SnapshotHead × SnapshotKernel η :=
  match k.getSnapshot solt object with
  | .error err => (.error err, k)
  | .ok name =>
      match (k.snapshot name).list[0]? with
      | none => (.error .enores, k)
      | some head => k.readHead name 0 head

/-- `NX_SnapshotNext` -/
def snapshotNext (k : SnapshotKernel η) (solt : BitVec 32) (object : ℕ) :
    Except NxError SnapshotHead × SnapshotKernel η :=
  match k.getSnapshot solt object with
  | .error err => (.error err, k)
  | .ok name =>
      match (k.snapshot name).lastSnapshot with
      | none => (.error .eperm, k)
      | some last =>
          match (k.snapshot name).list[last + 1]? with
          | none => (.error .enores, k)
          | some head => k.readHead name (last + 1) head

end Calls

/-! ## What a walk adds -/

/-- How many of the next `n` allocations succeed before one fails. -/
def granted (memory : ℕ → Bool) : ℕ → ℕ → ℕ
  | _, 0 => 0
  | allocs, n + 1 => if memory allocs then granted memory (allocs + 1) n + 1 else 0

theorem threadWalk_list (memory : ℕ → Bool) (fill : ℕ → Option SnapshotHead) (ts : List ℕ)
    (s : Snapshot) (allocs : ℕ) :
    (threadWalk (snapshotWalkHandler memory fill) ts (s, allocs)).2.1 =
      { s with
        list := s.list ++
          (ts.filterMap fill).take (granted memory allocs (ts.filterMap fill).length) } := by
  induction ts generalizing s allocs with
  | nil => simp [threadWalk]
  | cons t ts ih =>
      rw [threadWalk, snapshotWalkHandler]
      cases hfill : fill t with
      | none =>
          rw [List.filterMap_cons_none hfill]
          exact ih s allocs
      | some head =>
          rw [List.filterMap_cons_some hfill, List.length_cons, granted]
          by_cases hmemory : memory allocs = true
          · simp only [hmemory, if_true, ne_eq, not_true_eq_false, if_false]
            rw [ih, List.take_succ_cons, List.append_assoc]
            rfl
          · simp [hmemory]

theorem granted_le (memory : ℕ → Bool) (allocs n : ℕ) : granted memory allocs n ≤ n := by
  induction n generalizing allocs with
  | zero => exact le_rfl
  | succ n ih =>
      rw [granted]
      split
      · exact Nat.succ_le_succ (ih _)
      · exact Nat.zero_le _

/-- All of the allocations are granted exactly when all of them succeed. -/
theorem granted_eq_iff (memory : ℕ → Bool) (allocs n : ℕ) :
    granted memory allocs n = n ↔ ∀ i < n, memory (allocs + i) = true := by
  induction n generalizing allocs with
  | zero => simp [granted]
  | succ n ih =>
      rw [granted, Nat.forall_lt_succ_left]
      by_cases hfirst : memory allocs = true
      · rw [if_pos hfirst, Nat.add_right_cancel_iff, ih]
        have hshift : ∀ i, allocs + 1 + i = allocs + (i + 1) := by omega
        simp only [hshift, Nat.add_zero, hfirst, true_and]
      · simp [hfirst]

section Walks

variable {η : Type} (k : SnapshotKernel η)

/-- The processes of the live threads, in the order of the threads, or the live threads. -/
def SnapshotKernel.subjects (snapshotType : BitVec 32) : List ℕ :=
  if snapshotType = snapshotProcess then k.globalList.filterMap fun t => (k.thread t).process
  else k.globalList

def SnapshotKernel.entry (snapshotType : BitVec 32) (x : ℕ) : SnapshotHead :=
  if snapshotType = snapshotProcess then k.processEntry x else k.threadEntry x

/-- How many entries the walk of `NX_SnapshotCreate` has memory for. -/
def SnapshotKernel.served (snapshotType : BitVec 32) : ℕ :=
  granted k.memory (k.allocs + 1) (k.subjects snapshotType).length

theorem entry_subject (snapshotType : BitVec 32) (x : ℕ) :
    (k.entry snapshotType x).subject = x := by
  unfold SnapshotKernel.entry
  split <;> rfl

/-- What `DoSnapshot` leaves. -/
theorem doSnapshot_eq {snapshotType : BitVec 32} (htype : snapshotType ≠ 0)
    (hmax : ¬snapshotMax ≤ snapshotType) :
    (snapshotType = snapshotProcess ∨ snapshotType = snapshotThread) ∧
      (k.doSnapshot (⟨[], snapshotType, none⟩, k.allocs + 1) snapshotType).1 = .eok ∧
      (k.doSnapshot (⟨[], snapshotType, none⟩, k.allocs + 1) snapshotType).2.1 =
        ⟨((k.subjects snapshotType).take (k.served snapshotType)).map (k.entry snapshotType),
          snapshotType, none⟩ := by
  have htypes : snapshotType = snapshotProcess ∨ snapshotType = snapshotThread := by
    unfold snapshotMax at hmax
    unfold snapshotProcess snapshotThread
    bv_omega
  refine ⟨htypes, ?_⟩
  rcases htypes with rfl | rfl
  · have hheads : k.globalList.filterMap (fun t => (k.thread t).process.map k.processEntry) =
        (k.subjects snapshotProcess).map (k.entry snapshotProcess) := by
      rw [SnapshotKernel.subjects, if_pos rfl, List.map_filterMap]
      rfl
    refine ⟨rfl, (threadWalk_list _ _ _ _ _).trans ?_⟩
    rw [hheads, List.length_map, ← List.map_take]
    rfl
  · have hheads : k.globalList.filterMap (fun t => some (k.threadEntry t)) =
        (k.subjects snapshotThread).map (k.entry snapshotThread) := by
      rw [List.filterMap_eq_map']
      rfl
    refine ⟨rfl, (threadWalk_list _ _ _ _ _).trans ?_⟩
    rw [hheads, List.length_map, ← List.map_take]
    rfl

end Walks

/-! ## Creating and reading -/

section Reads

variable {η : Type} {k k' : SnapshotKernel η} {snapshotClose : η} {solt : BitVec 32}
  {object name : ℕ} {list : List SnapshotHead} {snapshotType flags : BitVec 32}

theorem exposedObjectGet_install {table table' : ExposedObjectTable η} {type : ExposedObjectType}
    {handler : Option η} {i : ℕ}
    (hinstall : exposedObjectInstall table object type handler = .ok (i, table')) :
    exposedObjectGet table' (BitVec.ofNat 32 i) = some ⟨object, type, handler⟩ ∧
      BitVec.ofNat 32 i ≠ soltInvalidValue := by
  unfold exposedObjectInstall at hinstall
  cases hobjects : table.objects with
  | none =>
      rw [hobjects] at hinstall
      cases hinstall
  | some objects =>
      rw [hobjects] at hinstall
      simp only at hinstall
      cases halloc : exposedObjectAlloc table.objectCount objects with
      | none =>
          rw [halloc] at hinstall
          cases hinstall
      | some j =>
          rw [halloc] at hinstall
          cases hinstall
          have hlt : i < table.objectCount := List.mem_range.mp (List.mem_of_find?_eq_some halloc)
          have hbounded := table.bounded
          unfold exobjMaxNr at hbounded
          have hindex : soltIndex (BitVec.ofNat 32 i) = i := by
            unfold soltIndex
            rw [BitVec.signExtend_eq_setWidth_of_msb_false, BitVec.toNat_setWidth,
              BitVec.toNat_ofNat]
            · omega
            · rw [BitVec.msb_eq_false_iff_two_mul_lt, BitVec.toNat_ofNat]
              omega
          refine ⟨?_, ?_⟩
          · unfold exposedObjectGet
            have hlt' : i < (table.set i ⟨object, type, handler⟩).objectCount := hlt
            rw [hindex, if_pos hlt']
            simp [ExposedObjectTable.set, hobjects]
          · unfold soltInvalidValue
            bv_omega

/-- What a successful `NX_SnapshotCreate` leaves: a slot for a snapshot that holds an entry for each
subject that the walk had memory for, and a cursor that is not set. -/
theorem snapshotCreate_ok
    (hcreate : snapshotCreate snapshotClose k snapshotType flags = (.ok solt, k')) :
    (snapshotType = snapshotProcess ∨ snapshotType = snapshotThread) ∧
      ∃ name, (∀ object ≠ 0, k'.getSnapshot solt object = .ok name) ∧
        k'.snapshot name =
          ⟨((k.subjects snapshotType).take (k.served snapshotType)).map (k.entry snapshotType),
            snapshotType, none⟩ := by
  unfold snapshotCreate at hcreate
  split at hcreate
  · cases hcreate
  rename_i htype
  rw [not_or] at htype
  obtain ⟨htypes, herr, hsnapshot⟩ := doSnapshot_eq k htype.1 htype.2
  refine ⟨htypes, k.allocs + 1, ?_⟩
  cases hcurrent : k.current with
  | none =>
      rw [hcurrent] at hcreate
      cases hcreate
  | some table =>
      simp only [hcurrent, herr, ne_eq, not_true_eq_false, if_false] at hcreate
      split at hcreate
      · cases hcreate
      cases hinstall : exposedObjectInstall table (k.allocs + 1) .snapshot
          (some snapshotClose) with
      | error err =>
          rw [hinstall] at hcreate
          cases hcreate
      | ok installed =>
          obtain ⟨i, table'⟩ := installed
          rw [hinstall] at hcreate
          cases hcreate
          obtain ⟨hget, hsolt⟩ := exposedObjectGet_install hinstall
          refine ⟨fun object hobject => ?_, ?_⟩
          · rw [SnapshotKernel.getSnapshot, if_neg (not_or.mpr ⟨hsolt, hobject⟩)]
            simp [hget]
          · simp only [SnapshotKernel.setSnapshot, Function.update_self]
            exact hsnapshot

/-- The snapshot in a slot holds a list. -/
structure SnapshotKernel.Holds (k : SnapshotKernel η) (solt : BitVec 32) (object name : ℕ)
    (list : List SnapshotHead) : Prop where
  found : k.getSnapshot solt object = .ok name
  held : (k.snapshot name).list = list
  typed : (k.snapshot name).snapshotType = snapshotProcess ∨
    (k.snapshot name).snapshotType = snapshotThread

theorem readHead_eq (hholds : k.Holds solt object name list) (i : ℕ) (head : SnapshotHead) :
    ∃ k', k.readHead name i head = (.ok head, k') ∧ k'.Holds solt object name list ∧
      (k'.snapshot name).lastSnapshot = some i := by
  refine ⟨k.setSnapshot name { k.snapshot name with lastSnapshot := some i }, ?_, ?_, ?_⟩
  · simp only [SnapshotKernel.readHead]
    rw [if_pos hholds.typed]
  · have hnow : (k.setSnapshot name { k.snapshot name with lastSnapshot := some i }).snapshot name =
        { k.snapshot name with lastSnapshot := some i } :=
      Function.update_self _ _ _
    refine ⟨hholds.found, ?_, ?_⟩
    · rw [hnow]
      exact hholds.held
    · rw [hnow]
      exact hholds.typed
  · simp only [SnapshotKernel.setSnapshot, Function.update_self]

/-- `NX_SnapshotFirst` fails on an empty list. -/
theorem snapshotFirst_nil (hholds : k.Holds solt object name []) :
    snapshotFirst k solt object = (.error .enores, k) := by
  simp [snapshotFirst, hholds.found, hholds.held]

theorem snapshotFirst_cons {head : SnapshotHead}
    (hholds : k.Holds solt object name (head :: list)) :
    snapshotFirst k solt object = k.readHead name 0 head := by
  simp [snapshotFirst, hholds.found, hholds.held]

/-- `NX_SnapshotNext` fails behind the last entry. -/
theorem snapshotNext_last {i : ℕ} (hholds : k.Holds solt object name list)
    (hcursor : (k.snapshot name).lastSnapshot = some i) (hlast : list.drop (i + 1) = []) :
    snapshotNext k solt object = (.error .enores, k) := by
  have hnone : list[i + 1]? = none :=
    List.getElem?_eq_none (List.drop_eq_nil_iff.mp hlast)
  simp [snapshotNext, hholds.found, hholds.held, hcursor, hnone]

/-- `NX_SnapshotNext` reads the entry behind the cursor. -/
theorem snapshotNext_next {i : ℕ} {head : SnapshotHead} {rest : List SnapshotHead}
    (hholds : k.Holds solt object name list)
    (hcursor : (k.snapshot name).lastSnapshot = some i) (hnext : list.drop (i + 1) = head :: rest) :
    snapshotNext k solt object = k.readHead name (i + 1) head := by
  have hsome : list[i + 1]? = some head := by
    rw [← List.head?_drop, hnext, List.head?_cons]
  simp [snapshotNext, hholds.found, hholds.held, hcursor, hsome]

/-- The entries that `NX_SnapshotNext` reads until it fails. -/
inductive NextReads (solt : BitVec 32) (object : ℕ) :
    SnapshotKernel η → List SnapshotHead → Prop
  | fails {k k' : SnapshotKernel η} {err : NxError}
      (hnext : snapshotNext k solt object = (.error err, k')) : NextReads solt object k []
  | next {k k' : SnapshotKernel η} {head : SnapshotHead} {ys : List SnapshotHead}
      (hnext : snapshotNext k solt object = (.ok head, k'))
      (hrest : NextReads solt object k' ys) : NextReads solt object k (head :: ys)

/-- The entries that `NX_SnapshotFirst` and then `NX_SnapshotNext` read until one of them fails. -/
inductive SnapshotReads (solt : BitVec 32) (object : ℕ) :
    SnapshotKernel η → List SnapshotHead → Prop
  | fails {k k' : SnapshotKernel η} {err : NxError}
      (hfirst : snapshotFirst k solt object = (.error err, k')) : SnapshotReads solt object k []
  | first {k k' : SnapshotKernel η} {head : SnapshotHead} {ys : List SnapshotHead}
      (hfirst : snapshotFirst k solt object = (.ok head, k'))
      (hrest : NextReads solt object k' ys) : SnapshotReads solt object k (head :: ys)

theorem nextReads_iff {i : ℕ} {ys : List SnapshotHead} (hholds : k.Holds solt object name list)
    (hcursor : (k.snapshot name).lastSnapshot = some i) :
    NextReads solt object k ys ↔ ys = list.drop (i + 1) := by
  -- The entries behind the cursor grow shorter with each call.
  generalize hrest : list.drop (i + 1) = rest
  induction rest generalizing k i ys with
  | nil =>
      have hlast := snapshotNext_last hholds hcursor hrest
      constructor
      · intro hreads
        cases hreads with
        | fails => rfl
        | next hnext _ =>
            rw [hlast] at hnext
            cases hnext
      · rintro rfl
        exact .fails hlast
  | cons head rest ih =>
      have hnext := snapshotNext_next hholds hcursor hrest
      obtain ⟨k', hread, hholds', hcursor'⟩ := readHead_eq hholds (i + 1) head
      rw [hread] at hnext
      have hrest' : list.drop (i + 1 + 1) = rest := by
        rw [← List.tail_drop, hrest, List.tail_cons]
      constructor
      · intro hreads
        cases hreads with
        | fails hfails =>
            rw [hnext] at hfails
            cases hfails
        | next hread' hreads' =>
            rw [hnext] at hread'
            cases hread'
            rw [(ih hholds' hcursor' hrest').mp hreads']
      · rintro rfl
        exact .next hnext ((ih hholds' hcursor' hrest').mpr rfl)

theorem snapshotReads_iff {ys : List SnapshotHead} (hholds : k.Holds solt object name list) :
    SnapshotReads solt object k ys ↔ ys = list := by
  cases list with
  | nil =>
      have hnil := snapshotFirst_nil hholds
      constructor
      · intro hreads
        cases hreads with
        | fails => rfl
        | first hfirst _ =>
            rw [hnil] at hfirst
            cases hfirst
      · rintro rfl
        exact .fails hnil
  | cons head rest =>
      have hcons := snapshotFirst_cons hholds
      obtain ⟨k', hread, hholds', hcursor'⟩ := readHead_eq hholds 0 head
      rw [hread] at hcons
      constructor
      · intro hreads
        cases hreads with
        | fails hfails =>
            rw [hcons] at hfails
            cases hfails
        | first hfirst hreads' =>
            rw [hcons] at hfirst
            cases hfirst
            rw [(nextReads_iff hholds' hcursor').mp hreads']
            rfl
      · rintro rfl
        exact .first hcons ((nextReads_iff hholds' hcursor').mpr rfl)

end Reads

/-! ## Each subject once -/

section Once

variable {η : Type} {k k' : SnapshotKernel η} {snapshotClose : η} {solt : BitVec 32}
  {object : ℕ} {snapshotType flags : BitVec 32}

/-- A list of entries has one for every process that has a live thread, or for every live thread,
and each is filled from its subject. -/
structure SnapshotKernel.EachOnce (k : SnapshotKernel η) (snapshotType : BitVec 32)
    (ys : List SnapshotHead) : Prop where
  once : (ys.map SnapshotHead.subject).Nodup
  all : ∀ x, x ∈ ys.map SnapshotHead.subject ↔ x ∈ k.subjects snapshotType
  filled : ∀ head ∈ ys, head = k.entry snapshotType head.subject

/-- Before the first failed allocation of the walk, every process that has a live thread is met
exactly once, or every live thread is. -/
def SnapshotKernel.ServedOnce (k : SnapshotKernel η) (snapshotType : BitVec 32) : Prop :=
  ∀ x ∈ k.subjects snapshotType,
    ((k.subjects snapshotType).take (k.served snapshotType)).count x = 1

theorem eachOnce_iff (k : SnapshotKernel η) (snapshotType : BitVec 32) :
    k.EachOnce snapshotType
        (((k.subjects snapshotType).take (k.served snapshotType)).map (k.entry snapshotType)) ↔
      k.ServedOnce snapshotType := by
  unfold SnapshotKernel.ServedOnce
  generalize hxs : (k.subjects snapshotType).take (k.served snapshotType) = xs
  have hsubset : ∀ x ∈ xs, x ∈ k.subjects snapshotType := by
    intro x hx
    rw [← hxs] at hx
    exact List.mem_of_mem_take hx
  have hsubjects : (xs.map (k.entry snapshotType)).map SnapshotHead.subject = xs := by
    rw [List.map_map]
    exact (List.map_congr_left fun x _ => entry_subject k snapshotType x).trans (List.map_id xs)
  constructor
  · rintro ⟨honce, hall, _⟩ x hx
    rw [hsubjects] at honce hall
    exact List.count_eq_one_of_mem honce ((hall x).mpr hx)
  · intro hserved
    refine ⟨?_, fun x => ?_, ?_⟩
    · rw [hsubjects, List.nodup_iff_count_eq_one]
      exact fun x hx => hserved x (hsubset x hx)
    · rw [hsubjects]
      refine ⟨hsubset x, fun hx => ?_⟩
      rw [← List.count_pos_iff, hserved x hx]
      exact Nat.one_pos
    · intro head hhead
      obtain ⟨x, _, rfl⟩ := List.mem_map.mp hhead
      rw [entry_subject]

/-- A snapshot that was created and is read to its end yields each subject once exactly when the
walk had met each once before the first allocation that failed. -/
theorem snapshotReads_eachOnce_iff
    (hcreate : snapshotCreate snapshotClose k snapshotType flags = (.ok solt, k'))
    (hobject : object ≠ 0) :
    (∃ ys, SnapshotReads solt object k' ys ∧ k.EachOnce snapshotType ys) ↔
      k.ServedOnce snapshotType := by
  obtain ⟨htypes, name, hfound, hsnapshot⟩ := snapshotCreate_ok hcreate
  have hholds : k'.Holds solt object name
      (((k.subjects snapshotType).take (k.served snapshotType)).map (k.entry snapshotType)) := by
    refine ⟨hfound object hobject, ?_, ?_⟩
    · rw [hsnapshot]
    · rw [hsnapshot]
      exact htypes
  rw [← eachOnce_iff]
  constructor
  · rintro ⟨ys, hreads, honce⟩
    rwa [(snapshotReads_iff hholds).mp hreads] at honce
  · intro honce
    exact ⟨_, (snapshotReads_iff hholds).mpr rfl, honce⟩

theorem servedOnce_snapshotThread_iff (k : SnapshotKernel η) :
    k.ServedOnce snapshotThread ↔
      ∀ i < k.globalList.length, k.memory (k.allocs + 1 + i) = true := by
  rw [← granted_eq_iff]
  have hsubjects : k.subjects snapshotThread = k.globalList := rfl
  constructor
  · intro hserved
    by_contra hshort
    have hlt : k.served snapshotThread < k.globalList.length :=
      lt_of_le_of_ne (granted_le _ _ _) hshort
    -- The first thread that the walk had no memory for is not in the list.
    have hlost := hserved k.globalList[k.served snapshotThread] (List.getElem_mem hlt)
    have hmem : k.globalList[k.served snapshotThread] ∈
        k.globalList.take (k.served snapshotThread) := by
      rw [hsubjects] at hlost
      exact List.count_pos_iff.mp (hlost ▸ Nat.one_pos)
    obtain ⟨i, hi, heq⟩ := List.mem_take_iff_getElem.mp hmem
    have := (k.once.getElem_inj_iff).mp heq
    omega
  · intro hall x hx
    have hserved : k.served snapshotThread = k.globalList.length := hall
    rw [hsubjects] at hx ⊢
    rw [hserved, List.take_length]
    exact List.count_eq_one_of_mem k.once hx

/-- Where memory does not run out, a process snapshot is right exactly when no two live threads are
of one process. -/
theorem servedOnce_snapshotProcess_iff
    (hmemory : ∀ i < (k.subjects snapshotProcess).length, k.memory (k.allocs + 1 + i) = true) :
    k.ServedOnce snapshotProcess ↔
      (k.globalList.filterMap fun t => (k.thread t).process).Nodup := by
  have hserved : k.served snapshotProcess = (k.subjects snapshotProcess).length :=
    (granted_eq_iff _ _ _).mpr hmemory
  unfold SnapshotKernel.ServedOnce
  rw [hserved, List.take_length, List.nodup_iff_count_eq_one]
  rfl

end Once

section TwoThreads

/-- A table with one empty slot, two processes, and threads 1 and 2, of which the first is of
process 1 and the second of process `p`. -/
def twoThreads (p : ℕ) : SnapshotKernel Unit where
  globalList := [1, 2]
  thread t := ⟨[], 0, BitVec.ofNat 32 t, some (if t = 1 then 1 else p), 0, 0, 0, 0⟩
  process p := ⟨[], BitVec.ofNat 32 p, 0, 0⟩
  current := some ⟨1, some fun _ => .cleared, by decide, by decide⟩
  snapshot _ := ⟨[], 0, none⟩
  allocs := 0
  memory _ := true
  once := by decide

theorem snapshotCreate_twoThreads (p : ℕ) :
    snapshotCreate () (twoThreads p) snapshotProcess 0 =
      (.ok 0, (snapshotCreate () (twoThreads p) snapshotProcess 0).2) :=
  rfl

/-- With the threads in two processes the snapshot has both processes. -/
theorem snapshotReads_eachOnce_twoProcesses :
    ∃ ys, SnapshotReads 0 1 (snapshotCreate () (twoThreads 2) snapshotProcess 0).2 ys ∧
      (twoThreads 2).EachOnce snapshotProcess ys :=
  (snapshotReads_eachOnce_iff (snapshotCreate_twoThreads 2) one_ne_zero).mpr (by
    unfold SnapshotKernel.ServedOnce
    decide)

/-- A process snapshot yields a process twice that has two live threads. -/
theorem snapshotReads_twice :
    ¬∀ (k k' : SnapshotKernel Unit) (solt snapshotType flags : BitVec 32) (object : ℕ),
      snapshotCreate () k snapshotType flags = (.ok solt, k') → object ≠ 0 →
        ∃ ys, SnapshotReads solt object k' ys ∧ k.EachOnce snapshotType ys := by
  intro hclaim
  have hcreate := snapshotCreate_twoThreads 1
  obtain ⟨ys, hreads, honce⟩ := hclaim _ _ _ _ _ 1 hcreate one_ne_zero
  obtain ⟨_, name, hfound, hsnapshot⟩ := snapshotCreate_ok hcreate
  have hys := (snapshotReads_iff ⟨hfound 1 one_ne_zero, rfl, by rw [hsnapshot]; exact .inl rfl⟩).mp
    hreads
  have hnodup := honce.once
  rw [hys, hsnapshot] at hnodup
  revert hnodup
  decide

end TwoThreads

end Nxos.Process
