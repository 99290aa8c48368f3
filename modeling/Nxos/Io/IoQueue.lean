import Mathlib.Data.Fintype.Basic
import Nxos.Base.Kernel
import Nxos.Support.Ring
import Nxos.Support.Threads
import Nxos.Support.Transition

/-!
# Input and output queues

The embedding of `io/ioqueue.c`.  A queue is a ring of characters with three semaphores: `full`
counts the characters to get, `empty` the cells to put to, and `mutex` guards the ring and its
two indices.  The semaphores are counters here, which a thread waits for or tries once; taking
one, giving one back and the section under `mutex` are steps of their own.

Whatever the threads do in between, they read what was written, in the order of the sections.
-/

namespace Nxos.Io

open Nxos.Transition Nxos.Threads

/-! ## Data -/

/-- `NX_IoQueue` -/
structure IoQueue where
  full : ℕ
  empty : ℕ
  mutex : ℕ
  length : ℕ
  getIndex : ℕ
  putIndex : ℕ
  buf : ℕ → BitVec 8

/-- `NX_IoQueueInit` with a buffer. -/
def ioQueueInit (buf : ℕ → BitVec 8) (length : ℕ) : Except NxError IoQueue :=
  if length = 0 then .error .einval
  else
    .ok {
      full := 0
      empty := length
      mutex := 1
      length := length
      getIndex := 0
      putIndex := 0
      buf := buf }

/-- A call: `NX_IoQueueGet`, `NX_IoQueueTryGet`, `NX_IoQueuePut` or `NX_IoQueueTryPut`. -/
inductive IoCall where
  | get
  | tryGet
  | put (data : BitVec 8)
  | tryPut (data : BitVec 8)
  deriving DecidableEq

/-- What a call returns: its error, and a character if it gets one. -/
inductive IoReturn where
  | get (data : BitVec 8) (err : NxError)
  | put (err : NxError)
  deriving DecidableEq

def IoReturn.err : IoReturn → NxError
  | .get _ err => err
  | .put err => err

/-- Where a thread is: before a step of a call, or outside. -/
inductive IoPoint where
  | outside
  /-- `NX_SemaphoreWait(&queue->full)`, or `NX_SemaphoreTryWait`. -/
  | getFull (waits : Bool)
  | getMutex
  | getSection
  | getUnlock (data : BitVec 8)
  | getSignal (data : BitVec 8)
  /-- `NX_SemaphoreWait(&queue->empty)`, or `NX_SemaphoreTryWait`. -/
  | putEmpty (waits : Bool) (data : BitVec 8)
  | putMutex (data : BitVec 8)
  | putSection (data : BitVec 8)
  | putUnlock
  | putSignal
  deriving DecidableEq

def IoCall.point : IoCall → IoPoint
  | .get => .getFull true
  | .tryGet => .getFull false
  | .put data => .putEmpty true data
  | .tryPut data => .putEmpty false data

/-- A queue and the threads that use it, with the characters that were written and read so far,
in the order of the sections. -/
structure IoSession (τ : Type) where
  queue : IoQueue
  point : τ → IoPoint
  written : List (BitVec 8)
  read : List (BitVec 8)

variable {τ : Type}

def ioStart (queue : IoQueue) : IoSession τ where
  queue := queue
  point _ := .outside
  written := []
  read := []

section Steps

variable [DecidableEq τ]

def IoSession.goto (s : IoSession τ) (queue : IoQueue) (t : τ) (point : IoPoint) : IoSession τ :=
  { s with queue := queue, point := Function.update s.point t point }

/-! ## Steps -/

def IoSession.get (s : IoSession τ) (t : τ) : IoSession τ :=
  let q := s.queue
  let data := q.buf q.getIndex
  { s with read := s.read ++ [data] }.goto { q with getIndex := (q.getIndex + 1) % q.length } t
    (.getUnlock data)

def IoSession.put (s : IoSession τ) (t : τ) (data : BitVec 8) : IoSession τ :=
  let q := s.queue
  { s with written := s.written ++ [data] }.goto
    { q with
      buf := Function.update q.buf q.putIndex data
      putIndex := (q.putIndex + 1) % q.length } t .putUnlock

/-- The thread performs the next step of its call.  It is blocked when it waits for a semaphore
that has no unit. -/
def ioGoOn (s : IoSession τ) (t : τ) : Option (Option IoReturn × IoSession τ) :=
  let q := s.queue
  match s.point t with
  | .outside => none
  | .getFull waits =>
      if 0 < q.full then some (none, s.goto { q with full := q.full - 1 } t .getMutex)
      else if waits then none
      else some (some (.get 0 .eagain), s.goto q t .outside)
  | .getMutex =>
      if 0 < q.mutex then some (none, s.goto { q with mutex := q.mutex - 1 } t .getSection)
      else none
  | .getSection => some (none, s.get t)
  | .getUnlock data => some (none, s.goto { q with mutex := q.mutex + 1 } t (.getSignal data))
  | .getSignal data =>
      some (some (.get data .eok), s.goto { q with empty := q.empty + 1 } t .outside)
  | .putEmpty waits data =>
      if 0 < q.empty then some (none, s.goto { q with empty := q.empty - 1 } t (.putMutex data))
      else if waits then none
      else some (some (.put .eagain), s.goto q t .outside)
  | .putMutex data =>
      if 0 < q.mutex then
        some (none, s.goto { q with mutex := q.mutex - 1 } t (.putSection data))
      else none
  | .putSection data => some (none, s.put t data)
  | .putUnlock => some (none, s.goto { q with mutex := q.mutex + 1 } t .putSignal)
  | .putSignal => some (some (.put .eok), s.goto { q with full := q.full + 1 } t .outside)

inductive IoOp (τ : Type) where
  | call (t : τ) (call : IoCall)
  | goOn (t : τ)

def ioStep (s : IoSession τ) : IoOp τ → Option (Option IoReturn × IoSession τ)
  | .call t call =>
      if s.point t = .outside then some (none, s.goto s.queue t call.point) else none
  | .goOn t => ioGoOn s t

def IoMove (s : IoSession τ) (op : IoOp τ) (s' : IoSession τ) : Prop :=
  ∃ returned, ioStep s op = some (returned, s')

end Steps

/-! ## What the threads hold -/

namespace IoPoint

/-- A unit of `empty` for which nothing was put yet. -/
def takesEmpty : IoPoint → ℕ
  | .putMutex _ => 1
  | .putSection _ => 1
  | _ => 0

/-- A character that was put, for which `full` was not signalled yet. -/
def owesFull : IoPoint → ℕ
  | .putUnlock => 1
  | .putSignal => 1
  | _ => 0

/-- A unit of `full` for which nothing was taken yet. -/
def takesFull : IoPoint → ℕ
  | .getMutex => 1
  | .getSection => 1
  | _ => 0

/-- A character that was taken, for which `empty` was not signalled yet. -/
def owesEmpty : IoPoint → ℕ
  | .getUnlock _ => 1
  | .getSignal _ => 1
  | _ => 0

/-- The unit of `mutex`. -/
def holdsMutex : IoPoint → ℕ
  | .getSection => 1
  | .getUnlock _ => 1
  | .putSection _ => 1
  | .putUnlock => 1
  | _ => 0

end IoPoint

open IoPoint

attribute [simp] takesEmpty owesFull takesFull owesEmpty holdsMutex

/-- What a step outside the sections does: units go from the semaphores to the thread, or from
the thread to the semaphores. -/
structure Balanced (s : IoSession τ) (t : τ) (q : IoQueue) (point : IoPoint) : Prop where
  length : q.length = s.queue.length
  getIndex : q.getIndex = s.queue.getIndex
  putIndex : q.putIndex = s.queue.putIndex
  buf : q.buf = s.queue.buf
  empty : q.empty + point.takesEmpty + point.owesEmpty =
    s.queue.empty + (s.point t).takesEmpty + (s.point t).owesEmpty
  full : q.full + point.takesFull + point.owesFull =
    s.queue.full + (s.point t).takesFull + (s.point t).owesFull
  mutex : q.mutex + point.holdsMutex = s.queue.mutex + (s.point t).holdsMutex

section Cases

variable [DecidableEq τ] {s s' : IoSession τ} {t : τ} {op : IoOp τ} {returned : Option IoReturn}

theorem ioStep_cases (hstep : ioStep s op = some (returned, s')) :
    (∃ t, s.point t = .getSection ∧ s' = s.get t) ∨
    (∃ t data, s.point t = .putSection data ∧ s' = s.put t data) ∨
    ∃ t q point, Balanced s t q point ∧ s' = s.goto q t point := by
  cases op with
  | call t call =>
      rw [ioStep] at hstep
      split at hstep
      · next hpoint =>
        cases hstep
        refine .inr (.inr ⟨t, _, _, ?_, rfl⟩)
        cases call <;> constructor <;> simp [hpoint, IoCall.point]
      · cases hstep
  | goOn t =>
      rw [ioStep, ioGoOn] at hstep
      cases hpoint : s.point t with
      | outside => simp [hpoint] at hstep
      | getSection =>
          simp only [hpoint] at hstep
          cases hstep
          exact .inl ⟨t, hpoint, rfl⟩
      | putSection data =>
          simp only [hpoint] at hstep
          cases hstep
          exact .inr (.inl ⟨t, data, hpoint, rfl⟩)
      | getFull waits =>
          simp only [hpoint] at hstep
          split at hstep
          · cases hstep
            refine .inr (.inr ⟨t, _, _, ?_, rfl⟩)
            constructor <;> simp [hpoint]
            omega
          · split at hstep
            · cases hstep
            · cases hstep
              refine .inr (.inr ⟨t, _, _, ?_, rfl⟩)
              constructor <;> simp [hpoint]
      | putEmpty waits data =>
          simp only [hpoint] at hstep
          split at hstep
          · cases hstep
            refine .inr (.inr ⟨t, _, _, ?_, rfl⟩)
            constructor <;> simp [hpoint]
            omega
          · split at hstep
            · cases hstep
            · cases hstep
              refine .inr (.inr ⟨t, _, _, ?_, rfl⟩)
              constructor <;> simp [hpoint]
      | getMutex =>
          simp only [hpoint] at hstep
          split at hstep
          · cases hstep
            refine .inr (.inr ⟨t, _, _, ?_, rfl⟩)
            constructor <;> simp [hpoint]
            omega
          · cases hstep
      | putMutex data =>
          simp only [hpoint] at hstep
          split at hstep
          · cases hstep
            refine .inr (.inr ⟨t, _, _, ?_, rfl⟩)
            constructor <;> simp [hpoint]
            omega
          · cases hstep
      | getUnlock data =>
          simp only [hpoint] at hstep
          cases hstep
          refine .inr (.inr ⟨t, _, _, ?_, rfl⟩)
          constructor <;> simp [hpoint]
      | getSignal data =>
          simp only [hpoint] at hstep
          cases hstep
          refine .inr (.inr ⟨t, _, _, ?_, rfl⟩)
          constructor <;> simp [hpoint]
      | putUnlock =>
          simp only [hpoint] at hstep
          cases hstep
          refine .inr (.inr ⟨t, _, _, ?_, rfl⟩)
          constructor <;> simp [hpoint]
      | putSignal =>
          simp only [hpoint] at hstep
          cases hstep
          refine .inr (.inr ⟨t, _, _, ?_, rfl⟩)
          constructor <;> simp [hpoint]

/-- A call that fails with `NX_EAGAIN` has performed no step before, and leaves the queue. -/
theorem ioStep_eagain {r : IoReturn} (hstep : ioStep s op = some (some r, s'))
    (herr : r.err = .eagain) :
    s'.queue = s.queue ∧ ∃ (t : τ) (call : IoCall), op = .goOn t ∧ s.point t = call.point := by
  cases op with
  | call t call =>
      rw [ioStep] at hstep
      split at hstep <;> cases hstep
  | goOn t =>
      rw [ioStep, ioGoOn] at hstep
      cases hpoint : s.point t with
      | getFull waits =>
          simp only [hpoint] at hstep
          split at hstep
          · cases hstep
          · split at hstep
            · cases hstep
            · next hwaits =>
              cases hstep
              rw [Bool.not_eq_true] at hwaits
              exact ⟨rfl, t, .tryGet, rfl, by rw [hpoint, hwaits]; rfl⟩
      | putEmpty waits data =>
          simp only [hpoint] at hstep
          split at hstep
          · cases hstep
          · split at hstep
            · cases hstep
            · next hwaits =>
              cases hstep
              rw [Bool.not_eq_true] at hwaits
              exact ⟨rfl, t, .tryPut data, rfl, by rw [hpoint, hwaits]; rfl⟩
      | getMutex =>
          simp only [hpoint] at hstep
          split at hstep <;> cases hstep
      | putMutex data =>
          simp only [hpoint] at hstep
          split at hstep <;> cases hstep
      | getSignal data =>
          simp only [hpoint] at hstep
          cases hstep
          cases herr
      | putSignal =>
          simp only [hpoint] at hstep
          cases hstep
          cases herr
      | outside => simp [hpoint] at hstep
      | getSection => simp [hpoint] at hstep
      | getUnlock data => simp [hpoint] at hstep
      | putSection data => simp [hpoint] at hstep
      | putUnlock => simp [hpoint] at hstep

end Cases

section Accounts

variable [Fintype τ] {s s' : IoSession τ} {t u : τ} {q : IoQueue}

/-- Every unit of a semaphore is free or accounts for what a thread is about to do, and the ring
holds what was written and not read. -/
structure IoInv (s : IoSession τ) : Prop where
  pos : 0 < s.queue.length
  empty : s.queue.empty + weigh takesEmpty s.point + weigh owesEmpty s.point +
    s.written.length = s.queue.length + s.read.length
  full : s.queue.full + weigh takesFull s.point + weigh owesFull s.point +
    s.read.length = s.written.length
  mutex : s.queue.mutex + weigh holdsMutex s.point = 1
  getIndex : s.queue.getIndex = s.read.length % s.queue.length
  putIndex : s.queue.putIndex = s.written.length % s.queue.length
  ring : Ring.Holds s.queue.length s.queue.buf s.written s.read.length
  fifo : s.read = s.written.take s.read.length

namespace IoInv

theorem start {buf : ℕ → BitVec 8} {length : ℕ} (hinit : ioQueueInit buf length = .ok q) :
    IoInv (ioStart q : IoSession τ) ∧ q.length = length := by
  unfold ioQueueInit at hinit
  split at hinit
  · cases hinit
  · next hpos =>
    cases hinit
    refine ⟨⟨Nat.pos_of_ne_zero hpos, ?_, ?_, ?_, (Nat.zero_mod _).symm, (Nat.zero_mod _).symm,
      .empty _ _, rfl⟩, rfl⟩
    · simp [ioStart, weigh]
    · simp [ioStart, weigh]
    · simp [ioStart, weigh]

/-- A thread before the section of a get finds a character. -/
theorem lt_written (hinv : IoInv s) (htakes : (s.point t).takesFull = 1) :
    s.read.length < s.written.length := by
  have hone : (s.point t).takesFull ≤ weigh takesFull s.point := weight_le_weigh
  have hfull := hinv.full
  omega

/-- A thread before the section of a put finds a free cell. -/
theorem lt_read (hinv : IoInv s) (htakes : (s.point t).takesEmpty = 1) :
    s.written.length < s.read.length + s.queue.length := by
  have hone : (s.point t).takesEmpty ≤ weigh takesEmpty s.point := weight_le_weigh
  have hempty := hinv.empty
  omega

variable [DecidableEq τ] {op : IoOp τ} {returned : Option IoReturn} {point : IoPoint}
  {data : BitVec 8}

theorem goto (hinv : IoInv s) (hbalanced : Balanced s t q point) : IoInv (s.goto q t point) := by
  have hweigh := fun weight : IoPoint → ℕ => weigh_update weight s.point t point
  refine ⟨hbalanced.length ▸ hinv.pos, ?_, ?_, ?_, ?_, ?_, ?_, hinv.fifo⟩
  · have htakes := hweigh takesEmpty
    have howes := hweigh owesEmpty
    have hbefore := hinv.empty
    have hsame := hbalanced.empty
    have hlength := hbalanced.length
    simp only [IoSession.goto]
    omega
  · have htakes := hweigh takesFull
    have howes := hweigh owesFull
    have hbefore := hinv.full
    have hsame := hbalanced.full
    simp only [IoSession.goto]
    omega
  · have hholds := hweigh holdsMutex
    have hbefore := hinv.mutex
    have hsame := hbalanced.mutex
    simp only [IoSession.goto]
    omega
  · simpa only [IoSession.goto, hbalanced.getIndex, hbalanced.length] using hinv.getIndex
  · simpa only [IoSession.goto, hbalanced.putIndex, hbalanced.length] using hinv.putIndex
  · simpa only [IoSession.goto, hbalanced.buf, hbalanced.length] using hinv.ring

theorem alone (hinv : IoInv s) (ht : (s.point t).holdsMutex = 1)
    (hu : (s.point u).holdsMutex = 1) : t = u := by
  by_contra hne
  have htwo : (s.point t).holdsMutex + (s.point u).holdsMutex ≤ weigh holdsMutex s.point :=
    add_weight_le_weigh hne
  have hmutex := hinv.mutex
  omega

theorem get (hinv : IoInv s) (hpoint : s.point t = .getSection) : IoInv (s.get t) := by
  have hlt := hinv.lt_written (t := t) (by rw [hpoint]; rfl)
  have hfront := hinv.ring.front hlt
  have hweigh := fun weight : IoPoint → ℕ =>
    weigh_update weight s.point t (.getUnlock (s.queue.buf s.queue.getIndex))
  simp only [hpoint] at hweigh
  refine ⟨hinv.pos, ?_, ?_, ?_, ?_, hinv.putIndex, ?_, ?_⟩
  · have htakes := hweigh takesEmpty
    have howes := hweigh owesEmpty
    have hbefore := hinv.empty
    simp only [IoSession.get, IoSession.goto, List.length_append, List.length_singleton,
      takesEmpty, owesEmpty] at *
    omega
  · have htakes := hweigh takesFull
    have howes := hweigh owesFull
    have hbefore := hinv.full
    simp only [IoSession.get, IoSession.goto, List.length_append, List.length_singleton,
      takesFull, owesFull] at *
    omega
  · have hholds := hweigh holdsMutex
    have hbefore := hinv.mutex
    simp only [IoSession.get, IoSession.goto, holdsMutex] at *
    omega
  · simp only [IoSession.get, IoSession.goto, List.length_append, List.length_singleton,
      hinv.getIndex, Nat.mod_add_mod]
  · simpa only [IoSession.get, IoSession.goto, List.length_append, List.length_singleton] using
      hinv.ring.pop hlt
  · simp only [IoSession.get, IoSession.goto, List.length_append, List.length_singleton,
      hinv.getIndex, hfront]
    rw [List.take_succ_eq_append_getElem hlt, ← hinv.fifo]

theorem put (hinv : IoInv s) (hpoint : s.point t = .putSection data) : IoInv (s.put t data) := by
  have hlt := hinv.lt_read (t := t) (by rw [hpoint]; rfl)
  have hweigh := fun weight : IoPoint → ℕ => weigh_update weight s.point t .putUnlock
  simp only [hpoint] at hweigh
  refine ⟨hinv.pos, ?_, ?_, ?_, hinv.getIndex, ?_, ?_, ?_⟩
  · have htakes := hweigh takesEmpty
    have howes := hweigh owesEmpty
    have hbefore := hinv.empty
    simp only [IoSession.put, IoSession.goto, List.length_append, List.length_singleton,
      takesEmpty, owesEmpty] at *
    omega
  · have htakes := hweigh takesFull
    have howes := hweigh owesFull
    have hbefore := hinv.full
    simp only [IoSession.put, IoSession.goto, List.length_append, List.length_singleton,
      takesFull, owesFull] at *
    omega
  · have hholds := hweigh holdsMutex
    have hbefore := hinv.mutex
    simp only [IoSession.put, IoSession.goto, holdsMutex] at *
    omega
  · simp only [IoSession.put, IoSession.goto, List.length_append, List.length_singleton,
      hinv.putIndex, Nat.mod_add_mod]
  · simpa only [IoSession.put, IoSession.goto, hinv.putIndex] using hinv.ring.put hlt data
  · simp only [IoSession.put, IoSession.goto]
    rw [List.take_append_of_le_length hinv.ring.taken_le, ← hinv.fifo]

theorem step (hinv : IoInv s) (hstep : ioStep s op = some (returned, s')) :
    IoInv s' ∧ s'.queue.length = s.queue.length := by
  rcases ioStep_cases hstep with ⟨t, hpoint, rfl⟩ | ⟨t, data, hpoint, rfl⟩ |
    ⟨t, q, point, hbalanced, rfl⟩
  · exact ⟨hinv.get hpoint, rfl⟩
  · exact ⟨hinv.put hpoint, rfl⟩
  · exact ⟨hinv.goto hbalanced, hbalanced.length⟩

end IoInv

end Accounts

/-! ## Runs -/

/-- Whatever the threads do, they read what was written, in the order of the sections, which
follow one another; the ring never holds more than `length` characters, the indices stay in
it, no section overwrites a character that was not read or reads a cell that was not written,
and a call that fails with `NX_EAGAIN` leaves the queue as it is. -/
theorem ioReachable_fifo [Fintype τ] [DecidableEq τ] {buf : ℕ → BitVec 8} {length : ℕ}
    {q : IoQueue} {s : IoSession τ} (hinit : ioQueueInit buf length = .ok q)
    (hreach : Reachable IoMove (ioStart q) s) :
    s.read <+: s.written ∧
    (s.read.length ≤ s.written.length ∧ s.written.length - s.read.length ≤ length) ∧
    (s.queue.getIndex < length ∧ s.queue.putIndex < length) ∧
    (∀ t u, (s.point t).holdsMutex = 1 → (s.point u).holdsMutex = 1 → t = u) ∧
    (∀ t, s.point t = .getSection → s.read.length < s.written.length) ∧
    (∀ t data, s.point t = .putSection data → s.written.length - s.read.length < length) ∧
    ∀ op r s', ioStep s op = some (some r, s') → r.err = .eagain →
      s'.queue = s.queue ∧ ∃ (t : τ) (call : IoCall), op = .goOn t ∧ s.point t = call.point := by
  obtain ⟨hstart, hlength⟩ := IoInv.start (τ := τ) hinit
  obtain ⟨hinv, hsame⟩ : IoInv s ∧ s.queue.length = length :=
    hreach.invariant (P := fun s => IoInv s ∧ s.queue.length = length) ⟨hstart, hlength⟩
      fun ⟨hinv, hsame⟩ ⟨_, hstep⟩ => ⟨(hinv.step hstep).1, (hinv.step hstep).2.trans hsame⟩
  have hpos := hinv.pos
  have hle := hinv.ring.taken_le
  have hroom := hinv.ring.room
  rw [hsame] at hpos hroom
  refine ⟨?_, ⟨hle, by omega⟩, ⟨?_, ?_⟩, fun t u => hinv.alone, fun t hpoint => ?_,
    fun t data hpoint => ?_, fun op r s' hstep herr => ioStep_eagain hstep herr⟩
  · rw [hinv.fifo]
    exact List.take_prefix _ _
  · rw [hinv.getIndex, hsame]
    exact Nat.mod_lt _ hpos
  · rw [hinv.putIndex, hsame]
    exact Nat.mod_lt _ hpos
  · exact hinv.lt_written (t := t) (by rw [hpoint]; rfl)
  · have hlt := hinv.lt_read (t := t) (by rw [hpoint]; rfl)
    rw [hsame] at hlt
    omega

def oneCellRun {τ : Type} (t u : τ) : List (IoOp τ) :=
  [.call t (.put 7), .goOn t, .call u (.tryPut 8), .goOn u, .goOn t, .call u .get, .goOn t,
    .goOn t, .goOn t, .call t (.put 9), .goOn u, .goOn u, .goOn u, .goOn u, .goOn u, .goOn t,
    .goOn t, .goOn t]

theorem ioReachable_fifo_oneCell : ∃ (q : IoQueue) (s : IoSession (Fin 2)),
    ioQueueInit (fun _ => 0) 1 = .ok q ∧ Reachable IoMove (ioStart q) s ∧
    s.read = [7] ∧ s.written = [7, 9] ∧ s.read <+: s.written ∧
    s.written.length - s.read.length ≤ 1 := by
  obtain ⟨q, hinit⟩ : ∃ q, ioQueueInit (fun _ => 0) 1 = .ok q := ⟨_, rfl⟩
  have heval : (perform (fun s op => (ioStep s op).map Prod.snd) (ioStart q)
      (oneCellRun (0 : Fin 2) 1)).map (fun s => (s.read, s.written)) = some ([7], [7, 9]) := by
    cases hinit
    decide +kernel
  obtain ⟨s, hrun, hlists⟩ := Option.map_eq_some_iff.mp heval
  obtain ⟨hread, hwritten⟩ := Prod.mk.inj hlists
  have hreach : Reachable IoMove (ioStart q) s := Reachable.of_perform (fun {_ _ _} hstep => by
    obtain ⟨⟨returned, _⟩, hgoOn, rfl⟩ := Option.map_eq_some_iff.mp hstep
    exact ⟨returned, hgoOn⟩) hrun
  obtain ⟨horder, ⟨-, hroom⟩, -⟩ := ioReachable_fifo hinit hreach
  exact ⟨q, s, hinit, hreach, hread, hwritten, horder, hroom⟩

end Nxos.Io
