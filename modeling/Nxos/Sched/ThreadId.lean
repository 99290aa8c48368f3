import Nxos.Base.Kernel
import Nxos.Support.Transition
import Mathlib.Data.Set.Insert
import Mathlib.Tactic.SplitIfs

/-!
# Thread identifiers

The embedding of `sched/thread_id.c`.  Identifiers are the bits of a map, and a
request looks for a clear bit from a hint on, around the end of the map and back to
the hint.  Whether the search found one is told from the hint, which the search
itself moves.  Both functions hold the lock of the map, so a run is a sequence of
whole calls.
-/

namespace Nxos.Sched

open Nxos.Transition

/-- A value of `NX_MAX_THREAD_NR`: an `int` that fills whole words of the map. -/
structure ThreadLimit where
  nr : ℕ
  pos : 0 < nr
  dvd : 32 ∣ nr
  fits : nr < 2 ^ 31

/-- `struct NX_ThreadID`, without its lock. -/
structure ThreadID where
  maps : List (BitVec 32)
  nextID : ℕ
  deriving DecidableEq, Repr

/-- `threadIdObject.maps[idx]`. -/
def ThreadID.word (t : ThreadID) (idx : ℕ) : Exec (BitVec 32) :=
  match t.maps[idx]? with
  | some word => .ok word
  | none => .error .outOfBounds

/-- The loop of `NX_ThreadIdAlloc`, with the rounds that it may still take.  It
returns `nextID` and the object. -/
def threadIdSearch (nr : ℕ) : ℕ → ThreadID → ℕ → Exec (ℕ × ThreadID)
  | 0, _, _ => .error .diverge
  | rounds + 1, t, nextID => do
      let idx := nextID / 32
      let odd := nextID % 32
      let word ← t.word idx
      if word &&& (1#32 <<< odd) = 0 then
        return (nextID, ⟨t.maps.set idx (word ||| (1#32 <<< odd)), (nextID + 1) % nr⟩)
      else if (nextID + 1) % nr ≠ t.nextID then
        threadIdSearch nr rounds t ((nextID + 1) % nr)
      else return ((nextID + 1) % nr, t)

/-- `NX_ThreadIdAlloc`. -/
def threadIdAlloc (nr : ℕ) (t : ThreadID) : Exec (ℤ × ThreadID) := do
  let (nextID, t) ← threadIdSearch nr nr t t.nextID
  return (if nextID ≠ t.nextID then (nextID : ℤ) else -1, t)

/-- `NX_ThreadIdFree`. -/
def threadIdFree (nr : ℕ) (t : ThreadID) (id : ℤ) : Exec ThreadID :=
  if id < 0 ∨ (nr : ℤ) ≤ id then .ok t
  else do
    let idx := id.toNat / 32
    let odd := id.toNat % 32
    let word ← t.word idx
    nxAssert (word &&& (1#32 <<< odd) ≠ 0)
    return { t with maps := t.maps.set idx (word &&& ~~~(1#32 <<< odd)) }

/-- `NX_ThreadsInitID`; `memory` says whether `NX_MemAlloc` has the `nr / 8` bytes of
the map. -/
def threadsInitID (nr : ℕ) (memory : Bool) : Exec ThreadID := do
  nxAssert (memory = true)
  return ⟨List.replicate (nr / 8 / 4) 0, 0⟩

/-! ## The map as a set -/

/-- The identifiers whose bit is set. -/
def ThreadID.marked (t : ThreadID) (id : ℕ) : Prop :=
  ∃ word, t.maps[id / 32]? = some word ∧ word.getLsbD (id % 32) = true

/-- A single bit of a word, as `word & (1 << odd)` tests it. -/
theorem and_shift_eq_zero_iff {word : BitVec 32} {odd : ℕ} (hodd : odd < 32) :
    word &&& (1#32 <<< odd) = 0 ↔ word.getLsbD odd = false := by
  constructor
  · intro h
    have hbit := congrArg (fun w : BitVec 32 => w.getLsbD odd) h
    simpa [BitVec.getLsbD_shiftLeft, hodd] using hbit
  · intro h
    apply BitVec.eq_of_getLsbD_eq
    intro i hi
    by_cases hio : i = odd
    · simp [hio, h]
    · have hne : ¬(i - odd = 0 ∧ ¬i < odd) := by omega
      by_cases hlt : i < odd
      · simp [hlt]
      · have hpos : i - odd ≠ 0 := by omega
        simp [hpos]

theorem getLsbD_or_shift {word : BitVec 32} {odd i : ℕ} (hodd : odd < 32) :
    (word ||| (1#32 <<< odd)).getLsbD i = true ↔ i = odd ∨ word.getLsbD i = true := by
  by_cases hio : i = odd
  · simp [hio, hodd]
  · by_cases hlt : i < odd
    · simp [hio, hlt]
    · have hpos : i - odd ≠ 0 := by omega
      simp [hio, hpos]

theorem getLsbD_and_not_shift {word : BitVec 32} {odd i : ℕ} (hodd : odd < 32) :
    (word &&& ~~~(1#32 <<< odd)).getLsbD i = true ↔ i ≠ odd ∧ word.getLsbD i = true := by
  by_cases hi : i < 32
  · by_cases hio : i = odd
    · simp [hio, hodd]
    · by_cases hlt : i < odd
      · simp [hio, hlt, hi]
      · have hpos : i - odd ≠ 0 := by omega
        simp [hio, hpos, hi]
  · simp [BitVec.getLsbD_of_ge word i (by omega)]

theorem eq_of_word_of_bit {i j : ℕ} (hword : i / 32 = j / 32) (hbit : i % 32 = j % 32) :
    i = j := by
  omega

section Map

variable {nr : ℕ} {t : ThreadID} {id : ℕ}

theorem ThreadID.exists_word (hnr : t.maps.length * 32 = nr) (hid : id < nr) :
    ∃ word, t.maps[id / 32]? = some word ∧ t.word (id / 32) = .ok word := by
  have hlt : id / 32 < t.maps.length := by omega
  refine ⟨t.maps[id / 32], List.getElem?_eq_getElem hlt, ?_⟩
  simp [ThreadID.word, List.getElem?_eq_getElem hlt]

theorem ThreadID.marked_set {word : BitVec 32} (hword : t.maps[id / 32]? = some word)
    (next i : ℕ) :
    (⟨t.maps.set (id / 32) (word ||| (1#32 <<< (id % 32))), next⟩ : ThreadID).marked i ↔
      i = id ∨ t.marked i := by
  have hlt : id / 32 < t.maps.length := (List.getElem?_eq_some_iff.mp hword).1
  have hodd : id % 32 < 32 := Nat.mod_lt _ (by decide)
  unfold ThreadID.marked
  dsimp only
  by_cases hi : id / 32 = i / 32
  · have heq : i % 32 = id % 32 ↔ i = id :=
      ⟨fun h => eq_of_word_of_bit hi.symm h, fun h => by rw [h]⟩
    rw [← hi, List.getElem?_set_self hlt]
    simp only [Option.some.injEq, exists_eq_left', getLsbD_or_shift hodd, hword, heq]
  · have hne : i ≠ id := by
      rintro rfl
      exact hi rfl
    simp only [List.getElem?_set_ne hi, hne, false_or]

theorem ThreadID.marked_clear {word : BitVec 32} (hword : t.maps[id / 32]? = some word)
    (i : ℕ) :
    ({ t with maps := t.maps.set (id / 32) (word &&& ~~~(1#32 <<< (id % 32))) } :
      ThreadID).marked i ↔ i ≠ id ∧ t.marked i := by
  have hlt : id / 32 < t.maps.length := (List.getElem?_eq_some_iff.mp hword).1
  have hodd : id % 32 < 32 := Nat.mod_lt _ (by decide)
  unfold ThreadID.marked
  dsimp only
  by_cases hi : id / 32 = i / 32
  · have heq : i % 32 ≠ id % 32 ↔ i ≠ id :=
      ⟨fun h heq => h (by rw [heq]), fun h heq => h (eq_of_word_of_bit hi.symm heq)⟩
    rw [← hi, List.getElem?_set_self hlt]
    simp only [Option.some.injEq, exists_eq_left', getLsbD_and_not_shift hodd, hword, heq]
  · have hne : i ≠ id := by
      rintro rfl
      exact hi rfl
    simp only [List.getElem?_set_ne hi, hne, ne_eq, not_false_eq_true, true_and]

end Map

/-! ## The search -/

theorem exists_add_mod {nr hint id : ℕ} (hhint : hint < nr) (hid : id < nr) :
    ∃ j, j < nr ∧ (hint + j) % nr = id := by
  by_cases hle : hint ≤ id
  · refine ⟨id - hint, by omega, ?_⟩
    rw [Nat.add_sub_cancel' hle, Nat.mod_eq_of_lt hid]
  · refine ⟨id + nr - hint, by omega, ?_⟩
    rw [show hint + (id + nr - hint) = id + nr by omega, Nat.add_mod_right,
      Nat.mod_eq_of_lt hid]

/-- What the search with `rounds` rounds left has to offer: a clear identifier, which
it marks, or the hint again when none of those to go is clear. -/
theorem threadIdSearch_spec {nr : ℕ} {t : ThreadID} (hnr : t.maps.length * 32 = nr)
    (hnext : t.nextID < nr) {rounds k : ℕ} (hk : rounds + k = nr) (hrounds : 0 < rounds) :
    (∃ id u, id < nr ∧ ¬t.marked id ∧
      threadIdSearch nr rounds t ((t.nextID + k) % nr) = .ok (id, u) ∧
      u.nextID = (id + 1) % nr ∧ u.maps.length = t.maps.length ∧
      ∀ i, u.marked i ↔ i = id ∨ t.marked i) ∨
    ((∀ j, k ≤ j → j < nr → t.marked ((t.nextID + j) % nr)) ∧
      threadIdSearch nr rounds t ((t.nextID + k) % nr) = .ok (t.nextID, t)) := by
  induction rounds generalizing k with
  | zero => exact absurd hrounds (lt_irrefl 0)
  | succ rounds ih =>
      have hid : (t.nextID + k) % nr < nr := Nat.mod_lt _ (by omega)
      obtain ⟨word, hget, hword⟩ := ThreadID.exists_word hnr hid
      have hodd : (t.nextID + k) % nr % 32 < 32 := Nat.mod_lt _ (by decide)
      have hnextId : ((t.nextID + k) % nr + 1) % nr = (t.nextID + (k + 1)) % nr := by
        rw [Nat.mod_add_mod, Nat.add_assoc]
      rw [threadIdSearch]
      simp only [hword, exec_ok_bind, exec_pure]
      by_cases hclear : word &&& (1#32 <<< ((t.nextID + k) % nr % 32)) = 0
      · rw [if_pos hclear]
        have hbit := (and_shift_eq_zero_iff hodd).mp hclear
        refine .inl ⟨_, _, hid, ?_, rfl, rfl, List.length_set, ThreadID.marked_set hget _⟩
        rintro ⟨word', hget', hbit'⟩
        rw [hget] at hget'
        cases hget'
        rw [hbit] at hbit'
        cases hbit'
      · have hmarked : t.marked ((t.nextID + k) % nr) := by
          refine ⟨word, hget, ?_⟩
          rw [← Bool.not_eq_false]
          exact fun hbit => hclear ((and_shift_eq_zero_iff hodd).mpr hbit)
        rw [if_neg hclear, hnextId]
        by_cases hlast : rounds = 0
        · -- the search is back at the hint
          have hback : (t.nextID + (k + 1)) % nr = t.nextID := by
            rw [show k + 1 = nr by omega, Nat.add_mod_right, Nat.mod_eq_of_lt hnext]
          rw [if_neg (not_not.mpr hback), hback]
          refine .inr ⟨fun j hj hjn => ?_, rfl⟩
          rw [show j = k by omega]
          exact hmarked
        · have hne : (t.nextID + (k + 1)) % nr ≠ t.nextID := by
            intro heq
            have hwrap : t.nextID + (k + 1) < t.nextID + nr := by omega
            by_cases hlt : t.nextID + (k + 1) < nr
            · rw [Nat.mod_eq_of_lt hlt] at heq
              omega
            · rw [Nat.mod_eq_sub_mod (by omega), Nat.mod_eq_of_lt (by omega)] at heq
              omega
          rw [if_pos hne]
          rcases ih (k := k + 1) (by omega) (Nat.pos_of_ne_zero hlast) with hfound | ⟨hall, hrun⟩
          · exact .inl hfound
          · refine .inr ⟨fun j hj hjn => ?_, hrun⟩
            by_cases hjk : j = k
            · rw [hjk]
              exact hmarked
            · exact hall j (by omega) hjn

/-! ## Runs -/

/-- The object, with the identifiers that were handed out and not freed since. -/
structure ThreadIdSession where
  object : ThreadID
  allocated : Set ℕ

inductive ThreadIdOp where
  | alloc
  | free (id : ℕ)

def ThreadIdMove (nr : ℕ) (σ : ThreadIdSession) : ThreadIdOp → ThreadIdSession → Prop
  | .alloc, τ => ∃ id, threadIdAlloc nr σ.object = .ok (id, τ.object) ∧
      τ.allocated = if 0 ≤ id then insert id.toNat σ.allocated else σ.allocated
  | .free id, τ => id ∈ σ.allocated ∧ threadIdFree nr σ.object id = .ok τ.object ∧
      τ.allocated = σ.allocated \ {id}

/-- The bitmap is exactly the set of the allocated identifiers, all of them below `nr`. -/
structure ThreadIdInv (nr : ℕ) (σ : ThreadIdSession) : Prop where
  length : σ.object.maps.length * 32 = nr
  next : σ.object.nextID < nr
  marked : ∀ id, σ.object.marked id ↔ id ∈ σ.allocated

namespace ThreadIdInv

variable {nr : ℕ} {σ τ : ThreadIdSession}

theorem lt_of_mem (h : ThreadIdInv nr σ) {id : ℕ} (hid : id ∈ σ.allocated) : id < nr := by
  obtain ⟨word, hword, -⟩ := (h.marked id).mpr hid
  have hlt := (List.getElem?_eq_some_iff.mp hword).1
  have hlength := h.length
  omega

/-- A request gets an identifier that nobody has, or it gets none because all are
allocated. -/
theorem threadIdAlloc (h : ThreadIdInv nr σ) (hpos : 0 < nr) :
    (∃ id t, id < nr ∧ id ∉ σ.allocated ∧ Sched.threadIdAlloc nr σ.object = .ok ((id : ℤ), t) ∧
      ThreadIdInv nr ⟨t, insert id σ.allocated⟩) ∨
    ((∀ id, id < nr → id ∈ σ.allocated) ∧
      Sched.threadIdAlloc nr σ.object = .ok (-1, σ.object)) := by
  have hlength := h.length
  have hstart : (σ.object.nextID + 0) % nr = σ.object.nextID := Nat.mod_eq_of_lt h.next
  have hspec := threadIdSearch_spec h.length h.next (Nat.add_zero nr) hpos
  rw [hstart] at hspec
  unfold Sched.threadIdAlloc
  rcases hspec with ⟨id, u, hid, hfree, hrun, hnext, hmaps, hset⟩ | ⟨hall, hrun⟩
  · have hne : id ≠ u.nextID := by
      rw [hnext]
      by_cases hlast : id + 1 = nr
      · rw [hlast, Nat.mod_self]
        omega
      · rw [Nat.mod_eq_of_lt (by omega)]
        omega
    refine .inl ⟨id, u, hid, fun hmem => hfree ((h.marked id).mpr hmem), ?_, ?_⟩
    · simp only [hrun, exec_ok_bind, exec_pure, if_pos hne]
    · constructor
      · rw [hmaps]
        exact hlength
      · rw [hnext]
        exact Nat.mod_lt _ hpos
      · intro i
        rw [hset, Set.mem_insert_iff, h.marked]
  · refine .inr ⟨fun id hid => ?_, ?_⟩
    · obtain ⟨j, hj, rfl⟩ := exists_add_mod h.next hid
      exact (h.marked _).mp (hall j (Nat.zero_le j) hj)
    · simp only [hrun, exec_ok_bind, exec_pure, ne_eq, not_true_eq_false, if_false]

theorem threadIdFree (h : ThreadIdInv nr σ) {id : ℕ} (hid : id ∈ σ.allocated) :
    ∃ t, Sched.threadIdFree nr σ.object id = .ok t ∧
      ThreadIdInv nr ⟨t, σ.allocated \ {id}⟩ := by
  have hlt := h.lt_of_mem hid
  obtain ⟨word, hget, hbit⟩ := (h.marked id).mpr hid
  have hodd : id % 32 < 32 := Nat.mod_lt _ (by decide)
  have hset : word &&& (1#32 <<< (id % 32)) ≠ 0 := by
    rw [ne_eq, and_shift_eq_zero_iff hodd, hbit]
    exact Bool.noConfusion
  have hrange : ¬((id : ℤ) < 0 ∨ (nr : ℤ) ≤ id) := by omega
  refine ⟨⟨σ.object.maps.set (id / 32) (word &&& ~~~(1#32 <<< (id % 32))),
    σ.object.nextID⟩, ?_, ?_⟩
  · simp only [Sched.threadIdFree, if_neg hrange, Int.toNat_natCast, ThreadID.word, hget,
      exec_ok_bind, nxAssert_pos hset, exec_pure]
  · constructor
    · dsimp only
      rw [List.length_set]
      exact h.length
    · exact h.next
    · intro i
      rw [ThreadID.marked_clear hget, h.marked]
      exact and_comm

theorem move (h : ThreadIdInv nr σ) (hpos : 0 < nr) {op : ThreadIdOp}
    (hmove : ThreadIdMove nr σ op τ) : ThreadIdInv nr τ := by
  obtain ⟨t, allocated⟩ := τ
  cases op with
  | alloc =>
      obtain ⟨r, hrun, hset⟩ := hmove
      dsimp only at hrun hset
      rcases h.threadIdAlloc hpos with ⟨id, u, -, -, hrun', hinv⟩ | ⟨-, hrun'⟩
      · rw [hrun'] at hrun
        cases hrun
        rw [if_pos (Int.natCast_nonneg id), Int.toNat_natCast] at hset
        rw [hset]
        exact hinv
      · rw [hrun'] at hrun
        cases hrun
        rw [if_neg (by decide)] at hset
        rw [hset]
        exact h
  | free id =>
      obtain ⟨hid, hrun, hset⟩ := hmove
      dsimp only at hrun hset
      obtain ⟨u, hrun', hinv⟩ := h.threadIdFree hid
      rw [hrun'] at hrun
      cases hrun
      rw [hset]
      exact hinv

end ThreadIdInv

/-- The object that `NX_ThreadsInitID` leaves has no identifier allocated. -/
theorem threadsInitID_inv (limit : ThreadLimit) {memory : Bool} {t : ThreadID}
    (h : threadsInitID limit.nr memory = .ok t) :
    ThreadIdInv limit.nr ⟨t, ∅⟩ := by
  obtain ⟨⟨⟩, -, hrest⟩ := exec_bind_eq_ok_iff.mp h
  cases hrest
  obtain ⟨k, hk⟩ := limit.dvd
  have hpos := limit.pos
  constructor
  · rw [List.length_replicate]
    omega
  · exact hpos
  · intro id
    constructor
    · rintro ⟨word, hword, hbit⟩
      have hzero := List.eq_of_mem_replicate (List.mem_of_getElem? hword)
      simp [hzero] at hbit
    · exact fun hid => absurd hid (Set.notMem_empty id)

/-- What a request answers, by the identifiers that are allocated. -/
structure AllocAnswers (nr : ℕ) (σ : ThreadIdSession) (answer : ℤ) (t : ThreadID) : Prop where
  fresh : answer ≠ -1 → 0 ≤ answer ∧ answer < nr ∧ answer.toNat ∉ σ.allocated
  none_iff : answer = -1 ↔ ∀ id, id < nr → id ∈ σ.allocated
  unchanged : answer = -1 → t = σ.object

/-- In every run of requests and of frees of allocated identifiers the bitmap is the
set of the allocated identifiers, which are below the limit; a request returns one of
the others, or `-1` exactly when there is none, and then changes nothing; a free of an
allocated identifier returns. -/
theorem threadIdReachable_exact (limit : ThreadLimit) {memory : Bool} {start : ThreadID}
    (hinit : threadsInitID limit.nr memory = .ok start)
    {σ : ThreadIdSession} (hreach : Reachable (ThreadIdMove limit.nr) ⟨start, ∅⟩ σ) :
    (∀ id, σ.object.marked id ↔ id ∈ σ.allocated) ∧
    (∀ id ∈ σ.allocated, id < limit.nr) ∧
    (∃ answer t, threadIdAlloc limit.nr σ.object = .ok (answer, t) ∧
      AllocAnswers limit.nr σ answer t) ∧
    ∀ id ∈ σ.allocated, ∃ t, threadIdFree limit.nr σ.object id = .ok t := by
  have h : ThreadIdInv limit.nr σ :=
    hreach.invariant (threadsInitID_inv limit hinit) fun h hmove => h.move limit.pos hmove
  refine ⟨h.marked, fun id => h.lt_of_mem, ?_, fun id hid => ?_⟩
  · rcases h.threadIdAlloc limit.pos with ⟨id, t, hid, hfresh, hrun, -⟩ | ⟨hall, hrun⟩
    · refine ⟨id, t, hrun, ?_, ?_, ?_⟩
      · intro
        exact ⟨Int.natCast_nonneg id, Int.ofNat_lt.mpr hid, hfresh⟩
      · constructor
        · intro hneg
          omega
        · exact fun hall => absurd (hall id hid) hfresh
      · intro hneg
        omega
    · refine ⟨-1, σ.object, hrun, ?_, ?_, ?_⟩
      · exact fun hne => absurd rfl hne
      · exact ⟨fun _ => hall, fun _ => rfl⟩
      · exact fun _ => rfl
  · obtain ⟨t, hrun, -⟩ := h.threadIdFree hid
    exact ⟨t, hrun⟩

/-- Two identifiers are allocated and the first is freed; the next request does not get
the second, which is still allocated. -/
theorem threadIdReachable_exact_freed :
    ∃ start σ, threadsInitID 32 true = .ok start ∧
      Reachable (ThreadIdMove 32) ⟨start, ∅⟩ σ ∧ 1 ∈ σ.allocated ∧
      ∃ answer t, threadIdAlloc 32 σ.object = .ok (answer, t) ∧ AllocAnswers 32 σ answer t := by
  let limit : ThreadLimit := ⟨32, by decide, by decide, by decide⟩
  have hreach : Reachable (ThreadIdMove 32) ⟨⟨[0#32], 0⟩, ∅⟩
      ⟨⟨[2#32], 2⟩, insert 1 (insert 0 ∅) \ {0}⟩ :=
    .tail (a := .free 0)
      (.tail (a := .alloc) (t := ⟨⟨[3#32], 2⟩, insert 1 (insert 0 ∅)⟩)
        (.tail (a := .alloc) (t := ⟨⟨[1#32], 1⟩, insert 0 ∅⟩) .refl
          ⟨0, by decide, rfl⟩)
        ⟨1, by decide, rfl⟩)
      ⟨Set.mem_insert_of_mem 1 (Set.mem_insert 0 ∅), by decide, rfl⟩
  have hinit : threadsInitID 32 true = .ok ⟨[0#32], 0⟩ := by decide
  exact ⟨_, _, hinit, hreach, ⟨Set.mem_insert 1 _, by decide⟩,
    (threadIdReachable_exact limit hinit hreach).2.2.1⟩

end Nxos.Sched
