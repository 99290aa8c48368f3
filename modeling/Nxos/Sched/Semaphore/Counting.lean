import Mathlib.Data.Finset.Card
import Nxos.Sched.Semaphore.Runs

/-!
# Counting

The counter of a semaphore is its initial value and the signals less the completed waits,
in the arithmetic of its word.  Threads that were woken and did not take the lock again yet
make up for every unit that is free while others sleep.
-/

namespace Nxos.Sched

open Nxos.Transition

variable {ι : Type} [DecidableEq ι] {cores : ℕ} {k k' : Kernel ι} {s : ι} {t cur c : ℕ}
  {events : List (SemEvent ι)} {e : Option (SemEvent ι)}

/-! ## The counter -/

def signalsIn (events : List (SemEvent ι)) (s : ι) : ℕ := events.count (.signalled s)

def completedIn (events : List (SemEvent ι)) (s : ι) : ℕ := events.count (.completed s)

/-- What the counter would be without bounds. -/
def balance (events : List (SemEvent ι)) (s : ι) (initial : BitVec 64) : ℤ :=
  initial.toInt + signalsIn events s - completedIn events s

structure Tally (sem : Semaphore) (events : List (SemEvent ι)) (s : ι) : Prop where
  fresh : sem.magic ≠ semaphoreMagic → signalsIn events s = 0 ∧ completedIn events s = 0 ∧
    ∀ v, .initialised s v ∉ events
  value : ∀ v, .initialised s v ∈ events → sem.value = BitVec.ofInt 64 (balance events s v) ∧
    -2 ^ 63 ≤ balance events s v ∧ (0 < completedIn events s → 0 ≤ balance events s v)

def SemEvent.semaphore : SemEvent ι → ι
  | .initialised s _ => s
  | .signalled s => s
  | .completed s => s

theorem pos_of_ofInt_pos {n : ℤ} (hlow : -2 ^ 63 ≤ n) (hpos : 0 < (BitVec.ofInt 64 n).toInt) :
    0 < n := by
  rw [BitVec.toInt_ofInt, Int.bmod_def] at hpos
  omega

theorem toInt_add_one_le (v : BitVec 64) : (v + 1).toInt ≤ v.toInt + 1 := by
  have hlow := BitVec.le_toInt v
  have hhigh := BitVec.toInt_lt (x := v)
  rw [BitVec.toInt_add, Int.bmod_def]
  have hone : (1 : BitVec 64).toInt = 1 := by decide
  rw [hone]
  omega

theorem toInt_sub_one {v : BitVec 64} (hpos : 0 < v.toInt) : (v - 1).toInt = v.toInt - 1 := by
  have hhigh := BitVec.toInt_lt (x := v)
  have hone : (1 : BitVec 64).toInt = 1 := by decide
  rw [BitVec.toInt_sub, Int.bmod_def, hone]
  omega

theorem signalsIn_append (events : List (SemEvent ι)) (e : SemEvent ι) (s : ι) :
    signalsIn (events ++ [e]) s = signalsIn events s + if e = .signalled s then 1 else 0 := by
  unfold signalsIn
  rw [List.count_append, List.count_singleton]
  simp only [beq_iff_eq]

theorem completedIn_append (events : List (SemEvent ι)) (e : SemEvent ι) (s : ι) :
    completedIn (events ++ [e]) s =
      completedIn events s + if e = .completed s then 1 else 0 := by
  unfold completedIn
  rw [List.count_append, List.count_singleton]
  simp only [beq_iff_eq]

namespace Tally

variable {sem sem' : Semaphore}

theorem other (h : Tally sem events s) {x : SemEvent ι} (hx : x.semaphore ≠ s) :
    Tally sem (events ++ [x]) s := by
  have hsignal : x ≠ .signalled s := fun heq => hx (by rw [heq]; rfl)
  have hcomplete : x ≠ .completed s := fun heq => hx (by rw [heq]; rfl)
  have hinit : ∀ v, .initialised s v ∈ events ++ [x] ↔ .initialised s v ∈ events := by
    intro v
    rw [List.mem_append, List.mem_singleton]
    exact or_iff_left fun heq => hx (by rw [← heq]; rfl)
  have hsignals : signalsIn (events ++ [x]) s = signalsIn events s := by
    rw [signalsIn_append, if_neg hsignal, Nat.add_zero]
  have hcompleted : completedIn (events ++ [x]) s = completedIn events s := by
    rw [completedIn_append, if_neg hcomplete, Nat.add_zero]
  refine ⟨fun hmagic => ?_, fun v hv => ?_⟩
  · simp only [hsignals, hcompleted, hinit]
    exact h.fresh hmagic
  · unfold balance
    rw [hsignals, hcompleted]
    exact h.value v ((hinit v).mp hv)

theorem initialise (h : Tally sem events s) (hnew : sem.magic ≠ semaphoreMagic)
    (value : BitVec 64) :
    Tally ⟨value, [], semaphoreMagic⟩ (events ++ [.initialised s value]) s := by
  obtain ⟨hsignals, hcompleted, hinit⟩ := h.fresh hnew
  have hsignals' : signalsIn (events ++ [.initialised s value]) s = 0 := by
    rw [signalsIn_append, hsignals]
    rfl
  have hcompleted' : completedIn (events ++ [.initialised s value]) s = 0 := by
    rw [completedIn_append, hcompleted]
    rfl
  refine ⟨fun hno => absurd rfl hno, fun v hv => ?_⟩
  rcases List.mem_append.mp hv with hold | hnow
  · exact absurd hold (hinit v)
  · cases List.mem_singleton.mp hnow
    have hbalance : balance (events ++ [.initialised s value]) s value = value.toInt := by
      unfold balance
      rw [hsignals', hcompleted']
      omega
    rw [hbalance, hcompleted']
    exact ⟨BitVec.ofInt_toInt.symm, BitVec.le_toInt value, fun hno => absurd hno (Nat.lt_irrefl 0)⟩

omit [DecidableEq ι] in
theorem mem_of_append {x : SemEvent ι} {v : BitVec 64}
    (hv : .initialised s v ∈ events ++ [x]) (hx : x ≠ .initialised s v) :
    .initialised s v ∈ events :=
  (List.mem_append.mp hv).resolve_right fun hnow => hx (List.mem_singleton.mp hnow).symm

theorem signal (h : Tally sem events s) (hmagic : sem.magic = semaphoreMagic) (wait : List ℕ) :
    Tally ⟨sem.value + 1, wait, sem.magic⟩ (events ++ [.signalled s]) s := by
  refine ⟨fun hno => absurd hmagic hno, fun v hv => ?_⟩
  obtain ⟨hvalue, hlow, hpositive⟩ := h.value v (mem_of_append hv fun hno => nomatch hno)
  have hother : SemEvent.signalled s ≠ .completed s := fun hno => nomatch hno
  have hcompleted : completedIn (events ++ [.signalled s]) s = completedIn events s := by
    rw [completedIn_append, if_neg hother, Nat.add_zero]
  have hbalance : balance (events ++ [.signalled s]) s v = balance events s v + 1 := by
    unfold balance
    rw [hcompleted, signalsIn_append, if_pos rfl]
    omega
  rw [hbalance, hcompleted]
  refine ⟨?_, Int.le_add_one hlow, fun hpos => Int.le_add_one (hpositive hpos)⟩
  rw [hvalue, BitVec.ofInt_add]
  rfl

theorem complete (h : Tally sem events s) (hmagic : sem.magic = semaphoreMagic)
    (hunit : 0 < sem.value.toInt) :
    Tally { sem with value := sem.value - 1 } (events ++ [.completed s]) s := by
  refine ⟨fun hno => absurd hmagic hno, fun v hv => ?_⟩
  obtain ⟨hvalue, hlow, -⟩ := h.value v (mem_of_append hv fun hno => nomatch hno)
  have hfree : 0 < balance events s v := pos_of_ofInt_pos hlow (hvalue ▸ hunit)
  have hother : SemEvent.completed s ≠ .signalled s := fun hno => nomatch hno
  have hbalance : balance (events ++ [.completed s]) s v = balance events s v + -1 := by
    unfold balance
    rw [completedIn_append, if_pos rfl, signalsIn_append, if_neg hother]
    omega
  rw [hbalance]
  refine ⟨?_, by omega, fun _ => by omega⟩
  rw [hvalue, BitVec.ofInt_add, BitVec.sub_eq_add_neg]
  rfl

end Tally

theorem Tally.congr {sem sem' : Semaphore} (h : Tally sem events s)
    (hvalue : sem'.value = sem.value) (hmagic : sem'.magic = sem.magic) :
    Tally sem' events s := by
  obtain ⟨hfresh, htally⟩ := h
  exact ⟨hmagic ▸ hfresh, hvalue ▸ htally⟩

theorem tally_update {x : SemEvent ι} {sem : Semaphore}
    (htally : ∀ s, Tally (k.semaphore s) events s)
    (hself : Tally sem (events ++ [x]) x.semaphore)
    (hsem : k'.semaphore = Function.update k.semaphore x.semaphore sem) (s : ι) :
    Tally (k'.semaphore s) (events ++ [x]) s := by
  rw [hsem]
  by_cases hs : s = x.semaphore
  · rw [hs, Function.update_self]
    exact hself
  · rw [Function.update_of_ne hs]
    exact (htally s).other (Ne.symm hs)

theorem tally_effect (h : WaitInv cores k)
    (htally : ∀ s, Tally (k.semaphore s) events s) (heffect : SemEffect cores k k' e) (s : ι) :
    Tally (k'.semaphore s) (events ++ e.toList) s := by
  cases heffect with
  | kept hsem hlist hpoint hsched =>
      rw [hsem, Option.toList_none, List.append_nil]
      exact htally s
  | initialised s' value hnew hsem hlist hpoint hsched =>
      exact tally_update htally ((htally s').initialise hnew value) hsem s
  | entered cur s' hmagic hcur hidle hfree hsem hlist hpoint hsched =>
      rw [hsem, Option.toList_none, List.append_nil]
      exact htally s
  | taken s' hmagic hvalue hsem hlist hpoint hsched =>
      exact tally_update htally ((htally s').complete hmagic hvalue) hsem s
  | returned cur s' hcur hfree hvalue hsem hlist hpoint hsched =>
      exact tally_update htally ((htally s').complete (h.magic cur s' hcur) hvalue) hsem s
  | slept cur s' hcur hfree hvalue hsem hlist hpoint hsched hstate =>
      rw [Option.toList_none, List.append_nil, hsem]
      by_cases hs : s = s'
      · rw [hs, Function.update_self]
        exact (htally s').congr rfl rfl
      · rw [Function.update_of_ne hs]
        exact htally s
  | raised s' woken rest hmagic hsplit hnone hsome hraised =>
      exact tally_update htally ((htally s').signal hmagic rest) hraised.semaphore s
  | ended cur hterminated hfree hsem hlist hpoint hsched =>
      rw [hsem, Option.toList_none, List.append_nil]
      exact htally s

/-! ## Woken threads -/

/-- The thread was woken, and has not taken the lock again. -/
def Kernel.Woken (k : Kernel ι) (s : ι) (t : ℕ) : Prop :=
  k.point t = .asleep s ∧ t ∉ (k.semaphore s).semWaitList

/-- While threads sleep, the woken ones make up for the free units. -/
def WokenCover (k : Kernel ι) (s : ι) : Prop :=
  ∃ woken : Finset ℕ, (∀ t, t ∈ woken ↔ k.Woken s t) ∧
    ((k.semaphore s).semWaitList ≠ [] → (k.semaphore s).value.toInt ≤ woken.card)

structure WokenInv (k : Kernel ι) : Prop where
  unterminated : ∀ t, (k.sched.thread t).isTerminated = false
  schedulable : ∀ s t, k.Woken s t → (k.sched.thread t).Schedulable
  cover : ∀ s, WokenCover k s

omit [DecidableEq ι] in
theorem WokenCover.congr (h : WokenCover k s)
    (hwoken : ∀ t, k'.Woken s t ↔ k.Woken s t)
    (hvalue : (k'.semaphore s).semWaitList ≠ [] →
      (k.semaphore s).semWaitList ≠ [] ∧
        (k'.semaphore s).value.toInt ≤ (k.semaphore s).value.toInt) :
    WokenCover k' s := by
  obtain ⟨woken, hmem, hcard⟩ := h
  refine ⟨woken, fun t => (hmem t).trans (hwoken t).symm, fun hlist => ?_⟩
  obtain ⟨hbefore, hle⟩ := hvalue hlist
  exact Int.le_trans hle (hcard hbefore)

omit [DecidableEq ι] in
theorem WokenCover.remove (h : WokenCover k s)
    (hwoken : ∀ t, k'.Woken s t ↔ k.Woken s t ∧ t ≠ cur)
    (hvalue : (k'.semaphore s).semWaitList ≠ [] → (k'.semaphore s).value.toInt ≤ 0 ∨
      (k.semaphore s).semWaitList ≠ [] ∧
        (k'.semaphore s).value.toInt ≤ (k.semaphore s).value.toInt - 1) :
    WokenCover k' s := by
  obtain ⟨woken, hmem, hcard⟩ := h
  refine ⟨woken.erase cur, fun t => ?_, fun hlist => ?_⟩
  · rw [Finset.mem_erase, hmem, hwoken]
    exact and_comm
  · have hle := Finset.pred_card_le_card_erase (s := woken) (a := cur)
    rcases hvalue hlist with hnone | ⟨hbefore, hless⟩
    · exact Int.le_trans hnone (Int.natCast_nonneg _)
    · have hcover := hcard hbefore
      omega

theorem WokenCover.add (h : WaitInv cores k) (hcover : WokenCover k s) {woken rest : List ℕ}
    (hsplit : (k.semaphore s).semWaitList = woken ++ rest)
    (hsome : 0 < ((k.semaphore s).value + 1).toInt → woken = [] → rest = [])
    (hraised : Raised k k' s ((k.semaphore s).value + 1) woken rest) : WokenCover k' s := by
  have hself : k'.semaphore s =
      { k.semaphore s with value := (k.semaphore s).value + 1, semWaitList := rest } := by
    rw [hraised.semaphore, Function.update_self]
  have hnodup := h.nodup s
  rw [hsplit] at hnodup
  have hpoint : ∀ t ∈ woken, k.point t = .asleep s := by
    intro t ht
    refine (h.asleep t s ((h.linked t s).mp ?_)).1
    rw [hsplit]
    exact List.mem_append_left rest ht
  obtain ⟨before, hmem, hcard⟩ := hcover
  have hdisjoint : Disjoint before woken.toFinset := by
    rw [Finset.disjoint_left]
    intro t ht hwoken
    refine ((hmem t).mp ht).2 ?_
    rw [hsplit]
    exact List.mem_append_left rest (List.mem_toFinset.mp hwoken)
  refine ⟨before ∪ woken.toFinset, fun t => ?_, fun hlist => ?_⟩
  · rw [Finset.mem_union, hmem, List.mem_toFinset]
    unfold Kernel.Woken
    rw [hraised.point, hself, hsplit, List.mem_append, not_or]
    constructor
    · rintro (⟨hasleep, -, hrest⟩ | hwoken)
      · exact ⟨hasleep, hrest⟩
      · exact ⟨hpoint t hwoken, fun hrest => List.disjoint_of_nodup_append hnodup hwoken hrest⟩
    · rintro ⟨hasleep, hrest⟩
      by_cases hwoken : t ∈ woken
      · exact .inr hwoken
      · exact .inl ⟨hasleep, hwoken, hrest⟩
  · rw [hself] at hlist ⊢
    rw [Finset.card_union_of_disjoint hdisjoint,
      List.toFinset_card_of_nodup hnodup.of_append_left, Nat.cast_add]
    show ((k.semaphore s).value + 1).toInt ≤ _
    have hstep := toInt_add_one_le (k.semaphore s).value
    by_cases hpos : 0 < ((k.semaphore s).value + 1).toInt
    · have hwoken : woken ≠ [] := fun hnil => hlist (hsome hpos hnil)
      have hlength := List.length_pos_iff.mpr hwoken
      have hbefore := hcard (by
        rw [hsplit]
        exact List.append_ne_nil_of_left_ne_nil hwoken rest)
      omega
    · omega

omit [DecidableEq ι] in
theorem woken_iff_of_point {point : WaitPoint ι}
    (hpoint : k'.point = Function.update k.point cur point) (hnew : point ≠ .asleep s)
    (hwait : (k'.semaphore s).semWaitList = (k.semaphore s).semWaitList) (t : ℕ) :
    k'.Woken s t ↔ k.Woken s t ∧ t ≠ cur := by
  unfold Kernel.Woken
  rw [hpoint, hwait]
  by_cases ht : t = cur
  · subst ht
    rw [Function.update_self]
    exact iff_of_false (fun h => hnew h.1) fun h => h.2 rfl
  · rw [Function.update_of_ne ht]
    exact (and_iff_left ht).symm

omit [DecidableEq ι] in
theorem WokenCover.leave (h : WokenCover k s) {point : WaitPoint ι}
    (hpoint : k'.point = Function.update k.point cur point) (hnew : point ≠ .asleep s)
    (hcur : k.point cur ≠ .asleep s)
    (hwait : (k'.semaphore s).semWaitList = (k.semaphore s).semWaitList)
    (hvalue : (k'.semaphore s).value.toInt ≤ (k.semaphore s).value.toInt) :
    WokenCover k' s := by
  refine h.congr (fun t => ?_) fun hne => ⟨hwait ▸ hne, hvalue⟩
  rw [woken_iff_of_point hpoint hnew hwait]
  exact and_iff_left_of_imp fun hwoken heq => hcur (heq ▸ hwoken.1)

theorem sameList_of_update {sem : Semaphore} {s' : ι}
    (hsem : k'.semaphore = Function.update k.semaphore s' sem)
    (hwait : sem.semWaitList = (k.semaphore s').semWaitList) (s : ι) :
    (k'.semaphore s).semWaitList = (k.semaphore s).semWaitList := by
  rw [hsem]
  by_cases hs : s = s'
  · rw [hs, Function.update_self, hwait]
  · rw [Function.update_of_ne hs]

omit [DecidableEq ι] in
theorem woken_iff_of_sameList (hpoint : k'.point = k.point)
    (hwait : ∀ s, (k'.semaphore s).semWaitList = (k.semaphore s).semWaitList) (s : ι) (t : ℕ) :
    k'.Woken s t ↔ k.Woken s t := by
  unfold Kernel.Woken
  rw [hpoint, hwait]

theorem value_le_of_taken {s' : ι} (hvalue : 0 < (k.semaphore s').value.toInt)
    (hsem : k'.semaphore = Function.update k.semaphore s'
      { k.semaphore s' with value := (k.semaphore s').value - 1 }) (s : ι) :
    (k'.semaphore s).value.toInt ≤ (k.semaphore s).value.toInt := by
  rw [hsem]
  by_cases hs : s = s'
  · rw [hs, Function.update_self]
    show ((k.semaphore s').value - 1).toInt ≤ _
    rw [toInt_sub_one hvalue]
    omega
  · rw [Function.update_of_ne hs]

namespace WokenInv

omit [DecidableEq ι] in
theorem of_sameSched (h : WokenInv k) (hsched : k'.sched = k.sched)
    (hwoken : ∀ s t, k'.Woken s t → k.Woken s t) (hcover : ∀ s, WokenCover k' s) :
    WokenInv k' :=
  ⟨hsched ▸ h.unterminated, fun s t ht => hsched ▸ h.schedulable s t (hwoken s t ht), hcover⟩

/-- A thread that goes to sleep was not woken, and finds no unit. -/
theorem slept (h : WokenInv k) {cur : ℕ} {s' : ι} (hcur : (k.point cur).waitsFor = some s')
    (hvalue : (k.semaphore s').value.toInt ≤ 0)
    (hsem : k'.semaphore = Function.update k.semaphore s'
      { k.semaphore s' with semWaitList := (k.semaphore s').semWaitList ++ [cur] })
    (hpoint : k'.point = Function.update k.point cur (.asleep s'))
    (hsched : OtherKept k.sched k'.sched cur) : WokenInv k' := by
  have hwoken : ∀ s t, k'.Woken s t ↔ k.Woken s t ∧ t ≠ cur := by
    intro s t
    by_cases hs : s = s'
    · subst hs
      unfold Kernel.Woken
      rw [hpoint, hsem, Function.update_self]
      show _ ∧ t ∉ (k.semaphore s).semWaitList ++ [cur] ↔ _
      rw [List.mem_append, List.mem_singleton, not_or]
      by_cases ht : t = cur
      · exact iff_of_false (fun h => h.2.2 ht) fun h => h.2 ht
      · rw [Function.update_of_ne ht, and_assoc]
    · refine woken_iff_of_point hpoint (fun hno => hs ?_) ?_ t
      · cases hno
        rfl
      · rw [hsem, Function.update_of_ne hs]
  refine ⟨fun t => ?_, fun s t ht => ?_, fun s => ?_⟩
  · rw [hsched.isTerminated]
    exact h.unterminated t
  · obtain ⟨hbefore, hne⟩ := (hwoken s t).mp ht
    exact hsched.schedulable t hne (h.schedulable s t hbefore)
  · by_cases hs : s = s'
    · subst hs
      refine (h.cover s).remove (hwoken s) fun _ => .inl ?_
      rw [hsem, Function.update_self]
      exact hvalue
    · have hsame : k'.semaphore s = k.semaphore s := by
        rw [hsem, Function.update_of_ne hs]
      refine (h.cover s).leave hpoint (fun hno => ?_) (fun hno => ?_) (by rw [hsame])
        (by rw [hsame])
      · cases hno
        exact hs rfl
      · rw [hno] at hcur
        exact hs (Option.some.inj hcur)

/-- A unit wakes the threads at the front of the list, or nobody waits for it. -/
theorem raised (h : WokenInv k) (hw : WaitInv cores k) {s' : ι} {woken rest : List ℕ}
    (hsplit : (k.semaphore s').semWaitList = woken ++ rest)
    (hsome : 0 < ((k.semaphore s').value + 1).toInt → woken = [] → rest = [])
    (hraised : Raised k k' s' ((k.semaphore s').value + 1) woken rest) : WokenInv k' := by
  have hother : ∀ s, s ≠ s' → k'.semaphore s = k.semaphore s := by
    intro s hs
    rw [hraised.semaphore, Function.update_of_ne hs]
  have hbefore : ∀ s t, t ∉ woken → k'.Woken s t → k.Woken s t := by
    rintro s t hnot ⟨hasleep, hlist⟩
    rw [hraised.point] at hasleep
    refine ⟨hasleep, fun hmem => ?_⟩
    by_cases hs : s = s'
    · subst hs
      rw [hsplit] at hmem
      rw [hraised.semaphore, Function.update_self] at hlist
      exact hlist ((List.mem_append.mp hmem).resolve_left hnot)
    · rw [hother s hs] at hlist
      exact hlist hmem
  refine ⟨fun t => ?_, fun s t ht => ?_, fun s => ?_⟩
  · rw [hraised.thread]
    split
    · exact h.unterminated t
    · exact h.unterminated t
  · rw [hraised.thread]
    split
    · exact .inl rfl
    · next hnot => exact h.schedulable s t (hbefore s t hnot ht)
  · by_cases hs : s = s'
    · subst hs
      exact WokenCover.add hw (h.cover s) hsplit hsome hraised
    · refine (h.cover s).congr (fun t => ?_) fun hne => ?_
      · unfold Kernel.Woken
        rw [hraised.point, hother s hs]
      · rw [hother s hs] at hne ⊢
        exact ⟨hne, Int.le_refl _⟩

theorem effect (hw : WaitInv cores k) (h : WokenInv k) (heffect : SemEffect cores k k' e) :
    WokenInv k' := by
  cases heffect with
  | kept hsem hlist hpoint hsched =>
      have hwoken := woken_iff_of_sameList hpoint fun s => by rw [hsem]
      refine ⟨fun t => ?_, fun s t ht => ?_, fun s => (h.cover s).congr (hwoken s) fun hne => ?_⟩
      · refine Bool.eq_false_iff.mpr fun hno => ?_
        have hbefore := hsched.terminated t hno
        rw [h.unterminated] at hbefore
        cases hbefore
      · have hbefore := (hwoken s t).mp ht
        refine hsched.schedulable t (fun hend => ?_) (h.schedulable s t hbefore)
        rcases hend with hterminated | houtside
        · rw [h.unterminated] at hterminated
          cases hterminated
        · rw [hbefore.1] at houtside
          cases houtside
      · rw [hsem] at hne ⊢
        exact ⟨hne, Int.le_refl _⟩
  | initialised s' value hnew hsem hlist hpoint hsched =>
      have hwait := sameList_of_update hsem (hw.empty_of_new hnew).symm
      have hwoken := woken_iff_of_sameList hpoint hwait
      refine h.of_sameSched hsched (fun s t => (hwoken s t).mp) fun s =>
        (h.cover s).congr (hwoken s) fun hne => ?_
      rw [hwait] at hne
      have hs : s ≠ s' := by
        rintro rfl
        exact hne (hw.empty_of_new hnew)
      rw [hsem, Function.update_of_ne hs]
      exact ⟨hne, Int.le_refl _⟩
  | entered cur s' hmagic hcur hidle hfree hsem hlist hpoint hsched =>
      refine h.of_sameSched hsched (fun s t ht => ?_) fun s => ?_
      · exact ((woken_iff_of_point hpoint (fun hno => nomatch hno) (by rw [hsem]) t).mp ht).1
      · refine (h.cover s).leave hpoint (fun hno => nomatch hno) ?_ (by rw [hsem]) (by rw [hsem])
        rw [hcur]
        exact fun hno => nomatch hno
  | taken s' hmagic hvalue hsem hlist hpoint hsched =>
      have hwait := sameList_of_update hsem rfl
      have hwoken := woken_iff_of_sameList hpoint hwait
      exact h.of_sameSched hsched (fun s t => (hwoken s t).mp) fun s =>
        (h.cover s).congr (hwoken s) fun hne => ⟨hwait s ▸ hne, value_le_of_taken hvalue hsem s⟩
  | returned cur s' hcur hfree hvalue hsem hlist hpoint hsched =>
      have hwait := sameList_of_update hsem rfl
      have hnew : ∀ s : ι, WaitPoint.outside ≠ .asleep s := fun s hno => nomatch hno
      refine h.of_sameSched hsched (fun s t ht => ?_) fun s => ?_
      · exact ((woken_iff_of_point hpoint (hnew s) (hwait s) t).mp ht).1
      · by_cases hs : s = s'
        · subst hs
          refine (h.cover s).remove (woken_iff_of_point hpoint (hnew s) (hwait s)) fun hne =>
            .inr ⟨hwait s ▸ hne, ?_⟩
          rw [hsem, Function.update_self]
          exact Int.le_of_eq (toInt_sub_one hvalue)
        · refine (h.cover s).leave hpoint (hnew s) (fun hno => ?_) (hwait s)
            (value_le_of_taken hvalue hsem s)
          rw [hno] at hcur
          exact hs (Option.some.inj hcur)
  | slept cur s' hcur hfree hvalue hsem hlist hpoint hsched hstate =>
      exact h.slept hcur hvalue hsem hpoint hsched
  | raised s' woken rest hmagic hsplit hnone hsome hraised =>
      exact h.raised hw hsplit hsome hraised
  | ended cur hterminated hfree hsem hlist hpoint hsched =>
      rw [h.unterminated] at hterminated
      cases hterminated

end WokenInv

/-! ## Every run -/

def OnlySemaphores (_ : Kernel ι) (op : SemOp ι) : Prop := op.Quiet

instance (k : Kernel ι) (op : SemOp ι) : Decidable (OnlySemaphores k op) :=
  inferInstanceAs (Decidable op.Quiet)

structure CountInv (cores : ℕ) (r : SemRun ι) : Prop where
  waiters : WaitInv cores r.kernel
  woken : WokenInv r.kernel
  tally : ∀ s, Tally (r.kernel.semaphore s) r.events s

theorem CountInv.move {r r' : SemRun ι} {op : SemOp ι} (h : CountInv cores r)
    (hmove : SemMoveWhen cores OnlySemaphores r op r') : CountInv cores r' := by
  obtain ⟨hquiet, hallowed, e, hstep, hevents⟩ := hmove
  obtain ⟨e', k', hstep', hinv, heffect⟩ := h.waiters.step_effect hquiet hallowed
  obtain ⟨rfl, rfl⟩ := Prod.mk.inj (Except.ok.inj (hstep.symm.trans hstep'))
  refine ⟨h.waiters.effect hinv heffect, h.woken.effect h.waiters heffect, fun s => ?_⟩
  rw [hevents]
  exact tally_effect h.waiters h.tally heffect s

theorem countInv_semStart {σ : Scheduler} (h : SchedInv cores σ)
    (hterminated : ∀ t, (σ.thread t).isTerminated = false) :
    CountInv cores (semStart (ι := ι) σ) := by
  refine ⟨waitInv_semStart h, ⟨hterminated, fun s t ht => ?_, fun s => ⟨∅, fun t => ?_, ?_⟩⟩,
    fun s => ⟨fun _ => ⟨rfl, rfl, fun v => List.not_mem_nil⟩, fun v hv => ?_⟩⟩
  · cases ht.1
  · exact iff_of_false (Finset.notMem_empty t) fun ht => nomatch ht.1
  · exact fun hno => absurd rfl hno
  · cases hv

/-- In every run in which only the semaphores block and wake threads, the counter of a
semaphore is its initial value and the signals less the completed waits, no more waits
complete than there were units, a thread is on the wait list at most once and only while it
is blocked in the wait, and while the list is not empty there are at least as many woken
threads that did not take the lock again as free units.  No operation faults. -/
theorem semReachable_counts (cores : ℕ) (idle : ℕ → ℕ) (hnull : ∀ c < cores, idle c ≠ 0)
    (hdiffer : ∀ c < cores, ∀ d < cores, idle c = idle d → c = d) :
    ∃ start, threadInitIdle cores idle cores = .ok start ∧
      ∀ r : SemRun ι, Reachable (SemMoveWhen cores OnlySemaphores) (semStart start) r →
        (∀ s v, .initialised s v ∈ r.events →
          (r.kernel.semaphore s).value = v + BitVec.ofNat 64 (signalsIn r.events s) -
            BitVec.ofNat 64 (completedIn r.events s) ∧
          (balance r.events s v < 2 ^ 63 →
            (r.kernel.semaphore s).value.toInt = balance r.events s v) ∧
          (completedIn r.events s : ℤ) ≤ max 0 (v.toInt + signalsIn r.events s)) ∧
        (∀ s, (r.kernel.semaphore s).semWaitList.Nodup) ∧
        (∀ s, ∀ t ∈ (r.kernel.semaphore s).semWaitList,
          r.kernel.point t = .asleep s ∧ (r.kernel.sched.thread t).state = .blocked) ∧
        (∀ s, (r.kernel.semaphore s).semWaitList ≠ [] → ∃ woken : Finset ℕ,
          (∀ t, t ∈ woken ↔ r.kernel.Woken s t) ∧
          (∀ t ∈ woken, (r.kernel.sched.thread t).Schedulable) ∧
          (r.kernel.semaphore s).value.toInt ≤ woken.card) ∧
        ∀ op : SemOp ι, op.Quiet → op.Allowed cores r.kernel →
          ∃ e k', semStep cores r.kernel op = .ok (e, k') := by
  obtain ⟨start, hboot, hqueues, hidle, -, hterminated, -⟩ :=
    threadInitIdle_inv idle hnull hdiffer (Nat.le_refl cores)
  refine ⟨start, hboot, fun r hreach => ?_⟩
  have hinv := hreach.invariant (countInv_semStart ⟨hqueues, hidle⟩ hterminated)
    fun hinv hmove => hinv.move hmove
  refine ⟨fun s v hv => ?_, hinv.waiters.nodup, fun s t ht => ?_, fun s hne => ?_,
    fun op hquiet hallowed => ?_⟩
  · obtain ⟨hvalue, hlow, hpositive⟩ := (hinv.tally s).value v hv
    refine ⟨?_, fun hhigh => ?_, ?_⟩
    · rw [hvalue]
      unfold balance
      rw [sub_eq_add_neg, BitVec.ofInt_add, BitVec.ofInt_add, BitVec.ofInt_neg,
        BitVec.ofInt_toInt, BitVec.ofInt_natCast, BitVec.ofInt_natCast, BitVec.sub_eq_add_neg]
    · rw [hvalue, BitVec.toInt_ofInt, Int.bmod_def]
      omega
    · rcases Nat.eq_zero_or_pos (completedIn r.events s) with hzero | hpos
      · rw [hzero]
        exact le_max_left ..
      · have hbalance := hpositive hpos
        unfold balance at hbalance
        omega
  · exact hinv.waiters.asleep t s ((hinv.waiters.linked t s).mp ht)
  · obtain ⟨woken, hmem, hcard⟩ := hinv.woken.cover s
    exact ⟨woken, hmem, fun t ht => hinv.woken.schedulable s t ((hmem t).mp ht), hcard hne⟩
  · obtain ⟨e, k', hstep, -⟩ := hinv.waiters.step_effect hquiet hallowed
    exact ⟨e, k', hstep⟩

def oneWokenRun : List (SemOp ℕ) :=
  [.init (some 9) 0, .sched (.toFirst 0), .sched (.create 5 3), .sched (.start 5),
    .sched (.create 6 3), .sched (.start 6), .sched (.yield 0), .wait 0 (some 9), .goOn 0,
    .wait 0 (some 9), .goOn 0, .signal (some 9)]

theorem semReachable_counts_oneWoken :
    ∃ (start : Scheduler) (r : SemRun ℕ), threadInitIdle 1 (· + 1) 1 = .ok start ∧
      Reachable (SemMoveWhen 1 OnlySemaphores) (semStart start) r ∧
      (r.kernel.semaphore 9).semWaitList = [6] ∧ (r.kernel.semaphore 9).value = 1 ∧
      ∃ woken : Finset ℕ, (∀ t, t ∈ woken ↔ r.kernel.Woken 9 t) ∧ 1 ≤ woken.card := by
  obtain ⟨start, hboot, hruns⟩ := semReachable_counts (ι := ℕ) 1 (· + 1)
    (fun _ _ => Nat.succ_ne_zero _) fun _ _ _ _ => Nat.succ.inj
  have heval : (performSem OnlySemaphores 1 oneWokenRun).map (fun r =>
      decide ((r.kernel.semaphore 9).semWaitList = [6] ∧ (r.kernel.semaphore 9).value = 1)) =
      some true := by
    decide +kernel
  obtain ⟨r, hrun, hr⟩ := Option.map_eq_some_iff.mp heval
  obtain ⟨hlist, hvalue⟩ := of_decide_eq_true hr
  obtain ⟨start', hboot', hreach⟩ := reachable_of_performSem hrun
  obtain rfl := Except.ok.inj (hboot.symm.trans hboot')
  obtain ⟨-, -, -, hcover, -⟩ := hruns r hreach
  obtain ⟨woken, hmem, -, hcard⟩ := hcover 9 (by rw [hlist]; exact List.cons_ne_nil _ _)
  rw [hvalue] at hcard
  exact ⟨start, r, hboot, hreach, hlist, hvalue, woken, hmem, Int.ofNat_le.mp hcard⟩

/-- A semaphore with the largest initial value is signalled: the counter wraps. -/
theorem semaphoreSignal_wraps :
    ∃ (start : Scheduler) (r : SemRun ℕ), threadInitIdle 1 (· + 1) 1 = .ok start ∧
      Reachable (SemMoveWhen 1 OnlySemaphores) (semStart start) r ∧
      .initialised 9 (0x7fffffffffffffff : BitVec 64) ∈ r.events ∧
      (r.kernel.semaphore 9).value.toInt ≠ (0x7fffffffffffffff : BitVec 64).toInt +
        signalsIn r.events 9 - completedIn r.events 9 := by
  have heval : (performSem OnlySemaphores 1
      [.init (some 9) 0x7fffffffffffffff, .signal (some 9)]).map (fun r =>
      decide (.initialised 9 (0x7fffffffffffffff : BitVec 64) ∈ r.events ∧
        (r.kernel.semaphore 9).value.toInt ≠ (0x7fffffffffffffff : BitVec 64).toInt +
          signalsIn r.events 9 - completedIn r.events 9)) = some true := by
    decide +kernel
  obtain ⟨r, hrun, hr⟩ := Option.map_eq_some_iff.mp heval
  obtain ⟨hinit, hwrap⟩ := of_decide_eq_true hr
  obtain ⟨start, hboot, hreach⟩ := reachable_of_performSem hrun
  exact ⟨start, r, hboot, hreach, hinit, hwrap⟩

end Nxos.Sched
