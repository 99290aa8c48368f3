import Nxos.Sched.Exit.Runs

/-!
# What a step leaves

The parts of the invariant of the exits, and what keeps each of them: threads leave their
waits, the counter and the codes of a target stay, and a thread goes on in its life.
-/

namespace Nxos.Sched

open Nxos.Transition

variable {x x' : ExitState} {t p : ℕ} {w : Waited}

/-! ## What a step leaves -/

namespace ExitState

theorem not_engaged_of_free (h : x.Free t) (w : Waited) : ¬x.Engaged t w := by
  obtain ⟨hpoint, hreading, -⟩ := h
  rintro (hwaits | hreads)
  · rw [hpoint] at hwaits
    cases hwaits
  · rw [hreading] at hreads
    cases hreads

end ExitState

theorem Engagement.mono (h : Engagement x)
    (hsub : ∀ t w, x'.Engaged t w → x.Engaged t w)
    (hreads : ∀ t w, x'.reading t = some w → x'.kernel.point t = .outside)
    (halive : ∀ t w, x.Engaged t w → x'.exitPoint t = .alive)
    (hprocess : ∀ t p, x.Engaged t (.process p) →
      (x'.resource t).process = (x.resource t).process) : Engagement x' := by
  have hkept : ∀ t p, x'.Engaged t (.process p) →
      (x'.resource t).process = (x.resource t).process := fun t p ht => hprocess t p (hsub t _ ht)
  refine ⟨fun t w ht => halive t w (hsub t w ht), hreads,
    fun t u w ht hu => h.single t u w (hsub t w ht) (hsub u w hu), fun t p ht => ?_,
    fun t u p q ht hu heq => h.apart t u p q (hsub t _ ht) (hsub u _ hu) ?_⟩
  · rw [hkept t p ht]
    exact h.bound t p (hsub t _ ht)
  · rw [← hkept t p ht, ← hkept u q hu]
    exact heq

theorem TargetInv.congr {copied : Option (BitVec 32)} {raised : Bool}
    (h : TargetInv x w copied raised)
    (hvalue : (x'.kernel.semaphore w).value = (x.kernel.semaphore w).value)
    (hpoint : ∀ t, (x'.kernel.point t).waitsFor = some w →
      x'.kernel.point t = x.kernel.point t ∧ x'.kernel.blockList t = x.kernel.blockList t)
    (hreading : ∀ t, x'.reading t = some w → x.reading t = some w)
    (hwait : copied ≠ none → ∀ t, x.Engaged t w → x'.waitCode t w = x.waitCode t w)
    (hcode : copied ≠ none → x'.exitCode w = x.exitCode w) : TargetInv x' w copied raised := by
  have hbefore : ∀ t, (x'.kernel.point t).waitsFor = some w →
      (x.kernel.point t).waitsFor = some w := fun t ht => (hpoint t ht).1 ▸ ht
  refine ⟨hvalue ▸ h.nonneg, fun hraised => ?_, fun hcopied hraised t ht => ?_,
    fun hraised t ht => ?_, h.order, fun code hcopied t ht => ?_, fun code hcopied => ?_⟩
  · obtain ⟨hzero, hreads⟩ := h.closed hraised
    exact ⟨hvalue ▸ hzero, fun t ht => hreads t (hreading t ht)⟩
  · rw [(hpoint t ht).2]
    exact h.asleep hcopied hraised t (hbefore t ht)
  · rw [(hpoint t ht).1, (hpoint t ht).2, hvalue]
    exact h.awake hraised t (hbefore t ht)
  · have hengaged : x.Engaged t w := ht.imp (hbefore t) (hreading t)
    rw [hwait (by rw [hcopied]; exact Option.some_ne_none code) t hengaged]
    exact h.delivered code hcopied t hengaged
  · rw [hcode (by rw [hcopied]; exact Option.some_ne_none code)]
    exact h.code code hcopied

theorem Lifecycle.congr {copied : Waited → Option (BitVec 32)} (h : Lifecycle x copied)
    (hpoint : x'.exitPoint = x.exitPoint)
    (hprocess : ∀ t, (x'.resource t).process = (x.resource t).process)
    (hcount : ∀ p, (x'.process p).threadCount = (x.process p).threadCount) :
    Lifecycle x' copied := by
  have hmember : ∀ p t, x'.IsMember p t ↔ x.IsMember p t := by
    intro p t
    unfold ExitState.IsMember
    rw [hpoint, hprocess]
  have hover : ∀ p, x'.Over p ↔ x.Over p := by
    intro p
    unfold ExitState.Over
    simp only [hpoint, hprocess]
  refine ⟨fun p hp => ?_, fun p hp hx t => ?_, fun t p ht => ?_, fun t p ht => ?_, fun t ht => ?_,
    fun p hp => ?_, fun t w ht => ?_⟩
  · obtain ⟨members, hmem, hcard⟩ := h.members p hp
    exact ⟨members, fun t => (hmem t).trans (hmember p t).symm, (hcount p).trans hcard⟩
  · rw [hmember]
    exact h.ended p hp ((hover p).mp hx) t
  · rw [hpoint] at ht
    rw [hprocess]
    exact h.deleted t p ht
  · rw [hpoint] at ht
    rw [hprocess]
    exact h.last t p ht
  · rw [hpoint]
    exact h.copiedThread t ht
  · rw [hover]
    exact h.copiedProcess p hp
  · rw [hpoint] at ht
    exact h.copying t w ht

/-- A thread comes to a process or leaves it, which counts it. -/
structure MovedThread (x x' : ExitState) (p t q : ℕ) (count : ℤ) : Prop where
  kernel : x'.kernel = x.kernel
  reading : x'.reading = x.reading
  exitPoint : x'.exitPoint = x.exitPoint
  codes : ∀ u, (x'.resource u).exitCode = (x.resource u).exitCode ∧
    (x'.resource u).waitExitCode = (x.resource u).waitExitCode
  process : ∀ u, (x'.resource u).process = if u = t then q else (x.resource u).process
  processCodes : ∀ n, (x'.process n).exitCode = (x.process n).exitCode ∧
    (x'.process n).waitExitCode = (x.process n).waitExitCode
  threadCount : ∀ n, (x'.process n).threadCount =
    if n = p then (x.process p).threadCount + count else (x.process n).threadCount

theorem movedThread_of_writes (x : ExitState) (p t q : ℕ) (count : ℤ) :
    MovedThread x ((x.setProcess p
      { x.process p with threadCount := (x.process p).threadCount + count }).setResource t
        { x.resource t with process := q }) p t q count := by
  refine ⟨rfl, rfl, rfl, fun u => ?_, fun u => ?_, fun n => ?_, fun n => ?_⟩
  · by_cases hu : u = t
    · rw [hu]
      simp only [ExitState.setResource, Function.update_self, and_self]
    · simp only [ExitState.setResource, Function.update_of_ne hu, ExitState.setProcess, and_self]
  · simp only [ExitState.setResource, Function.update_apply, ExitState.setProcess]
    split <;> rfl
  · by_cases hn : n = p
    · rw [hn]
      simp only [ExitState.setResource, ExitState.setProcess, Function.update_self, and_self]
    · simp only [ExitState.setResource, ExitState.setProcess, Function.update_of_ne hn, and_self]
  · simp only [ExitState.setResource, ExitState.setProcess, Function.update_apply]
    split <;> rfl

namespace MovedThread

variable {q : ℕ} {count : ℤ}

theorem engagement (hmoved : MovedThread x x' p t q count) (h : Engagement x)
    (hfree : ∀ n, ¬x.Engaged t (.process n)) : Engagement x' := by
  have hengaged : ∀ u w, x'.Engaged u w ↔ x.Engaged u w := by
    intro u w
    unfold ExitState.Engaged
    rw [hmoved.kernel, hmoved.reading]
  have hprocess : ∀ u n, x.Engaged u (.process n) →
      (x'.resource u).process = (x.resource u).process := by
    intro u n hu
    rw [hmoved.process, if_neg]
    rintro rfl
    exact hfree n hu
  refine h.mono (fun u w => (hengaged u w).mp) ?_ ?_ ?_
  · rw [hmoved.kernel, hmoved.reading]
    exact h.reads
  · rw [hmoved.exitPoint]
    exact h.alive
  · exact hprocess

theorem target (hmoved : MovedThread x x' p t q count) {copied : Option (BitVec 32)}
    {raised : Bool} (h : TargetInv x w copied raised)
    (hfree : ∀ n, ¬x.Engaged t (.process n)) : TargetInv x' w copied raised := by
  refine h.congr (by rw [hmoved.kernel]) (fun u _ => by rw [hmoved.kernel]; exact ⟨rfl, rfl⟩)
    (fun u hu => hmoved.reading ▸ hu) (fun _ u hu => ?_) fun _ => ?_
  · cases w with
    | thread n => exact (hmoved.codes u).2
    | process n =>
        have hut : u ≠ t := by
          rintro rfl
          exact hfree n hu
        show (x'.process (x'.resource u).process).waitExitCode = _
        rw [hmoved.process, if_neg hut]
        exact (hmoved.processCodes _).2
  · cases w with
    | thread n => exact (hmoved.codes n).1
    | process n => exact (hmoved.processCodes n).1

end MovedThread

theorem copies_thread {point : ExitPoint} {u : ℕ} (h : point.copies t = some (.thread u)) :
    u = t := by
  cases point <;> cases h
  rfl

theorem copies_process {point : ExitPoint} {q : ℕ} (h : point.copies t = some (.process q)) :
    point = .last q := by
  cases point <;> cases h
  rfl

/-- What one thread does in its life: it comes to a process that is not over, leaves it, or
goes on in `NX_ThreadExit`. -/
structure LifeStep (x x' : ExitState) (t : ℕ) (copied copied' : Waited → Option (BitVec 32)) :
    Prop where
  others : ∀ u, u ≠ t → x'.exitPoint u = x.exitPoint u ∧
    (x'.resource u).process = (x.resource u).process
  came : ∀ q, q ≠ 0 → x'.IsMember q t → ¬x.IsMember q t →
    ¬x.Over q ∧ (x'.process q).threadCount = (x.process q).threadCount + 1
  left : ∀ q, q ≠ 0 → x.IsMember q t → ¬x'.IsMember q t →
    (x'.process q).threadCount = (x.process q).threadCount - 1
  same : ∀ q, q ≠ 0 → (x'.IsMember q t ↔ x.IsMember q t) →
    (x'.process q).threadCount = (x.process q).threadCount
  ended : ∀ q, q ≠ 0 → (x'.resource t).process = q → ¬(x'.exitPoint t).Stays →
    (x.resource t).process = q ∧ ¬(x.exitPoint t).Stays ∨ ∀ u, ¬x.IsMember q u
  stillOver : ∀ q, q ≠ 0 → (x.resource t).process = q → ¬(x.exitPoint t).Stays →
    (x'.resource t).process = q ∧ ¬(x'.exitPoint t).Stays
  deleted : ∀ q, x'.exitPoint t = .deleted q → q ≠ 0 ∧ (x'.resource t).process = 0
  last : ∀ q, x'.exitPoint t = .last q ∨ x'.exitPoint t = .lastCopied q →
    q ≠ 0 ∧ (x'.resource t).process = q
  keeps : ∀ w, copied w ≠ none → copied' w ≠ none
  adds : ∀ w, copied' w ≠ none → copied w ≠ none ∨ (x.exitPoint t).copies t = some w
  copiedThread : copied' (.thread t) ≠ none → x'.exitPoint t ≠ .alive ∧ x'.exitPoint t ≠ .begun
  copying : ∀ w, (x'.exitPoint t).raises t = some w → copied' w ≠ none

namespace LifeStep

variable {copied copied' : Waited → Option (BitVec 32)}

theorem isMember_iff (hs : LifeStep x x' t copied copied') {q u : ℕ} (hu : u ≠ t) :
    x'.IsMember q u ↔ x.IsMember q u := by
  obtain ⟨hpoint, hprocess⟩ := hs.others u hu
  unfold ExitState.IsMember
  rw [hpoint, hprocess]

theorem over_of_over (hs : LifeStep x x' t copied copied') {q : ℕ} (hq : q ≠ 0)
    (h : x.Over q) : x'.Over q := by
  obtain ⟨u, hprocess, hstays⟩ := h
  by_cases hu : u = t
  · subst hu
    exact ⟨u, hs.stillOver q hq hprocess hstays⟩
  · obtain ⟨hpoint, hsame⟩ := hs.others u hu
    exact ⟨u, hsame.trans hprocess, hpoint ▸ hstays⟩

theorem members (hs : LifeStep x x' t copied copied') {q : ℕ} (hq : q ≠ 0)
    (h : ∃ members : Finset ℕ, (∀ u, u ∈ members ↔ x.IsMember q u) ∧
      (x.process q).threadCount = members.card) :
    ∃ members : Finset ℕ, (∀ u, u ∈ members ↔ x'.IsMember q u) ∧
      (x'.process q).threadCount = members.card := by
  obtain ⟨members, hmem, hcard⟩ := h
  by_cases hbefore : x.IsMember q t <;> by_cases hafter : x'.IsMember q t
  · refine ⟨members, fun u => ?_, (hs.same q hq (iff_of_true hafter hbefore)).trans hcard⟩
    by_cases hu : u = t
    · subst hu
      exact iff_of_true ((hmem u).mpr hbefore) hafter
    · exact (hmem u).trans (hs.isMember_iff hu).symm
  · refine ⟨members.erase t, fun u => ?_, ?_⟩
    · rw [Finset.mem_erase]
      by_cases hu : u = t
      · subst hu
        exact iff_of_false (fun hno => hno.1 rfl) hafter
      · rw [hs.isMember_iff hu, hmem]
        exact and_iff_right hu
    · have hone := Finset.card_erase_add_one ((hmem t).mpr hbefore)
      rw [hs.left q hq hbefore hafter, hcard]
      omega
  · have hnot : t ∉ members := fun hno => hbefore ((hmem t).mp hno)
    refine ⟨insert t members, fun u => ?_, ?_⟩
    · rw [Finset.mem_insert]
      by_cases hu : u = t
      · subst hu
        exact iff_of_true (.inl rfl) hafter
      · rw [hs.isMember_iff hu, hmem]
        exact or_iff_right hu
    · rw [(hs.came q hq hafter hbefore).2, hcard, Finset.card_insert_of_notMem hnot]
      omega
  · refine ⟨members, fun u => ?_, (hs.same q hq (iff_of_false hafter hbefore)).trans hcard⟩
    by_cases hu : u = t
    · subst hu
      exact iff_of_false (fun hno => hbefore ((hmem u).mp hno)) hafter
    · exact (hmem u).trans (hs.isMember_iff hu).symm

theorem lifecycle (hs : LifeStep x x' t copied copied') (h : Lifecycle x copied) :
    Lifecycle x' copied' := by
  refine ⟨fun q hq => hs.members hq (h.members q hq), fun q hq hover u hu => ?_,
    fun u q hu => ?_, fun u q hu => ?_, fun u hu => ?_, fun q hq => ?_, fun u w hu => ?_⟩
  · have hcase : x.Over q ∨ u ≠ t ∧ ∀ v, ¬x.IsMember q v := by
      obtain ⟨v, hprocess, hstays⟩ := hover
      by_cases hv : v = t
      · subst hv
        rcases hs.ended q hq hprocess hstays with ⟨hbefore, hno⟩ | hnone
        · exact .inl ⟨v, hbefore, hno⟩
        · exact .inr ⟨fun heq => hstays (heq ▸ hu.2), hnone⟩
      · obtain ⟨hpoint, hsame⟩ := hs.others v hv
        exact .inl ⟨v, hsame ▸ hprocess, hpoint ▸ hstays⟩
    rcases hcase with hbefore | ⟨hne, hnone⟩
    · by_cases hut : u = t
      · subst hut
        by_cases hmember : x.IsMember q u
        · exact h.ended q hq hbefore u hmember
        · exact (hs.came q hq hu hmember).1 hbefore
      · exact h.ended q hq hbefore u ((hs.isMember_iff hut).mp hu)
    · exact hnone u ((hs.isMember_iff hne).mp hu)
  · by_cases hut : u = t
    · subst hut
      exact hs.deleted q hu
    · obtain ⟨hpoint, hsame⟩ := hs.others u hut
      rw [hsame]
      exact h.deleted u q (hpoint ▸ hu)
  · by_cases hut : u = t
    · subst hut
      exact hs.last q hu
    · obtain ⟨hpoint, hsame⟩ := hs.others u hut
      rw [hsame]
      exact h.last u q (hpoint ▸ hu)
  · by_cases hut : u = t
    · subst hut
      exact hs.copiedThread hu
    · rw [(hs.others u hut).1]
      exact h.copiedThread u ((hs.adds _ hu).resolve_right fun hno => hut (copies_thread hno))
  · rcases hs.adds _ hq with hbefore | hcopies
    · obtain ⟨hne, hover⟩ := h.copiedProcess q hbefore
      exact ⟨hne, hs.over_of_over hne hover⟩
    · have hpoint := copies_process hcopies
      obtain ⟨hne, hprocess⟩ := h.last t q (.inl hpoint)
      exact ⟨hne, hs.over_of_over hne ⟨t, hprocess, by rw [hpoint]; exact id⟩⟩
  · by_cases hut : u = t
    · subst hut
      exact hs.copying w hu
    · rw [(hs.others u hut).1] at hu
      exact hs.keeps w (h.copying u w hu)

/-- The thread goes on in `NX_ThreadExit` and stays in its process, or has none. -/
theorem of_point (point : ExitPoint)
    (hpoint : x'.exitPoint = Function.update x.exitPoint t point)
    (hprocess : ∀ u, (x'.resource u).process = (x.resource u).process)
    (hcount : ∀ q, (x'.process q).threadCount = (x.process q).threadCount)
    (hstays : (x.resource t).process = 0 ∨ (point.Stays ↔ (x.exitPoint t).Stays))
    (hdeleted : ∀ q, point ≠ .deleted q)
    (hlast : ∀ q, point = .last q ∨ point = .lastCopied q → q ≠ 0 ∧ (x.resource t).process = q)
    (hkeeps : ∀ w, copied w ≠ none → copied' w ≠ none)
    (hadds : ∀ w, copied' w ≠ none → copied w ≠ none ∨ (x.exitPoint t).copies t = some w)
    (hthread : copied' (.thread t) ≠ none → point ≠ .alive ∧ point ≠ .begun)
    (hcopying : ∀ w, point.raises t = some w → copied' w ≠ none) :
    LifeStep x x' t copied copied' := by
  have hself : x'.exitPoint t = point := by rw [hpoint, Function.update_self]
  have hmember : ∀ q, q ≠ 0 → (x'.IsMember q t ↔ x.IsMember q t) := by
    intro q hq
    unfold ExitState.IsMember
    rw [hself, hprocess]
    refine and_congr_right fun heq => ?_
    exact hstays.resolve_left fun hzero => hq (heq.symm.trans hzero)
  have hover : ∀ q, q ≠ 0 → (x.resource t).process = q →
      (point.Stays ↔ (x.exitPoint t).Stays) := by
    intro q hq heq
    exact hstays.resolve_left fun hzero => hq (heq.symm.trans hzero)
  refine ⟨fun u hu => ⟨by rw [hpoint, Function.update_of_ne hu], hprocess u⟩,
    fun q hq hafter hbefore => absurd ((hmember q hq).mp hafter) hbefore,
    fun q hq hbefore hafter => absurd ((hmember q hq).mpr hbefore) hafter,
    fun q _ _ => hcount q, fun q hq heq hno => ?_, fun q hq heq hno => ?_, fun q hq => ?_,
    fun q hq => ?_, hkeeps, hadds, fun hno => ?_, fun w hw => ?_⟩
  · rw [hprocess] at heq
    rw [hself, hover q hq heq] at hno
    exact .inl ⟨heq, hno⟩
  · rw [hprocess, hself, hover q hq heq]
    exact ⟨heq, hno⟩
  · rw [hself] at hq
    exact absurd hq (hdeleted q)
  · rw [hself] at hq
    rw [hprocess]
    exact hlast q hq
  · rw [hself]
    exact hthread hno
  · rw [hself] at hw
    exact hcopying w hw

theorem of_append (hmoved : MovedThread x x' p t p 1) (h : Lifecycle x copied) (hp : p ≠ 0)
    (hopen : ¬x.Over p) (hnone : (x.resource t).process = 0) (halive : x.exitPoint t = .alive) :
    LifeStep x x' t copied copied := by
  have hstays : (x.exitPoint t).Stays := by
    rw [halive]
    trivial
  have hself : (x'.resource t).process = p := by rw [hmoved.process, if_pos rfl]
  have hmember : ∀ q, x'.IsMember q t ↔ q = p := by
    intro q
    unfold ExitState.IsMember
    rw [hself, hmoved.exitPoint, and_iff_left hstays, eq_comm]
  have hbefore : ∀ q, q ≠ 0 → ¬x.IsMember q t :=
    fun q hq hno => hq (hno.1.symm.trans hnone)
  refine ⟨fun u hu => ⟨by rw [hmoved.exitPoint], by rw [hmoved.process, if_neg hu]⟩,
    fun q hq hafter _ => ?_, fun q hq hno => absurd hno (hbefore q hq), fun q hq hsame => ?_,
    fun q _ _ hno => ?_, fun q _ _ hno => absurd hstays hno, fun q hq => ?_, fun q hq => ?_,
    fun _ => id, fun _ => .inl, fun hno => absurd halive (h.copiedThread t hno).1, fun w hw => ?_⟩
  · obtain rfl := (hmember q).mp hafter
    exact ⟨hopen, by rw [hmoved.threadCount, if_pos rfl]⟩
  · rw [hmoved.threadCount, if_neg]
    rintro rfl
    exact hbefore q hq (hsame.mp ((hmember q).mpr rfl))
  · rw [hmoved.exitPoint] at hno
    exact absurd hstays hno
  · rw [hmoved.exitPoint, halive] at hq
    cases hq
  · rw [hmoved.exitPoint, halive] at hq
    rcases hq with hq | hq <;> cases hq
  · rw [hmoved.exitPoint, halive] at hw
    cases hw

end LifeStep

end Nxos.Sched
