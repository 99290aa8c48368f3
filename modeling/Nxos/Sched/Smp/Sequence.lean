import Nxos.Sched.Smp.Steps

/-!
# Calls as sequences of sections

When the other cores stand still, the sections of a core do together what the scheduler
functions do.  So each state that the calls lead to is one that the sections lead to.
-/

namespace Nxos.Sched

open Nxos.Transition

variable {cores c t : ℕ} {s s' : SmpState} {σ τ ρ : Scheduler} {prev : Option ℕ}

/-! ## The sections of one core -/

theorem goto_goto (s : SmpState) (c : ℕ) (point point' : CorePoint) (σ τ : Scheduler) :
    (s.goto c point σ).goto c point' τ = s.goto c point' τ := by
  unfold SmpState.goto
  rw [Function.update_idem]

theorem reachable_advance (hc : c < cores) (hstep : s.advance cores c = .ok s') :
    Reachable (SmpMove cores) s s' :=
  .tail (a := .advance c) .refl ⟨hc, hstep⟩

theorem reachable_pullThread (s : SmpState) (prev : Option ℕ) (hc : c < cores)
    (hrun : pullThread cores σ c = .ok ρ) :
    Reachable (SmpMove cores) (s.goto c (.pull prev) σ) (s.goto c (.pick prev) ρ) := by
  have htake : (s.goto c (.pull prev) σ).advance cores c =
      (s.goto c (.pull prev) σ).pullThread cores c prev := by
    unfold SmpState.advance
    rw [goto_point_self]
  obtain ⟨⟨pulled, υ⟩, hpick, hrest⟩ := exec_bind_eq_ok_iff.mp hrun
  unfold SmpState.pullThread at htake
  rw [show (s.goto c (.pull prev) σ).sched = σ from rfl, hpick, exec_ok_bind] at htake
  cases pulled with
  | none =>
      cases hrest
      simp only [goto_goto] at htake
      exact reachable_advance hc htake
  | some t =>
      simp only [goto_goto] at htake
      simp only at hrest
      set pulling := s.goto c (.pulled prev t) (υ.write t ((υ.thread t).setOnCore c))
      have hready : pulling.advance cores c = .ok (s.goto c (.pick prev) ρ) := by
        unfold SmpState.advance
        rw [goto_point_self]
        show (threadReadyRun cores (υ.write t ((υ.thread t).setOnCore c)) t .head >>= _) = _
        rw [hrest, exec_ok_bind, goto_goto]
        rfl
      exact (reachable_advance hc hready).trans (reachable_advance hc htake)

theorem reachable_pushThread (s : SmpState) (prev : Option ℕ) (hc : c < cores)
    (hrun : pushThread cores σ c = .ok ρ) :
    Reachable (SmpMove cores) (s.goto c (.push prev) σ) (s.goto c (.pick prev) ρ) := by
  have htake : (s.goto c (.push prev) σ).advance cores c =
      (s.goto c (.push prev) σ).pushThread cores c prev := by
    unfold SmpState.advance
    rw [goto_point_self]
  obtain ⟨⟨pushed, υ⟩, hdequque, hrest⟩ := exec_bind_eq_ok_iff.mp hrun
  unfold SmpState.pushThread at htake
  rw [show (s.goto c (.push prev) σ).sched = σ from rfl, hdequque, exec_ok_bind] at htake
  cases pushed with
  | none =>
      cases hrest
      simp only [goto_goto] at htake
      exact reachable_advance hc htake
  | some t =>
      cases hrest
      simp only [goto_goto] at htake
      have hpend : (s.goto c (.pushed prev t) υ).advance cores c =
          .ok (s.goto c (.pick prev) (threadAddToGlobalPendingList
            (υ.write t ((υ.thread t).setOnCore cores)) t .head)) := by
        unfold SmpState.advance
        rw [goto_point_self]
        simp only [goto_goto]
        rfl
      exact (reachable_advance hc hpend).trans (reachable_advance hc htake)

theorem reachable_pullOrPushThread (s : SmpState) (hc : c < cores)
    (hself : threadSelf cores σ c = .ok t) (hrun : pullOrPushThread cores σ c = .ok ρ) :
    ∃ prev, Reachable (SmpMove cores) (s.goto c .sched σ) (s.goto c (.pick prev) ρ) := by
  have hfirst : (s.goto c .sched σ).advance cores c =
      (s.goto c .sched σ).schedLockedIRQ cores c := by
    unfold SmpState.advance
    rw [goto_point_self]
  unfold pullOrPushThread at hrun
  obtain ⟨cpu, hcpu, hrun⟩ := exec_bind_eq_ok_iff.mp hrun
  unfold SmpState.schedLockedIRQ at hfirst
  rw [show (s.goto c .sched σ).sched = σ from rfl, hself, exec_ok_bind] at hfirst
  simp only [hcpu, exec_ok_bind, goto_goto] at hfirst
  refine ⟨if (σ.thread t).state = .exit then none else some t, ?_⟩
  generalize (if (σ.thread t).state = .exit then none else some t) = prev at hfirst ⊢
  split at hrun
  · cases hrun
  · next hactive =>
      rw [if_neg hactive] at hfirst
      simp only at hrun
      split at hrun
      · next hpull =>
          rw [if_pos hpull] at hfirst
          exact (reachable_pullThread s prev hc hrun).trans (reachable_advance hc hfirst)
      · next hpull =>
          rw [if_neg hpull] at hfirst
          split at hrun
          · next hpush =>
              rw [if_pos hpush] at hfirst
              exact (reachable_pushThread s prev hc hrun).trans (reachable_advance hc hfirst)
          · next hpush =>
              rw [if_neg hpush] at hfirst
              cases hrun
              exact reachable_advance hc hfirst

/-! ## Calls -/

/-- The scheduler is in this state, and no core is in a section. -/
def SmpState.Settled (s : SmpState) (σ : Scheduler) : Prop :=
  s.sched = σ ∧ ∀ c, s.point c = .runs

theorem exists_settled_picked (hs : s.Settled σ) (hc : c < cores) (prev : Option ℕ) (next : ℕ)
    (υ : Scheduler) :
    ∃ s', Reachable (SmpMove cores) (s.goto c (.picked prev next) υ) s' ∧
      s'.Settled (smpSetRunning cores υ c next).2 := by
  set running := s.goto c (.switch prev next) (smpSetRunning cores υ c next).2 with hrunning
  have hset : (s.goto c (.picked prev next) υ).advance cores c = .ok running := by
    unfold SmpState.advance
    rw [goto_point_self]
    simp only [goto_goto]
    rfl
  have hswitch : running.advance cores c = .ok { running.goto c .runs running.sched with
      loaded := Function.update running.loaded c (some next) } := by
    unfold SmpState.advance
    rw [goto_point_self]
    rfl
  refine ⟨_, (reachable_advance hc hswitch).trans (reachable_advance hc hset), rfl, fun d => ?_⟩
  show (running.goto c .runs running.sched).point d = .runs
  by_cases hd : d = c
  · rw [hd, goto_point_self]
  · rw [goto_point_of_ne hd, hrunning, goto_point_of_ne hd]
    exact hs.2 d

/-- `NX_SchedLockedIRQ` by its sections. -/
theorem exists_settled_sched (hs : s.Settled σ) (hc : c < cores)
    (hrun : schedLockedIRQ cores ρ c = .ok τ) :
    ∃ s', Reachable (SmpMove cores) (s.goto c .sched ρ) s' ∧ s'.Settled τ := by
  obtain ⟨cur, hself, hrun⟩ := exec_bind_eq_ok_iff.mp hrun
  obtain ⟨υ, hbalance, hrun⟩ := exec_bind_eq_ok_iff.mp hrun
  obtain ⟨⟨next, φ⟩, hpick, hrest⟩ := exec_bind_eq_ok_iff.mp hrun
  cases hrest
  obtain ⟨prev, hfirst⟩ := reachable_pullOrPushThread s hc hself hbalance
  have hstep : (s.goto c (.pick prev) υ).advance cores c = .ok (s.goto c (.picked prev next) φ) := by
    unfold SmpState.advance
    rw [goto_point_self]
    show (smpPickThread cores υ c >>= _) = _
    rw [hpick, exec_ok_bind]
    simp only [goto_goto]
    rfl
  obtain ⟨s', hlast, hs'⟩ := exists_settled_picked hs hc prev next φ
  exact ⟨s', (hlast.trans (reachable_advance hc hstep)).trans hfirst, hs'⟩

theorem exists_settled_yield (hs : s.Settled σ) (hc : c < cores)
    (hrun : schedYield cores σ c = .ok τ) :
    ∃ s₁ s', s.schedYield cores c = .ok s₁ ∧ Reachable (SmpMove cores) s₁ s' ∧ s'.Settled τ := by
  obtain ⟨cur, hself, hrun⟩ := exec_bind_eq_ok_iff.mp hrun
  obtain ⟨ρ, hready, hsched⟩ := exec_bind_eq_ok_iff.mp hrun
  obtain ⟨s', hrest, hs'⟩ := exists_settled_sched hs hc hsched
  refine ⟨_, s', ?_, hrest, hs'⟩
  unfold SmpState.schedYield
  rw [hs.1, hself, exec_ok_bind, hready]
  rfl

theorem exists_settled_exit (hs : s.Settled σ) (hc : c < cores)
    (hrun : threadExit cores σ c = .ok τ) :
    ∃ s₁ s', s.threadExit cores c = .ok s₁ ∧ Reachable (SmpMove cores) s₁ s' ∧ s'.Settled τ := by
  obtain ⟨cur, hself, hrun⟩ := exec_bind_eq_ok_iff.mp hrun
  obtain ⟨ρ, hdequque, hrun⟩ := exec_bind_eq_ok_iff.mp hrun
  obtain ⟨cur', hself', hrun⟩ := exec_bind_eq_ok_iff.mp hrun
  obtain ⟨υ, hexit, hsched⟩ := exec_bind_eq_ok_iff.mp hrun
  obtain ⟨s', hrest, hs'⟩ := exists_settled_sched hs hc hsched
  set leaving := s.goto c (.leaving cur) ρ with hleaving
  have hstep : leaving.advance cores c = .ok (s.goto c .sched υ) := by
    unfold SmpState.advance
    rw [goto_point_self]
    simp only
    unfold SmpState.schedExit
    rw [show leaving.sched = ρ from rfl, hself', exec_ok_bind]
    simp only [hexit, exec_ok_bind]
    rw [hleaving, goto_goto]
    rfl
  refine ⟨leaving, s', ?_, hrest.trans (reachable_advance hc hstep), hs'⟩
  unfold SmpState.threadExit
  rw [hs.1, hself, exec_ok_bind, hdequque]
  rfl

theorem exists_settled_reSched (hs : s.Settled σ) (hc : c < cores)
    (hrun : reSchedCheck cores σ c = .ok τ) :
    ∃ s₁ s', s.reSchedCheck cores c = .ok s₁ ∧ Reachable (SmpMove cores) s₁ s' ∧
      s'.Settled τ := by
  obtain ⟨rfl, hpoints⟩ := hs
  have hwritten : ∀ ρ, ({ s with sched := ρ } : SmpState).Settled ρ := fun ρ => ⟨rfl, hpoints⟩
  obtain ⟨cur, hself, hrun⟩ := exec_bind_eq_ok_iff.mp hrun
  unfold SmpState.reSchedCheck
  rw [hself, exec_ok_bind]
  simp only at hrun ⊢
  split at hrun
  · next hterminated =>
      rw [if_pos hterminated]
      exact exists_settled_exit (hwritten _) hc hrun
  · next hterminated =>
      rw [if_neg hterminated]
      split at hrun
      · next hneed =>
          rw [if_pos hneed]
          refine exists_settled_yield (hwritten _) hc ?_
          unfold schedYield
          rw [show threadSelf cores (s.sched.write cur _) c = .ok cur from hself, exec_ok_bind]
          exact hrun
      · next hneed =>
          rw [if_neg hneed]
          cases hrun
          exact ⟨s, s, rfl, .refl, rfl, hpoints⟩

theorem exists_settled_irq (hs : s.Settled σ) (hc : c < cores)
    (hrun : schedIrqHandler cores σ c = .ok τ) :
    ∃ s₁ s', s.schedIrqHandler cores c = .ok s₁ ∧ Reachable (SmpMove cores) s₁ s' ∧
      s'.Settled τ := by
  obtain ⟨rfl, hpoints⟩ := hs
  obtain ⟨cur, hself, hrun⟩ := exec_bind_eq_ok_iff.mp hrun
  unfold SmpState.schedIrqHandler
  rw [hself, exec_ok_bind]
  simp only at hrun ⊢
  split at hrun
  · next hterminated =>
      rw [if_pos hterminated]
      exact exists_settled_exit ⟨rfl, hpoints⟩ hc hrun
  · next hterminated =>
      rw [if_neg hterminated]
      cases hrun
      exact ⟨_, _, rfl, .refl, rfl, hpoints⟩

theorem exists_settled_block {r : NxError × Scheduler} (hs : s.Settled σ) (hc : c < cores)
    (hrun : threadBlock cores σ c t = .ok r) :
    ∃ s₁ s', s.threadBlock cores c t = .ok s₁ ∧ Reachable (SmpMove cores) s₁ s' ∧
      s'.Settled r.2 := by
  obtain ⟨rfl, hpoints⟩ := hs
  have hs : s.Settled s.sched := ⟨rfl, hpoints⟩
  unfold SmpState.threadBlock
  unfold threadBlock at hrun
  split at hrun
  · next hnull =>
      rw [if_pos hnull]
      cases hrun
      exact ⟨s, s, rfl, .refl, hs⟩
  · next hnull =>
      rw [if_neg hnull]
      simp only at hrun ⊢
      cases hcase : (s.sched.thread t).state with
      | ready =>
          rw [hcase] at hrun
          obtain ⟨ρ, hunready, hrest⟩ := exec_bind_eq_ok_iff.mp hrun
          cases hrest
          refine ⟨{ s with sched := ρ }, _, ?_, .refl, rfl, hpoints⟩
          simp only [hunready]
          rfl
      | running =>
          rw [hcase] at hrun
          obtain ⟨ρ, hsched, hrest⟩ := exec_bind_eq_ok_iff.mp hrun
          cases hrest
          obtain ⟨s', hrest, hs'⟩ := exists_settled_sched hs hc hsched
          exact ⟨_, s', rfl, hrest, hs'⟩
      | init =>
          rw [hcase] at hrun
          cases hrun
          exact ⟨s, s, rfl, .refl, hs⟩
      | blocked =>
          rw [hcase] at hrun
          cases hrun
          exact ⟨s, s, rfl, .refl, hs⟩
      | exit =>
          rw [hcase] at hrun
          cases hrun
          exact ⟨s, s, rfl, .refl, hs⟩

theorem exists_settled_step (hs : s.Settled σ) {op : SchedOp} (hmove : SchedMove cores σ op τ) :
    ∃ s', Reachable (SmpMove cores) s s' ∧ s'.Settled τ := by
  obtain ⟨hallowed, hrun⟩ := hmove
  obtain ⟨rfl, hpoints⟩ := hs
  have hs : s.Settled s.sched := ⟨rfl, hpoints⟩
  have hone : ∀ (op : SmpOp) {s'}, op.Allowed cores s → smpStep cores s op = .ok s' →
      Reachable (SmpMove cores) s s' := fun op _ hallowed hstep => .tail .refl ⟨hallowed, hstep⟩
  have hruns : ∀ {c}, (∃ cur, s.sched.Runs cores c cur) → ∃ cur, s.RunsThread cores c cur :=
    fun ⟨cur, hcur⟩ => ⟨cur, hpoints _, hcur⟩
  cases op with
  | create t priority =>
      cases hrun
      exact ⟨_, hone (.create t priority) hallowed rfl, rfl, hpoints⟩
  | setAffinity t coreId =>
      cases hrun
      exact ⟨_, hone (.setAffinity t coreId) hallowed rfl, rfl, hpoints⟩
  | enterCore =>
      cases hrun
      exact ⟨_, hone .enterCore trivial rfl, rfl, hpoints⟩
  | start t =>
      obtain ⟨r, hstart, rfl⟩ := exec_map_eq_ok_iff.mp hrun
      refine ⟨{ s with sched := r.2 }, hone (.start t) hallowed ?_, rfl, hpoints⟩
      rw [smpStep, hstart]
      rfl
  | unblock t =>
      obtain ⟨r, hunblock, rfl⟩ := exec_map_eq_ok_iff.mp hrun
      refine ⟨{ s with sched := r.2 }, hone (.unblock t) trivial ?_, rfl, hpoints⟩
      rw [smpStep, hunblock]
      rfl
  | terminate t =>
      obtain ⟨r, hterminate, rfl⟩ := exec_map_eq_ok_iff.mp hrun
      refine ⟨{ s with sched := r.2 }, hone (.terminate t) trivial ?_, rfl, hpoints⟩
      rw [smpStep, hterminate]
      rfl
  | toFirst coreId =>
      obtain ⟨⟨next, υ⟩, hpick, hrest⟩ := exec_bind_eq_ok_iff.mp hrun
      obtain ⟨-, -, hτ⟩ := exec_bind_eq_ok_iff.mp hrest
      cases hτ
      obtain ⟨s', hlast, hs'⟩ := exists_settled_picked hs hallowed.1 none next υ
      refine ⟨s', hlast.trans (hone (.toFirst coreId) ⟨hpoints coreId, hallowed⟩ ?_), hs'⟩
      show s.schedToFirstThread cores coreId = _
      unfold SmpState.schedToFirstThread
      rw [hpick, exec_ok_bind]
      rfl
  | yield coreId =>
      obtain ⟨s₁, s', hyield, hrest, hs'⟩ := exists_settled_yield hs hallowed.choose_spec.1 hrun
      exact ⟨s', hrest.trans (hone (.yield coreId) (hruns hallowed) hyield), hs'⟩
  | exit coreId =>
      obtain ⟨cur, hcur, -⟩ := hallowed
      obtain ⟨s₁, s', hexit, hrest, hs'⟩ := exists_settled_exit hs hcur.1 hrun
      exact ⟨s', hrest.trans (hone (.exit coreId) (hruns ⟨cur, hcur⟩) hexit), hs'⟩
  | reSched coreId =>
      obtain ⟨s₁, s', hcheck, hrest, hs'⟩ := exists_settled_reSched hs hallowed.choose_spec.1 hrun
      exact ⟨s', hrest.trans (hone (.reSched coreId) (hruns hallowed) hcheck), hs'⟩
  | irq coreId =>
      obtain ⟨s₁, s', hirq, hrest, hs'⟩ := exists_settled_irq hs hallowed.choose_spec.1 hrun
      exact ⟨s', hrest.trans (hone (.irq coreId) (hruns hallowed) hirq), hs'⟩
  | block coreId t =>
      obtain ⟨-, cur, hcur, hstate⟩ := hallowed
      obtain ⟨r, hblock, rfl⟩ := exec_map_eq_ok_iff.mp hrun
      obtain ⟨s₁, s', hstep, hrest, hs'⟩ := exists_settled_block hs hcur.1 hblock
      exact ⟨s', hrest.trans (hone (.block coreId t)
        ⟨cur, ⟨hpoints coreId, hcur⟩, hstate⟩ hstep), hs'⟩

/-! ## Runs -/

end Nxos.Sched
