import Nxos.Sched.Lock.Model
import Nxos.Support.Transition

/-!
# Sections are atomic

At most one thread is between taking the lock and giving it back, and the value says whether
there is one.  What the threads do to the data in whatever order of their steps, they could
have done one section after the other: the machine whose steps are accesses simulates into
the machine whose steps are sections, which happen when the lock is given back.
-/

namespace Nxos.Lock

open Nxos.Transition

variable {D : Type} {s s' : State D} {c : Sections D} {t u : ℕ} {p : Point D} {call : Call D}
  {err : NxError}

/-! ## Places -/

/-- Where a thread is in the machine of the sections. -/
def Point.place : Point D → Place D
  | .outside last => .outside last
  | .mutexLock work | .yield work => .calling (.take .mutexLock work)
  | .mutexTry f work | .spinLock f work | .spinTry f work | .cas f work | .inside f work _
  | .mutexUnlock f work | .spinUnlock f work | .release f work => .calling (.take f work)
  | .spinInit call | .initValue call | .initMagic call | .mutexMagic call | .spinState call
  | .stateValue call => .calling call
  | .mutexState => .calling .mutexState

/-- The accesses that a thread made since it took the lock. -/
def Point.made : Point D → Option (Work D)
  | .inside _ work k => some (work.take k)
  | .mutexUnlock _ work | .spinUnlock _ work | .release _ work => some work
  | _ => none

def Point.Holds (p : Point D) : Prop := p.made ≠ none

/-- The places that a thread comes to while the magics are written already. -/
def Point.Fits : Point D → Prop
  | .mutexTry f _ => f = .mutexTryLock ∨ f = .mutexLock
  | .spinLock f _ => f = .spinLock
  | .spinTry f _ | .cas f _ | .inside f _ _ => f ≠ .mutexInitLocked
  | .spinInit call => call.initFailed = .done .efault ∧ call.Answers .efault ∨
      call.initFailed = .done .eperm ∧ call.Answers .eperm
  | .initValue _ | .initMagic _ | .mutexMagic _ => False
  | .spinState call | .stateValue call => call.Answers .ebusy ∧ call.Answers .eok
  | _ => True

theorem Call.entry_place (call : Call D) : call.entry.place = .calling call := by
  cases call with
  | take f work => cases f <;> rfl
  | _ => rfl

theorem Call.entry_made (call : Call D) : call.entry.made = none := by
  cases call with
  | take f work => cases f <;> rfl
  | _ => rfl

theorem Call.entry_fits (call : Call D) : call.entry.Fits := by
  cases call with
  | take f work => cases f <;> simp [Call.entry, Point.Fits, Call.initFailed, Call.Answers]
  | _ => simp [Call.entry, Point.Fits, Call.initFailed, Call.Answers]

theorem next_inside_some {m : Mutex} {d : D} {f : Locker} {work : Work D} {k : ℕ} {access : D → D}
    (hk : work[k]? = some access) :
    next m d (.inside f work k) = (m, access d, .inside f work (k + 1)) := by
  simp only [next, hk]

theorem next_inside_none {m : Mutex} {d : D} {f : Locker} {work : Work D} {k : ℕ}
    (hk : work[k]? = none) : next m d (.inside f work k) =
      (m, d, if f.isMutex then .mutexUnlock f work else .spinUnlock f work) := by
  simp only [next, hk]

theorem runWork_concat (work : Work D) (access : D → D) (d : D) :
    runWork (work ++ [access]) d = access (runWork work d) := by
  rw [runWork, List.foldl_append]
  rfl

/-! ## The invariant and the simulation -/

/-- The magics are written, the threads are where they then come to, and the value is set
exactly while a thread holds the lock, which is the only one. -/
structure Inv (s : State D) : Prop where
  spinMagic : s.mutex.lock.magic = Lock.spinMagic
  mutexMagic : s.mutex.magic = Lock.mutexMagic
  fits : ∀ t, (s.point t).Fits
  unique : ∀ t u, (s.point t).Holds → (s.point u).Holds → t = u
  busy : s.mutex.lock.value ≠ 0 ↔ ∃ t, (s.point t).Holds

/-- The data of the sections, with the accesses of the thread that holds the lock. -/
structure Refines (s : State D) (c : Sections D) : Prop where
  inv : Inv s
  place : ∀ t, c.place t = (s.point t).place
  free : (∀ t, ¬(s.point t).Holds) → s.data = c.data
  held : ∀ t work, (s.point t).made = some work → s.data = runWork work c.data

theorem goTo_point_self {m : Mutex} {d : D} : (s.goTo t m d p).point t = p :=
  Function.update_self ..

theorem goTo_point_ne {m : Mutex} {d : D} (h : u ≠ t) : (s.goTo t m d p).point u = s.point u :=
  Function.update_of_ne h ..

theorem goTo_forall {m : Mutex} {d : D} {P : ℕ → Point D → Prop} (hself : P t p)
    (hother : ∀ u, u ≠ t → P u (s.point u)) (u : ℕ) : P u ((s.goTo t m d p).point u) := by
  by_cases hu : u = t
  · rw [hu, goTo_point_self]
    exact hself
  · rw [goTo_point_ne hu]
    exact hother u hu

theorem holds_of_made {work : Work D} (h : p.made = some work) : p.Holds := by
  rw [Point.Holds, h]
  exact Option.some_ne_none work

theorem not_holds_of_made (h : p.made = none) : ¬p.Holds := fun hno => hno h

theorem Inv.goTo {d : D} (h : Inv s) (hp : p.Holds ↔ (s.point t).Holds) (hfits : p.Fits) :
    Inv (s.goTo t s.mutex d p) := by
  have hholds : ∀ u, ((s.goTo t s.mutex d p).point u).Holds ↔ (s.point u).Holds :=
    goTo_forall (P := fun u q => q.Holds ↔ (s.point u).Holds) hp fun _ _ => Iff.rfl
  exact ⟨h.spinMagic, h.mutexMagic, goTo_forall (P := fun _ q => q.Fits) hfits fun u _ => h.fits u,
    fun u v hu hv => h.unique u v ((hholds u).mp hu) ((hholds v).mp hv),
    h.busy.trans (exists_congr fun u => (hholds u).symm)⟩

namespace Refines

/-- A thread goes to another place of both machines, without the lock. -/
theorem move {place : Place D} (h : Refines s c) (hp : ¬(s.point t).Holds) (hp' : ¬p.Holds)
    (hfits : p.Fits) (hplace : p.place = place) :
    Refines (s.goTo t s.mutex s.data p) ⟨c.data, Function.update c.place t place⟩ where
  inv := h.inv.goTo (iff_of_false hp' hp) hfits
  place := goTo_forall (P := fun u q => Function.update c.place t place u = q.place)
    (by rw [Function.update_self, hplace]) fun u hu => by rw [Function.update_of_ne hu, h.place u]
  free hfree := h.free fun u => by
    by_cases hu : u = t
    · rwa [hu]
    · have hno := hfree u
      rwa [goTo_point_ne hu] at hno
  held := goTo_forall (P := fun _ q => ∀ work, q.made = some work → s.data = runWork work c.data)
    (fun _ hwork => absurd (holds_of_made hwork) hp') fun u _ => h.held u

/-- A step within a call that neither takes the lock nor gives it back. -/
theorem stay (h : Refines s c) (hp : ¬(s.point t).Holds) (hp' : ¬p.Holds) (hfits : p.Fits)
    (hplace : p.place = (s.point t).place) : Refines (s.goTo t s.mutex s.data p) c := by
  have hmove := h.move hp hp' hfits hplace
  rwa [← h.place t, Function.update_eq_self] at hmove

theorem answer (h : Refines s c) (hp : ¬(s.point t).Holds)
    (hcalling : (s.point t).place = .calling call) (hanswers : call.Answers err) :
    ∃ c', Reachable SectionStep c c' ∧ Refines (s.goTo t s.mutex s.data (.done err)) c' :=
  ⟨_, .single (.answer ((h.place t).trans hcalling) hanswers),
    h.move hp (not_holds_of_made rfl) trivial rfl⟩

/-- `NX_SpinTryLock` failed. -/
theorem failed {f : Locker} {work : Work D} (h : Refines s c)
    (hp : s.point t = .cas f work) :
    ∃ c', Reachable SectionStep c c' ∧
      Refines (s.goTo t s.mutex s.data (f.failed work .error)) c' := by
  have hfits := h.inv.fits t
  have hno : ¬(s.point t).Holds := hp ▸ not_holds_of_made rfl
  have hplace : (s.point t).place = .calling (.take f work) := hp ▸ rfl
  rw [hp] at hfits
  cases f with
  | spinTryLock => exact h.answer hno hplace rfl
  | mutexTryLock => exact h.answer hno hplace rfl
  | spinLock =>
      exact ⟨c, .refl, h.stay hno (not_holds_of_made rfl) (by simp [Locker.failed, Point.Fits])
        hplace.symm⟩
  | mutexLock => exact ⟨c, .refl, h.stay hno (not_holds_of_made rfl) trivial hplace.symm⟩
  | mutexInitLocked => exact absurd rfl hfits

/-- `NX_SpinTryLock` took the lock. -/
theorem taken {f : Locker} {work : Work D} (h : Refines s c) (hp : s.point t = .cas f work)
    (hfree : s.mutex.lock.value = 0) :
    Refines (s.goTo t (atomicSet s.mutex spinLockValue) s.data (.inside f work 0)) c := by
  have hnone : ∀ u, ¬(s.point u).Holds := fun u hu => h.inv.busy.mpr ⟨u, hu⟩ hfree
  have hself : ((s.goTo t (atomicSet s.mutex spinLockValue) s.data
      (.inside f work 0)).point t).Holds := by
    rw [goTo_point_self]
    exact holds_of_made rfl
  have honly : ∀ u, ((s.goTo t (atomicSet s.mutex spinLockValue) s.data
      (.inside f work 0)).point u).Holds → u = t := by
    intro u hu
    by_contra hne
    rw [goTo_point_ne hne] at hu
    exact hnone u hu
  have hfits := h.inv.fits t
  have hplace := h.place t
  rw [hp] at hfits hplace
  refine ⟨⟨h.inv.spinMagic, h.inv.mutexMagic,
    goTo_forall (P := fun _ q => q.Fits) hfits fun u _ => h.inv.fits u,
    fun u v hu hv => (honly u hu).trans (honly v hv).symm,
    iff_of_true Int.one_ne_zero ⟨t, hself⟩⟩,
    goTo_forall (P := fun u q => c.place u = q.place) hplace fun u _ => h.place u,
    fun hno => absurd hself (hno t), fun u done hdone => ?_⟩
  · obtain rfl := honly u (holds_of_made hdone)
    rw [goTo_point_self] at hdone
    obtain rfl := Option.some.inj hdone
    exact h.free hnone

theorem keep {work : Work D} {d : D} (h : Refines s c) (hp : (s.point t).Holds)
    (hmade : p.made = some work) (hfits : p.Fits) (hplace : p.place = (s.point t).place)
    (hdata : d = runWork work c.data) : Refines (s.goTo t s.mutex d p) c := by
  have hself : ((s.goTo t s.mutex d p).point t).Holds := by
    rw [goTo_point_self]
    exact holds_of_made hmade
  have hinv := h.inv.goTo (d := d) (iff_of_true (holds_of_made hmade) hp) hfits
  refine ⟨hinv, goTo_forall (P := fun u q => c.place u = q.place) ((h.place t).trans hplace.symm)
    fun u _ => h.place u, fun hno => absurd hself (hno t), fun u done hdone => ?_⟩
  obtain rfl := hinv.unique u t (holds_of_made hdone) hself
  rw [goTo_point_self, hmade] at hdone
  obtain rfl := Option.some.inj hdone
  exact hdata

theorem released {f : Locker} {work : Work D} (h : Refines s c)
    (hp : s.point t = .release f work) :
    ∃ c', Reachable SectionStep c c' ∧
      Refines (s.goTo t (atomicSet s.mutex 0) s.data (.done .eok)) c' := by
  have hmade : (s.point t).made = some work := hp ▸ rfl
  have hplace : c.place t = .calling (.take f work) := by
    rw [h.place t, hp]
    rfl
  refine ⟨_, .single (.section hplace), ?_⟩
  have hnone : ∀ u, ¬((s.goTo t (atomicSet s.mutex 0) s.data (.done .eok)).point u).Holds := by
    intro u hu
    by_cases hut : u = t
    · rw [hut, goTo_point_self] at hu
      exact not_holds_of_made rfl hu
    · rw [goTo_point_ne hut] at hu
      exact hut (h.inv.unique u t hu (holds_of_made hmade))
  exact ⟨⟨h.inv.spinMagic, h.inv.mutexMagic,
    goTo_forall (P := fun _ q => q.Fits) trivial fun u _ => h.inv.fits u,
    fun u v hu => absurd hu (hnone u),
    iff_of_false (fun hne => hne rfl) fun ⟨u, hu⟩ => hnone u hu⟩,
    goTo_forall (P := fun u q => Function.update c.place t (.outside (some .eok)) u = q.place)
      (Function.update_self ..) fun u hu => (Function.update_of_ne hu ..).trans (h.place u),
    fun _ => h.held t work hmade, fun u done hdone => absurd (holds_of_made hdone) (hnone u)⟩

theorem access (h : Refines s c) (hcall : ∀ last, s.point t ≠ .outside last) :
    ∃ c', Reachable SectionStep c c' ∧ Refines (s.goTo t (next s.mutex s.data (s.point t)).1
      (next s.mutex s.data (s.point t)).2.1 (next s.mutex s.data (s.point t)).2.2) c' := by
  have hspin := h.inv.spinMagic
  have hmutex := h.inv.mutexMagic
  have hfits := h.inv.fits t
  cases hp : s.point t with
  | outside last => exact absurd hp (hcall last)
  | mutexLock work =>
      rw [next, if_neg (not_not.mpr hmutex)]
      exact ⟨c, .refl, h.stay (hp ▸ not_holds_of_made rfl) (not_holds_of_made rfl) (.inr rfl)
        (hp ▸ rfl)⟩
  | mutexTry f work =>
      rw [hp] at hfits
      rw [next, if_neg (not_not.mpr hmutex)]
      refine ⟨c, .refl, h.stay (hp ▸ not_holds_of_made rfl) (not_holds_of_made rfl) ?_ (hp ▸ rfl)⟩
      rintro rfl
      rcases hfits with hfits | hfits <;> cases hfits
  | yield work =>
      rw [next]
      exact ⟨c, .refl, h.stay (hp ▸ not_holds_of_made rfl) (not_holds_of_made rfl) (.inr rfl)
        (hp ▸ rfl)⟩
  | spinLock f work =>
      rw [hp] at hfits
      obtain rfl : f = .spinLock := hfits
      rw [next, if_neg (not_not.mpr hspin)]
      exact ⟨c, .refl, h.stay (hp ▸ not_holds_of_made rfl) (not_holds_of_made rfl)
        Locker.noConfusion (hp ▸ rfl)⟩
  | spinTry f work =>
      rw [hp] at hfits
      rw [next, if_neg (not_not.mpr hspin)]
      exact ⟨c, .refl, h.stay (hp ▸ not_holds_of_made rfl) (not_holds_of_made rfl) hfits
        (hp ▸ rfl)⟩
  | cas f work =>
      unfold next atomicCas
      by_cases hfree : s.mutex.lock.value = 0
      · simp only [hfree, if_true]
        exact ⟨c, .refl, h.taken hp hfree⟩
      · simp only [if_neg hfree]
        exact h.failed hp
  | inside f work k =>
      rw [hp] at hfits
      have hholds : (s.point t).Holds := hp ▸ holds_of_made rfl
      have hmade : (s.point t).made = some (work.take k) := hp ▸ rfl
      have hdata := h.held t _ hmade
      cases hk : work[k]? with
      | some access =>
          rw [next_inside_some hk]
          refine ⟨c, .refl, h.keep hholds rfl hfits (hp ▸ rfl) ?_⟩
          rw [List.take_add_one, hk, Option.toList_some, runWork_concat, ← hdata]
      | none =>
          rw [next_inside_none hk]
          have hall : work.take k = work := List.take_of_length_le (List.getElem?_eq_none_iff.mp hk)
          rw [hall] at hdata
          cases hkind : f.isMutex with
          | true => exact ⟨c, .refl, h.keep hholds rfl trivial (hp ▸ rfl) hdata⟩
          | false => exact ⟨c, .refl, h.keep hholds rfl trivial (hp ▸ rfl) hdata⟩
  | mutexUnlock f work =>
      have hmade : (s.point t).made = some work := hp ▸ rfl
      rw [next, if_neg (not_not.mpr hmutex)]
      exact ⟨c, .refl, h.keep (holds_of_made hmade) rfl trivial (hp ▸ rfl) (h.held t _ hmade)⟩
  | spinUnlock f work =>
      have hmade : (s.point t).made = some work := hp ▸ rfl
      rw [next, if_neg (not_not.mpr hspin)]
      exact ⟨c, .refl, h.keep (holds_of_made hmade) rfl trivial (hp ▸ rfl) (h.held t _ hmade)⟩
  | release f work => exact h.released hp
  | spinInit call =>
      rw [hp] at hfits
      rw [next, if_pos hspin]
      have hno : ¬(s.point t).Holds := hp ▸ not_holds_of_made rfl
      rcases hfits with ⟨heq, hanswers⟩ | ⟨heq, hanswers⟩
      · rw [heq]
        exact h.answer hno (hp ▸ rfl) hanswers
      · rw [heq]
        exact h.answer hno (hp ▸ rfl) hanswers
  | initValue call =>
      rw [hp] at hfits
      exact absurd hfits id
  | initMagic call =>
      rw [hp] at hfits
      exact absurd hfits id
  | mutexMagic call =>
      rw [hp] at hfits
      exact absurd hfits id
  | mutexState =>
      rw [next, if_neg (not_not.mpr hmutex)]
      exact ⟨c, .refl, h.stay (hp ▸ not_holds_of_made rfl) (not_holds_of_made rfl)
        ⟨.inl rfl, .inr rfl⟩ (hp ▸ rfl)⟩
  | spinState call =>
      rw [hp] at hfits
      rw [next, if_neg (not_not.mpr hspin)]
      exact ⟨c, .refl, h.stay (hp ▸ not_holds_of_made rfl) (not_holds_of_made rfl) hfits
        (hp ▸ rfl)⟩
  | stateValue call =>
      rw [hp] at hfits
      have hno : ¬(s.point t).Holds := hp ▸ not_holds_of_made rfl
      rw [next]
      split
      · exact h.answer hno (hp ▸ rfl) hfits.1
      · exact h.answer hno (hp ▸ rfl) hfits.2

theorem step {a : Action D} (h : Refines s c) (hstep : Step s a s') :
    ∃ c', Reachable SectionStep c c' ∧ Refines s' c' := by
  cases hstep with
  | access t hcall => exact h.access hcall
  | @begin t last call houtside =>
      have hplace : c.place t = .outside last := by
        rw [h.place t, houtside]
        rfl
      have hno : ¬(s.point t).Holds := houtside ▸ not_holds_of_made rfl
      exact ⟨_, .single (.begin call hplace), h.move hno (not_holds_of_made call.entry_made)
        call.entry_fits call.entry_place⟩

end Refines

theorem refines_unlocked (d : D) : Refines (unlocked d) ⟨d, fun _ => .outside none⟩ where
  inv := ⟨rfl, rfl, fun _ => trivial, fun _ _ hno => absurd rfl hno,
    iff_of_false (fun hno => hno rfl) fun ⟨_, hno⟩ => hno rfl⟩
  place _ := rfl
  free _ := rfl
  held _ _ hno := nomatch hno

end Nxos.Lock
