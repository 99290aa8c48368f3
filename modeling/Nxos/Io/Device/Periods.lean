import Mathlib.Data.Fintype.Basic
import Mathlib.Logic.Function.Basic
import Nxos.Io.Device.Model
import Nxos.Support.Transition

/-!
# Opening and closing from several threads

`NX_DeviceOpen` and `NX_DeviceClose` of one device by any number of threads.  Changing the
counter, reading it again for the comparison, and calling the driver are steps of their own.  A
period begins when the counter goes from `0` to `1`, and ends when it goes back to `0`.

The driver is opened once for every period and closed once behind it while nobody else changes
a low counter between the change of a call and its call of the driver.
-/

namespace Nxos.Io

open Nxos.Transition

/-! ## Data -/

/-- Where a thread is in `NX_DeviceOpen` or `NX_DeviceClose`. -/
inductive DevicePoint where
  | outside
  /-- Behind the section that increments the counter. -/
  | openCompare
  /-- Before `ops->open`. -/
  | openCall
  /-- Behind the test for a positive counter. -/
  | closeDec
  /-- Before `NX_MutexLock`. -/
  | closeLock
  | closeCompare
  /-- Before `ops->close`. -/
  | closeCall
  /-- Before `NX_MutexUnlock`. -/
  | closeUnlock
  deriving DecidableEq

/-- The thread has incremented the counter, and `ops->open` may follow. -/
def DevicePoint.Opening (point : DevicePoint) : Prop :=
  point = .openCompare ∨ point = .openCall

/-- The thread has decremented the counter, and `ops->close` may follow. -/
def DevicePoint.Closing (point : DevicePoint) : Prop :=
  point = .closeLock ∨ point = .closeCompare ∨ point = .closeCall

instance (point : DevicePoint) : Decidable point.Opening := inferInstanceAs (Decidable (_ ∨ _))

instance (point : DevicePoint) : Decidable point.Closing := inferInstanceAs (Decidable (_ ∨ _))

/-- What happened since the counter went from `0` to `1`, until it does so again: the calls of
the driver, and the opens that returned before the driver was called. -/
structure Period where
  opens : ℕ
  closes : ℕ
  early : ℕ
  deriving DecidableEq

/-- A device with its mutex and the threads that use it.  The periods are recorded, the latest
first. -/
structure DeviceThreads (τ : Type) where
  device : Device
  lock : Option τ
  point : τ → DevicePoint
  periods : List Period

variable {τ : Type}

/-- A device that was never opened. -/
def DeviceThreads.new : DeviceThreads τ := ⟨deviceCreate, none, fun _ => .outside, []⟩

def DeviceThreads.note (s : DeviceThreads τ) (f : Period → Period) : DeviceThreads τ :=
  { s with periods := s.periods.modifyHead f }

/-! ## Steps -/

section Steps

variable [DecidableEq τ] (drv : Driver)

def DeviceThreads.goto (s : DeviceThreads τ) (t : τ) (point : DevicePoint) : DeviceThreads τ :=
  { s with point := Function.update s.point t point }

/-- The section of `NX_DeviceOpen` that increments the counter. -/
def DeviceThreads.increment (s : DeviceThreads τ) : DeviceThreads τ :=
  { s with
    device := ⟨s.device.reference + 1⟩
    periods := if s.device.reference = 0 then ⟨0, 0, 0⟩ :: s.periods else s.periods }

def DeviceThreads.openReturn (s : DeviceThreads τ) (t : τ) : DeviceThreads τ :=
  (s.note fun p => if p.opens = 0 then { p with early := p.early + 1 } else p).goto t .outside

/-- The thread performs the next step of its call.  The functions of the driver succeed. -/
def deviceGoOn (s : DeviceThreads τ) (t : τ) : Option (DeviceThreads τ) :=
  match s.point t with
  | .outside => none
  | .openCompare =>
      if drv.callsOpen s.device.reference then some (s.goto t .openCall)
      else some (s.openReturn t)
  | .openCall => some ((s.note fun p => { p with opens := p.opens + 1 }).openReturn t)
  | .closeDec =>
      some ({ s with device := ⟨s.device.reference - 1⟩ }.goto t .closeLock)
  | .closeLock =>
      if s.lock = none then some ({ s with lock := some t }.goto t .closeCompare) else none
  | .closeCompare =>
      if drv.callsClose s.device.reference then some (s.goto t .closeCall)
      else some (s.goto t .closeUnlock)
  | .closeCall => some ((s.note fun p => { p with closes := p.closes + 1 }).goto t .closeUnlock)
  | .closeUnlock => some ({ s with lock := none }.goto t .outside)

/-- A thread calls `NX_DeviceOpen` or `NX_DeviceClose`, up to its first change or test of the
counter, or goes on in one of them. -/
inductive DeviceOp (τ : Type) where
  | openDevice (t : τ)
  | closeDevice (t : τ)
  | goOn (t : τ)

/-- Perform a step.  A close of a device that is not open returns `NX_EPERM` at once. -/
def deviceStep (s : DeviceThreads τ) : DeviceOp τ → Option (DeviceThreads τ)
  | .openDevice t =>
      if s.point t = .outside then some (s.increment.goto t .openCompare) else none
  | .closeDevice t =>
      if s.point t = .outside then
        if s.device.reference.toInt ≤ 0 then some s else some (s.goto t .closeDec)
      else none
  | .goOn t => deviceGoOn drv s t

def DeviceMove (s : DeviceThreads τ) (op : DeviceOp τ) (s' : DeviceThreads τ) : Prop :=
  deviceStep drv s op = some s'

end Steps

/-! ## What is promised, and when it holds -/

/-- No thread is between its change of the counter and its call of the driver. -/
def Settled (point : τ → DevicePoint) : Prop :=
  ∀ t, ¬(point t).Opening ∧ ¬(point t).Closing

/-- The driver is opened once in every period, before an open returns, and closed once at its
end. -/
structure PeriodsServed (s : DeviceThreads τ) : Prop where
  past : ∀ p ∈ s.periods.tail, p = ⟨1, 1, 0⟩
  once : ∀ p ∈ s.periods.head?, p.opens ≤ 1 ∧ p.closes ≤ 1 ∧ p.early = 0
  positive : ∀ p ∈ s.periods.head?, 0 < s.device.reference.toInt → p.closes = 0
  ended : ∀ p ∈ s.periods.head?, s.device.reference.toInt ≤ 0 → p.opens = 1
  settled : Settled s.point → ∀ p ∈ s.periods.head?,
    p = if 0 < s.device.reference.toInt then ⟨1, 0, 0⟩ else ⟨1, 1, 0⟩

/-- The counter changes from or to `0` or `1` only while no other call is between its change and
its call of the driver; it is decremented only while it is positive, and does not overflow. -/
def ChangesAlone (s : DeviceThreads τ) : DeviceOp τ → Prop
  | .openDevice _ =>
      s.device.reference.toInt + 1 < 2 ^ 63 ∧ (s.device.reference.toInt ≤ 1 → Settled s.point)
  | .goOn t => s.point t = .closeDec →
      0 < s.device.reference.toInt ∧ (s.device.reference.toInt ≤ 2 → Settled s.point)
  | .closeDevice _ => True

instance [Fintype τ] (point : τ → DevicePoint) : Decidable (Settled point) :=
  inferInstanceAs (Decidable (∀ t, ¬(point t).Opening ∧ ¬(point t).Closing))

instance [Fintype τ] (s : DeviceThreads τ) (op : DeviceOp τ) : Decidable (ChangesAlone s op) :=
  match op with
  | .openDevice _ => inferInstanceAs (Decidable (_ ∧ (_ → _)))
  | .goOn _ => inferInstanceAs (Decidable (_ → _ ∧ (_ → _)))
  | .closeDevice _ => .isTrue trivial

def AloneMove [DecidableEq τ] (drv : Driver) (s : DeviceThreads τ) (op : DeviceOp τ)
    (s' : DeviceThreads τ) : Prop :=
  ChangesAlone s op ∧ DeviceMove drv s op s'

def aloneStep [Fintype τ] [DecidableEq τ] (drv : Driver) (s : DeviceThreads τ) (op : DeviceOp τ) :
    Option (DeviceThreads τ) :=
  if ChangesAlone s op then deviceStep drv s op else none

theorem aloneMove_of_aloneStep [Fintype τ] [DecidableEq τ] {drv : Driver} {s s' : DeviceThreads τ}
    {op : DeviceOp τ} (hstep : aloneStep drv s op = some s') : AloneMove drv s op s' :=
  Option.ite_none_right_eq_some.mp hstep

/-! ## The stages of a period -/

/-- Only the thread may be between its change of the counter and its call of the driver. -/
def OnlyWindow (point : τ → DevicePoint) (t : τ) : Prop :=
  ∀ u, u ≠ t → ¬(point u).Opening ∧ ¬(point u).Closing

def Served (periods : List Period) : Prop := ∀ p ∈ periods, p = ⟨1, 1, 0⟩

/-- How far the latest period is, for a value of the counter. -/
inductive PeriodStage (point : τ → DevicePoint) : ℤ → List Period → Prop where
  | new (hsettled : Settled point) : PeriodStage point 0 []
  /-- The thread that began the period will call `ops->open`. -/
  | opening {rest : List Period} (t : τ) (hrest : Served rest) (ht : (point t).Opening)
      (honly : OnlyWindow point t) : PeriodStage point 1 (⟨0, 0, 0⟩ :: rest)
  /-- The counter is `1`, and no thread will call the driver. -/
  | single {rest : List Period} (hrest : Served rest) (hopen : ∀ t, ¬(point t).Opening)
      (hclose : ∀ t, point t ≠ .closeCall) : PeriodStage point 1 (⟨1, 0, 0⟩ :: rest)
  | shared {count : ℤ} {rest : List Period} (hrest : Served rest) (hmany : 2 ≤ count)
      (hopen : ∀ t, point t ≠ .openCall) (hclose : ∀ t, point t ≠ .closeCall) :
      PeriodStage point count (⟨1, 0, 0⟩ :: rest)
  /-- The thread that ended the period will call `ops->close`. -/
  | closing {rest : List Period} (t : τ) (hrest : Served rest) (ht : (point t).Closing)
      (honly : OnlyWindow point t) : PeriodStage point 0 (⟨1, 0, 0⟩ :: rest)
  | ended {rest : List Period} (hrest : Served rest) (hsettled : Settled point) :
      PeriodStage point 0 (⟨1, 1, 0⟩ :: rest)

section Driver

variable {drv : Driver} {reference : BitVec 64}

/-- A driver that is opened once is called for the counter `1`. -/
theorem callsOpen_iff (hnew : drv.opensNewOne = false) (hopen : drv.hasOpen = true) :
    drv.callsOpen reference = true ↔ reference.toInt = 1 := by
  rw [Driver.callsOpen, hnew, hopen, Bool.true_and, Bool.false_or, beq_iff_eq]
  exact ⟨fun h => h ▸ rfl, fun h => BitVec.eq_of_toInt_eq h⟩

/-- A driver that is opened once is closed for the counter `0`. -/
theorem callsClose_iff (hnew : drv.opensNewOne = false) (hclose : drv.hasClose = true) :
    drv.callsClose reference = true ↔ reference.toInt = 0 := by
  rw [Driver.callsClose, hnew, hclose, Bool.true_and, Bool.false_or, beq_iff_eq]
  exact ⟨fun h => h ▸ rfl, fun h => BitVec.eq_of_toInt_eq h⟩

end Driver

section Points

variable [DecidableEq τ] {point : τ → DevicePoint} {t u : τ} {x : DevicePoint} {count : ℤ}
  {periods : List Period}

theorem OnlyWindow.update (honly : OnlyWindow point t) : OnlyWindow (Function.update point t x) t :=
  fun u hne => by
    rw [Function.update_of_ne hne]
    exact honly u hne

theorem OnlyWindow.settled (honly : OnlyWindow point t) (hx : ¬x.Opening ∧ ¬x.Closing) :
    Settled (Function.update point t x) := fun u => by
  rw [Function.update_apply]
  split
  · exact hx
  · next hne => exact honly u hne

omit [DecidableEq τ] in
theorem Settled.onlyWindow (hsettled : Settled point) (t : τ) : OnlyWindow point t :=
  fun u _ => hsettled u

theorem OnlyWindow.eq (honly : OnlyWindow point t) (hu : (point u).Opening ∨ (point u).Closing) :
    u = t := by
  by_contra hne
  exact hu.elim (honly u hne).1 (honly u hne).2

namespace PeriodStage

/-- A thread goes on that will not call the driver before and after. -/
theorem quiet (hstage : PeriodStage point count periods)
    (hfrom : ¬(point t).Opening ∧ ¬(point t).Closing) (hx : ¬x.Opening ∧ ¬x.Closing) :
    PeriodStage (Function.update point t x) count periods := by
  cases hstage with
  | new hsettled => exact .new ((hsettled.onlyWindow t).settled hx)
  | opening u hrest hu honly =>
      have hne : u ≠ t := fun heq => hfrom.1 (heq ▸ hu)
      refine .opening u hrest (by rwa [Function.update_of_ne hne]) ?_
      grind [OnlyWindow, Function.update_apply]
  | single hrest hopen hclose =>
      refine .single hrest ?_ ?_ <;> grind [DevicePoint.Closing, Function.update_apply]
  | shared hrest hmany hopen hclose =>
      refine .shared hrest hmany ?_ ?_ <;>
        grind [DevicePoint.Opening, DevicePoint.Closing, Function.update_apply]
  | closing u hrest hu honly =>
      have hne : u ≠ t := fun heq => hfrom.2 (heq ▸ hu)
      refine .closing u hrest (by rwa [Function.update_of_ne hne]) ?_
      grind [OnlyWindow, Function.update_apply]
  | ended hrest hsettled => exact .ended hrest ((hsettled.onlyWindow t).settled hx)

theorem increment (hstage : PeriodStage point count periods) (t : τ)
    (halone : count ≤ 1 → Settled point) :
    PeriodStage (Function.update point t .openCompare) (count + 1)
      (if count = 0 then ⟨0, 0, 0⟩ :: periods else periods) := by
  have hself : (Function.update point t .openCompare t).Opening := by
    rw [Function.update_self]
    exact .inl rfl
  cases hstage with
  | new hsettled =>
      exact .opening t (by simp [Served]) hself ((hsettled.onlyWindow t).update)
  | opening u hrest hu honly => exact absurd hu (halone le_rfl u).1
  | single hrest hopen hclose =>
      refine .shared hrest le_rfl ?_ ?_ <;>
        grind [DevicePoint.Opening, Function.update_apply]
  | shared hrest hmany hopen hclose =>
      rw [if_neg (by omega)]
      refine .shared hrest (by omega) ?_ ?_ <;> grind [Function.update_apply]
  | closing u hrest hu honly => exact absurd hu (halone (by decide) u).2
  | ended hrest hsettled =>
      refine .opening t (fun p hp => ?_) hself ((hsettled.onlyWindow t).update)
      rcases List.mem_cons.mp hp with rfl | hp
      · rfl
      · exact hrest p hp

theorem decrement (hstage : PeriodStage point count periods) (t : τ) (hpos : 0 < count)
    (halone : count ≤ 2 → Settled point) :
    PeriodStage (Function.update point t .closeLock) (count - 1) periods := by
  have hself : (Function.update point t .closeLock t).Closing := by
    rw [Function.update_self]
    exact .inl rfl
  cases hstage with
  | new hsettled => exact absurd hpos (by decide)
  | opening u hrest hu honly => exact absurd hu (halone (by decide) u).1
  | single hrest hopen hclose =>
      exact .closing t hrest hself (((halone (by decide)).onlyWindow t).update)
  | shared hrest hmany hopen hclose =>
      rcases hmany.lt_or_eq with hlt | rfl
      · refine .shared hrest (by omega) ?_ ?_ <;> grind [Function.update_apply]
      · have hsettled := halone le_rfl
        refine .single hrest ?_ ?_ <;>
          grind [Settled, DevicePoint.Opening, Function.update_apply]
  | closing u hrest hu honly => exact absurd hpos (by decide)
  | ended hrest hsettled => exact absurd hpos (by decide)

/-- An open that reads `1` has begun the period, and another one goes back without a call. -/
theorem openCompare (hstage : PeriodStage point count periods) (ht : point t = .openCompare) :
    (count = 1 → PeriodStage (Function.update point t .openCall) count periods) ∧
    (count ≠ 1 → PeriodStage (Function.update point t .outside) count periods ∧
      ∀ p ∈ periods.head?, p.opens ≠ 0) := by
  have hopening : (point t).Opening := ht ▸ .inl rfl
  cases hstage with
  | new hsettled => exact absurd hopening (hsettled t).1
  | opening u hrest hu honly =>
      obtain rfl := honly.eq (.inl hopening)
      refine ⟨fun _ => .opening t hrest ?_ honly.update, fun hne => absurd rfl hne⟩
      rw [Function.update_self]
      exact .inr rfl
  | single hrest hopen hclose => exact absurd hopening (hopen t)
  | shared hrest hmany hopen hclose =>
      refine ⟨fun hone => by omega, fun _ => ⟨.shared hrest hmany ?_ ?_, by simp⟩⟩ <;>
        grind [Function.update_apply]
  | closing u hrest hu honly =>
      obtain rfl := honly.eq (.inl hopening)
      rw [ht] at hu
      simp [DevicePoint.Closing] at hu
  | ended hrest hsettled => exact absurd hopening (hsettled t).1

theorem openCall (hstage : PeriodStage point count periods) (ht : point t = .openCall) :
    ∃ rest, periods = ⟨0, 0, 0⟩ :: rest ∧
      PeriodStage (Function.update point t .outside) count (⟨1, 0, 0⟩ :: rest) := by
  have hopening : (point t).Opening := ht ▸ .inr rfl
  cases hstage with
  | new hsettled => exact absurd hopening (hsettled t).1
  | opening u hrest hu honly =>
      obtain rfl := honly.eq (.inl hopening)
      refine ⟨_, rfl, .single hrest ?_ ?_⟩ <;>
        grind [OnlyWindow, DevicePoint.Opening, DevicePoint.Closing, Function.update_apply]
  | single hrest hopen hclose => exact absurd hopening (hopen t)
  | shared hrest hmany hopen hclose => exact absurd ht (hopen t)
  | closing u hrest hu honly =>
      obtain rfl := honly.eq (.inl hopening)
      rw [ht] at hu
      simp [DevicePoint.Closing] at hu
  | ended hrest hsettled => exact absurd hopening (hsettled t).1

theorem closeLock (hstage : PeriodStage point count periods) (ht : point t = .closeLock) :
    PeriodStage (Function.update point t .closeCompare) count periods := by
  have hclosing : (point t).Closing := ht ▸ .inl rfl
  cases hstage with
  | new hsettled => exact absurd hclosing (hsettled t).2
  | opening u hrest hu honly =>
      obtain rfl := honly.eq (.inr hclosing)
      rw [ht] at hu
      simp [DevicePoint.Opening] at hu
  | single hrest hopen hclose =>
      refine .single hrest ?_ ?_ <;> grind [DevicePoint.Opening, Function.update_apply]
  | shared hrest hmany hopen hclose =>
      refine .shared hrest hmany ?_ ?_ <;> grind [Function.update_apply]
  | closing u hrest hu honly =>
      obtain rfl := honly.eq (.inr hclosing)
      refine .closing t hrest ?_ honly.update
      rw [Function.update_self]
      exact .inr (.inl rfl)
  | ended hrest hsettled => exact absurd hclosing (hsettled t).2

/-- A close that reads `0` has ended the period. -/
theorem closeCompare (hstage : PeriodStage point count periods) (ht : point t = .closeCompare) :
    (count = 0 → PeriodStage (Function.update point t .closeCall) count periods) ∧
    (count ≠ 0 → PeriodStage (Function.update point t .closeUnlock) count periods) := by
  have hclosing : (point t).Closing := ht ▸ .inr (.inl rfl)
  cases hstage with
  | new hsettled => exact absurd hclosing (hsettled t).2
  | opening u hrest hu honly =>
      obtain rfl := honly.eq (.inr hclosing)
      rw [ht] at hu
      simp [DevicePoint.Opening] at hu
  | single hrest hopen hclose =>
      refine ⟨fun hzero => by omega, fun _ => .single hrest ?_ ?_⟩ <;>
        grind [DevicePoint.Opening, Function.update_apply]
  | shared hrest hmany hopen hclose =>
      refine ⟨fun hzero => by omega, fun _ => .shared hrest hmany ?_ ?_⟩ <;>
        grind [Function.update_apply]
  | closing u hrest hu honly =>
      obtain rfl := honly.eq (.inr hclosing)
      refine ⟨fun _ => .closing t hrest ?_ honly.update, fun hne => absurd rfl hne⟩
      rw [Function.update_self]
      exact .inr (.inr rfl)
  | ended hrest hsettled => exact absurd hclosing (hsettled t).2

theorem closeCall (hstage : PeriodStage point count periods) (ht : point t = .closeCall) :
    ∃ rest, periods = ⟨1, 0, 0⟩ :: rest ∧
      PeriodStage (Function.update point t .closeUnlock) count (⟨1, 1, 0⟩ :: rest) := by
  have hclosing : (point t).Closing := ht ▸ .inr (.inr rfl)
  cases hstage with
  | new hsettled => exact absurd hclosing (hsettled t).2
  | opening u hrest hu honly =>
      obtain rfl := honly.eq (.inr hclosing)
      rw [ht] at hu
      simp [DevicePoint.Opening] at hu
  | single hrest hopen hclose => exact absurd ht (hclose t)
  | shared hrest hmany hopen hclose => exact absurd ht (hclose t)
  | closing u hrest hu honly =>
      obtain rfl := honly.eq (.inr hclosing)
      exact ⟨_, rfl, .ended hrest (honly.settled (by
        simp [DevicePoint.Opening, DevicePoint.Closing]))⟩
  | ended hrest hsettled => exact absurd hclosing (hsettled t).2

end PeriodStage

end Points

/-! ## Runs -/

/-- The latest period of a device is at one of the stages. -/
def InStage (s : DeviceThreads τ) : Prop :=
  PeriodStage s.point s.device.reference.toInt s.periods

section Runs

variable [DecidableEq τ] {drv : Driver} {s s' : DeviceThreads τ} {t : τ} {op : DeviceOp τ}

theorem reference_eq_zero_iff {reference : BitVec 64} :
    reference = 0 ↔ reference.toInt = 0 :=
  ⟨fun h => h ▸ rfl, fun h => BitVec.eq_of_toInt_eq h⟩

theorem openReturn_periods (hopen : ∀ p ∈ s.periods.head?, p.opens ≠ 0) :
    (s.openReturn t).periods = s.periods := by
  change s.periods.modifyHead _ = s.periods
  cases hperiods : s.periods with
  | nil => rfl
  | cons p rest =>
      rw [hperiods] at hopen
      rw [List.modifyHead_cons, if_neg (hopen p rfl)]

theorem InStage.goOn (hstage : InStage s) (hnew : drv.opensNewOne = false)
    (hopen : drv.hasOpen = true) (hclose : drv.hasClose = true)
    (halone : ChangesAlone s (.goOn t)) (hstep : deviceGoOn drv s t = some s') : InStage s' := by
  rw [deviceGoOn] at hstep
  cases hpoint : s.point t with
  | outside => simp [hpoint] at hstep
  | openCompare =>
      obtain ⟨hcalls, hskips⟩ := hstage.openCompare hpoint
      simp only [hpoint] at hstep
      split at hstep
      · next hone =>
        cases hstep
        exact hcalls ((callsOpen_iff hnew hopen).mp hone)
      · next hone =>
        cases hstep
        obtain ⟨hkept, hopened⟩ := hskips fun h => hone ((callsOpen_iff hnew hopen).mpr h)
        unfold InStage
        rw [openReturn_periods hopened]
        exact hkept
  | openCall =>
      obtain ⟨rest, hperiods, hkept⟩ := hstage.openCall hpoint
      simp only [hpoint] at hstep
      cases hstep
      unfold InStage
      rw [openReturn_periods (by simp [DeviceThreads.note, hperiods])]
      simp only [DeviceThreads.note, hperiods]
      exact hkept
  | closeDec =>
      obtain ⟨hpos, hquiet⟩ := halone hpoint
      simp only [hpoint] at hstep
      cases hstep
      unfold InStage
      simp only [DeviceThreads.goto, reference_pred hpos]
      exact hstage.decrement t hpos hquiet
  | closeLock =>
      simp only [hpoint] at hstep
      split at hstep
      · cases hstep
        exact hstage.closeLock hpoint
      · cases hstep
  | closeCompare =>
      obtain ⟨hcalls, hskips⟩ := hstage.closeCompare hpoint
      simp only [hpoint] at hstep
      split at hstep
      · next hzero =>
        cases hstep
        exact hcalls ((callsClose_iff hnew hclose).mp hzero)
      · next hzero =>
        cases hstep
        exact hskips fun h => hzero ((callsClose_iff hnew hclose).mpr h)
  | closeCall =>
      obtain ⟨rest, hperiods, hkept⟩ := hstage.closeCall hpoint
      simp only [hpoint] at hstep
      cases hstep
      unfold InStage
      simp only [DeviceThreads.goto, DeviceThreads.note, hperiods]
      exact hkept
  | closeUnlock =>
      simp only [hpoint] at hstep
      cases hstep
      refine hstage.quiet ?_ ?_
      · rw [hpoint]
        simp [DevicePoint.Opening, DevicePoint.Closing]
      · simp [DevicePoint.Opening, DevicePoint.Closing]

theorem InStage.step (hstage : InStage s) (hnew : drv.opensNewOne = false)
    (hopen : drv.hasOpen = true) (hclose : drv.hasClose = true) (halone : ChangesAlone s op)
    (hstep : deviceStep drv s op = some s') : InStage s' := by
  cases op with
  | openDevice t =>
      rw [deviceStep] at hstep
      split at hstep
      · cases hstep
        unfold InStage
        simp only [DeviceThreads.goto, DeviceThreads.increment, reference_succ halone.1,
          reference_eq_zero_iff]
        exact hstage.increment t halone.2
      · cases hstep
  | closeDevice t =>
      rw [deviceStep] at hstep
      split at hstep
      · next hpoint =>
        split at hstep
        · cases hstep
          exact hstage
        · cases hstep
          refine hstage.quiet ?_ ?_
          · rw [hpoint]
            simp [DevicePoint.Opening, DevicePoint.Closing]
          · simp [DevicePoint.Opening, DevicePoint.Closing]
      · cases hstep
  | goOn t => exact hstage.goOn hnew hopen hclose halone hstep

omit [DecidableEq τ] in
theorem InStage.periodsServed (hstage : InStage s) : PeriodsServed s := by
  obtain ⟨device, lock, point, periods⟩ := s
  unfold InStage at hstage
  simp only at hstage
  generalize hcount : device.reference.toInt = count at hstage
  cases hstage with
  | new hsettled => exact ⟨by simp, by simp, by simp, by simp, by simp⟩
  | opening t hrest ht honly =>
      refine ⟨hrest, by simp, by simp, by simp [hcount], fun hsettled => ?_⟩
      exact absurd ht (hsettled t).1
  | single hrest hopen hclose => exact ⟨hrest, by simp, by simp, by simp, by simp [hcount]⟩
  | shared hrest hmany hopen hclose =>
      refine ⟨hrest, by simp, by simp, by simp, fun _ => ?_⟩
      have hpos : 0 < count := by omega
      simp [hcount, hpos]
  | closing t hrest ht honly =>
      refine ⟨hrest, by simp, by simp, by simp, fun hsettled => ?_⟩
      exact absurd ht (hsettled t).2
  | ended hrest hsettled => exact ⟨hrest, by simp, by simp [hcount], by simp, by simp [hcount]⟩

end Runs

/-- While the counter changes from or to `0` or `1` only when no other call is between its change
and its call of the driver, the driver is opened exactly once in every period, before any open
returns, and closed exactly once at its end. -/
theorem aloneReachable_periodsServed [DecidableEq τ] {drv : Driver} {s : DeviceThreads τ}
    (hnew : drv.opensNewOne = false) (hopen : drv.hasOpen = true) (hclose : drv.hasClose = true)
    (hreach : Reachable (AloneMove drv) .new s) : PeriodsServed s := by
  have hstage : InStage s := hreach.invariant
    (.new fun _ => ⟨by simp [DeviceThreads.new, DevicePoint.Opening],
      by simp [DeviceThreads.new, DevicePoint.Closing]⟩)
    fun hstage ⟨halone, hstep⟩ => hstage.step hnew hopen hclose halone hstep
  exact hstage.periodsServed

def twoOpensRun {τ : Type} (t u : τ) : List (DeviceOp τ) :=
  [.openDevice t, .goOn t, .goOn t, .openDevice u, .goOn u, .closeDevice t, .goOn t, .goOn t,
    .goOn t, .closeDevice u, .goOn t, .goOn u, .goOn u, .goOn u, .goOn u]

theorem aloneReachable_periodsServed_twoOpens : ∃ s : DeviceThreads (Fin 2),
    Reachable (AloneMove plainDriver) .new s ∧ s.periods = [⟨1, 1, 0⟩] ∧ PeriodsServed s := by
  have heval : (perform (aloneStep plainDriver) .new (twoOpensRun (0 : Fin 2) 1)).map
      DeviceThreads.periods = some [⟨1, 1, 0⟩] := by
    decide +kernel
  obtain ⟨s, hrun, hperiods⟩ := Option.map_eq_some_iff.mp heval
  have hreach : Reachable (AloneMove plainDriver) .new s :=
    Reachable.of_perform aloneMove_of_aloneStep hrun
  exact ⟨s, hreach, hperiods, aloneReachable_periodsServed rfl rfl rfl hreach⟩

/-- Two threads increment the counter before they compare it: the driver is never opened. -/
theorem deviceReachable_notServed : ∃ s : DeviceThreads (Fin 2),
    Reachable (DeviceMove plainDriver) .new s ∧ ¬PeriodsServed s := by
  have heval : (perform (deviceStep plainDriver) .new
      [.openDevice (0 : Fin 2), .openDevice 1, .goOn 0, .goOn 1]).map DeviceThreads.periods =
      some [⟨0, 0, 2⟩] := by
    decide +kernel
  obtain ⟨s, hrun, hperiods⟩ := Option.map_eq_some_iff.mp heval
  refine ⟨s, Reachable.of_perform id hrun, fun hserved => ?_⟩
  have honce := hserved.once ⟨0, 0, 2⟩ (by rw [hperiods]; rfl)
  exact absurd honce.2.2 (by decide)

end Nxos.Io
