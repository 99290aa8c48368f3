import Nxos.Io.Device.Model

/-!
# The reference count of a device

Calls of `NX_DeviceOpen` and `NX_DeviceClose` one after another.  The counter is changed before
the driver is asked, and not changed back when the driver fails.  So the counter counts the
successful calls exactly in the runs in which the driver does not fail.
-/

namespace Nxos.Io

/-! ## Calls -/

/-- A call, with the answer that the driver gives if it is asked. -/
inductive DeviceCall where
  | openDevice (answer : NxError)
  | closeDevice (answer : NxError)
  deriving DecidableEq

/-- A device in use: how many calls have succeeded, and whether `ops->open` has succeeded since
the counter was last `0`. -/
structure DeviceUse where
  device : Device
  opens : ℕ
  closes : ℕ
  opened : Bool
  deriving DecidableEq

/-- A device that was never opened. -/
def DeviceUse.new : DeviceUse := ⟨deviceCreate, 0, 0, false⟩

/-- What is recorded of `ops->open`: its success, until the counter is `0` again. -/
def DeviceUse.record (r : DeviceUse) (device : Device) (succeeded : Bool) : Bool :=
  if device.reference = 0 then false else r.opened || succeeded

def deviceCall (drv : Driver) (r : DeviceUse) : DeviceCall → NxError × DeviceUse
  | .openDevice answer =>
      let (err, device) := deviceOpen drv r.device answer
      (err, {
        device := device
        opens := if err = .eok then r.opens + 1 else r.opens
        closes := r.closes
        opened := r.record device (drv.callsOpen device.reference && answer == .eok) })
  | .closeDevice answer =>
      let (err, device) := deviceClose drv r.device answer
      (err, {
        device := device
        opens := r.opens
        closes := if err = .eok then r.closes + 1 else r.closes
        opened := r.record device false })

/-- A property of every call of a run, and of the device before it. -/
def EachCall (drv : Driver) (property : DeviceUse → DeviceCall → Prop) :
    DeviceUse → List DeviceCall → Prop
  | _, [] => True
  | r, call :: calls =>
      property r call ∧ EachCall drv property (deviceCall drv r call).2 calls

/-! ## What is promised, and when it holds -/

/-- What a call does to the count: it counts the successful calls, a failing call leaves it, and
an open that succeeds finds the driver opened. -/
structure CountKept (drv : Driver) (r : DeviceUse) (call : DeviceCall) : Prop where
  failed : (deviceCall drv r call).1 ≠ .eok →
    (deviceCall drv r call).2.device.reference = r.device.reference
  counted : (deviceCall drv r call).2.device.reference.toInt =
    (deviceCall drv r call).2.opens - (deviceCall drv r call).2.closes
  opened : ∀ answer, call = .openDevice answer → drv.opensNewOne = false →
    (deviceCall drv r call).1 = .eok → (deviceCall drv r call).2.opened = true

/-- The driver does not fail when it is asked, the counter does not overflow, and a driver that
is to be opened once has an open function. -/
def DriverServes (drv : Driver) (r : DeviceUse) : DeviceCall → Prop
  | .openDevice answer =>
      r.device.reference.toInt + 1 < 2 ^ 63 ∧
      (drv.callsOpen (r.device.reference + 1) = true → answer = .eok) ∧
      (drv.opensNewOne = false → drv.hasOpen = true)
  | .closeDevice answer =>
      0 < r.device.reference.toInt → drv.callsClose (r.device.reference - 1) = true →
        answer = .eok

/-- The counter counts the successful calls, and a driver that is to be opened once is open while
the counter is positive. -/
structure UseInv (drv : Driver) (r : DeviceUse) : Prop where
  counted : r.device.reference.toInt = r.opens - r.closes
  nonneg : 0 ≤ r.device.reference.toInt
  opened : drv.opensNewOne = false → drv.hasOpen = true → 0 < r.device.reference.toInt →
    r.opened = true
  unopened : drv.hasOpen = false → r.opened = false

section Calls

variable {drv : Driver} {r : DeviceUse} {call : DeviceCall} {answer : NxError}

/-- An open fails when the driver is asked and fails, and succeeds otherwise. -/
theorem deviceCall_open (drv : Driver) (r : DeviceUse) (answer : NxError) :
    (drv.callsOpen (r.device.reference + 1) = true ∧ answer ≠ .eok ∧
      deviceCall drv r (.openDevice answer) = (answer,
        ⟨⟨r.device.reference + 1⟩, r.opens, r.closes, r.record ⟨r.device.reference + 1⟩ false⟩)) ∨
    ((drv.callsOpen (r.device.reference + 1) = true → answer = .eok) ∧
      deviceCall drv r (.openDevice answer) = (.eok,
        ⟨⟨r.device.reference + 1⟩, r.opens + 1, r.closes,
          r.record ⟨r.device.reference + 1⟩ (drv.callsOpen (r.device.reference + 1))⟩)) := by
  cases hcalls : drv.callsOpen (r.device.reference + 1) with
  | true =>
      by_cases hanswer : answer = .eok
      · subst hanswer
        refine .inr ⟨fun _ => rfl, ?_⟩
        simp only [deviceCall, deviceOpen, hcalls, if_true, ne_eq, not_true, if_false]
        rfl
      · refine .inl ⟨rfl, hanswer, ?_⟩
        have hfalse : (answer == NxError.eok) = false := beq_eq_false_iff_ne.mpr hanswer
        simp only [deviceCall, deviceOpen, hcalls, if_true, ne_eq, hanswer, not_false_iff,
          if_false, hfalse, Bool.and_false]
  | false =>
      refine .inr ⟨(nomatch ·), ?_⟩
      simp only [deviceCall, deviceOpen, hcalls, Bool.false_eq_true, if_false, if_true,
        Bool.false_and]

/-- A close is refused, fails when the driver is asked and fails, or succeeds. -/
theorem deviceCall_close (drv : Driver) (r : DeviceUse) (answer : NxError) :
    (r.device.reference.toInt ≤ 0 ∧
      deviceCall drv r (.closeDevice answer) = (.eperm,
        ⟨r.device, r.opens, r.closes, r.record r.device false⟩)) ∨
    (0 < r.device.reference.toInt ∧ drv.callsClose (r.device.reference - 1) = true ∧
      answer ≠ .eok ∧ deviceCall drv r (.closeDevice answer) = (answer,
        ⟨⟨r.device.reference - 1⟩, r.opens, r.closes, r.record ⟨r.device.reference - 1⟩ false⟩)) ∨
    (0 < r.device.reference.toInt ∧
      (drv.callsClose (r.device.reference - 1) = true → answer = .eok) ∧
      deviceCall drv r (.closeDevice answer) = (.eok,
        ⟨⟨r.device.reference - 1⟩, r.opens, r.closes + 1,
          r.record ⟨r.device.reference - 1⟩ false⟩)) := by
  by_cases hle : r.device.reference.toInt ≤ 0
  · refine .inl ⟨hle, ?_⟩
    simp only [deviceCall, deviceClose, hle, if_true, reduceCtorEq, if_false]
  · refine .inr ?_
    cases hcalls : drv.callsClose (r.device.reference - 1) with
    | true =>
        by_cases hanswer : answer = .eok
        · subst hanswer
          refine .inr ⟨not_le.mp hle, fun _ => rfl, ?_⟩
          simp only [deviceCall, deviceClose, hle, hcalls, if_true, if_false, ne_eq, not_true]
        · refine .inl ⟨not_le.mp hle, rfl, hanswer, ?_⟩
          simp only [deviceCall, deviceClose, hle, hcalls, hanswer, if_true, if_false, ne_eq,
            not_false_iff]
    | false =>
        refine .inr ⟨not_le.mp hle, (nomatch ·), ?_⟩
        simp only [deviceCall, deviceClose, hle, hcalls, Bool.false_eq_true, if_true, if_false]

namespace UseInv

theorem countKept (hinv : UseInv drv r) (hserves : DriverServes drv r call) :
    CountKept drv r call ∧ UseInv drv (deviceCall drv r call).2 := by
  have hcounted := hinv.counted
  have hnonneg := hinv.nonneg
  cases call with
  | openDevice answer =>
      obtain ⟨hlt, hanswer, hopen⟩ := hserves
      have hsucc := reference_succ hlt
      have hne : r.device.reference + 1 ≠ 0 := by
        intro hzero
        rw [hzero] at hsucc
        change (0 : ℤ) = _ at hsucc
        omega
      rcases deviceCall_open drv r answer with ⟨hcalls, hfailed, -⟩ | ⟨-, heq⟩
      · exact absurd (hanswer hcalls) hfailed
      · have hopened : drv.opensNewOne = false → drv.hasOpen = true →
            r.record ⟨r.device.reference + 1⟩ (drv.callsOpen (r.device.reference + 1)) = true := by
          intro hflag hhas
          rw [DeviceUse.record, if_neg hne, Bool.or_eq_true]
          rcases hnonneg.lt_or_eq with hpos | hzero
          · exact .inl (hinv.opened hflag hhas hpos)
          · right
            have hreference : r.device.reference = 0 := BitVec.eq_of_toInt_eq hzero.symm
            simp [Driver.callsOpen, hhas, hreference]
        refine ⟨⟨fun herr => absurd (by rw [heq]) herr, ?_, fun _ _ hflag _ => ?_⟩, ?_, ?_, ?_, ?_⟩
        · rw [heq]
          simp only [Nat.cast_add, Nat.cast_one]
          omega
        · rw [heq]
          exact hopened hflag (hopen hflag)
        · rw [heq]
          simp only [Nat.cast_add, Nat.cast_one]
          omega
        · rw [heq]
          simp only
          omega
        · rw [heq]
          exact fun hflag hhas _ => hopened hflag hhas
        · rw [heq]
          intro hhas
          simp [DeviceUse.record, Driver.callsOpen, hhas, hinv.unopened hhas]
  | closeDevice answer =>
      rcases deviceCall_close drv r answer with ⟨hle, heq⟩ | ⟨hpos, hcalls, hfailed, -⟩ |
        ⟨hpos, -, heq⟩
      · have hzero : r.device.reference = 0 := BitVec.eq_of_toInt_eq (le_antisymm hle hnonneg)
        refine ⟨⟨fun _ => by rw [heq], by rw [heq]; exact hcounted, fun _ h => by cases h⟩,
          by rw [heq]; exact hcounted, by rw [heq]; exact hnonneg, ?_, ?_⟩
        · rw [heq]
          exact fun _ _ hpos => absurd hpos hle.not_gt
        · rw [heq]
          exact fun _ => by simp [DeviceUse.record, hzero]
      · exact absurd (hserves hpos hcalls) hfailed
      · have hpred := reference_pred hpos
        refine ⟨⟨fun herr => absurd (by rw [heq]) herr, ?_, fun _ h => by cases h⟩, ?_, ?_, ?_, ?_⟩
        · rw [heq]
          simp only [Nat.cast_add, Nat.cast_one]
          omega
        · rw [heq]
          simp only [Nat.cast_add, Nat.cast_one]
          omega
        · rw [heq]
          simp only
          omega
        · rw [heq]
          intro hflag hhas hlater
          have hne : r.device.reference - 1 ≠ 0 := by
            intro hzero
            change 0 < (r.device.reference - 1).toInt at hlater
            rw [hzero] at hlater
            exact absurd hlater (by decide)
          rw [DeviceUse.record, if_neg hne, hinv.opened hflag hhas hpos]
          rfl
        · rw [heq]
          intro hhas
          simp [DeviceUse.record, hinv.unopened hhas]

theorem driverServes (hinv : UseInv drv r) (hkept : CountKept drv r call) :
    DriverServes drv r call := by
  have hcounted := hinv.counted
  have hnonneg := hinv.nonneg
  cases call with
  | openDevice answer =>
      rcases deviceCall_open drv r answer with ⟨-, hfailed, heq⟩ | ⟨hanswer, heq⟩
      · -- The count of a failed open stays behind.
        have hsame := hkept.failed (by rw [heq]; exact hfailed)
        rw [heq] at hsame
        simp only at hsame
        exact absurd hsame (by bv_omega)
      · refine ⟨?_, hanswer, fun hflag => ?_⟩
        · by_contra hle
          have hwraps := reference_succ_wraps (not_lt.mp hle)
          have hcount := hkept.counted
          rw [heq] at hcount
          simp only [Nat.cast_add, Nat.cast_one] at hcount
          omega
        · have hopened := hkept.opened answer rfl hflag (by rw [heq])
          rw [heq] at hopened
          by_contra hhas
          rw [Bool.not_eq_true] at hhas
          simp [DeviceUse.record, Driver.callsOpen, hhas, hinv.unopened hhas] at hopened
  | closeDevice answer =>
      intro hpos hcalls
      rcases deviceCall_close drv r answer with ⟨hle, -⟩ | ⟨-, -, hfailed, heq⟩ | ⟨-, hanswer, -⟩
      · omega
      · have hsame := hkept.failed (by rw [heq]; exact hfailed)
        rw [heq] at hsame
        simp only at hsame
        exact absurd hsame (by bv_omega)
      · exact hanswer hcalls

/-- In a run every call keeps the count exactly if the driver serves every call. -/
theorem eachCall_iff (hinv : UseInv drv r) (calls : List DeviceCall) :
    EachCall drv (CountKept drv) r calls ↔ EachCall drv (DriverServes drv) r calls := by
  induction calls generalizing r with
  | nil => exact Iff.rfl
  | cons call calls ih =>
      constructor
      · rintro ⟨hkept, hrest⟩
        have hserves := hinv.driverServes hkept
        exact ⟨hserves, (ih (hinv.countKept hserves).2).mp hrest⟩
      · rintro ⟨hserves, hrest⟩
        obtain ⟨hkept, hafter⟩ := hinv.countKept hserves
        exact ⟨hkept, (ih hafter).mpr hrest⟩

end UseInv

theorem useInv_new (drv : Driver) : UseInv drv .new where
  counted := rfl
  nonneg := le_rfl
  opened _ _ hpos := absurd hpos (by decide)
  unopened _ := rfl

end Calls

/-- For every driver and every sequence of opens and closes of a new device: the counter counts
the successful calls, failing calls leave it, and opens find the driver opened, exactly if the
driver serves every call. -/
theorem deviceCalls_kept_iff (drv : Driver) (calls : List DeviceCall) :
    EachCall drv (CountKept drv) .new calls ↔ EachCall drv (DriverServes drv) .new calls :=
  (useInv_new drv).eachCall_iff calls

/-- The driver fails to open, and the next open finds the counter at `1` and succeeds without
it. -/
theorem deviceCalls_notKept :
    ¬EachCall plainDriver (CountKept plainDriver) .new
      [.openDevice .eio, .openDevice .eio] := by
  rintro ⟨hfirst, -⟩
  have hcounted := hfirst.counted
  revert hcounted
  decide

end Nxos.Io
