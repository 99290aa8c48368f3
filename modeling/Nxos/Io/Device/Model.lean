import Mathlib.Data.BitVec
import Nxos.Base.Kernel

/-!
# Devices and their drivers

The embedding of `NX_DeviceOpen`, from the device that the name stands for on, and of
`NX_DeviceClose` (`io/driver.c`).  The functions of a driver may fail; what they answer is part
of a call.
-/

namespace Nxos.Io

/-! ## Data -/

/-- `NX_DriverOps`: which of its functions are set. -/
structure DriverOps where
  hasOpen : Bool
  hasClose : Bool
  deriving DecidableEq

/-- `NX_Driver`, as far as opening and closing read it. -/
structure Driver where
  ops : Option DriverOps
  flags : BitVec 32
  deriving DecidableEq

/-- `NX_DEVICE_OPEN_NEW_ONE` -/
def deviceOpenNewOne : BitVec 32 := 0x01

/-- The flag of the driver is set: `ops->open` is called for every open. -/
def Driver.opensNewOne (drv : Driver) : Bool := drv.flags &&& deviceOpenNewOne != 0

def Driver.hasOpen (drv : Driver) : Bool := drv.ops.any DriverOps.hasOpen

def Driver.hasClose (drv : Driver) : Bool := drv.ops.any DriverOps.hasClose

/-- The tests of `NX_DeviceOpen` before `ops->open`, for the count that it reads. -/
def Driver.callsOpen (drv : Driver) (reference : BitVec 64) : Bool :=
  drv.hasOpen && (drv.opensNewOne || reference == 1)

/-- The tests of `NX_DeviceClose` before `ops->close`, for the count that it reads. -/
def Driver.callsClose (drv : Driver) (reference : BitVec 64) : Bool :=
  drv.hasClose && (drv.opensNewOne || reference == 0)

def plainDriver : Driver := ⟨some ⟨true, true⟩, 0⟩

/-- `NX_Device`: its reference counter. -/
structure Device where
  reference : BitVec 64
  deriving DecidableEq

/-- `NX_DeviceCreate` -/
def deviceCreate : Device := ⟨0⟩

/-! ## Functions -/

/-- `NX_DeviceOpen` of a device that is found; `answer` is what `ops->open` returns if it is
called. -/
def deviceOpen (drv : Driver) (device : Device) (answer : NxError) : NxError × Device :=
  let device : Device := ⟨device.reference + 1⟩
  if drv.callsOpen device.reference then
    if answer ≠ .eok then (answer, device) else (.eok, device)
  else (.eok, device)

/-- `NX_DeviceClose`; `answer` is what `ops->close` returns if it is called. -/
def deviceClose (drv : Driver) (device : Device) (answer : NxError) : NxError × Device :=
  if device.reference.toInt ≤ 0 then (.eperm, device)
  else
    let device : Device := ⟨device.reference - 1⟩
    if drv.callsClose device.reference then
      if answer ≠ .eok then (answer, device) else (.eok, device)
    else (.eok, device)

section Reference

variable {reference : BitVec 64}

/-- The counter counts up below its largest value. -/
theorem reference_succ (hlt : reference.toInt + 1 < 2 ^ 63) :
    (reference + 1).toInt = reference.toInt + 1 := by
  have hone : (1 : BitVec 64).toInt = 1 := rfl
  have hle := BitVec.le_toInt reference
  rw [BitVec.toInt_add, hone, Int.bmod_def]
  omega

/-- The counter counts down above its smallest value. -/
theorem reference_pred (hlt : 0 < reference.toInt) :
    (reference - 1).toInt = reference.toInt - 1 := by
  have hone : (1 : BitVec 64).toInt = 1 := rfl
  have hle := BitVec.toInt_lt (x := reference)
  rw [BitVec.toInt_sub, hone, Int.bmod_def]
  omega

/-- The largest value of the counter is followed by a negative one. -/
theorem reference_succ_wraps (hle : 2 ^ 63 ≤ reference.toInt + 1) :
    (reference + 1).toInt = reference.toInt + 1 - 2 ^ 64 := by
  have hone : (1 : BitVec 64).toInt = 1 := rfl
  have hlt := BitVec.toInt_lt (x := reference)
  rw [BitVec.toInt_add, hone, Int.bmod_def]
  omega

end Reference

end Nxos.Io
