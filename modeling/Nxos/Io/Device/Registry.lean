import Nxos.Io.Device.Model
import Nxos.Support.Transition
import Mathlib.Data.List.Nodup
import Mathlib.Logic.Function.Basic
import Mathlib.Tactic.SplitIfs

/-!
# The registry of drivers and devices

The embedding of the functions of `io/driver.c` that change or search the lists of drivers
and devices.  Drivers are known by their addresses, and a device lies on the list of its
driver.  Each function takes a lock; a call that finds the lock taken spins forever, since
nobody is left who would release it.

Names fit their fields here; `NX_StrCopy` does not check that.
-/

namespace Nxos.Io

open Nxos.Transition

/-! ## Data -/

/-- `NX_Device`, with its name. -/
structure RegDevice (ν : Type) where
  name : ν
  device : Device

/-- `NX_Driver`, with its name, its devices and its lock.  `unlinked` says that its list node
has null links, as `NX_ListDel` leaves them. -/
structure RegDriver (ν : Type) where
  name : ν
  driver : Driver
  unlinked : Bool
  deviceList : List (RegDevice ν)
  locked : Bool

/-- `driverListHead`, `driverLock` and the drivers at their addresses. -/
structure Registry (ν : Type) where
  driverList : List ℕ
  driverLock : Bool
  driver : ℕ → RegDriver ν

variable {ν : Type}

/-- The registry of a system in which `NX_DriverCreate` has made the drivers. -/
def registryStart (name : ℕ → ν) (driver : ℕ → Driver) : Registry ν :=
  ⟨[], false, fun d => ⟨name d, driver d, false, [], false⟩⟩

namespace Registry

def write (s : Registry ν) (d : ℕ) (r : RegDriver ν) : Registry ν :=
  { s with driver := Function.update s.driver d r }

@[simp] theorem write_driver_self (s : Registry ν) (d : ℕ) (r : RegDriver ν) :
    (s.write d r).driver d = r := Function.update_self ..

theorem write_driver_of_ne (s : Registry ν) {d e : ℕ} (r : RegDriver ν) (h : e ≠ d) :
    (s.write d r).driver e = s.driver e := Function.update_of_ne h ..

def setUnlinked (s : Registry ν) (d : ℕ) (unlinked : Bool) : Registry ν :=
  s.write d { s.driver d with unlinked := unlinked }

/-- The devices in the order in which the nested loops over drivers and devices meet them. -/
def devices (s : Registry ν) : List (ℕ × RegDevice ν) :=
  s.driverList.flatMap fun d => (s.driver d).deviceList.map fun device => (d, device)

end Registry

/-! ## Functions -/

section Functions

variable [DecidableEq ν]

/-- `NX_SpinLockIRQ` on a lock that nobody is about to release. -/
def spinLockIRQ (held : Bool) : Exec Unit :=
  if held then .error .deadlock else .ok ()

/-- `NX_DriverRegister` -/
def driverRegister (s : Registry ν) : Option ℕ → Exec (NxError × Registry ν)
  | none => .ok (.einval, s)
  | some d => do
      spinLockIRQ s.driverLock
      if s.driverList.any (fun tmp => (s.driver tmp).name = (s.driver d).name) then
        return (.eagain, { s with driverLock := true })
      return (.eok, { s.setUnlinked d false with driverList := d :: s.driverList })

/-- `NX_DriverUnregister` -/
def driverUnregister (s : Registry ν) : Option ℕ → Exec (NxError × Registry ν)
  | none => .ok (.einval, s)
  | some d => do
      spinLockIRQ s.driverLock
      if (s.driver d).unlinked then .error .nullDeref
      else return (.eok, { s.setUnlinked d true with driverList := s.driverList.erase d })

/-- `NX_DriverSearch` -/
def driverSearch (s : Registry ν) : Option ν → Exec (Option ℕ × Registry ν)
  | none => .ok (none, s)
  | some name => do
      spinLockIRQ s.driverLock
      return (s.driverList.find? fun tmp => (s.driver tmp).name = name, s)

/-- `NX_DriverAttachDeviceObject` -/
def driverAttachDeviceObject (s : Registry ν) (d : ℕ) (device : RegDevice ν) :
    Exec (NxError × Registry ν) := do
  spinLockIRQ (s.driver d).locked
  if (s.driver d).deviceList.any (fun tmp => tmp.name = device.name) then
    return (.eagain, s.write d { s.driver d with locked := true })
  return (.eok, s.write d { s.driver d with deviceList := device :: (s.driver d).deviceList })

/-- `NX_DriverAttachDevice`; `memory` says whether `NX_DeviceCreate` has memory. -/
def driverAttachDevice (s : Registry ν) (memory : Bool) :
    Option ℕ → Option ν → Exec (NxError × Registry ν)
  | some d, some name =>
      if memory then driverAttachDeviceObject s d ⟨name, deviceCreate⟩ else .ok (.enomem, s)
  | _, _ => .ok (.einval, s)

/-- `NX_DriverDetachDevice`, with `NX_DriverDetachDeviceObject`. -/
def driverDetachDevice (s : Registry ν) : Option ℕ → Option ν → Exec (NxError × Registry ν)
  | some d, some name => do
      spinLockIRQ (s.driver d).locked
      if (s.driver d).deviceList.any (fun tmp => tmp.name = name) then
        return (.eok, s.write d { s.driver d with
          deviceList := (s.driver d).deviceList.eraseP fun tmp => tmp.name = name })
      return (.enosrch, s)
  | _, _ => .ok (.einval, s)

/-- `NX_DeviceSearchLocked` -/
def deviceSearchLocked (s : Registry ν) (name : ν) : Option (ℕ × RegDevice ν) :=
  s.devices.find? fun found => found.2.name = name

/-- `NX_DeviceEnum` -/
def deviceEnum (s : Registry ν) (offset : ℤ) : Exec (Option (RegDevice ν) × Registry ν) := do
  spinLockIRQ s.driverLock
  return (if offset < 0 then none else s.devices[offset.toNat]?.map Prod.snd, s)

/-- `NX_DeviceOpen`; `answer` is what `ops->open` returns if it is called. -/
def deviceOpenByName (s : Registry ν) (answer : NxError) :
    Option ν → Exec (NxError × Registry ν)
  | none => .ok (.einval, s)
  | some name => do
      spinLockIRQ s.driverLock
      match deviceSearchLocked s name with
      | none => return (.enosrch, s)
      | some (d, found) =>
          let (err, device) := deviceOpen (s.driver d).driver found.device answer
          return (err, s.write d { s.driver d with
            deviceList := (s.driver d).deviceList.map fun tmp =>
              if tmp.name = name then { tmp with device := device } else tmp })

/-! ## Calls -/

inductive RegOp (ν : Type) where
  | register (driver : Option ℕ)
  | unregister (driver : Option ℕ)
  | search (name : Option ν)
  | attach (driver : Option ℕ) (name : Option ν) (memory : Bool)
  | detach (driver : Option ℕ) (name : Option ν)
  | openDevice (name : Option ν) (answer : NxError)
  | enum (offset : ℤ)

def regStep (s : Registry ν) : RegOp ν → Exec (NxError × Registry ν)
  | .register driver => driverRegister s driver
  | .unregister driver => driverUnregister s driver
  | .search name => (driverSearch s name).map fun r => (.eok, r.2)
  | .attach driver name memory => driverAttachDevice s memory driver name
  | .detach driver name => driverDetachDevice s driver name
  | .openDevice name answer => deviceOpenByName s answer name
  | .enum offset => (deviceEnum s offset).map fun r => (.eok, r.2)

end Functions

structure Registry.LocksFree (s : Registry ν) : Prop where
  driverLock : s.driverLock = false
  locked : ∀ d, (s.driver d).locked = false

/-- The drivers on the list have different names, and so have the devices of each driver. -/
structure Registry.NamesDistinct (s : Registry ν) : Prop where
  drivers : (s.driverList.map fun d => (s.driver d).name).Nodup
  devices : ∀ d, ((s.driver d).deviceList.map RegDevice.name).Nodup

def RegOp.Duplicate (err : NxError) : RegOp ν → Prop
  | .register _ => err = .eagain
  | .attach _ _ _ => err = .eagain
  | _ => False

section Conditions

variable [DecidableEq ν]

/-- What a call is to do: it returns with all locks released and all names distinct, and changes
nothing if it meets a duplicate. -/
def RegOp.Meets (s : Registry ν) (op : RegOp ν) : Prop :=
  ∃ err t, regStep s op = .ok (err, t) ∧ t.LocksFree ∧ t.NamesDistinct ∧
    (op.Duplicate err → t = s)

end Conditions

/-- When it does: the name of a driver or device that is added is new there, and a driver is
not unregistered twice. -/
def RegOp.Sound (s : Registry ν) : RegOp ν → Prop
  | .register (some d) => ∀ e ∈ s.driverList, (s.driver e).name ≠ (s.driver d).name
  | .unregister (some d) => (s.driver d).unlinked = false
  | .attach (some d) (some name) true => ∀ device ∈ (s.driver d).deviceList, device.name ≠ name
  | _ => True

/-! ## Names -/

namespace Registry

variable {s t : Registry ν} {d : ℕ} {r : RegDriver ν}

theorem write_name (hname : r.name = (s.driver d).name) (e : ℕ) :
    ((s.write d r).driver e).name = (s.driver e).name := by
  by_cases he : e = d
  · rw [he, write_driver_self, hname]
  · rw [write_driver_of_ne s r he]

theorem NamesDistinct.write (h : s.NamesDistinct) (hname : r.name = (s.driver d).name)
    (hdevices : (r.deviceList.map RegDevice.name).Nodup) : (s.write d r).NamesDistinct where
  drivers := by
    rw [List.map_congr_left fun e _ => write_name hname e]
    exact h.drivers
  devices := by
    intro e
    by_cases he : e = d
    · rw [he, write_driver_self]
      exact hdevices
    · rw [write_driver_of_ne s r he]
      exact h.devices e

theorem NamesDistinct.relist (h : s.NamesDistinct) {drivers : List ℕ}
    (hdrivers : (drivers.map fun e => (s.driver e).name).Nodup) :
    ({ s with driverList := drivers } : Registry ν).NamesDistinct :=
  ⟨hdrivers, h.devices⟩

theorem setUnlinked_names (s : Registry ν) (d : ℕ) (unlinked : Bool) :
    (fun e => ((s.setUnlinked d unlinked).driver e).name) = fun e => (s.driver e).name :=
  funext fun e => write_name (r := { s.driver d with unlinked := unlinked }) rfl e

theorem NamesDistinct.setUnlinked (h : s.NamesDistinct) (d : ℕ) (unlinked : Bool) :
    (s.setUnlinked d unlinked).NamesDistinct :=
  h.write rfl (h.devices d)

theorem LocksFree.write (h : s.LocksFree) (hr : r.locked = false) : (s.write d r).LocksFree where
  driverLock := h.driverLock
  locked := by
    intro e
    by_cases he : e = d
    · rw [he, write_driver_self]
      exact hr
    · rw [write_driver_of_ne s r he]
      exact h.locked e

theorem LocksFree.setUnlinked (h : s.LocksFree) (d : ℕ) (unlinked : Bool) :
    (s.setUnlinked d unlinked).LocksFree :=
  h.write (h.locked d)

end Registry

section Steps

variable [DecidableEq ν] {s t : Registry ν} {err : NxError}

/-- What follows a lock is done exactly when it was free. -/
theorem spinLockIRQ_bind_eq_ok {α : Type} {held : Bool} {f : Unit → Exec α} {a : α} :
    (spinLockIRQ held >>= f) = .ok a ↔ held = false ∧ f () = .ok a := by
  cases held with
  | true => simp [spinLockIRQ]
  | false => simp [spinLockIRQ]

theorem spinLockIRQ_free {held : Bool} (h : held = false) : spinLockIRQ held = .ok () := by
  rw [h]
  rfl

/-- A name is found on a list exactly when something on it has this name. -/
theorem any_name_iff {α : Type} {l : List α} {f : α → ν} {name : ν} :
    l.any (fun a => f a = name) = true ↔ name ∈ l.map f := by
  simp

theorem driverRegister_namesDistinct (h : s.NamesDistinct) {driver : Option ℕ}
    (hrun : driverRegister s driver = .ok (err, t)) : t.NamesDistinct := by
  cases driver with
  | none =>
      cases hrun
      exact h
  | some d =>
      obtain ⟨-, hrun⟩ := spinLockIRQ_bind_eq_ok.mp hrun
      split_ifs at hrun with hany
      · cases hrun
        exact ⟨h.drivers, h.devices⟩
      · cases hrun
        rw [any_name_iff] at hany
        refine (h.setUnlinked d false).relist ?_
        rw [Registry.setUnlinked_names, List.map_cons, List.nodup_cons]
        exact ⟨hany, h.drivers⟩

omit [DecidableEq ν] in
theorem driverUnregister_namesDistinct (h : s.NamesDistinct) {driver : Option ℕ}
    (hrun : driverUnregister s driver = .ok (err, t)) : t.NamesDistinct := by
  cases driver with
  | none =>
      cases hrun
      exact h
  | some d =>
      obtain ⟨-, hrun⟩ := spinLockIRQ_bind_eq_ok.mp hrun
      split_ifs at hrun
      cases hrun
      refine (h.setUnlinked d true).relist ?_
      rw [Registry.setUnlinked_names]
      exact h.drivers.sublist (List.erase_sublist.map _)

theorem driverAttachDevice_namesDistinct (h : s.NamesDistinct) {driver : Option ℕ}
    {name : Option ν} {memory : Bool}
    (hrun : driverAttachDevice s memory driver name = .ok (err, t)) : t.NamesDistinct := by
  unfold driverAttachDevice at hrun
  split at hrun
  · next d name =>
      split_ifs at hrun
      · obtain ⟨-, hrun⟩ := spinLockIRQ_bind_eq_ok.mp hrun
        split_ifs at hrun with hany
        · cases hrun
          exact h.write rfl (h.devices d)
        · cases hrun
          rw [any_name_iff (f := RegDevice.name)] at hany
          refine h.write rfl ?_
          rw [List.map_cons, List.nodup_cons]
          exact ⟨hany, h.devices d⟩
      · cases hrun
        exact h
  · cases hrun
    exact h

theorem driverDetachDevice_namesDistinct (h : s.NamesDistinct) {driver : Option ℕ}
    {name : Option ν} (hrun : driverDetachDevice s driver name = .ok (err, t)) :
    t.NamesDistinct := by
  unfold driverDetachDevice at hrun
  split at hrun
  · next d name =>
      obtain ⟨-, hrun⟩ := spinLockIRQ_bind_eq_ok.mp hrun
      split_ifs at hrun
      · cases hrun
        exact h.write rfl ((h.devices d).sublist (List.eraseP_sublist.map _))
      · cases hrun
        exact h
  · cases hrun
    exact h

theorem map_setDevice_name (l : List (RegDevice ν)) (name : ν) (device : Device) :
    (l.map fun tmp => if tmp.name = name then { tmp with device := device } else tmp).map
      RegDevice.name = l.map RegDevice.name := by
  rw [List.map_map]
  refine List.map_congr_left fun tmp _ => ?_
  dsimp only [Function.comp_apply]
  split_ifs
  · rfl
  · rfl

theorem deviceOpenByName_namesDistinct (h : s.NamesDistinct) {answer : NxError}
    {name : Option ν} (hrun : deviceOpenByName s answer name = .ok (err, t)) :
    t.NamesDistinct := by
  cases name with
  | none =>
      cases hrun
      exact h
  | some name =>
      obtain ⟨-, hrun⟩ := spinLockIRQ_bind_eq_ok.mp hrun
      split at hrun
      · cases hrun
        exact h
      · next d found _ =>
          cases hrun
          refine h.write rfl ?_
          dsimp only
          rw [map_setDevice_name]
          exact h.devices d

theorem regStep_namesDistinct (h : s.NamesDistinct) {op : RegOp ν}
    (hrun : regStep s op = .ok (err, t)) : t.NamesDistinct := by
  cases op with
  | register driver => exact driverRegister_namesDistinct h hrun
  | unregister driver => exact driverUnregister_namesDistinct h hrun
  | search name =>
      obtain ⟨r, hsearch, hrest⟩ := exec_map_eq_ok_iff.mp hrun
      cases hrest
      cases name with
      | none =>
          cases hsearch
          exact h
      | some name =>
          obtain ⟨-, hsearch⟩ := spinLockIRQ_bind_eq_ok.mp hsearch
          cases hsearch
          exact h
  | attach driver name memory => exact driverAttachDevice_namesDistinct h hrun
  | detach driver name => exact driverDetachDevice_namesDistinct h hrun
  | openDevice name answer => exact deviceOpenByName_namesDistinct h hrun
  | enum offset =>
      obtain ⟨r, henum, hrest⟩ := exec_map_eq_ok_iff.mp hrun
      obtain ⟨-, henum⟩ := spinLockIRQ_bind_eq_ok.mp henum
      cases henum
      cases hrest
      exact h

/-! ## Locks -/

theorem RegOp.Meets.of_released (h : s.NamesDistinct) {op : RegOp ν}
    (hrun : regStep s op = .ok (err, t)) (hfree : t.LocksFree) (hnew : ¬op.Duplicate err) :
    op.Meets s :=
  ⟨err, t, hrun, hfree, regStep_namesDistinct h hrun, fun hdup => absurd hdup hnew⟩

theorem RegOp.Meets.of_unchanged (hfree : s.LocksFree) (h : s.NamesDistinct) {op : RegOp ν}
    (hrun : regStep s op = .ok (err, s)) : op.Meets s :=
  ⟨err, s, hrun, hfree, h, fun _ => rfl⟩

theorem register_meets_iff (hfree : s.LocksFree) (h : s.NamesDistinct) (driver : Option ℕ) :
    (RegOp.register driver).Meets s ↔ (RegOp.register driver).Sound s := by
  cases driver with
  | none => exact iff_of_true (.of_unchanged hfree h rfl) trivial
  | some d =>
      have hany : s.driverList.any (fun tmp => (s.driver tmp).name = (s.driver d).name) = true ↔
          ¬(RegOp.register (some d)).Sound s := by
        simp [RegOp.Sound]
      have hrun : regStep s (.register (some d)) =
          if s.driverList.any (fun tmp => (s.driver tmp).name = (s.driver d).name) then
            .ok (.eagain, { s with driverLock := true })
          else .ok (.eok, { s.setUnlinked d false with driverList := d :: s.driverList }) := by
        simp only [regStep, driverRegister, spinLockIRQ_free hfree.driverLock, exec_ok_bind,
          exec_pure]
      constructor
      · rintro ⟨err, t, hstep, hreleased, -⟩
        by_contra hunsound
        rw [hrun, if_pos (hany.mpr hunsound)] at hstep
        cases hstep
        cases hreleased.driverLock
      · intro hsound
        rw [if_neg fun hdup => hany.mp hdup hsound] at hrun
        have hlinked := hfree.setUnlinked d false
        exact .of_released h hrun ⟨hlinked.driverLock, hlinked.locked⟩
          (show NxError.eok ≠ .eagain by decide)

theorem unregister_meets_iff (hfree : s.LocksFree) (h : s.NamesDistinct) (driver : Option ℕ) :
    (RegOp.unregister driver).Meets s ↔ (RegOp.unregister driver).Sound s := by
  cases driver with
  | none => exact iff_of_true (.of_unchanged hfree h rfl) trivial
  | some d =>
      have hrun : regStep s (.unregister (some d)) =
          if (s.driver d).unlinked then .error .nullDeref
          else .ok (.eok, { s.setUnlinked d true with
            driverList := s.driverList.erase d }) := by
        simp only [regStep, driverUnregister, spinLockIRQ_free hfree.driverLock, exec_ok_bind,
          exec_pure]
      constructor
      · rintro ⟨err, t, hstep, -⟩
        rw [hrun] at hstep
        split_ifs at hstep with hunlinked
        exact Bool.eq_false_iff.mpr hunlinked
      · intro hsound
        rw [if_neg (Bool.eq_false_iff.mp hsound)] at hrun
        have hunlinked := hfree.setUnlinked d true
        exact .of_released h hrun ⟨hunlinked.driverLock, hunlinked.locked⟩ not_false

theorem attach_meets_iff (hfree : s.LocksFree) (h : s.NamesDistinct) (driver : Option ℕ)
    (name : Option ν) (memory : Bool) :
    (RegOp.attach driver name memory).Meets s ↔ (RegOp.attach driver name memory).Sound s := by
  cases driver with
  | none => exact iff_of_true (.of_unchanged hfree h rfl) trivial
  | some d =>
      cases name with
      | none => exact iff_of_true (.of_unchanged hfree h rfl) trivial
      | some name =>
          cases memory with
          | false => exact iff_of_true (.of_unchanged hfree h rfl) trivial
          | true =>
              have hany : (s.driver d).deviceList.any (fun tmp => tmp.name = name) = true ↔
                  ¬(RegOp.attach (some d) (some name) true).Sound s := by
                simp [RegOp.Sound]
              have hrun : regStep s (.attach (some d) (some name) true) =
                  if (s.driver d).deviceList.any (fun tmp => tmp.name = name) then
                    .ok (.eagain, s.write d { s.driver d with locked := true })
                  else .ok (.eok, s.write d { s.driver d with
                    deviceList := ⟨name, deviceCreate⟩ :: (s.driver d).deviceList }) := by
                simp only [regStep, driverAttachDevice, driverAttachDeviceObject,
                  spinLockIRQ_free (hfree.locked d), exec_ok_bind, exec_pure, if_true]
              constructor
              · rintro ⟨err, t, hstep, hreleased, -⟩
                by_contra hunsound
                rw [hrun, if_pos (hany.mpr hunsound)] at hstep
                cases hstep
                have hlocked := hreleased.locked d
                rw [Registry.write_driver_self] at hlocked
                cases hlocked
              · intro hsound
                rw [if_neg fun hdup => hany.mp hdup hsound] at hrun
                exact .of_released h hrun (hfree.write (hfree.locked d))
                  (show NxError.eok ≠ .eagain by decide)

theorem detach_meets (hfree : s.LocksFree) (h : s.NamesDistinct) (driver : Option ℕ)
    (name : Option ν) : (RegOp.detach driver name).Meets s := by
  cases driver with
  | none => exact .of_unchanged hfree h rfl
  | some d =>
      cases name with
      | none => exact .of_unchanged hfree h rfl
      | some name =>
          have hrun : regStep s (.detach (some d) (some name)) =
              if (s.driver d).deviceList.any (fun tmp => tmp.name = name) then
                .ok (.eok, s.write d { s.driver d with
                  deviceList := (s.driver d).deviceList.eraseP fun tmp => tmp.name = name })
              else .ok (.enosrch, s) := by
            simp only [regStep, driverDetachDevice, spinLockIRQ_free (hfree.locked d),
              exec_ok_bind, exec_pure]
          split_ifs at hrun
          · exact .of_released h hrun (hfree.write (hfree.locked d)) not_false
          · exact .of_unchanged hfree h hrun

theorem search_meets (hfree : s.LocksFree) (h : s.NamesDistinct) (name : Option ν) :
    (RegOp.search name).Meets s := by
  have hrun : regStep s (.search name) = .ok (.eok, s) := by
    cases name with
    | none => rfl
    | some name =>
        simp only [regStep, driverSearch, spinLockIRQ_free hfree.driverLock, exec_ok_bind,
          exec_pure]
        rfl
  exact .of_unchanged hfree h hrun

theorem openDevice_meets (hfree : s.LocksFree) (h : s.NamesDistinct) (name : Option ν)
    (answer : NxError) : (RegOp.openDevice name answer).Meets s := by
  cases name with
  | none => exact .of_unchanged hfree h rfl
  | some name =>
      have hrun : ∃ err t, regStep s (.openDevice (some name) answer) = .ok (err, t) ∧
          t.LocksFree := by
        simp only [regStep, deviceOpenByName, spinLockIRQ_free hfree.driverLock, exec_ok_bind,
          exec_pure]
        split
        · exact ⟨_, _, rfl, hfree⟩
        · next d found _ => exact ⟨_, _, rfl, hfree.write (hfree.locked d)⟩
      obtain ⟨err, t, hrun, hreleased⟩ := hrun
      exact .of_released h hrun hreleased not_false

theorem enum_meets (hfree : s.LocksFree) (h : s.NamesDistinct) (offset : ℤ) :
    (RegOp.enum offset).Meets s := by
  have hrun : regStep s (.enum offset) = .ok (.eok, s) := by
    simp only [regStep, deviceEnum, spinLockIRQ_free hfree.driverLock, exec_ok_bind, exec_pure]
    rfl
  exact .of_unchanged hfree h hrun

/-- With the locks free and the names distinct, a call does what it is to do exactly when it is
sound. -/
theorem RegOp.meets_iff (hfree : s.LocksFree) (h : s.NamesDistinct) (op : RegOp ν) :
    op.Meets s ↔ op.Sound s := by
  cases op with
  | register driver => exact register_meets_iff hfree h driver
  | unregister driver => exact unregister_meets_iff hfree h driver
  | search name => exact iff_of_true (search_meets hfree h name) trivial
  | attach driver name memory => exact attach_meets_iff hfree h driver name memory
  | detach driver name => exact iff_of_true (detach_meets hfree h driver name) trivial
  | openDevice name answer => exact iff_of_true (openDevice_meets hfree h name answer) trivial
  | enum offset => exact iff_of_true (enum_meets hfree h offset) trivial

end Steps

/-! ## Runs -/

section Runs

variable [DecidableEq ν]

def RegMove (s : Registry ν) (op : RegOp ν) (t : Registry ν) : Prop :=
  ∃ err, regStep s op = .ok (err, t)

/-- In every run of sound calls all locks are free after each call and all names distinct, and
a further call does what it is to do exactly when it is sound. -/
theorem regReachable_meets (name : ℕ → ν) (driver : ℕ → Driver) {s : Registry ν}
    (hreach : Reachable (fun s (op : RegOp ν) t => op.Sound s ∧ RegMove s op t)
      (registryStart name driver) s) :
    s.LocksFree ∧ s.NamesDistinct ∧ ∀ op : RegOp ν, op.Meets s ↔ op.Sound s := by
  have hinv : s.LocksFree ∧ s.NamesDistinct := by
    refine hreach.invariant (P := fun s => s.LocksFree ∧ s.NamesDistinct)
      ⟨⟨rfl, fun _ => rfl⟩, ⟨List.nodup_nil, fun _ => List.nodup_nil⟩⟩ ?_
    rintro s op t ⟨hfree, h⟩ ⟨hsound, err, hstep⟩
    obtain ⟨err', t', hstep', hfree', h', -⟩ := (op.meets_iff hfree h).mpr hsound
    rw [hstep] at hstep'
    cases hstep'
    exact ⟨hfree', h'⟩
  exact ⟨hinv.1, hinv.2, fun op => op.meets_iff hinv.1 hinv.2⟩

def uartRegistry : Registry String := registryStart (fun _ => "uart") fun _ => plainDriver

def uartRegistered : Registry String := { uartRegistry.setUnlinked 1 false with driverList := [1] }

/-- A device is attached to the driver: an attachment under a new name does what it is to
do. -/
theorem regReachable_meets_newName :
    ∃ s : Registry String,
      Reachable (fun s (op : RegOp String) t => op.Sound s ∧ RegMove s op t) uartRegistry s ∧
      s.driverList = [1] ∧ s.LocksFree ∧
      (RegOp.attach (some 1) (some "uart1") true).Meets s := by
  have hregister : regStep uartRegistry (.register (some 1)) = .ok (.eok, uartRegistered) := rfl
  have hattach : regStep uartRegistered (.attach (some 1) (some "uart0") true) = .ok (.eok, _) :=
    rfl
  have hnew : (RegOp.register (some 1)).Sound uartRegistry :=
    fun _ he => absurd he List.not_mem_nil
  have hname : (RegOp.attach (some 1) (some "uart0") true).Sound uartRegistered :=
    fun _ he => absurd he List.not_mem_nil
  have hreach : Reachable (fun s (op : RegOp String) t => op.Sound s ∧ RegMove s op t)
      uartRegistry _ := .tail (.tail .refl ⟨hnew, _, hregister⟩) ⟨hname, _, hattach⟩
  obtain ⟨hfree, -, hmeets⟩ := regReachable_meets (fun _ => "uart") (fun _ => plainDriver) hreach
  refine ⟨_, hreach, rfl, hfree, (hmeets _).mpr ?_⟩
  intro device hdevice
  obtain rfl := List.mem_singleton.mp hdevice
  decide

/-- A second driver of the same name is registered: the call returns with the lock of the list
taken, and a search after it never returns. -/
theorem exists_registry_locked :
    Reachable RegMove uartRegistry uartRegistered ∧ uartRegistered.LocksFree ∧
      ∃ t, regStep uartRegistered (.register (some 2)) = .ok (.eagain, t) ∧ ¬t.LocksFree ∧
        ¬(RegOp.register (some 2)).Meets uartRegistered ∧
        regStep t (.search (some "uart")) = .error .deadlock := by
  have hregister : regStep uartRegistry (.register (some 1)) = .ok (.eok, uartRegistered) := rfl
  have hreach : Reachable RegMove uartRegistry uartRegistered := .tail .refl ⟨_, hregister⟩
  have hfree : uartRegistry.LocksFree := ⟨rfl, fun _ => rfl⟩
  have hlinked := hfree.setUnlinked 1 false
  refine ⟨hreach, ⟨hlinked.driverLock, hlinked.locked⟩, _, rfl, fun h => ?_, fun hmeets => ?_, rfl⟩
  · cases h.driverLock
  · obtain ⟨err, t, hrun, hreleased, -⟩ := hmeets
    cases hrun
    cases hreleased.driverLock

end Runs

end Nxos.Io
