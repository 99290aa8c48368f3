import Nxos.Base.Kernel
import Mathlib.Data.Fintype.Basic
import Mathlib.Logic.Function.Basic
import Mathlib.Data.List.Basic

/-!
# Exposed objects

The embedding of `kernel/exobj.c`: the table of the objects that a process holds, each with a
type and a handler that closes it.  A table is a field of its process, and no caller passes
the null pointer for it.

A slot is closed by the handler of slot `0`, whatever the slot is.
-/

namespace Nxos.Slots

/-! ## Data -/

/-- `NX_EXOBJ_MAX_NR` -/
def exobjMaxNr : ℕ := 128

/-- `NX_EXOBJ_DEFAULT_NR` -/
def exobjDefaultNr : ℕ := 32

/-- `NX_ExposedObjectType`. -/
inductive ExposedObjectType where
  | none
  | porcess
  | thread
  | snapshot
  | mutex
  | semaphore
  | device
  deriving DecidableEq, Repr

/-- `NX_ExposedObject`, with the handlers in `η`.  The null pointer is `0`. -/
structure ExposedObject (η : Type) where
  object : ℕ
  type : ExposedObjectType
  close : Option η
  deriving DecidableEq

def ExposedObject.cleared {η : Type} : ExposedObject η := ⟨0, .none, none⟩

/-- `NX_ExposedObjectTable`, of the sizes that `NX_ExposedObjectTableInit` accepts. -/
structure ExposedObjectTable (η : Type) where
  objectCount : ℕ
  objects : Option (ℕ → ExposedObject η)
  positive : 0 < objectCount
  bounded : objectCount ≤ exobjMaxNr

/-- `NX_Solt` as an index, after the conversion to `NX_Size`. -/
def soltIndex (solt : BitVec 32) : ℕ := (solt.signExtend 64).toNat

section Table

variable {η : Type}

def ExposedObjectTable.set (table : ExposedObjectTable η) (i : ℕ) (exobj : ExposedObject η) :
    ExposedObjectTable η :=
  { table with objects := table.objects.map fun objects => Function.update objects i exobj }

/-- `NX_ExposedObjectTableInit`, where `NX_MemAlloc` has memory or has not. -/
def exposedObjectTableInit (η : Type) (count : ℕ) (memory : Bool) :
    Except NxError (ExposedObjectTable η) :=
  if h : count = 0 ∨ exobjMaxNr < count then .error .einval
  else if memory = false then .error .enomem
  else .ok
    { objectCount := count
      objects := some fun _ => .cleared
      positive := Nat.pos_of_ne_zero fun hzero => h (.inl hzero)
      bounded := Nat.le_of_not_lt fun hlarge => h (.inr hlarge) }

/-- `NX_ExposedObjectAlloc`: the first empty slot. -/
def exposedObjectAlloc (objectCount : ℕ) (objects : ℕ → ExposedObject η) : Option ℕ :=
  (List.range objectCount).find? fun i => (objects i).object = 0

/-- `NX_ExposedObjectGet`. -/
def exposedObjectGet (table : ExposedObjectTable η) (solt : BitVec 32) :
    Option (ExposedObject η) :=
  if soltIndex solt < table.objectCount then
    table.objects.map fun objects => objects (soltIndex solt)
  else none

/-- `NX_ExposedObjectLocate`. -/
def exposedObjectLocate (table : ExposedObjectTable η) (object : ℕ) (type : ExposedObjectType) :
    Option ℕ :=
  if object = 0 then none
  else
    table.objects.bind fun objects =>
      (List.range table.objectCount).find? fun i =>
        (objects i).object = object ∧ (objects i).type = type

/-- `NX_ExposedObjectInstall`. -/
def exposedObjectInstall (table : ExposedObjectTable η) (object : ℕ) (type : ExposedObjectType)
    (handler : Option η) : Except NxError (ℕ × ExposedObjectTable η) :=
  match table.objects with
  | none => .error .efault
  | some objects =>
      match exposedObjectAlloc table.objectCount objects with
      | none => .error .enores
      | some i => .ok (i, table.set i ⟨object, type, handler⟩)

end Table

/-! ## Closing -/

structure CloseCall (η : Type) where
  handler : η
  object : ℕ
  type : ExposedObjectType
  deriving DecidableEq

/-- What a handler does to the memory `ω`, and the code that it returns. -/
abbrev SoltCloseHandlers (η ω : Type) := CloseCall η → ω → NxError × ω

/-- A table and the memory of its objects, with the calls of the handlers so far. -/
structure SlotState (η ω : Type) where
  table : ExposedObjectTable η
  world : ω
  calls : List (CloseCall η)

section Closing

variable {η ω : Type} (close : SoltCloseHandlers η ω)

def callClose (call : CloseCall η) (s : SlotState η ω) : NxError × SlotState η ω :=
  let (err, world) := close call s.world
  (err, { s with world := world, calls := s.calls ++ [call] })

/-- The end of `NX_ExposedObjectUninstalll`, under the lock. -/
def clearSolt (i : ℕ) (s : SlotState η ω) : SlotState η ω :=
  { s with table := s.table.set i .cleared }

/-- `NX_ExposedObjectUninstalll`.  The object and the handler are read from slot `0`. -/
def exposedObjectUninstalllAt (i : ℕ) (s : SlotState η ω) : NxError × SlotState η ω :=
  match s.table.objects with
  | none => (.efault, s)
  | some objects =>
      if s.table.objectCount ≤ i then (.einval, s)
      else if (objects 0).object = 0 then (.efault, s)
      else
        match (objects 0).close with
        | none => (.eok, clearSolt i s)
        | some handler =>
            let (err, s) := callClose close ⟨handler, (objects 0).object, (objects 0).type⟩ s
            if err ≠ .eok then (err, s) else (.eok, clearSolt i s)

/-- `NX_ExposedObjectUninstalll`, with the number that the caller passes. -/
def exposedObjectUninstalll (solt : BitVec 32) (s : SlotState η ω) :
    NxError × SlotState η ω :=
  exposedObjectUninstalllAt close (soltIndex solt) s

/-- `NX_ExposedObjectTableExit`, up to the release of the array. -/
def exposedObjectTableExit (s : SlotState η ω) : SlotState η ω :=
  (List.range s.table.objectCount).foldl
    (fun s i => (exposedObjectUninstalllAt close i s).2) s

end Closing

end Nxos.Slots
