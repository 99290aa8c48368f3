import Mathlib.Tactic.Ring

/-!
# Faults and error codes of the kernel

Every modelled function is a total Lean function.  Fallible C code returns an
`NxError` (`base/error.h`) as a value.  Code that stops the kernel or leaves the
language's defined behaviour does not return at all; such executions end in a
`Fault`, and functions in which one is possible live in `Exec`.
-/

namespace Nxos

/-- `enum NX_Error` of `base/error.h`, without the counting member. -/
inductive NxError where
  | eok
  | error
  | eperm
  | einval
  | etimeout
  | efault
  | enores
  | eagain
  | eintr
  | enomem
  | enofunc
  | enosrch
  | eio
  | ebusy
  deriving DecidableEq, Repr

/-- Ways in which an execution stops without returning. -/
inductive Fault where
  /-- `NX_ASSERT` failed: `NX_DebugAssertionFailure` spins forever. -/
  | assertion
  /-- `NX_PANIC` was reached. -/
  | panic
  /-- An array was indexed outside its bounds. -/
  | outOfBounds
  /-- A null pointer was dereferenced. -/
  | nullDeref
  /-- An integer was divided by zero. -/
  | divideByZero
  /-- A loop did not end within the rounds that the model gives it. -/
  | diverge
  /-- A spin lock was taken by the core that holds it. -/
  | deadlock
  deriving DecidableEq, Repr

/-- A computation of the kernel that returns or faults. -/
abbrev Exec (α : Type) := Except Fault α

/-- `NX_ASSERT`, as compiled with `CONFIG_NX_DEBUG` (the default of every
platform). -/
def nxAssert (p : Prop) [Decidable p] : Exec Unit :=
  if p then .ok () else .error .assertion

theorem nxAssert_pos {p : Prop} [Decidable p] (hp : p) : nxAssert p = .ok () :=
  if_pos hp

theorem nxAssert_neg {p : Prop} [Decidable p] (hp : ¬p) : nxAssert p = .error .assertion :=
  if_neg hp

theorem nxAssert_eq_ok_iff {p : Prop} [Decidable p] :
    nxAssert p = .ok () ↔ p := by
  unfold nxAssert
  split <;> simp_all

/-- A sequence returns exactly when both parts do. -/
theorem exec_bind_eq_ok_iff {α β : Type} {x : Exec α} {f : α → Exec β} {b : β} :
    (x >>= f) = .ok b ↔ ∃ a, x = .ok a ∧ f a = .ok b := by
  cases x with
  | error e => simp [bind, Except.bind]
  | ok a => simp [bind, Except.bind]

theorem exec_map_ok {α β : Type} (f : α → β) (a : α) :
    Except.map f (.ok a : Exec α) = .ok (f a) :=
  rfl

theorem exec_map_eq_ok_iff {α β : Type} {x : Exec α} {f : α → β} {b : β} :
    x.map f = .ok b ↔ ∃ a, x = .ok a ∧ f a = b := by
  cases x with
  | error e => simp [Except.map]
  | ok a => simp [Except.map]

theorem toOption_eq_some {α : Type} {x : Exec α} {a : α} (h : x.toOption = some a) :
    x = .ok a := by
  cases x with
  | error e => cases h
  | ok b =>
      cases h
      rfl

@[simp] theorem exec_ok_bind {α β : Type} (a : α) (f : α → Exec β) :
    ((Except.ok a : Exec α) >>= f) = f a := rfl

@[simp] theorem exec_error_bind {α β : Type} (e : Fault) (f : α → Exec β) :
    ((Except.error e : Exec α) >>= f) = .error e := rfl

@[simp] theorem exec_pure {α : Type} (a : α) : (pure a : Exec α) = .ok a := rfl

end Nxos
