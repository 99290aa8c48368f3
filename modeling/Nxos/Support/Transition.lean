import Mathlib.Order.Basic

/-!
# Runs of labelled transition relations

A component is described by a relation `move s a t`: in state `s` the operation
`a` may lead to `t`.  The states of all finite runs are the reachable ones, and
what one move preserves holds in each of them.
-/

namespace Nxos.Transition

variable {σ α : Type*}

/-- The states that finitely many moves reach from `start`. -/
inductive Reachable (move : σ → α → σ → Prop) (start : σ) : σ → Prop
  | refl : Reachable move start start
  | tail {s t : σ} {a : α} : Reachable move start s → move s a t → Reachable move start t

namespace Reachable

variable {move : σ → α → σ → Prop} {start s : σ}

/-- A property of the start that every move preserves holds in every reachable
state. -/
theorem invariant {P : σ → Prop} (hreach : Reachable move start s) (hstart : P start)
    (hmove : ∀ {s a t}, P s → move s a t → P t) : P s := by
  induction hreach with
  | refl => exact hstart
  | tail _ hstep ih => exact hmove ih hstep

theorem trans {t : σ} (hst : Reachable move s t) (hreach : Reachable move start s) :
    Reachable move start t := by
  induction hst with
  | refl => exact hreach
  | tail _ hstep ih => exact ih.tail hstep

theorem single {t : σ} {a : α} (h : move s a t) : Reachable move s t :=
  .tail .refl h

/-- Every state that a restricted relation reaches is reachable. -/
theorem mono {move' : σ → α → σ → Prop} (hmove : ∀ {s a t}, move s a t → move' s a t)
    (hreach : Reachable move start s) : Reachable move' start s := by
  induction hreach with
  | refl => exact .refl
  | tail _ hstep ih => exact ih.tail (hmove hstep)

/-- When finitely many moves of another relation match each move, what is reached is related to
something that the other relation reaches. -/
theorem simulated {τ β : Type*} {move' : τ → β → τ → Prop} {R : σ → τ → Prop} {start' : τ}
    (hreach : Reachable move start s) (hstart : R start start')
    (hmove : ∀ {s a t s'}, R s s' → move s a t → ∃ t', Reachable move' s' t' ∧ R t t') :
    ∃ s', Reachable move' start' s' ∧ R s s' := by
  induction hreach with
  | refl => exact ⟨start', .refl, hstart⟩
  | tail _ hstep ih =>
      obtain ⟨s', hs', hR⟩ := ih
      obtain ⟨t', ht', hR'⟩ := hmove hR hstep
      exact ⟨t', ht'.trans hs', hR'⟩

end Reachable

/-! ## Step functions -/

def perform (step : σ → α → Option σ) (s : σ) : List α → Option σ
  | [] => some s
  | a :: as => (step s a).bind fun t => perform step t as

theorem perform_concat (step : σ → α → Option σ) (s : σ) (as : List α) (a : α) :
    perform step s (as ++ [a]) = (perform step s as).bind fun t => step t a := by
  induction as generalizing s with
  | nil =>
      rw [List.nil_append, perform, perform, Option.bind_some]
      cases step s a <;> rfl
  | cons b as ih =>
      rw [List.cons_append, perform, perform, Option.bind_assoc]
      exact congrArg (step s b).bind (funext fun t => ih t)

/-- What a list of operations leads to is reachable. -/
theorem Reachable.of_perform {step : σ → α → Option σ} {move : σ → α → σ → Prop}
    (hmove : ∀ {s a t}, step s a = some t → move s a t) {as : List α} {s t : σ}
    (h : perform step s as = some t) : Reachable move s t := by
  induction as generalizing s with
  | nil =>
      cases h
      exact .refl
  | cons a as ih =>
      obtain ⟨u, hu, hrest⟩ := Option.bind_eq_some_iff.mp h
      exact (ih hrest).trans (.tail .refl (hmove hu))

end Nxos.Transition
