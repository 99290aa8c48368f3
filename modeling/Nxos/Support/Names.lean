import Mathlib.Data.List.Basic

/-!
# Walks along names

A walk in a tree is a list of steps: a step stays where it is, goes up, or goes down to a name.
The place that a walk reaches is the list of the names from the root on; above the root there is
nothing to go to.
-/

namespace Nxos.Names

variable {α : Type*} {here up : α → Prop} [DecidablePred here] [DecidablePred up]

def follow (here up : α → Prop) [DecidablePred here] [DecidablePred up] (place : List α)
    (step : α) : List α :=
  if here step then place else if up step then place.dropLast else place ++ [step]

def walk (here up : α → Prop) [DecidablePred here] [DecidablePred up] (place steps : List α) :
    List α :=
  steps.foldl (follow here up) place

def Plain (here up : α → Prop) (step : α) : Prop := ¬here step ∧ ¬up step

variable {place steps steps' : List α} {step : α}

theorem follow_here (hhere : here step) : follow here up place step = place := if_pos hhere

theorem follow_up (hhere : ¬here step) (hup : up step) :
    follow here up place step = place.dropLast := by
  rw [follow, if_neg hhere, if_pos hup]

theorem follow_plain (hstep : Plain here up step) : follow here up place step = place ++ [step] := by
  rw [follow, if_neg hstep.1, if_neg hstep.2]

@[simp] theorem walk_nil : walk here up place [] = place := rfl

@[simp] theorem walk_cons :
    walk here up place (step :: steps) = walk here up (follow here up place step) steps := rfl

theorem walk_append :
    walk here up place (steps ++ steps') = walk here up (walk here up place steps) steps' :=
  List.foldl_append

/-- Steps that all go down reach the place below. -/
theorem walk_plain (hsteps : ∀ step ∈ steps, Plain here up step) :
    walk here up place steps = place ++ steps := by
  induction steps generalizing place with
  | nil => rw [walk_nil, List.append_nil]
  | cons step steps ih =>
      rw [walk_cons, follow_plain (hsteps step List.mem_cons_self),
        ih fun step hmem => hsteps step (List.mem_cons_of_mem _ hmem), List.append_assoc,
        List.singleton_append]

/-- A step keeps what holds of the names of a place and of every step that goes down. -/
theorem follow_forall {P : α → Prop} (hplace : ∀ name ∈ place, P name)
    (hstep : Plain here up step → P step) : ∀ name ∈ follow here up place step, P name := by
  intro name hmem
  rw [follow] at hmem
  split at hmem
  · exact hplace name hmem
  · next hhere =>
    split at hmem
    · exact hplace name (List.dropLast_subset _ hmem)
    · next hup =>
      rcases List.mem_append.mp hmem with hmem | hmem
      · exact hplace name hmem
      · rw [List.mem_singleton.mp hmem]
        exact hstep ⟨hhere, hup⟩

theorem walk_forall {P : α → Prop} (hplace : ∀ name ∈ place, P name)
    (hsteps : ∀ step ∈ steps, Plain here up step → P step) :
    ∀ name ∈ walk here up place steps, P name := by
  induction steps generalizing place with
  | nil => exact hplace
  | cons step steps ih =>
      exact ih (follow_forall hplace (hsteps step List.mem_cons_self))
        fun step hmem => hsteps step (List.mem_cons_of_mem _ hmem)

end Nxos.Names
