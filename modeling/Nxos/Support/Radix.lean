import Mathlib.Data.List.Infix
import Mathlib.Logic.Function.Basic

/-!
# Tables that refer to tables

A radix table is a graph of nodes, each with an entry for every index; a path of
indices is followed from the root, entry by entry.  The paths shorter than `depth`
end in tables.  As long as different short paths end in different tables, one
written entry changes exactly the paths that go through it.
-/

namespace Nxos.Radix

variable {α ι : Type*}

def follow (next : α → ι → Option α) : α → List ι → Option α
  | t, [] => some t
  | t, i :: p => (next t i).bind fun u => follow next u p

theorem follow_append (next : α → ι → Option α) (t : α) (p q : List ι) :
    follow next t (p ++ q) = (follow next t p).bind fun u => follow next u q := by
  induction p generalizing t with
  | nil => rfl
  | cons i p ih =>
      rw [List.cons_append, follow, follow]
      cases next t i with
      | none => rfl
      | some u => exact ih u

theorem follow_concat (next : α → ι → Option α) (t : α) (p : List ι) (i : ι) :
    follow next t (p ++ [i]) = (follow next t p).bind fun u => next u i := by
  rw [follow_append]
  cases follow next t p with
  | none => rfl
  | some u => simp [follow]

/-- The node is a table: a path shorter than `depth` ends in it. -/
def IsTable (next : α → ι → Option α) (root : α) (depth : ℕ) (t : α) : Prop :=
  ∃ p : List ι, p.length < depth ∧ follow next root p = some t

def Distinct (next : α → ι → Option α) (root : α) (depth : ℕ) : Prop :=
  ∀ {p q : List ι} {t : α}, p.length < depth → q.length < depth →
    follow next root p = some t → follow next root q = some t → p = q

section Update

variable [DecidableEq α] [DecidableEq ι] {next next' : α → ι → Option α} {root t : α}
  {depth : ℕ} {p q : List ι} {i : ι}

def setEntry (next : α → ι → Option α) (t : α) (i : ι) (x : Option α) : α → ι → Option α :=
  fun s k => if s = t ∧ k = i then x else next s k

omit [DecidableEq α] [DecidableEq ι] in
/-- Two graphs with the same entries along a path. -/
theorem follow_congr (h : ∀ r k, r ++ [k] <+: q → ∀ s, follow next root r = some s →
    next' s k = next s k) : follow next' root q = follow next root q := by
  induction q using List.reverseRecOn with
  | nil => rfl
  | append_singleton q k ih =>
      have hq : follow next' root q = follow next root q :=
        ih fun r j hr s hs => h r j (hr.trans (List.prefix_append _ _)) s hs
      rw [follow_concat, follow_concat, hq]
      cases hs : follow next root q with
      | none => rfl
      | some s => exact h q k List.prefix_rfl s hs

omit [DecidableEq α] [DecidableEq ι] in
/-- Entries of nodes that are no tables do not matter. -/
theorem follow_congr_tables (h : ∀ s, IsTable next root depth s → next' s = next s)
    (hq : q.length ≤ depth) : follow next' root q = follow next root q := by
  refine follow_congr fun r k hr s hs => ?_
  have hlen := hr.length_le
  rw [List.length_append, List.length_singleton] at hlen
  rw [h s ⟨r, by omega, hs⟩]

/-- A path that does not go through the written entry. -/
theorem follow_setEntry_of_not_prefix (hd : Distinct next root depth) (hp : p.length < depth)
    (ht : follow next root p = some t) (hq : q.length ≤ depth) (x : Option α)
    (hnot : ¬p ++ [i] <+: q) :
    follow (setEntry next t i x) root q = follow next root q := by
  refine follow_congr fun r k hr s hs => ?_
  unfold setEntry
  rw [if_neg]
  rintro ⟨rfl, rfl⟩
  have hlen := hr.length_le
  rw [List.length_append, List.length_singleton] at hlen
  rw [hd (by omega) hp hs ht] at hr
  exact hnot hr

/-- The written entry itself. -/
theorem follow_setEntry_self (hd : Distinct next root depth) (hp : p.length < depth)
    (ht : follow next root p = some t) (x : Option α) :
    follow (setEntry next t i x) root (p ++ [i]) = x := by
  have hnot : ¬p ++ [i] <+: p := by
    intro hpre
    have hlen := hpre.length_le
    rw [List.length_append, List.length_singleton] at hlen
    omega
  rw [follow_concat, follow_setEntry_of_not_prefix hd hp ht (Nat.le_of_lt hp) x hnot, ht]
  exact if_pos ⟨rfl, rfl⟩

/-- Entries of the last tables lead out of the tables: writing one changes no table. -/
theorem follow_setEntry_last (hd : Distinct next root depth) (hp : p.length + 1 = depth)
    (ht : follow next root p = some t) (x : Option α) (hq : q.length < depth) :
    follow (setEntry next t i x) root q = follow next root q := by
  refine follow_setEntry_of_not_prefix hd (by omega) ht (by omega) x ?_
  intro hpre
  have hlen := hpre.length_le
  rw [List.length_append, List.length_singleton] at hlen
  omega

theorem Distinct.setEntry_last (hd : Distinct next root depth) (hp : p.length + 1 = depth)
    (ht : follow next root p = some t) (x : Option α) :
    Distinct (setEntry next t i x) root depth := by
  intro q r s hq hr hqs hrs
  rw [follow_setEntry_last hd hp ht x hq] at hqs
  rw [follow_setEntry_last hd hp ht x hr] at hrs
  exact hd hq hr hqs hrs

/-- An entry that was empty gets a new empty table: the paths of full length stay as
they were. -/
theorem follow_setEntry_new (hd : Distinct next root depth) (hp : p.length + 1 < depth)
    (ht : follow next root p = some t) (hnone : next t i = none) {u : α}
    (hut : u ≠ t) (hempty : ∀ k, next u k = none) (hq : q.length ≤ depth)
    (hne : q ≠ p ++ [i]) :
    follow (setEntry next t i (some u)) root q = follow next root q := by
  by_cases hpre : p ++ [i] <+: q
  · obtain ⟨r, rfl⟩ := hpre
    cases r with
    | nil =>
        rw [List.append_nil] at hne
        exact absurd rfl hne
    | cons k r =>
        have hlast : setEntry next t i (some u) u k = none := by
          unfold setEntry
          rw [if_neg fun h => hut h.1]
          exact hempty k
        rw [follow_append, follow_setEntry_self hd (by omega) ht, follow_append, follow_concat, ht]
        simp [follow, hnone, hlast]
  · exact follow_setEntry_of_not_prefix hd (by omega) ht hq _ hpre

theorem Distinct.setEntry_new (hd : Distinct next root depth) (hp : p.length + 1 < depth)
    (ht : follow next root p = some t) (hnone : next t i = none) {u : α}
    (hu : ¬IsTable next root depth u) (hempty : ∀ k, next u k = none) :
    Distinct (setEntry next t i (some u)) root depth := by
  have hut : u ≠ t := by
    rintro rfl
    exact hu ⟨p, by omega, ht⟩
  have hself := follow_setEntry_self (i := i) hd (by omega) ht (some u)
  intro q r s hq hr hqs hrs
  by_cases hqn : q = p ++ [i] <;> by_cases hrn : r = p ++ [i]
  · rw [hqn, hrn]
  · rw [hqn, hself] at hqs
    rw [follow_setEntry_new hd hp ht hnone hut hempty (by omega) hrn] at hrs
    cases hqs
    exact absurd ⟨r, hr, hrs⟩ hu
  · rw [hrn, hself] at hrs
    rw [follow_setEntry_new hd hp ht hnone hut hempty (by omega) hqn] at hqs
    cases hrs
    exact absurd ⟨q, hq, hqs⟩ hu
  · rw [follow_setEntry_new hd hp ht hnone hut hempty (by omega) hqn] at hqs
    rw [follow_setEntry_new hd hp ht hnone hut hempty (by omega) hrn] at hrs
    exact hd hq hr hqs hrs

end Update

end Nxos.Radix
