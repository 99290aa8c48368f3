import Mathlib.Algebra.GroupWithZero.Nat
import Mathlib.Data.List.Basic
import Mathlib.Data.List.Pairwise
import Mathlib.Data.List.Nodup

/-!
# Lists of separated intervals

Entries of an arbitrary type occupy half-open intervals `[lo a, hi a)` of natural
numbers.  A list is separated when its entries are non-empty and each ends before
the next begins.  Looking up a point then does not depend on the order of the
list, and inserting, removing, shrinking and joining entries keep it separated.
-/

namespace Nxos.Interval

variable {α κ : Type*} (lo hi : α → ℕ) (val : α → κ)

/-- `x` lies in the interval of `a`. -/
def Contains (a : α) (x : ℕ) : Prop :=
  lo a ≤ x ∧ x < hi a

instance (a : α) (x : ℕ) : Decidable (Contains lo hi a x) :=
  inferInstanceAs (Decidable (_ ∧ _))

/-- The entries are non-empty, and each lies before those behind it. -/
structure Separated (l : List α) : Prop where
  nonempty : ∀ a ∈ l, lo a < hi a
  ordered : l.Pairwise fun a b => hi a ≤ lo b

/-- The value of the first entry that contains `x`. -/
def lookup (l : List α) (x : ℕ) : Option κ :=
  (l.find? fun a => Contains lo hi a x).map val

variable {lo hi val}

theorem lookup_eq_none_iff {l : List α} {x : ℕ} :
    lookup lo hi val l x = none ↔ ∀ a ∈ l, ¬Contains lo hi a x := by
  simp [lookup]

namespace Separated

variable {l : List α}

theorem nil : Separated lo hi ([] : List α) :=
  ⟨by simp, List.Pairwise.nil⟩

theorem sublist (h : Separated lo hi l) {l' : List α} (hsub : l'.Sublist l) :
    Separated lo hi l' :=
  ⟨fun a ha => h.nonempty a (hsub.subset ha), h.ordered.sublist hsub⟩

/-- Of two different entries one lies before the other. -/
theorem apart (h : Separated lo hi l) {a b : α} (ha : a ∈ l) (hb : b ∈ l)
    (hne : a ≠ b) : hi a ≤ lo b ∨ hi b ≤ lo a := by
  have hpair : l.Pairwise fun a b => a ≠ b → hi a ≤ lo b ∨ hi b ≤ lo a :=
    h.ordered.imp fun hab _ => Or.inl hab
  have hsymm : Std.Symm fun a b : α => a ≠ b → hi a ≤ lo b ∨ hi b ≤ lo a :=
    ⟨fun a b hab hba => (hab hba.symm).symm⟩
  exact hpair.forall ha hb hne hne

/-- Two entries with a common point are the same entry. -/
theorem eq_of_contains (h : Separated lo hi l) {a b : α} {x : ℕ} (ha : a ∈ l)
    (hb : b ∈ l) (hax : Contains lo hi a x) (hbx : Contains lo hi b x) : a = b := by
  by_contra hne
  unfold Contains at hax hbx
  rcases h.apart ha hb hne with hab | hba <;> omega

theorem lookup_eq_some_iff (h : Separated lo hi l) {x : ℕ} {v : κ} :
    lookup lo hi val l x = some v ↔ ∃ a ∈ l, Contains lo hi a x ∧ val a = v := by
  unfold lookup
  constructor
  · intro hl
    obtain ⟨a, hfind, hv⟩ := Option.map_eq_some_iff.mp hl
    exact ⟨a, List.mem_of_find?_eq_some hfind,
      by simpa using List.find?_some hfind, hv⟩
  · rintro ⟨a, ha, hax, rfl⟩
    cases hfind : l.find? fun a => Contains lo hi a x with
    | none =>
        have hnone := List.find?_eq_none.mp hfind a ha
        exact absurd hax (by simpa using hnone)
    | some b =>
        have hb := List.mem_of_find?_eq_some hfind
        have hbx : Contains lo hi b x := by simpa using List.find?_some hfind
        rw [h.eq_of_contains ha hb hax hbx]
        rfl

/-- Separated lists that cover the same points with the same values have the same
lookup. -/
theorem lookup_congr (h : Separated lo hi l) {l' : List α} (h' : Separated lo hi l')
    {x y : ℕ}
    (hiff : ∀ v, (∃ a ∈ l, Contains lo hi a x ∧ val a = v) ↔
      ∃ a ∈ l', Contains lo hi a y ∧ val a = v) :
    lookup lo hi val l x = lookup lo hi val l' y := by
  apply Option.ext
  intro v
  rw [h.lookup_eq_some_iff, h'.lookup_eq_some_iff]
  exact hiff v

/-- An entry fits between the two parts of a separated list. -/
theorem insert {l₁ l₂ : List α} (h : Separated lo hi (l₁ ++ l₂)) {a : α}
    (ha : lo a < hi a) (hbefore : ∀ b ∈ l₁, hi b ≤ lo a)
    (hbehind : ∀ b ∈ l₂, hi a ≤ lo b) : Separated lo hi (l₁ ++ a :: l₂) := by
  constructor
  · intro b hb
    rcases List.mem_append.mp hb with hb | hb
    · exact h.nonempty b (List.mem_append_left _ hb)
    · rcases List.mem_cons.mp hb with rfl | hb
      · exact ha
      · exact h.nonempty b (List.mem_append_right _ hb)
  · obtain ⟨h₁, h₂, h₁₂⟩ := List.pairwise_append.mp h.ordered
    refine List.pairwise_append.mpr ⟨h₁, List.pairwise_cons.mpr ⟨hbehind, h₂⟩, ?_⟩
    intro b hb c hc
    rcases List.mem_cons.mp hc with rfl | hc
    · exact hbefore b hb
    · exact h₁₂ b hb c hc

/-- Changing entries one by one, where the order of any two is kept. -/
theorem map (h : Separated lo hi l) {f : α → α}
    (hne : ∀ a ∈ l, lo (f a) < hi (f a))
    (hord : ∀ a ∈ l, ∀ b ∈ l, a ≠ b → hi a ≤ lo b → hi (f a) ≤ lo (f b)) :
    Separated lo hi (l.map f) := by
  constructor
  · intro a ha
    obtain ⟨b, hb, rfl⟩ := List.mem_map.mp ha
    exact hne b hb
  · rw [List.pairwise_map]
    refine h.ordered.imp_of_mem ?_
    intro a b ha hb hab
    refine hord a ha b hb ?_ hab
    rintro rfl
    have := h.nonempty a ha
    omega

/-- The entries that end at or before `x` come first. -/
theorem lt_of_mem_dropWhile (h : Separated lo hi l) {x : ℕ} {b : α}
    (hb : b ∈ l.dropWhile fun a => decide (hi a ≤ x)) : x < hi b := by
  induction l with
  | nil => simp at hb
  | cons a l ih =>
      have htail : Separated lo hi l := h.sublist (List.sublist_cons_self a l)
      by_cases ha : hi a ≤ x
      · rw [List.dropWhile_cons_of_pos (by simpa using ha)] at hb
        exact ih htail hb
      · rw [List.dropWhile_cons_of_neg (by simpa using ha)] at hb
        rcases List.mem_cons.mp hb with rfl | hb
        · omega
        · have hord := (List.pairwise_cons.mp h.ordered).1 b hb
          have := htail.nonempty b hb
          omega

end Separated

variable (lo hi) in
/-- Entries without common points have no more points than the range that they lie in. -/
theorem sum_length_le {l : List α} {first last : ℕ}
    (hdisjoint : l.Pairwise fun a b => ∀ x, Contains lo hi a x → ¬Contains lo hi b x)
    (hin : ∀ a ∈ l, first ≤ lo a ∧ hi a ≤ last) :
    (l.map fun a => hi a - lo a).sum ≤ last - first := by
  have hnodup : (l.flatMap fun a => List.range' (lo a) (hi a - lo a)).Nodup := by
    rw [List.nodup_flatMap]
    refine ⟨fun a _ => List.nodup_range', hdisjoint.imp fun {a b} hab => ?_⟩
    intro x hx hx'
    rw [List.mem_range'_1] at hx hx'
    exact hab x ⟨hx.1, by omega⟩ ⟨hx'.1, by omega⟩
  have hsubset : (l.flatMap fun a => List.range' (lo a) (hi a - lo a)) ⊆
      List.range' first (last - first) := by
    intro x hx
    obtain ⟨a, ha, hx⟩ := List.mem_flatMap.mp hx
    have hbounds := hin a ha
    rw [List.mem_range'_1] at hx ⊢
    omega
  have hlength := hnodup.length_le_of_subset hsubset
  rw [List.length_flatMap, List.length_range'] at hlength
  simpa using hlength

end Nxos.Interval
