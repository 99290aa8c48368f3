import Mathlib.Data.List.Basic

/-!
# Segments between delimiters

The segments of a list are its longest parts without the delimiter, in order and without the
empty ones.  Joining non-empty delimiter-free lists with the delimiter is undone by them.
-/

namespace Nxos.Segments

variable {α : Type*} [DecidableEq α]

/-- The non-empty parts of a list between delimiters. -/
def segments (d : α) (s : List α) : List (List α) := (s.splitOn d).filter fun l => !l.isEmpty

variable {d : α} {s t : List α} {ls : List (List α)}

@[simp] theorem segments_nil : segments d [] = [] := by
  simp [segments]

/-- A leading delimiter separates nothing. -/
@[simp] theorem segments_cons_self : segments d (d :: s) = segments d s := by
  simp [segments, List.splitOn_cons_eq_if_modifyHead]

@[simp] theorem segments_replicate_append (k : ℕ) :
    segments d (List.replicate k d ++ s) = segments d s := by
  induction k with
  | zero => simp
  | succ k ih => rw [List.replicate_succ, List.cons_append, segments_cons_self, ih]

@[simp] theorem segments_replicate (k : ℕ) : segments d (List.replicate k d) = [] := by
  have h := segments_replicate_append (d := d) (s := []) k
  rwa [List.append_nil, segments_nil] at h

theorem segments_of_not_mem (hs : s ≠ []) (hd : d ∉ s) : segments d s = [s] := by
  simp [segments, List.splitOn_eq_singleton hd, hs]

/-- A segment ends at the next delimiter. -/
theorem segments_append_cons (hs : s ≠ []) (hd : d ∉ s) :
    segments d (s ++ d :: t) = s :: segments d t := by
  simp [segments, List.splitOn_append_cons_self_of_not_mem hd, hs]

/-- The first segment, with the delimiters around it. -/
theorem segments_first (hs : s ≠ []) (hd : d ∉ s) (k j : ℕ) :
    segments d (List.replicate k d ++ (s ++ (List.replicate (j + 1) d ++ t))) =
      s :: segments d t := by
  rw [segments_replicate_append, List.replicate_succ, List.cons_append,
    segments_append_cons hs hd, segments_replicate_append]

/-- Segments joined with the delimiter are read back. -/
theorem segments_intercalate (hls : ∀ l ∈ ls, l ≠ [] ∧ d ∉ l) :
    segments d ([d].intercalate ls) = ls := by
  by_cases hnil : ls = []
  · subst hnil
    simp
  · have hkeep : ∀ l ∈ ls, (!l.isEmpty) = true := by
      intro l hl
      simpa using (hls l hl).1
    rw [segments, List.splitOn_intercalate d (fun l hl => (hls l hl).2) hnil,
      List.filter_eq_self.mpr hkeep]

omit [DecidableEq α] in
/-- Joining adds no character but the delimiter. -/
theorem mem_of_mem_intercalate {c : α} (hc : c ∈ [d].intercalate ls) (hcd : c ≠ d) :
    ∃ l ∈ ls, c ∈ l := by
  induction ls with
  | nil => simp at hc
  | cons l ls ih =>
      cases ls with
      | nil =>
          rw [List.intercalate_singleton] at hc
          exact ⟨l, List.mem_cons_self, hc⟩
      | cons l' ls =>
          rw [List.intercalate_cons_cons, List.append_assoc, List.mem_append, List.mem_append,
            List.mem_singleton] at hc
          rcases hc with hl | rfl | hrest
          · exact ⟨l, List.mem_cons_self, hl⟩
          · exact absurd rfl hcd
          · obtain ⟨l'', hmem, hin⟩ := ih hrest
            exact ⟨l'', List.mem_cons_of_mem _ hmem, hin⟩

/-- A list is a run of delimiters and something that does not begin with one. -/
theorem exists_leading (d : α) (s : List α) :
    ∃ k t, s = List.replicate k d ++ t ∧ t.head? ≠ some d := by
  refine ⟨(s.takeWhile (· == d)).length, s.dropWhile (· == d), ?_, ?_⟩
  · have hrun : s.takeWhile (· == d) = List.replicate (s.takeWhile (· == d)).length d := by
      rw [List.eq_replicate_iff]
      refine ⟨rfl, fun c hc => ?_⟩
      simpa using List.all_eq_true.mp List.all_takeWhile c hc
    rw [← hrun, List.takeWhile_append_dropWhile]
  · intro hhead
    have hnot := List.head?_dropWhile_not (· == d) s
    rw [hhead] at hnot
    simp at hnot

/-- Around the first segment: the delimiters before it, the run of delimiters that ends it and
what follows.  Without such a run nothing follows. -/
theorem exists_first_segment (hs : ∃ c ∈ s, c ≠ d) :
    ∃ k seg j t, seg ≠ [] ∧ d ∉ seg ∧ t.head? ≠ some d ∧ (j = 0 → t = []) ∧
      s = List.replicate k d ++ (seg ++ (List.replicate j d ++ t)) := by
  obtain ⟨k, u, rfl, hu⟩ := exists_leading d s
  have hune : u ≠ [] := by
    rintro rfl
    obtain ⟨c, hc, hcd⟩ := hs
    rw [List.append_nil] at hc
    exact hcd (List.eq_of_mem_replicate hc)
  have hsplit : u.takeWhile (· != d) ++ u.dropWhile (· != d) = u := List.takeWhile_append_dropWhile
  obtain ⟨j, t, htail, ht⟩ := exists_leading d (u.dropWhile (· != d))
  refine ⟨k, u.takeWhile (· != d), j, t, ?_, ?_, ht, ?_, ?_⟩
  · obtain ⟨c, v, rfl⟩ := List.exists_cons_of_ne_nil hune
    have hc : c ≠ d := by simpa using hu
    simp [hc]
  · intro hmem
    simpa using List.all_eq_true.mp List.all_takeWhile d hmem
  · -- what is left after the segment is empty or begins with a delimiter
    rintro rfl
    have hnot := List.head?_dropWhile_not (· != d) u
    rw [htail, List.replicate_zero, List.nil_append] at hnot
    cases t with
    | nil => rfl
    | cons c t => simp_all
  · rw [← htail, hsplit]

theorem segments_eq_nil_iff : segments d s = [] ↔ s = List.replicate s.length d := by
  constructor
  · intro hnil
    rw [List.eq_replicate_iff]
    refine ⟨rfl, fun c hc => ?_⟩
    by_contra hcd
    have hs : ∃ c ∈ s, c ≠ d := ⟨c, hc, hcd⟩
    obtain ⟨k, seg, j, t, hseg, hd, -, hj, rfl⟩ := exists_first_segment hs
    rw [segments_replicate_append] at hnil
    cases j with
    | zero =>
        rw [hj rfl] at hnil
        simp [segments_of_not_mem hseg hd] at hnil
    | succ j =>
        rw [List.replicate_succ, List.cons_append, segments_append_cons hseg hd] at hnil
        exact absurd hnil (List.cons_ne_nil _ _)
  · intro hall
    rw [hall]
    exact segments_replicate _

theorem exists_ne_of_segments_ne_nil (hs : segments d s ≠ []) : ∃ c ∈ s, c ≠ d := by
  by_contra hnone
  refine hs (segments_eq_nil_iff.mpr (List.eq_replicate_iff.mpr ⟨rfl, fun c hc => ?_⟩))
  by_contra hcd
  exact hnone ⟨c, hc, hcd⟩

end Nxos.Segments
