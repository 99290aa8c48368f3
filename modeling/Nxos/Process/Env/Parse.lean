import Nxos.Process.Env.Model

/-!
# What is read from an argument line

Every round of the loop of `__ParseLine` takes one segment.  The loop ends in three ways: with a
segment that no delimiter follows, at the terminator behind a run of delimiters, or with the last
round.  Only the first one terminates the array at the entry that follows the arguments.
-/

namespace Nxos.Process

open Nxos.Fs Nxos.Segments

def Admissible (d : BitVec 8) (seg : Str) : Prop := d = envDelimiter → seg.head? = some slash

section Rounds

variable {d c : BitVec 8} {pre seg rest : Str} {rounds argc : ℕ} {stores : List ArgStore}

private theorem read_segment (pre rest : Str) (hd : d ≠ 0) (hseg : seg ≠ []) (h0 : 0 ∉ seg)
    (hmem : d ∉ seg) (hadm : Admissible d seg) (k : ℕ) :
    ∃ first x, charAt (pre ++ (List.replicate k d ++ (seg ++ rest))) pre.length = .ok first ∧
      first ≠ 0 ∧
      skipDelimiter d (pre ++ (List.replicate k d ++ (seg ++ rest))) pre.length =
        .ok (pre.length + k) ∧
      charAt (pre ++ (List.replicate k d ++ (seg ++ rest))) (pre.length + k) = .ok x ∧
      ¬(d = envDelimiter ∧ x ≠ slash) := by
  obtain ⟨x, tail, rfl⟩ := List.exists_cons_of_ne_nil hseg
  have hx : x ≠ 0 := fun h => h0 (h ▸ List.mem_cons_self)
  have hxd : x ≠ d := fun h => hmem (h ▸ List.mem_cons_self)
  have hread := charAt_append (pre ++ List.replicate k d) (tail ++ rest) x
  rw [List.append_assoc, List.length_append, List.length_replicate] at hread
  have hskip := skipDelimiter_append pre (tail ++ rest) k hxd
  have hslash : ¬(d = envDelimiter ∧ x ≠ slash) := by
    rintro ⟨henv, hne⟩
    exact hne (Option.some.inj (hadm henv))
  rw [List.cons_append]
  cases k with
  | zero => exact ⟨x, x, charAt_append pre _ x, hx, hskip, hread, hslash⟩
  | succ k =>
      refine ⟨d, x, ?_, hd, hskip, hread, hslash⟩
      rw [List.replicate_succ, List.cons_append]
      exact charAt_append pre _ d

theorem parseLoop_last (hd : d ≠ 0) (hseg : seg ≠ []) (h0 : 0 ∉ seg) (hmem : d ∉ seg)
    (hadm : Admissible d seg) (k : ℕ) :
    parseLoop d (rounds + 1) argc pre.length
        (pre ++ (List.replicate k d ++ (seg ++ 0 :: rest))) stores =
      .ok ⟨argc + 1, pre ++ (List.replicate k d ++ (seg ++ 0 :: rest)),
        stores ++ [⟨argc, some (pre.length + k)⟩, ⟨argc + 1, none⟩]⟩ := by
  obtain ⟨first, x, hfirst, hne, hskip, hread, hslash⟩ :=
    read_segment pre (0 :: rest) hd hseg h0 hmem hadm k
  have hchr := strChr_append (pre ++ List.replicate k d) rest (c := 0) h0 hmem (Or.inr rfl)
  rw [List.append_assoc, List.length_append, List.length_replicate, if_neg (Ne.symm hd)] at hchr
  rw [parseLoop, hfirst, exec_ok_bind, if_neg hne, hskip, exec_ok_bind, hread, exec_ok_bind,
    if_neg hslash, hchr]
  rfl

theorem parseLoop_round (pre rest : Str) (stores : List ArgStore) (rounds argc : ℕ) (hd : d ≠ 0)
    (hseg : seg ≠ []) (h0 : 0 ∉ seg) (hmem : d ∉ seg) (hadm : Admissible d seg) (hc : c ≠ d)
    (k j : ℕ) :
    parseLoop d (rounds + 1) argc pre.length
        (pre ++ (List.replicate k d ++ (seg ++ (List.replicate (j + 1) d ++ c :: rest)))) stores =
      parseLoop d rounds (argc + 1) (pre.length + k + seg.length + (j + 1))
        (pre ++ (List.replicate k d ++ (seg ++ (List.replicate (j + 1) 0 ++ c :: rest))))
        (stores ++ [⟨argc, some (pre.length + k)⟩]) := by
  obtain ⟨first, x, hfirst, hne, hskip, hread, hslash⟩ :=
    read_segment pre (List.replicate (j + 1) d ++ c :: rest) hd hseg h0 hmem hadm k
  have hchr := strChr_append (pre ++ List.replicate k d) (List.replicate j d ++ c :: rest)
    (c := d) h0 hmem (Or.inl rfl)
  have hclear := clearDelimiter_append (pre ++ (List.replicate k d ++ seg)) rest (j + 1) hc
  simp only [List.append_assoc, List.length_append, List.length_replicate, if_true,
    ← Nat.add_assoc] at hchr hclear
  rw [parseLoop, hfirst, exec_ok_bind, if_neg hne, hskip, exec_ok_bind, hread, exec_ok_bind,
    if_neg hslash, List.replicate_succ, List.cons_append, hchr, exec_ok_bind,
    ← List.cons_append, ← List.replicate_succ]
  simp only [hclear, exec_ok_bind]
  rfl

end Rounds

/-! ## The stores of a run -/

def argStores : ℕ → List ℕ → List ArgStore
  | _, [] => []
  | argc, p :: ptrs => ⟨argc, some p⟩ :: argStores (argc + 1) ptrs

theorem storeArgs_append (array : ℕ → Option ℕ) (stores stores' : List ArgStore) :
    storeArgs array (stores ++ stores') = storeArgs (storeArgs array stores) stores' :=
  List.foldl_append

theorem index_argStores {argc : ℕ} {ptrs : List ℕ} {store : ArgStore}
    (h : store ∈ argStores argc ptrs) : store.index < argc + ptrs.length := by
  induction ptrs generalizing argc with
  | nil => cases h
  | cons p ptrs ih =>
      rw [List.length_cons]
      rcases List.mem_cons.mp h with rfl | htail
      · exact Nat.lt_add_of_pos_right (Nat.succ_pos _)
      · have hlt := ih htail
        omega

theorem storeArgs_argStores (array : ℕ → Option ℕ) (argc : ℕ) (ptrs : List ℕ) (i : ℕ) :
    storeArgs array (argStores argc ptrs) i =
      if argc ≤ i ∧ i < argc + ptrs.length then ptrs[i - argc]? else array i := by
  induction ptrs generalizing array argc with
  | nil =>
      rw [List.length_nil, if_neg (by omega)]
      rfl
  | cons p ptrs ih =>
      have hstep : storeArgs array (argStores argc (p :: ptrs)) =
          storeArgs (Function.update array argc (some p)) (argStores (argc + 1) ptrs) := rfl
      rw [hstep, ih, List.length_cons]
      by_cases hi : i = argc
      · subst hi
        rw [if_neg (by omega), Function.update_self, if_pos (by omega), Nat.sub_self]
        rfl
      · rw [Function.update_of_ne hi]
        by_cases hin : argc + 1 ≤ i ∧ i < argc + 1 + ptrs.length
        · obtain ⟨n, rfl⟩ := Nat.exists_eq_add_of_le hin.1
          have hsub : argc + 1 + n - argc = n + 1 := by omega
          rw [if_pos hin, if_pos (by omega), hsub, Nat.add_sub_cancel_left]
          rfl
        · rw [if_neg hin, if_neg (by omega)]

/-! ## A run of the loop -/

/-- The line ends with its last segment, and a round is left for each segment. -/
def EndsWithSegment (d : BitVec 8) (rounds : ℕ) (s : Str) : Prop :=
  s ≠ [] ∧ s.getLast? ≠ some d ∧ (segments d s).length ≤ rounds

instance (d : BitVec 8) (rounds : ℕ) (s : Str) : Decidable (EndsWithSegment d rounds s) :=
  inferInstanceAs (Decidable (_ ∧ _))

/-- The entry that is set to null at the end of a run. -/
def nullIndex (d : BitVec 8) (rounds : ℕ) (s : Str) (argc : ℕ) : ℕ :=
  if EndsWithSegment d rounds s then argc else argc + 1

section Run

variable {d : BitVec 8} {s seg t : Str} {rounds : ℕ}

theorem endsWithSegment_rest (hseg : seg ≠ []) (hmem : d ∉ seg) (k j : ℕ) :
    EndsWithSegment d (rounds + 1)
        (List.replicate k d ++ (seg ++ (List.replicate (j + 1) d ++ t))) ↔
      EndsWithSegment d rounds t := by
  have hlast : (List.replicate k d ++ (seg ++ (List.replicate (j + 1) d ++ t))).getLast? ≠
      some d ↔ t ≠ [] ∧ t.getLast? ≠ some d := by
    cases t with
    | nil => simp [List.getLast?_append, List.getLast?_replicate]
    | cons c t => simp [List.getLast?_append, List.getLast?_cons]
  unfold EndsWithSegment
  rw [segments_first hseg hmem, hlast, List.length_cons, Nat.add_le_add_iff_right]
  constructor
  · rintro ⟨-, ⟨hne, ht⟩, hlen⟩
    exact ⟨hne, ht, hlen⟩
  · rintro ⟨hne, ht, hlen⟩
    exact ⟨by simp [hseg], ⟨hne, ht⟩, hlen⟩

theorem endsWithSegment_last (hseg : seg ≠ []) (hmem : d ∉ seg) (k : ℕ) :
    EndsWithSegment d (rounds + 1) (List.replicate k d ++ seg) := by
  refine ⟨by simp [hseg], ?_, ?_⟩
  · intro hlast
    rw [List.getLast?_append_of_ne_nil _ hseg] at hlast
    exact hmem (List.mem_of_getLast? hlast)
  · rw [segments_replicate_append, segments_of_not_mem hseg hmem, List.length_singleton]
    exact Nat.le_add_left 1 rounds

theorem cString_drop_of_isPrefix (pre buf : Str) (h : pre ++ (seg ++ [0]) <+: buf) (h0 : 0 ∉ seg) :
    cString (buf.drop pre.length) = seg := by
  obtain ⟨tail, rfl⟩ := h
  rw [List.append_assoc, List.drop_left, List.append_assoc]
  exact cString_append h0

/-- What a run of the loop has done: the memory before the line is kept, one pointer is stored for
each segment that a round takes, and the array is terminated at `nullIndex`. -/
def RunOf (d : BitVec 8) (rounds argc : ℕ) (pre s : Str) (stores : List ArgStore)
    (result : Exec ParsedLine) : Prop :=
  ∃ ptrs buf, result = .ok ⟨(argc + ptrs.length : ℕ), buf, stores ++ (argStores argc ptrs ++
      [⟨nullIndex d rounds s (argc + ptrs.length), none⟩])⟩ ∧
    pre <+: buf ∧ ptrs.map (fun p => cString (buf.drop p)) = (segments d s).take rounds

private theorem runOf_stopped {argc : ℕ} {pre buf : Str} {stores : List ArgStore}
    (hend : ¬EndsWithSegment d rounds s) (hsegs : (segments d s).take rounds = [])
    (hpre : pre <+: buf) :
    RunOf d rounds argc pre s stores (.ok ⟨argc, buf, stores ++ [⟨argc + 1, none⟩]⟩) := by
  refine ⟨[], buf, ?_, hpre, by rw [hsegs, List.map_nil]⟩
  rw [nullIndex, if_neg hend]
  rfl

private theorem runOf_last (hd : d ≠ 0) (hseg : seg ≠ []) (h0 : 0 ∉ seg) (hmem : d ∉ seg)
    (hadm : Admissible d seg) (k argc : ℕ) (pre rest : Str) (stores : List ArgStore) :
    RunOf d (rounds + 1) argc pre (List.replicate k d ++ seg) stores
      (parseLoop d (rounds + 1) argc pre.length
        (pre ++ (List.replicate k d ++ (seg ++ 0 :: rest))) stores) := by
  have hname : cString ((pre ++ (List.replicate k d ++ (seg ++ 0 :: rest))).drop
      (pre.length + k)) = seg := by
    have hdrop := cString_drop_of_isPrefix (pre ++ List.replicate k d)
      (pre ++ (List.replicate k d ++ (seg ++ 0 :: rest))) ⟨rest, by simp⟩ h0
    rwa [List.length_append, List.length_replicate] at hdrop
  refine ⟨[pre.length + k], pre ++ (List.replicate k d ++ (seg ++ 0 :: rest)), ?_,
    List.prefix_append _ _, ?_⟩
  · rw [parseLoop_last hd hseg h0 hmem hadm, nullIndex,
      if_pos (endsWithSegment_last hseg hmem k)]
    rfl
  · rw [segments_replicate_append, segments_of_not_mem hseg hmem, List.take_succ_cons,
      List.take_nil, List.map_singleton, hname]

private theorem runOf_round (hseg : seg ≠ []) (h0 : 0 ∉ seg) (hmem : d ∉ seg)
    {k j argc : ℕ} {pre : Str} {stores : List ArgStore} {result : Exec ParsedLine}
    (hrun : RunOf d rounds (argc + 1)
      (pre ++ (List.replicate k d ++ (seg ++ List.replicate (j + 1) 0))) t
      (stores ++ [⟨argc, some (pre.length + k)⟩]) result) :
    RunOf d (rounds + 1) argc pre
      (List.replicate k d ++ (seg ++ (List.replicate (j + 1) d ++ t))) stores result := by
  obtain ⟨ptrs, buf, rfl, hpre, hnames⟩ := hrun
  have hname : cString (buf.drop (pre.length + k)) = seg := by
    have hdrop := cString_drop_of_isPrefix (pre ++ List.replicate k d) buf
      (List.IsPrefix.trans ⟨List.replicate j 0, by simp [List.replicate_succ]⟩ hpre) h0
    rwa [List.length_append, List.length_replicate] at hdrop
  have hlen : argc + 1 + ptrs.length = argc + (ptrs.length + 1) := by
    omega
  refine ⟨(pre.length + k) :: ptrs, buf, ?_, (List.prefix_append _ _).trans hpre, ?_⟩
  · simp only [nullIndex, endsWithSegment_rest hseg hmem, List.length_cons, hlen, argStores,
      List.append_assoc, List.cons_append, List.nil_append]
  · rw [segments_first hseg hmem, List.take_succ_cons, List.map_cons, hname, hnames]

/-- By induction on the rounds: every line that does not consist of delimiters is read segment by
segment. -/
theorem parseLoop_run (hd : d ≠ 0) (rest : Str) (rounds : ℕ) :
    ∀ (argc : ℕ) (pre s : Str) (stores : List ArgStore), 0 ∉ s → (s = [] ∨ segments d s ≠ []) →
      (∀ seg ∈ segments d s, Admissible d seg) →
      RunOf d rounds argc pre s stores
        (parseLoop d rounds argc pre.length (pre ++ (s ++ 0 :: rest)) stores) := by
  induction rounds with
  | zero =>
      intro argc pre s stores h0 hs hadm
      refine runOf_stopped ?_ List.take_zero (List.prefix_append _ _)
      rintro ⟨hne, -, hlen⟩
      exact hs.resolve_left hne (List.length_eq_zero_iff.mp (Nat.le_zero.mp hlen))
  | succ rounds ih =>
      intro argc pre s stores h0 hs hadm
      by_cases hnil : s = []
      · subst hnil
        rw [List.nil_append, parseLoop, charAt_append, exec_ok_bind, if_pos rfl]
        exact runOf_stopped (fun hend => hend.1 rfl) (by simp) (List.prefix_append _ _)
      · obtain ⟨k, seg, j, t, hseg, hmem, ht, hj, rfl⟩ :=
          exists_first_segment (exists_ne_of_segments_ne_nil (hs.resolve_left hnil))
        have hseg0 : 0 ∉ seg := fun h =>
          h0 (List.mem_append_right _ (List.mem_append_left _ h))
        cases j with
        | zero =>
            obtain rfl := hj rfl
            have hlast : Admissible d seg :=
              hadm seg (by simp [segments_of_not_mem hseg hmem])
            simpa using runOf_last hd hseg hseg0 hmem hlast k argc pre rest stores
        | succ j =>
            have ht0 : 0 ∉ t := fun h => h0 (List.mem_append_right _
              (List.mem_append_right _ (List.mem_append_right _ h)))
            rw [segments_first hseg hmem, List.forall_mem_cons] at hadm
            -- what follows the run of delimiters is no delimiter
            obtain ⟨c, tail, hc, htail⟩ : ∃ c tail, c ≠ d ∧ t ++ 0 :: rest = c :: tail := by
              cases t with
              | nil => exact ⟨0, rest, Ne.symm hd, rfl⟩
              | cons c t => exact ⟨c, t ++ 0 :: rest, by simpa using ht, rfl⟩
            have hround := parseLoop_round pre tail stores rounds argc hd hseg hseg0 hmem hadm.1
              hc k j
            have hstart : t = [] ∨ segments d t ≠ [] := by
              rw [or_iff_not_imp_left]
              intro hne hnone
              obtain ⟨c, t, rfl⟩ := List.exists_cons_of_ne_nil hne
              rw [segments_eq_nil_iff, List.length_cons, List.replicate_succ] at hnone
              exact ht (congrArg List.head? hnone)
            have hrest := ih (argc + 1)
              (pre ++ (List.replicate k d ++ (seg ++ List.replicate (j + 1) 0))) t
              (stores ++ [⟨argc, some (pre.length + k)⟩]) ht0 hstart hadm.2
            simp only [htail, List.append_assoc, List.length_append, List.length_replicate,
              ← Nat.add_assoc] at hrest
            simp only [htail, List.append_assoc, hround]
            exact runOf_round hseg hseg0 hmem (by simpa only [Nat.add_assoc] using hrest)

end Run

/-! ## The whole line -/

/-- The array has these arguments and a null pointer behind them, whatever it held before, and
no entry above `maxArgs` was written. -/
structure LineParsed (line : ParsedLine) (maxArgs : ℤ) (names : List Str) : Prop where
  argc : line.argc = names.length
  arg : ∀ (array : ℕ → Option ℕ) (i : ℕ) (hi : i < names.length), ∃ p,
    storeArgs array line.stores i = some p ∧ cString (line.buf.drop p) = names[i]
  null : ∀ array : ℕ → Option ℕ, storeArgs array line.stores names.length = none
  bounded : ∀ store ∈ line.stores, (store.index : ℤ) ≤ maxArgs

/-- A run has parsed the line when the array is terminated where the arguments end. -/
theorem lineParsed_iff {maxArgs : ℤ} {ptrs : List ℕ} {buf : Str} {names : List Str} {stop : ℕ}
    (hnames : ptrs.map (fun p => cString (buf.drop p)) = names)
    (hlen : (names.length : ℤ) ≤ maxArgs)
    (hstop : stop = ptrs.length ∨ stop = ptrs.length + 1) :
    LineParsed ⟨ptrs.length, buf, argStores 0 ptrs ++ [⟨stop, none⟩]⟩ maxArgs names ↔
      stop = ptrs.length := by
  subst hnames
  have hstored : ∀ (array : ℕ → Option ℕ) (i : ℕ),
      storeArgs array (argStores 0 ptrs ++ [⟨stop, none⟩]) i =
        if i = stop then none else if i < ptrs.length then ptrs[i]? else array i := by
    intro array i
    have hargs := storeArgs_argStores array 0 ptrs i
    simp only [Nat.zero_le, true_and, Nat.zero_add, Nat.sub_zero] at hargs
    have hlast : storeArgs array (argStores 0 ptrs ++ [⟨stop, none⟩]) i =
        Function.update (storeArgs array (argStores 0 ptrs)) stop none i := by
      rw [storeArgs_append]
      rfl
    rw [hlast, Function.update_apply, hargs]
  rw [List.length_map] at hlen
  constructor
  · intro h
    have hnull := h.null fun _ => some 0
    rw [hstored, List.length_map] at hnull
    by_contra hne
    rw [if_neg (Ne.symm hne), if_neg (lt_irrefl _)] at hnull
    cases hnull
  · rintro rfl
    refine ⟨by simp, ?_, ?_, ?_⟩
    · intro array i hi
      rw [List.length_map] at hi
      refine ⟨ptrs[i], ?_, by simp⟩
      rw [hstored, if_neg (by omega), if_pos hi, List.getElem?_eq_getElem hi]
    · intro array
      rw [hstored, List.length_map, if_pos rfl]
    · intro store hmem
      rcases List.mem_append.mp hmem with hstore | hstore
      · have hlt := index_argStores hstore
        omega
      · rw [List.mem_singleton.mp hstore]
        exact hlen

theorem nullIndex_cases (d : BitVec 8) (rounds : ℕ) (s : Str) (argc : ℕ) :
    nullIndex d rounds s argc = argc ∨ nullIndex d rounds s argc = argc + 1 := by
  unfold nullIndex
  split
  · exact Or.inl rfl
  · exact Or.inr rfl

theorem nullIndex_eq_iff {d : BitVec 8} {rounds : ℕ} {s : Str} {argc : ℕ} :
    nullIndex d rounds s argc = argc ↔ EndsWithSegment d rounds s := by
  unfold nullIndex
  split <;> simp_all

theorem parseLine_lineParsed_iff {d : BitVec 8} (hd : d ≠ 0) (s rest : Str) {maxArgs : ℤ}
    (h0 : 0 ∉ s) (hmax : 1 ≤ maxArgs) (hs : s = [] ∨ segments d s ≠ [])
    (hadm : ∀ seg ∈ segments d s, Admissible d seg) :
    ∃ line, parseLine (some (s ++ 0 :: rest)) true maxArgs d = .ok line ∧
      (LineParsed line maxArgs ((segments d s).take maxArgs.toNat) ↔
        EndsWithSegment d maxArgs.toNat s) := by
  obtain ⟨ptrs, buf, hrun, -, hnames⟩ := parseLoop_run hd rest maxArgs.toNat 0 [] s [] h0 hs hadm
  have hlen : (((segments d s).take maxArgs.toNat).length : ℤ) ≤ maxArgs := by
    have hle := List.length_take_le maxArgs.toNat (segments d s)
    omega
  simp only [Nat.zero_add, List.nil_append, List.length_nil] at hrun
  refine ⟨_, ?_, (lineParsed_iff hnames hlen (nullIndex_cases d maxArgs.toNat s _)).trans
    nullIndex_eq_iff⟩
  rw [parseLine, if_neg (by simp; omega)]
  exact hrun

/-- A command line of delimiters alone is one empty argument. -/
theorem parseLoop_delimiters (rest : Str) (k rounds : ℕ) :
    parseLoop cmdDelimiter (rounds + 1) 0 0 (List.replicate (k + 1) cmdDelimiter ++ 0 :: rest) [] =
      .ok ⟨1, List.replicate (k + 1) cmdDelimiter ++ 0 :: rest,
        [⟨0, some (k + 1)⟩, ⟨1, none⟩]⟩ := by
  have hfirst : charAt (List.replicate (k + 1) cmdDelimiter ++ 0 :: rest) 0 = .ok cmdDelimiter :=
    rfl
  have hskip := skipDelimiter_append [] rest (c := 0) (d := cmdDelimiter) (k + 1) (by decide)
  have hread := charAt_append (List.replicate (k + 1) cmdDelimiter) rest 0
  have hchr := strChr_append (List.replicate (k + 1) cmdDelimiter) rest (s := []) (c := 0)
    (d := cmdDelimiter) List.not_mem_nil List.not_mem_nil (Or.inr rfl)
  have hcmd : ¬(cmdDelimiter = envDelimiter ∧ (0 : BitVec 8) ≠ slash) := by
    decide
  simp only [List.nil_append, List.length_nil, Nat.zero_add, List.length_replicate]
    at hskip hread hchr
  rw [parseLoop, hfirst, exec_ok_bind, if_neg (by decide), hskip, exec_ok_bind, hread,
    exec_ok_bind, if_neg hcmd, hchr, if_neg (by decide)]
  rfl

/-- `NX_CmdToArray` reads the first `maxArgs` segments of a line, with a null pointer behind them
and no store outside the array, exactly when the line ends with a segment and has at most
`maxArgs` of them. -/
theorem cmdToArray_lineParsed_iff (s rest : Str) (maxArgs : ℤ) (h0 : 0 ∉ s) (hmax : 1 ≤ maxArgs) :
    ∃ line, cmdToArray (some (s ++ 0 :: rest)) true maxArgs = .ok line ∧
      (LineParsed line maxArgs ((segments cmdDelimiter s).take maxArgs.toNat) ↔
        s ≠ [] ∧ s.getLast? ≠ some cmdDelimiter ∧
          ((segments cmdDelimiter s).length : ℤ) ≤ maxArgs) := by
  have hends : (s ≠ [] ∧ s.getLast? ≠ some cmdDelimiter ∧
      ((segments cmdDelimiter s).length : ℤ) ≤ maxArgs) ↔
        EndsWithSegment cmdDelimiter maxArgs.toNat s := by
    have hrounds : ((segments cmdDelimiter s).length : ℤ) ≤ maxArgs ↔
        (segments cmdDelimiter s).length ≤ maxArgs.toNat := by
      omega
    rw [hrounds, EndsWithSegment]
  rw [hends]
  by_cases hs : s = [] ∨ segments cmdDelimiter s ≠ []
  · exact parseLine_lineParsed_iff (by decide) s rest h0 hmax hs
      fun seg hseg henv => absurd henv (by decide)
  · -- delimiters alone: one argument is returned where there is no segment
    rw [not_or, not_not] at hs
    obtain ⟨hne, hnone⟩ := hs
    obtain ⟨k, hk⟩ := Nat.exists_eq_succ_of_ne_zero (List.length_eq_zero_iff.not.mpr hne)
    obtain ⟨rounds, hrounds⟩ := Nat.exists_eq_succ_of_ne_zero (n := maxArgs.toNat) (by omega)
    have hall := segments_eq_nil_iff.mp hnone
    rw [hk] at hall
    have hparse : cmdToArray (some (s ++ 0 :: rest)) true maxArgs =
        .ok ⟨1, s ++ 0 :: rest, [⟨0, some (k + 1)⟩, ⟨1, none⟩]⟩ := by
      rw [cmdToArray, parseLine, if_neg (by simp; omega), hrounds, hall]
      exact parseLoop_delimiters rest k rounds
    refine ⟨_, hparse, iff_of_false ?_ ?_⟩
    · intro h
      have hargc := h.argc
      rw [hnone, List.take_nil, List.length_nil] at hargc
      cases hargc
    · rintro ⟨-, hlast, -⟩
      rw [hall, List.getLast?_replicate] at hlast
      exact hlast rfl

/-- One round for two segments: the null pointer is stored two entries behind the argument. -/
theorem cmdToArray_past_array :
    ∃ line, cmdToArray (some [0x61, 0x20, 0x62, 0]) true 1 = .ok line ∧
      ¬LineParsed line 1 ((segments cmdDelimiter [0x61, 0x20, 0x62]).take 1) := by
  refine ⟨_, rfl, fun h => ?_⟩
  have hbound := h.bounded ⟨2, none⟩ (by decide)
  exact absurd hbound (by decide)

/-- Two segments and two rounds. -/
theorem cmdToArray_lineParsed_iff_two :
    ∃ line, cmdToArray (some [0x61, 0x20, 0x62, 0]) true 2 = .ok line ∧
      (LineParsed line 2 ((segments cmdDelimiter [0x61, 0x20, 0x62]).take 2) ↔
        ([0x61, 0x20, 0x62] : Str) ≠ [] ∧
          ([0x61, 0x20, 0x62] : Str).getLast? ≠ some cmdDelimiter ∧
          ((segments cmdDelimiter [0x61, 0x20, 0x62]).length : ℤ) ≤ 2) :=
  cmdToArray_lineParsed_iff [0x61, 0x20, 0x62] [] 2 (by decide) (by decide)

end Nxos.Process
