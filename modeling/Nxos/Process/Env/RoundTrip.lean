import Nxos.Process.Env.Parse

/-!
# A line that was built is read back

`__BuildLine` appends the strings, with a delimiter between two of them.  When it succeeds the
buffer holds the joined strings, which are the segments of the line, and no delimiter stands at
its end.
-/

namespace Nxos.Process

open Nxos.Fs Nxos.Segments

structure IsArgument (d : BitVec 8) (name : Str) : Prop where
  nonempty : name ≠ []
  noZero : 0 ∉ name
  noDelimiter : d ∉ name
  admissible : Admissible d name

section Build

variable {d : BitVec 8} {t s rest : Str} {args : List Str}

theorem strCat_eq_ok {buf : Str} (ht : 0 ∉ t) (h : strCat (t ++ 0 :: rest) s = .ok buf) :
    ∃ rest, buf = (t ++ s) ++ 0 :: rest := by
  unfold strCat at h
  simp only [cString_append ht] at h
  split at h
  · cases h
    exact ⟨_, (List.append_assoc _ _ _).symm⟩
  · cases h

/-- By induction on the strings that are left: they follow what the buffer holds. -/
theorem buildLoop_eq_ok (hd : d ≠ 0) {bufLen : BitVec 32} {line : BuiltLine} {argc : ℕ}
    (ht : 0 ∉ t) (hargs : ∀ name ∈ args, 0 ∉ name)
    (h : buildLoop bufLen d argc args (t ++ 0 :: rest) = .ok line) (hargc : line.argc ≠ -1) :
    ∃ rest, line.buf = (t ++ [d].intercalate args) ++ 0 :: rest := by
  induction args generalizing t rest argc with
  | nil =>
      cases h
      exact ⟨rest, by simp⟩
  | cons arg args ih =>
      rw [List.forall_mem_cons] at hargs
      obtain ⟨len, -, h⟩ := exec_bind_eq_ok_iff.mp h
      split at h
      · cases h
        exact absurd rfl hargc
      · obtain ⟨buf, hcat, h⟩ := exec_bind_eq_ok_iff.mp h
        obtain ⟨rest₁, rfl⟩ := strCat_eq_ok ht hcat
        have hta : 0 ∉ t ++ arg := by
          rw [List.mem_append, not_or]
          exact ⟨ht, hargs.1⟩
        obtain ⟨buf, hdelim, h⟩ := exec_bind_eq_ok_iff.mp h
        cases args with
        | nil =>
            cases hdelim
            obtain ⟨rest₂, hbuf⟩ := ih hta hargs.2 h
            exact ⟨rest₂, by simpa using hbuf⟩
        | cons next args =>
            obtain ⟨rest₂, rfl⟩ := strCat_eq_ok hta hdelim
            have htd : 0 ∉ t ++ arg ++ [d] := by
              rw [List.mem_append, not_or, List.mem_singleton]
              exact ⟨hta, Ne.symm hd⟩
            obtain ⟨rest₃, hbuf⟩ := ih htd hargs.2 h
            exact ⟨rest₃, by simpa [List.intercalate_cons_cons] using hbuf⟩

theorem buildLine_eq_ok (hd : d ≠ 0) {buf : Str} {bufLen : BitVec 32} {line : BuiltLine}
    (hargs : ∀ name ∈ args, 0 ∉ name) (h : buildLine (some buf) bufLen (some args) d = .ok line)
    (hargc : line.argc ≠ -1) : ∃ rest, line.buf = [d].intercalate args ++ 0 :: rest := by
  rw [buildLine] at h
  split at h
  · cases h
    exact absurd rfl hargc
  · rename_i hlen
    obtain ⟨cleared, hzero, h⟩ := exec_bind_eq_ok_iff.mp h
    have hsize : (bufLen.signExtend 64).toNat ≠ 0 := by
      intro hzero
      have hext : bufLen.signExtend 64 = 0 := BitVec.eq_of_toNat_eq hzero
      have hint := BitVec.toInt_signExtend_of_le (x := bufLen) (v := 64) (by decide)
      rw [hext] at hint
      exact hlen (BitVec.eq_of_toInt_eq hint.symm)
    obtain ⟨n, hn⟩ := Nat.exists_eq_succ_of_ne_zero hsize
    unfold memZero at hzero
    split at hzero
    · cases hzero
      rw [hn, List.replicate_succ, List.cons_append] at h
      have hbuilt := buildLoop_eq_ok (t := []) hd List.not_mem_nil hargs h hargc
      rwa [List.nil_append] at hbuilt
    · cases hzero

end Build

/-! ## Reading it back -/

section Parse

variable {d : BitVec 8} {names : List Str}

theorem segments_names (hnames : ∀ name ∈ names, IsArgument d name) :
    segments d ([d].intercalate names) = names :=
  segments_intercalate fun name hname =>
    ⟨(hnames name hname).nonempty, (hnames name hname).noDelimiter⟩

theorem getLast?_intercalate (hne : names ≠ []) (hnames : ∀ name ∈ names, IsArgument d name) :
    [d].intercalate names ≠ [] ∧ ([d].intercalate names).getLast? ≠ some d := by
  induction names with
  | nil => exact absurd rfl hne
  | cons name names ih =>
      rw [List.forall_mem_cons] at hnames
      cases names with
      | nil =>
          rw [List.intercalate_singleton]
          exact ⟨hnames.1.nonempty, fun h => hnames.1.noDelimiter (List.mem_of_getLast? h)⟩
      | cons next names =>
          obtain ⟨hrest, hlast⟩ := ih (List.cons_ne_nil _ _) hnames.2
          rw [List.intercalate_cons_cons]
          refine ⟨by simp, ?_⟩
          rwa [List.getLast?_append_of_ne_nil _ hrest]

theorem parseLine_buildLine (hd : d ≠ 0) (hne : names ≠ [])
    (hnames : ∀ name ∈ names, IsArgument d name) {buf : Str} {bufLen : BitVec 32}
    {built : BuiltLine} (hbuild : buildLine (some buf) bufLen (some names) d = .ok built)
    (hargc : built.argc ≠ -1) {maxArgs : ℤ} (hmax : (names.length : ℤ) ≤ maxArgs) :
    ∃ line, parseLine (some built.buf) true maxArgs d = .ok line ∧
      LineParsed line maxArgs names := by
  have hzero : ∀ name ∈ names, 0 ∉ name := fun name hname => (hnames name hname).noZero
  obtain ⟨rest, hbuf⟩ := buildLine_eq_ok hd hzero hbuild hargc
  have hsegs := segments_names hnames
  obtain ⟨hjoin, hlast⟩ := getLast?_intercalate hne hnames
  have h0 : 0 ∉ [d].intercalate names := by
    intro hmem
    obtain ⟨name, hname, hin⟩ := mem_of_mem_intercalate hmem (Ne.symm hd)
    exact hzero name hname hin
  have hlen : names.length ≤ maxArgs.toNat := by
    omega
  have hpos : 1 ≤ maxArgs := by
    have := List.length_pos_iff.mpr hne
    omega
  have hsome : segments d ([d].intercalate names) ≠ [] := by
    rwa [hsegs]
  have hadm : ∀ seg ∈ segments d ([d].intercalate names), Admissible d seg := by
    rw [hsegs]
    exact fun name hname => (hnames name hname).admissible
  obtain ⟨line, hline, hparsed⟩ :=
    parseLine_lineParsed_iff hd _ rest h0 hpos (Or.inr hsome) hadm
  rw [hsegs, List.take_of_length_le hlen] at hparsed
  rw [hbuf]
  refine ⟨line, hline, hparsed.mpr ⟨hjoin, hlast, ?_⟩⟩
  rwa [hsegs]

end Parse

/-- A list of strings that was joined into a line is read back from it, for both delimiters: as
many arguments, the same strings, and a null pointer behind them. -/
theorem built_line_parsed (names : List Str) (hne : names ≠ []) (buf : Str) (bufLen : BitVec 32)
    (maxArgs : ℤ) (hmax : (names.length : ℤ) ≤ maxArgs) :
    ((∀ name ∈ names, name ≠ [] ∧ 0 ∉ name ∧ cmdDelimiter ∉ name) →
      ∀ built, cmdToBuf (some buf) bufLen (some names) = .ok built → built.argc ≠ -1 →
        ∃ line, cmdToArray (some built.buf) true maxArgs = .ok line ∧
          LineParsed line maxArgs names) ∧
    ((∀ name ∈ names, name.head? = some slash ∧ 0 ∉ name ∧ envDelimiter ∉ name) →
      ∀ built, envToBuf (some buf) bufLen (some names) = .ok built → built.argc ≠ -1 →
        ∃ line, envToArray (some built.buf) true maxArgs = .ok line ∧
          LineParsed line maxArgs names) := by
  constructor
  · intro hnames built hbuild hargc
    refine parseLine_buildLine (by decide) hne ?_ hbuild hargc hmax
    intro name hname
    obtain ⟨hnonempty, hzero, hdelimiter⟩ := hnames name hname
    exact ⟨hnonempty, hzero, hdelimiter, fun henv => absurd henv (by decide)⟩
  · intro hnames built hbuild hargc
    refine parseLine_buildLine (by decide) hne ?_ hbuild hargc hmax
    intro name hname
    obtain ⟨hhead, hzero, hdelimiter⟩ := hnames name hname
    refine ⟨?_, hzero, hdelimiter, fun _ => hhead⟩
    rintro rfl
    cases hhead

/-- `/a` and `/` in a buffer of eight bytes, as a command line and as an environment. -/
theorem built_line_parsed_two :
    (∃ line, cmdToArray (some [0x2f, 0x61, 0x20, 0x2f, 0, 0, 0, 0]) true 2 = .ok line ∧
      LineParsed line 2 [[0x2f, 0x61], [0x2f]]) ∧
    ∃ line, envToArray (some [0x2f, 0x61, 0x3a, 0x2f, 0, 0, 0, 0]) true 2 = .ok line ∧
      LineParsed line 2 [[0x2f, 0x61], [0x2f]] := by
  have hboth := built_line_parsed [[0x2f, 0x61], [0x2f]] (by decide) (List.replicate 8 7) 8 2
    (by decide)
  constructor
  · exact hboth.1 (by decide) ⟨2, [0x2f, 0x61, 0x20, 0x2f, 0, 0, 0, 0]⟩ rfl (by decide)
  · exact hboth.2 (by decide) ⟨2, [0x2f, 0x61, 0x3a, 0x2f, 0, 0, 0, 0]⟩ rfl (by decide)

end Nxos.Process
