import Nxos.Fs.Cpio.Listing

/-!
# The entry of a name

What `CpioLookup` finds, against the components of the paths of the entries.  It is the first entry
whose path is the path of the directory followed by the name, unless another entry stands in front
of it that is only spelled like it, or one that is it and is spelled in another way.
-/

namespace Nxos.Fs

/-! ## Components -/

def components (s : Str) : List Str := (s.splitOn slash).filter (· ≠ [])

section Components

variable {s c : Str} {names : List Str}

theorem components_slash_cons : components (slash :: s) = components s := by
  have hsplit : (slash :: s).splitOn slash = [] :: s.splitOn slash :=
    List.splitOn_append_cons_self_of_not_mem List.not_mem_nil s
  rw [components, hsplit, List.filter_cons, if_neg (by simp), components]

theorem components_skipSlash (s : Str) : components (skipSlash s) = components s := by
  cases s with
  | nil => rfl
  | cons b s =>
      rw [skipSlash]
      split
      · next hb => rw [hb, components_slash_cons]
      · rfl

theorem components_nodePath (hnames : ∀ name ∈ names, NameOk name) :
    components (nodePath names) = names := by
  rw [components, splitOn_nodePath hnames, List.filter_cons, if_neg (by simp),
    List.filter_eq_self]
  exact fun name hname => decide_eq_true (hnames name hname).1

theorem ne_nil_of_mem_components (hc : c ∈ components s) : c ≠ [] :=
  of_decide_eq_true (List.mem_filter.mp hc).2

end Components

/-! ## Spellings -/

/-- The path of the entry is the path of the directory followed by the name. -/
def Means (names : List Str) (c s : Str) : Prop := components s = names ++ [c]

/-- The path of the directory continues with the name, or with a slash and the name, behind one
slash at most, and the entry does not begin with a dot. -/
def Joins (names : List Str) (c s : Str) : Prop :=
  s.head? ≠ some dot ∧ (skipSlash s = skipSlash (dirPath names) ++ c ∨
    skipSlash s = skipSlash (dirPath names) ++ slash :: c)

/-- The entry is spelled with one slash between the directory and the name, which the root
directory does without, and with no slash behind the name. -/
def Spelled (names : List Str) (c s : Str) : Prop :=
  c ≠ [] ∧ s.head? ≠ some dot ∧ (skipSlash s = skipSlash (dirPath names) ++ slash :: c ∨
    names = [] ∧ skipSlash s = c)

instance (names : List Str) (c s : Str) : Decidable (Means names c s) :=
  inferInstanceAs (Decidable (_ = _))

instance (names : List Str) (c s : Str) : Decidable (Joins names c s) :=
  inferInstanceAs (Decidable (_ ∧ _))

section Spellings

variable {names : List Str} {c s : Str}

theorem skipSlash_nodePath {name : Str} : slash :: skipSlash (nodePath (name :: names)) =
    nodePath (name :: names) := by
  rw [nodePath_cons, skipSlash_slash_cons]

/-- The tests of `CpioLookup` for a name without slashes. -/
theorem accepts_iff_joins (hc : slash ∉ c) :
    s.head? ≠ some dot ∧ checkPath s (dirPath names) c = true ↔ Joins names c s := by
  rw [Joins, checkPath_iff]
  refine and_congr_right fun _ => ?_
  constructor
  · rintro ⟨rest, hrest, rfl⟩
    cases rest with
    | nil => exact .inl hrest
    | cons b rest =>
        rw [skipSlash] at hc ⊢
        split
        · next hb => exact .inr (hb ▸ hrest)
        · exact .inl hrest
  · rintro (hrest | hrest)
    · refine ⟨c, hrest, ?_⟩
      cases c with
      | nil => rfl
      | cons b c => exact skipSlash_cons fun hb => hc (hb ▸ List.mem_cons_self)
    · exact ⟨slash :: c, hrest, skipSlash_slash_cons⟩

theorem components_of_slash (hnames : ∀ name ∈ names, NameOk name) (hc : NameOk c)
    (hs : skipSlash s = skipSlash (dirPath names) ++ slash :: c) :
    components s = names ++ [c] := by
  have hall : ∀ name ∈ names ++ [c], NameOk name := by
    intro name hmem
    rcases List.mem_append.mp hmem with hmem | hmem
    · exact hnames name hmem
    · rw [List.mem_singleton.mp hmem]
      exact hc
  have hpath : slash :: skipSlash s = nodePath (names ++ [c]) ∨
      skipSlash s = nodePath (names ++ [c]) := by
    rw [nodePath_concat]
    cases names with
    | nil => exact .inr hs
    | cons name names =>
        rw [hs, dirPath, if_neg (List.cons_ne_nil _ _), ← List.cons_append, skipSlash_nodePath]
        exact .inl rfl
  rw [← components_skipSlash s]
  rcases hpath with hpath | hpath
  · rw [← components_slash_cons, hpath, components_nodePath hall]
  · rw [hpath, components_nodePath hall]

theorem not_means_of_glued {last : Str} (hnames : ∀ name ∈ names ++ [last], NameOk name)
    (hc : slash ∉ c) (hs : skipSlash s = skipSlash (dirPath (names ++ [last])) ++ c) :
    ¬Means (names ++ [last]) c s := by
  have hlast := hnames last (by simp)
  have hall : ∀ name ∈ names ++ [last ++ c], NameOk name := by
    intro name hmem
    rcases List.mem_append.mp hmem with hmem | hmem
    · exact hnames name (List.mem_append_left _ hmem)
    · rw [List.mem_singleton.mp hmem]
      refine ⟨fun hnil => hlast.1 (List.append_eq_nil_iff.mp hnil).1, fun hmem => ?_⟩
      exact (List.mem_append.mp hmem).elim hlast.2 hc
  have hpath : slash :: skipSlash s = nodePath (names ++ [last ++ c]) := by
    obtain ⟨first, rest, hcons⟩ : ∃ first rest, names ++ [last] = first :: rest :=
      List.exists_cons_of_ne_nil (by simp)
    rw [hs, dirPath_concat, hcons, ← List.cons_append, skipSlash_nodePath, ← hcons,
      nodePath_concat, nodePath_concat, List.append_assoc, List.cons_append]
  intro hmeans
  have hlength := congrArg List.length hmeans
  rw [← components_skipSlash s, ← components_slash_cons, hpath,
    components_nodePath hall] at hlength
  simp at hlength

theorem means_and_joins_iff (hnames : ∀ name ∈ names, NameOk name) (hc : slash ∉ c) :
    Means names c s ∧ Joins names c s ↔ Spelled names c s := by
  constructor
  · rintro ⟨hmeans, hdot, hglued | hslash⟩
    · have hne : c ≠ [] := ne_nil_of_mem_components (s := s) (by rw [hmeans]; simp)
      rcases names.eq_nil_or_concat' with rfl | ⟨parents, last, rfl⟩
      · exact ⟨hne, hdot, .inr ⟨rfl, hglued⟩⟩
      · exact absurd hmeans (not_means_of_glued hnames hc hglued)
    · have hne : c ≠ [] := ne_nil_of_mem_components (s := s) (by rw [hmeans]; simp)
      exact ⟨hne, hdot, .inl hslash⟩
  · rintro ⟨hne, hdot, hslash | ⟨rfl, hroot⟩⟩
    · exact ⟨components_of_slash hnames ⟨hne, hc⟩ hslash, hdot, .inr hslash⟩
    · refine ⟨?_, hdot, .inl hroot⟩
      have hpath : components (nodePath [c]) = [c] :=
        components_nodePath (by simpa using ⟨hne, hc⟩)
      rw [nodePath_cons, components_slash_cons, nodePath_nil, List.append_nil] at hpath
      rw [Means, ← components_skipSlash, hroot, hpath, List.nil_append]

end Spellings

/-! ## The first entry -/

section Find

variable {α : Type} {p q : α → Bool} {x : α} {l : List α}

/-- Two searches that the first place tells apart end at different places. -/
theorem find?_cons_ne (hp : p x = true) (hq : q x = false) :
    (x :: l).find? p ≠ (x :: l).find? q := by
  intro heq
  rw [List.find?_cons, hp, List.find?_cons, hq] at heq
  have hfound := List.find?_some heq.symm
  rw [hq] at hfound
  cases hfound

/-- Two searches end at the same place exactly when the first place for either is one for both. -/
theorem find?_eq_find?_iff :
    l.find? p = l.find? q ↔ ∀ x, l.find? (fun x => p x || q x) = some x → p x ∧ q x := by
  induction l with
  | nil => simp
  | cons x l ih =>
      cases hp : p x with
      | true =>
          cases hq : q x with
          | true => simp [hp, hq]
          | false =>
              refine iff_of_false (find?_cons_ne hp hq) fun hboth => ?_
              have hx := (hboth x (by simp [hp])).2
              rw [hq] at hx
              cases hx
      | false =>
          cases hq : q x with
          | true =>
              refine iff_of_false (find?_cons_ne hq hp).symm fun hboth => ?_
              have hx := (hboth x (by simp [hq])).1
              rw [hp] at hx
              cases hx
          | false => simpa [hp, hq] using ih

end Find

section Located

variable {dir c : Str} {off : ℕ} {entries : List (ℕ × CpioEntry)} {es : List CpioEntry}

/-- `CpioLookup` gives the node of the first entry that its tests accept. -/
theorem visitAll_lookup : visitAll (lookupVisit dir c) entries () =
    match entries.find? fun p => p.2.name.head? ≠ some dot ∧ checkPath p.2.name dir c with
    | some p => .found (cpioNode (BitVec.ofNat 64 p.1) p.2.header)
    | none => .stopped .trailer () := by
  induction entries with
  | nil => rfl
  | cons p entries ih =>
      have hpath : p.2.header.path = p.2.name := rfl
      rw [visitAll, lookupVisit, hpath, List.find?_cons]
      by_cases haccept : p.2.name.head? ≠ some dot ∧ checkPath p.2.name dir c = true
      · rw [if_pos haccept, decide_eq_true haccept]
      · rw [if_neg haccept, decide_eq_false haccept]
        exact ih

theorem le_of_mem_locate {q : ℕ × CpioEntry} (hq : q ∈ locate off es) : off ≤ q.1 := by
  induction es generalizing off with
  | nil => cases hq
  | cons e es ih =>
      rcases List.mem_cons.mp hq with rfl | hq
      · exact le_rfl
      · exact le_trans (Nat.le_add_right _ _) (ih hq)

theorem locate_pairwise :
    (locate off es).Pairwise fun p q => p.1 + p.2.bytes.length ≤ q.1 := by
  induction es generalizing off with
  | nil => exact List.Pairwise.nil
  | cons e es ih =>
      refine List.Pairwise.cons (fun q hq => ?_) ih
      exact le_of_mem_locate hq

theorem CpioArchive.eq_of_cpioNode_eq {disk : ℕ → BitVec 8} {a : CpioArchive}
    (hdisk : OnDisk disk 0 a.bytes) {p q : ℕ × CpioEntry} (hp : p ∈ a.located)
    (hq : q ∈ a.located) (heq : cpioNode (BitVec.ofNat 64 p.1) p.2.header =
      cpioNode (BitVec.ofNat 64 q.1) q.2.header) : p = q := by
  have hend {p : ℕ × CpioEntry} (hp : p ∈ a.located) : p.1 + p.2.bytes.length < 2 ^ 32 := by
    have hle := (onDisk_of_mem_locate hdisk hp).2
    rw [Nat.zero_add] at hle
    exact lt_of_le_of_lt hle a.small
  have hinside (e : CpioEntry) :
      e.dataOffset ≤ e.bytes.length ∧ cpioHeaderSize ≤ e.dataOffset := by
    have hlength := e.bytes_length
    unfold CpioEntry.dataOffset at hlength ⊢
    omega
  have hdata := congrArg (fun n : CpioNode => n.data.toNat) heq
  simp only [CpioEntry.cpioNode_data (hend hp), CpioEntry.cpioNode_data (hend hq),
    BitVec.toNat_ofNat] at hdata
  have happart := locate_pairwise.imp (S := fun p q : ℕ × CpioEntry =>
    p.1 + p.2.bytes.length ≤ q.1 ∨ q.1 + q.2.bytes.length ≤ p.1) Or.inl (l := a.located)
  have hsymm : Std.Symm fun p q : ℕ × CpioEntry =>
      p.1 + p.2.bytes.length ≤ q.1 ∨ q.1 + q.2.bytes.length ≤ p.1 :=
    ⟨fun _ _ => Or.symm⟩
  by_contra hne
  have hends := hend hp
  have hends' := hend hq
  have hin := hinside p.2
  have hin' := hinside q.2
  have hsize : cpioHeaderSize = 110 := rfl
  have hor := happart.forall hp hq hne
  omega

end Located

/-! ## Lookups -/

/-- The first entry whose path is the path of the directory followed by the name. -/
def CpioArchive.firstMeant (a : CpioArchive) (names : List Str) (c : Str) :
    Option (ℕ × CpioEntry) :=
  a.located.find? fun p => Means names c p.2.name

/-- `CpioLookup` in the directory gives the node of the first entry that is meant, and fails when
there is none. -/
def LooksUpFirst (disk : ℕ → BitVec 8) (a : CpioArchive) (rounds : ℕ) (names : List Str)
    (c : Str) : Prop :=
  ∀ n, cpioLookup disk rounds (dirPath names) c = some (.found n) ↔
    ∃ p, a.firstMeant names c = some p ∧ n = cpioNode (BitVec.ofNat 64 p.1) p.2.header

/-- Of the entries that are meant or joined with the directory, the first is spelled as it should
be. -/
def FirstSpelled (a : CpioArchive) (names : List Str) (c : Str) : Prop :=
  ∀ e, a.entries.find? (fun e => Means names c e.name ∨ Joins names c e.name) = some e →
    Spelled names c e.name

section Lookups

variable {disk : ℕ → BitVec 8} {a : CpioArchive} {rounds : ℕ} {names : List Str} {c : Str}

theorem cpioLookup_found_iff (hdisk : OnDisk disk 0 a.bytes) (hrounds : a.entries.length < rounds)
    (hc : slash ∉ c) (n : CpioNode) :
    cpioLookup disk rounds (dirPath names) c = some (.found n) ↔
      ∃ p, a.located.find? (fun p => Joins names c p.2.name) = some p ∧
        n = cpioNode (BitVec.ofNat 64 p.1) p.2.header := by
  have htest : (fun p : ℕ × CpioEntry => decide (p.2.name.head? ≠ some dot ∧
      checkPath p.2.name (dirPath names) c = true)) = fun p => decide (Joins names c p.2.name) :=
    funext fun p => decide_eq_decide.mpr (accepts_iff_joins hc)
  rw [cpioLookup, a.cpioLoop_eq hdisk hrounds, visitAll_lookup, htest, Option.some.injEq]
  cases a.located.find? fun p => decide (Joins names c p.2.name) with
  | none => simp
  | some p =>
      constructor
      · intro hfound
        exact ⟨p, rfl, (CpioOutcome.found.inj hfound).symm⟩
      · rintro ⟨q, hq, rfl⟩
        rw [Option.some.inj hq]

theorem find?_located (test : Str → Bool) (P : CpioEntry → Prop) :
    (∀ p, a.located.find? (fun p => test p.2.name) = some p → P p.2) ↔
      ∀ e, a.entries.find? (fun e => test e.name) = some e → P e := by
  have hentries : a.entries.find? (fun e => test e.name) =
      (a.located.find? fun p => test p.2.name).map Prod.snd := by
    rw [← map_snd_locate 0 a.entries, List.find?_map]
    rfl
  rw [hentries]
  cases a.located.find? fun p => test p.2.name with
  | none => simp
  | some p => simp

end Lookups

/-- For every archive, directory and name without slashes, `CpioLookup` finds the first entry whose
path is the path of the directory followed by the name, and only such an entry, if and only if the
first entry that is meant or joined is spelled as it should be. -/
theorem cpioLookup_firstEntry_iff (disk : ℕ → BitVec 8) (a : CpioArchive) (rounds : ℕ)
    (names : List Str) (c : Str) (hdisk : OnDisk disk 0 a.bytes)
    (hrounds : a.entries.length < rounds) (hnames : ∀ name ∈ names, NameOk name)
    (hc : slash ∉ c) :
    LooksUpFirst disk a rounds names c ↔ FirstSpelled a names c := by
  have hsame : LooksUpFirst disk a rounds names c ↔
      a.located.find? (fun p => Means names c p.2.name) =
        a.located.find? fun p => Joins names c p.2.name := by
    unfold LooksUpFirst CpioArchive.firstMeant
    simp only [cpioLookup_found_iff hdisk hrounds hc]
    constructor
    · intro hfound
      refine Option.ext fun p => ⟨fun hp => ?_, fun hp => ?_⟩
      · obtain ⟨q, hq, hnode⟩ := (hfound _).mpr ⟨p, hp, rfl⟩
        rwa [a.eq_of_cpioNode_eq hdisk (List.mem_of_find?_eq_some hp)
          (List.mem_of_find?_eq_some hq) hnode]
      · obtain ⟨q, hq, hnode⟩ := (hfound _).mp ⟨p, hp, rfl⟩
        rwa [a.eq_of_cpioNode_eq hdisk (List.mem_of_find?_eq_some hp)
          (List.mem_of_find?_eq_some hq) hnode]
    · intro heq n
      rw [heq]
  rw [hsame, find?_eq_find?_iff, FirstSpelled, ← find?_located
    (fun s => decide (Means names c s ∨ Joins names c s)) fun e => Spelled names c e.name]
  simp only [← Bool.decide_or, decide_eq_true_eq, means_and_joins_iff hnames hc]

theorem nameOk_of_mem_demo : ∀ name ∈ [([0x61] : Str)], NameOk name := by
  intro name hname
  rw [List.mem_singleton.mp hname]
  exact ⟨by decide, by decide⟩

/-- In the archive with `a/b`, the lookup of `b` in `/a`. -/
theorem cpioLookup_firstEntry_child :
    LooksUpFirst (directoryAndFile [0x61, 0x2f, 0x62] (by decide) (by decide)).disk
        (directoryAndFile [0x61, 0x2f, 0x62] (by decide) (by decide)) 3 [[0x61]] [0x62] ↔
      FirstSpelled (directoryAndFile [0x61, 0x2f, 0x62] (by decide) (by decide)) [[0x61]] [0x62] :=
  cpioLookup_firstEntry_iff _ _ 3 _ _ (CpioArchive.onDisk _) (by decide) nameOk_of_mem_demo
    (by decide)

/-- In the archive with `ab`, the lookup of `b` in `/a` finds an entry of the root. -/
theorem cpioLookup_glued : ¬∀ (disk : ℕ → BitVec 8) (a : CpioArchive) (rounds : ℕ)
    (names : List Str) (c : Str), OnDisk disk 0 a.bytes → a.entries.length < rounds →
      (∀ name ∈ names, NameOk name) → slash ∉ c → LooksUpFirst disk a rounds names c := by
  intro hall
  let a := directoryAndFile [0x61, 0x62] (by decide) (by decide)
  have hlookup := hall a.disk a 3 [[0x61]] [0x62] a.onDisk (by decide) nameOk_of_mem_demo
    (by decide)
  have hfound : ∃ n, cpioLookup a.disk 3 (dirPath [[0x61]]) [0x62] = some (.found n) :=
    (exists_cpioLookup_iff a.onDisk (by decide)).mpr
      ⟨[0x61, 0x62], by decide, by decide, by decide⟩
  obtain ⟨n, hn⟩ := hfound
  obtain ⟨p, hp, -⟩ := (hlookup n).mp hn
  have hnone : a.firstMeant [[0x61]] [0x62] = none := by decide
  rw [hnone] at hp
  cases hp

end Nxos.Fs
