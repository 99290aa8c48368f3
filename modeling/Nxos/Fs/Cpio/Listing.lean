import Mathlib.Data.List.Pairwise
import Nxos.Fs.Cpio.Walk

/-!
# Listings and lookups

`CpioReaddir` and `CpioLookup` match the names of entries in two ways.  `GetNextToken` lets one
slash end the name of a directory, `CheckPath` does not, and neither wants a slash between the path
of the directory and the name.  The listing of a directory is the list of its children, and has the
names that lookups find, when no entry of the archive shows the difference.
-/

namespace Nxos.Fs

/-! ## Children -/

def IsName (c : Str) : Prop := c ≠ [] ∧ slash ∉ c ∧ c ≠ [dot] ∧ c ≠ [dot, dot]

/-- The path of a child of a directory; the path of the root is empty. -/
def childPath (d c : Str) : Str := if d = [] then c else d ++ slash :: c

/-- An entry with the name `s` is the child `c` of the directory, up to a slash in front of its
path or behind it. -/
def IsChild (d c s : Str) : Prop :=
  IsName c ∧ (skipSlash s = childPath d c ∨ skipSlash s = childPath d c ++ [slash])

/-- An entry with the name `s` is shown as `c`: it does not begin with a dot, and continues the
path of the directory with `c`, up to a slash in front of `c` or behind it. -/
def Shown (d c s : Str) : Prop :=
  s.head? ≠ some dot ∧ slash ∉ c ∧ ∃ rest, skipSlash s = d ++ rest ∧ skipSlash rest ≠ [] ∧
    (skipSlash rest = c ∨ skipSlash rest = c ++ [slash])

def shownName (dir s : Str) : Option Str :=
  if s.head? = some dot then none else getNextToken s dir

section Names

variable {d c s t dir : Str}

theorem skipSlash_cons {b : BitVec 8} (hb : b ≠ slash) : skipSlash (b :: s) = b :: s := by
  simp [skipSlash, hb]

theorem skipSlash_slash_cons : skipSlash (slash :: s) = s := by
  simp [skipSlash]

/-- A test of the first characters is a test for a continuation. -/
theorem strEqualN_length_iff : strEqualN s d d.length = true ↔ ∃ rest, s = d ++ rest := by
  rw [strEqualN, beq_iff_eq, List.take_length]
  constructor
  · intro htake
    exact ⟨s.drop d.length, by conv_lhs => rw [← List.take_append_drop d.length s, htake]⟩
  · rintro ⟨rest, rfl⟩
    exact List.take_left' rfl

theorem exists_rest_iff {P : Str → Prop} (hrest : s = d ++ t) :
    (∃ rest, s = d ++ rest ∧ P rest) ↔ P t := by
  simp [hrest]

/-- What `GetNextToken` takes of a rest that is not empty: a name, or a name and a slash. -/
theorem token_eq_some : (if s.contains slash then
      if (s.dropWhile (· != slash)).tail ≠ [] then none else some (s.takeWhile (· != slash))
    else some s) = some c ↔ slash ∉ c ∧ (s = c ∨ s = c ++ [slash]) := by
  by_cases hmem : slash ∈ s
  · rw [if_pos (List.contains_iff_mem.mpr hmem)]
    constructor
    · intro htoken
      split at htoken
      · cases htoken
      · next htail =>
        obtain rfl := Option.some.inj htoken
        have hnot : slash ∉ s.takeWhile (· != slash) := by
          intro hslash
          simpa using List.mem_takeWhile_imp hslash
        refine ⟨hnot, .inr ?_⟩
        have hsplit := List.takeWhile_append_dropWhile (p := (· != slash)) (l := s)
        cases hdrop : s.dropWhile (· != slash) with
        | nil =>
            rw [hdrop, List.append_nil] at hsplit
            rw [hsplit] at hnot
            exact absurd hmem hnot
        | cons b rest =>
            have hb := List.head?_dropWhile_not (· != slash) s
            rw [hdrop] at hsplit hb htail
            have hslash : b = slash := by simpa using hb
            have hrest : rest = [] := by simpa using htail
            rw [hslash, hrest] at hsplit
            exact hsplit.symm
    · rintro ⟨hnot, rfl | rfl⟩
      · exact absurd hmem hnot
      · have hall : ∀ b ∈ c, (b != slash) = true := fun b hb =>
          bne_iff_ne.mpr fun heq => hnot (heq ▸ hb)
        rw [List.takeWhile_append_of_pos hall, List.dropWhile_append_of_pos hall]
        simp
  · rw [if_neg (mt List.contains_iff_mem.mp hmem), Option.some.injEq]
    constructor
    · rintro rfl
      exact ⟨hmem, .inl rfl⟩
    · rintro ⟨-, rfl | rfl⟩
      · rfl
      · simp at hmem

/-- `GetNextToken` takes one slash in front of the name and one behind it. -/
theorem getNextToken_eq_some : getNextToken s dir = some c ↔
    slash ∉ c ∧ ∃ rest, skipSlash s = skipSlash dir ++ rest ∧ skipSlash rest ≠ [] ∧
      (skipSlash rest = c ∨ skipSlash rest = c ++ [slash]) := by
  by_cases hmatch : strEqualN (skipSlash s) (skipSlash dir) (skipSlash dir).length = true
  · obtain ⟨rest, hrest⟩ := strEqualN_length_iff.mp hmatch
    have hdrop : (skipSlash s).drop (skipSlash dir).length = rest := by
      rw [hrest, List.drop_left]
    simp only [getNextToken, hmatch, Bool.not_true, Bool.false_eq_true, if_false, hdrop,
      exists_rest_iff hrest]
    by_cases hempty : rest = []
    · simp [hempty, skipSlash]
    · rw [if_neg hempty]
      by_cases hskip : skipSlash rest = []
      · simp [hskip]
      · rw [if_neg hskip, token_eq_some]
        exact and_congr_right fun _ => (and_iff_right hskip).symm
  · have hnone : getNextToken s dir = none := by
      simp [getNextToken, hmatch]
    rw [hnone]
    constructor
    · intro hsome
      cases hsome
    · rintro ⟨-, rest, hrest, -⟩
      exact absurd (strEqualN_length_iff.mpr ⟨rest, hrest⟩) hmatch

theorem shownName_eq_some : shownName dir s = some c ↔ Shown (skipSlash dir) c s := by
  rw [shownName, Shown]
  split
  · next hdot => simp [hdot]
  · next hdot => simp only [getNextToken_eq_some, ne_eq, hdot, not_false_eq_true, true_and]

/-- `CheckPath` takes one slash in front of the name. -/
theorem checkPath_iff : checkPath s dir c = true ↔
    ∃ rest, skipSlash s = skipSlash dir ++ rest ∧ skipSlash rest = c := by
  by_cases hmatch : strEqualN (skipSlash s) (skipSlash dir) (skipSlash dir).length = true
  · obtain ⟨rest, hrest⟩ := strEqualN_length_iff.mp hmatch
    have hdrop : (skipSlash s).drop (skipSlash dir).length = rest := by
      rw [hrest, List.drop_left]
    simp [checkPath, hmatch, hdrop, exists_rest_iff hrest]
  · have hlength : (skipSlash dir).length ≠ 0 := by
      intro hzero
      rw [List.length_eq_zero_iff] at hzero
      simp [hzero, strEqualN] at hmatch
    constructor
    · intro hcheck
      simp [checkPath, hmatch, hlength] at hcheck
    · rintro ⟨rest, hrest, -⟩
      exact absurd (strEqualN_length_iff.mpr ⟨rest, hrest⟩) hmatch

/-- A path ends like the rest behind a directory. -/
theorem getLast?_of_skipSlash {rest : Str} (hrest : skipSlash s = d ++ rest)
    (hne : skipSlash rest ≠ []) : s.getLast? = (skipSlash rest).getLast? := by
  have hskip (t : Str) (ht : skipSlash t ≠ []) : t.getLast? = (skipSlash t).getLast? := by
    cases t with
    | nil => rfl
    | cons b t =>
        rw [skipSlash] at ht ⊢
        split
        · next hb =>
          rw [if_pos hb] at ht
          exact List.getLast?_cons_of_ne_nil ht
        · rfl
  have hrest' : rest ≠ [] := by
    rintro rfl
    exact hne rfl
  rw [hskip s (by simp [hrest, hrest']), hrest, List.getLast?_append_of_ne_nil d hrest',
    hskip rest hne]

/-- `CpioLookup` accepts what is shown and does not end with a slash. -/
theorem accepts_iff (hname : IsName c) :
    s.head? ≠ some dot ∧ checkPath s dir c = true ↔
      Shown (skipSlash dir) c s ∧ s.getLast? ≠ some slash := by
  obtain ⟨hempty, hslash, -⟩ := hname
  rw [checkPath_iff]
  constructor
  · rintro ⟨hdot, rest, hrest, rfl⟩
    refine ⟨⟨hdot, hslash, rest, hrest, hempty, .inl rfl⟩, ?_⟩
    rw [getLast?_of_skipSlash hrest hempty]
    exact fun hlast => hslash (List.mem_of_getLast? hlast)
  · rintro ⟨⟨hdot, -, rest, hrest, hne, hc | hc⟩, hlast⟩
    · exact ⟨hdot, rest, hrest, hc⟩
    · rw [getLast?_of_skipSlash hrest hne, hc, List.getLast?_concat] at hlast
      exact absurd rfl hlast

theorem IsChild.shown (hchild : IsChild d c s) (hdot : s.head? ≠ some dot) : Shown d c s := by
  obtain ⟨⟨hempty, hslash, -⟩, hpath⟩ := hchild
  obtain ⟨b, c, rfl⟩ := List.exists_cons_of_ne_nil hempty
  have hb : b ≠ slash := fun heq => hslash (heq ▸ List.mem_cons_self)
  refine ⟨hdot, hslash, ?_⟩
  by_cases hroot : d = []
  · rw [childPath, if_pos hroot] at hpath
    refine ⟨skipSlash s, by rw [hroot, List.nil_append], ?_⟩
    rcases hpath with hpath | hpath
    · rw [hpath, skipSlash_cons hb]
      exact ⟨List.cons_ne_nil _ _, .inl rfl⟩
    · rw [hpath, List.cons_append, skipSlash_cons hb]
      exact ⟨List.cons_ne_nil _ _, .inr rfl⟩
  · rw [childPath, if_neg hroot] at hpath
    rcases hpath with hpath | hpath
    · exact ⟨slash :: b :: c, hpath, by simp [skipSlash], .inl skipSlash_slash_cons⟩
    · exact ⟨slash :: b :: (c ++ [slash]), by simp [hpath], by simp [skipSlash],
        .inr skipSlash_slash_cons⟩

end Names

/-! ## Visits -/

def shownEntries (dir : Str) (entries : List CpioEntry) : List (Str × BitVec 32) :=
  entries.filterMap fun e => (shownName dir e.name).map fun c => (c, e.header.mode)

section Visits

variable {dir c : Str} {off i : ℕ} {entries : List (ℕ × CpioEntry)}

theorem map_fst_shownEntries (es : List CpioEntry) :
    (shownEntries dir es).map Prod.fst = (es.map CpioEntry.name).filterMap (shownName dir) := by
  rw [shownEntries, List.map_filterMap, List.filterMap_map]
  apply List.filterMap_congr
  intro e _
  rw [Option.map_map]
  exact Option.map_id'

/-- `CpioReaddir` at an entry, by the name under which it is shown. -/
theorem readdirVisit_eq (pos : BitVec 64) (e : CpioEntry) :
    readdirVisit dir off i pos e.header =
      match shownName dir e.name with
      | none => .ok i
      | some name =>
          if vfsMaxName ≤ name.length then .error none
          else if i = off then .error (some (cpioDirent off name e.header.mode))
          else .ok (i + 1) := by
  by_cases hdot : e.name.head? = some dot
  · have hname : shownName dir e.name = none := if_pos hdot
    rw [hname]
    exact if_pos hdot
  · have hname : shownName dir e.name = getNextToken e.name dir := if_neg hdot
    rw [hname]
    exact if_neg hdot

/-- `CpioReaddir` gives the entry of its number among those that are shown, when the names fit. -/
theorem visitAll_readdir
    (hfits : ∀ q ∈ shownEntries dir (entries.map Prod.snd), q.1.length < vfsMaxName)
    (hle : i ≤ off) :
    visitAll (readdirVisit dir off) entries i =
      match (shownEntries dir (entries.map Prod.snd))[off - i]? with
      | some q => .found (some (cpioDirent off q.1 q.2))
      | none => .stopped .trailer (i + (shownEntries dir (entries.map Prod.snd)).length) := by
  induction entries generalizing i with
  | nil => rfl
  | cons p entries ih =>
      rw [visitAll, readdirVisit_eq]
      cases hname : shownName dir p.2.name with
      | none =>
          have hskip : shownEntries dir ((p :: entries).map Prod.snd) =
              shownEntries dir (entries.map Prod.snd) := by
            simp [shownEntries, hname]
          rw [hskip] at hfits ⊢
          exact ih hfits hle
      | some name =>
          have hshow : shownEntries dir ((p :: entries).map Prod.snd) =
              (name, p.2.header.mode) :: shownEntries dir (entries.map Prod.snd) := by
            simp [shownEntries, hname]
          rw [hshow] at hfits ⊢
          have hshort : ¬vfsMaxName ≤ name.length := Nat.not_le.mpr (hfits _ List.mem_cons_self)
          simp only [hshort, if_false]
          by_cases hoff : i = off
          · simp [hoff]
          · obtain ⟨k, hk⟩ : ∃ k, off - i = k + 1 := ⟨off - i - 1, by omega⟩
            have hk' : off - (i + 1) = k := by omega
            simp only [hoff, if_false]
            rw [ih (fun q hq => hfits q (List.mem_cons_of_mem _ hq)) (by omega), hk, hk',
              List.getElem?_cons_succ, List.length_cons, Nat.add_assoc, Nat.add_comm 1]

/-- `CpioReaddir` does not reach the trailer behind a name that does not fit. -/
theorem exists_readdir_found (off i : ℕ)
    (hlong : ∃ q ∈ shownEntries dir (entries.map Prod.snd), vfsMaxName ≤ q.1.length) :
    ∃ result, visitAll (readdirVisit dir off) entries i = .found result := by
  induction entries generalizing i with
  | nil => simp [shownEntries] at hlong
  | cons p entries ih =>
      rw [visitAll, readdirVisit_eq]
      cases hname : shownName dir p.2.name with
      | none =>
          apply ih
          simpa [shownEntries, hname] using hlong
      | some name =>
          by_cases hshort : vfsMaxName ≤ name.length
          · simp [hshort]
          · by_cases hoff : i = off
            · simp [hshort, hoff]
            · simp only [hshort, hoff, if_false]
              apply ih
              obtain ⟨q, hmem, hq⟩ := hlong
              simp only [shownEntries, List.map_cons, List.filterMap_cons, hname,
                Option.map_some] at hmem
              rcases List.mem_cons.mp hmem with rfl | hmem
              · exact absurd hq hshort
              · exact ⟨q, hmem, hq⟩

/-- `CpioLookup` finds the first entry that its tests accept. -/
theorem exists_lookup_found_iff : (∃ n, visitAll (lookupVisit dir c) entries () = .found n) ↔
    ∃ p ∈ entries, p.2.name.head? ≠ some dot ∧ checkPath p.2.name dir c = true := by
  induction entries with
  | nil => simp [visitAll]
  | cons p entries ih =>
      rw [visitAll, lookupVisit]
      by_cases haccept : p.2.name.head? ≠ some dot ∧ checkPath p.2.name dir c = true
      · have hpath : p.2.header.path = p.2.name := rfl
        simp [hpath, haccept]
      · have hpath : p.2.header.path = p.2.name := rfl
        rw [hpath, if_neg haccept, ih]
        constructor
        · rintro ⟨q, hmem, hq⟩
          exact ⟨q, List.mem_cons_of_mem _ hmem, hq⟩
        · rintro ⟨q, hmem, hq⟩
          rcases List.mem_cons.mp hmem with rfl | hmem
          · exact absurd hq haccept
          · exact ⟨q, hmem, hq⟩

end Visits

/-! ## Listings -/

def CpioArchive.names (a : CpioArchive) : List Str := a.entries.map CpioEntry.name

/-- What `CpioReaddir` gives for the numbers from zero on until it fails. -/
structure CpioLists (disk : ℕ → BitVec 8) (rounds : ℕ) (dir : Str) (ds : List VfsDirent) :
    Prop where
  entry : ∀ off (hoff : off < ds.length),
    cpioReaddir disk rounds dir off = some (.found (some ds[off]))
  fails : ∃ stop i, cpioReaddir disk rounds dir ds.length = some (.stopped stop i)

/-- The listing of a directory has its children, each once, and the names that lookups find. -/
structure CpioListed (disk : ℕ → BitVec 8) (a : CpioArchive) (rounds : ℕ) (dir : Str)
    (ds : List VfsDirent) : Prop extends CpioLists disk rounds dir ds where
  once : (ds.map VfsDirent.name).Nodup
  children : ∀ c, c ∈ ds.map VfsDirent.name ↔ ∃ s ∈ a.names, IsChild (skipSlash dir) c s
  lookups : ∀ c, IsName c →
    (c ∈ ds.map VfsDirent.name ↔ ∃ n, cpioLookup disk rounds dir c = some (.found n))

/-- No entry with the names shows a difference for the directory `d`. -/
structure CpioListable (names : List Str) (d : Str) : Prop where
  /-- What is shown fits into the buffer for a name. -/
  fits : ∀ s ∈ names, ∀ c, Shown d c s → c.length < vfsMaxName
  /-- What is shown does not end with a slash. -/
  noSlash : ∀ s ∈ names, ∀ c, Shown d c s → s.getLast? ≠ some slash
  /-- No two entries are shown alike. -/
  once : names.Pairwise fun s t => ∀ c, Shown d c s → ¬Shown d c t
  /-- What is shown is a child, or stands for a child whose entries all begin with a dot, and
  every such child has an entry that stands for it. -/
  child : ∀ c, (∃ s ∈ names, Shown d c s ∧ ¬IsChild d c s) ↔
    (∃ s ∈ names, IsChild d c s) ∧ ∀ s ∈ names, IsChild d c s → s.head? = some dot

theorem map_snd_locate (off : ℕ) (entries : List CpioEntry) :
    (locate off entries).map Prod.snd = entries := by
  induction entries generalizing off with
  | nil => rfl
  | cons e entries ih => simp [locate, ih]

section Listings

variable {disk : ℕ → BitVec 8} {a : CpioArchive} {rounds : ℕ} {dir c s t : Str}
  {ds : List VfsDirent}

/-- `CpioReaddir` on an archive whose names fit. -/
theorem cpioReaddir_eq (dir : Str) (hdisk : OnDisk disk 0 a.bytes) (hrounds : a.entries.length < rounds)
    (hfits : ∀ q ∈ shownEntries dir a.entries, q.1.length < vfsMaxName) (off : ℕ) :
    cpioReaddir disk rounds dir off =
      match (shownEntries dir a.entries)[off]? with
      | some q => some (.found (some (cpioDirent off q.1 q.2)))
      | none => some (.stopped .trailer (shownEntries dir a.entries).length) := by
  have hsnd : a.located.map Prod.snd = a.entries := map_snd_locate 0 a.entries
  rw [cpioReaddir, a.cpioLoop_eq hdisk hrounds,
    visitAll_readdir (by rwa [hsnd]) (Nat.zero_le off), hsnd, Nat.sub_zero, Nat.zero_add]
  cases (shownEntries dir a.entries)[off]? with
  | none => rfl
  | some q => rfl

theorem CpioLists.fits (hdisk : OnDisk disk 0 a.bytes) (hrounds : a.entries.length < rounds)
    (hlists : CpioLists disk rounds dir ds) :
    ∀ q ∈ shownEntries dir a.entries, q.1.length < vfsMaxName := by
  have hsnd : a.located.map Prod.snd = a.entries := map_snd_locate 0 a.entries
  by_contra hnot
  obtain ⟨q, hmem, hlong⟩ : ∃ q ∈ shownEntries dir a.entries, vfsMaxName ≤ q.1.length := by
    simpa using hnot
  rw [← hsnd] at hmem
  obtain ⟨result, hfound⟩ := exists_readdir_found ds.length 0 ⟨q, hmem, hlong⟩
  obtain ⟨stop, i, hfails⟩ := hlists.fails
  rw [cpioReaddir, a.cpioLoop_eq hdisk hrounds, hfound] at hfails
  cases hfails

theorem cpioLists_iff (hdisk : OnDisk disk 0 a.bytes) (hrounds : a.entries.length < rounds) :
    CpioLists disk rounds dir ds ↔
      (∀ q ∈ shownEntries dir a.entries, q.1.length < vfsMaxName) ∧
        ds = (shownEntries dir a.entries).mapIdx fun off q => cpioDirent off q.1 q.2 := by
  constructor
  · intro hlists
    have hfits := hlists.fits hdisk hrounds
    refine ⟨hfits, ?_⟩
    have hread := cpioReaddir_eq dir hdisk hrounds hfits
    apply List.ext_getElem?
    intro off
    rw [List.getElem?_mapIdx]
    by_cases hlt : off < ds.length
    · have hentry := (hread off).symm.trans (hlists.entry off hlt)
      rw [List.getElem?_eq_getElem hlt]
      cases hq : (shownEntries dir a.entries)[off]? with
      | none => simp [hq] at hentry
      | some q =>
          simp only [hq, Option.some.injEq, CpioOutcome.found.injEq] at hentry
          rw [← hentry]
          rfl
    · obtain ⟨stop, i, hfails⟩ := hlists.fails
      have hend : (shownEntries dir a.entries)[ds.length]? = none := by
        cases hq : (shownEntries dir a.entries)[ds.length]? with
        | none => rfl
        | some q => simp [hread, hq] at hfails
      have hle := List.getElem?_eq_none_iff.mp hend
      rw [List.getElem?_eq_none (by omega), List.getElem?_eq_none (by omega)]
      rfl
  · rintro ⟨hfits, rfl⟩
    have hread := cpioReaddir_eq dir hdisk hrounds hfits
    constructor
    · intro off hoff
      rw [List.length_mapIdx] at hoff
      rw [hread, List.getElem?_eq_getElem hoff, List.getElem_mapIdx]
    · refine ⟨.trailer, (shownEntries dir a.entries).length, ?_⟩
      rw [hread, List.length_mapIdx, List.getElem?_eq_none le_rfl]

theorem CpioLists.map_name (hdisk : OnDisk disk 0 a.bytes) (hrounds : a.entries.length < rounds)
    (hlists : CpioLists disk rounds dir ds) :
    ds.map VfsDirent.name = a.names.filterMap (shownName dir) := by
  obtain ⟨hfits, rfl⟩ := (cpioLists_iff hdisk hrounds).mp hlists
  rw [CpioArchive.names, ← map_fst_shownEntries]
  apply List.ext_getElem?
  intro off
  rw [List.getElem?_map, List.getElem?_mapIdx, List.getElem?_map, Option.map_map]
  apply Option.map_congr
  intro q hq
  have hshort := hfits q (List.mem_of_getElem? hq)
  exact List.take_of_length_le (by unfold vfsMaxName at *; omega)

theorem CpioLists.mem_iff (hdisk : OnDisk disk 0 a.bytes) (hrounds : a.entries.length < rounds)
    (hlists : CpioLists disk rounds dir ds) :
    c ∈ ds.map VfsDirent.name ↔ ∃ s ∈ a.names, Shown (skipSlash dir) c s := by
  simp only [hlists.map_name hdisk hrounds, List.mem_filterMap, shownName_eq_some]

theorem CpioLists.nodup_iff (hdisk : OnDisk disk 0 a.bytes) (hrounds : a.entries.length < rounds)
    (hlists : CpioLists disk rounds dir ds) : (ds.map VfsDirent.name).Nodup ↔
      a.names.Pairwise fun s t => ∀ c, Shown (skipSlash dir) c s → ¬Shown (skipSlash dir) c t := by
  rw [hlists.map_name hdisk hrounds, List.Nodup, List.pairwise_filterMap]
  simp only [shownName_eq_some]
  constructor
  · intro hnodup
    exact hnodup.imp fun hne c hs ht => hne c hs c ht rfl
  · intro hpairs
    refine hpairs.imp fun hnot c hs c' ht heq => ?_
    rw [← heq] at ht
    exact hnot c hs ht

theorem exists_cpioLookup_iff (hdisk : OnDisk disk 0 a.bytes)
    (hrounds : a.entries.length < rounds) :
    (∃ n, cpioLookup disk rounds dir c = some (.found n)) ↔
      ∃ s ∈ a.names, s.head? ≠ some dot ∧ checkPath s dir c = true := by
  have hsnd : a.names = a.located.map fun p => p.2.name := by
    rw [CpioArchive.names, ← map_snd_locate 0 a.entries, List.map_map]
    rfl
  simp only [cpioLookup, a.cpioLoop_eq hdisk hrounds, Option.some.injEq,
    exists_lookup_found_iff, hsnd, List.mem_map, exists_exists_and_eq_and]

theorem eq_of_shown {names : List Str} {d : Str}
    (honce : names.Pairwise fun s t => ∀ c, Shown d c s → ¬Shown d c t) (hs : s ∈ names)
    (ht : t ∈ names) (hshown : Shown d c s) (hshown' : Shown d c t) : s = t := by
  have hsymm : Std.Symm fun s t => ∀ c, Shown d c s → ¬Shown d c t :=
    ⟨fun _ _ hnot c ht hs => hnot c hs ht⟩
  by_contra hne
  exact honce.forall hs ht hne c hshown hshown'

/-- A listing that is right shows that the archive has no difference for the directory. -/
theorem CpioListed.listable (hdisk : OnDisk disk 0 a.bytes) (hrounds : a.entries.length < rounds)
    (hlisted : CpioListed disk a rounds dir ds) : CpioListable a.names (skipSlash dir) := by
  have hmem := fun c => hlisted.mem_iff (c := c) hdisk hrounds
  have honce := (hlisted.nodup_iff hdisk hrounds).mp hlisted.once
  refine ⟨?_, ?_, honce, ?_⟩
  · intro s hs c hshown
    have hc : c ∈ (shownEntries dir a.entries).map Prod.fst := by
      rw [map_fst_shownEntries, List.mem_filterMap]
      exact ⟨s, hs, shownName_eq_some.mpr hshown⟩
    obtain ⟨q, hq, rfl⟩ := List.mem_map.mp hc
    exact hlisted.fits hdisk hrounds q hq
  · intro s hs c hshown
    have hc := (hmem c).mpr ⟨s, hs, hshown⟩
    obtain ⟨t, -, hname, -⟩ := (hlisted.children c).mp hc
    -- a lookup finds the name, and only this entry has it
    obtain ⟨t, ht, haccepts⟩ :=
      (exists_cpioLookup_iff hdisk hrounds).mp ((hlisted.lookups c hname).mp hc)
    obtain ⟨hshown', hlast⟩ := (accepts_iff hname).mp haccepts
    rwa [eq_of_shown honce hs ht hshown hshown']
  · intro c
    constructor
    · rintro ⟨s, hs, hshown, hnot⟩
      refine ⟨(hlisted.children c).mp ((hmem c).mpr ⟨s, hs, hshown⟩), ?_⟩
      intro t ht hchild
      by_contra hdot
      exact hnot (eq_of_shown honce hs ht hshown (hchild.shown hdot) ▸ hchild)
    · rintro ⟨hchild, hdots⟩
      obtain ⟨s, hs, hshown⟩ := (hmem c).mp ((hlisted.children c).mpr hchild)
      exact ⟨s, hs, hshown, fun hchild => hshown.1 (hdots s hs hchild)⟩

theorem CpioListable.exists_listed (hdisk : OnDisk disk 0 a.bytes)
    (hrounds : a.entries.length < rounds) (hlistable : CpioListable a.names (skipSlash dir)) :
    ∃ ds, CpioListed disk a rounds dir ds := by
  have hfits : ∀ q ∈ shownEntries dir a.entries, q.1.length < vfsMaxName := by
    intro q hq
    have hc := List.mem_map_of_mem (f := Prod.fst) hq
    rw [map_fst_shownEntries, List.mem_filterMap] at hc
    obtain ⟨s, hs, hshown⟩ := hc
    exact hlistable.fits s hs q.1 (shownName_eq_some.mp hshown)
  have hlists := (cpioLists_iff hdisk hrounds).mpr ⟨hfits, rfl⟩
  refine ⟨_, hlists, (hlists.nodup_iff hdisk hrounds).mpr hlistable.once, ?_, ?_⟩
  · intro c
    rw [hlists.mem_iff hdisk hrounds]
    constructor
    · rintro ⟨s, hs, hshown⟩
      by_cases hchild : IsChild (skipSlash dir) c s
      · exact ⟨s, hs, hchild⟩
      · exact ((hlistable.child c).mp ⟨s, hs, hshown, hchild⟩).1
    · intro hchild
      by_cases hdots : ∀ s ∈ a.names, IsChild (skipSlash dir) c s → s.head? = some dot
      · obtain ⟨s, hs, hshown, -⟩ := (hlistable.child c).mpr ⟨hchild, hdots⟩
        exact ⟨s, hs, hshown⟩
      · simp only [not_forall] at hdots
        obtain ⟨s, hs, hchild, hdot⟩ := hdots
        exact ⟨s, hs, hchild.shown hdot⟩
  · intro c hname
    rw [hlists.mem_iff hdisk hrounds, exists_cpioLookup_iff hdisk hrounds]
    simp only [accepts_iff hname]
    constructor
    · rintro ⟨s, hs, hshown⟩
      exact ⟨s, hs, hshown, hlistable.noSlash s hs c hshown⟩
    · rintro ⟨s, hs, hshown, -⟩
      exact ⟨s, hs, hshown⟩

end Listings

/-- On an archive, the listing of a directory has exactly its children, each once, and exactly the
names that lookups find, if and only if no entry shows a difference for the directory. -/
theorem exists_cpioListed_iff (disk : ℕ → BitVec 8) (a : CpioArchive) (rounds : ℕ) (dir : Str)
    (hdisk : OnDisk disk 0 a.bytes) (hrounds : a.entries.length < rounds) :
    (∃ ds, CpioListed disk a rounds dir ds) ↔ CpioListable a.names (skipSlash dir) := by
  constructor
  · rintro ⟨ds, hlisted⟩
    exact hlisted.listable hdisk hrounds
  · intro hlistable
    exact hlistable.exists_listed hdisk hrounds

/-- The listing of `/a` in the archive with `a/b` is right. -/
theorem exists_cpioListed_child :
    ∃ ds, CpioListed (directoryAndFile [0x61, 0x2f, 0x62] (by decide) (by decide)).disk
      (directoryAndFile [0x61, 0x2f, 0x62] (by decide) (by decide)) 3 [0x2f, 0x61] ds := by
  refine (exists_cpioListed_iff _ _ 3 [0x2f, 0x61] (CpioArchive.onDisk _) (by decide)).mpr ?_
  have hshown : ∀ s ∈ [[0x61], [0x61, 0x2f, 0x62]], ∀ c, Shown [0x61] c s →
      s = [0x61, 0x2f, 0x62] ∧ c = [0x62] := by
    intro s hs c hshown
    have hname : shownName [0x2f, 0x61] s = some c := shownName_eq_some.mpr hshown
    rcases List.mem_pair.mp hs with rfl | rfl
    · cases hname
    · exact ⟨rfl, (Option.some.inj hname).symm⟩
  refine ⟨?_, ?_, ?_, ?_⟩
  · intro s hs c hc
    obtain ⟨-, rfl⟩ := hshown s hs c hc
    decide
  · intro s hs c hc
    obtain ⟨rfl, -⟩ := hshown s hs c hc
    decide
  · refine List.pairwise_pair.mpr fun c hc => ?_
    have := hshown _ List.mem_cons_self c hc
    simp at this
  · intro c
    constructor
    · rintro ⟨s, hs, hc, hnot⟩
      obtain ⟨rfl, rfl⟩ := hshown s hs c hc
      exact absurd ⟨⟨by decide, by decide, by decide, by decide⟩, .inl rfl⟩ hnot
    · rintro ⟨⟨s, hs, hchild⟩, hdots⟩
      have hdot := hdots s hs hchild
      rcases List.mem_pair.mp hs with rfl | rfl
      · cases hdot
      · cases hdot

/-- In the archive with `ab`, the directory `/a` has no child, but `b` is listed and found in it. -/
theorem exists_not_cpioListed : ¬ ∀ (disk : ℕ → BitVec 8) (a : CpioArchive) (rounds : ℕ) (dir : Str),
    OnDisk disk 0 a.bytes → a.entries.length < rounds →
      (∃ e ∈ a.entries, e.name = skipSlash dir ∧ cpioType e.header.mode = .dir) →
        ∃ ds, CpioListed disk a rounds dir ds := by
  intro hall
  let a := directoryAndFile [0x61, 0x62] (by decide) (by decide)
  obtain ⟨ds, hlisted⟩ := hall a.disk a 3 [0x2f, 0x61] a.onDisk (by decide)
    ⟨_, List.mem_cons_self, by decide, by decide⟩
  have hname : shownName [0x2f, 0x61] [0x61, 0x62] = some [0x62] := by decide
  have hshown : Shown [0x61] [0x62] [0x61, 0x62] := shownName_eq_some.mp hname
  have hmem : [0x62] ∈ ds.map VfsDirent.name :=
    (hlisted.mem_iff a.onDisk (by decide)).mpr
      ⟨_, List.mem_cons_of_mem _ List.mem_cons_self, hshown⟩
  obtain ⟨s, hs, -, hpath⟩ := (hlisted.children _).mp hmem
  have hnone : ∀ s ∈ a.names, skipSlash s ≠ childPath [0x61] [0x62] ∧
      skipSlash s ≠ childPath [0x61] [0x62] ++ [slash] := by
    decide
  exact hpath.elim (hnone s hs).1 (hnone s hs).2

end Nxos.Fs
