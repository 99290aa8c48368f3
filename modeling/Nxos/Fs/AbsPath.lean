import Mathlib.Data.List.TakeWhile
import Nxos.Base.Kernel
import Nxos.Fs.Buffer
import Nxos.Support.Names

/-!
# Absolute paths

The embedding of `NX_VfsBuildAbsPath`.  The rest of the path stands in a buffer and is moved to its
start behind every slash, while `leftLen` goes on counting the slashes; the result is a walk along
the pieces of the path.
-/

namespace Nxos.Fs

open Nxos.Names

/-! ## Strings -/

/-- `NX_StrCopyN` to a buffer that is not empty: the string that is left there, and the result. -/
def strCopyN (src : Str) (len : ℕ) : Str × ℕ :=
  (src.take (if len ≤ src.length then len - 1 else src.length), src.length)

/-- `NX_StrCatN`: the string that is left in the destination, and the result. -/
def strCatN (dest src : Str) (n : ℕ) : Str × ℕ :=
  let len := if n - dest.length ≤ src.length then n - dest.length - 1 else src.length
  (dest ++ src.take len, dest.length + src.length)

/-- The string that `NX_StrChr` searches in the buffer `left`. -/
def Buffer.pathString (left : Buffer) : Str := cString (left.bytes vfsMaxPath)

/-! ## The function -/

/-- A round of the loop behind its token, with the path so far and `fullLen`. -/
def applyToken (absPath : Str) (fullLen : ℕ) (nextToken : Str) :
    Exec (Except NxError (Str × ℕ)) :=
  if fullLen = 0 then .error .outOfBounds
  else if absPath[fullLen - 1]? ≠ some slash ∧ vfsMaxPath ≤ fullLen + 1 then .ok (.error .einval)
  else
    let (absPath, fullLen) :=
      if absPath[fullLen - 1]? ≠ some slash then (absPath.take fullLen ++ [slash], fullLen + 1)
      else (absPath, fullLen)
    if nextToken = [] ∨ nextToken = [dot] then .ok (.ok (absPath, fullLen))
    else if nextToken = [dot, dot] then
      if 1 < fullLen then
        match cutAtSlash (absPath.take (fullLen - 1)) with
        | none => .error .nullDeref
        | some parent => .ok (.ok (parent ++ [slash], parent.length + 1))
      else .ok (.ok (absPath, fullLen))
    else
      let (absPath, fullLen) := strCatN absPath nextToken vfsMaxPath
      if vfsMaxPath ≤ fullLen then .ok (.error .einval) else .ok (.ok (absPath, fullLen))

/-- The loop of `NX_VfsBuildAbsPath`. -/
def buildLoop : ℕ → Buffer → ℕ → Str → ℕ → Exec (Except NxError (Str × ℕ))
  | 0, _, leftLen, absPath, fullLen =>
      if leftLen = 0 then .ok (.ok (absPath, fullLen)) else .error .diverge
  | rounds + 1, left, leftLen, absPath, fullLen =>
      if leftLen = 0 then .ok (.ok (absPath, fullLen))
      else
        let p := left.pathString.idxOf? slash
        let n := p.getD leftLen
        if vfsMaxPath ≤ n then .ok (.error .error)
        else
          let nextToken := cString (left.bytes n)
          let leftLen := leftLen - n
          let left :=
            match p with
            | none => left
            | some n => left.moveDown (n + 1) (leftLen + 1)
          match applyToken absPath fullLen nextToken with
          | .ok (.ok (absPath, fullLen)) => buildLoop rounds left leftLen absPath fullLen
          | result => result

/-- `NX_VfsBuildAbsPath` from the path to begin with and the rest on.  Every round but the last
reads a slash. -/
def buildFrom (stale : Buffer) (absPath : Str) (fullLen : ℕ) (rest : Str) :
    Exec (Except NxError Str) :=
  let (copied, leftLen) := strCopyN rest vfsMaxPath
  if vfsMaxPath ≤ leftLen ∨ vfsMaxPath ≤ fullLen then .ok (.error .einval)
  else
    match buildLoop (leftLen + 1) (stale.write (copied ++ [0])) leftLen absPath fullLen with
    | .error fault => .error fault
    | .ok (.error err) => .ok (.error err)
    | .ok (.ok (absPath, fullLen)) =>
        .ok (.ok (if 1 < fullLen ∧ absPath[fullLen - 1]? = some slash then
          absPath.take (fullLen - 1) else absPath))

/-- `NX_VfsBuildAbsPath` in a process with the current directory `cwd`, or in a kernel thread;
`stale` is what the buffer `left` holds before. -/
def vfsBuildAbsPath (stale : Buffer) (cwd : Option Str) (path : Str) : Exec (Except NxError Str) :=
  if path.head? = some slash then
    if path.tail = [] then .ok (.ok [slash]) else buildFrom stale [slash] 1 path.tail
  else
    match cwd with
    | none => .ok (.error .enores)
    | some cwd =>
        let absPath := (strCopyN cwd vfsMaxPath).1
        buildFrom stale absPath absPath.length path

/-! ## Walks -/

def StaysHere (token : Str) : Prop := token = [] ∨ token = [dot]

instance : DecidablePred StaysHere := fun token =>
  inferInstanceAs (Decidable (token = [] ∨ token = [dot]))

/-- `..` -/
def GoesUp (token : Str) : Prop := token = [dot, dot]

instance : DecidablePred GoesUp := fun token => inferInstanceAs (Decidable (token = [dot, dot]))

def PlainName (name : Str) : Prop := slash ∉ name ∧ Plain StaysHere GoesUp name

instance : DecidablePred PlainName := fun name =>
  inferInstanceAs (Decidable (slash ∉ name ∧ ¬StaysHere name ∧ ¬GoesUp name))

/-- The components that a path leads to: empty pieces and `.` stay, `..` goes up, but not above
the root. -/
def normalNames (path : Str) : List Str := walk StaysHere GoesUp [] (path.splitOn slash)

theorem PlainName.nameOk {name : Str} (h : PlainName name) : NameOk name :=
  ⟨fun hnil => h.2.1 (.inl hnil), h.1⟩

theorem plainName_of_walk {names tokens : List Str} (hnames : ∀ name ∈ names, PlainName name)
    (htokens : ∀ token ∈ tokens, slash ∉ token) :
    ∀ name ∈ walk StaysHere GoesUp names tokens, PlainName name :=
  walk_forall hnames fun token hmem hplain => ⟨htokens token hmem, hplain⟩

/-- A normalised absolute path, in a buffer for a path. -/
structure AbsolutePath where
  names : List Str
  plain : ∀ name ∈ names, PlainName name
  noZero : ∀ name ∈ names, 0 ∉ name
  short : (dirPath names).length < vfsMaxPath

/-- The string of a path. -/
def AbsolutePath.path (p : AbsolutePath) : Str := dirPath p.names

theorem AbsolutePath.nameOk (p : AbsolutePath) : ∀ name ∈ p.names, NameOk name :=
  fun name hmem => (p.plain name hmem).nameOk

/-! ## Pieces -/

section Pieces

variable {p token : Str} {names : List Str}

theorem splitOn_slash_cases (p : Str) : slash ∉ p ∧ p.splitOn slash = [p] ∨
    ∃ first rest, p = first ++ slash :: rest ∧ slash ∉ first ∧
      p.splitOn slash = first :: rest.splitOn slash := by
  by_cases hmem : slash ∈ p
  · obtain ⟨first, rest, rfl, hfirst⟩ := List.eq_append_cons_of_mem hmem
    exact .inr ⟨first, rest, rfl, hfirst, List.splitOn_append_cons_self_of_not_mem hfirst rest⟩
  · exact .inl ⟨hmem, List.splitOn_eq_singleton hmem⟩

theorem idxOf?_slash {first : Str} (hfirst : slash ∉ first) (rest : Str) :
    (first ++ slash :: rest).idxOf? slash = some first.length := by
  induction first with
  | nil => simp [List.idxOf?_cons]
  | cons c first ih =>
      rw [List.mem_cons, not_or] at hfirst
      rw [List.cons_append, List.idxOf?_cons, if_neg (by simpa using Ne.symm hfirst.1), ih hfirst.2]
      rfl

theorem forall_splitOn (p : Str) : ∀ token ∈ p.splitOn slash, slash ∉ token ∧ token ⊆ p := by
  induction hn : p.length using Nat.strong_induction_on generalizing p with
  | _ n ih =>
    intro token hmem
    rcases splitOn_slash_cases p with ⟨hnot, hsplit⟩ | ⟨first, rest, hp, hfirst, hsplit⟩
    · rw [hsplit, List.mem_singleton] at hmem
      subst hmem
      exact ⟨hnot, List.Subset.refl token⟩
    · rw [hsplit] at hmem
      rcases List.mem_cons.mp hmem with rfl | hmem
      · exact ⟨hfirst, hp ▸ List.subset_append_left _ _⟩
      · have hlt : rest.length < n := by
          rw [← hn, hp, List.length_append, List.length_cons]
          omega
        obtain ⟨hnot, hsub⟩ := ih rest.length hlt rest rfl token hmem
        refine ⟨hnot, fun c hc => ?_⟩
        rw [hp]
        exact List.mem_append_right _ (List.mem_cons_of_mem _ (hsub hc))

theorem not_mem_of_mem_splitOn (hmem : token ∈ p.splitOn slash) : slash ∉ token :=
  (forall_splitOn p token hmem).1

end Pieces

/-! ## Rounds -/

def openPath (names : List Str) : Str := nodePath names ++ [slash]

/-- The path of a place, with or without a slash behind it. -/
def IsPlace (names : List Str) (absPath : Str) : Prop :=
  absPath = dirPath names ∨ absPath = openPath names

/-- What the loop has made of the path: an error, or a place with its length. -/
def Reaches (names : List Str) : Except NxError (Str × ℕ) → Prop
  | .error _ => True
  | .ok (absPath, fullLen) =>
      IsPlace names absPath ∧ fullLen = absPath.length ∧ fullLen < vfsMaxPath

section Rounds

variable {names tokens : List Str} {token name absPath : Str}

theorem openPath_length_pos : 0 < (openPath names).length := by
  simp [openPath]

theorem openPath_getLast : (openPath names)[(openPath names).length - 1]? = some slash := by
  simp [openPath]

theorem openPath_take_pred :
    (openPath names).take ((openPath names).length - 1) = nodePath names := by
  simp [openPath]

theorem nodePath_getLast (hname : NameOk name) :
    (nodePath (names ++ [name]))[(nodePath (names ++ [name])).length - 1]? ≠ some slash := by
  obtain ⟨c, rest, hrest⟩ := List.exists_cons_of_ne_nil (List.reverse_ne_nil_iff.mpr hname.1)
  have hlast : name = rest.reverse ++ [c] := by
    rw [← List.reverse_cons, ← hrest, List.reverse_reverse]
  have hc : c ≠ slash := by
    rintro rfl
    exact hname.2 (hlast ▸ by simp)
  rw [nodePath_concat, hlast]
  simpa using hc

theorem isPlace_cases (hplace : IsPlace names absPath) : absPath = openPath names ∨
    ∃ parents last, names = parents ++ [last] ∧ absPath = nodePath names := by
  rcases hplace with rfl | rfl
  · rcases names.eq_nil_or_concat' with rfl | ⟨parents, last, rfl⟩
    · exact .inl rfl
    · exact .inr ⟨parents, last, rfl, dirPath_concat parents last⟩
  · exact .inl rfl

theorem applyToken_openPath (hnames : ∀ name ∈ names, NameOk name)
    (hlen : (openPath names).length < vfsMaxPath) :
    ∃ r, applyToken (openPath names) (openPath names).length token = .ok r ∧
      Reaches (follow StaysHere GoesUp names token) r := by
  have hpos : (openPath names).length ≠ 0 := openPath_length_pos.ne'
  unfold applyToken
  simp only [hpos, if_false, openPath_getLast, ne_eq, not_true_eq_false, false_and]
  by_cases hhere : token = [] ∨ token = [dot]
  · rw [if_pos hhere]
    refine ⟨_, rfl, ?_, rfl, hlen⟩
    rw [follow_here (show StaysHere token from hhere)]
    exact .inr rfl
  · rw [if_neg hhere]
    by_cases hup : token = [dot, dot]
    · rw [if_pos hup, openPath_take_pred]
      have hfollow : follow StaysHere GoesUp names token = names.dropLast := follow_up hhere hup
      rcases names.eq_nil_or_concat' with rfl | ⟨parents, last, rfl⟩
      · exact ⟨_, rfl, hfollow ▸ .inr rfl, rfl, hlen⟩
      · have hlast := hnames last (by simp)
        have hone : 1 < (openPath (parents ++ [last])).length := by
          simp only [openPath, nodePath_concat, List.length_append, List.length_cons,
            List.length_nil]
          omega
        have hle : (openPath parents).length ≤ (openPath (parents ++ [last])).length := by
          simp only [openPath, nodePath_concat, List.length_append, List.length_cons]
          omega
        rw [if_pos hone, cutAtSlash_nodePath hlast]
        refine ⟨_, rfl, ?_, by simp, ?_⟩
        · rw [hfollow, List.dropLast_concat]
          exact .inr rfl
        · simpa [openPath] using hle.trans_lt hlen
    · rw [if_neg hup]
      have hfollow : follow StaysHere GoesUp names token = names ++ [token] :=
        follow_plain ⟨hhere, hup⟩
      unfold strCatN
      simp only
      split
      · exact ⟨_, rfl, trivial⟩
      · next hlong =>
        rw [if_neg (by omega), List.take_length]
        refine ⟨_, rfl, ?_, by simp, by omega⟩
        left
        rw [hfollow, dirPath_concat, nodePath_concat, openPath, List.append_assoc,
          List.singleton_append]

/-- A token at a place whose path does not end with a slash: the slash is put there first. -/
theorem applyToken_nodePath (hname : NameOk name)
    (hlen : (nodePath (names ++ [name])).length + 1 < vfsMaxPath) :
    applyToken (nodePath (names ++ [name])) (nodePath (names ++ [name])).length token =
      applyToken (openPath (names ++ [name])) (openPath (names ++ [name])).length token := by
  have hpos : (nodePath (names ++ [name])).length ≠ 0 := by
    simp [nodePath_concat]
  have hpos' : (openPath (names ++ [name])).length ≠ 0 := openPath_length_pos.ne'
  have hlong : ¬vfsMaxPath ≤ (nodePath (names ++ [name])).length + 1 := by omega
  have hsucc : (nodePath (names ++ [name])).length + 1 = (openPath (names ++ [name])).length := by
    simp [openPath]
  unfold applyToken
  simp only [hpos, hpos', if_false, nodePath_getLast hname, openPath_getLast, ne_eq,
    not_true_eq_false, not_false_eq_true, false_and, true_and, hlong, if_true, List.take_length]
  rw [← openPath, hsucc]

theorem applyToken_place (hnames : ∀ name ∈ names, NameOk name)
    (hplace : IsPlace names absPath) (hlen : absPath.length < vfsMaxPath) :
    ∃ r, applyToken absPath absPath.length token = .ok r ∧
      Reaches (follow StaysHere GoesUp names token) r := by
  rcases isPlace_cases hplace with rfl | ⟨parents, last, rfl, rfl⟩
  · exact applyToken_openPath hnames hlen
  · have hlast := hnames last (by simp)
    by_cases hlong : vfsMaxPath ≤ (nodePath (parents ++ [last])).length + 1
    · refine ⟨.error .einval, ?_, trivial⟩
      have hpos : (nodePath (parents ++ [last])).length ≠ 0 := by
        simp [nodePath_concat]
      rw [applyToken, if_neg hpos, if_pos ⟨nodePath_getLast hlast, hlong⟩]
    · rw [applyToken_nodePath hlast (by omega)]
      refine applyToken_openPath hnames ?_
      rw [openPath, List.length_append, List.length_singleton]
      omega

/-- A component that fits is put behind a place. -/
theorem applyToken_name (hnames : ∀ name ∈ names, NameOk name) (hplain : PlainName name)
    (hlen : (nodePath (names ++ [name])).length < vfsMaxPath) :
    applyToken (dirPath names) (dirPath names).length name =
      .ok (.ok (nodePath (names ++ [name]), (nodePath (names ++ [name])).length)) := by
  have hname := List.length_pos_iff.mpr hplain.nameOk.1
  have hsplit : (nodePath (names ++ [name])).length = (openPath names).length + name.length := by
    simp only [openPath, nodePath_concat, List.length_append, List.length_cons, List.length_nil]
    omega
  have hopen : applyToken (openPath names) (openPath names).length name =
      .ok (.ok (nodePath (names ++ [name]), (nodePath (names ++ [name])).length)) := by
    have hpos : (openPath names).length ≠ 0 := openPath_length_pos.ne'
    have hhere : ¬(name = [] ∨ name = [dot]) := hplain.2.1
    have hup : ¬name = [dot, dot] := hplain.2.2
    unfold applyToken strCatN
    simp only [hpos, if_false, openPath_getLast, ne_eq, not_true_eq_false, false_and, hhere, hup]
    rw [if_neg (by omega), if_neg (by omega), List.take_length, hsplit]
    simp only [openPath, nodePath_concat, List.append_assoc, List.singleton_append]
  rcases names.eq_nil_or_concat' with rfl | ⟨parents, last, rfl⟩
  · exact hopen
  · rw [dirPath_concat, applyToken_nodePath (hnames last (by simp)), hopen]
    have hlonger : (openPath (parents ++ [last])).length =
        (nodePath (parents ++ [last])).length + 1 := by
      simp [openPath]
    omega

end Rounds

/-! ## The loop -/

def applyTokens : Str → ℕ → List Str → Exec (Except NxError (Str × ℕ))
  | absPath, fullLen, [] => .ok (.ok (absPath, fullLen))
  | absPath, fullLen, token :: tokens =>
      match applyToken absPath fullLen token with
      | .ok (.ok (absPath, fullLen)) => applyTokens absPath fullLen tokens
      | result => result

section Loop

variable {names tokens : List Str} {left stale : Buffer} {s absPath : Str}
  {leftLen fullLen rounds : ℕ}

theorem Buffer.Holds.pathString (h : left.Holds s) (hlen : s.length < vfsMaxPath) :
    left.pathString = s :=
  h.cString_bytes hlen.le

/-- The loop reads the pieces of what the buffer holds: `leftLen` is not below the length of the
string, and reaches zero behind the last piece alone. -/
theorem buildLoop_eq (hleft : left.Holds s) (hlen : s.length ≤ leftLen) (hpos : leftLen ≠ 0)
    (hfit : leftLen < vfsMaxPath) (hrounds : s.length < rounds) :
    buildLoop rounds left leftLen absPath fullLen =
      applyTokens absPath fullLen (s.splitOn slash) := by
  induction rounds generalizing left s leftLen absPath fullLen with
  | zero => exact absurd hrounds (Nat.not_lt_zero _)
  | succ rounds ih =>
    rw [buildLoop, if_neg hpos]
    simp only [hleft.pathString (hlen.trans_lt hfit)]
    rcases splitOn_slash_cases s with ⟨hnot, hsplit⟩ | ⟨first, rest, rfl, hfirst, hsplit⟩
    · -- The last piece: what is left of `leftLen` is read with it.
      have hnone : s.idxOf? slash = none := List.idxOf?_eq_none_iff.mpr hnot
      simp only [hnone, Option.getD_none, hleft.cString_bytes hlen, Nat.sub_self, hsplit,
        applyTokens]
      rw [if_neg (by omega)]
      rcases applyToken absPath fullLen s with fault | err | ⟨next, nextLen⟩
      · rfl
      · rfl
      · cases rounds <;> simp [buildLoop]
    · rw [List.length_append, List.length_cons] at hlen hrounds
      have hsome := idxOf?_slash hfirst rest
      have hread : cString (left.bytes first.length) = first := by
        have hzero : ∀ c ∈ first, (c != 0) = true := fun c hc => bne_iff_ne.mpr fun heq =>
          hleft.noZero (heq ▸ List.mem_append_left _ hc)
        rw [hleft.take (by simp), List.take_left, cString]
        exact List.takeWhile_eq_self_iff.mpr hzero
      have hmoved : (left.moveDown (first.length + 1) (leftLen - first.length + 1)).Holds rest := by
        have hsplit' : left.Holds ((first ++ [slash]) ++ rest) := by
          simpa using hleft
        have hmove := hsplit'.moveDown (n := leftLen - first.length + 1) (by omega)
        rwa [List.length_append, List.length_singleton] at hmove
      simp only [hsome, Option.getD_some, hread, hsplit, applyTokens]
      rw [if_neg (by omega)]
      rcases applyToken absPath fullLen first with fault | err | ⟨next, nextLen⟩
      · rfl
      · rfl
      · exact ih hmoved (by omega) (by omega) (by omega) (by omega)

theorem applyTokens_place (hnames : ∀ name ∈ names, PlainName name)
    (htokens : ∀ token ∈ tokens, slash ∉ token) (hplace : IsPlace names absPath)
    (hlen : absPath.length < vfsMaxPath) :
    ∃ r, applyTokens absPath absPath.length tokens = .ok r ∧
      Reaches (walk StaysHere GoesUp names tokens) r := by
  induction tokens generalizing names absPath with
  | nil => exact ⟨_, rfl, hplace, rfl, hlen⟩
  | cons token tokens ih =>
      obtain ⟨r, hr, hreaches⟩ : ∃ r, applyToken absPath absPath.length token = .ok r ∧
          Reaches (follow StaysHere GoesUp names token) r :=
        applyToken_place (fun name hmem => (hnames name hmem).nameOk) hplace hlen
      rw [applyTokens, hr]
      rcases r with err | ⟨next, nextLen⟩
      · exact ⟨_, rfl, trivial⟩
      · obtain ⟨hnext, rfl, hlen'⟩ := hreaches
        refine ih ?_ (fun token hmem => htokens token (List.mem_cons_of_mem _ hmem)) hnext hlen'
        exact follow_forall hnames fun hplain => ⟨htokens token List.mem_cons_self, hplain⟩

/-- Components that fit are put behind a place. -/
theorem applyTokens_names (hnames : ∀ name ∈ names, PlainName name)
    (htokens : ∀ token ∈ tokens, PlainName token)
    (hlen : (dirPath (names ++ tokens)).length < vfsMaxPath) :
    applyTokens (dirPath names) (dirPath names).length tokens =
      .ok (.ok (dirPath (names ++ tokens), (dirPath (names ++ tokens)).length)) := by
  induction tokens generalizing names with
  | nil => rw [List.append_nil, applyTokens]
  | cons token tokens ih =>
      have hsplit : names ++ token :: tokens = (names ++ [token]) ++ tokens := by simp
      have hplain := htokens token List.mem_cons_self
      have hfit : (nodePath (names ++ [token])).length < vfsMaxPath := by
        have hdir : dirPath (names ++ token :: tokens) =
            nodePath (names ++ [token]) ++ nodePath tokens := by
          rw [hsplit, dirPath, if_neg (by simp), nodePath, List.flatMap_append, ← nodePath,
            ← nodePath]
        rw [hdir, List.length_append] at hlen
        omega
      rw [applyTokens, applyToken_name (fun name hmem => (hnames name hmem).nameOk) hplain hfit]
      simp only [← dirPath_concat]
      rw [hsplit] at hlen ⊢
      refine ih ?_ (fun token hmem => htokens token (List.mem_cons_of_mem _ hmem)) hlen
      intro name hmem
      rcases List.mem_append.mp hmem with hmem | hmem
      · exact hnames name hmem
      · exact List.mem_singleton.mp hmem ▸ hplain

theorem IsPlace.trim (hplace : IsPlace names absPath) (hnames : ∀ name ∈ names, NameOk name) :
    (if 1 < absPath.length ∧ absPath[absPath.length - 1]? = some slash then
      absPath.take (absPath.length - 1) else absPath) = dirPath names := by
  rcases names.eq_nil_or_concat' with rfl | ⟨parents, last, rfl⟩
  · rcases hplace with rfl | rfl <;> rfl
  · rcases hplace with rfl | rfl
    · rw [dirPath_concat, if_neg fun h => nodePath_getLast (hnames last (by simp)) h.2]
    · have hlong : 1 < (openPath (parents ++ [last])).length := by
        simp only [openPath, nodePath_concat, List.length_append, List.length_cons,
          List.length_nil]
        omega
      rw [if_pos ⟨hlong, openPath_getLast⟩, openPath_take_pred, dirPath_concat]

/-- The function from a place on, in terms of the pieces of the rest. -/
theorem buildFrom_eq (hrest : 0 ∉ s) (hfull : fullLen < vfsMaxPath) :
    buildFrom stale absPath fullLen s =
      if vfsMaxPath ≤ s.length then .ok (.error .einval)
      else
        match applyTokens absPath fullLen (if s = [] then [] else s.splitOn slash) with
        | .error fault => .error fault
        | .ok (.error err) => .ok (.error err)
        | .ok (.ok (absPath, fullLen)) =>
            .ok (.ok (if 1 < fullLen ∧ absPath[fullLen - 1]? = some slash then
              absPath.take (fullLen - 1) else absPath)) := by
  unfold buildFrom strCopyN
  simp only
  by_cases hlong : vfsMaxPath ≤ s.length
  · rw [if_pos (.inl hlong), if_pos hlong]
  · rw [if_neg (by omega), if_neg hlong, if_neg hlong, List.take_length]
    by_cases hnil : s = []
    · rw [if_pos hnil, hnil]
      rfl
    · rw [if_neg hnil, buildLoop_eq (Buffer.holds_write hrest) le_rfl
        (fun hzero => hnil (List.length_eq_zero_iff.mp hzero)) (by omega) (Nat.lt_succ_self _)]

/-- The function from a place on returns an error, or the place that the rest leads to. -/
theorem buildFrom_place (hnames : ∀ name ∈ names, PlainName name) (hplace : IsPlace names absPath)
    (hlen : absPath.length < vfsMaxPath) (hrest : 0 ∉ s) :
    ∃ r, buildFrom stale absPath absPath.length s = .ok r ∧ ∀ out, r = .ok out →
      out = dirPath (walk StaysHere GoesUp names (s.splitOn slash)) ∧ out.length < vfsMaxPath := by
  have hwalk : walk StaysHere GoesUp names (if s = [] then [] else s.splitOn slash) =
      walk StaysHere GoesUp names (s.splitOn slash) := by
    split
    · next hnil =>
      rw [hnil, List.splitOn_nil, walk_cons, follow_here (.inl rfl)]
    · rfl
  have htokens : ∀ token ∈ if s = [] then [] else s.splitOn slash, slash ∉ token := by
    intro token hmem
    split at hmem
    · exact absurd hmem List.not_mem_nil
    · exact not_mem_of_mem_splitOn hmem
  rw [buildFrom_eq hrest hlen]
  split
  · exact ⟨_, rfl, nofun⟩
  · obtain ⟨r, hr, hreaches⟩ := applyTokens_place hnames htokens hplace hlen
    rw [hr]
    rcases r with err | ⟨next, nextLen⟩
    · exact ⟨_, rfl, nofun⟩
    · obtain ⟨hnext, rfl, hlen'⟩ := hreaches
      have hok : ∀ name ∈ walk StaysHere GoesUp names (s.splitOn slash), NameOk name :=
        fun name hmem =>
          (plainName_of_walk hnames (fun token => not_mem_of_mem_splitOn) name hmem).nameOk
      rw [hwalk] at hnext
      refine ⟨_, rfl, fun out hout => ?_⟩
      have hshort : out.length ≤ next.length := by
        rw [← Except.ok.inj hout]
        split
        · exact List.length_take_le _ _ |>.trans (Nat.sub_le _ _)
        · exact le_rfl
      rw [hnext.trim hok] at hout
      exact ⟨(Except.ok.inj hout).symm, hshort.trans_lt hlen'⟩

end Loop

/-! ## Normalised paths -/

/-- A path with the current directory in front of it when it is relative. -/
def fullPath (cwd path : Str) : Str :=
  if path.head? = some slash then path else cwd ++ slash :: path

/-- The answer of `NX_VfsBuildAbsPath` for a path. -/
structure IsNormalised (full out : Str) : Prop where
  components : out = slash :: List.intercalate [slash] (normalNames full)
  noTrailing : out = [slash] ∨ out.getLast? ≠ some slash
  short : out.length < vfsMaxPath
  fixed : ∀ stale cwd, vfsBuildAbsPath stale cwd out = .ok (.ok out)

section Normalised

variable {names cwd : List Str} {path : Str}

theorem dirPath_eq_intercalate (names : List Str) :
    dirPath names = slash :: List.intercalate [slash] names := by
  induction names with
  | nil => rfl
  | cons name names ih =>
      rw [dirPath, if_neg (List.cons_ne_nil _ _), nodePath_cons]
      cases names with
      | nil => rw [nodePath_nil, List.append_nil, List.intercalate_singleton]
      | cons next names =>
          rw [dirPath, if_neg (List.cons_ne_nil _ _)] at ih
          rw [ih, List.intercalate_cons_cons, List.append_assoc, List.singleton_append]

theorem dirPath_getLast (hnames : ∀ name ∈ names, NameOk name) :
    dirPath names = [slash] ∨ (dirPath names).getLast? ≠ some slash := by
  rcases names.eq_nil_or_concat' with rfl | ⟨parents, last, rfl⟩
  · exact .inl rfl
  · rw [dirPath_concat, List.getLast?_eq_getElem?]
    exact .inr (nodePath_getLast (hnames last (by simp)))

/-- The components of an absolute path are those behind its slash. -/
theorem normalNames_slash (rest : Str) :
    normalNames (slash :: rest) = walk StaysHere GoesUp [] (rest.splitOn slash) := by
  have hsplit : (slash :: rest).splitOn slash = [] :: rest.splitOn slash :=
    List.splitOn_append_cons_self_of_not_mem List.not_mem_nil rest
  rw [normalNames, hsplit, walk_cons, follow_here (.inl rfl)]

theorem AbsolutePath.normalNames_path (p : AbsolutePath) : normalNames p.path = p.names := by
  unfold path dirPath
  split
  · next hnil =>
    rw [hnil]
    rfl
  · rw [normalNames, splitOn_nodePath p.nameOk, walk_cons, follow_here (.inl rfl),
      walk_plain fun name hmem => (p.plain name hmem).2, List.nil_append]

theorem normalNames_relative (cwd : AbsolutePath) (path : Str) :
    normalNames (cwd.path ++ slash :: path) =
      walk StaysHere GoesUp cwd.names (path.splitOn slash) := by
  rw [normalNames, List.splitOn_append_cons_self, walk_append]
  congr 1
  exact cwd.normalNames_path

theorem not_mem_dirPath (hnames : ∀ name ∈ names, 0 ∉ name) : 0 ∉ dirPath names := by
  have hslash : (0 : BitVec 8) ≠ slash := by decide
  unfold dirPath
  split
  · simpa using hslash
  · intro hmem
    obtain ⟨name, hname, hmem⟩ := List.mem_flatMap.mp hmem
    exact hnames name hname ((List.mem_cons.mp hmem).resolve_left hslash)

theorem AbsolutePath.vfsBuildAbsPath_path (p : AbsolutePath) (stale : Buffer) (cwd : Option Str) :
    vfsBuildAbsPath stale cwd p.path = .ok (.ok p.path) := by
  obtain ⟨names, hplain, hnoZero, hlen⟩ := p
  have hok : ∀ name ∈ names, NameOk name := fun name hmem => (hplain name hmem).nameOk
  change vfsBuildAbsPath stale cwd (dirPath names) = .ok (.ok (dirPath names))
  cases names with
  | nil => rfl
  | cons name rest =>
      have hcons : dirPath (name :: rest) = slash :: (name ++ nodePath rest) := by
        rw [dirPath, if_neg (List.cons_ne_nil _ _), nodePath_cons]
      have hne : name ++ nodePath rest ≠ [] := fun hnil =>
        (hok name List.mem_cons_self).1 (List.append_eq_nil_iff.mp hnil).1
      have hpieces : (name ++ nodePath rest).splitOn slash = name :: rest := by
        have hall := splitOn_nodePath hok
        rw [nodePath_cons, ← List.nil_append (slash :: _),
          List.splitOn_append_cons_self_of_not_mem List.not_mem_nil] at hall
        exact (List.cons.inj hall).2
      have hrest : 0 ∉ name ++ nodePath rest := fun hmem =>
        not_mem_dirPath hnoZero (hcons ▸ List.mem_cons_of_mem _ hmem)
      have hshort : ¬vfsMaxPath ≤ (name ++ nodePath rest).length := by
        rw [hcons, List.length_cons] at hlen
        omega
      have hplace : IsPlace (name :: rest) (dirPath (name :: rest)) := .inl rfl
      have hstart : applyTokens (dirPath []) (dirPath []).length (name :: rest) = .ok (.ok _) :=
        applyTokens_names (by simp) hplain hlen
      change applyTokens [slash] 1 (name :: rest) = _ at hstart
      have hbuild : buildFrom stale [slash] 1 (name ++ nodePath rest) =
          .ok (.ok (dirPath (name :: rest))) := by
        rw [buildFrom_eq hrest (by decide), if_neg hshort, if_neg hne, hpieces, hstart]
        exact congrArg _ (congrArg _ (hplace.trim hok))
      rw [hcons] at hbuild ⊢
      unfold vfsBuildAbsPath
      rw [List.head?_cons, if_pos rfl, List.tail_cons, if_neg hne, hbuild]

def AbsolutePath.root : AbsolutePath where
  names := []
  plain := by simp
  noZero := by simp
  short := by decide

theorem AbsolutePath.buildFrom_path (p : AbsolutePath) (stale : Buffer) (hpath : 0 ∉ path) :
    ∃ r, buildFrom stale p.path p.path.length path = .ok r ∧ ∀ out, r = .ok out →
      ∃ q : AbsolutePath, q.path = out ∧
        q.names = walk StaysHere GoesUp p.names (path.splitOn slash) := by
  obtain ⟨r, hr, hout⟩ : ∃ r, buildFrom stale p.path p.path.length path = .ok r ∧ ∀ out,
      r = .ok out → out = dirPath (walk StaysHere GoesUp p.names (path.splitOn slash)) ∧
        out.length < vfsMaxPath := buildFrom_place p.plain (.inl rfl) p.short hpath
  refine ⟨r, hr, fun out heq => ?_⟩
  obtain ⟨hpath', hlen⟩ := hout out heq
  have hplain := plainName_of_walk p.plain fun token (hmem : token ∈ path.splitOn slash) =>
    (forall_splitOn path token hmem).1
  have hnoZero : ∀ name ∈ walk StaysHere GoesUp p.names (path.splitOn slash), 0 ∉ name :=
    walk_forall p.noZero fun token hmem _ hzero =>
      hpath ((forall_splitOn path token hmem).2 hzero)
  exact ⟨⟨_, hplain, hnoZero, hpath' ▸ hlen⟩, hpath'.symm, rfl⟩

/-- The function returns an error, or the path of the components that the path leads to. -/
theorem vfsBuildAbsPath_returns (stale : Buffer) (cwd : AbsolutePath) (hpath : 0 ∉ path) :
    ∃ r, vfsBuildAbsPath stale (some cwd.path) path = .ok r ∧ ∀ out, r = .ok out →
      ∃ p : AbsolutePath, p.path = out ∧ p.names = normalNames (fullPath cwd.path path) := by
  unfold vfsBuildAbsPath fullPath
  split
  · next habs =>
    obtain ⟨rest, rfl⟩ : ∃ rest, path = slash :: rest := by
      cases path with
      | nil => cases habs
      | cons c rest => exact ⟨rest, by rw [List.head?_cons, Option.some.injEq] at habs; rw [habs]⟩
    rw [List.tail_cons, normalNames_slash]
    split
    · next hnil =>
      subst hnil
      exact ⟨_, rfl, fun out heq => ⟨.root, Except.ok.inj heq, rfl⟩⟩
    · exact AbsolutePath.root.buildFrom_path stale fun hmem => hpath (List.mem_cons_of_mem _ hmem)
  · rw [normalNames_relative]
    have hcopy : (strCopyN cwd.path vfsMaxPath).1 = cwd.path := by
      have hshort : ¬vfsMaxPath ≤ cwd.path.length := Nat.not_le_of_lt cwd.short
      rw [strCopyN, if_neg hshort, List.take_length]
    simp only [hcopy]
    exact cwd.buildFrom_path stale hpath

def currentPath (cwd : Option AbsolutePath) : Str := (cwd.getD .root).path

/-- The components that a path of the caller leads to. -/
def callerNames (cwd : Option AbsolutePath) (path : Str) : List Str :=
  normalNames (fullPath (currentPath cwd) path)

/-- `NX_VfsBuildAbsPath` with or without a current directory. -/
theorem vfsBuildAbsPath_caller (stale : Buffer) (cwd : Option AbsolutePath) (hpath : 0 ∉ path) :
    ∃ r, vfsBuildAbsPath stale (cwd.map AbsolutePath.path) path = .ok r ∧ ∀ out, r = .ok out →
      ∃ p : AbsolutePath, p.path = out ∧ p.names = callerNames cwd path := by
  cases cwd with
  | some cwd => exact vfsBuildAbsPath_returns stale cwd hpath
  | none =>
      obtain ⟨r, hr, hout⟩ := vfsBuildAbsPath_returns stale .root hpath
      by_cases habs : path.head? = some slash
      · refine ⟨r, ?_, hout⟩
        rw [← hr]
        unfold vfsBuildAbsPath
        rw [if_pos habs, if_pos habs]
      · refine ⟨.error .enores, ?_, nofun⟩
        unfold vfsBuildAbsPath
        rw [if_neg habs]
        rfl

end Normalised

end Nxos.Fs
