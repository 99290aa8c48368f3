import Mathlib.Data.List.Nodup
import Nxos.Fs.AbsPath
import Nxos.Fs.Devfs
import Nxos.Fs.Vfs.Acquire

/-!
# The mount of a path

`VfsFindRoot` compares the path with the paths of the mounts character by character and keeps the
longest match.  For normalised paths this is the longest prefix in components, and only one mount
has it.
-/

namespace Nxos.Fs

/-! ## Matches -/

section Match

variable {s t path : Str} {names names' : List Str}

theorem matchLoop_append (s t : Str) : matchLoop (s ++ t) s = (s.length, t, []) := by
  induction s with
  | nil => cases t <;> rfl
  | cons c s ih =>
      rw [List.cons_append, matchLoop, if_neg (not_not_intro rfl), ih]
      rfl

theorem matchLoop_reaches (h : (matchLoop path s).2.2 = []) : ∃ t, path = s ++ t := by
  induction s generalizing path with
  | nil => exact ⟨path, rfl⟩
  | cons d s ih =>
      cases path with
      | nil => cases h
      | cons c path =>
          rw [matchLoop] at h
          split at h
          · cases h
          · next hcd =>
            obtain ⟨t, rfl⟩ := ih h
            exact ⟨t, by rw [not_not.mp hcd, List.cons_append]⟩

/-- A path that goes on behind another one with a slash goes on with components. -/
theorem prefix_of_nodePath_append (hnames : ∀ name ∈ names, NameOk name)
    (hnames' : ∀ name ∈ names', NameOk name)
    (heq : nodePath names' = nodePath names ++ t) (ht : t = [] ∨ t.head? = some slash) :
    names <+: names' := by
  rcases ht with rfl | ht
  · rw [List.append_nil] at heq
    rw [nodePath_injective hnames' hnames heq]
  · obtain ⟨rest, rfl⟩ : ∃ rest, t = slash :: rest := by
      cases t with
      | nil => cases ht
      | cons c rest => exact ⟨rest, by rw [List.head?_cons, Option.some.injEq] at ht; rw [ht]⟩
    have hsplit := congrArg (List.splitOn slash) heq
    rw [splitOn_nodePath hnames', List.splitOn_append_cons_self, splitOn_nodePath hnames,
      List.cons_append, List.cons.injEq] at hsplit
    exact ⟨_, hsplit.2.symm⟩

theorem nodePath_append : nodePath (names ++ names') = nodePath names ++ nodePath names' := by
  simp [nodePath]

theorem nodePath_head (names : List Str) :
    nodePath names = [] ∨ (nodePath names).head? = some slash := by
  cases names with
  | nil => exact .inl rfl
  | cons name names => exact .inr (by rw [nodePath_cons, List.head?_cons])

theorem dirPath_of_ne_nil (hne : names ≠ []) : dirPath names = nodePath names := if_neg hne

theorem one_lt_length_nodePath (hnames : ∀ name ∈ names, NameOk name) (hne : names ≠ []) :
    1 < (nodePath names).length := by
  obtain ⟨name, rest, rfl⟩ := List.exists_cons_of_ne_nil hne
  have hname := List.length_pos_iff.mpr (hnames name List.mem_cons_self).1
  rw [nodePath_cons, List.length_cons, List.length_append]
  omega

/-- `CountMatch` of a string that begins the path, and is not the root. -/
theorem countMatch_append (hs : 1 < s.length) :
    countMatch (s ++ t) s = if t = [] ∨ t.head? = some slash then s.length else 0 := by
  unfold countMatch
  rw [matchLoop_append]
  simp only [ne_eq, not_true_eq_false, if_false]
  rw [if_neg fun h => hs.ne' h.1]

theorem countMatch_of_not_start (h : ¬∃ t, path = s ++ t) : countMatch path s = 0 := by
  have hrest : (matchLoop path s).2.2 ≠ [] := fun hnil => h (matchLoop_reaches hnil)
  unfold countMatch
  simp only
  rw [if_pos hrest]

/-- `CountMatch` on normalised paths: the length of the path of a mount that is a prefix in
components. -/
theorem countMatch_dirPath (hnames : ∀ name ∈ names, NameOk name)
    (hnames' : ∀ name ∈ names', NameOk name) :
    countMatch (dirPath names') (dirPath names) =
      if names <+: names' then (dirPath names).length else 0 := by
  by_cases hroot : names = []
  · -- The path of the root matches every path, by the special case.
    subst hroot
    obtain ⟨t, ht⟩ : ∃ t, dirPath names' = [slash] ++ t := ⟨_, dirPath_eq_intercalate names'⟩
    rw [if_pos List.nil_prefix, ht]
    unfold countMatch
    rw [dirPath, if_pos rfl, matchLoop_append]
    rfl
  · have hlong := one_lt_length_nodePath hnames hroot
    rw [dirPath_of_ne_nil hroot]
    by_cases hbegins : ∃ t, dirPath names' = nodePath names ++ t
    · obtain ⟨t, ht⟩ := hbegins
      have hne : names' ≠ [] := by
        rintro rfl
        have hlen := congrArg List.length ht
        rw [List.length_append] at hlen
        change 1 = _ at hlen
        omega
      rw [ht, countMatch_append hlong]
      rw [dirPath_of_ne_nil hne] at ht
      refine if_congr ⟨fun hend => ?_, ?_⟩ rfl rfl
      · exact prefix_of_nodePath_append hnames hnames' ht hend
      · rintro ⟨rest, rfl⟩
        rw [nodePath_append, List.append_cancel_left_eq] at ht
        exact ht ▸ nodePath_head rest
    · rw [countMatch_of_not_start hbegins, if_neg]
      rintro ⟨rest, rfl⟩
      refine hbegins ⟨nodePath rest, ?_⟩
      rw [dirPath_of_ne_nil (by simp [hroot]), nodePath_append]

theorem dirPath_length_lt (hnames : ∀ name ∈ names', NameOk name) (hpart : names <+: names')
    (hlt : names.length < names'.length) : (dirPath names).length < (dirPath names').length := by
  obtain ⟨rest, rfl⟩ := hpart
  have hrest : rest ≠ [] := by
    rintro rfl
    simp at hlt
  have hlong := one_lt_length_nodePath (fun name hmem => hnames name (List.mem_append_right _ hmem))
    hrest
  have hlonger : (dirPath (names ++ rest)).length =
      (nodePath names).length + (nodePath rest).length := by
    rw [dirPath_of_ne_nil (by simp [hrest]), nodePath_append, List.length_append]
  rw [hlonger]
  unfold dirPath
  split
  · rw [List.length_singleton]
    omega
  · omega

/-- The components behind a prefix, as the rest of the path without slashes in front. -/
theorem drop_dirPath (hnames : ∀ name ∈ names ++ names', NameOk name) :
    ((dirPath (names ++ names')).drop (dirPath names).length).dropWhile (· == slash) =
      List.intercalate [slash] names' := by
  have hskip : (List.intercalate [slash] names').dropWhile (· == slash) =
      List.intercalate [slash] names' := by
    cases names' with
    | nil => rfl
    | cons name rest =>
        obtain ⟨hne, hslash⟩ := hnames name (by simp)
        obtain ⟨c, chars, rfl⟩ := List.exists_cons_of_ne_nil hne
        have hc : (c == slash) = false := by
          rw [beq_eq_false_iff_ne]
          rintro rfl
          exact hslash List.mem_cons_self
        cases rest with
        | nil => rw [List.intercalate_singleton, List.dropWhile_cons, hc, if_neg Bool.false_ne_true]
        | cons next rest =>
            rw [List.intercalate_cons_cons, List.cons_append, List.cons_append,
              List.dropWhile_cons, hc, if_neg Bool.false_ne_true]
  by_cases hroot : names = []
  · have hone : (dirPath names).length = 1 := by
      rw [hroot]
      rfl
    rw [hone, hroot, List.nil_append, dirPath_eq_intercalate]
    exact hskip
  · rw [dirPath_of_ne_nil hroot, dirPath_of_ne_nil (by simp [hroot]), nodePath_append,
      List.drop_left]
    by_cases hnil : names' = []
    · rw [hnil]
      rfl
    · rw [← dirPath_of_ne_nil hnil, dirPath_eq_intercalate, List.dropWhile_cons,
        if_pos (beq_self_eq_true slash), hskip]

end Match

/-! ## Finding the mount -/

section FindRoot

variable {σ : Type} {v w : Vfs σ} {path : AbsolutePath} {m : ℕ} {root : Str}

/-- The components of the path of a mount. -/
def Vfs.mountNames (v : Vfs σ) (m : ℕ) : List Str := normalNames (v.mount m).path

/-- The paths of the mounts are normalised, and no two are the same. -/
structure Vfs.MountsNormal (v : Vfs σ) : Prop where
  normal : ∀ m ∈ v.mounts, ∃ p : AbsolutePath, (v.mount m).path = p.path
  distinct : (v.mounts.map fun m => (v.mount m).path).Nodup

/-- The mount has the longest path that is a prefix in components. -/
structure Vfs.LongestMount (v : Vfs σ) (names : List Str) (m : ℕ) : Prop where
  mem : m ∈ v.mounts
  isPrefix : v.mountNames m <+: names
  longest : ∀ m' ∈ v.mounts, v.mountNames m' <+: names →
    (v.mountNames m').length ≤ (v.mountNames m).length

namespace Vfs.MountsNormal

theorem path_eq (h : v.MountsNormal) (hm : m ∈ v.mounts) :
    (v.mount m).path = dirPath (v.mountNames m) ∧ ∀ name ∈ v.mountNames m, NameOk name := by
  obtain ⟨p, hp⟩ := h.normal m hm
  rw [Vfs.mountNames, hp, p.normalNames_path]
  exact ⟨rfl, p.nameOk⟩

theorem countMatch_eq (h : v.MountsNormal) (path : AbsolutePath) (hm : m ∈ v.mounts) :
    countMatch path.path (v.mount m).path =
      if v.mountNames m <+: path.names then (dirPath (v.mountNames m)).length else 0 := by
  obtain ⟨hpath, hnames⟩ := h.path_eq hm
  rw [hpath]
  exact countMatch_dirPath hnames path.nameOk

theorem longestMount_unique (h : v.MountsNormal) {names : List Str} {m' : ℕ}
    (hm : v.LongestMount names m) (hm' : v.LongestMount names m') : m = m' := by
  have hlen := (hm'.longest m hm.mem hm.isPrefix).antisymm (hm.longest m' hm'.mem hm'.isPrefix)
  have hnames := (List.prefix_of_prefix_length_le hm.isPrefix hm'.isPrefix hlen.le).eq_of_length hlen
  refine List.inj_on_of_nodup_map h.distinct hm.mem hm'.mem ?_
  rw [(h.path_eq hm.mem).1, (h.path_eq hm'.mem).1, hnames]

end Vfs.MountsNormal

/-- What `VfsFindRoot` keeps: nothing, or the longest mount. -/
theorem Vfs.MountsNormal.scan (h : v.MountsNormal) (path : AbsolutePath) :
    (vfsFindRoot v path.path = none ∧ ∀ m ∈ v.mounts, ¬v.mountNames m <+: path.names) ∨
      ∃ m, v.LongestMount path.names m ∧ vfsFindRoot v path.path =
        some (m, List.intercalate [slash] (path.names.drop (v.mountNames m).length)) := by
  have hlength : ∀ names : List Str, 0 < (dirPath names).length := fun names => by
    rw [dirPath_eq_intercalate]
    exact Nat.succ_pos _
  rcases foldl_longerMatch v path.path with ⟨hfold, hzero⟩ | ⟨m, hm, hfold, hpos, hmax⟩
  · left
    constructor
    · unfold vfsFindRoot
      simp only [hfold, Option.map_none]
    · intro m hm hpart
      have hcount := hzero m hm
      simp only [h.countMatch_eq path hm, if_pos hpart] at hcount
      exact (hlength _).ne' hcount
  · right
    have hpart : v.mountNames m <+: path.names := by
      by_contra hnot
      simp only [h.countMatch_eq path hm, if_neg hnot, Nat.lt_irrefl] at hpos
    refine ⟨m, ⟨hm, hpart, fun m' hm' hpart' => ?_⟩, ?_⟩
    · -- A longer prefix would have a longer path, and would have been kept.
      by_contra hlt
      rw [Nat.not_le] at hlt
      have hle := hmax m' hm'
      simp only [h.countMatch_eq path hm, h.countMatch_eq path hm', if_pos hpart,
        if_pos hpart'] at hle
      have hshorter := dirPath_length_lt (h.path_eq hm').2
        (List.prefix_of_prefix_length_le hpart hpart' hlt.le) hlt
      omega
    · obtain ⟨rest, hrest⟩ := hpart
      have hnames : ∀ name ∈ v.mountNames m ++ rest, NameOk name := hrest ▸ path.nameOk
      simp only [h.countMatch_eq path hm, if_pos (show v.mountNames m <+: path.names from
        ⟨rest, hrest⟩)] at hfold
      unfold vfsFindRoot
      simp only [hfold, Option.map_some]
      rw [AbsolutePath.path, ← hrest, drop_dirPath hnames, List.drop_left]

theorem Vfs.MountsNormal.vfsFindRoot_eq_some_iff (h : v.MountsNormal) (path : AbsolutePath) :
    vfsFindRoot v path.path = some (m, root) ↔ v.LongestMount path.names m ∧
      root = List.intercalate [slash] (path.names.drop (v.mountNames m).length) := by
  rcases h.scan path with ⟨hnone, hno⟩ | ⟨m', hm', hsome⟩
  · rw [hnone]
    constructor
    · nofun
    · rintro ⟨hm, -⟩
      exact absurd hm.isPrefix (hno m hm.mem)
  · rw [hsome, Option.some.injEq, Prod.mk.injEq]
    constructor
    · rintro ⟨rfl, rfl⟩
      exact ⟨hm', rfl⟩
    · rintro ⟨hm, rfl⟩
      obtain rfl := h.longestMount_unique hm hm'
      exact ⟨rfl, rfl⟩

theorem Vfs.MountsNormal.vfsFindRoot_eq_none_iff (h : v.MountsNormal) (path : AbsolutePath) :
    vfsFindRoot v path.path = none ↔ ∀ m ∈ v.mounts, ¬v.mountNames m <+: path.names := by
  rcases h.scan path with ⟨hnone, hno⟩ | ⟨m, hm, hsome⟩
  · exact iff_of_true hnone hno
  · rw [hsome]
    exact iff_of_false (by simp) fun hno => hno m hm.mem hm.isPrefix

theorem Vfs.MountsNormal.vfsFindRoot_perm (h : v.MountsNormal) (path : AbsolutePath)
    {mounts : List ℕ} (hperm : mounts.Perm v.mounts) :
    vfsFindRoot { v with mounts := mounts } path.path = vfsFindRoot v path.path := by
  have hnormal : ({ v with mounts := mounts } : Vfs σ).MountsNormal :=
    ⟨fun m hm => h.normal m (hperm.mem_iff.mp hm), ((hperm.map _).nodup_iff).mpr h.distinct⟩
  have hlongest : ∀ m, ({ v with mounts := mounts } : Vfs σ).LongestMount path.names m ↔
      v.LongestMount path.names m := fun m =>
    ⟨fun hm => ⟨hperm.mem_iff.mp hm.mem, hm.isPrefix,
        fun m' hm' => hm.longest m' (hperm.mem_iff.mpr hm')⟩,
      fun hm => ⟨hperm.mem_iff.mpr hm.mem, hm.isPrefix,
        fun m' hm' => hm.longest m' (hperm.mem_iff.mp hm')⟩⟩
  refine Option.ext fun ⟨m, root⟩ => ?_
  rw [hnormal.vfsFindRoot_eq_some_iff, h.vfsFindRoot_eq_some_iff, hlongest]
  rfl

end FindRoot

/-- For normalised paths, `VfsFindRoot` answers with a mount and a rest if and only if the mount has
the longest path that is a prefix in components and the rest is what stands behind it; it fails
if and only if there is no such mount, and the order of the mounts does not matter. -/
theorem vfsFindRoot_longestPrefix {σ : Type} (v : Vfs σ) (hnormal : v.MountsNormal)
    (path : AbsolutePath) :
    (∀ m root, vfsFindRoot v path.path = some (m, root) ↔ v.LongestMount path.names m ∧
      root = List.intercalate [slash] (path.names.drop (v.mountNames m).length)) ∧
    (vfsFindRoot v path.path = none ↔ ∀ m ∈ v.mounts, ¬v.mountNames m <+: path.names) ∧
    ∀ mounts : List ℕ, mounts.Perm v.mounts →
      vfsFindRoot { v with mounts := mounts } path.path = vfsFindRoot v path.path :=
  ⟨fun _ _ => hnormal.vfsFindRoot_eq_some_iff path, hnormal.vfsFindRoot_eq_none_iff path,
    fun _ => hnormal.vfsFindRoot_perm path⟩

/-- The paths `/`, `/a` and `/ab`. -/
def mountedAt : ℕ → AbsolutePath
  | 0 => .root
  | 1 => ⟨[[0x61]], by decide, by decide, by decide⟩
  | _ => ⟨[[0x61, 0x62]], by decide, by decide, by decide⟩

def threeMounts : Vfs Unit where
  fsState := ()
  mounts := [0, 1, 2]
  mount m := ⟨readOnlyFs fun _ _ => none, none, (mountedAt m).path, 0, 1, none, none⟩
  nodeList _ := []
  node _ := ⟨0, 0, [], .blank⟩
  allocs := 3
  memory _ := true

/-- The path `/a/b`. -/
def pathAB : AbsolutePath := ⟨[[0x61], [0x62]], by decide, by decide, by decide⟩

/-- The mount of `/a/b` is the one at `/a`, with the rest `b`. -/
theorem vfsFindRoot_longestPrefix_three :
    vfsFindRoot threeMounts pathAB.path = some (1, [0x62]) ∧
      threeMounts.LongestMount pathAB.names 1 := by
  have hfind : vfsFindRoot threeMounts pathAB.path = some (1, [0x62]) := by decide
  have hnormal : threeMounts.MountsNormal := ⟨fun m _ => ⟨mountedAt m, rfl⟩, by decide⟩
  exact ⟨hfind, (((vfsFindRoot_longestPrefix threeMounts hnormal pathAB).1 1 [0x62]).mp hfind).1⟩

end Nxos.Fs
