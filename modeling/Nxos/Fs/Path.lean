import Mathlib.Data.List.Basic
import Mathlib.Data.List.Infix

/-!
# Path strings

Strings are the characters before the terminating zero.  The path of a cached node is a chain
of components, each after a slash, and the last component is cut off at the last slash.
-/

namespace Nxos.Fs

/-- A `char` string, without its terminator. -/
abbrev Str := List (BitVec 8)

/-- `'/'` -/
def slash : BitVec 8 := 0x2f

/-- `'.'` -/
def dot : BitVec 8 := 0x2e

/-- `NX_VFS_MAX_PATH` -/
def vfsMaxPath : ℕ := 1024

/-- The string at the start of a buffer. -/
def cString (buf : List (BitVec 8)) : Str := buf.takeWhile (· != 0)

/-- `NX_StrCmpN(a, b, n) == 0`: the characters agree up to the terminator or the limit. -/
def strEqualN (a b : Str) (n : ℕ) : Bool := a.take n == b.take n

/-! ## The components of a path -/

structure Token where
  name : Str
  followed : Bool
  deriving DecidableEq

/-- The rounds of the loop of `VfsNodeAcquire` on its string: skip slashes, read a name. -/
def tokensFrom : ℕ → Str → List Token
  | 0, _ => []
  | rounds + 1, p =>
      let p := p.dropWhile (· == slash)
      if p = [] then []
      else
        let rest := p.dropWhile (· != slash)
        ⟨p.takeWhile (· != slash), rest != []⟩ :: tokensFrom rounds rest

/-- The components of a path.  Each round reads a character, so there are enough of them. -/
def tokens (p : Str) : List Token := tokensFrom p.length p

/-- A component: not empty, and without a slash. -/
def NameOk (name : Str) : Prop := name ≠ [] ∧ slash ∉ name

def nodePath (names : List Str) : Str := names.flatMap (slash :: ·)

/-- The path of the node of a chain: a root has the path `/`. -/
def dirPath (names : List Str) : Str := if names = [] then [slash] else nodePath names

/-- The part of a path before its last slash, if there is one: `NX_StrChrReverse` and the
terminator that is written there. -/
def cutAtSlash (path : Str) : Option Str :=
  if slash ∈ path then some (path.reverse.dropWhile (· != slash)).tail.reverse else none

section Tokens

private theorem nameOk_takeWhile {p : Str} (hne : p.dropWhile (· == slash) ≠ []) :
    NameOk ((p.dropWhile (· == slash)).takeWhile (· != slash)) := by
  have hfirst := List.head_dropWhile_not (· == slash) hne
  obtain ⟨c, rest, hrest⟩ := List.exists_cons_of_ne_nil hne
  simp only [hrest, List.head_cons] at hfirst
  constructor
  · rw [hrest, List.takeWhile_cons, if_pos (by simpa using hfirst)]
    exact List.cons_ne_nil _ _
  · intro hmem
    simpa using List.all_eq_true.mp (List.all_takeWhile (p := (· != slash))) slash hmem

theorem nameOk_of_mem_tokensFrom {rounds : ℕ} {p : Str} {token : Token}
    (hmem : token ∈ tokensFrom rounds p) : NameOk token.name := by
  induction rounds generalizing p with
  | zero => cases hmem
  | succ rounds ih =>
      rw [tokensFrom] at hmem
      split at hmem
      · cases hmem
      · next hne =>
        rcases List.mem_cons.mp hmem with rfl | hrest
        · exact nameOk_takeWhile hne
        · exact ih hrest

theorem nameOk_of_mem_tokens {p : Str} {token : Token} (hmem : token ∈ tokens p) :
    NameOk token.name :=
  nameOk_of_mem_tokensFrom hmem

end Tokens

/-! ## Node paths -/

section NodePath

variable {names names' : List Str} {name : Str}

@[simp] theorem nodePath_nil : nodePath [] = [] := rfl

theorem nodePath_cons : nodePath (name :: names) = slash :: (name ++ nodePath names) := by
  simp [nodePath]

theorem nodePath_concat : nodePath (names ++ [name]) = nodePath names ++ slash :: name := by
  simp [nodePath]

@[simp] theorem nodePath_eq_nil_iff : nodePath names = [] ↔ names = [] := by
  cases names with
  | nil => simp
  | cons name names => simp [nodePath_cons]

private theorem takeWhile_name (hname : NameOk name) (names : List Str) :
    (name ++ nodePath names).takeWhile (· != slash) = name := by
  rw [List.takeWhile_append_of_pos fun c hc => by
    simp only [bne_iff_ne, ne_eq]
    rintro rfl
    exact hname.2 hc]
  cases names with
  | nil => simp
  | cons first names => simp [nodePath_cons]

theorem nodePath_injective (hnames : ∀ name ∈ names, NameOk name)
    (hnames' : ∀ name ∈ names', NameOk name) (heq : nodePath names = nodePath names') :
    names = names' := by
  induction names generalizing names' with
  | nil => exact (nodePath_eq_nil_iff.mp heq.symm).symm
  | cons name names ih =>
      cases names' with
      | nil => cases heq
      | cons name' names' =>
          rw [nodePath_cons, nodePath_cons, List.cons.injEq] at heq
          have hfirst : name = name' := by
            rw [← takeWhile_name (hnames name List.mem_cons_self) names, heq.2,
              takeWhile_name (hnames' name' List.mem_cons_self) names']
          subst hfirst
          have hrest := ih (fun x hx => hnames x (List.mem_cons_of_mem _ hx))
            (fun x hx => hnames' x (List.mem_cons_of_mem _ hx)) (List.append_cancel_left heq.2)
          rw [hrest]

theorem nodePath_ne_root (hnames : ∀ name ∈ names, NameOk name) :
    nodePath names ≠ [slash] := by
  intro heq
  cases names with
  | nil => cases heq
  | cons name names =>
      rw [nodePath_cons, List.cons.injEq] at heq
      exact (hnames name List.mem_cons_self).1 (List.append_eq_nil_iff.mp heq.2).1

theorem length_le_nodePath (names : List Str) : names.length ≤ (nodePath names).length := by
  induction names with
  | nil => exact Nat.zero_le _
  | cons name names ih =>
      rw [nodePath_cons, List.length_cons, List.length_cons, List.length_append]
      omega

theorem tokensFrom_nodePath (hnames : ∀ name ∈ names, NameOk name) {rounds : ℕ}
    (hrounds : names.length ≤ rounds) :
    (tokensFrom rounds (nodePath names)).map Token.name = names := by
  induction names generalizing rounds with
  | nil =>
      cases rounds with
      | zero => rfl
      | succ rounds => rfl
  | cons name names ih =>
      obtain ⟨rounds, rfl⟩ := Nat.exists_eq_add_one.mpr (Nat.zero_lt_of_lt hrounds)
      have hname := hnames name List.mem_cons_self
      obtain ⟨c, rest, rfl⟩ := List.exists_cons_of_ne_nil hname.1
      have hc : c ≠ slash := fun heq => hname.2 (heq ▸ List.mem_cons_self)
      have hskip : (nodePath ((c :: rest) :: names)).dropWhile (· == slash) =
          (c :: rest) ++ nodePath names := by
        rw [nodePath_cons, List.dropWhile_cons, if_pos (by simp), List.cons_append,
          List.dropWhile_cons, if_neg (by simpa using hc)]
      have hread : ((c :: rest) ++ nodePath names).dropWhile (· != slash) = nodePath names := by
        rw [List.dropWhile_append_of_pos fun x hx => by
          rw [bne_iff_ne]
          rintro rfl
          exact hname.2 hx]
        cases names with
        | nil => rfl
        | cons next names => simp [nodePath_cons]
      rw [tokensFrom, hskip, if_neg (by simp), hread, List.map_cons, takeWhile_name hname,
        ih (fun x hx => hnames x (List.mem_cons_of_mem _ hx)) (by simpa using hrounds)]

theorem tokensFrom_slash (rounds : ℕ) (p : Str) :
    tokensFrom rounds (slash :: p) = tokensFrom rounds p := by
  cases rounds with
  | zero => rfl
  | succ rounds =>
      have hskip : (slash :: p).dropWhile (· == slash) = p.dropWhile (· == slash) := by
        rw [List.dropWhile_cons, if_pos (by simp)]
      rw [tokensFrom, tokensFrom, hskip]

/-- Cutting at the last slash drops the last component. -/
theorem cutAtSlash_nodePath (hname : NameOk name) :
    cutAtSlash (nodePath (names ++ [name])) = some (nodePath names) := by
  have hskip : ∀ c ∈ name.reverse, (c != slash) = true := by
    intro c hc
    rw [bne_iff_ne]
    rintro rfl
    exact hname.2 (List.mem_reverse.mp hc)
  rw [nodePath_concat, cutAtSlash, if_pos (by simp)]
  simp only [List.reverse_append, List.reverse_cons, List.append_assoc]
  rw [List.dropWhile_append_of_pos hskip]
  simp

theorem splitOn_nodePath (hnames : ∀ name ∈ names, NameOk name) :
    (nodePath names).splitOn slash = [] :: names := by
  induction names with
  | nil => rfl
  | cons name names ih =>
      have hname := hnames name List.mem_cons_self
      rw [nodePath_cons, ← List.nil_append (slash :: _),
        List.splitOn_append_cons_self_of_not_mem List.not_mem_nil]
      congr 1
      cases names with
      | nil => rw [nodePath_nil, List.append_nil, List.splitOn_eq_singleton hname.2]
      | cons next names =>
          have hrest := ih fun x hx => hnames x (List.mem_cons_of_mem _ hx)
          rw [nodePath_cons, ← List.nil_append (slash :: _),
            List.splitOn_append_cons_self_of_not_mem List.not_mem_nil, List.cons.injEq] at hrest
          rw [nodePath_cons, List.splitOn_append_cons_self_of_not_mem hname.2, hrest.2]

theorem dirPath_concat (names : List Str) (name : Str) :
    dirPath (names ++ [name]) = nodePath (names ++ [name]) := by
  simp [dirPath]

theorem dirPath_injective {names names' : List Str} (hnames : ∀ name ∈ names, NameOk name)
    (hnames' : ∀ name ∈ names', NameOk name) (heq : dirPath names = dirPath names') :
    names = names' := by
  unfold dirPath at heq
  split at heq
  · next hnil =>
    split at heq
    · next hnil' => rw [hnil, hnil']
    · exact absurd heq.symm (nodePath_ne_root hnames')
  · split at heq
    · exact absurd heq (nodePath_ne_root hnames)
    · exact nodePath_injective hnames hnames' heq

end NodePath

end Nxos.Fs
