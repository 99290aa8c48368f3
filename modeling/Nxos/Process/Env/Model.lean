import Nxos.Base.Kernel
import Nxos.Fs.Path
import Nxos.Support.Segments

/-!
# Argument lines

The embedding of `process/env.c`: a line of arguments is cut in place into an array of pointers,
and an array of strings is joined into a line.

A pointer into the buffer is its offset.  The stores to the array are listed in order, because
the array is the caller's and has no length that the code could see.
-/

namespace Nxos.Process

open Nxos.Fs Nxos.Segments

/-! ## Data -/

/-- `__CMD_DELIMITER` -/
def cmdDelimiter : BitVec 8 := 0x20

/-- `__ENV_DELIMITER` -/
def envDelimiter : BitVec 8 := 0x3a

/-- `argArray[index] = arg` -/
structure ArgStore where
  index : ℕ
  arg : Option ℕ
  deriving DecidableEq

/-- What `__ParseLine` returns, with the memory of the line and the stores to the array. -/
structure ParsedLine where
  argc : ℤ
  buf : Str
  stores : List ArgStore
  deriving DecidableEq

def storeArgs (array : ℕ → Option ℕ) (stores : List ArgStore) : ℕ → Option ℕ :=
  stores.foldl (fun array store => Function.update array store.index store.arg) array

/-- What `__BuildLine` returns, with the memory of the line. -/
structure BuiltLine where
  argc : ℤ
  buf : Str
  deriving DecidableEq

/-! ## Cutting a line -/

/-- `*p` -/
def charAt (buf : Str) (p : ℕ) : Exec (BitVec 8) :=
  match buf[p]? with
  | some c => .ok c
  | none => .error .outOfBounds

/-- `while (*line == delimiter)`: the line moves on. -/
def skipDelimiter (delimiter : BitVec 8) (buf : Str) (line : ℕ) : Exec ℕ := do
  let line := line + ((buf.drop line).takeWhile (· == delimiter)).length
  let _ ← charAt buf line
  return line

/-- `NX_StrChr` -/
def strChr (buf : Str) (s : ℕ) (c : BitVec 8) : Exec (Option ℕ) := do
  let p := s + ((buf.drop s).takeWhile fun x => x != c && x != 0).length
  let x ← charAt buf p
  return if x = c then some p else none

/-- `while (*p == delimiter)`: the delimiters are cleared. -/
def clearDelimiter (delimiter : BitVec 8) (buf : Str) (p : ℕ) : Exec (Str × ℕ) := do
  let run := ((buf.drop p).takeWhile (· == delimiter)).length
  let _ ← charAt buf (p + run)
  return (buf.take p ++ (List.replicate run 0 ++ buf.drop (p + run)), p + run)

/-- The loop of `__ParseLine`, with `rounds` for `maxArgs - argc`. -/
def parseLoop (delimiter : BitVec 8) :
    ℕ → ℕ → ℕ → Str → List ArgStore → Exec ParsedLine
  | 0, argc, _, buf, stores => .ok ⟨argc, buf, stores ++ [⟨argc + 1, none⟩]⟩
  | rounds + 1, argc, line, buf, stores => do
      let first ← charAt buf line
      if first = 0 then .ok ⟨argc, buf, stores ++ [⟨argc + 1, none⟩]⟩
      else
        let line ← skipDelimiter delimiter buf line
        let c ← charAt buf line
        if delimiter = envDelimiter ∧ c ≠ slash then .ok ⟨-1, buf, stores⟩
        else
          match ← strChr buf line delimiter with
          | none => .ok ⟨argc + 1, buf, stores ++ [⟨argc, some line⟩, ⟨argc + 1, none⟩]⟩
          | some p =>
              let (buf, p) ← clearDelimiter delimiter buf p
              parseLoop delimiter rounds (argc + 1) p buf (stores ++ [⟨argc, some line⟩])

/-- `__ParseLine`: the line and the array can be null. -/
def parseLine (buf : Option Str) (argArray : Bool) (maxArgs : ℤ) (delimiter : BitVec 8) :
    Exec ParsedLine :=
  match buf with
  | none => .ok ⟨-1, [], []⟩
  | some buf =>
      if argArray = false ∨ maxArgs = 0 then .ok ⟨-1, buf, []⟩
      else parseLoop delimiter maxArgs.toNat 0 0 buf []

/-- `NX_EnvToArray` -/
def envToArray (buf : Option Str) (argArray : Bool) (maxArgs : ℤ) : Exec ParsedLine :=
  parseLine buf argArray maxArgs envDelimiter

/-- `NX_CmdToArray` -/
def cmdToArray (buf : Option Str) (argArray : Bool) (maxArgs : ℤ) : Exec ParsedLine :=
  parseLine buf argArray maxArgs cmdDelimiter

/-! ## Joining strings -/

/-- `NX_MemZero` of `size` bytes. -/
def memZero (buf : Str) (size : ℕ) : Exec Str :=
  if size ≤ buf.length then .ok (List.replicate size 0 ++ buf.drop size)
  else .error .outOfBounds

/-- `NX_StrLen` of a buffer, which returns an `int`. -/
def strLen (buf : Str) : Exec (BitVec 32) :=
  if buf.contains 0 then .ok (BitVec.ofNat 32 (cString buf).length) else .error .outOfBounds

/-- `NX_StrCat`: the string and its terminator over the terminator of the buffer. -/
def strCat (buf : Str) (s : Str) : Exec Str :=
  let n := (cString buf).length
  if buf.contains 0 ∧ n + s.length < buf.length then
    .ok (cString buf ++ (s ++ 0 :: buf.drop (n + s.length + 1)))
  else .error .outOfBounds

def catDelimiter (buf : Str) (delimiter : BitVec 8) (args : List Str) : Exec Str :=
  if args.isEmpty then .ok buf else strCat buf [delimiter]

/-- The loop of `__BuildLine` on the strings that are left. -/
def buildLoop (bufLen : BitVec 32) (delimiter : BitVec 8) :
    ℕ → List Str → Str → Exec BuiltLine
  | argc, [], buf => .ok ⟨argc, buf⟩
  | argc, arg :: args, buf => do
      let len ← strLen buf
      if bufLen.sle (len + BitVec.ofNat 32 arg.length + 1) then .ok ⟨-1, buf⟩
      else
        let buf ← strCat buf arg
        let buf ← catDelimiter buf delimiter args
        buildLoop bufLen delimiter (argc + 1) args buf

/-- `__BuildLine`: the buffer and the array, which ends in a null pointer, can be null.  The
length is converted to `NX_Size` for `NX_MemZero`. -/
def buildLine (buf : Option Str) (bufLen : BitVec 32) (argArray : Option (List Str))
    (delimiter : BitVec 8) : Exec BuiltLine :=
  match buf, argArray with
  | some buf, some args =>
      if bufLen = 0 then .ok ⟨-1, buf⟩
      else do
        let buf ← memZero buf (bufLen.signExtend 64).toNat
        buildLoop bufLen delimiter 0 args buf
  | some buf, none => .ok ⟨-1, buf⟩
  | none, _ => .ok ⟨-1, []⟩

/-- `NX_EnvToBuf` -/
def envToBuf (buf : Option Str) (bufLen : BitVec 32) (argArray : Option (List Str)) :
    Exec BuiltLine :=
  buildLine buf bufLen argArray envDelimiter

/-- `NX_CmdToBuf` -/
def cmdToBuf (buf : Option Str) (bufLen : BitVec 32) (argArray : Option (List Str)) :
    Exec BuiltLine :=
  buildLine buf bufLen argArray cmdDelimiter

/-! ## Strings in memory -/

section Memory

variable {s rest : Str} {c d : BitVec 8}

theorem charAt_append (pre rest : Str) (c : BitVec 8) :
    charAt (pre ++ c :: rest) pre.length = .ok c := by
  simp [charAt]

theorem cString_append (hs : 0 ∉ s) : cString (s ++ 0 :: rest) = s := by
  have hkeep : ∀ c ∈ s, (c != 0) = true := by
    intro c hc
    rw [bne_iff_ne]
    rintro rfl
    exact hs hc
  rw [cString, List.takeWhile_append_of_pos hkeep]
  simp

private theorem takeWhile_replicate_append (k : ℕ) (hc : c ≠ d) :
    (List.replicate k d ++ c :: rest).takeWhile (· == d) = List.replicate k d := by
  have hkeep : ∀ x ∈ List.replicate k d, (x == d) = true := by
    intro x hx
    rw [List.eq_of_mem_replicate hx, beq_self_eq_true]
  rw [List.takeWhile_append_of_pos hkeep]
  simp [hc]

theorem skipDelimiter_append (pre rest : Str) (k : ℕ) (hc : c ≠ d) :
    skipDelimiter d (pre ++ (List.replicate k d ++ c :: rest)) pre.length =
      .ok (pre.length + k) := by
  have hread := charAt_append (pre ++ List.replicate k d) rest c
  rw [List.append_assoc, List.length_append, List.length_replicate] at hread
  simp [skipDelimiter, takeWhile_replicate_append k hc, hread]

theorem strChr_append (pre rest : Str) (hs : 0 ∉ s) (hd : d ∉ s) (hc : c = d ∨ c = 0) :
    strChr (pre ++ (s ++ c :: rest)) pre.length d =
      .ok (if c = d then some (pre.length + s.length) else none) := by
  have hkeep : ∀ x ∈ s, (x != d && x != 0) = true := by
    intro x hx
    rw [Bool.and_eq_true, bne_iff_ne, bne_iff_ne]
    exact ⟨fun h => hd (h ▸ hx), fun h => hs (h ▸ hx)⟩
  have hstop : (c != d && c != 0) = false := by
    rcases hc with rfl | rfl <;> simp
  have hrun : (s ++ c :: rest).takeWhile (fun x => x != d && x != 0) = s := by
    rw [List.takeWhile_append_of_pos hkeep, List.takeWhile_cons, hstop]
    simp
  have hread := charAt_append (pre ++ s) rest c
  rw [List.append_assoc, List.length_append] at hread
  simp only [strChr, List.drop_left, hrun, hread, exec_ok_bind, exec_pure]

theorem clearDelimiter_append (pre rest : Str) (k : ℕ) (hc : c ≠ d) :
    clearDelimiter d (pre ++ (List.replicate k d ++ c :: rest)) pre.length =
      .ok (pre ++ (List.replicate k 0 ++ c :: rest), pre.length + k) := by
  have hread := charAt_append (pre ++ List.replicate k d) rest c
  have hdrop : (pre ++ (List.replicate k d ++ c :: rest)).drop (pre.length + k) = c :: rest := by
    rw [← List.append_assoc]
    exact List.drop_left' (by simp)
  rw [List.append_assoc, List.length_append, List.length_replicate] at hread
  simp [clearDelimiter, takeWhile_replicate_append k hc, hread, hdrop]

end Memory

end Nxos.Process
