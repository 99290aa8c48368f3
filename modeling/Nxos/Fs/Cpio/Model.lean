import Nxos.Fs.Vfs.Model

/-!
# Reading cpio archives

The embedding of `CpioRead`, `CpioReaddir` and `CpioLookup` of `fs/cpio/cpio.c`, and of
`NX_StrToUL`.  `CpioReaddir` and `CpioLookup` walk over the headers of the archive in the same way,
and differ in what they do with an entry.

The archive is on the ROM disk, whose driver copies any bytes from its start on.
-/

namespace Nxos.Fs

/-! ## Characters and numbers -/

/-- `NX_VFS_MAX_NAME` -/
def vfsMaxName : ℕ := 256

/-- `NX_IsDigit` -/
def isDigit (c : BitVec 8) : Bool := c - 0x30 < 10

/-- `NX_IsSpace` -/
def isSpace (c : BitVec 8) : Bool := c == 0x20 || c - 0x09 < 5

/-- `NX_IsUpper` -/
def isUpper (c : BitVec 8) : Bool := c - 0x41 < 26

/-- `NX_IsAlpha` -/
def isAlpha (c : BitVec 8) : Bool := (c ||| 32) - 0x61 < 26

/-- The digit of a character in `NX_StrToUL`. -/
def digitValue (c : BitVec 8) : Option ℕ :=
  if isDigit c then some (c.toNat - 0x30)
  else if isAlpha c then some (c.toNat - if isUpper c then 0x41 - 10 else 0x61 - 10)
  else none

/-- `NX_ULONG_MAX` -/
def ulongMax : ℕ := 2 ^ 64 - 1

/-- The loop of `NX_StrToUL`: `acc`, and whether `any` became negative. -/
def strToULLoop (base : ℕ) : ℕ → Bool → Str → ℕ × Bool
  | acc, overflow, [] => (acc, overflow)
  | acc, overflow, c :: s =>
      match digitValue c with
      | none => (acc, overflow)
      | some d =>
          if base ≤ d then (acc, overflow)
          else if overflow then strToULLoop base acc overflow s
          else if ulongMax / base < acc ∨ (acc = ulongMax / base ∧ ulongMax % base < d) then
            strToULLoop base ulongMax true s
          else strToULLoop base (acc * base + d) false s

/-- The sign that `NX_StrToUL` skips, and whether it is a minus. -/
def skipSign : Str → Bool × Str
  | 0x2d :: s => (true, s)
  | 0x2b :: s => (false, s)
  | s => (false, s)

/-- The `0x` that `NX_StrToUL` skips, and the base. -/
def skipBase (base : ℕ) (s : Str) : ℕ × Str :=
  if (base = 0 ∨ base = 16) ∧ s.head? = some 0x30 ∧ (s[1]? = some 0x78 ∨ s[1]? = some 0x58) then
    (16, s.drop 2)
  else if base = 0 then (if s.head? = some 0x30 then 8 else 10, s)
  else (base, s)

/-- `NX_StrToUL` -/
def nxStrToUL (s : Str) (base : ℕ) : BitVec 64 :=
  let (neg, s) := skipSign (s.dropWhile isSpace)
  let (base, s) := skipBase base s
  let (acc, overflow) := strToULLoop base 0 false s
  if neg && !overflow then -BitVec.ofNat 64 acc else BitVec.ofNat 64 acc

/-! ## Headers -/

/-- `NX_IoBlockRead` -/
def ioBlockRead (disk : ℕ → BitVec 8) (offset count : ℕ) : List (BitVec 8) :=
  (List.range count).map fun i => disk (offset + i)

/-- `"070701"` -/
def cpioMagic : Str := [0x30, 0x37, 0x30, 0x37, 0x30, 0x31]

/-- `"TRAILER!!!"` -/
def cpioTrailer : Str := [0x54, 0x52, 0x41, 0x49, 0x4c, 0x45, 0x52, 0x21, 0x21, 0x21]

/-- `sizeof(struct CpioNewcHeader)` -/
def cpioHeaderSize : ℕ := 110

/-- The number in a field of `struct CpioNewcHeader`, from the offset of the field. -/
def cpioField (header : List (BitVec 8)) (offset : ℕ) : BitVec 32 :=
  (nxStrToUL (cString ((header.drop offset).take 8)) 16).setWidth 32

structure CpioHeader where
  mode : BitVec 32
  mtime : BitVec 32
  size : BitVec 32
  nameSize : BitVec 32
  path : Str
  deriving DecidableEq

/-- Why a walk ends: the header cannot be read, has another magic number, or has no name, or it
is the trailer. -/
inductive CpioStop where
  | header
  | magic
  | name
  | trailer
  deriving DecidableEq, Repr

/-- The start of a round of the loops: read and test a header.  A name fits into its buffer. -/
def cpioHeader (disk : ℕ → BitVec 8) (off : BitVec 64) : Except CpioStop CpioHeader :=
  let header := ioBlockRead disk off.toNat cpioHeaderSize
  if header.length ≠ cpioHeaderSize then .error .header
  else if !strEqualN (cString header) cpioMagic 6 then .error .magic
  else
    let size := cpioField header 54
    let nameSize := cpioField header 94
    let mode := cpioField header 14
    let name := ioBlockRead disk (off + 110).toNat nameSize.toNat
    if name = [] then .error .name
    else if size = 0 ∧ mode = 0 ∧ nameSize = 11 ∧ strEqualN (cString name) cpioTrailer 10 then
      .error .trailer
    else .ok ⟨mode, cpioField header 46, size, nameSize, cString name⟩

/-- `(((name_size + 1) & ~3) + 2)` -/
def cpioNameSpace (nameSize : BitVec 32) : BitVec 32 := ((nameSize + 1) &&& ~~~3) + 2

/-- The end of a round of the loops: the offset of the next header. -/
def cpioNext (off : BitVec 64) (h : CpioHeader) : BitVec 64 :=
  let off := off + 110
  let off := off + (cpioNameSpace h.nameSize + h.size).setWidth 64
  (off + 3) &&& ~~~3

/-- How a walk ends: an entry gave a result, or there is no other header. -/
inductive CpioOutcome (σ ρ : Type) where
  | found (result : ρ)
  | stopped (stop : CpioStop) (acc : σ)
  deriving DecidableEq

/-- The loop of `CpioReaddir` and `CpioLookup`, which visits an entry with what it has kept.  No
result is given when the rounds are used up. -/
def cpioLoop {σ ρ : Type} (disk : ℕ → BitVec 8)
    (visit : σ → BitVec 64 → CpioHeader → Except ρ σ) :
    ℕ → BitVec 64 → σ → Option (CpioOutcome σ ρ)
  | 0, _, _ => none
  | rounds + 1, off, acc =>
      match cpioHeader disk off with
      | .error stop => some (.stopped stop acc)
      | .ok h =>
          match visit acc off h with
          | .error result => some (.found result)
          | .ok acc => cpioLoop disk visit rounds (cpioNext off h) acc

/-! ## Paths -/

def skipSlash : Str → Str
  | [] => []
  | c :: s => if c = slash then s else c :: s

/-- `GetNextToken` -/
def getNextToken (path dir : Str) : Option Str :=
  let path := skipSlash path
  let dir := skipSlash dir
  if !strEqualN path dir dir.length then none
  else
    let p := path.drop dir.length
    if p = [] then none
    else
      let p := skipSlash p
      if p = [] then none
      else if p.contains slash then
        if (p.dropWhile (· != slash)).tail ≠ [] then none else some (p.takeWhile (· != slash))
      else some p

/-- `CheckPath` -/
def checkPath (path dir name : Str) : Bool :=
  let path := skipSlash path
  let dir := skipSlash dir
  if dir.length ≠ 0 ∧ !strEqualN path dir dir.length then false
  else skipSlash (path.drop dir.length) == name

/-! ## Nodes -/

def cpioType (mode : BitVec 32) : VfsNodeType :=
  let format := mode &&& 0xf000
  if format = 0xc000 then .sock
  else if format = 0xa000 then .lnk
  else if format = 0x8000 then .reg
  else if format = 0x6000 then .blk
  else if format = 0x4000 then .dir
  else if format = 0x2000 then .chr
  else if format = 0x1000 then .fifo
  else .reg

/-- `NX_VFS_S_IFSOCK` and so on; none for a mode without a known format. -/
def cpioFormat (mode : BitVec 32) : BitVec 32 :=
  let format := mode &&& 0xf000
  if format = 0xc000 then 1 <<< 22
  else if format = 0xa000 then 1 <<< 20
  else if format = 0x8000 then 1 <<< 19
  else if format = 0x6000 then 1 <<< 18
  else if format = 0x4000 then 1 <<< 16
  else if format = 0x2000 then 1 <<< 17
  else if format = 0x1000 then 1 <<< 21
  else 0

/-- The masks of the permissions in a header, and their bits in a node. -/
def cpioPermissions : List (BitVec 32 × BitVec 32) :=
  [(0x100, 1 <<< 8), (0x080, 1 <<< 7), (0x040, 1 <<< 6), (0x020, 1 <<< 5), (0x010, 1 <<< 4),
    (0x008, 1 <<< 3), (0x004, 1 <<< 2), (0x002, 1 <<< 1), (0x001, 1 <<< 0)]

def cpioMode (mode : BitVec 32) : BitVec 32 :=
  cpioPermissions.foldl (fun m p => m ||| if mode &&& p.1 ≠ 0 then p.2 else 0) (cpioFormat mode)

/-- What `CpioLookup` writes to a node. -/
structure CpioNode where
  type : VfsNodeType
  mode : BitVec 32
  atime : BitVec 32
  mtime : BitVec 32
  ctime : BitVec 32
  size : BitVec 64
  data : BitVec 64
  deriving DecidableEq

def cpioNode (off : BitVec 64) (h : CpioHeader) : CpioNode where
  type := cpioType h.mode
  mode := cpioMode h.mode
  atime := h.mtime
  mtime := h.mtime
  ctime := h.mtime
  size := h.size.setWidth 64
  data := off + 110 + (cpioNameSpace h.nameSize).setWidth 64

/-- `CpioRead`, where an offset below zero is taken for a large one. -/
def cpioRead (disk : ℕ → BitVec 8) (n : CpioNode) (off len : BitVec 64) :
    List (BitVec 8) × NxError :=
  if n.type ≠ .reg then ([], .einval)
  else if n.size ≤ off then ([], .einval)
  else
    let sz := if n.size - off < len then n.size - off else len
    (ioBlockRead disk (n.data + off).toNat sz.toNat, .eok)

/-! ## Directories -/

/-- `CpioLookup` at an entry. -/
def lookupVisit (dir name : Str) (_ : Unit) (off : BitVec 64) (h : CpioHeader) :
    Except CpioNode Unit :=
  if h.path.head? ≠ some dot ∧ checkPath h.path dir name then .error (cpioNode off h) else .ok ()

/-- `CpioLookup` in the directory with the path.  It fails with `NX_ENORES` for a bad header, and
with `-1` at the end. -/
def cpioLookup (disk : ℕ → BitVec 8) (rounds : ℕ) (dir name : Str) :
    Option (CpioOutcome Unit CpioNode) :=
  cpioLoop disk (lookupVisit dir name) rounds 0 ()

/-- `NX_VfsDirent` -/
structure VfsDirent where
  off : ℕ
  reclen : BitVec 32
  type : VfsNodeType
  name : Str
  deriving DecidableEq

/-- What `CpioReaddir` writes for an entry. -/
def cpioDirent (off : ℕ) (name : Str) (mode : BitVec 32) : VfsDirent where
  off := off
  reclen := 1
  type := cpioType mode
  name := name.take (vfsMaxName - 1)

/-- `CpioReaddir` at an entry, with the number of entries it has passed.  A name that does not fit
is written past the end of its buffer, and gives no result. -/
def readdirVisit (dir : Str) (off i : ℕ) (_ : BitVec 64) (h : CpioHeader) :
    Except (Option VfsDirent) ℕ :=
  if h.path.head? = some dot then .ok i
  else
    match getNextToken h.path dir with
    | none => .ok i
    | some name =>
        if vfsMaxName ≤ name.length then .error none
        else if i = off then .error (some (cpioDirent off name h.mode))
        else .ok (i + 1)

/-- `CpioReaddir` in the directory with the path.  It fails with `NX_ENORES` for a bad header, and
with `NX_EIO` at the end. -/
def cpioReaddir (disk : ℕ → BitVec 8) (rounds : ℕ) (dir : Str) (off : ℕ) :
    Option (CpioOutcome ℕ (Option VfsDirent)) :=
  cpioLoop disk (readdirVisit dir off) rounds 0 0

end Nxos.Fs
