import Mathlib.Data.Int.Notation
import Nxos.Base.Kernel
import Nxos.Fs.Path

/-!
# Formatted output

The embedding of `utils/sprintf.c` on a 64-bit platform.  The format is what is left of it from
the pointer on, without its terminator, and an `int` is an integer that wraps around after every
operation.

The characters are stored one after the other from the start of the buffer.  The length of the
buffer counts the rounds of the loop, not the characters.
-/

namespace Nxos.Utils

open Nxos.Fs

def ch (c : Char) : BitVec 8 := BitVec.ofNat 8 c.toNat

/-- The result of `int` arithmetic. -/
def wrapInt (x : ℤ) : ℤ := x.bmod (2 ^ 32)

/-- `IsDigit` -/
def isDigit (c : BitVec 8) : Bool := 48 ≤ c.toNat && c.toNat ≤ 57

/-- `SkipAscii2Int`, with its counter. -/
def skipAscii2Int : ℤ → Str → ℤ × Str
  | i, [] => (i, [])
  | i, c :: s =>
      if isDigit c then skipAscii2Int (wrapInt (i * 10 + c.toNat - 48)) s else (i, c :: s)

/-- `type` of `_Number` and `flags` of `NX_VSNPrintf`. -/
structure Flags where
  zeroPad : Bool
  sign : Bool
  plus : Bool
  space : Bool
  left : Bool
  special : Bool
  small : Bool
  deriving DecidableEq

/-! ## Numbers -/

/-- `digits[k]` -/
def digitAt (small : Bool) (k : ℕ) : BitVec 8 :=
  BitVec.ofNat 8 (if k < 10 then 48 + k else (if small then 87 else 55) + k)

/-- `_Div`: the quotient and the remainder. -/
def divBase (num : BitVec 64) (base : ℕ) : BitVec 64 × ℕ :=
  (num / BitVec.ofNat 64 base, (num % BitVec.ofNat 64 base).toNat)

/-- `while (num != 0)`: the digits from the lowest on, with `room` for what is left of `tmp`. -/
def digitLoop (small : Bool) (base : ℕ) : ℕ → BitVec 64 → Exec Str
  | 0, num => if num = 0 then .ok [] else .error .outOfBounds
  | room + 1, num =>
      if num = 0 then .ok []
      else do
        let rest ← digitLoop small base room (divBase num base).1
        return digitAt small (divBase num base).2 :: rest

/-- `tmp[0] .. tmp[i - 1]` -/
def tmpDigits (small : Bool) (base : ℕ) (num : BitVec 64) : Exec Str :=
  if num = 0 then .ok [ch '0'] else digitLoop small base 50 num

/-- `while (bound < n--)`: the characters that are stored, and `n` behind the loop. -/
def padLoop (c : BitVec 8) (bound n : ℤ) : Str × ℤ :=
  (List.replicate (n - bound).toNat c, wrapInt (min n bound - 1))

def signOf (flags : Flags) (negative : Bool) : Str :=
  if negative then [ch '-']
  else if flags.plus then [ch '+']
  else if flags.space then [ch ' ']
  else []

def prefixOf (flags : Flags) (base : ℕ) : Str :=
  if flags.special then
    if base = 8 then [ch '0']
    else if base = 16 then [ch '0', digitAt flags.small 33]
    else []
  else []

/-- `_Number`: the characters that it stores.  Without a digit set for the base it returns a null
pointer, through which the caller stores. -/
def number (num : BitVec 64) (base : ℕ) (size precision : ℤ) (flags : Flags) : Exec Str :=
  let zeroPad := flags.zeroPad && !flags.left
  if base < 2 ∨ 36 < base then .error .nullDeref
  else do
    let c := if zeroPad then ch '0' else ch ' '
    let negative := flags.sign && num.slt 0
    let num := if negative then -num else num
    let sign := signOf flags negative
    let special := prefixOf flags base
    let size := wrapInt (size - sign.length)
    let size := wrapInt (size - special.length)
    let tmp ← tmpDigits flags.small base num
    let precision := max precision tmp.length
    let size := wrapInt (size - precision)
    let (before, size) := if !(zeroPad || flags.left) then padLoop (ch ' ') 0 size else ([], size)
    let (middle, size) := if !flags.left then padLoop c 0 size else ([], size)
    let zeros := List.replicate (precision - tmp.length).toNat (ch '0')
    let (after, _) := padLoop (ch ' ') 0 size
    return before ++ sign ++ special ++ middle ++ zeros ++ tmp.reverse ++ after

/-! ## Arguments -/

/-- An argument of the list, in the type in which it is passed. -/
inductive VarArg where
  | int (value : BitVec 32)
  | long (value : BitVec 64)
  | string (s : Option Str)
  | pointer (address : BitVec 64)
  /-- A place for a count. -/
  | count (isLong : Bool) (place : ℕ)
  deriving DecidableEq

/-- `NX_VarArg`: an argument that is missing or of another type leaves the defined behaviour. -/
def varArg {α : Type} (read : VarArg → Option α) : List VarArg → Exec (α × List VarArg)
  | [] => .error .outOfBounds
  | arg :: args =>
      match read arg with
      | some a => .ok (a, args)
      | none => .error .outOfBounds

/-- An `int` or an `unsigned int`. -/
def VarArg.asInt : VarArg → Option (BitVec 32)
  | .int value => some value
  | _ => none

/-- A `long` or an `unsigned long`. -/
def VarArg.asLong : VarArg → Option (BitVec 64)
  | .long value => some value
  | _ => none

def VarArg.asString : VarArg → Option (Option Str)
  | .string s => some s
  | _ => none

def VarArg.asPointer : VarArg → Option (BitVec 64)
  | .pointer address => some address
  | _ => none

def VarArg.asCount (isLong : Bool) : VarArg → Option ℕ
  | .count l place => if l = isLong then some place else none
  | _ => none

/-- The `unsigned long` or `unsigned int` that is passed for the `long` of `_Number`. -/
def varUnsigned (isLong : Bool) (args : List VarArg) : Exec (BitVec 64 × List VarArg) :=
  if isLong then varArg VarArg.asLong args
  else do
    let (value, args) ← varArg VarArg.asInt args
    return (value.setWidth 64, args)

/-- The `long` or `int` that is passed for the `long` of `_Number`. -/
def varSigned (isLong : Bool) (args : List VarArg) : Exec (BitVec 64 × List VarArg) :=
  if isLong then varArg VarArg.asLong args
  else do
    let (value, args) ← varArg VarArg.asInt args
    return (value.signExtend 64, args)

/-! ## Conversions -/

/-- The bases that `NX_VSNPrintf` uses. -/
inductive Base where
  | octal
  | decimal
  | hex
  deriving DecidableEq

def Base.value : Base → ℕ
  | .octal => 8
  | .decimal => 10
  | .hex => 16

/-- What a round of the loop prints. -/
inductive Item where
  | literal (c : BitVec 8)
  | char (flags : Flags) (fieldWidth : ℤ) (c : BitVec 8)
  | string (flags : Flags) (fieldWidth precision : ℤ) (s : Str)
  | number (num : BitVec 64) (base : Base) (fieldWidth precision : ℤ) (flags : Flags)
  | count (isLong : Bool) (place : ℕ)
  | percent
  /-- A conversion that is not known. -/
  | other (c : BitVec 8)
  /-- The format ends inside a conversion. -/
  | ended
  deriving DecidableEq

def readFlags : Flags → Str → Flags × Str
  | flags, [] => (flags, [])
  | flags, c :: fmt =>
      if c = ch '-' then readFlags { flags with left := true } fmt
      else if c = ch '+' then readFlags { flags with plus := true } fmt
      else if c = ch ' ' then readFlags { flags with space := true } fmt
      else if c = ch '#' then readFlags { flags with special := true } fmt
      else if c = ch '0' then readFlags { flags with zeroPad := true } fmt
      else (flags, c :: fmt)

/-- What is left while a conversion is read. -/
structure Reader where
  flags : Flags
  fmt : Str
  args : List VarArg

def readWidth (r : Reader) : Exec (ℤ × Reader) :=
  match r.fmt with
  | [] => .ok (-1, r)
  | c :: fmt =>
      if isDigit c then
        .ok ((skipAscii2Int 0 r.fmt).1, { r with fmt := (skipAscii2Int 0 r.fmt).2 })
      else if c = ch '*' then do
        let (value, args) ← varArg VarArg.asInt r.args
        if value.toInt < 0 then
          .ok (wrapInt (-value.toInt), ⟨{ r.flags with left := true }, fmt, args⟩)
        else .ok (value.toInt, ⟨r.flags, fmt, args⟩)
      else .ok (-1, r)

def readPoint (r : Reader) : Exec (ℤ × Reader) :=
  match r.fmt with
  | [] => .ok (-1, r)
  | c :: fmt =>
      if isDigit c then
        .ok ((skipAscii2Int 0 r.fmt).1, { r with fmt := (skipAscii2Int 0 r.fmt).2 })
      else if c = ch '*' then do
        let (value, args) ← varArg VarArg.asInt r.args
        .ok (value.toInt, ⟨r.flags, fmt, args⟩)
      else .ok (-1, r)

def readPrecision (r : Reader) : Exec (ℤ × Reader) :=
  match r.fmt with
  | [] => .ok (-1, r)
  | c :: fmt =>
      if c = ch '.' then do
        let (precision, r) ← readPoint { r with fmt := fmt }
        .ok (if precision < 0 then 0 else precision, r)
      else .ok (-1, r)

/-- The qualifier: `'l'` or another one, which has no effect. -/
def readQualifier : Str → Bool × Str
  | [] => (false, [])
  | c :: fmt =>
      if c = ch 'l' then (true, fmt)
      else if c = ch 'h' ∨ c = ch 'L' ∨ c = ch 'Z' then (false, fmt)
      else (false, c :: fmt)

/-- `sizeof(void *)` -/
def sizeofPointer : ℤ := 8

def conversion (c : BitVec 8) (fieldWidth precision : ℤ) (isLong : Bool) (flags : Flags)
    (args : List VarArg) : Exec (Item × List VarArg) :=
  if c = ch 'c' then do
    let (value, args) ← varArg VarArg.asInt args
    return (.char flags fieldWidth (value.setWidth 8), args)
  else if c = ch 's' then do
    let (s, args) ← varArg VarArg.asString args
    match s with
    | none => .error .nullDeref
    | some s => .ok (.string flags fieldWidth precision s, args)
  else if c = ch 'o' then do
    let (num, args) ← varUnsigned isLong args
    return (.number num .octal fieldWidth precision flags, args)
  else if c = ch 'p' then do
    let (num, args) ← varArg VarArg.asPointer args
    if fieldWidth = -1 then
      .ok (.number num .hex (2 * sizeofPointer) precision { flags with zeroPad := true }, args)
    else .ok (.number num .hex fieldWidth precision flags, args)
  else if c = ch 'x' then do
    let (num, args) ← varUnsigned isLong args
    return (.number num .hex fieldWidth precision { flags with small := true }, args)
  else if c = ch 'X' then do
    let (num, args) ← varUnsigned isLong args
    return (.number num .hex fieldWidth precision flags, args)
  else if c = ch 'd' ∨ c = ch 'i' then do
    let (num, args) ← varSigned isLong args
    return (.number num .decimal fieldWidth precision { flags with sign := true }, args)
  else if c = ch 'u' then do
    let (num, args) ← varSigned isLong args
    return (.number num .decimal fieldWidth precision flags, args)
  else if c = ch 'n' then do
    let (place, args) ← varArg (VarArg.asCount isLong) args
    return (.count isLong place, args)
  else if c = ch '%' then .ok (.percent, args)
  else .ok (.other c, args)

/-- The conversion.  A format that ends here is read again at its end. -/
def readConversion (fieldWidth precision : ℤ) (isLong : Bool) (r : Reader) :
    Exec (Item × Str × List VarArg) :=
  match r.fmt with
  | [] => .ok (.ended, [], r.args)
  | c :: fmt => do
      let (item, args) ← conversion c fieldWidth precision isLong r.flags r.args
      return (item, fmt, args)

def Flags.none : Flags := ⟨false, false, false, false, false, false, false⟩

/-- A character of the format and, behind a percent sign, its conversion. -/
def readItem (c : BitVec 8) (fmt : Str) (args : List VarArg) : Exec (Item × Str × List VarArg) :=
  if c ≠ ch '%' then .ok (.literal c, fmt, args)
  else do
    let (flags, fmt) := readFlags Flags.none fmt
    let (fieldWidth, r) ← readWidth ⟨flags, fmt, args⟩
    let (precision, r) ← readPrecision r
    let (isLong, fmt) := readQualifier r.fmt
    readConversion fieldWidth precision isLong { r with fmt := fmt }

/-! ## Printing -/

/-- `while (--n > 0)`: the characters that are stored, and `n` behind the loop. -/
def padDown (n : ℤ) : Str × ℤ :=
  (List.replicate (wrapInt (n - 1)).toNat (ch ' '), min (wrapInt (n - 1)) 0)

/-- Case `'c'`. -/
def charText (flags : Flags) (fieldWidth : ℤ) (c : BitVec 8) : Str :=
  let (before, fieldWidth) := if flags.left then ([], fieldWidth) else padDown fieldWidth
  let (after, _) := padDown fieldWidth
  before ++ c :: after

/-- The characters of a string that are printed, as an `int`. -/
def stringLen (precision : ℤ) (s : Str) : ℤ :=
  let len := wrapInt s.length
  if precision < 0 then len
  else if precision < len then precision
  else len

/-- Case `'s'`. -/
def stringText (flags : Flags) (fieldWidth precision : ℤ) (s : Str) : Str :=
  let len := stringLen precision s
  let (before, fieldWidth) :=
    if flags.left then ([], fieldWidth) else padLoop (ch ' ') len fieldWidth
  let (after, _) := padLoop (ch ' ') len fieldWidth
  before ++ s.take len.toNat ++ after

/-- The characters that a round stores. -/
def Item.text : Item → Exec Str
  | .literal c => .ok [c]
  | .char flags fieldWidth c => .ok (charText flags fieldWidth c)
  | .string flags fieldWidth precision s => .ok (stringText flags fieldWidth precision s)
  | .number num base fieldWidth precision flags =>
      Utils.number num base.value fieldWidth precision flags
  | .count _ _ => .ok []
  | .percent => .ok [ch '%']
  | .other c => .ok [ch '%', c]
  | .ended => .ok [ch '%']

/-- The stores that a round makes behind `n` characters: the count of them, as an `int` or a
`long`. -/
def Item.counts (n : ℤ) : Item → List (ℕ × ℤ)
  | .count true place => [(place, n)]
  | .count false place => [(place, wrapInt n)]
  | _ => []

/-- What was printed: the characters from the start of the buffer on, and the stores of counts. -/
structure Printed where
  text : Str
  counts : List (ℕ × ℤ)
  deriving DecidableEq

def Item.print (item : Item) (out : Printed) : Exec Printed := do
  let text ← item.text
  return ⟨out.text ++ text, out.counts ++ item.counts out.text.length⟩

/-- The loop of `NX_VSNPrintf`, with `rounds` for `bufLen`. -/
def printLoop : ℕ → Str → List VarArg → Printed → Exec Printed
  | 0, _, _, out => .ok out
  | _ + 1, [], _, out => .ok out
  | rounds + 1, c :: fmt, args, out => do
      let (item, fmt, args) ← readItem c fmt args
      let out ← item.print out
      printLoop rounds fmt args out

/-- The stores to the buffer: the characters and the terminator behind them. -/
def Printed.stores (out : Printed) : List (ℕ × BitVec 8) :=
  out.text.mapIdx (fun i c => (i, c)) ++ [(out.text.length, 0)]

/-- `NX_VSNPrintf`: the length that it returns, and what was printed.  `bufLen--` is tested against
zero. -/
def vsnPrintf (bufLen : BitVec 32) (fmt : Str) (args : List VarArg) : Exec (ℤ × Printed) := do
  let out ← printLoop bufLen.toNat fmt args ⟨[], []⟩
  return (wrapInt out.text.length, out)

end Nxos.Utils
