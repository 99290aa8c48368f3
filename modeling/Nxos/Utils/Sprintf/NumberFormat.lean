import Nxos.Utils.Sprintf.Number

/-!
# Formats of one number

A format with one number conversion is its flags, its field width, its precision, its qualifier and
the conversion character.  Reading it gives the number with these values.
-/

namespace Nxos.Utils

open Nxos.Fs

/-! ## Data -/

inductive Flag where
  | left
  | plus
  | space
  | special
  | zeroPad
  deriving DecidableEq

def Flag.char : Flag → BitVec 8
  | .left => ch '-'
  | .plus => ch '+'
  | .space => ch ' '
  | .special => ch '#'
  | .zeroPad => ch '0'

def Flag.set (flags : Flags) : Flag → Flags
  | .left => { flags with left := true }
  | .plus => { flags with plus := true }
  | .space => { flags with space := true }
  | .special => { flags with special := true }
  | .zeroPad => { flags with zeroPad := true }

def decimalFrom (n : ℕ) (digits : List (Fin 10)) : ℕ := digits.foldl (fun n d => n * 10 + d) n

def decimalChar (d : Fin 10) : BitVec 8 := BitVec.ofNat 8 (48 + d)

/-- A field width: a literal begins with another digit than the flag `0`. -/
inductive Width where
  | absent
  | literal (first : Fin 10) (hfirst : first.val ≠ 0) (rest : List (Fin 10))
  | star (value : BitVec 32)

inductive Precision where
  | absent
  | point
  | literal (first : Fin 10) (rest : List (Fin 10))
  | star (value : BitVec 32)

inductive Conv where
  | d
  | u
  | x
  | bigX
  | o
  deriving DecidableEq

def Conv.char : Conv → BitVec 8
  | .d => ch 'd'
  | .u => ch 'u'
  | .x => ch 'x'
  | .bigX => ch 'X'
  | .o => ch 'o'

def Conv.base : Conv → Base
  | .d => .decimal
  | .u => .decimal
  | .x => .hex
  | .bigX => .hex
  | .o => .octal

/-- The argument of the conversion: the second one is qualified with `l`. -/
inductive NumberArg where
  | plain (value : BitVec 32)
  | long (value : BitVec 64)

structure NumberFormat where
  flags : List Flag
  width : Width
  precision : Precision
  conv : Conv
  arg : NumberArg

/-! ## The format and its arguments -/

def Width.text : Width → Str
  | .absent => []
  | .literal first _ rest => decimalChar first :: rest.map decimalChar
  | .star _ => [ch '*']

def Width.args : Width → List VarArg
  | .star value => [.int value]
  | _ => []

def Width.value : Width → ℕ
  | .absent => 0
  | .literal first _ rest => decimalFrom first rest
  | .star value => value.toInt.natAbs

def Precision.text : Precision → Str
  | .absent => []
  | .point => [ch '.']
  | .literal first rest => ch '.' :: decimalChar first :: rest.map decimalChar
  | .star _ => [ch '.', ch '*']

def Precision.args : Precision → List VarArg
  | .star value => [.int value]
  | _ => []

def NumberArg.isLong : NumberArg → Bool
  | .plain _ => false
  | .long _ => true

def NumberArg.text : NumberArg → Str
  | .plain _ => []
  | .long _ => [ch 'l']

def NumberArg.arg : NumberArg → VarArg
  | .plain value => .int value
  | .long value => .long value

namespace NumberFormat

/-- The conversion behind the percent sign. -/
def text (f : NumberFormat) : Str :=
  f.flags.map Flag.char ++ (f.width.text ++ (f.precision.text ++ (f.arg.text ++ [f.conv.char])))

def fmt (f : NumberFormat) : Str := ch '%' :: f.text

def args (f : NumberFormat) : List VarArg := f.width.args ++ (f.precision.args ++ [f.arg.arg])

end NumberFormat

/-! ## What is read -/

/-- `fieldWidth` -/
def Width.field : Width → ℤ
  | .absent => -1
  | .literal first _ rest => wrapInt (decimalFrom first rest)
  | .star value => if value.toInt < 0 then wrapInt (-value.toInt) else value.toInt

/-- A negative width of an argument is a flag. -/
def Width.flags (flags : Flags) : Width → Flags
  | .star value => if value.toInt < 0 then { flags with left := true } else flags
  | _ => flags

/-- `precision`, before it is raised to zero. -/
def Precision.read : Precision → ℤ
  | .absent => -1
  | .point => -1
  | .literal first rest => wrapInt (decimalFrom first rest)
  | .star value => value.toInt

/-- `precision` -/
def Precision.field : Precision → ℤ
  | .absent => -1
  | p => if p.read < 0 then 0 else p.read

def Conv.flags (flags : Flags) : Conv → Flags
  | .d => { flags with sign := true }
  | .x => { flags with small := true }
  | _ => flags

/-- The `long` that `_Number` gets: `%d` and `%u` take a signed argument. -/
def Conv.number : Conv → NumberArg → BitVec 64
  | _, .long value => value
  | .d, .plain value => value.signExtend 64
  | .u, .plain value => value.signExtend 64
  | _, .plain value => value.setWidth 64

/-- `flags` -/
def NumberFormat.allFlags (f : NumberFormat) : Flags :=
  f.conv.flags (f.width.flags (f.flags.foldl Flag.set Flags.none))

def NumberFormat.item (f : NumberFormat) : Item :=
  .number (f.conv.number f.arg) f.conv.base f.width.field f.precision.field f.allFlags

section Read

variable {flags : Flags} {fmt : Str}

theorem isDigit_decimalChar (d : Fin 10) : isDigit (decimalChar d) = true := by
  revert d
  decide

theorem toNat_decimalChar (d : Fin 10) : ((decimalChar d).toNat : ℤ) = 48 + d := by
  revert d
  decide

def NoDigitHead (s : Str) : Prop := ∀ c ∈ s.head?, isDigit c = false

theorem noDigitHead_cons {c : BitVec 8} (hc : isDigit c = false) : NoDigitHead (c :: fmt) := by
  intro c' hc'
  cases hc'
  exact hc

theorem wrapInt_mul_add (i : ℤ) (d : ℤ) : wrapInt (wrapInt i * 10 + d) = wrapInt (i * 10 + d) := by
  unfold wrapInt
  rw [← Int.bmod_add_bmod, Int.bmod_mul_bmod, Int.bmod_add_bmod]

/-- By induction on the digits: the number is read, as an `int`. -/
theorem skipAscii2Int_decimal (n : ℕ) (digits : List (Fin 10)) (hfmt : NoDigitHead fmt) :
    skipAscii2Int (wrapInt n) (digits.map decimalChar ++ fmt) =
      (wrapInt (decimalFrom n digits), fmt) := by
  induction digits generalizing n with
  | nil =>
      cases fmt with
      | nil => rfl
      | cons c fmt =>
          have hc := hfmt c rfl
          rw [List.map_nil, List.nil_append, skipAscii2Int, hc]
          rfl
  | cons d digits ih =>
      have hstep : wrapInt (wrapInt n * 10 + (decimalChar d).toNat - 48) =
          wrapInt ((n * 10 + d.val : ℕ) : ℤ) := by
        have hdigit : wrapInt n * 10 + (decimalChar d).toNat - 48 =
            wrapInt n * 10 + (d.val : ℤ) := by
          rw [toNat_decimalChar]
          omega
        rw [hdigit, wrapInt_mul_add]
        push_cast
        rfl
      rw [List.map_cons, List.cons_append, skipAscii2Int, isDigit_decimalChar, if_pos rfl, hstep,
        ih]
      rfl

theorem skipAscii2Int_literal (first : Fin 10) (rest : List (Fin 10)) (fmt : Str)
    (hfmt : NoDigitHead fmt) :
    skipAscii2Int 0 (decimalChar first :: (rest.map decimalChar ++ fmt)) =
      (wrapInt (decimalFrom first rest), fmt) := by
  have hfirst : decimalFrom 0 (first :: rest) = decimalFrom first rest :=
    congrArg (fun n => decimalFrom n rest) (Nat.zero_add first.val)
  have h := skipAscii2Int_decimal 0 (first :: rest) hfmt
  rwa [hfirst] at h

def behindWidth : List (BitVec 8) := [ch '.', ch 'l', ch 'd', ch 'u', ch 'x', ch 'X', ch 'o']

theorem isDigit_behindWidth {c : BitVec 8} (hc : c ∈ behindWidth) : isDigit c = false := by
  revert c
  decide

theorem ne_star_of_behindWidth {c : BitVec 8} (hc : c ∈ behindWidth) : c ≠ ch '*' := by
  revert c
  decide

theorem conv_mem_behindWidth (conv : Conv) : conv.char ∈ behindWidth := by
  cases conv <;> decide

theorem exists_behindWidth (precision : Precision) (arg : NumberArg) (conv : Conv) :
    ∃ c rest, precision.text ++ (arg.text ++ [conv.char]) = c :: rest ∧ c ∈ behindWidth := by
  cases precision with
  | absent =>
      cases arg with
      | plain value => exact ⟨_, _, rfl, conv_mem_behindWidth conv⟩
      | long value => exact ⟨_, _, rfl, by decide⟩
  | point => exact ⟨_, _, rfl, by decide⟩
  | literal first rest => exact ⟨_, _, rfl, by decide⟩
  | star value => exact ⟨_, _, rfl, by decide⟩

theorem readFlags_stop {c : BitVec 8} (hc : ∀ flag : Flag, c ≠ flag.char) :
    readFlags flags (c :: fmt) = (flags, c :: fmt) := by
  have hleft : c ≠ ch '-' := hc .left
  have hplus : c ≠ ch '+' := hc .plus
  have hspace : c ≠ ch ' ' := hc .space
  have hspecial : c ≠ ch '#' := hc .special
  have hzero : c ≠ ch '0' := hc .zeroPad
  rw [readFlags, if_neg hleft, if_neg hplus, if_neg hspace, if_neg hspecial, if_neg hzero]

theorem readFlags_map (flags : Flags) (list : List Flag)
    (hstop : ∀ flags, readFlags flags fmt = (flags, fmt)) :
    readFlags flags (list.map Flag.char ++ fmt) = (list.foldl Flag.set flags, fmt) := by
  induction list generalizing flags with
  | nil => exact hstop flags
  | cons flag list ih =>
      have hflag : readFlags flags (flag.char :: (list.map Flag.char ++ fmt)) =
          readFlags (flag.set flags) (list.map Flag.char ++ fmt) := by
        cases flag <;> rfl
      rw [List.map_cons, List.cons_append, hflag, ih]
      rfl

theorem readFlags_width (flags : Flags) (fmt : Str) (width : Width) {c : BitVec 8}
    (hc : c ∈ behindWidth) :
    readFlags flags (width.text ++ c :: fmt) = (flags, width.text ++ c :: fmt) := by
  cases width with
  | absent =>
      refine readFlags_stop fun flag => ?_
      cases flag <;> revert c <;> decide
  | literal first hfirst rest =>
      refine readFlags_stop fun flag => ?_
      cases flag <;> revert first <;> decide
  | star value =>
      refine readFlags_stop fun flag => ?_
      cases flag <;> decide

theorem readWidth_eq (flags : Flags) (fmt : Str) (args : List VarArg) (width : Width)
    {c : BitVec 8} (hc : c ∈ behindWidth) :
    readWidth ⟨flags, width.text ++ c :: fmt, width.args ++ args⟩ =
      .ok (width.field, ⟨width.flags flags, c :: fmt, args⟩) := by
  have hdigit := isDigit_behindWidth hc
  cases width with
  | absent =>
      simp only [Width.text, Width.args, List.nil_append, readWidth, hdigit, Bool.false_eq_true,
        if_false, if_neg (ne_star_of_behindWidth hc)]
      rfl
  | literal first hfirst rest =>
      have hread := skipAscii2Int_literal first rest (c :: fmt) (noDigitHead_cons hdigit)
      simp only [Width.text, Width.args, List.nil_append, List.cons_append, readWidth,
        isDigit_decimalChar, if_true, hread]
      rfl
  | star value =>
      have hread : readWidth ⟨flags, ch '*' :: c :: fmt, .int value :: args⟩ =
          if value.toInt < 0 then
            .ok (wrapInt (-value.toInt), ⟨{ flags with left := true }, c :: fmt, args⟩)
          else .ok (value.toInt, ⟨flags, c :: fmt, args⟩) := rfl
      have hfield : (Width.star value).field =
          if value.toInt < 0 then wrapInt (-value.toInt) else value.toInt := rfl
      have hflags : (Width.star value).flags flags =
          if value.toInt < 0 then { flags with left := true } else flags := rfl
      rw [hfield, hflags]
      refine hread.trans ?_
      by_cases hneg : value.toInt < 0
      · rw [if_pos hneg, if_pos hneg, if_pos hneg]
      · rw [if_neg hneg, if_neg hneg, if_neg hneg]

theorem exists_behindPrecision (arg : NumberArg) (conv : Conv) :
    ∃ c rest, arg.text ++ [conv.char] = c :: rest ∧ c ∈ behindWidth ∧ c ≠ ch '.' := by
  cases arg with
  | plain value =>
      refine ⟨_, _, rfl, conv_mem_behindWidth conv, ?_⟩
      cases conv <;> decide
  | long value => exact ⟨_, _, rfl, by decide, by decide⟩

theorem readPrecision_eq (flags : Flags) (fmt : Str) (args : List VarArg) (precision : Precision)
    {c : BitVec 8} (hc : c ∈ behindWidth) (hpoint : c ≠ ch '.') :
    readPrecision ⟨flags, precision.text ++ c :: fmt, precision.args ++ args⟩ =
      .ok (precision.field, ⟨flags, c :: fmt, args⟩) := by
  have hdigit := isDigit_behindWidth hc
  cases precision with
  | absent =>
      simp only [Precision.text, Precision.args, List.nil_append, readPrecision, if_neg hpoint]
      rfl
  | point =>
      have hread : readPoint ⟨flags, c :: fmt, args⟩ = .ok (-1, ⟨flags, c :: fmt, args⟩) := by
        simp only [readPoint, hdigit, Bool.false_eq_true, if_false,
          if_neg (ne_star_of_behindWidth hc)]
      simp only [Precision.text, Precision.args, List.cons_append, List.nil_append, readPrecision,
        if_true, hread, exec_ok_bind]
      rfl
  | literal first rest =>
      have hdigits := skipAscii2Int_literal first rest (c :: fmt) (noDigitHead_cons hdigit)
      have hread : readPoint
          ⟨flags, decimalChar first :: (rest.map decimalChar ++ c :: fmt), args⟩ =
          .ok (wrapInt (decimalFrom first rest), ⟨flags, c :: fmt, args⟩) := by
        simp only [readPoint, isDigit_decimalChar, if_true, hdigits]
      simp only [Precision.text, Precision.args, List.cons_append, List.nil_append, readPrecision,
        if_true, hread, exec_ok_bind]
      rfl
  | star value => rfl

theorem readQualifier_eq (arg : NumberArg) (conv : Conv) :
    readQualifier (arg.text ++ [conv.char]) = (arg.isLong, [conv.char]) := by
  cases arg with
  | plain value => cases conv <;> rfl
  | long value => rfl

theorem conversion_eq (flags : Flags) (conv : Conv) (arg : NumberArg) (fieldWidth precision : ℤ) :
    conversion conv.char fieldWidth precision arg.isLong flags [arg.arg] =
      .ok (.number (conv.number arg) conv.base fieldWidth precision (conv.flags flags), []) := by
  cases conv <;> cases arg <;> rfl

theorem readItem_numberFormat (f : NumberFormat) :
    readItem (ch '%') f.text f.args = .ok (f.item, [], []) := by
  obtain ⟨c, rest, hrest, hc⟩ := exists_behindWidth f.precision f.arg f.conv
  obtain ⟨c', rest', hrest', hc', hpoint⟩ := exists_behindPrecision f.arg f.conv
  have hflags := readFlags_map Flags.none f.flags fun flags => readFlags_width flags rest f.width hc
  have hwidth := readWidth_eq (f.flags.foldl Flag.set Flags.none) rest
    (f.precision.args ++ [f.arg.arg]) f.width hc
  have hprecision := readPrecision_eq (f.width.flags (f.flags.foldl Flag.set Flags.none)) rest'
    [f.arg.arg] f.precision hc' hpoint
  rw [← hrest'] at hprecision
  rw [← hrest] at hflags hwidth
  have hqualifier := readQualifier_eq f.arg f.conv
  have hconversion := conversion_eq (f.width.flags (f.flags.foldl Flag.set Flags.none)) f.conv
    f.arg f.width.field f.precision.field
  simp only [readItem, NumberFormat.text, NumberFormat.args, ne_eq, not_true_eq_false, if_false,
    hflags, hwidth, exec_ok_bind, hprecision, hqualifier, readConversion, hconversion, exec_pure]
  rfl

end Read

end Nxos.Utils
