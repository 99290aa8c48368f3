import Nxos.Utils.Sprintf.Bounds
import Nxos.Utils.Sprintf.NumberFormat

/-!
# Numbers are read back from their text

A text is read as a number by leaving out the spaces around it, its sign and the prefix of its base.
What `NX_VSNPrintf` prints for a number is read as the argument, except for `%u` without `l`, which
takes an `int` and extends its sign.
-/

namespace Nxos.Utils

open Nxos.Fs

/-! ## Reading a number -/

def digitValue (c : BitVec 8) : Option ℕ :=
  if 48 ≤ c.toNat ∧ c.toNat ≤ 57 then some (c.toNat - 48)
  else if 65 ≤ c.toNat ∧ c.toNat ≤ 90 then some (c.toNat - 55)
  else if 97 ≤ c.toNat ∧ c.toNat ≤ 122 then some (c.toNat - 87)
  else none

def readDigits (base : ℕ) : ℕ → Str → Option ℕ
  | n, [] => some n
  | n, c :: s =>
      match digitValue c with
      | some d => if d < base then readDigits base (n * base + d) s else none
      | none => none

/-- `0x` or `0X` in front of a hexadecimal number. -/
def dropPrefix (base : ℕ) : Str → Str
  | a :: b :: s =>
      if base = 16 ∧ a = ch '0' ∧ (b = ch 'x' ∨ b = ch 'X') then s else a :: b :: s
  | s => s

def readUnsigned (base : ℕ) (s : Str) : Option ℕ :=
  if (dropPrefix base s).isEmpty then none else readDigits base 0 (dropPrefix base s)

def stripSpaces (s : Str) : Str :=
  ((s.dropWhile (· == ch ' ')).reverse.dropWhile (· == ch ' ')).reverse

def readBack (base : ℕ) (s : Str) : Option ℤ :=
  match stripSpaces s with
  | [] => none
  | c :: rest =>
      if c = ch '-' then (readUnsigned base rest).map fun n : ℕ => -(n : ℤ)
      else if c = ch '+' then (readUnsigned base rest).map fun n : ℕ => (n : ℤ)
      else (readUnsigned base (c :: rest)).map fun n : ℕ => (n : ℤ)

section Read

variable {base n : ℕ} {small : Bool} {s : Str}

private theorem digitValue_digitAt_all :
    ∀ small : Bool, ∀ d < 16, digitValue (digitAt small d) = some d := by
  decide

theorem readDigits_map (hbase : base ≤ 16) {digits : List ℕ} (hdigits : ∀ d ∈ digits, d < base) :
    readDigits base n (digits.map (digitAt small)) =
      some (digits.foldl (fun n d => n * base + d) n) := by
  induction digits generalizing n with
  | nil => rfl
  | cons d digits ih =>
      rw [List.forall_mem_cons] at hdigits
      have hvalue := digitValue_digitAt_all small d (lt_of_lt_of_le hdigits.1 hbase)
      rw [List.map_cons, readDigits, hvalue]
      simp only [if_pos hdigits.1]
      exact ih hdigits.2

theorem foldl_numerals (base n k : ℕ) :
    (List.replicate k 0 ++ (numerals base n).reverse).foldl (fun n d => n * base + d) 0 = n := by
  have hzeros : (List.replicate k 0).foldl (fun n d => n * base + d) 0 = 0 := by
    induction k with
    | zero => rfl
    | succ k ih =>
        rw [List.replicate_succ, List.foldl_cons, Nat.zero_mul]
        exact ih
  rw [List.foldl_append, hzeros, List.foldl_reverse]
  unfold numerals
  split
  · next hzero =>
      rw [hzero, List.foldr_cons, List.foldr_nil, Nat.zero_mul]
  · have hdigits := Nat.ofDigits_digits base n
    have hfold : (fun x y : ℕ => y * base + x) = fun x y => x + base * y := by
      funext x y
      rw [Nat.add_comm, Nat.mul_comm]
    rw [Nat.ofDigits_eq_foldr] at hdigits
    rw [hfold]
    exact hdigits

theorem numerals_lt (base : Base) : ∀ d ∈ numerals base.value n, d < base.value := by
  have hbase : 1 < base.value := by
    cases base <;> decide
  unfold numerals
  split
  · intro d hd
    rw [List.mem_singleton.mp hd]
    exact Nat.lt_of_lt_of_le Nat.zero_lt_one (Nat.le_of_lt hbase)
  · exact fun d hd => Nat.digits_lt_base hbase hd

private theorem digitAt_ne_x_all :
    ∀ small : Bool, ∀ d < 16, digitAt small d ≠ ch 'x' ∧ digitAt small d ≠ ch 'X' := by
  decide

theorem dropPrefix_digits {digits : List ℕ} (hdigits : ∀ d ∈ digits, d < 16) :
    dropPrefix base (digits.map (digitAt small)) = digits.map (digitAt small) := by
  cases digits with
  | nil => rfl
  | cons a digits =>
      cases digits with
      | nil => rfl
      | cons b rest =>
          have hb : b < 16 := hdigits b (List.mem_cons_of_mem _ List.mem_cons_self)
          refine if_neg ?_
          rintro ⟨-, -, hx | hx⟩
          · exact (digitAt_ne_x_all small b hb).1 hx
          · exact (digitAt_ne_x_all small b hb).2 hx

theorem readUnsigned_digits (small : Bool) (hbase : base ≤ 16) {digits : List ℕ} (hne : digits ≠ [])
    (hdigits : ∀ d ∈ digits, d < base) :
    readUnsigned base (digits.map (digitAt small)) =
      some (digits.foldl (fun n d => n * base + d) 0) := by
  rw [readUnsigned, dropPrefix_digits fun d hd => lt_of_lt_of_le (hdigits d hd) hbase,
    if_neg (by simpa using hne), readDigits_map hbase hdigits]

theorem readUnsigned_prefixOf (base : Base) (flags : Flags) {digits : List ℕ} (hne : digits ≠ [])
    (hdigits : ∀ d ∈ digits, d < base.value) :
    readUnsigned base.value (prefixOf flags base.value ++ digits.map (digitAt flags.small)) =
      some (digits.foldl (fun n d => n * base.value + d) 0) := by
  have hbase : base.value ≤ 16 := by
    cases base <;> decide
  have hplain := readUnsigned_digits flags.small hbase hne hdigits
  unfold prefixOf
  cases hspecial : flags.special with
  | false => exact hplain
  | true =>
      cases base with
      | octal =>
          have hzero : ∀ d ∈ 0 :: digits, d < 8 := by
            rw [List.forall_mem_cons]
            exact ⟨by decide, hdigits⟩
          have hread :=
            readUnsigned_digits flags.small (by decide) (List.cons_ne_nil 0 digits) hzero
          exact hread
      | decimal => exact hplain
      | hex =>
          have hletter : digitAt flags.small 33 = ch 'x' ∨ digitAt flags.small 33 = ch 'X' := by
            cases flags.small <;> decide
          have hdrop : dropPrefix 16
              (ch '0' :: digitAt flags.small 33 :: digits.map (digitAt flags.small)) =
                dropPrefix 16 (digits.map (digitAt flags.small)) := by
            rw [dropPrefix_digits hdigits]
            exact if_pos ⟨rfl, rfl, hletter⟩
          rw [readUnsigned] at hplain ⊢
          rw [← hplain]
          exact congrArg (fun s => if s.isEmpty then none else readDigits 16 0 s) hdrop

/-- Spaces in front of a text that begins with another character. -/
theorem dropWhile_spaces (hs : s.head? ≠ some (ch ' ')) (n : ℕ) :
    (List.replicate n (ch ' ') ++ s).dropWhile (· == ch ' ') = s := by
  have hspaces : ∀ c ∈ List.replicate n (ch ' '), (c == ch ' ') = true := by
    intro c hc
    rw [List.eq_of_mem_replicate hc, beq_self_eq_true]
  rw [List.dropWhile_append_of_pos hspaces]
  cases s with
  | nil => rfl
  | cons c s =>
      have hc : c ≠ ch ' ' := by simpa using hs
      simp [hc]

theorem stripSpaces_append (hne : s ≠ []) (hs : ch ' ' ∉ s) (before after : ℕ) :
    stripSpaces (List.replicate before (ch ' ') ++ (s ++ List.replicate after (ch ' '))) = s := by
  have hhead : s.head? ≠ some (ch ' ') := fun h => hs (List.mem_of_head? h)
  have hfirst : (s ++ List.replicate after (ch ' ')).head? ≠ some (ch ' ') := by
    obtain ⟨c, rest, rfl⟩ := List.exists_cons_of_ne_nil hne
    exact hhead
  have hlast : s.reverse.head? ≠ some (ch ' ') := by
    intro h
    exact hs (List.mem_reverse.mp (List.mem_of_head? h))
  rw [stripSpaces, dropWhile_spaces hfirst, List.reverse_append, List.reverse_replicate,
    dropWhile_spaces hlast, List.reverse_reverse]

theorem readBack_signOf {body : Str} {m : ℕ} (hbody : readUnsigned base body = some m)
    (hne : body ≠ []) (hchars : ∀ c ∈ body, c ≠ ch ' ' ∧ c ≠ ch '-' ∧ c ≠ ch '+') (flags : Flags)
    (negative : Bool) (before after : ℕ) :
    readBack base (List.replicate before (ch ' ') ++
      (signOf flags negative ++ (body ++ List.replicate after (ch ' ')))) =
        some (if negative then -(m : ℤ) else m) := by
  have hspace : ch ' ' ∉ body := fun h => (hchars _ h).1 rfl
  obtain ⟨c, rest, rfl⟩ := List.exists_cons_of_ne_nil hne
  obtain ⟨-, hminus, hplus⟩ := hchars c List.mem_cons_self
  have hunsigned : ∀ before, readBack base (List.replicate before (ch ' ') ++
      ((c :: rest) ++ List.replicate after (ch ' '))) = some (m : ℤ) := by
    intro before
    simp only [readBack, stripSpaces_append hne hspace, if_neg hminus, if_neg hplus, hbody]
    rfl
  have hsigned : ∀ sign : BitVec 8, sign ≠ ch ' ' → stripSpaces (List.replicate before (ch ' ') ++
      ([sign] ++ ((c :: rest) ++ List.replicate after (ch ' ')))) = sign :: c :: rest := by
    intro sign hsign
    have hmem : ch ' ' ∉ sign :: c :: rest := by
      rw [List.mem_cons, not_or]
      exact ⟨Ne.symm hsign, hspace⟩
    exact stripSpaces_append (List.cons_ne_nil _ _) hmem before after
  unfold signOf
  split
  · simp only [readBack, hsigned (ch '-') (by decide), if_true, hbody]
    rfl
  split
  · rw [readBack, hsigned (ch '+') (by decide)]
    simp only [hbody]
    rfl
  split
  · have hjoin : List.replicate before (ch ' ') ++ ([ch ' '] ++
        ((c :: rest) ++ List.replicate after (ch ' '))) =
          List.replicate (before + 1) (ch ' ') ++
            ((c :: rest) ++ List.replicate after (ch ' ')) := by
      rw [List.replicate_succ', List.append_assoc]
    rw [hjoin]
    exact hunsigned (before + 1)
  · exact hunsigned before

end Read

/-! ## The text of a number -/

section Text

variable {num : BitVec 64} {base : Base} {fieldWidth precision : ℤ} {flags : Flags} {s : Str}

def shownValue (num : BitVec 64) (flags : Flags) : ℤ :=
  if isNegative flags num then -(magnitude flags num : ℤ) else magnitude flags num

private theorem digitAt_ne_all : ∀ small : Bool, ∀ d < 36,
    digitAt small d ≠ ch ' ' ∧ digitAt small d ≠ ch '-' ∧ digitAt small d ≠ ch '+' := by
  decide

theorem ne_sign_of_mem_body {digits : List ℕ} (hdigits : ∀ d ∈ digits, d < base.value)
    {c : BitVec 8} (hc : c ∈ prefixOf flags base.value ++ digits.map (digitAt flags.small)) :
    c ≠ ch ' ' ∧ c ≠ ch '-' ∧ c ≠ ch '+' := by
  have hdigit : ∃ d < 36, c = digitAt flags.small d := by
    rcases List.mem_append.mp hc with hprefix | hmap
    · unfold prefixOf at hprefix
      split at hprefix
      · split at hprefix
        · exact ⟨0, by decide, List.mem_singleton.mp hprefix⟩
        split at hprefix
        · rcases List.mem_cons.mp hprefix with rfl | hletter
          · exact ⟨0, by decide, rfl⟩
          · exact ⟨33, by decide, List.mem_singleton.mp hletter⟩
        · cases hprefix
      · cases hprefix
    · obtain ⟨d, hd, rfl⟩ := List.mem_map.mp hmap
      refine ⟨d, lt_of_lt_of_le (hdigits d hd) ?_, rfl⟩
      cases base <;> decide
  obtain ⟨d, hd, rfl⟩ := hdigit
  exact digitAt_ne_all flags.small d hd

/-- The padding between the prefix and the digits consists of zeros. -/
theorem middle_pads_eq (hlen : numberLength num base fieldWidth precision flags < 2 ^ 31 - 1) :
    List.replicate (pads flags (padCounter num base fieldWidth precision flags)).2.1
        (padChar flags) =
      List.replicate (pads flags (padCounter num base fieldWidth precision flags)).2.1
        (ch '0') := by
  have hbounds : -2 ^ 31 ≤ padCounter num base fieldWidth precision flags := (wrapInt_bounds _).1
  rw [numberLength_eq] at hlen
  rcases middle_pads_cases flags hbounds with hnone | hzero | hwrapped
  · rw [hnone]
    rfl
  · rw [hzero]
  · omega

theorem readBack_number (hlen : numberLength num base fieldWidth precision flags < 2 ^ 31 - 1)
    (htext : number num base.value fieldWidth precision flags = .ok s) :
    readBack base.value s = some (shownValue num flags) := by
  have hmiddle := middle_pads_eq hlen
  rw [number_eq, hmiddle] at htext
  generalize pads flags (padCounter num base fieldWidth precision flags) = p at *
  generalize precisionZeros num base precision flags = zeros at *
  have hdigits : ∀ d ∈ List.replicate (p.2.1 + zeros) 0 ++
      (numerals base.value (magnitude flags num)).reverse, d < base.value := by
    intro d hd
    rcases List.mem_append.mp hd with hzero | hnumeral
    · rw [List.eq_of_mem_replicate hzero]
      cases base <;> decide
    · exact numerals_lt base d (List.mem_reverse.mp hnumeral)
  have hne : List.replicate (p.2.1 + zeros) 0 ++
      (numerals base.value (magnitude flags num)).reverse ≠ [] := by
    have hcount := length_numerals base (magnitude flags num)
    intro hnil
    rw [List.append_eq_nil_iff, List.reverse_eq_nil_iff] at hnil
    rw [hnil.2] at hcount
    cases hcount
  have hbody := readUnsigned_prefixOf base flags hne hdigits
  rw [foldl_numerals] at hbody
  have hread := readBack_signOf hbody
    (List.append_ne_nil_of_right_ne_nil _ (List.map_eq_nil_iff.not.mpr hne))
    (fun c hc => ne_sign_of_mem_body hdigits hc) flags (isNegative flags num) p.1 p.2.2
  have hzero : digitAt flags.small 0 = ch '0' := rfl
  simp only [List.map_append, List.map_replicate, List.map_reverse, List.replicate_add, hzero,
    List.append_assoc] at hread
  simp only [List.append_assoc] at htext
  cases htext
  exact hread

theorem fieldWidth_le_numberLength (hlow : -1 ≤ fieldWidth) (hhigh : fieldWidth < 2 ^ 31)
    (hlen : numberLength num base fieldWidth precision flags < 2 ^ 31 - 1) :
    fieldWidth ≤ numberLength num base fieldWidth precision flags := by
  have hpads := toNat_le_pads flags (padCounter num base fieldWidth precision flags)
  rw [numberLength_eq, precisionZeros] at *
  have hcounter := padCounter_eq num base fieldWidth precision flags hlow hhigh (by omega)
  omega

end Text

/-! ## The conversions -/

/-- The argument as the conversion says. -/
def NumberFormat.meaning (f : NumberFormat) : ℤ :=
  match f.conv, f.arg with
  | .d, .plain value => value.toInt
  | .d, .long value => value.toInt
  | _, .plain value => value.toNat
  | _, .long value => value.toNat

section Conversion

theorem sign_foldl_set (list : List Flag) (flags : Flags) :
    (list.foldl Flag.set flags).sign = flags.sign := by
  induction list generalizing flags with
  | nil => rfl
  | cons flag list ih =>
      rw [List.foldl_cons, ih]
      cases flag <;> rfl

theorem sign_width_flags (width : Width) (flags : Flags) :
    (width.flags flags).sign = flags.sign := by
  unfold Width.flags
  split
  · split <;> rfl
  · rfl

/-- Only `%d` shows a sign of the number. -/
theorem sign_allFlags (f : NumberFormat) : f.allFlags.sign = (f.conv == .d) := by
  have hflags : (f.width.flags (f.flags.foldl Flag.set Flags.none)).sign = false := by
    rw [sign_width_flags, sign_foldl_set]
    rfl
  unfold NumberFormat.allFlags
  generalize f.width.flags (f.flags.foldl Flag.set Flags.none) = flags at *
  cases f.conv
  · rfl
  · exact hflags
  · exact hflags
  · exact hflags
  · exact hflags

theorem shownValue_signed {flags : Flags} (hsign : flags.sign = true) (num : BitVec 64) :
    shownValue num flags = num.toInt := by
  have hint := BitVec.toInt_eq_toNat_cond num
  have hnegative : isNegative flags num = decide (num.toInt < 0) := by
    rw [isNegative, hsign]
    rfl
  unfold shownValue magnitude
  rw [hnegative]
  by_cases hneg : num.toInt < 0
  · rw [decide_eq_true hneg, if_pos rfl, if_pos rfl, BitVec.toNat_neg]
    omega
  · rw [decide_eq_false hneg, if_neg Bool.false_ne_true, if_neg Bool.false_ne_true]
    omega

theorem shownValue_unsigned {flags : Flags} (hsign : flags.sign = false) (num : BitVec 64) :
    shownValue num flags = num.toNat := by
  unfold shownValue magnitude isNegative
  rw [hsign]
  rfl

/-- An `int` that is passed for a `long`: its unsigned value stays below the sign bit alone. -/
theorem toNat_signExtend_eq_iff (value : BitVec 32) :
    (value.signExtend 64).toNat = value.toNat ↔ value.toNat < 2 ^ 31 := by
  have hlt := value.isLt
  rw [BitVec.toNat_signExtend, BitVec.toNat_setWidth_of_le (by decide), BitVec.msb_eq_decide]
  by_cases hmsb : 2 ^ (32 - 1) ≤ value.toNat
  · rw [decide_eq_true hmsb, if_pos rfl]
    omega
  · rw [decide_eq_false hmsb, if_neg Bool.false_ne_true]
    omega

theorem toNat_number (f : NumberFormat) (hd : f.conv ≠ .d) (hu : f.conv ≠ .u) :
    ((f.conv.number f.arg).toNat : ℤ) = f.meaning := by
  have hwide : ∀ value : BitVec 32, (value.setWidth 64).toNat = value.toNat := fun value =>
    BitVec.toNat_setWidth_of_le (by decide)
  obtain ⟨list, width, precision, conv, arg⟩ := f
  cases conv with
  | d => exact absurd rfl hd
  | u => exact absurd rfl hu
  | x | bigX | o =>
      cases arg with
      | plain value => exact congrArg Nat.cast (hwide value)
      | long value => rfl

/-- The argument that `_Number` gets is shown as it is meant, unless the sign of an unsigned one was
extended. -/
theorem shownValue_eq_meaning_iff (f : NumberFormat) :
    shownValue (f.conv.number f.arg) f.allFlags = f.meaning ↔
      ¬(f.conv = .u ∧ ∃ value, f.arg = .plain value ∧ 2 ^ 31 ≤ value.toNat) := by
  have hsign := sign_allFlags f
  by_cases hd : f.conv = .d
  · -- a signed conversion
    have hu : f.conv ≠ .u := by
      rw [hd]
      decide
    refine iff_of_true ?_ fun h => hu h.1
    rw [shownValue_signed (hsign.trans (beq_iff_eq.mpr hd))]
    obtain ⟨list, width, precision, conv, arg⟩ := f
    obtain rfl : conv = .d := hd
    cases arg with
    | plain value => exact BitVec.toInt_signExtend_of_le (by decide)
    | long value => rfl
  · rw [shownValue_unsigned (hsign.trans (beq_eq_false_iff_ne.mpr hd))]
    by_cases hu : f.conv = .u
    · obtain ⟨list, width, precision, conv, arg⟩ := f
      obtain rfl : conv = .u := hu
      cases arg with
      | plain value =>
          -- the `int` is extended with its sign
          have hvalue : ((value.signExtend 64).toNat : ℤ) = value.toNat ↔ value.toNat < 2 ^ 31 := by
            rw [Int.natCast_inj]
            exact toNat_signExtend_eq_iff value
          refine hvalue.trans ?_
          constructor
          · rintro hlt ⟨-, value', harg, hle⟩
            cases harg
            omega
          · intro h
            by_contra hle
            exact h ⟨rfl, value, rfl, by omega⟩
      | long value =>
          refine iff_of_true rfl ?_
          rintro ⟨-, value', harg, -⟩
          cases harg
    · exact iff_of_true (toNat_number f hd hu) fun h => hu h.1

theorem width_field_bounds (width : Width) (hvalue : width.value < 2 ^ 31) :
    -1 ≤ width.field ∧ width.field < 2 ^ 31 ∧ (width.value : ℤ) ≤ max width.field 0 := by
  cases width with
  | absent => decide
  | literal first hfirst rest =>
      have hfield : (Width.literal first hfirst rest).field =
          wrapInt (decimalFrom first rest) := rfl
      have hlit : (Width.literal first hfirst rest).value = decimalFrom first rest := rfl
      rw [hlit] at hvalue ⊢
      rw [hfield, wrapInt_of_bounds (by omega) (by omega)]
      omega
  | star value =>
      have hfield : (Width.star value).field =
          if value.toInt < 0 then wrapInt (-value.toInt) else value.toInt := rfl
      have hstar : (Width.star value).value = value.toInt.natAbs := rfl
      rw [hstar] at hvalue ⊢
      rw [hfield, wrapInt_of_bounds (by omega) (by omega)]
      split <;> omega

theorem vsnPrintf_numberFormat (f : NumberFormat) {bufLen : BitVec 32} (hlen : bufLen ≠ 0) :
    ∃ s, number (f.conv.number f.arg) f.conv.base.value f.width.field f.precision.field f.allFlags =
        .ok s ∧
      s.length = numberLength (f.conv.number f.arg) f.conv.base f.width.field f.precision.field
        f.allFlags ∧
      vsnPrintf bufLen f.fmt f.args = .ok (wrapInt s.length, ⟨s, []⟩) := by
  obtain ⟨s, htext, hlength⟩ := exists_text f.item
  have hrounds : bufLen.toNat ≠ 0 := fun h => hlen (BitVec.eq_of_toNat_eq h)
  obtain ⟨rounds, hrounds⟩ := Nat.exists_eq_succ_of_ne_zero hrounds
  have hprint : f.item.print ⟨[], []⟩ = .ok ⟨s, []⟩ := by
    rw [Item.print, htext]
    rfl
  have hloop : printLoop bufLen.toNat f.fmt f.args ⟨[], []⟩ = .ok ⟨s, []⟩ := by
    rw [hrounds, NumberFormat.fmt, printLoop, readItem_numberFormat, exec_ok_bind]
    dsimp only
    rw [hprint]
    cases rounds <;> rfl
  refine ⟨s, htext, hlength, ?_⟩
  rw [vsnPrintf, hloop]
  rfl

end Conversion

/-- In a buffer that is longer than the width and the text, the text of a number is read back as the
argument and is as long as the width, exactly when the conversion is no `%u` of an `unsigned int`
with the highest bit. -/
theorem vsnPrintf_readBack_iff (f : NumberFormat) (bufLen : BitVec 32)
    (hwidth : (f.width.value : ℤ) < bufLen.toInt) :
    ∃ ret out, vsnPrintf bufLen f.fmt f.args = .ok (ret, out) ∧
      ((out.text.length : ℤ) < bufLen.toInt →
        ((readBack f.conv.base.value out.text = some f.meaning ∧
            f.width.value ≤ out.text.length) ↔
          ¬(f.conv = .u ∧ ∃ value, f.arg = .plain value ∧ 2 ^ 31 ≤ value.toNat))) := by
  have hint := bufLen.toInt_lt
  have hne : bufLen ≠ 0 := by
    rintro rfl
    have hzero : (0 : BitVec 32).toInt = 0 := rfl
    omega
  obtain ⟨s, htext, hlength, hprintf⟩ := vsnPrintf_numberFormat f hne
  refine ⟨_, _, hprintf, ?_⟩
  dsimp only
  intro hbuf
  obtain ⟨hlow, hhigh, hvalue⟩ := width_field_bounds f.width (by omega)
  have hshort : numberLength (f.conv.number f.arg) f.conv.base f.width.field f.precision.field
      f.allFlags < 2 ^ 31 - 1 := by
    rw [← hlength]
    omega
  have hfield := fieldWidth_le_numberLength hlow hhigh hshort
  rw [← hlength] at hfield
  rw [readBack_number hshort htext, Option.some_inj, shownValue_eq_meaning_iff, and_iff_left]
  omega

/-- The largest `unsigned int` is printed as an `unsigned long`. -/
theorem vsnPrintf_percentU :
    ∃ ret out, vsnPrintf 64 [0x25, 0x75] [.int 0xffffffff] = .ok (ret, out) ∧
      readBack 10 out.text ≠ some ((0xffffffff : BitVec 32).toNat : ℤ) := by
  refine ⟨_, _, rfl, ?_⟩
  decide

/-- `%+08.3ld` of the smallest `long`. -/
theorem vsnPrintf_readBack_iff_longMin :
    ∃ ret out, vsnPrintf 64 [0x25, 0x2b, 0x30, 0x38, 0x2e, 0x33, 0x6c, 0x64]
        [.long 0x8000000000000000] = .ok (ret, out) ∧
      ((out.text.length : ℤ) < (64 : BitVec 32).toInt →
        ((readBack 10 out.text = some (-9223372036854775808) ∧ 8 ≤ out.text.length) ↔
          ¬(Conv.d = .u ∧ ∃ value, NumberArg.long 0x8000000000000000 = .plain value ∧
            2 ^ 31 ≤ value.toNat))) :=
  vsnPrintf_readBack_iff
    ⟨[.plus, .zeroPad], .literal 8 (by decide) [], .literal 3 [], .d, .long 0x8000000000000000⟩
    64 (by decide)

end Nxos.Utils
