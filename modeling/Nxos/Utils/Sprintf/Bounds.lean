import Nxos.Utils.Sprintf.Number

/-!
# When the output stays inside the buffer

A round of the loop prints one item of the format.  The length of every item follows from its
flags, widths and argument.  The limit counts the items, so the characters and the terminator stay
inside the buffer exactly when the items that are printed are short enough together.
-/

namespace Nxos.Utils

open Nxos.Fs

/-! ## The items of a format -/

/-- The items of a format with its arguments, with `rounds` for the characters that are left. -/
def formatItems : ℕ → Str → List VarArg → Exec (List Item)
  | 0, _, _ => .ok []
  | _ + 1, [], _ => .ok []
  | rounds + 1, c :: fmt, args => do
      let (item, fmt, args) ← readItem c fmt args
      let items ← formatItems rounds fmt args
      return item :: items

def printItems : List Item → Printed → Exec Printed
  | [], out => .ok out
  | item :: items, out => do
      let out ← item.print out
      printItems items out

section Reading

theorem length_readFlags (flags : Flags) (fmt : Str) :
    (readFlags flags fmt).2.length ≤ fmt.length := by
  induction fmt generalizing flags with
  | nil => exact le_refl _
  | cons c fmt ih =>
      have hskip := fun flags => Nat.le_succ_of_le (ih flags)
      unfold readFlags
      split
      · exact hskip _
      split
      · exact hskip _
      split
      · exact hskip _
      split
      · exact hskip _
      split
      · exact hskip _
      · exact le_refl _

theorem length_skipAscii2Int (i : ℤ) (s : Str) : (skipAscii2Int i s).2.length ≤ s.length := by
  induction s generalizing i with
  | nil => exact le_refl _
  | cons c s ih =>
      unfold skipAscii2Int
      split
      · exact Nat.le_succ_of_le (ih _)
      · exact le_refl _

theorem length_readWidth {r r' : Reader} {width : ℤ} (h : readWidth r = .ok (width, r')) :
    r'.fmt.length ≤ r.fmt.length := by
  unfold readWidth at h
  split at h
  · cases h
    exact le_refl _
  next c fmt hfmt =>
    split at h
    · cases h
      exact length_skipAscii2Int 0 r.fmt
    split at h
    · obtain ⟨⟨value, args⟩, -, h⟩ := exec_bind_eq_ok_iff.mp h
      rw [hfmt, List.length_cons]
      dsimp only at h
      split at h <;> cases h <;> exact Nat.le_succ _
    · cases h
      exact le_refl _

theorem length_readPoint {r r' : Reader} {precision : ℤ} (h : readPoint r = .ok (precision, r')) :
    r'.fmt.length ≤ r.fmt.length := by
  unfold readPoint at h
  split at h
  · cases h
    exact le_refl _
  next c fmt hfmt =>
    split at h
    · cases h
      exact length_skipAscii2Int 0 r.fmt
    split at h
    · obtain ⟨⟨value, args⟩, -, h⟩ := exec_bind_eq_ok_iff.mp h
      cases h
      rw [hfmt, List.length_cons]
      exact Nat.le_succ _
    · cases h
      exact le_refl _

theorem length_readPrecision {r r' : Reader} {precision : ℤ}
    (h : readPrecision r = .ok (precision, r')) : r'.fmt.length ≤ r.fmt.length := by
  unfold readPrecision at h
  split at h
  · cases h
    exact le_refl _
  next c fmt hfmt =>
    split at h
    · obtain ⟨⟨value, reader⟩, hpoint, h⟩ := exec_bind_eq_ok_iff.mp h
      cases h
      rw [hfmt, List.length_cons]
      exact Nat.le_succ_of_le (length_readPoint hpoint)
    · cases h
      exact le_refl _

theorem length_readQualifier (fmt : Str) : (readQualifier fmt).2.length ≤ fmt.length := by
  unfold readQualifier
  split
  · exact le_refl _
  split
  · exact Nat.le_succ _
  split
  · exact Nat.le_succ _
  · exact le_refl _

theorem length_readConversion {width precision : ℤ} {isLong : Bool} {r : Reader} {item : Item}
    {fmt : Str} {args : List VarArg}
    (h : readConversion width precision isLong r = .ok (item, fmt, args)) :
    fmt.length ≤ r.fmt.length := by
  unfold readConversion at h
  split at h
  · cases h
    exact Nat.zero_le _
  next c rest hfmt =>
    obtain ⟨⟨item', args'⟩, -, h⟩ := exec_bind_eq_ok_iff.mp h
    cases h
    rw [hfmt, List.length_cons]
    exact Nat.le_succ _

theorem length_readItem {c : BitVec 8} {fmt fmt' : Str} {args args' : List VarArg} {item : Item}
    (h : readItem c fmt args = .ok (item, fmt', args')) : fmt'.length ≤ fmt.length := by
  unfold readItem at h
  split at h
  · cases h
    exact le_refl _
  · obtain ⟨⟨width, r⟩, hwidth, h⟩ := exec_bind_eq_ok_iff.mp h
    obtain ⟨⟨precision, r'⟩, hprecision, h⟩ := exec_bind_eq_ok_iff.mp h
    calc fmt'.length
        ≤ (readQualifier r'.fmt).2.length := length_readConversion h
      _ ≤ r'.fmt.length := length_readQualifier r'.fmt
      _ ≤ r.fmt.length := length_readPrecision hprecision
      _ ≤ (readFlags Flags.none fmt).2.length := length_readWidth hwidth
      _ ≤ fmt.length := length_readFlags Flags.none fmt

end Reading

section Run

variable {fmt : Str} {args : List VarArg} {items : List Item}

theorem length_formatItems {rounds : ℕ} (h : formatItems rounds fmt args = .ok items) :
    items.length ≤ rounds := by
  induction rounds generalizing fmt args items with
  | zero =>
      cases h
      exact le_refl _
  | succ rounds ih =>
      cases fmt with
      | nil =>
          cases h
          exact Nat.zero_le _
      | cons c fmt =>
          obtain ⟨⟨item, fmt', args'⟩, -, h⟩ := exec_bind_eq_ok_iff.mp h
          obtain ⟨items', hitems, h⟩ := exec_bind_eq_ok_iff.mp h
          cases h
          exact Nat.succ_le_succ (ih hitems)

/-- By induction on the rounds of the loop: it prints the first items of the format. -/
theorem printLoop_eq {rounds enough : ℕ} (hlen : fmt.length ≤ enough)
    (hitems : formatItems enough fmt args = .ok items) (out : Printed) :
    printLoop rounds fmt args out = printItems (items.take rounds) out := by
  induction rounds generalizing fmt args items enough out with
  | zero => rfl
  | succ rounds ih =>
      cases fmt with
      | nil =>
          have hnil : items = [] := by
            cases enough <;> cases hitems <;> rfl
          rw [hnil]
          rfl
      | cons c fmt =>
          obtain ⟨rest, rfl⟩ := Nat.exists_eq_add_of_le hlen
          rw [List.length_cons, Nat.add_right_comm] at hitems
          obtain ⟨⟨item, fmt', args'⟩, hitem, h⟩ := exec_bind_eq_ok_iff.mp hitems
          obtain ⟨items', hitems', h⟩ := exec_bind_eq_ok_iff.mp h
          cases h
          have hle := length_readItem hitem
          rw [printLoop, hitem, exec_ok_bind, List.take_succ_cons, printItems]
          exact congrArg (fun print => item.print out >>= print)
            (funext fun out' => ih (by omega) hitems' out')

end Run

/-! ## The length of an item -/

def charPads (flags : Flags) (fieldWidth : ℤ) : ℕ :=
  if flags.left then (wrapInt (fieldWidth - 1)).toNat
  else (wrapInt (fieldWidth - 1)).toNat + (behindLoop (wrapInt (fieldWidth - 1))).toNat

/-- The spaces around a string of which `len` characters are printed. -/
def stringPads (flags : Flags) (fieldWidth len : ℤ) : ℕ :=
  if flags.left then (fieldWidth - len).toNat
  else (fieldWidth - len).toNat + (wrapInt (min fieldWidth len - 1) - len).toNat

def numberLength (num : BitVec 64) (base : Base) (fieldWidth precision : ℤ) (flags : Flags) : ℕ :=
  let (before, middle, after) := pads flags (padCounter num base fieldWidth precision flags)
  before + (signOf flags (isNegative flags num)).length + (prefixOf flags base.value).length +
    middle + precisionZeros num base precision flags +
    digitCount base.value (magnitude flags num) + after

theorem numberLength_eq (num : BitVec 64) (base : Base) (fieldWidth precision : ℤ) (flags : Flags) :
    numberLength num base fieldWidth precision flags =
      (pads flags (padCounter num base fieldWidth precision flags)).1 +
        (signOf flags (isNegative flags num)).length + (prefixOf flags base.value).length +
          (pads flags (padCounter num base fieldWidth precision flags)).2.1 +
            precisionZeros num base precision flags +
              digitCount base.value (magnitude flags num) +
                (pads flags (padCounter num base fieldWidth precision flags)).2.2 :=
  rfl

def Item.length : Item → ℕ
  | .literal _ => 1
  | .char flags fieldWidth _ => charPads flags fieldWidth + 1
  | .string flags fieldWidth precision s =>
      stringPads flags fieldWidth (stringLen precision s) + (stringLen precision s).toNat
  | .number num base fieldWidth precision flags =>
      numberLength num base fieldWidth precision flags
  | .count _ _ => 0
  | .percent => 1
  | .other _ => 2
  | .ended => 1

def itemsLength : List Item → ℕ
  | [] => 0
  | item :: items => item.length + itemsLength items

theorem length_charText (flags : Flags) (fieldWidth : ℤ) (c : BitVec 8) :
    (charText flags fieldWidth c).length = charPads flags fieldWidth + 1 := by
  unfold charText charPads padDown behindLoop
  cases flags.left
  · simp
    omega
  · simp

theorem stringLen_le (precision : ℤ) (s : Str) : (stringLen precision s).toNat ≤ s.length := by
  have hlen := wrapInt_natCast_le s.length
  have hle : stringLen precision s ≤ wrapInt s.length := by
    dsimp only [stringLen]
    split
    · exact le_refl _
    split <;> omega
  omega

theorem length_stringText (flags : Flags) (fieldWidth precision : ℤ) (s : Str) :
    (stringText flags fieldWidth precision s).length =
      stringPads flags fieldWidth (stringLen precision s) + (stringLen precision s).toNat := by
  have hle := stringLen_le precision s
  unfold stringText stringPads padLoop
  cases flags.left
  · simp
    omega
  · simp
    omega

/-! With ordinary widths an item is as long as its width or its text, whichever is more. -/

theorem exists_text (item : Item) : ∃ s, item.text = .ok s ∧ s.length = item.length := by
  cases item with
  | literal c => exact ⟨_, rfl, rfl⟩
  | char flags fieldWidth c => exact ⟨_, rfl, length_charText flags fieldWidth c⟩
  | string flags fieldWidth precision s =>
      exact ⟨_, rfl, length_stringText flags fieldWidth precision s⟩
  | number num base fieldWidth precision flags =>
      refine ⟨_, number_eq num base fieldWidth precision flags, ?_⟩
      simp only [List.length_append, List.length_replicate, List.length_reverse, List.length_map,
        length_numerals, Item.length, numberLength]
  | count isLong place => exact ⟨_, rfl, rfl⟩
  | percent => exact ⟨_, rfl, rfl⟩
  | other c => exact ⟨_, rfl, rfl⟩
  | ended => exact ⟨_, rfl, rfl⟩

theorem printItems_eq (items : List Item) (out : Printed) :
    ∃ s counts, printItems items out = .ok ⟨out.text ++ s, counts⟩ ∧
      s.length = itemsLength items := by
  induction items generalizing out with
  | nil => exact ⟨[], out.counts, by rw [List.append_nil]; rfl, rfl⟩
  | cons item items ih =>
      obtain ⟨s, htext, hlen⟩ := exists_text item
      obtain ⟨s', counts, hrest, hlen'⟩ :=
        ih ⟨out.text ++ s, out.counts ++ item.counts out.text.length⟩
      refine ⟨s ++ s', counts, ?_, ?_⟩
      · rw [printItems, Item.print, htext, exec_ok_bind, exec_pure, exec_ok_bind, hrest,
          List.append_assoc]
      · rw [List.length_append, hlen, hlen', itemsLength]

theorem printItems_append (items items' : List Item) (out : Printed) :
    printItems (items ++ items') out = printItems items out >>= printItems items' := by
  induction items generalizing out with
  | nil => rfl
  | cons item items ih =>
      rw [List.cons_append, printItems, printItems]
      cases item.print out with
      | error e => rfl
      | ok out' => exact ih out'

/-! ## The stores to the buffer -/

theorem stores_inside_iff (out : Printed) (n : ℕ) :
    (∀ store ∈ out.stores, store.1 < n) ↔ out.text.length < n := by
  constructor
  · intro h
    exact h (out.text.length, 0) (List.mem_append_right _ (List.mem_singleton_self _))
  · intro hlen store hmem
    rcases List.mem_append.mp hmem with hchar | hzero
    · obtain ⟨i, hi, rfl⟩ := List.mem_mapIdx.mp hchar
      exact lt_trans hi hlen
    · rw [List.mem_singleton.mp hzero]
      exact hlen

/-- With arguments that match the format, the output of a round for every item exists, and a limit
of `n` rounds prints a beginning of it. -/
theorem printLoop_isPrefix {fmt : Str} {args : List VarArg} {items : List Item}
    (hmatch : formatItems fmt.length fmt args = .ok items) (n : ℕ) :
    ∃ out whole, printLoop n fmt args ⟨[], []⟩ = .ok out ∧
      (∀ rounds, fmt.length ≤ rounds → printLoop rounds fmt args ⟨[], []⟩ = .ok whole) ∧
      out.text <+: whole.text ∧ out.text.length = itemsLength (items.take n) := by
  obtain ⟨s, counts, hfirst, hlen⟩ := printItems_eq (items.take n) ⟨[], []⟩
  obtain ⟨s', counts', hrest, -⟩ := printItems_eq (items.drop n) ⟨[] ++ s, counts⟩
  refine ⟨⟨[] ++ s, counts⟩, ⟨([] ++ s) ++ s', counts'⟩,
    (printLoop_eq (le_refl _) hmatch _).trans hfirst, ?_, ⟨s', rfl⟩, hlen⟩
  intro rounds hrounds
  have hall : items.length ≤ rounds := (length_formatItems hmatch).trans hrounds
  rw [printLoop_eq (le_refl _) hmatch, List.take_of_length_le hall,
    ← List.take_append_drop n items, printItems_append, hfirst]
  exact hrest

/-- `NX_VSNPrintf` stores only to the buffer, and prints a beginning of the whole output, exactly
when the first `bufLen` items of the format have fewer than `bufLen` characters together. -/
theorem vsnPrintf_inside_iff (bufLen : BitVec 32) (fmt : Str) (args : List VarArg)
    (items : List Item) (hmatch : formatItems fmt.length fmt args = .ok items)
    (hlen : 1 ≤ bufLen.toInt) :
    ∃ ret out whole, vsnPrintf bufLen fmt args = .ok (ret, out) ∧
      (∀ rounds, fmt.length ≤ rounds → printLoop rounds fmt args ⟨[], []⟩ = .ok whole) ∧
      (((∀ store ∈ out.stores, (store.1 : ℤ) < bufLen.toInt) ∧ out.text <+: whole.text) ↔
        (itemsLength (items.take bufLen.toNat) : ℤ) < bufLen.toInt) := by
  obtain ⟨out, whole, hout, hwhole, hprefix, htext⟩ := printLoop_isPrefix hmatch bufLen.toNat
  refine ⟨wrapInt out.text.length, out, whole, ?_, hwhole, ?_⟩
  · rw [vsnPrintf, hout]
    rfl
  · have hint : bufLen.toInt = (bufLen.toInt.toNat : ℤ) := by
      omega
    rw [and_iff_left hprefix, hint, ← htext]
    simp only [Int.ofNat_lt]
    exact stores_inside_iff out _

/-- A string of five characters in a buffer of four: one conversion is below the limit. -/
theorem vsnPrintf_past_end :
    ∃ items ret out, formatItems 2 [0x25, 0x73] [.string (some [0x68, 0x65, 0x6c, 0x6c, 0x6f])] =
        .ok items ∧
      vsnPrintf 4 [0x25, 0x73] [.string (some [0x68, 0x65, 0x6c, 0x6c, 0x6f])] = .ok (ret, out) ∧
      ∃ store ∈ out.stores, ¬(store.1 : ℤ) < (4 : BitVec 32).toInt := by
  refine ⟨_, _, _, rfl, rfl, (5, 0), by decide, by decide⟩

/-- The same string in a buffer of eight. -/
theorem vsnPrintf_inside_iff_hello :
    ∃ ret out whole,
      vsnPrintf 8 [0x25, 0x73] [.string (some [0x68, 0x65, 0x6c, 0x6c, 0x6f])] = .ok (ret, out) ∧
      (∀ rounds, 2 ≤ rounds → printLoop rounds [0x25, 0x73]
        [.string (some [0x68, 0x65, 0x6c, 0x6c, 0x6f])] ⟨[], []⟩ = .ok whole) ∧
      (((∀ store ∈ out.stores, (store.1 : ℤ) < (8 : BitVec 32).toInt) ∧
        out.text <+: whole.text) ↔
          (itemsLength [.string Flags.none (-1) (-1) [0x68, 0x65, 0x6c, 0x6c, 0x6f]] : ℤ) <
            (8 : BitVec 32).toInt) :=
  vsnPrintf_inside_iff 8 [0x25, 0x73] [.string (some [0x68, 0x65, 0x6c, 0x6c, 0x6f])]
    [.string Flags.none (-1) (-1) [0x68, 0x65, 0x6c, 0x6c, 0x6f]] rfl (by decide)

end Nxos.Utils
