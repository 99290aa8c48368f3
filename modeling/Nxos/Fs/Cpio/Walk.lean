import Mathlib.Data.List.TakeWhile
import Nxos.Fs.Cpio.Archive
import Nxos.Support.Aligned

/-!
# The walk over the headers

On a disk with an archive, the walk of `CpioReaddir` and `CpioLookup` visits the entries in their
order and stops at the trailer.  Both of its alignment formulas lead where the format puts the
content of an entry and the next header.
-/

namespace Nxos.Fs

/-! ## Hexadecimal numbers -/

/-- A hexadecimal digit is a digit for `NX_StrToUL`, and nothing that it treats in another way. -/
theorem digitValue_of_hexDigit : ∀ c : BitVec 8, ∀ d ∈ hexDigit c,
    digitValue c = some d ∧ d < 16 ∧ isSpace c = false ∧
      c ≠ 0 ∧ c ≠ 0x2d ∧ c ≠ 0x2b ∧ c ≠ 0x78 ∧ c ≠ 0x58 := by
  have hall : ∀ i : Fin 256, ∀ d ∈ hexDigit (BitVec.ofFin i),
      digitValue (BitVec.ofFin i) = some d ∧ d < 16 ∧ isSpace (BitVec.ofFin i) = false ∧
        BitVec.ofFin i ≠ (0 : BitVec 8) ∧ BitVec.ofFin i ≠ (0x2d : BitVec 8) ∧
        BitVec.ofFin i ≠ (0x2b : BitVec 8) ∧ BitVec.ofFin i ≠ (0x78 : BitVec 8) ∧
        BitVec.ofFin i ≠ (0x58 : BitVec 8) := by
    decide +kernel
  exact fun c => hall c.toFin

def IsHex (s : Str) : Prop := ∀ c ∈ s, (hexDigit c).isSome

section Numbers

variable {s : Str} {n : ℕ}

theorem hexValue_lt (hhex : IsHex s) : hexValue n s < (n + 1) * 16 ^ s.length := by
  induction s generalizing n with
  | nil => simp [hexValue]
  | cons c s ih =>
      obtain ⟨d, hd⟩ := Option.isSome_iff_exists.mp (hhex c List.mem_cons_self)
      obtain ⟨-, hlt, -⟩ := digitValue_of_hexDigit c d hd
      have hrest := ih (n := n * 16 + d) fun c hc => hhex c (List.mem_cons_of_mem _ hc)
      have hstep : hexValue n (c :: s) = hexValue (n * 16 + d) s := by simp [hexValue, hd]
      have hle : (n * 16 + d + 1) * 16 ^ s.length ≤ (n + 1) * 16 * 16 ^ s.length :=
        Nat.mul_le_mul_right _ (by omega)
      calc hexValue n (c :: s) = hexValue (n * 16 + d) s := hstep
        _ < (n * 16 + d + 1) * 16 ^ s.length := hrest
        _ ≤ (n + 1) * 16 * 16 ^ s.length := hle
        _ = (n + 1) * 16 ^ (c :: s).length := by
          rw [List.length_cons, Nat.pow_succ', Nat.mul_assoc]

/-- The loop of `NX_StrToUL` on hexadecimal digits whose value is no larger than a word. -/
theorem strToULLoop_hex (hhex : IsHex s) (hsmall : (n + 1) * 16 ^ s.length ≤ 2 ^ 64) :
    strToULLoop 16 n false s = (hexValue n s, false) := by
  induction s generalizing n with
  | nil => rfl
  | cons c s ih =>
      obtain ⟨d, hd⟩ := Option.isSome_iff_exists.mp (hhex c List.mem_cons_self)
      obtain ⟨hdigit, hlt, -⟩ := digitValue_of_hexDigit c d hd
      have hpow : 1 ≤ 16 ^ s.length := Nat.one_le_pow _ _ (by decide)
      have hsmall' : (n * 16 + d + 1) * 16 ^ s.length ≤ 2 ^ 64 := by
        refine le_trans (Nat.mul_le_mul_right _ (show n * 16 + d + 1 ≤ (n + 1) * 16 by omega)) ?_
        rwa [List.length_cons, Nat.pow_succ', ← Nat.mul_assoc] at hsmall
      have hword : (n + 1) * 16 ≤ 2 ^ 64 := by
        rw [List.length_cons, Nat.pow_succ', ← Nat.mul_assoc] at hsmall
        exact le_trans (Nat.le_mul_of_pos_right _ hpow) hsmall
      have hroom : ¬(ulongMax / 16 < n ∨ (n = ulongMax / 16 ∧ ulongMax % 16 < d)) := by
        have hcutoff : ulongMax / 16 = 2 ^ 60 - 1 := by decide
        have hcutlim : ulongMax % 16 = 15 := by decide
        omega
      have hstep : hexValue n (c :: s) = hexValue (n * 16 + d) s := by simp [hexValue, hd]
      simp only [strToULLoop, hdigit]
      rw [if_neg (by omega), if_neg (by simp), if_neg hroom, hstep]
      exact ih (fun c hc => hhex c (List.mem_cons_of_mem _ hc)) hsmall'

/-- `NX_StrToUL` of up to sixteen hexadecimal digits. -/
theorem nxStrToUL_hex (hhex : IsHex s) (hlength : s.length ≤ 16) :
    nxStrToUL s 16 = BitVec.ofNat 64 (hexValue 0 s) := by
  have hspace : s.dropWhile isSpace = s := by
    cases s with
    | nil => rfl
    | cons c s =>
        obtain ⟨d, hd⟩ := Option.isSome_iff_exists.mp (hhex c List.mem_cons_self)
        simp [(digitValue_of_hexDigit c d hd).2.2.1]
  have hsign : skipSign s = (false, s) := by
    cases s with
    | nil => rfl
    | cons c s =>
        obtain ⟨d, hd⟩ := Option.isSome_iff_exists.mp (hhex c List.mem_cons_self)
        obtain ⟨-, -, -, -, hminus, hplus, -⟩ := digitValue_of_hexDigit c d hd
        unfold skipSign
        split
        · next heq => exact absurd (List.cons.inj heq).1 hminus
        · next heq => exact absurd (List.cons.inj heq).1 hplus
        · rfl
  have hbase : skipBase 16 s = (16, s) := by
    rw [skipBase, if_neg, if_neg (by decide)]
    rintro ⟨-, -, hx⟩
    have hmem : ∃ c ∈ s, c = 0x78 ∨ c = 0x58 :=
      hx.elim (fun h => ⟨_, List.mem_of_getElem? h, .inl rfl⟩)
        fun h => ⟨_, List.mem_of_getElem? h, .inr rfl⟩
    obtain ⟨c, hc, hx⟩ := hmem
    obtain ⟨d, hd⟩ := Option.isSome_iff_exists.mp (hhex c hc)
    obtain ⟨-, -, -, -, -, -, hlower, hupper⟩ := digitValue_of_hexDigit c d hd
    exact hx.elim hlower hupper
  have hloop : strToULLoop 16 0 false s = (hexValue 0 s, false) := by
    refine strToULLoop_hex hhex ?_
    rw [Nat.zero_add, Nat.one_mul]
    exact Nat.pow_le_pow_right (by decide) hlength
  simp [nxStrToUL, hspace, hsign, hbase, hloop]

end Numbers

/-! ## Headers -/

theorem take_drop_flatten {α : Type} {pieces : List (List α)} {k n : ℕ} {piece : List α}
    (hlength : ∀ piece ∈ pieces, piece.length = n) (hpiece : pieces[k]? = some piece) :
    (pieces.flatten.drop (k * n)).take n = piece := by
  induction k generalizing pieces with
  | zero =>
      obtain ⟨rest, rfl⟩ : ∃ rest, pieces = piece :: rest := by
        cases pieces with
        | nil => simp at hpiece
        | cons first rest => exact ⟨rest, by simpa using hpiece⟩
      have hfirst := hlength piece List.mem_cons_self
      simp [← hfirst]
  | succ k ih =>
      cases pieces with
      | nil => simp at hpiece
      | cons first rest =>
          have hfirst := hlength first List.mem_cons_self
          have hdrop : (k + 1) * n = first.length + k * n := by
            rw [hfirst, Nat.succ_mul, Nat.add_comm]
          rw [List.flatten_cons, hdrop, List.drop_length_add_append]
          exact ih (fun piece hmem => hlength piece (List.mem_cons_of_mem _ hmem))
            (by simpa using hpiece)

theorem HexField.value_lt (f : HexField) : f.value < 2 ^ 32 := by
  have hlt := hexValue_lt (n := 0) f.hex
  rw [f.length] at hlt
  exact hlt

theorem HexField.read (f : HexField) :
    (nxStrToUL (cString f.chars) 16).setWidth 32 = BitVec.ofNat 32 f.value := by
  have hstring : cString f.chars = f.chars := by
    refine List.takeWhile_eq_self_iff.mpr fun c hc => ?_
    obtain ⟨d, hd⟩ := Option.isSome_iff_exists.mp (f.hex c hc)
    simpa using (digitValue_of_hexDigit c d hd).2.2.2.1
  rw [hstring, nxStrToUL_hex f.hex (by rw [f.length]; decide)]
  have hlt := f.value_lt
  apply BitVec.eq_of_toNat_eq
  simp only [HexField.value, BitVec.toNat_setWidth, BitVec.toNat_ofNat] at hlt ⊢
  omega

namespace CpioEntry

variable (e : CpioEntry)

theorem headerBytes_length : e.headerBytes.length = cpioHeaderSize := by
  simp [headerBytes, fields, HexField.length, cpioMagic, cpioHeaderSize]

theorem cpioField_headerBytes {k : ℕ} {f : HexField} (hf : e.fields[k]? = some f) :
    cpioField e.headerBytes (6 + k * 8) = BitVec.ofNat 32 f.value := by
  have hdrop : e.headerBytes.drop (6 + k * 8) =
      (e.fields.map HexField.chars).flatten.drop (k * 8) := by
    have hmagic : cpioMagic.length = 6 := rfl
    rw [headerBytes, ← hmagic, List.drop_length_add_append]
  have hpieces : ∀ piece ∈ e.fields.map HexField.chars, piece.length = 8 := by
    intro piece hmem
    obtain ⟨f, -, rfl⟩ := List.mem_map.mp hmem
    exact f.length
  rw [cpioField, hdrop, take_drop_flatten hpieces (by rw [List.getElem?_map, hf]; rfl), f.read]

theorem bytes_length :
    e.bytes.length = e.dataOffset + (e.content.length + e.dataPad.length) := by
  simp only [bytes, dataOffset, List.length_append, headerBytes_length, List.length_cons,
    List.length_nil]

theorem strEqualN_headerBytes : strEqualN (cString e.headerBytes) cpioMagic 6 = true := by
  have hmagic : cString e.headerBytes =
      cpioMagic ++ cString (e.fields.map HexField.chars).flatten := by
    rw [headerBytes, cString, List.takeWhile_append_of_pos (by decide), cString]
  rw [strEqualN, hmagic, List.take_append_of_le_length (by decide)]
  decide

theorem namesize_toNat : e.header.nameSize.toNat = e.name.length + 1 := by
  rw [header, BitVec.toNat_ofNat, Nat.mod_eq_of_lt e.namesize.value_lt, e.namesize_eq]

theorem size_toNat : e.header.size.toNat = e.content.length := by
  rw [header, BitVec.toNat_ofNat, Nat.mod_eq_of_lt e.filesize.value_lt, e.filesize_eq]

variable {e} {disk : ℕ → BitVec 8} {off : ℕ}

theorem onDisk_parts (hdisk : OnDisk disk off e.bytes) :
    OnDisk disk off e.headerBytes ∧ OnDisk disk (off + cpioHeaderSize) (e.name ++ [0]) ∧
      OnDisk disk (off + e.dataOffset) e.content := by
  obtain ⟨hfront, hdata⟩ := onDisk_append.mp hdisk
  obtain ⟨hheader, hnames⟩ := onDisk_append.mp hfront
  have hname := (onDisk_append.mp hnames).1
  have hcontent := (onDisk_append.mp hdata).1
  rw [headerBytes_length] at hname
  refine ⟨hheader, hname, ?_⟩
  convert hcontent using 1
  simp only [dataOffset, headerBytes_length, List.length_append, List.length_cons,
    List.length_nil]

theorem cpioHeader_eq (hdisk : OnDisk disk off e.bytes) (hsmall : off + e.bytes.length < 2 ^ 32) :
    cpioHeader disk (BitVec.ofNat 64 off) =
      if e.header.size = 0 ∧ e.header.mode = 0 ∧ e.header.nameSize = 11 ∧
          strEqualN e.name cpioTrailer 10 then .error .trailer
      else .ok e.header := by
  obtain ⟨hheader, hname, -⟩ := onDisk_parts hdisk
  have hlength := e.bytes_length
  have hdata : e.dataOffset = cpioHeaderSize + (e.name.length + 1 + e.namePad.length) := rfl
  unfold cpioHeaderSize at hdata
  have hoff : (BitVec.ofNat 64 off).toNat = off := by
    rw [BitVec.toNat_ofNat]
    omega
  have hoff' : (BitVec.ofNat 64 off + 110).toNat = off + cpioHeaderSize := by
    have hnat : (110 : BitVec 64).toNat = 110 := rfl
    rw [BitVec.toNat_add, hoff, hnat]
    exact Nat.mod_eq_of_lt (by omega)
  have hread : ioBlockRead disk off cpioHeaderSize = e.headerBytes := by
    rw [hheader.ioBlockRead (by rw [headerBytes_length]), ← e.headerBytes_length,
      List.take_length]
  have hreadName : ioBlockRead disk (off + cpioHeaderSize) e.header.nameSize.toNat =
      e.name ++ [0] := by
    have hall : e.header.nameSize.toNat = (e.name ++ [0]).length := by
      rw [namesize_toNat, List.length_append, List.length_singleton]
    rw [hname.ioBlockRead hall.le, hall, List.take_length]
  have hstring : cString (e.name ++ [0]) = e.name := by
    rw [cString, List.takeWhile_append_of_pos fun c hc => ?_]
    · simp
    · exact bne_iff_ne.mpr fun heq => e.nameOk (heq ▸ hc)
  have hmode : cpioField e.headerBytes 14 = e.header.mode :=
    e.cpioField_headerBytes (k := 1) rfl
  have hmtime : cpioField e.headerBytes 46 = e.header.mtime :=
    e.cpioField_headerBytes (k := 5) rfl
  have hsize : cpioField e.headerBytes 54 = e.header.size :=
    e.cpioField_headerBytes (k := 6) rfl
  have hnamesize : cpioField e.headerBytes 94 = e.header.nameSize :=
    e.cpioField_headerBytes (k := 11) rfl
  simp only [cpioHeader, hoff, hoff', hread, headerBytes_length, strEqualN_headerBytes, hmode,
    hmtime, hsize, hnamesize, hreadName, hstring]
  simp only [ne_eq, not_true_eq_false, if_false, Bool.not_true, Bool.false_eq_true,
    List.append_eq_nil_iff, List.cons_ne_self, and_false]
  rfl

/-! ## Offsets -/

/-- `(((name_size + 1) & ~3) + 2)` is the space for the name and its pad. -/
theorem cpioNameSpace_toNat (hsmall : e.bytes.length < 2 ^ 32) :
    (cpioNameSpace e.header.nameSize).toNat = e.name.length + 1 + e.namePad.length := by
  have hlength := e.bytes_length
  have hdata : e.dataOffset = cpioHeaderSize + (e.name.length + 1 + e.namePad.length) := rfl
  have hpad := e.namePad_lt
  have hpadded := e.namePadded
  unfold cpioHeaderSize at hdata hpadded
  have hround := Aligned.and_not_toNat (e.header.nameSize + 1) 2
  have hone : (1 : BitVec 32).toNat = 1 := rfl
  have htwo : (2 : BitVec 32).toNat = 2 := rfl
  have hsucc : (e.header.nameSize + 1).toNat = e.name.length + 2 := by
    rw [BitVec.toNat_add, namesize_toNat, hone]
    exact Nat.mod_eq_of_lt (by omega)
  rw [hsucc] at hround
  rw [cpioNameSpace, BitVec.toNat_add, htwo]
  change ((e.header.nameSize + 1) &&& ~~~3).toNat = _ at hround
  rw [hround]
  omega

theorem cpioNode_data (hsmall : off + e.bytes.length < 2 ^ 32) :
    (cpioNode (BitVec.ofNat 64 off) e.header).data = BitVec.ofNat 64 (off + e.dataOffset) := by
  have hspace := cpioNameSpace_toNat (e := e) (by omega)
  have hlength := e.bytes_length
  have hdata : e.dataOffset = cpioHeaderSize + (e.name.length + 1 + e.namePad.length) := rfl
  have hnat : (110 : BitVec 64).toNat = 110 := rfl
  have hsize : cpioHeaderSize = 110 := rfl
  apply BitVec.eq_of_toNat_eq
  simp only [cpioNode, BitVec.toNat_add, BitVec.toNat_setWidth, BitVec.toNat_ofNat, hspace, hnat]
  omega

theorem cpioNext_eq (haligned : 4 ∣ off) (hsmall : off + e.bytes.length < 2 ^ 32) :
    cpioNext (BitVec.ofNat 64 off) e.header = BitVec.ofNat 64 (off + e.bytes.length) := by
  have hlength := e.bytes_length
  have hdata : e.dataOffset = cpioHeaderSize + (e.name.length + 1 + e.namePad.length) := rfl
  have hspace := cpioNameSpace_toNat (e := e) (by omega)
  have hpad := e.dataPad_lt
  have hpadded := e.dataPadded
  have hnamePadded := e.namePadded
  unfold cpioHeaderSize at hdata hnamePadded
  have hsum : (cpioNameSpace e.header.nameSize + e.header.size).toNat =
      e.name.length + 1 + e.namePad.length + e.content.length := by
    rw [BitVec.toNat_add, hspace, size_toNat]
    exact Nat.mod_eq_of_lt (by omega)
  have hnat : (110 : BitVec 64).toNat = 110 := rfl
  have hthree : (3 : BitVec 64).toNat = 3 := rfl
  have hend : (BitVec.ofNat 64 off + 110 +
      (cpioNameSpace e.header.nameSize + e.header.size).setWidth 64 + 3).toNat =
        off + e.dataOffset + e.content.length + 3 := by
    simp only [BitVec.toNat_add, BitVec.toNat_setWidth, BitVec.toNat_ofNat, hspace, size_toNat]
    omega
  have hround := Aligned.and_not_toNat (BitVec.ofNat 64 off + 110 +
    (cpioNameSpace e.header.nameSize + e.header.size).setWidth 64 + 3) 2
  rw [hend] at hround
  apply BitVec.eq_of_toNat_eq
  rw [cpioNext]
  refine hround.trans ?_
  rw [BitVec.toNat_ofNat]
  omega

/-! ## Contents -/

theorem cpioRead_eq (hdisk : OnDisk disk off e.bytes) (hsmall : off + e.bytes.length < 2 ^ 32)
    (htype : cpioType e.header.mode = .reg) {k : BitVec 64} (len : BitVec 64)
    (hk : k.toNat < e.content.length) :
    cpioRead disk (cpioNode (BitVec.ofNat 64 off) e.header) k len =
      ((e.content.drop k.toNat).take len.toNat, .eok) := by
  have hcontent := (onDisk_parts hdisk).2.2
  have hlength := e.bytes_length
  have hsize : (cpioNode (BitVec.ofNat 64 off) e.header).size.toNat = e.content.length := by
    have hlt := e.header.size.isLt
    rw [← size_toNat]
    simp only [cpioNode, BitVec.toNat_setWidth]
    omega
  have hoff : ((cpioNode (BitVec.ofNat 64 off) e.header).data + k).toNat =
      off + e.dataOffset + k.toNat := by
    rw [cpioNode_data hsmall, BitVec.toNat_add, BitVec.toNat_ofNat]
    omega
  have hleft : ((cpioNode (BitVec.ofNat 64 off) e.header).size - k).toNat =
      e.content.length - k.toNat := by
    rw [BitVec.toNat_sub_of_le (by rw [BitVec.le_def]; omega), hsize]
  have hdrop : OnDisk disk (off + e.dataOffset + k.toNat) (e.content.drop k.toNat) := by
    rw [← List.take_append_drop k.toNat e.content, onDisk_append, List.length_take,
      Nat.min_eq_left (by omega)] at hcontent
    exact hcontent.2
  rw [cpioRead, if_neg (by simpa [cpioNode] using htype),
    if_neg (by rw [BitVec.le_def]; omega)]
  simp only [hoff, Prod.mk.injEq, and_true]
  split
  · next hlt =>
    rw [BitVec.lt_def] at hlt
    rw [hdrop.ioBlockRead (by rw [List.length_drop]; omega), hleft,
      List.take_of_length_le (by rw [List.length_drop]),
      List.take_of_length_le (by rw [List.length_drop]; omega)]
  · next hge =>
    rw [BitVec.lt_def] at hge
    exact hdrop.ioBlockRead (by rw [List.length_drop]; omega)

theorem four_dvd_bytes : 4 ∣ e.bytes.length := by
  have hdata : e.dataOffset = cpioHeaderSize + (e.name.length + 1 + e.namePad.length) := rfl
  have hnamePadded := e.namePadded
  have hpadded := e.dataPadded
  rw [e.bytes_length]
  omega

theorem cpioHeader_entry (hdisk : OnDisk disk off e.bytes) (hsmall : off + e.bytes.length < 2 ^ 32)
    (hnamed : e.name ≠ cpioTrailer) : cpioHeader disk (BitVec.ofNat 64 off) = .ok e.header := by
  rw [cpioHeader_eq hdisk hsmall, if_neg]
  rintro ⟨-, -, hsize, hname⟩
  apply hnamed
  -- a name of ten characters is all that is compared
  have hlength : e.name.length = 10 := by
    have hnat := congrArg BitVec.toNat hsize
    rw [namesize_toNat] at hnat
    have heleven : (11 : BitVec 32).toNat = 11 := rfl
    omega
  rw [strEqualN, beq_iff_eq, ← hlength, List.take_length, hlength] at hname
  exact hname

theorem cpioHeader_trailer (hdisk : OnDisk disk off e.bytes)
    (hsmall : off + e.bytes.length < 2 ^ 32) (hname : e.name = cpioTrailer)
    (hmode : e.mode.value = 0) (hcontent : e.content = []) :
    cpioHeader disk (BitVec.ofNat 64 off) = .error .trailer := by
  have hsize : e.filesize.value = 0 := by rw [e.filesize_eq, hcontent, List.length_nil]
  have hnamesize : e.namesize.value = 11 := by
    rw [e.namesize_eq, hname]
    decide
  rw [cpioHeader_eq hdisk hsmall, if_pos]
  refine ⟨?_, ?_, ?_, by rw [hname]; decide⟩
  · exact congrArg (BitVec.ofNat 32) hsize
  · exact congrArg (BitVec.ofNat 32) hmode
  · exact congrArg (BitVec.ofNat 32) hnamesize

end CpioEntry

/-! ## The walk -/

section Walk

variable {σ ρ : Type} {disk : ℕ → BitVec 8}

/-- The visits of entries in their order, with the trailer behind them. -/
def visitAll (visit : σ → BitVec 64 → CpioHeader → Except ρ σ) :
    List (ℕ × CpioEntry) → σ → CpioOutcome σ ρ
  | [], acc => .stopped .trailer acc
  | (off, e) :: entries, acc =>
      match visit acc (BitVec.ofNat 64 off) e.header with
      | .error result => .found result
      | .ok acc => visitAll visit entries acc

theorem cpioLoop_locate {visit : σ → BitVec 64 → CpioHeader → Except ρ σ} {trailer : CpioEntry}
    (hname : trailer.name = cpioTrailer) (hmode : trailer.mode.value = 0)
    (hcontent : trailer.content = []) {entries : List CpioEntry}
    (hnamed : ∀ e ∈ entries, e.name ≠ cpioTrailer) {off rounds : ℕ}
    (hdisk : OnDisk disk off (entries.flatMap CpioEntry.bytes ++ trailer.bytes))
    (haligned : 4 ∣ off)
    (hsmall : off + (entries.flatMap CpioEntry.bytes ++ trailer.bytes).length < 2 ^ 32)
    (hrounds : entries.length < rounds) (acc : σ) :
    cpioLoop disk visit rounds (BitVec.ofNat 64 off) acc =
      some (visitAll visit (locate off entries) acc) := by
  induction entries generalizing off rounds acc with
  | nil =>
      obtain ⟨rounds, rfl⟩ : ∃ n, rounds = n + 1 := ⟨rounds - 1, by simp at hrounds; omega⟩
      simp only [List.flatMap_nil, List.nil_append] at hdisk hsmall
      simp only [cpioLoop, CpioEntry.cpioHeader_trailer hdisk hsmall hname hmode hcontent, locate,
        visitAll]
  | cons e entries ih =>
      obtain ⟨rounds, rfl⟩ : ∃ n, rounds = n + 1 := ⟨rounds - 1, by simp at hrounds; omega⟩
      rw [List.flatMap_cons, List.append_assoc] at hdisk hsmall
      rw [List.length_append] at hsmall
      obtain ⟨hentry, hrest⟩ := onDisk_append.mp hdisk
      have hheader := CpioEntry.cpioHeader_entry hentry (by omega)
        (hnamed e List.mem_cons_self)
      have hnext := CpioEntry.cpioNext_eq (e := e) haligned (by omega)
      simp only [cpioLoop, hheader, locate, visitAll]
      cases visit acc (BitVec.ofNat 64 off) e.header with
      | error result => rfl
      | ok acc =>
          simp only [hnext]
          apply ih (fun e hmem => hnamed e (List.mem_cons_of_mem _ hmem)) hrest
          · exact Nat.dvd_add haligned CpioEntry.four_dvd_bytes
          · omega
          · simpa using hrounds

theorem onDisk_of_mem_locate {entries : List CpioEntry} {off : ℕ} {rest : List (BitVec 8)}
    (hdisk : OnDisk disk off (entries.flatMap CpioEntry.bytes ++ rest)) {p : ℕ × CpioEntry}
    (hmem : p ∈ locate off entries) :
    OnDisk disk p.1 p.2.bytes ∧
      p.1 + p.2.bytes.length ≤ off + (entries.flatMap CpioEntry.bytes ++ rest).length := by
  induction entries generalizing off with
  | nil => simp [locate] at hmem
  | cons e entries ih =>
      rw [List.flatMap_cons, List.append_assoc] at hdisk ⊢
      obtain ⟨hentry, hrest⟩ := onDisk_append.mp hdisk
      rcases List.mem_cons.mp hmem with rfl | hmem
      · exact ⟨hentry, by simp only [List.length_append]; omega⟩
      · obtain ⟨hon, hle⟩ := ih hrest hmem
        exact ⟨hon, by rw [List.length_append]; omega⟩

theorem exists_of_visitAll_found {visit : σ → BitVec 64 → CpioHeader → Except ρ σ}
    {entries : List (ℕ × CpioEntry)} {acc : σ} {result : ρ}
    (hfound : visitAll visit entries acc = .found result) :
    ∃ p ∈ entries, ∃ acc, visit acc (BitVec.ofNat 64 p.1) p.2.header = .error result := by
  induction entries generalizing acc with
  | nil => cases hfound
  | cons p entries ih =>
      simp only [visitAll] at hfound
      cases hvisit : visit acc (BitVec.ofNat 64 p.1) p.2.header with
      | error found =>
          simp only [hvisit, CpioOutcome.found.injEq] at hfound
          exact ⟨p, List.mem_cons_self, acc, hfound ▸ hvisit⟩
      | ok next =>
          simp only [hvisit] at hfound
          obtain ⟨q, hmem, hq⟩ := ih hfound
          exact ⟨q, List.mem_cons_of_mem _ hmem, hq⟩

end Walk

/-! ## Archives on the disk -/

/-- What a lookup finds is the node of an entry, and reading it gives the content. -/
structure CpioNodeOf (disk : ℕ → BitVec 8) (n : CpioNode) (p : ℕ × CpioEntry) : Prop where
  node : n = cpioNode (BitVec.ofNat 64 p.1) p.2.header
  size : n.size.toNat = p.2.content.length
  read : n.type = .reg → ∀ off len : BitVec 64, off.toNat < n.size.toNat →
    cpioRead disk n off len = ((p.2.content.drop off.toNat).take len.toNat, .eok)

/-- The walks over an archive visit its entries in their order and stop at the trailer, and a
lookup gives the node of an entry. -/
structure CpioWalked (disk : ℕ → BitVec 8) (a : CpioArchive) (rounds : ℕ) : Prop where
  walk : ∀ {σ ρ : Type} (visit : σ → BitVec 64 → CpioHeader → Except ρ σ) (acc : σ),
    cpioLoop disk visit rounds 0 acc = some (visitAll visit a.located acc)
  lookup : ∀ {dir name : Str} {n : CpioNode},
    cpioLookup disk rounds dir name = some (.found n) → ∃ p ∈ a.located, CpioNodeOf disk n p

section Archives

variable {disk : ℕ → BitVec 8} {a : CpioArchive} {rounds : ℕ}

theorem CpioArchive.cpioLoop_eq {σ ρ : Type} (hdisk : OnDisk disk 0 a.bytes)
    (hrounds : a.entries.length < rounds)
    (visit : σ → BitVec 64 → CpioHeader → Except ρ σ) (acc : σ) :
    cpioLoop disk visit rounds 0 acc = some (visitAll visit a.located acc) := by
  refine cpioLoop_locate a.trailer_name a.trailer_mode a.trailer_content a.named hdisk
    (Nat.dvd_zero 4) ?_ hrounds acc
  rw [Nat.zero_add]
  exact a.small

theorem CpioArchive.cpioNodeOf (hdisk : OnDisk disk 0 a.bytes) {p : ℕ × CpioEntry}
    (hmem : p ∈ a.located) :
    CpioNodeOf disk (cpioNode (BitVec.ofNat 64 p.1) p.2.header) p := by
  obtain ⟨hentry, hle⟩ := onDisk_of_mem_locate hdisk hmem
  have hsmall : p.1 + p.2.bytes.length < 2 ^ 32 := by
    rw [Nat.zero_add] at hle
    exact lt_of_le_of_lt hle a.small
  have hsize : (cpioNode (BitVec.ofNat 64 p.1) p.2.header).size.toNat = p.2.content.length := by
    rw [← p.2.size_toNat]
    exact BitVec.toNat_setWidth_of_le (by decide)
  refine ⟨rfl, hsize, ?_⟩
  intro htype off len hoff
  rw [hsize] at hoff
  exact CpioEntry.cpioRead_eq hentry hsmall htype len hoff

end Archives

/-- For every archive on the disk, the walks of `CpioLookup` and `CpioReaddir` visit its entries in
their order and stop at the trailer, and reading the node of a regular file that a lookup finds
gives the content of its entry. -/
theorem cpioWalked_of_onDisk (disk : ℕ → BitVec 8) (a : CpioArchive) (rounds : ℕ)
    (hdisk : OnDisk disk 0 a.bytes) (hrounds : a.entries.length < rounds) :
    CpioWalked disk a rounds := by
  constructor
  · intro σ ρ visit acc
    exact a.cpioLoop_eq hdisk hrounds visit acc
  · intro dir name n hlookup
    rw [cpioLookup, a.cpioLoop_eq hdisk hrounds, Option.some.injEq] at hlookup
    obtain ⟨p, hmem, acc, hvisit⟩ := exists_of_visitAll_found hlookup
    have hnode : n = cpioNode (BitVec.ofNat 64 p.1) p.2.header := by
      rw [lookupVisit] at hvisit
      split at hvisit
      · exact (Except.error.inj hvisit).symm
      · cases hvisit
    rw [hnode]
    exact ⟨p, hmem, a.cpioNodeOf hdisk hmem⟩

/-- An archive of one file `a`, whose content is `b`. -/
def oneFile (mode : ℕ) : CpioArchive :=
  .pack [⟨mode, [0x61], [0x62], by decide, by decide, by decide⟩] (by simp; decide) (by
    simp [CpioFile.pack, CpioFile.trailer, CpioEntry.bytes_length, CpioEntry.dataOffset, padding,
      cpioHeaderSize, cpioTrailer])

/-- An archive of the directory `a` and a file. -/
def directoryAndFile (name : Str) (hname : 0 ∉ name) (hlength : name.length ≤ 3) : CpioArchive :=
  .pack [⟨0x41ed, [0x61], [], by decide, by decide, CpioFile.trailer.contentFits⟩,
      ⟨0x81a4, name, [0x62], hname, by unfold vfsMaxPath; omega, by decide⟩]
    (by
      intro f hf heq
      have hten : f.name.length = 10 := by rw [heq]; rfl
      rcases List.mem_pair.mp hf with rfl | rfl
      · cases hten
      · simp only at hten
        omega)
    (by
      simp only [CpioFile.pack, CpioFile.trailer, CpioEntry.bytes_length, CpioEntry.dataOffset,
        padding, cpioHeaderSize, cpioTrailer, List.map_cons, List.map_nil, List.flatMap_cons,
        List.flatMap_nil, List.length_append, List.length_replicate, List.length_cons,
        List.length_nil]
      omega)

/-- The walk over the archive finds the file, and its node is one of an entry. -/
theorem cpioWalked_oneFile : CpioWalked (oneFile 0x81a4).disk (oneFile 0x81a4) 2 ∧
    ∃ n, cpioLookup (oneFile 0x81a4).disk 2 [] [0x61] = some (.found n) ∧
      n.type = .reg ∧ n.size = 1 :=
  ⟨cpioWalked_of_onDisk (oneFile 0x81a4).disk (oneFile 0x81a4) 2 (oneFile 0x81a4).onDisk (by decide),
    ⟨.reg, cpioMode 0x81a4, 0, 0, 0, 1, 112⟩, by decide +kernel, rfl, rfl⟩

/-- The node of a symbolic link has the size and the place of its content, which cannot be read. -/
theorem exists_link_not_read : ¬ ∀ (disk : ℕ → BitVec 8) (a : CpioArchive) (rounds : ℕ),
    OnDisk disk 0 a.bytes → a.entries.length < rounds → ∀ (dir name : Str) (n : CpioNode),
      cpioLookup disk rounds dir name = some (.found n) → ∃ p ∈ a.located,
        n.size.toNat = p.2.content.length ∧ ∀ off len : BitVec 64, off.toNat < n.size.toNat →
          cpioRead disk n off len = ((p.2.content.drop off.toNat).take len.toNat, .eok) := by
  intro hread
  have hlookup : cpioLookup (oneFile 0xa1ff).disk 2 [] [0x61] =
      some (.found ⟨.lnk, cpioMode 0xa1ff, 0, 0, 0, 1, 112⟩) := by
    decide +kernel
  obtain ⟨p, -, -, hcontent⟩ := hread _ _ _ (oneFile 0xa1ff).onDisk (by decide) _ _ _ hlookup
  have heok := congrArg Prod.snd (hcontent 0 1 (by decide))
  simp [cpioRead] at heok

end Nxos.Fs
