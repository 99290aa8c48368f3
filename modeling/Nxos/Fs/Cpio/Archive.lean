import Nxos.Fs.Cpio.Model

/-!
# The newc format

Archives in the newc format of cpio, as sequences of entries, and their bytes.  An entry is a
header of a magic number and thirteen hexadecimal fields, its name and its content, and pads that
bring both to a multiple of four.
-/

namespace Nxos.Fs

/-! ## Fields -/

def hexDigit (c : BitVec 8) : Option ℕ :=
  if 0x30 ≤ c ∧ c ≤ 0x39 then some (c.toNat - 0x30)
  else if 0x61 ≤ c ∧ c ≤ 0x66 then some (c.toNat - 0x61 + 10)
  else if 0x41 ≤ c ∧ c ≤ 0x46 then some (c.toNat - 0x41 + 10)
  else none

def hexValue (n : ℕ) (s : Str) : ℕ := s.foldl (fun n c => n * 16 + (hexDigit c).getD 0) n

structure HexField where
  chars : Str
  length : chars.length = 8
  hex : ∀ c ∈ chars, (hexDigit c).isSome

def HexField.value (f : HexField) : ℕ := hexValue 0 f.chars

/-! ## Entries -/

structure CpioEntry where
  ino : HexField
  mode : HexField
  uid : HexField
  gid : HexField
  nlink : HexField
  mtime : HexField
  filesize : HexField
  devmajor : HexField
  devminor : HexField
  rdevmajor : HexField
  rdevminor : HexField
  namesize : HexField
  check : HexField
  name : Str
  namePad : List (BitVec 8)
  content : List (BitVec 8)
  dataPad : List (BitVec 8)
  nameOk : 0 ∉ name
  nameFits : name.length < vfsMaxPath
  namesize_eq : namesize.value = name.length + 1
  filesize_eq : filesize.value = content.length
  namePad_lt : namePad.length < 4
  namePadded : 4 ∣ cpioHeaderSize + (name.length + 1) + namePad.length
  dataPad_lt : dataPad.length < 4
  dataPadded : 4 ∣ content.length + dataPad.length

namespace CpioEntry

def fields (e : CpioEntry) : List HexField :=
  [e.ino, e.mode, e.uid, e.gid, e.nlink, e.mtime, e.filesize, e.devmajor, e.devminor,
    e.rdevmajor, e.rdevminor, e.namesize, e.check]

def headerBytes (e : CpioEntry) : List (BitVec 8) :=
  cpioMagic ++ (e.fields.map HexField.chars).flatten

def bytes (e : CpioEntry) : List (BitVec 8) :=
  e.headerBytes ++ (e.name ++ [0] ++ e.namePad) ++ (e.content ++ e.dataPad)

def dataOffset (e : CpioEntry) : ℕ := cpioHeaderSize + (e.name.length + 1 + e.namePad.length)

def header (e : CpioEntry) : CpioHeader where
  mode := BitVec.ofNat 32 e.mode.value
  mtime := BitVec.ofNat 32 e.mtime.value
  size := BitVec.ofNat 32 e.filesize.value
  nameSize := BitVec.ofNat 32 e.namesize.value
  path := e.name

end CpioEntry

/-! ## Archives -/

/-- An archive: entries, and a trailer that no entry has the name of. -/
structure CpioArchive where
  entries : List CpioEntry
  trailer : CpioEntry
  named : ∀ e ∈ entries, e.name ≠ cpioTrailer
  trailer_name : trailer.name = cpioTrailer
  trailer_mode : trailer.mode.value = 0
  trailer_content : trailer.content = []
  small : (entries.flatMap CpioEntry.bytes ++ trailer.bytes).length < 2 ^ 32

def locate (off : ℕ) : List CpioEntry → List (ℕ × CpioEntry)
  | [] => []
  | e :: entries => (off, e) :: locate (off + e.bytes.length) entries

namespace CpioArchive

def bytes (a : CpioArchive) : List (BitVec 8) := a.entries.flatMap CpioEntry.bytes ++ a.trailer.bytes

def located (a : CpioArchive) : List (ℕ × CpioEntry) := locate 0 a.entries

end CpioArchive

/-! ## Packing -/

def hexChar (d : ℕ) : BitVec 8 := BitVec.ofNat 8 (if d < 10 then 0x30 + d else 0x41 - 10 + d)

theorem hexDigit_hexChar : ∀ d < 16, hexDigit (hexChar d) = some d := by
  decide

/-- A number below `2 ^ 32` as a field. -/
def HexField.ofNat (n : ℕ) : HexField where
  chars := (List.range 8).map fun i => hexChar (n / 16 ^ (7 - i) % 16)
  length := by simp
  hex c hc := by
    obtain ⟨i, -, rfl⟩ := List.mem_map.mp hc
    rw [hexDigit_hexChar _ (Nat.mod_lt _ (by decide))]
    rfl

theorem hexValue_concat (n : ℕ) (s : Str) (c : BitVec 8) :
    hexValue n (s ++ [c]) = hexValue n s * 16 + (hexDigit c).getD 0 := by
  rw [hexValue, List.foldl_append, List.foldl_cons, List.foldl_nil, hexValue]

/-- The first `k` of `m` digits of a number are the number without its last `m - k` digits. -/
theorem hexValue_leadingDigits {n m : ℕ} (hn : n < 16 ^ m) : ∀ k ≤ m,
    hexValue 0 ((List.range k).map fun i => hexChar (n / 16 ^ (m - 1 - i) % 16)) =
      n / 16 ^ (m - k) := by
  intro k
  induction k with
  | zero =>
    intro _
    exact (Nat.div_eq_of_lt hn).symm
  | succ k ih =>
    intro hk
    have hstep : n / 16 ^ (m - k) = n / 16 ^ (m - (k + 1)) / 16 := by
      rw [Nat.div_div_eq_div_mul, ← Nat.pow_succ]
      congr 2
      omega
    have hdigit := hexDigit_hexChar _ (Nat.mod_lt (n / 16 ^ (m - (k + 1))) (by decide : 16 > 0))
    rw [List.range_succ, List.map_append, List.map_singleton, hexValue_concat, ih (by omega),
      show m - 1 - k = m - (k + 1) by omega, hdigit, Option.getD_some, hstep]
    exact Nat.div_add_mod' _ _

theorem HexField.value_ofNat {n : ℕ} (hn : n < 2 ^ 32) : (HexField.ofNat n).value = n := by
  have hvalue := hexValue_leadingDigits (show n < 16 ^ 8 by omega) 8 le_rfl
  rwa [Nat.sub_self, Nat.pow_zero, Nat.div_one] at hvalue

def padding (n : ℕ) : List (BitVec 8) := List.replicate ((4 - n % 4) % 4) 0

structure CpioFile where
  mode : ℕ
  name : Str
  content : List (BitVec 8)
  nameOk : 0 ∉ name
  nameFits : name.length < vfsMaxPath
  contentFits : content.length < 2 ^ 32

def CpioFile.pack (f : CpioFile) : CpioEntry where
  ino := .ofNat 0
  mode := .ofNat f.mode
  uid := .ofNat 0
  gid := .ofNat 0
  nlink := .ofNat 1
  mtime := .ofNat 0
  filesize := .ofNat f.content.length
  devmajor := .ofNat 0
  devminor := .ofNat 0
  rdevmajor := .ofNat 0
  rdevminor := .ofNat 0
  namesize := .ofNat (f.name.length + 1)
  check := .ofNat 0
  name := f.name
  namePad := padding (cpioHeaderSize + (f.name.length + 1))
  content := f.content
  dataPad := padding f.content.length
  nameOk := f.nameOk
  nameFits := f.nameFits
  namesize_eq := HexField.value_ofNat (by have := f.nameFits; unfold vfsMaxPath at this; omega)
  filesize_eq := HexField.value_ofNat f.contentFits
  namePad_lt := by
    rw [padding, List.length_replicate]
    omega
  namePadded := by
    rw [padding, List.length_replicate]
    omega
  dataPad_lt := by
    rw [padding, List.length_replicate]
    omega
  dataPadded := by
    rw [padding, List.length_replicate]
    omega

def CpioFile.trailer : CpioFile where
  mode := 0
  name := cpioTrailer
  content := []
  nameOk := by decide
  nameFits := by decide
  contentFits := by decide

def CpioArchive.pack (files : List CpioFile) (hnamed : ∀ f ∈ files, f.name ≠ cpioTrailer)
    (hsmall : ((files.map CpioFile.pack).flatMap CpioEntry.bytes ++
      CpioFile.trailer.pack.bytes).length < 2 ^ 32) : CpioArchive where
  entries := files.map CpioFile.pack
  trailer := CpioFile.trailer.pack
  named e he := by
    obtain ⟨f, hf, rfl⟩ := List.mem_map.mp he
    exact hnamed f hf
  trailer_name := rfl
  trailer_mode := HexField.value_ofNat (by decide)
  trailer_content := rfl
  small := hsmall

/-- The bytes are on the disk at the offset. -/
def OnDisk (disk : ℕ → BitVec 8) (off : ℕ) (bytes : List (BitVec 8)) : Prop :=
  ∀ i (hi : i < bytes.length), disk (off + i) = bytes[i]

def CpioArchive.disk (a : CpioArchive) (i : ℕ) : BitVec 8 := a.bytes[i]?.getD 0

/-! ## Bytes on the disk -/

theorem CpioArchive.onDisk (a : CpioArchive) : OnDisk a.disk 0 a.bytes := by
  intro i hi
  simp [disk, List.getElem?_eq_getElem hi]


section Disk

variable {disk : ℕ → BitVec 8} {off n : ℕ} {bytes bytes' : List (BitVec 8)}

theorem ioBlockRead_length : (ioBlockRead disk off n).length = n := by
  simp [ioBlockRead]

theorem OnDisk.ioBlockRead (hdisk : OnDisk disk off bytes) (hn : n ≤ bytes.length) :
    ioBlockRead disk off n = bytes.take n := by
  apply List.ext_getElem
  · rw [ioBlockRead_length, List.length_take, Nat.min_eq_left hn]
  · intro i hi hi'
    rw [ioBlockRead_length] at hi
    simpa [Fs.ioBlockRead] using hdisk i (by omega)

theorem onDisk_append : OnDisk disk off (bytes ++ bytes') ↔
    OnDisk disk off bytes ∧ OnDisk disk (off + bytes.length) bytes' := by
  constructor
  · intro hdisk
    constructor
    · intro i hi
      rw [hdisk i (by rw [List.length_append]; omega), List.getElem_append_left hi]
    · intro i hi
      have hbyte := hdisk (bytes.length + i) (by rw [List.length_append]; omega)
      rw [List.getElem_append_right (by omega)] at hbyte
      simpa [Nat.add_assoc] using hbyte
  · rintro ⟨hfirst, hsecond⟩ i hi
    by_cases hlt : i < bytes.length
    · rw [hfirst i hlt, List.getElem_append_left hlt]
    · have hbyte := hsecond (i - bytes.length) (by rw [List.length_append] at hi; omega)
      rw [List.getElem_append_right (by omega), ← hbyte]
      congr 1
      omega

end Disk

end Nxos.Fs
