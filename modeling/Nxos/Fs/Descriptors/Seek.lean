import Nxos.Fs.Descriptors.Model

/-!
# Seeking in a file

The embedding of `NX_VfsFileSeek` where `long` has 64 bits: the size of a node is an unsigned word,
and offsets are signed words.  Only the sum of `NX_VFS_SEEK_END` is unsigned, so that it is not
found to be below zero.
-/

namespace Nxos.Fs

/-! ## The call -/

/-- `VfsFileDescriptorToFile` -/
def vfsFileDescriptorToFile (fd : ℤ) : Option ℕ :=
  if 0 ≤ fd ∧ fd < vfsMaxFd then some fd.toNat else none

/-- `NX_VFS_SEEK_SET` -/
def vfsSeekSet : ℤ := 0

/-- `NX_VFS_SEEK_CUR` -/
def vfsSeekCur : ℤ := 1

/-- `NX_VFS_SEEK_END` -/
def vfsSeekEnd : ℤ := 2

/-- What the switch of `NX_VfsFileSeek` stores in `off`. -/
def seekSwitch (offset size off : BitVec 64) (whence : ℤ) : Option (BitVec 64) :=
  if whence = vfsSeekSet then
    some (if off.slt 0 then 0 else if size.slt off then size else off)
  else if whence = vfsSeekCur then
    some (if size.slt (offset + off) then size
      else if (offset + off).slt 0 then 0 else offset + off)
  else if whence = vfsSeekEnd then
    -- `n->size + off` is unsigned, and so is its comparison
    some (if BitVec.slt 0 off then size else if (size + off).ult 0 then 0 else size + off)
  else none

/-- `NX_VfsFileSeek`: what it returns, and the descriptors. -/
def vfsFileSeek (size : ℕ → BitVec 64) (file : ℕ → SharedFile) (fd : ℤ) (off : BitVec 64)
    (whence : ℤ) : BitVec 64 × NxError × (ℕ → SharedFile) :=
  match vfsFileDescriptorToFile fd with
  | none => (0, .enores, file)
  | some k =>
      match (file k).node with
      | none => (0, .eperm, file)
      | some r =>
          match seekSwitch (file k).offset (size r.node) off whence with
          | none => ((file k).offset, .einval, file)
          | some off =>
              -- `off <= n->size` compares unsigned words
              let file :=
                if off.ule (size r.node) then
                  Function.update file k { file k with offset := off }
                else file
              ((file k).offset, .eok, file)

/-! ## What a seek is for -/

/-- What the offset is counted from. -/
def seekBase (offset size : ℤ) (whence : ℤ) : Option ℤ :=
  if whence = vfsSeekSet then some 0
  else if whence = vfsSeekCur then some offset
  else if whence = vfsSeekEnd then some size
  else none

/-- The position in the file that is closest. -/
def clampOffset (size target : ℤ) : ℤ := max 0 (min target size)

/-- A descriptor of an open file, at a position of the file. -/
structure OpenAt (size : ℕ → BitVec 64) (file : ℕ → SharedFile) (fd : ℕ) (r : NodeRef) : Prop where
  fd_lt : fd < vfsMaxFd
  node : (file fd).node = some r
  size_lt : (size r.node).toNat < 2 ^ 63
  offset_nonneg : 0 ≤ (file fd).offset.toInt
  offset_le : (file fd).offset.toInt ≤ (size r.node).toNat

/-- The call stores the position in the descriptor and returns it. -/
structure SeeksTo (file : ℕ → SharedFile) (fd : ℕ) (target : ℤ)
    (result : BitVec 64 × NxError × (ℕ → SharedFile)) : Prop where
  error : result.2.1 = .eok
  answer : result.1.toInt = target
  stored : result.2.2 = Function.update file fd { file fd with offset := result.1 }

/-! ## Words -/

section Words

variable {offset size off : BitVec 64}

theorem toInt_zeroWord : (0 : BitVec 64).toInt = 0 := rfl

theorem toInt_size (hsize : size.toNat < 2 ^ 63) : size.toInt = size.toNat :=
  BitVec.toInt_eq_toNat_of_lt (by omega)

theorem toInt_add_of_fits (hlow : -2 ^ 63 ≤ offset.toInt + off.toInt)
    (hhigh : offset.toInt + off.toInt < 2 ^ 63) :
    (offset + off).toInt = offset.toInt + off.toInt := by
  rw [BitVec.toInt_add]
  exact Int.bmod_eq_of_le (by omega) (by omega)

/-- A word from `0` on is the same as an unsigned word. -/
theorem toNat_of_toInt_nonneg (hoff : 0 ≤ off.toInt) : (off.toNat : ℤ) = off.toInt := by
  rw [BitVec.toInt_eq_toNat_cond] at hoff ⊢
  split at hoff <;> omega

/-! ## The switch -/

theorem seekSwitch_set (hsize : size.toNat < 2 ^ 63) :
    ∃ target, seekSwitch offset size off vfsSeekSet = some target ∧
      target.toInt = clampOffset size.toNat off.toInt := by
  refine ⟨_, rfl, ?_⟩
  have hword := toInt_size hsize
  simp only [BitVec.slt_iff_toInt_lt, toInt_zeroWord, hword, clampOffset]
  split
  · rw [toInt_zeroWord]
    omega
  · split
    · rw [hword]
      omega
    · omega

theorem seekSwitch_cur (hsize : size.toNat < 2 ^ 63) (hlow : -2 ^ 63 ≤ offset.toInt + off.toInt)
    (hhigh : offset.toInt + off.toInt < 2 ^ 63) :
    ∃ target, seekSwitch offset size off vfsSeekCur = some target ∧
      target.toInt = clampOffset size.toNat (offset.toInt + off.toInt) := by
  refine ⟨_, rfl, ?_⟩
  have hword := toInt_size hsize
  have hsum := toInt_add_of_fits hlow hhigh
  simp only [BitVec.slt_iff_toInt_lt, toInt_zeroWord, hword, hsum, clampOffset]
  split
  · rw [hword]
    omega
  · split
    · rw [toInt_zeroWord]
      omega
    · rw [hsum]
      omega

/-- What is stored in `off` from the end of the file: no word is below an unsigned zero. -/
theorem seekSwitch_end :
    seekSwitch offset size off vfsSeekEnd =
      some (if BitVec.slt 0 off then size else size + off) := by
  have hzero : (size + off).ult 0 = false := by
    rw [Bool.eq_false_iff, ne_eq, BitVec.ult_iff_lt]
    exact BitVec.not_lt_zero
  unfold seekSwitch
  rw [if_neg (by decide), if_neg (by decide), if_pos rfl, hzero]
  rfl

theorem seekSwitch_end_of_nonneg (hsize : size.toNat < 2 ^ 63)
    (hhigh : size.toNat + off.toInt < 2 ^ 63) (hplace : 0 ≤ size.toNat + off.toInt) :
    ∃ target, seekSwitch offset size off vfsSeekEnd = some target ∧
      target.toInt = clampOffset size.toNat (size.toNat + off.toInt) := by
  refine ⟨_, seekSwitch_end, ?_⟩
  have hword := toInt_size hsize
  have hsum : (size + off).toInt = size.toInt + off.toInt :=
    toInt_add_of_fits (by omega) (by omega)
  simp only [BitVec.slt_iff_toInt_lt, toInt_zeroWord, clampOffset]
  split
  · rw [hword]
    omega
  · rw [hsum, hword]
    omega

theorem seekSwitch_end_of_neg (hsize : size.toNat < 2 ^ 63)
    (hplace : size.toNat + off.toInt < 0) :
    ∃ target, seekSwitch offset size off vfsSeekEnd = some target ∧ target.ule size = false := by
  refine ⟨_, seekSwitch_end, ?_⟩
  have hword := toInt_size hsize
  have hlow := BitVec.le_toInt off
  have hsum : (size + off).toInt = size.toInt + off.toInt :=
    toInt_add_of_fits (by omega) (by omega)
  have hnat := BitVec.toInt_eq_toNat_cond (size + off)
  have hoff : ¬BitVec.slt 0 off = true := by
    rw [BitVec.slt_iff_toInt_lt, toInt_zeroWord]
    omega
  rw [if_neg hoff, Bool.eq_false_iff, ne_eq, BitVec.ule_iff_toNat_le]
  split at hnat <;> omega

end Words

/-! ## The answer -/

section Answer

variable {size : ℕ → BitVec 64} {file : ℕ → SharedFile} {fd : ℕ} {r : NodeRef}
  {off target : BitVec 64} {whence base : ℤ}

theorem OpenAt.vfsFileSeek (hopen : OpenAt size file fd r)
    (htarget : seekSwitch (file fd).offset (size r.node) off whence = some target) :
    vfsFileSeek size file fd off whence =
      if target.ule (size r.node) then
        (target, .eok, Function.update file fd { file fd with offset := target })
      else ((file fd).offset, .eok, file) := by
  have hfd : vfsFileDescriptorToFile fd = some fd := by
    have hlt := hopen.fd_lt
    simp [vfsFileDescriptorToFile, hlt]
  simp only [Fs.vfsFileSeek, hfd, hopen.node, htarget]
  split
  · rw [Function.update_self]
  · rfl

theorem OpenAt.seeksTo_of_toInt (hopen : OpenAt size file fd r)
    (htarget : seekSwitch (file fd).offset (size r.node) off whence = some target)
    (hvalue : target.toInt = clampOffset (size r.node).toNat base) :
    SeeksTo file fd (clampOffset (size r.node).toNat base)
      (Fs.vfsFileSeek size file fd off whence) := by
  have hclamp : 0 ≤ target.toInt ∧ target.toInt ≤ (size r.node).toNat := by
    rw [hvalue, clampOffset]
    omega
  have hle : target.ule (size r.node) = true := by
    have hnat := toNat_of_toInt_nonneg hclamp.1
    rw [BitVec.ule_iff_toNat_le]
    omega
  rw [hopen.vfsFileSeek htarget, if_pos hle]
  exact ⟨rfl, hvalue, rfl⟩

theorem OpenAt.seeksTo_zero_iff (hopen : OpenAt size file fd r)
    (htarget : seekSwitch (file fd).offset (size r.node) off whence = some target)
    (hbehind : target.ule (size r.node) = false) :
    SeeksTo file fd 0 (Fs.vfsFileSeek size file fd off whence) ↔ (file fd).offset = 0 := by
  rw [hopen.vfsFileSeek htarget, if_neg (by rw [hbehind]; exact Bool.false_ne_true)]
  constructor
  · exact fun hseeks => BitVec.eq_of_toInt_eq hseeks.answer
  · intro hzero
    refine ⟨rfl, by rw [hzero, toInt_zeroWord], ?_⟩
    rw [Function.update_eq_self]

end Answer

/-- `NX_VfsFileSeek` sets the offset to the place that is asked for, clamped to the file, and returns
it, unless the place is in front of the file, counted from its end, and the offset is not `0`. -/
theorem vfsFileSeek_clamps_iff {size : ℕ → BitVec 64} {file : ℕ → SharedFile} {fd : ℕ}
    {r : NodeRef} {off : BitVec 64} {whence base : ℤ} (hopen : OpenAt size file fd r)
    (hbase : seekBase (file fd).offset.toInt (size r.node).toNat whence = some base)
    (hlow : -2 ^ 63 ≤ base + off.toInt) (hhigh : base + off.toInt < 2 ^ 63) :
    SeeksTo file fd (clampOffset (size r.node).toNat (base + off.toInt))
        (vfsFileSeek size file fd off whence) ↔
      ¬(whence = vfsSeekEnd ∧ (size r.node).toNat + off.toInt < 0 ∧ (file fd).offset ≠ 0) := by
  have hsize := hopen.size_lt
  unfold seekBase at hbase
  by_cases hset : whence = vfsSeekSet
  · rw [if_pos hset, Option.some.injEq] at hbase
    subst hset hbase
    obtain ⟨target, htarget, hvalue⟩ : ∃ target,
        seekSwitch (file fd).offset (size r.node) off vfsSeekSet = some target ∧
          target.toInt = clampOffset (size r.node).toNat off.toInt := seekSwitch_set hsize
    rw [Int.zero_add]
    exact iff_of_true (hopen.seeksTo_of_toInt htarget hvalue) fun hend => absurd hend.1 (by decide)
  rw [if_neg hset] at hbase
  by_cases hcur : whence = vfsSeekCur
  · rw [if_pos hcur, Option.some.injEq] at hbase
    subst hcur hbase
    obtain ⟨target, htarget, hvalue⟩ := seekSwitch_cur hsize hlow hhigh
    exact iff_of_true (hopen.seeksTo_of_toInt htarget hvalue) fun hend => absurd hend.1 (by decide)
  rw [if_neg hcur] at hbase
  by_cases hend : whence = vfsSeekEnd
  · rw [if_pos hend, Option.some.injEq] at hbase
    subst hend hbase
    by_cases hplace : (size r.node).toNat + off.toInt < 0
    · obtain ⟨target, htarget, hbehind⟩ : ∃ target,
          seekSwitch (file fd).offset (size r.node) off vfsSeekEnd = some target ∧
            target.ule (size r.node) = false := seekSwitch_end_of_neg hsize hplace
      have hzero : clampOffset (size r.node).toNat ((size r.node).toNat + off.toInt) = 0 := by
        rw [clampOffset]
        omega
      rw [hzero, hopen.seeksTo_zero_iff htarget hbehind]
      simp [hplace]
    · obtain ⟨target, htarget, hvalue⟩ : ∃ target,
          seekSwitch (file fd).offset (size r.node) off vfsSeekEnd = some target ∧
            target.toInt =
              clampOffset (size r.node).toNat ((size r.node).toNat + off.toInt) :=
        seekSwitch_end_of_nonneg hsize hhigh (not_lt.mp hplace)
      exact iff_of_true (hopen.seeksTo_of_toInt htarget hvalue) fun hfail => hplace hfail.2.1
  · rw [if_neg hend] at hbase
    cases hbase

def demoSeekFile : ℕ → SharedFile := Function.update (fun _ => .free) 3 ⟨some ⟨0, 0⟩, 3, oRdonly⟩

theorem demoSeekFile_openAt : OpenAt (fun _ => 5) demoSeekFile 3 ⟨0, 0⟩ :=
  ⟨by decide, by decide, by decide, by decide, by decide⟩

/-- One byte on from the offset. -/
theorem vfsFileSeek_clamps_cur :
    SeeksTo demoSeekFile 3 4 (vfsFileSeek (fun _ => 5) demoSeekFile 3 1 vfsSeekCur) ↔
      ¬(vfsSeekCur = vfsSeekEnd ∧ (5 : ℤ) + 1 < 0 ∧ (demoSeekFile 3).offset ≠ 0) := by
  have hbase : seekBase (demoSeekFile 3).offset.toInt (5 : BitVec 64).toNat vfsSeekCur = some 3 :=
    by decide
  have hlow : -2 ^ 63 ≤ (3 : ℤ) + (1 : BitVec 64).toInt := by decide
  exact vfsFileSeek_clamps_iff demoSeekFile_openAt hbase hlow (by decide)

/-- Six bytes before the end of five, the offset stays behind the third. -/
theorem vfsFileSeek_keepsOffset :
    ¬∀ (size : ℕ → BitVec 64) (file : ℕ → SharedFile) (fd : ℕ) (r : NodeRef) (off : BitVec 64)
      (whence base : ℤ), OpenAt size file fd r →
      seekBase (file fd).offset.toInt (size r.node).toNat whence = some base →
      -2 ^ 63 ≤ base + off.toInt → base + off.toInt < 2 ^ 63 →
      SeeksTo file fd (clampOffset (size r.node).toNat (base + off.toInt))
        (vfsFileSeek size file fd off whence) := by
  intro hseeks
  have hanswer := (hseeks _ _ 3 _ (-6) vfsSeekEnd 5 demoSeekFile_openAt rfl (by decide)
    (by decide)).answer
  exact absurd hanswer (by decide)

end Nxos.Fs
