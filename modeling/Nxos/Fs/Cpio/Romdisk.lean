import Nxos.Fs.Cpio.Buffers

/-!
# Reads of the ROM disk

`RomdiskRead` copies whatever it is asked for and reports it as read, so that no read is short, and
the walks of `CpioLookup` and `CpioReaddir` do not notice the end of the image.  Where they stay in
it, they end: every header is 112 bytes behind the last one at least.

The size of the image is a difference of two pointers, and so below `2 ^ 63`.
-/

namespace Nxos.Fs

open Nxos.Logged

/-! ## Reading a node -/

/-- `NX_IoBlockRead`, which reads nothing when the count is zero. -/
def readBlock (memory : ℕ → BitVec 8) (off len : ℕ) : CpioPart (List (BitVec 8)) :=
  if len = 0 then pure []
  else do
    emit (.read off len)
    pure (ioBlockRead memory off len)

/-- `sz` in `CpioRead`. -/
def CpioNode.readSize (n : CpioNode) (off len : BitVec 64) : BitVec 64 :=
  if n.size - off < len then n.size - off else len

/-- `CpioRead` with its read of the device. -/
def cpioReadNode (memory : ℕ → BitVec 8) (n : CpioNode) (off len : BitVec 64) :
    CpioPart (List (BitVec 8) × NxError) :=
  if n.type ≠ .reg then pure ([], .einval)
  else if n.size ≤ off then pure ([], .einval)
  else do
    let bytes ← readBlock memory (n.data + off).toNat (n.readSize off len).toNat
    pure (bytes, .eok)

section Reading

variable {P : CpioAccess → Prop} {memory : ℕ → BitVec 8} {off len : ℕ}

theorem result_readBlock : (readBlock memory off len).result = .ok (ioBlockRead memory off len) := by
  unfold readBlock
  split
  · next hzero =>
    rw [hzero]
    rfl
  · rfl

theorem all_readBlock_iff : All P (readBlock memory off len) ↔ (len ≠ 0 → P (.read off len)) := by
  unfold readBlock
  by_cases hzero : len = 0
  · simp [hzero]
  · simp [hzero, all_bind_iff]

end Reading

/-- The read of the device aside, this is `CpioRead`. -/
theorem result_cpioReadNode (memory : ℕ → BitVec 8) (n : CpioNode) (off len : BitVec 64) :
    (cpioReadNode memory n off len).result = .ok (cpioRead memory n off len) := by
  unfold cpioReadNode cpioRead
  by_cases htype : n.type ≠ .reg
  · rw [if_pos htype, if_pos htype, result_pure]
  · rw [if_neg htype, if_neg htype]
    by_cases hsize : n.size ≤ off
    · rw [if_pos hsize, if_pos hsize, result_pure]
    · rw [if_neg hsize, if_neg hsize, result_bind_of_ok result_readBlock, result_pure]
      rfl

/-! ## The image -/

def CpioAccess.InImage (size : ℕ) : CpioAccess → Prop
  | read off len => off + len ≤ size
  | _ => True

section Image

variable {memory : ℕ → BitVec 8} {size : ℕ} {n : CpioNode}

theorem readSize_le {off len : BitVec 64} (hoff : off.toNat < n.size.toNat) :
    (n.readSize off len).toNat ≤ n.size.toNat - off.toNat := by
  have hrest : (n.size - off).toNat = n.size.toNat - off.toNat :=
    BitVec.toNat_sub_of_le (by rw [BitVec.le_def]; omega)
  rw [← hrest, CpioNode.readSize]
  split
  · exact le_rfl
  · next hge => exact BitVec.not_lt.mp hge

theorem cpioReadNode_inImage_iff (hsize : size < 2 ^ 63) :
    (∀ off len, All (CpioAccess.InImage size) (cpioReadNode memory n off len)) ↔
      (n.type = .reg → n.size ≠ 0 → n.data.toNat + n.size.toNat ≤ size) := by
  constructor
  · intro hall htype hzero
    have hread := hall 0 n.size
    have hnot : ¬n.size ≤ 0 := fun hle => hzero (BitVec.le_zero_iff.mp hle)
    have hall : n.readSize 0 n.size = n.size := by
      simp [CpioNode.readSize]
    rw [cpioReadNode, if_neg (not_not_intro htype), if_neg hnot, all_bind_iff, all_readBlock_iff,
      hall] at hread
    have hin := hread.1 fun hnat => hzero (BitVec.eq_of_toNat_eq hnat)
    simpa [CpioAccess.InImage] using hin
  · intro hcontent off len
    unfold cpioReadNode
    by_cases htype : n.type = .reg
    · rw [if_neg (not_not_intro htype)]
      by_cases hoff : n.size ≤ off
      · rw [if_pos hoff]
        exact all_pure
      · rw [if_neg hoff, all_bind_iff, all_readBlock_iff]
        rw [BitVec.le_def, not_le] at hoff
        have hzero : n.size ≠ 0 := by
          rintro hzero
          rw [hzero] at hoff
          exact Nat.not_lt_zero _ hoff
        have hin := hcontent htype hzero
        have hle : (n.readSize off len).toNat ≤ n.size.toNat - off.toNat := readSize_le hoff
        have hsum : (n.data + off).toNat = n.data.toNat + off.toNat := by
          rw [BitVec.toNat_add]
          exact Nat.mod_eq_of_lt (by omega)
        refine ⟨fun _ => ?_, fun _ _ => all_pure⟩
        rw [CpioAccess.InImage, hsum]
        omega
    · rw [if_pos htype]
      exact all_pure

end Image

/-! ## Offsets -/

section Offsets

variable {σ ρ : Type} {memory : ℕ → BitVec 8} {off : BitVec 64} {h : CpioHeader} {size : ℕ}
  {visit : σ → BitVec 64 → CpioHeader → Buffer → CpioPart (Except ρ σ)} {s t : CpioWalk σ}

theorem cpioNext_aligned : (cpioNext off h).toNat % 4 = 0 := by
  have hround := Aligned.and_not_toNat
    (off + 110 + (cpioNameSpace h.nameSize + h.size).setWidth 64 + 3) 2
  change (cpioNext off h).toNat = _ at hround
  omega

/-- The next header is behind the header, unless the offset overflows. -/
theorem add_le_cpioNext (haligned : off.toNat % 4 = 0) (hoff : off.toNat < 2 ^ 63) :
    off.toNat + 112 ≤ (cpioNext off h).toNat := by
  have hspace := (cpioNameSpace h.nameSize + h.size).isLt
  have hnat : (110 : BitVec 64).toNat = 110 := rfl
  have hthree : (3 : BitVec 64).toNat = 3 := rfl
  have hend : (off + 110 + (cpioNameSpace h.nameSize + h.size).setWidth 64 + 3).toNat =
      off.toNat + 113 + (cpioNameSpace h.nameSize + h.size).toNat := by
    simp only [BitVec.toNat_add, BitVec.toNat_setWidth, hnat, hthree]
    omega
  have hround := Aligned.and_not_toNat
    (off + 110 + (cpioNameSpace h.nameSize + h.size).setWidth 64 + 3) 2
  rw [hend] at hround
  change (cpioNext off h).toNat = _ at hround
  omega

theorem cpioRound_next (hnext : (cpioRound memory visit s).result = .ok (.ok t)) :
    ∃ h, t.off = cpioNext s.off h := by
  rcases cpioRound_visits hnext with ⟨stop, hstop, -⟩ | ⟨h, x, -, -, -, -, -, hx⟩
  · cases hstop
  · cases x with
    | error result => cases hx
    | ok acc =>
        cases hx
        exact ⟨h, rfl⟩

/-- A walk that stays in the image and does not fault ends within the rounds that fit into it. -/
theorem cpioWalk_ends (hsize : size < 2 ^ 63) (hstart : s.off = 0)
    (hheader : ∀ t, Reached (cpioRound memory visit) s t → t.off.toNat + cpioHeaderSize ≤ size)
    (hreturns : ∀ t, Reached (cpioRound memory visit) s t →
      ∃ x, (cpioRound memory visit t).result = .ok x) :
    ∃ r, (loop (cpioRound memory visit) (size / cpioHeaderSize) s).result = .ok (some r) := by
  have hhead : cpioHeaderSize = 110 := rfl
  have haligned : ∀ t, Reached (cpioRound memory visit) s t → t.off.toNat % 4 = 0 := by
    intro t ht
    have hzero : s.off.toNat % 4 = 0 := by
      rw [hstart]
      rfl
    refine ht.invariant (Q := fun t => t.off.toNat % 4 = 0) hzero fun u v _ huv => ?_
    obtain ⟨h, hh⟩ := cpioRound_next huv
    rw [hh]
    exact cpioNext_aligned
  refine loop_ends (fun t => (size + 2 - t.off.toNat) / 112) hreturns ?_ ?_ ?_
  · intro t ht
    have hin := hheader t ht
    omega
  · intro t u ht htu hu
    obtain ⟨h, hh⟩ := cpioRound_next htu
    have hin := hheader t ht
    have hin' := hheader u hu
    have hnext := add_le_cpioNext (h := h) (haligned t ht) (by omega)
    rw [← hh] at hnext
    omega
  · have hin := hheader s (.here s)
    have hzero : s.off.toNat = 0 := by
      rw [hstart]
      rfl
    rw [hhead] at hin ⊢
    omega

end Offsets

/-! ## Rounds without a fault -/

section Guards

variable {σ ρ : Type} {memory : ℕ → BitVec 8} {dir name : Str} {off : BitVec 64} {h : CpioHeader}
  {path : Buffer}

theorem guarded_readHeader : Guarded CpioAccess.InBuffers (readHeader memory off) :=
  iff_of_true (all_readHeader_iff.mpr trivial) ⟨_, result_readHeader⟩

theorem guarded_readName {nameSize : BitVec 32} :
    Guarded CpioAccess.InBuffers (readName memory off nameSize path) := by
  rw [Guarded, all_readName_iff]
  simp [result_readName_iff, CpioAccess.InBuffers]

theorem guarded_usePath : Guarded CpioAccess.InBuffers (usePath path) := by
  rw [Guarded, all_usePath_iff]
  simp [result_usePath_iff, CpioAccess.InBuffers]

theorem guarded_storeName {token : Str} : Guarded CpioAccess.InBuffers (storeName token path) := by
  rw [Guarded, all_storeName_iff]
  simp [result_storeName_iff, CpioAccess.InBuffers]

theorem guarded_useName : Guarded CpioAccess.InBuffers (useName path) := by
  rw [Guarded, all_useName_iff]
  simp [result_useName_iff, CpioAccess.InBuffers]

theorem guarded_testTrailer : Guarded CpioAccess.InBuffers (testTrailer h path) := by
  unfold testTrailer
  split
  · exact guarded_bind guarded_usePath fun _ => guarded_pure
  · exact guarded_pure

theorem guarded_lookupAt {acc : Unit} :
    Guarded CpioAccess.InBuffers (lookupAt dir name acc off h path) := by
  unfold lookupAt
  split
  · exact guarded_pure
  · refine guarded_bind guarded_usePath fun str => ?_
    split <;> exact guarded_pure

theorem guarded_readdirAt {acc : ReaddirAcc} {pos : BitVec 64} :
    Guarded CpioAccess.InBuffers (readdirAt dir off acc pos h path) := by
  unfold readdirAt
  split
  · exact guarded_pure
  · refine guarded_bind guarded_usePath fun str => ?_
    split
    · exact guarded_pure
    · refine guarded_bind guarded_storeName fun buf => ?_
      split
      · exact guarded_bind guarded_useName fun _ => guarded_pure
      · exact guarded_pure

/-- A round faults exactly where it leaves a buffer. -/
theorem guarded_cpioRound {visit : σ → BitVec 64 → CpioHeader → Buffer → CpioPart (Except ρ σ)}
    (hvisit : ∀ acc off h path, Guarded CpioAccess.InBuffers (visit acc off h path))
    (s : CpioWalk σ) : Guarded CpioAccess.InBuffers (cpioRound memory visit s) := by
  refine guarded_bind guarded_readHeader fun x => ?_
  cases x with
  | error stop => exact guarded_pure
  | ok h =>
      simp only
      split
      · exact guarded_pure
      · refine guarded_bind guarded_readName fun path => guarded_bind guarded_testTrailer fun b => ?_
        cases b with
        | true => exact guarded_pure
        | false =>
            refine guarded_bind (hvisit _ _ _ _) fun x => ?_
            cases x <;> exact guarded_pure

end Guards

/-! ## Rounds in the image -/

/-- The header of a round and its name are in the image. -/
structure RoundInside {σ : Type} (memory : ℕ → BitVec 8) (size : ℕ) (s : CpioWalk σ) : Prop where
  header : s.off.toNat + cpioHeaderSize ≤ size
  name : ∀ h, headerAt memory s.off = .ok h → h.nameSize ≠ 0 →
    (s.off + 110).toNat + h.nameSize.toNat ≤ size

/-- `CpioLookup` takes the entry of a round. -/
structure CpioWalk.Takes (s : CpioWalk Unit) (memory : ℕ → BitVec 8) (dir name : Str)
    (h : CpioHeader) : Prop where
  header : headerAt memory s.off = .ok h
  named : h.nameSize ≠ 0
  entry : ¬h.IsTrailer (s.named memory h)
  plain : s.named memory h 0 ≠ dot
  path : checkPath (s.named memory h).pathStr dir name = true

/-- The content of a file that is taken is in the image. -/
def ContentInside (memory : ℕ → BitVec 8) (size : ℕ) (dir name : Str) (s : CpioWalk Unit) : Prop :=
  ∀ h, s.Takes memory dir name h → cpioType h.mode = .reg → h.size ≠ 0 →
    (cpioNode s.off h).data.toNat + h.size.toNat ≤ size

section Inside

variable {σ ρ : Type} {memory : ℕ → BitVec 8} {size : ℕ} {dir name : Str} {off : BitVec 64}

theorem cpioRound_inImage_iff {visit : σ → BitVec 64 → CpioHeader → Buffer → CpioPart (Except ρ σ)}
    (hvisit : ∀ acc off h path, All (CpioAccess.InImage size) (visit acc off h path))
    {s : CpioWalk σ} :
    All (CpioAccess.InImage size) (cpioRound memory visit s) ↔ RoundInside memory size s := by
  rw [all_cpioRound_iff]
  constructor
  · rintro ⟨hheader, hrest⟩
    exact ⟨hheader, fun h hh hzero => (hrest h hh hzero).1.1⟩
  · intro hinside
    refine ⟨hinside.header, fun h hh hzero => ⟨⟨hinside.name h hh hzero, trivial⟩, fun _ => ?_⟩⟩
    exact ⟨fun _ => trivial, fun _ _ => hvisit _ _ _ _⟩

theorem lookupAt_inImage {acc : Unit} {h : CpioHeader} {path : Buffer} :
    All (CpioAccess.InImage size) (lookupAt dir name acc off h path) :=
  all_lookupAt_iff.mpr fun _ => trivial

theorem readdirAt_inImage {acc : ReaddirAcc} {pos : BitVec 64} {h : CpioHeader} {path : Buffer} :
    All (CpioAccess.InImage size) (readdirAt dir off acc pos h path) :=
  all_readdirAt_iff.mpr fun _ => ⟨trivial, fun _ _ _ => ⟨trivial, fun _ _ => trivial⟩⟩

/-- The node that a round of `CpioLookup` finds. -/
theorem lookupRound_found_iff {s : CpioWalk Unit} {n : CpioNode} (hfits : PathFits memory s) :
    (cpioRound memory (lookupAt dir name) s).result = .ok (.error (.found n)) ↔
      ∃ h, s.Takes memory dir name h ∧ n = cpioNode s.off h := by
  constructor
  · intro hround
    rcases cpioRound_visits hround with ⟨stop, hstop, -⟩ | ⟨h, x, hheader, hzero, -, hx, his, hy⟩
    · cases hstop
    · by_cases hplain : s.named memory h 0 = dot
      · rw [lookupAt, if_pos hplain, result_pure, Except.ok.injEq] at hx
        rw [← hx] at hy
        cases hy
      · rw [((result_lookupAt_iff hplain).mp hx).2] at hy
        by_cases hcheck : checkPath (s.named memory h).pathStr dir name = true
        · rw [if_pos hcheck] at hy
          cases hy
          exact ⟨h, ⟨hheader, hzero, his, hplain, hcheck⟩, rfl⟩
        · rw [if_neg hcheck] at hy
          cases hy
  · rintro ⟨h, htakes, rfl⟩
    obtain ⟨y, hy⟩ := (guarded_cpioRound (fun _ _ _ _ => guarded_lookupAt) s).mp
      (lookupRound_inBuffers_iff.mpr hfits)
    rcases cpioRound_visits hy with ⟨stop, -, hstop⟩ | ⟨h', x, hheader, -, -, hx, -, hvisit⟩
    · exact absurd (hstop h htakes.header htakes.named) htakes.entry
    · have hsame : h = h' := Except.ok.inj (htakes.header.symm.trans hheader)
      subst hsame
      rw [((result_lookupAt_iff htakes.plain).mp hx).2, if_pos htakes.path] at hvisit
      rw [hy, hvisit]

end Inside

/-! ## Walks in the image -/

/-- All reads of `CpioLookup` are in the image, it ends within the headers that the image has room
for, and all reads of a node that it finds are in the image. -/
structure LookupInImage (memory : ℕ → BitVec 8) (size : ℕ) (stale : Buffer) (dir name : Str) :
    Prop where
  reads : ∀ rounds, All (CpioAccess.InImage size) (cpioLookupWalk memory stale dir name rounds)
  ends : ∃ r, (cpioLookupWalk memory stale dir name (size / cpioHeaderSize)).result = .ok (some r)
  contents : ∀ rounds n,
    (cpioLookupWalk memory stale dir name rounds).result = .ok (some (.found n)) →
      ∀ off len, All (CpioAccess.InImage size) (cpioReadNode memory n off len)

/-- All reads of `CpioReaddir` are in the image, and it ends within the headers that the image has
room for. -/
structure ReaddirInImage (memory : ℕ → BitVec 8) (size : ℕ) (stale staleName : Buffer) (dir : Str)
    (off : BitVec 64) : Prop where
  reads : ∀ rounds,
    All (CpioAccess.InImage size) (cpioReaddirWalk memory stale staleName dir off rounds)
  ends : ∃ r, (cpioReaddirWalk memory stale staleName dir off (size / cpioHeaderSize)).result =
    .ok (some r)

section Walks

variable {memory : ℕ → BitVec 8} {size : ℕ} {stale staleName : Buffer} {dir name : Str}
  {off : BitVec 64}

theorem cpioNode_size_toNat (h : CpioHeader) : (cpioNode off h).size.toNat = h.size.toNat :=
  BitVec.toNat_setWidth_of_le (by decide)

theorem cpioNode_size_ne_zero_iff {h : CpioHeader} : (cpioNode off h).size ≠ 0 ↔ h.size ≠ 0 := by
  rw [ne_eq, ne_eq, ← BitVec.toNat_inj, ← BitVec.toNat_inj (x := h.size), cpioNode_size_toNat]
  rfl

theorem lookupInImage_iff (hsize : size < 2 ^ 63) :
    LookupInImage memory size stale dir name ↔
      ∀ s, Reached (cpioRound memory (lookupAt dir name)) ⟨0, stale, ()⟩ s →
        RoundInside memory size s ∧ PathFits memory s ∧ ContentInside memory size dir name s := by
  have hround {s : CpioWalk Unit} : All (CpioAccess.InImage size)
      (cpioRound memory (lookupAt dir name) s) ↔ RoundInside memory size s :=
    cpioRound_inImage_iff fun _ _ _ _ => lookupAt_inImage
  have hguarded (s : CpioWalk Unit) : PathFits memory s ↔
      ∃ x, (cpioRound memory (lookupAt dir name) s).result = .ok x :=
    lookupRound_inBuffers_iff.symm.trans (guarded_cpioRound (fun _ _ _ _ => guarded_lookupAt) s)
  constructor
  · intro hwalk s hs
    have hfits := (hguarded s).mpr (exists_ok_of_loop_ends hwalk.ends hs)
    refine ⟨hround.mp (all_loop_iff.mp hwalk.reads s hs), hfits, ?_⟩
    intro h htakes htype hzero
    have hfound := (lookupRound_found_iff hfits).mpr ⟨h, htakes, rfl⟩
    obtain ⟨rounds, hrounds⟩ := exists_loop_eq_iff.mpr ⟨s, hs, hfound⟩
    have hcontent := (cpioReadNode_inImage_iff hsize).mp (hwalk.contents rounds _ hrounds) htype
    rw [cpioNode_size_ne_zero_iff, cpioNode_size_toNat] at hcontent
    exact hcontent hzero
  · intro hall
    refine ⟨all_loop_iff.mpr fun s hs => hround.mpr (hall s hs).1, ?_, ?_⟩
    · exact cpioWalk_ends hsize rfl (fun s hs => (hall s hs).1.header)
        fun s hs => (hguarded s).mp (hall s hs).2.1
    · intro rounds n hn
      obtain ⟨s, hs, hfound⟩ := exists_loop_eq_iff.mp ⟨rounds, hn⟩
      obtain ⟨-, hfits, hcontent⟩ := hall s hs
      obtain ⟨h, htakes, rfl⟩ := (lookupRound_found_iff hfits).mp hfound
      refine (cpioReadNode_inImage_iff hsize).mpr fun htype hzero => ?_
      rw [cpioNode_size_toNat]
      exact hcontent h htakes htype (cpioNode_size_ne_zero_iff.mp hzero)

theorem readdirInImage_iff (hsize : size < 2 ^ 63) :
    ReaddirInImage memory size stale staleName dir off ↔
      ∀ s, Reached (cpioRound memory (readdirAt dir off)) ⟨0, stale, 0, staleName⟩ s →
        RoundInside memory size s ∧ PathFits memory s ∧ TokenFits memory dir s := by
  have hround {s : CpioWalk ReaddirAcc} : All (CpioAccess.InImage size)
      (cpioRound memory (readdirAt dir off) s) ↔ RoundInside memory size s :=
    cpioRound_inImage_iff fun _ _ _ _ => readdirAt_inImage
  have hguarded (s : CpioWalk ReaddirAcc) : PathFits memory s ∧ TokenFits memory dir s ↔
      ∃ x, (cpioRound memory (readdirAt dir off) s).result = .ok x :=
    readdirRound_inBuffers_iff.symm.trans (guarded_cpioRound (fun _ _ _ _ => guarded_readdirAt) s)
  constructor
  · intro hwalk s hs
    exact ⟨hround.mp (all_loop_iff.mp hwalk.reads s hs),
      (hguarded s).mpr (exists_ok_of_loop_ends hwalk.ends hs)⟩
  · intro hall
    exact ⟨all_loop_iff.mpr fun s hs => hround.mpr (hall s hs).1,
      cpioWalk_ends hsize rfl (fun s hs => (hall s hs).1.header)
        fun s hs => (hguarded s).mp (hall s hs).2⟩

end Walks

def shortHeader : List (BitVec 8) :=
  cpioMagic ++ List.replicate 88 0x30 ++ [0x30, 0x30, 0x30, 0x30, 0x30, 0x30, 0x31, 0x30] ++
    List.replicate 8 0x30

def shortImage (i : ℕ) : BitVec 8 := shortHeader[i]?.getD 0x61

end Nxos.Fs
