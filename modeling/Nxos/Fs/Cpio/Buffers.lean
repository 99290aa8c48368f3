import Nxos.Fs.Buffer
import Nxos.Fs.Cpio.Listing
import Nxos.Support.Logged

/-!
# The buffers of a walk

`CpioLookup` and `CpioReaddir` once more, with the reads of the device and the buffers `path` and
`name` on the stack.  The size of a name is taken from its header, and nothing compares it with the
size of the buffer; a name without a zero runs on into what an earlier one has left behind it.

The computation faults where it leaves a buffer.
-/

namespace Nxos.Fs

open Nxos.Logged

/-! ## Accesses -/

/-- What a walk does with the device and its buffers. -/
inductive CpioAccess where
  /-- `RomdiskRead` is called. -/
  | read (off len : ℕ)
  /-- Bytes are stored to `path`. -/
  | storePath (len : ℕ)
  /-- `path` is taken for a string. -/
  | usePath (path : Buffer)
  /-- Bytes are stored to `name`. -/
  | storeName (len : ℕ)
  /-- `name` is taken for a string. -/
  | useName (name : Buffer)

/-- There is a terminator in the first `size` bytes. -/
def Buffer.Terminated (b : Buffer) (size : ℕ) : Prop := ∃ i < size, b i = 0

instance (b : Buffer) (size : ℕ) : Decidable (b.Terminated size) :=
  inferInstanceAs (Decidable (∃ i < size, b i = 0))

def CpioAccess.InBuffers : CpioAccess → Prop
  | read _ _ => True
  | storePath len => len ≤ vfsMaxPath
  | usePath path => path.Terminated vfsMaxPath
  | storeName len => len ≤ vfsMaxName
  | useName name => name.Terminated vfsMaxName

abbrev CpioPart (α : Type) := Logged CpioAccess Fault α

/-! ## Parts of a round -/

def headerAt (memory : ℕ → BitVec 8) (off : BitVec 64) : Except CpioStop CpioHeader :=
  let header := ioBlockRead memory off.toNat cpioHeaderSize
  if header.length ≠ cpioHeaderSize then .error .header
  else if !strEqualN (cString header) cpioMagic 6 then .error .magic
  else .ok ⟨cpioField header 14, cpioField header 46, cpioField header 54,
    cpioField header 94, []⟩

def readHeader (memory : ℕ → BitVec 8) (off : BitVec 64) :
    CpioPart (Except CpioStop CpioHeader) := do
  emit (.read off.toNat cpioHeaderSize)
  pure (headerAt memory off)

/-- `NX_IoBlockRead` of a name that is not empty. -/
def readName (memory : ℕ → BitVec 8) (off : BitVec 64) (nameSize : BitVec 32) (path : Buffer) :
    CpioPart Buffer := do
  emit (.read (off + 110).toNat nameSize.toNat)
  emit (.storePath nameSize.toNat)
  if vfsMaxPath < nameSize.toNat then stop .outOfBounds
  else pure (path.write (ioBlockRead memory (off + 110).toNat nameSize.toNat))

def Buffer.pathStr (path : Buffer) : Str := cString (path.bytes vfsMaxPath)

/-- `path` as a string. -/
def usePath (path : Buffer) : CpioPart Str := do
  emit (.usePath path)
  if path.Terminated vfsMaxPath then pure path.pathStr else stop .outOfBounds

/-- `GetNextToken` stores a token. -/
def storeName (token : Str) (name : Buffer) : CpioPart Buffer := do
  emit (.storeName (token.length + 1))
  if vfsMaxName < token.length + 1 then stop .outOfBounds else pure (name.write (token ++ [0]))

/-- `NX_StrCopyN` from `name`. -/
def useName (name : Buffer) : CpioPart Str := do
  emit (.useName name)
  if name.Terminated vfsMaxName then pure (cString (name.bytes vfsMaxName)) else stop .outOfBounds

def CpioHeader.TrailerFields (h : CpioHeader) : Prop := h.size = 0 ∧ h.mode = 0 ∧ h.nameSize = 11

instance (h : CpioHeader) : Decidable h.TrailerFields := inferInstanceAs (Decidable (_ ∧ _ ∧ _))

def testTrailer (h : CpioHeader) (path : Buffer) : CpioPart Bool :=
  if h.TrailerFields then do
    let s ← usePath path
    pure (strEqualN s cpioTrailer 10)
  else pure false

/-! ## The walk -/

/-- Where a round begins, with what `path` holds. -/
structure CpioWalk (σ : Type) where
  off : BitVec 64
  path : Buffer
  acc : σ

section Walk

variable {σ ρ : Type}

/-- A round of the loop of `CpioReaddir` and `CpioLookup`. -/
def cpioRound (memory : ℕ → BitVec 8)
    (visit : σ → BitVec 64 → CpioHeader → Buffer → CpioPart (Except ρ σ)) (s : CpioWalk σ) :
    CpioPart (Except (CpioOutcome σ ρ) (CpioWalk σ)) := do
  match ← readHeader memory s.off with
  | .error stop => pure (.error (.stopped stop s.acc))
  | .ok h =>
      -- `NX_IoBlockRead` reads nothing when the count is zero
      if h.nameSize = 0 then pure (.error (.stopped .name s.acc))
      else
        let path ← readName memory s.off h.nameSize s.path
        if ← testTrailer h path then pure (.error (.stopped .trailer s.acc))
        else
          match ← visit s.acc s.off h path with
          | .error result => pure (.error (.found result))
          | .ok acc => pure (.ok ⟨cpioNext s.off h, path, acc⟩)

end Walk

/-- `CpioLookup` at an entry. -/
def lookupAt (dir name : Str) (_ : Unit) (off : BitVec 64) (h : CpioHeader) (path : Buffer) :
    CpioPart (Except CpioNode Unit) :=
  if path 0 = dot then pure (.ok ())
  else do
    let s ← usePath path
    if checkPath s dir name then pure (.error (cpioNode off h)) else pure (.ok ())

/-- `i` and `name` of `CpioReaddir`. -/
structure ReaddirAcc where
  i : BitVec 32
  name : Buffer

/-- `CpioReaddir` at an entry. -/
def readdirAt (dir : Str) (off : BitVec 64) (acc : ReaddirAcc) (_ : BitVec 64) (h : CpioHeader)
    (path : Buffer) : CpioPart (Except VfsDirent ReaddirAcc) :=
  if path 0 = dot then pure (.ok acc)
  else do
    let s ← usePath path
    match getNextToken s dir with
    | none => pure (.ok acc)
    | some token =>
        let name ← storeName token acc.name
        if acc.i.signExtend 64 = off then
          let s ← useName name
          pure (.error (cpioDirent off.toNat s h.mode))
        else pure (.ok ⟨acc.i + 1, name⟩)

/-- The walk of `CpioLookup` on a stack that holds anything. -/
def cpioLookupWalk (memory : ℕ → BitVec 8) (stale : Buffer) (dir name : Str) (rounds : ℕ) :
    CpioPart (Option (CpioOutcome Unit CpioNode)) :=
  loop (cpioRound memory (lookupAt dir name)) rounds ⟨0, stale, ()⟩

/-- The walk of `CpioReaddir` on a stack that holds anything. -/
def cpioReaddirWalk (memory : ℕ → BitVec 8) (stale staleName : Buffer) (dir : Str)
    (off : BitVec 64) (rounds : ℕ) : CpioPart (Option (CpioOutcome ReaddirAcc VfsDirent)) :=
  loop (cpioRound memory (readdirAt dir off)) rounds ⟨0, stale, 0, staleName⟩

/-! ## The accesses of a round -/

def CpioHeader.IsTrailer (h : CpioHeader) (path : Buffer) : Prop :=
  h.TrailerFields ∧ strEqualN path.pathStr cpioTrailer 10 = true

instance (h : CpioHeader) (path : Buffer) : Decidable (h.IsTrailer path) :=
  inferInstanceAs (Decidable (_ ∧ _))

section Parts

variable {P : CpioAccess → Prop} {memory : ℕ → BitVec 8} {off : BitVec 64} {nameSize : BitVec 32}
  {path buf : Buffer} {h : CpioHeader} {str : Str} {b : Bool}

theorem result_readHeader : (readHeader memory off).result = .ok (headerAt memory off) := rfl

theorem all_readHeader_iff : All P (readHeader memory off) ↔ P (.read off.toNat cpioHeaderSize) := by
  simp [readHeader, all_bind_iff]

theorem result_readName_iff : (readName memory off nameSize path).result = .ok buf ↔
    nameSize.toNat ≤ vfsMaxPath ∧
      buf = path.write (ioBlockRead memory (off + 110).toNat nameSize.toNat) := by
  simp only [readName, result_bind_eq_ok_iff, result_emit]
  by_cases hlong : vfsMaxPath < nameSize.toNat
  · simp [hlong]
  · simp [hlong, Nat.not_lt.mp hlong, eq_comm]

theorem all_readName_iff : All P (readName memory off nameSize path) ↔
    P (.read (off + 110).toNat nameSize.toNat) ∧ P (.storePath nameSize.toNat) := by
  simp only [readName, all_bind_iff, all_emit_iff]
  split <;> simp

theorem result_usePath_iff :
    (usePath path).result = .ok str ↔ path.Terminated vfsMaxPath ∧ str = path.pathStr := by
  simp only [usePath, result_bind_eq_ok_iff, result_emit]
  by_cases hend : path.Terminated vfsMaxPath
  · simp [hend, eq_comm]
  · simp [hend]

theorem all_usePath_iff : All P (usePath path) ↔ P (.usePath path) := by
  simp only [usePath, all_bind_iff, all_emit_iff]
  split <;> simp

theorem result_storeName_iff {token : Str} : (storeName token path).result = .ok buf ↔
    token.length + 1 ≤ vfsMaxName ∧ buf = path.write (token ++ [0]) := by
  simp only [storeName, result_bind_eq_ok_iff, result_emit]
  by_cases hlong : vfsMaxName < token.length + 1
  · exact iff_of_false (by simp [hlong]) fun hfits => Nat.not_lt.mpr hfits.1 hlong
  · simp [hlong, Nat.not_lt.mp hlong, eq_comm]

theorem all_storeName_iff {token : Str} :
    All P (storeName token path) ↔ P (.storeName (token.length + 1)) := by
  simp only [storeName, all_bind_iff, all_emit_iff]
  split <;> simp

theorem result_useName_iff : (useName path).result = .ok str ↔
    path.Terminated vfsMaxName ∧ str = cString (path.bytes vfsMaxName) := by
  simp only [useName, result_bind_eq_ok_iff, result_emit]
  by_cases hend : path.Terminated vfsMaxName
  · simp [hend, eq_comm]
  · simp [hend]

theorem all_useName_iff : All P (useName path) ↔ P (.useName path) := by
  simp only [useName, all_bind_iff, all_emit_iff]
  split <;> simp

theorem result_testTrailer_iff : (testTrailer h path).result = .ok b ↔
    (h.TrailerFields → path.Terminated vfsMaxPath) ∧ (b = true ↔ h.IsTrailer path) := by
  unfold testTrailer CpioHeader.IsTrailer
  by_cases hfields : h.TrailerFields
  · rw [if_pos hfields, result_bind_eq_ok_iff]
    simp only [hfields, true_and, forall_const, result_usePath_iff, result_pure, Except.ok.injEq]
    constructor
    · rintro ⟨str, ⟨hend, hstr⟩, hb⟩
      rw [← hb, hstr]
      exact ⟨hend, Iff.rfl⟩
    · rintro ⟨hend, hb⟩
      exact ⟨path.pathStr, ⟨hend, rfl⟩, (Bool.eq_iff_iff.mpr hb).symm⟩
  · rw [if_neg hfields, result_pure, Except.ok.injEq]
    simp only [hfields, false_imp_iff, false_and, true_and, iff_false, Bool.not_eq_true]
    exact eq_comm

theorem all_testTrailer_iff :
    All P (testTrailer h path) ↔ (h.TrailerFields → P (.usePath path)) := by
  unfold testTrailer
  by_cases hfields : h.TrailerFields
  · simp [hfields, all_bind_iff, all_usePath_iff]
  · simp [hfields]

end Parts

/-! ## The accesses of a round -/

section Rounds

variable {σ ρ : Type} {P : CpioAccess → Prop} {memory : ℕ → BitVec 8} {dir name : Str}
  {off : BitVec 64} {h : CpioHeader} {path : Buffer}
  {visit : σ → BitVec 64 → CpioHeader → Buffer → CpioPart (Except ρ σ)} {s : CpioWalk σ}

/-- What `path` holds behind the read of a name. -/
def CpioWalk.named (memory : ℕ → BitVec 8) (s : CpioWalk σ) (h : CpioHeader) : Buffer :=
  s.path.write (ioBlockRead memory (s.off + 110).toNat h.nameSize.toNat)

theorem all_cpioRound_iff : All P (cpioRound memory visit s) ↔ P (.read s.off.toNat cpioHeaderSize) ∧
      ∀ h, headerAt memory s.off = .ok h → h.nameSize ≠ 0 →
        (P (.read (s.off + 110).toNat h.nameSize.toNat) ∧ P (.storePath h.nameSize.toNat)) ∧
          (h.nameSize.toNat ≤ vfsMaxPath →
            (h.TrailerFields → P (.usePath (s.named memory h))) ∧
              ((h.TrailerFields → (s.named memory h).Terminated vfsMaxPath) →
                ¬h.IsTrailer (s.named memory h) →
                  All P (visit s.acc s.off h (s.named memory h)))) := by
  unfold cpioRound
  rw [all_bind_iff, all_readHeader_iff]
  refine and_congr_right fun _ => ?_
  simp only [result_readHeader, Except.ok.injEq, forall_eq']
  cases hheader : headerAt memory s.off with
  | error stop => simp
  | ok h =>
      simp only [Except.ok.injEq, forall_eq']
      by_cases hzero : h.nameSize = 0
      · simp [hzero]
      · simp only [hzero, if_false, ne_eq, not_false_eq_true, true_imp_iff]
        rw [all_bind_iff, all_readName_iff]
        refine and_congr_right fun _ => ?_
        constructor
        · intro hall hsize
          have hrest := hall _ (result_readName_iff.mpr ⟨hsize, rfl⟩)
          rw [all_bind_iff, all_testTrailer_iff] at hrest
          refine ⟨hrest.1, fun hend hnot => ?_⟩
          have hvisit := hrest.2 false
            (result_testTrailer_iff.mpr ⟨hend, iff_of_false Bool.false_ne_true hnot⟩)
          simp only [Bool.false_eq_true, if_false] at hvisit
          exact (all_bind_iff.mp hvisit).1
        · intro hall path hpath
          obtain ⟨hsize, rfl⟩ := result_readName_iff.mp hpath
          obtain ⟨huse, hvisit⟩ := hall hsize
          rw [all_bind_iff, all_testTrailer_iff]
          refine ⟨huse, fun b hb => ?_⟩
          obtain ⟨hend, hb⟩ := result_testTrailer_iff.mp hb
          cases b with
          | true => simp
          | false =>
              simp only [Bool.false_eq_true, if_false]
              rw [all_bind_iff]
              refine ⟨hvisit hend fun htrailer => ?_, fun x _ => ?_⟩
              · exact absurd (hb.mpr htrailer) Bool.false_ne_true
              · cases x <;> exact all_pure

/-- The accesses of `CpioLookup` at an entry. -/
theorem all_lookupAt_iff {acc : Unit} : All P (lookupAt dir name acc off h path) ↔
    (path 0 ≠ dot → P (.usePath path)) := by
  unfold lookupAt
  by_cases hdot : path 0 = dot
  · simp [hdot]
  · rw [if_neg hdot, all_bind_iff, all_usePath_iff]
    simp only [ne_eq, hdot, not_false_eq_true, true_imp_iff, and_iff_left_iff_imp]
    intro _ str _
    split <;> exact all_pure

/-- The accesses of `CpioReaddir` at an entry. -/
theorem all_readdirAt_iff {acc : ReaddirAcc} {pos : BitVec 64} :
    All P (readdirAt dir off acc pos h path) ↔
      (path 0 ≠ dot → P (.usePath path) ∧ (path.Terminated vfsMaxPath →
        ∀ token, getNextToken path.pathStr dir = some token → P (.storeName (token.length + 1)) ∧
          (token.length + 1 ≤ vfsMaxName → acc.i.signExtend 64 = off →
            P (.useName (acc.name.write (token ++ [0])))))) := by
  unfold readdirAt
  by_cases hdot : path 0 = dot
  · simp [hdot]
  · rw [if_neg hdot, all_bind_iff, all_usePath_iff]
    simp only [ne_eq, hdot, not_false_eq_true, true_imp_iff, result_usePath_iff]
    refine and_congr_right fun _ => ?_
    constructor
    · intro hall hend token htoken
      have hrest := hall _ ⟨hend, rfl⟩
      rw [htoken] at hrest
      rw [all_bind_iff, all_storeName_iff] at hrest
      refine ⟨hrest.1, fun hfits hoff => ?_⟩
      have huse := hrest.2 _ (result_storeName_iff.mpr ⟨hfits, rfl⟩)
      rw [if_pos hoff, all_bind_iff, all_useName_iff] at huse
      exact huse.1
    · rintro hall str ⟨hend, hstr⟩
      rw [hstr]
      cases htoken : getNextToken path.pathStr dir with
      | none => exact all_pure
      | some token =>
          obtain ⟨hstore, huse⟩ := hall hend token htoken
          simp only
          rw [all_bind_iff, all_storeName_iff]
          refine ⟨hstore, fun buf hbuf => ?_⟩
          obtain ⟨hfits, hbuf⟩ := result_storeName_iff.mp hbuf
          split
          · next hoff =>
            rw [all_bind_iff, all_useName_iff, hbuf]
            exact ⟨huse hfits hoff, fun _ _ => all_pure⟩
          · exact all_pure

/-- What `CpioLookup` makes of an entry. -/
theorem result_lookupAt_iff {acc : Unit} {h : CpioHeader} {path : Buffer}
    {x : Except CpioNode Unit} (hplain : path 0 ≠ dot) :
    (lookupAt dir name acc off h path).result = .ok x ↔ path.Terminated vfsMaxPath ∧
      x = if checkPath path.pathStr dir name then .error (cpioNode off h) else .ok () := by
  rw [lookupAt, if_neg hplain, result_bind_eq_ok_iff]
  simp only [result_usePath_iff]
  constructor
  · rintro ⟨str, ⟨hend, hstr⟩, hx⟩
    rw [hstr] at hx
    refine ⟨hend, ?_⟩
    split at hx
    · next hcheck => rw [if_pos hcheck, ← Except.ok.inj hx]
    · next hcheck => rw [if_neg hcheck, ← Except.ok.inj hx]
  · rintro ⟨hend, hx⟩
    refine ⟨path.pathStr, ⟨hend, rfl⟩, ?_⟩
    rw [hx]
    split <;> rfl

theorem cpioRound_visits {y : Except (CpioOutcome σ ρ) (CpioWalk σ)}
    (hround : (cpioRound memory visit s).result = .ok y) :
    (∃ stop, y = .error (.stopped stop s.acc) ∧ ∀ h, headerAt memory s.off = .ok h →
      h.nameSize ≠ 0 → h.IsTrailer (s.named memory h)) ∨ ∃ h x, headerAt memory s.off = .ok h ∧
      h.nameSize ≠ 0 ∧ h.nameSize.toNat ≤ vfsMaxPath ∧
      (visit s.acc s.off h (s.named memory h)).result = .ok x ∧
      ¬h.IsTrailer (s.named memory h) ∧
      y = match x with
        | .error result => .error (.found result)
        | .ok acc => .ok ⟨cpioNext s.off h, s.named memory h, acc⟩ := by
  unfold cpioRound at hround
  rw [result_bind_of_ok result_readHeader] at hround
  cases hheader : headerAt memory s.off with
  | error stop =>
      rw [hheader] at hround
      exact .inl ⟨stop, (Except.ok.inj hround).symm, fun h hh => by cases hh⟩
  | ok h =>
      rw [hheader] at hround
      simp only at hround
      by_cases hzero : h.nameSize = 0
      · rw [if_pos hzero] at hround
        refine .inl ⟨.name, (Except.ok.inj hround).symm, fun h' hh hnot => ?_⟩
        cases hh
        exact absurd hzero hnot
      · rw [if_neg hzero, result_bind_eq_ok_iff] at hround
        obtain ⟨path, hpath, hround⟩ := hround
        obtain ⟨hsize, rfl⟩ := result_readName_iff.mp hpath
        rw [result_bind_eq_ok_iff] at hround
        obtain ⟨b, hb, hround⟩ := hround
        have htrailer := (result_testTrailer_iff.mp hb).2
        cases b with
        | true =>
            rw [if_pos rfl] at hround
            refine .inl ⟨.trailer, (Except.ok.inj hround).symm, fun h' hh _ => ?_⟩
            cases hh
            exact htrailer.mp rfl
        | false =>
            rw [if_neg Bool.false_ne_true, result_bind_eq_ok_iff] at hround
            obtain ⟨x, hx, hround⟩ := hround
            refine .inr ⟨h, x, rfl, hzero, hsize, hx, fun his => ?_, ?_⟩
            · exact Bool.false_ne_true (htrailer.mpr his)
            · cases x with
              | error result => exact (Except.ok.inj hround).symm
              | ok acc => exact (Except.ok.inj hround).symm

end Rounds

/-! ## The walk without buffers -/

/-- The name that a round reads fits into `path`, with its terminator. -/
def NameEnds {σ : Type} (memory : ℕ → BitVec 8) (s : CpioWalk σ) : Prop :=
  ∀ h, headerAt memory s.off = .ok h → h.nameSize ≠ 0 → h.nameSize.toNat ≤ vfsMaxPath ∧
    0 ∈ ioBlockRead memory (s.off + 110).toNat h.nameSize.toNat

section Names

variable {memory : ℕ → BitVec 8} {dir name : Str} {buf : Buffer} {bytes : List (BitVec 8)}

theorem pathStr_write (hzero : 0 ∈ bytes) (hshort : bytes.length ≤ vfsMaxPath) :
    (buf.write bytes).Terminated vfsMaxPath ∧ (buf.write bytes).pathStr = cString bytes ∧
      (buf.write bytes 0 = dot ↔ (cString bytes).head? = some dot) := by
  obtain ⟨front, back, rfl, hfront⟩ := List.eq_append_cons_of_mem hzero
  have hfirst : cString (front ++ 0 :: back) = front := by
    have hskip : ∀ c ∈ front, (c != 0) = true := by
      intro c hc
      rw [bne_iff_ne]
      rintro rfl
      exact hfront hc
    rw [cString, List.takeWhile_append_of_pos hskip]
    simp
  rw [List.length_append, List.length_cons] at hshort
  have hholds : (buf.write (front ++ 0 :: back)).Holds front := by
    refine ⟨hfront, fun i hi => ?_, ?_⟩
    · rw [Buffer.write, List.getElem?_append_left hi, List.getElem?_eq_getElem hi, Option.getD_some]
    · simp [Buffer.write]
  refine ⟨⟨front.length, by omega, hholds.zero⟩, ?_, ?_⟩
  · rw [Buffer.pathStr, hholds.cString_bytes (by omega), hfirst]
  · rw [hfirst]
    cases front with
    | nil =>
        refine iff_of_false (fun hdot => ?_) (by simp)
        have hzero : buf.write ([] ++ 0 :: back) 0 = 0 := hholds.zero
        rw [hzero] at hdot
        exact absurd hdot (by decide)
    | cons c front =>
        have hc : buf.write (c :: front ++ 0 :: back) 0 = c := hholds.char 0 (by simp)
        rw [hc]
        simp

theorem cpioHeader_eq_headerAt (memory : ℕ → BitVec 8) (off : BitVec 64) :
    cpioHeader memory off = match headerAt memory off with
      | .error stop => .error stop
      | .ok h =>
          let bytes := ioBlockRead memory (off + 110).toNat h.nameSize.toNat
          if bytes = [] then .error .name
          else if h.TrailerFields ∧ strEqualN (cString bytes) cpioTrailer 10 then .error .trailer
          else .ok { h with path := cString bytes } := by
  unfold cpioHeader headerAt
  simp only
  by_cases hlength : (ioBlockRead memory off.toNat cpioHeaderSize).length ≠ cpioHeaderSize
  · rw [if_pos hlength, if_pos hlength]
  · rw [if_neg hlength, if_neg hlength]
    split
    · rfl
    · simp only [CpioHeader.TrailerFields, and_assoc]

theorem cpioNext_path (off : BitVec 64) (h : CpioHeader) (path : Str) :
    cpioNext off { h with path := path } = cpioNext off h := rfl

theorem cpioNode_path (off : BitVec 64) (h : CpioHeader) (path : Str) :
    cpioNode off { h with path := path } = cpioNode off h := rfl

theorem named_path {σ : Type} (s : CpioWalk σ) (h : CpioHeader) (path : Str) :
    s.named memory { h with path := path } = s.named memory h := rfl

variable (dir name) in
/-- A round of `CpioLookup` whose name ends. -/
theorem lookupRound_eq {s : CpioWalk Unit} (hends : NameEnds memory s) :
    (cpioRound memory (lookupAt dir name) s).result =
      .ok (match cpioHeader memory s.off with
        | .error stop => .error (.stopped stop s.acc)
        | .ok h =>
            match lookupVisit dir name s.acc s.off h with
            | .error n => .error (.found n)
            | .ok acc => .ok ⟨cpioNext s.off h, s.named memory h, acc⟩) := by
  rw [cpioHeader_eq_headerAt, cpioRound, result_bind_of_ok result_readHeader]
  cases hheader : headerAt memory s.off with
  | error stop => rfl
  | ok h =>
      simp only
      by_cases hzero : h.nameSize = 0
      · have hbytes : ioBlockRead memory (s.off + 110).toNat h.nameSize.toNat = [] := by
          rw [hzero]
          rfl
        rw [if_pos hzero, if_pos hbytes, result_pure]
      · obtain ⟨hsize, hmem⟩ := hends h hheader hzero
        obtain ⟨hend, hstr, hdot⟩ : (s.named memory h).Terminated vfsMaxPath ∧
            (s.named memory h).pathStr = cString (ioBlockRead memory (s.off + 110).toNat
              h.nameSize.toNat) ∧ (s.named memory h 0 = dot ↔ (cString (ioBlockRead memory
                (s.off + 110).toNat h.nameSize.toNat)).head? = some dot) :=
          pathStr_write hmem (by rwa [ioBlockRead_length])
        have hread : (readName memory s.off h.nameSize s.path).result = .ok (s.named memory h) :=
          result_readName_iff.mpr ⟨hsize, rfl⟩
        have htrailer : (testTrailer h (s.named memory h)).result =
            .ok (decide (h.IsTrailer (s.named memory h))) :=
          result_testTrailer_iff.mpr ⟨fun _ => hend, decide_eq_true_iff⟩
        rw [if_neg hzero, if_neg (List.ne_nil_of_mem hmem), result_bind_of_ok hread,
          result_bind_of_ok htrailer, ← hstr]
        rw [← hstr] at hdot
        have htest : h.IsTrailer (s.named memory h) ↔ h.TrailerFields ∧
            strEqualN (s.named memory h).pathStr cpioTrailer 10 = true := Iff.rfl
        by_cases his : h.IsTrailer (s.named memory h)
        · rw [if_pos (decide_eq_true his), if_pos (htest.mp his), result_pure]
        · rw [if_neg (by simpa using his), if_neg fun hboth => his (htest.mpr hboth)]
          simp only [lookupVisit]
          by_cases hplain : s.named memory h 0 = dot
          · have hskip : (lookupAt dir name s.acc s.off h (s.named memory h)).result =
                .ok (.ok ()) := by
              rw [lookupAt, if_pos hplain, result_pure]
            refine (result_bind_of_ok hskip).trans ?_
            rw [if_neg fun hboth => hboth.1 (hdot.mp hplain)]
            simp only [cpioNext_path, named_path, result_pure]
          · have hhead : (s.named memory h).pathStr.head? ≠ some dot :=
              fun hhead => hplain (hdot.mpr hhead)
            by_cases hcheck : checkPath (s.named memory h).pathStr dir name = true
            · have htake : (lookupAt dir name s.acc s.off h (s.named memory h)).result =
                  .ok (.error (cpioNode s.off h)) :=
                (result_lookupAt_iff hplain).mpr ⟨hend, (if_pos hcheck).symm⟩
              refine (result_bind_of_ok htake).trans ?_
              simp only [if_pos (And.intro hhead hcheck), cpioNode_path, result_pure]
            · have hskip : (lookupAt dir name s.acc s.off h (s.named memory h)).result =
                  .ok (.ok ()) :=
                (result_lookupAt_iff hplain).mpr ⟨hend, (if_neg hcheck).symm⟩
              refine (result_bind_of_ok hskip).trans ?_
              simp only [if_neg fun hboth : _ ∧ _ => hcheck hboth.2, cpioNext_path, named_path,
                result_pure]

def shortName (i : ℕ) : BitVec 8 :=
  (cpioMagic ++ List.replicate 95 0x30 ++ 0x32 :: List.replicate 8 0x30 ++ [0x61])[i]?.getD 0

end Names

/-! ## What fits -/

section Fits

variable {σ : Type}

/-- The name fits into `path`, and where it is taken for a string, `path` has a terminator: in the
bytes of the name, or in what an earlier name has left behind them. -/
structure NameFits (memory : ℕ → BitVec 8) (s : CpioWalk σ) (h : CpioHeader) : Prop where
  size : h.nameSize.toNat ≤ vfsMaxPath
  terminated : h.TrailerFields ∨ s.named memory h 0 ≠ dot →
    (s.named memory h).Terminated vfsMaxPath

/-- A name that the round reads fits into `path`. -/
def PathFits (memory : ℕ → BitVec 8) (s : CpioWalk σ) : Prop :=
  ∀ h, headerAt memory s.off = .ok h → h.nameSize ≠ 0 → NameFits memory s h

/-- What `GetNextToken` takes of an entry fits into `name`. -/
def TokenFits (memory : ℕ → BitVec 8) (dir : Str) (s : CpioWalk σ) : Prop :=
  ∀ h token, headerAt memory s.off = .ok h → h.nameSize ≠ 0 → ¬h.IsTrailer (s.named memory h) →
    s.named memory h 0 ≠ dot → getNextToken (s.named memory h).pathStr dir = some token →
      token.length < vfsMaxName

end Fits

section Bounds

variable {memory : ℕ → BitVec 8} {dir name : Str} {off : BitVec 64}

theorem terminated_write {buf : Buffer} {token : Str} (hfits : token.length + 1 ≤ vfsMaxName) :
    (buf.write (token ++ [0])).Terminated vfsMaxName :=
  ⟨token.length, hfits, by simp [Buffer.write]⟩

theorem lookupRound_inBuffers_iff {s : CpioWalk Unit} :
    All CpioAccess.InBuffers (cpioRound memory (lookupAt dir name) s) ↔ PathFits memory s := by
  rw [all_cpioRound_iff]
  simp only [all_lookupAt_iff, CpioAccess.InBuffers, true_and, PathFits]
  refine forall₃_congr fun h hheader hzero => ?_
  constructor
  · rintro ⟨hsize, hrest⟩
    obtain ⟨htrailer, hvisit⟩ := hrest hsize
    refine ⟨hsize, ?_⟩
    rintro (hfields | hdot)
    · exact htrailer hfields
    · by_cases his : h.IsTrailer (s.named memory h)
      · exact htrailer his.1
      · exact hvisit htrailer his hdot
  · intro hfits
    exact ⟨hfits.size, fun _ => ⟨fun hfields => hfits.terminated (.inl hfields),
      fun _ _ hdot => hfits.terminated (.inr hdot)⟩⟩

theorem readdirRound_inBuffers_iff {s : CpioWalk ReaddirAcc} :
    All CpioAccess.InBuffers (cpioRound memory (readdirAt dir off) s) ↔
      PathFits memory s ∧ TokenFits memory dir s := by
  rw [all_cpioRound_iff]
  simp only [all_readdirAt_iff, CpioAccess.InBuffers, true_and]
  constructor
  · intro hall
    constructor
    · intro h hheader hzero
      obtain ⟨hsize, hrest⟩ := hall h hheader hzero
      obtain ⟨htrailer, hvisit⟩ := hrest hsize
      refine ⟨hsize, ?_⟩
      rintro (hfields | hdot)
      · exact htrailer hfields
      · by_cases his : h.IsTrailer (s.named memory h)
        · exact htrailer his.1
        · exact (hvisit htrailer his hdot).1
    · intro h token hheader hzero his hdot htoken
      obtain ⟨hsize, hrest⟩ := hall h hheader hzero
      obtain ⟨htrailer, hvisit⟩ := hrest hsize
      obtain ⟨hend, hname⟩ := hvisit htrailer his hdot
      exact (hname hend token htoken).1
  · rintro ⟨hpath, htokens⟩ h hheader hzero
    have hfits := hpath h hheader hzero
    refine ⟨hfits.size, fun _ => ⟨fun hfields => hfits.terminated (.inl hfields), ?_⟩⟩
    intro _ his hdot
    refine ⟨hfits.terminated (.inr hdot), fun _ token htoken => ?_⟩
    exact ⟨htokens h token hheader hzero his hdot htoken, fun hshort _ => terminated_write hshort⟩

end Bounds

def longHeader : List (BitVec 8) :=
  cpioMagic ++ List.replicate 88 0x30 ++ [0x30, 0x30, 0x30, 0x30, 0x30, 0x38, 0x30, 0x30] ++
    List.replicate 8 0x30

def longName (i : ℕ) : BitVec 8 := longHeader[i]?.getD 0x61

end Nxos.Fs
