import Nxos.Arch.Riscv64.Pages
import Nxos.Base.Ram
import Nxos.Mm.Vmspace.Model

/-!
# Copying to and from a space

The embedding of `NX_VmspaceRead` and `NX_VmspaceWrite`.  The kernel reaches physical memory at
a fixed offset, so a copy behind a translated address goes over physically consecutive bytes.
The loop translates one address for every 4096 bytes, and the pieces begin at the given
address: they are pages only when this address is aligned.

The pointers to the space and to the buffer are not null, and the buffer is no part of the
space.
-/

namespace Nxos.Mm

/-! ## Translation -/

section Operations

variable (mmuVir2Phy : BitVec 64 → Exec (BitVec 64)) (space : Vmspace)

/-- `NX_VmspaceVirToPhy` -/
def vmspaceVirToPhy (virAddr : BitVec 64) : Exec (BitVec 64) :=
  if space.table = false then .ok 0
  else if virAddr < space.spaceBase ∨ space.spaceTop ≤ virAddr then .ok 0
  else mmuVir2Phy virAddr

/-- `VMSPACE_COPY_IN` and `VMSPACE_COPY_OUT`. -/
inductive CopyDirection where
  | copyIn
  | copyOut
  deriving DecidableEq

/-- `NX_MemCopy` of a chunk: the bytes of the buffer and the memory afterwards. -/
def memCopyChunk (direction : CopyDirection) (ram : ℕ → BitVec 8) (vaddr : BitVec 64)
    (buf : List (BitVec 8)) (chunk : BitVec 64) : List (BitVec 8) × (ℕ → BitVec 8) :=
  match direction with
  | .copyIn => (buf.take chunk.toNat, storeBytes ram vaddr.toNat (buf.take chunk.toNat))
  | .copyOut => (loadBytes ram vaddr.toNat chunk.toNat, ram)

/-- The loop of `NX_VmspaceCopyData`, which runs once for every 4096 bytes that are left: its
error, the buffer from here on and the memory. -/
def copyChunks (direction : CopyDirection) : ℕ → BitVec 64 → List (BitVec 8) → BitVec 64 →
    (ℕ → BitVec 8) → Exec (NxError × List (BitVec 8) × (ℕ → BitVec 8))
  | 0, _, buf, _, ram => .ok (.eok, buf, ram)
  | rounds + 1, baseAddr, buf, size, ram => do
      let paddr ← vmspaceVirToPhy mmuVir2Phy space baseAddr
      if paddr = 0 then .ok (.efault, buf, ram)
      else
        let chunk : BitVec 64 := if size < 4096 then size else 4096
        let (bytes, ram) := memCopyChunk direction ram paddr buf chunk
        let (err, rest, ram) ←
          copyChunks direction rounds (baseAddr + chunk) (buf.drop chunk.toNat) (size - chunk) ram
        .ok (err, bytes ++ rest, ram)

/-- `NX_VmspaceCopyData` -/
def vmspaceCopyData (spaceAddr : BitVec 64) (buf : List (BitVec 8)) (size : BitVec 64)
    (direction : CopyDirection) (ram : ℕ → BitVec 8) :
    Exec (NxError × List (BitVec 8) × (ℕ → BitVec 8)) := do
  nxAssert (spaceAddr ≠ 0)
  nxAssert (size ≠ 0)
  copyChunks mmuVir2Phy space direction ((size.toNat + 4095) / 4096) spaceAddr buf size ram

/-- `NX_VmspaceRead`: the buffer afterwards. -/
def vmspaceRead (spaceAddr : BitVec 64) (buf : List (BitVec 8)) (size : BitVec 64)
    (ram : ℕ → BitVec 8) : Exec (NxError × List (BitVec 8)) :=
  if spaceAddr = 0 ∨ size = 0 then .ok (.einval, buf)
  else do
    let (err, buf, _) ← vmspaceCopyData mmuVir2Phy space spaceAddr buf size .copyOut ram
    .ok (err, buf)

/-- `NX_VmspaceWrite`: the memory afterwards. -/
def vmspaceWrite (spaceAddr : BitVec 64) (buf : List (BitVec 8)) (size : BitVec 64)
    (ram : ℕ → BitVec 8) : Exec (NxError × (ℕ → BitVec 8)) :=
  if spaceAddr = 0 ∨ size = 0 then .ok (.einval, ram)
  else do
    let (err, _, ram) ← vmspaceCopyData mmuVir2Phy space spaceAddr buf size .copyIn ram
    .ok (err, ram)

end Operations

/-! ## Pieces -/

/-- The bytes of a range of the space, numbered from its start: `phys i` is the physical
address of byte `i`. -/
def Translated (mmuVir2Phy : BitVec 64 → Exec (BitVec 64)) (space : Vmspace) (addr : BitVec 64)
    (size : ℕ) (phys : ℕ → ℕ) : Prop :=
  ∀ i < size, ∃ pa : BitVec 64,
    vmspaceVirToPhy mmuVir2Phy space (addr + BitVec.ofNat 64 i) = .ok pa ∧ pa.toNat = phys i

/-- Where the loop finds byte `i`: behind the start of its piece. -/
def chunkAddr (phys : ℕ → ℕ) (i : ℕ) : ℕ :=
  phys (i / 4096 * 4096) + i % 4096

section Loop

variable {mmuVir2Phy : BitVec 64 → Exec (BitVec 64)} {space : Vmspace} {addr size : BitVec 64}
  {phys : ℕ → ℕ} {rounds : ℕ} {ram : ℕ → BitVec 8} {buf : List (BitVec 8)}

theorem chunkAddr_tail (phys : ℕ → ℕ) (i : ℕ) :
    chunkAddr (fun k => phys (k + 4096)) i = chunkAddr phys (i + 4096) := by
  rw [chunkAddr, chunkAddr, Nat.add_mod_right, Nat.add_div_right i (by decide), Nat.succ_mul]

theorem chunkAddr_of_lt {i : ℕ} (hi : i < 4096) : chunkAddr phys i = phys 0 + i := by
  rw [chunkAddr, Nat.div_eq_of_lt hi, Nat.zero_mul, Nat.mod_eq_of_lt hi]

def chunkSize (size : BitVec 64) : BitVec 64 :=
  if size < 4096 then size else 4096

theorem chunkSize_toNat (size : BitVec 64) : (chunkSize size).toNat = min size.toNat 4096 := by
  have hlt : size < 4096 ↔ size.toNat < 4096 := Iff.rfl
  rw [chunkSize]
  split_ifs with hsmall
  · have hsmall' := hlt.mp hsmall
    exact (Nat.min_eq_left hsmall'.le).symm
  · have hlarge : ¬size.toNat < 4096 := fun h => hsmall (hlt.mpr h)
    exact (Nat.min_eq_right (Nat.le_of_not_lt hlarge)).symm

theorem sub_chunkSize_toNat (size : BitVec 64) :
    (size - chunkSize size).toNat = size.toNat - 4096 := by
  have hle : chunkSize size ≤ size := by
    rw [BitVec.le_def, chunkSize_toNat]
    exact Nat.min_le_left _ _
  rw [BitVec.toNat_sub_of_le hle, chunkSize_toNat]
  omega

theorem Translated.tail (h : Translated mmuVir2Phy space addr size.toNat phys) :
    Translated mmuVir2Phy space (addr + chunkSize size) (size.toNat - 4096)
      fun i => phys (i + 4096) := by
  intro i hi
  have hlarge : chunkSize size = 4096 := by
    refine if_neg fun hsmall => ?_
    have hsmall' : size.toNat < 4096 := hsmall
    omega
  obtain ⟨pa, hpa, hphys⟩ := h (i + 4096) (by omega)
  refine ⟨pa, ?_, hphys⟩
  rw [← hpa, hlarge, BitVec.ofNat_add, BitVec.add_assoc, BitVec.add_comm (4096 : BitVec 64)]
  rfl

theorem Translated.head {n : ℕ} (h : Translated mmuVir2Phy space addr n phys) (hn : 0 < n) :
    ∃ pa, vmspaceVirToPhy mmuVir2Phy space addr = .ok pa ∧ pa.toNat = phys 0 ∧
      (pa = 0 ↔ phys 0 = 0) := by
  obtain ⟨pa, hpa, hphys⟩ := h 0 hn
  rw [BitVec.add_zero] at hpa
  refine ⟨pa, hpa, hphys, ?_⟩
  rw [← hphys]
  constructor
  · rintro rfl
    rfl
  · intro hzero
    exact BitVec.eq_of_toNat_eq hzero

theorem copyChunks_succ (direction : CopyDirection) {pa : BitVec 64}
    (hpa : vmspaceVirToPhy mmuVir2Phy space addr = .ok pa) (hne : pa ≠ 0) {err : NxError}
    {rest : List (BitVec 8)} {ram' : ℕ → BitVec 8}
    (hrest : copyChunks mmuVir2Phy space direction rounds (addr + chunkSize size)
      (buf.drop (chunkSize size).toNat) (size - chunkSize size)
      (memCopyChunk direction ram pa buf (chunkSize size)).2 = .ok (err, rest, ram')) :
    copyChunks mmuVir2Phy space direction (rounds + 1) addr buf size ram =
      .ok (err, (memCopyChunk direction ram pa buf (chunkSize size)).1 ++ rest, ram') := by
  rw [copyChunks, hpa, exec_ok_bind, if_neg hne]
  change (copyChunks mmuVir2Phy space direction rounds (addr + chunkSize size)
      (buf.drop (chunkSize size).toNat) (size - chunkSize size)
      (memCopyChunk direction ram pa buf (chunkSize size)).2 >>= _) = _
  rw [hrest]
  rfl

/-! ## Reading -/

/-- The loop reads every piece behind its start, unless one starts at the null address. -/
theorem copyChunks_out (ram : ℕ → BitVec 8) (buf : List (BitVec 8))
    (h : Translated mmuVir2Phy space addr size.toNat phys)
    (hrounds : rounds = (size.toNat + 4095) / 4096) (hbuf : buf.length = size.toNat) :
    ∃ err buf', copyChunks mmuVir2Phy space .copyOut rounds addr buf size ram =
        .ok (err, buf', ram) ∧
      buf'.length = size.toNat ∧
      (err = .eok ↔ ∀ i < size.toNat, phys (i / 4096 * 4096) ≠ 0) ∧
      (err = .eok → ∀ i < size.toNat, buf'[i]? = some (ram (chunkAddr phys i))) := by
  induction rounds generalizing addr size phys buf with
  | zero =>
      have hzero : size.toNat = 0 := by omega
      refine ⟨.eok, buf, rfl, hbuf, ?_, ?_⟩
      · rw [hzero]
        simp
      · intro _ i hi
        omega
  | succ rounds ih =>
      obtain ⟨pa, hpa, hphys, hnull⟩ := h.head (by omega)
      have hchunk := chunkSize_toNat size
      have hsub := sub_chunkSize_toNat size
      by_cases hne : pa = 0
      · refine ⟨.efault, buf, ?_, hbuf, ?_, fun herr => absurd herr (by decide)⟩
        · rw [copyChunks, hpa, exec_ok_bind, if_pos hne]
        · refine iff_of_false (by decide) fun hall => hall 0 (by omega) (hnull.mp hne)
      · have htail := h.tail
        rw [← hsub] at htail
        obtain ⟨err, rest, hrest, hlen, hok, hread⟩ :=
          ih (buf.drop (chunkSize size).toNat) htail (by rw [hsub]; omega)
            (by rw [List.length_drop, hbuf, hsub]; omega)
        refine ⟨err, _, copyChunks_succ .copyOut hpa hne hrest, ?_, ?_, ?_⟩
        · rw [memCopyChunk, List.length_append, length_loadBytes, hlen]
          omega
        · rw [hok, hsub]
          constructor
          · intro hall i hi
            rcases Nat.lt_or_ge i 4096 with hfirst | hlater
            · rw [Nat.div_eq_of_lt hfirst, Nat.zero_mul]
              exact fun hzero => hne (hnull.mpr hzero)
            · have hi' := hall (i - 4096) (by omega)
              have hidx : (i - 4096) / 4096 * 4096 + 4096 = i / 4096 * 4096 := by omega
              rwa [hidx] at hi'
          · intro hall i hi
            have hi' := hall (i + 4096) (by omega)
            rwa [Nat.add_div_right i (by decide), Nat.succ_mul] at hi'
        · intro herr i hi
          rw [memCopyChunk]
          rcases Nat.lt_or_ge i 4096 with hfirst | hlater
          · rw [List.getElem?_append_left (by rw [length_loadBytes]; omega),
              getElem?_loadBytes (by omega), hphys, chunkAddr_of_lt hfirst]
          · have hi' := hread herr (i - 4096) (by omega)
            rw [chunkAddr_tail, Nat.sub_add_cancel hlater] at hi'
            rw [List.getElem?_append_right (by rw [length_loadBytes]; omega), length_loadBytes,
              hchunk, Nat.min_eq_right (by omega), hi']

/-! ## Writing -/

/-- The loop stores every byte where it belongs, when every piece is physically consecutive,
none starts at the null address and no two bytes are one. -/
theorem copyChunks_in (buf : List (BitVec 8)) (ram : ℕ → BitVec 8)
    (h : Translated mmuVir2Phy space addr size.toNat phys)
    (hrounds : rounds = (size.toNat + 4095) / 4096) (hbuf : buf.length = size.toNat)
    (hchunks : ∀ i < size.toNat, chunkAddr phys i = phys i)
    (hnonnull : ∀ i < size.toNat, phys (i / 4096 * 4096) ≠ 0)
    (hinj : ∀ i < size.toNat, ∀ k < size.toNat, phys i = phys k → i = k) :
    ∃ ram', copyChunks mmuVir2Phy space .copyIn rounds addr buf size ram =
        .ok (.eok, buf, ram') ∧
      (∀ i < size.toNat, some (ram' (phys i)) = buf[i]?) ∧
      ∀ a, (∀ i < size.toNat, a ≠ phys i) → ram' a = ram a := by
  induction rounds generalizing addr size phys buf ram with
  | zero =>
      have hzero : size.toNat = 0 := by omega
      refine ⟨ram, rfl, ?_, fun a _ => rfl⟩
      intro i hi
      omega
  | succ rounds ih =>
      obtain ⟨pa, hpa, hphys, hnull⟩ := h.head (by omega)
      have hchunk := chunkSize_toNat size
      have hsub := sub_chunkSize_toNat size
      have hne : pa ≠ 0 := fun hzero => hnonnull 0 (by omega) (hnull.mp hzero)
      have htail := h.tail
      rw [← hsub] at htail
      have hidx : ∀ i, (i + 4096) / 4096 * 4096 = i / 4096 * 4096 + 4096 := fun i => by omega
      obtain ⟨ram', hrest, hstored, hkept⟩ := ih (buf.drop (chunkSize size).toNat)
        (storeBytes ram pa.toNat (buf.take (chunkSize size).toNat)) htail
        (by rw [hsub]; omega) (by rw [List.length_drop, hbuf, hsub]; omega)
        (fun i hi => by rw [chunkAddr_tail]; exact hchunks (i + 4096) (by omega))
        (fun i hi => by rw [← hidx]; exact hnonnull (i + 4096) (by omega))
        (fun i hi k hk heq => Nat.add_right_cancel (hinj _ (by omega) _ (by omega) heq))
      have hrun := copyChunks_succ .copyIn hpa hne hrest
      refine ⟨ram', ?_, ?_, ?_⟩
      · rw [hrun, memCopyChunk, List.take_append_drop]
      · intro i hi
        rcases Nat.lt_or_ge i 4096 with hfirst | hlater
        · -- the pieces behind store nothing into the first one
          have hbehind : ∀ k < (size - chunkSize size).toNat, phys i ≠ phys (k + 4096) := by
            intro k hk heq
            have hik := hinj i hi _ (by omega) heq
            omega
          have haddr : phys i = pa.toNat + i := by
            rw [hphys, ← chunkAddr_of_lt hfirst, hchunks i hi]
          have hlen : i < (chunkSize size).toNat := by omega
          rw [hkept _ hbehind, haddr, storeBytes_of_mem (Nat.le_add_right _ _)
            (by rw [List.length_take]; omega), Nat.add_sub_cancel_left,
            List.getElem?_take_of_lt hlen]
        · have hi' := hstored (i - 4096) (by omega)
          have hindex : min size.toNat 4096 + (i - 4096) = i := by omega
          rw [Nat.sub_add_cancel hlater] at hi'
          rw [hi', List.getElem?_drop, hchunk, hindex]
      · intro a ha
        rw [hkept a fun i hi => ha (i + 4096) (by omega)]
        refine storeBytes_of_notMem ?_
        rintro ⟨hlo, hhi⟩
        rw [List.length_take] at hhi
        have hfirst : a - pa.toNat < 4096 := by omega
        refine ha (a - pa.toNat) (by omega) ?_
        rw [← hchunks (a - pa.toNat) (by omega), chunkAddr_of_lt hfirst, ← hphys]
        omega

end Loop

/-! ## Right copies -/

def copyResult (size : BitVec 64) : NxError :=
  if size = 0 then .einval else .eok

/-- `NX_VmspaceWrite` stores every byte where its address leads and changes no other,
`NX_VmspaceRead` returns the bytes that are there, and so what was written. -/
structure CopiesRight (mmuVir2Phy : BitVec 64 → Exec (BitVec 64)) (space : Vmspace)
    (addr size : BitVec 64) (phys : ℕ → ℕ) : Prop where
  write : ∀ (ram : ℕ → BitVec 8) (buf : List (BitVec 8)), buf.length = size.toNat →
    ∃ ram', vmspaceWrite mmuVir2Phy space addr buf size ram = .ok (copyResult size, ram') ∧
      (∀ i < size.toNat, some (ram' (phys i)) = buf[i]?) ∧
      ∀ a, (∀ i < size.toNat, a ≠ phys i) → ram' a = ram a
  read : ∀ (ram : ℕ → BitVec 8) (buf : List (BitVec 8)), buf.length = size.toNat →
    ∃ buf', vmspaceRead mmuVir2Phy space addr buf size ram = .ok (copyResult size, buf') ∧
      buf'.length = size.toNat ∧ ∀ i < size.toNat, buf'[i]? = some (ram (phys i))
  readBack : ∀ (ram ram' : ℕ → BitVec 8) (buf buf' : List (BitVec 8)),
    buf.length = size.toNat → buf'.length = size.toNat →
    vmspaceWrite mmuVir2Phy space addr buf size ram = .ok (copyResult size, ram') →
    vmspaceRead mmuVir2Phy space addr buf' size ram' = .ok (copyResult size, buf)

/-- The bytes are apart, and each piece is physically consecutive and not at the null
address. -/
structure PiecesFit (phys : ℕ → ℕ) (size : ℕ) : Prop where
  consecutive : ∀ i < size, chunkAddr phys i = phys i
  nonnull : ∀ i < size, phys (i / 4096 * 4096) ≠ 0
  injective : ∀ i < size, ∀ k < size, phys i = phys k → i = k

section Right

variable {mmuVir2Phy : BitVec 64 → Exec (BitVec 64)} {space : Vmspace} {addr size : BitVec 64}
  {phys : ℕ → ℕ}

theorem vmspaceWrite_eq (haddr : addr ≠ 0) (hsize : size ≠ 0) (buf : List (BitVec 8))
    (ram : ℕ → BitVec 8) :
    vmspaceWrite mmuVir2Phy space addr buf size ram =
      (copyChunks mmuVir2Phy space .copyIn ((size.toNat + 4095) / 4096) addr buf size ram).map
        fun r => (r.1, r.2.2) := by
  rw [vmspaceWrite, if_neg (not_or.mpr ⟨haddr, hsize⟩), vmspaceCopyData, nxAssert_pos haddr,
    exec_ok_bind, nxAssert_pos hsize, exec_ok_bind]
  rfl

theorem vmspaceRead_eq (haddr : addr ≠ 0) (hsize : size ≠ 0) (buf : List (BitVec 8))
    (ram : ℕ → BitVec 8) :
    vmspaceRead mmuVir2Phy space addr buf size ram =
      (copyChunks mmuVir2Phy space .copyOut ((size.toNat + 4095) / 4096) addr buf size ram).map
        fun r => (r.1, r.2.1) := by
  rw [vmspaceRead, if_neg (not_or.mpr ⟨haddr, hsize⟩), vmspaceCopyData, nxAssert_pos haddr,
    exec_ok_bind, nxAssert_pos hsize, exec_ok_bind]
  rfl

theorem copiesRight_of_fit (h : Translated mmuVir2Phy space addr size.toNat phys)
    (haddr : addr ≠ 0) (hsize : size ≠ 0) (hfit : PiecesFit phys size.toNat) :
    CopiesRight mmuVir2Phy space addr size phys := by
  have hresult : copyResult size = .eok := if_neg hsize
  have hwrite : ∀ (ram : ℕ → BitVec 8) (buf : List (BitVec 8)), buf.length = size.toNat →
      ∃ ram', vmspaceWrite mmuVir2Phy space addr buf size ram = .ok (copyResult size, ram') ∧
        (∀ i < size.toNat, some (ram' (phys i)) = buf[i]?) ∧
        ∀ a, (∀ i < size.toNat, a ≠ phys i) → ram' a = ram a := by
    intro ram buf hbuf
    obtain ⟨ram', hrun, hstored, hkept⟩ :=
      copyChunks_in buf ram h rfl hbuf hfit.consecutive hfit.nonnull hfit.injective
    refine ⟨ram', ?_, hstored, hkept⟩
    rw [vmspaceWrite_eq haddr hsize, hrun, hresult]
    rfl
  have hread : ∀ (ram : ℕ → BitVec 8) (buf : List (BitVec 8)), buf.length = size.toNat →
      ∃ buf', vmspaceRead mmuVir2Phy space addr buf size ram = .ok (copyResult size, buf') ∧
        buf'.length = size.toNat ∧ ∀ i < size.toNat, buf'[i]? = some (ram (phys i)) := by
    intro ram buf hbuf
    obtain ⟨err, buf', hrun, hlen, hok, hbytes⟩ := copyChunks_out ram buf h rfl hbuf
    have herr : err = .eok := hok.mpr hfit.nonnull
    refine ⟨buf', ?_, hlen, ?_⟩
    · rw [vmspaceRead_eq haddr hsize, hrun, hresult, herr]
      rfl
    · intro i hi
      rw [hbytes herr i hi, hfit.consecutive i hi]
  refine ⟨hwrite, hread, ?_⟩
  intro ram ram' buf buf' hbuf hbuf' hrun
  obtain ⟨ram'', hrun', hstored, -⟩ := hwrite ram buf hbuf
  rw [hrun] at hrun'
  cases hrun'
  obtain ⟨out, hrunRead, hlen, hbytes⟩ := hread ram' buf' hbuf'
  have hout : out = buf := by
    refine List.ext_getElem? fun i => ?_
    rcases Nat.lt_or_ge i size.toNat with hi | hi
    · rw [hbytes i hi, hstored i hi]
    · rw [List.getElem?_eq_none (by omega), List.getElem?_eq_none (by omega)]
  rw [hrunRead, hout]

/-- What is copied right has pieces that fit: reading finds every byte behind the start of its
piece, and two bytes at one address cannot both be stored. -/
theorem CopiesRight.fit (hright : CopiesRight mmuVir2Phy space addr size phys)
    (h : Translated mmuVir2Phy space addr size.toNat phys) (hsize : size ≠ 0) :
    addr ≠ 0 ∧ PiecesFit phys size.toNat := by
  have hresult : copyResult size = .eok := if_neg hsize
  have haddr : addr ≠ 0 := by
    intro hzero
    obtain ⟨buf', hrun, -, -⟩ :=
      hright.read (fun _ => 0) (List.replicate size.toNat 0) List.length_replicate
    rw [vmspaceRead, if_pos (Or.inl hzero), hresult] at hrun
    cases hrun
  have hread : ∀ ram : ℕ → BitVec 8, (∀ i < size.toNat, phys (i / 4096 * 4096) ≠ 0) ∧
      ∀ i < size.toNat, ram (chunkAddr phys i) = ram (phys i) := by
    intro ram
    have hlen : (List.replicate size.toNat (0 : BitVec 8)).length = size.toNat :=
      List.length_replicate
    obtain ⟨buf', hrun, -, hbytes⟩ := hright.read ram _ hlen
    obtain ⟨err, out, hchunks, -, hok, hfound⟩ := copyChunks_out ram _ h rfl hlen
    rw [vmspaceRead_eq haddr hsize, hchunks, hresult] at hrun
    cases hrun
    refine ⟨hok.mp rfl, fun i hi => ?_⟩
    exact Option.some_injective _ ((hfound rfl i hi).symm.trans (hbytes i hi))
  refine ⟨haddr, ⟨?_, (hread fun _ => 0).1, ?_⟩⟩
  · -- a memory in which only one byte is set shows where a byte is read
    intro i hi
    by_contra hne
    have hbyte := (hread fun a => if a = phys i then 1 else 0).2 i hi
    rw [if_neg hne, if_pos rfl] at hbyte
    exact absurd hbyte (by decide)
  · intro i hi k hk heq
    by_contra hne
    let buf : List (BitVec 8) := (List.replicate size.toNat 0).set i 1
    have hbuf : buf.length = size.toNat := by simp [buf]
    obtain ⟨ram', -, hstored, -⟩ := hright.write (fun _ => 0) buf hbuf
    have hi' := hstored i hi
    have hk' := hstored k hk
    rw [heq, hk'] at hi'
    have hset : buf[i]? = some 1 := by simp [buf, hi]
    have hrest : buf[k]? = some 0 := by simp [buf, hk, hne]
    rw [hset, hrest] at hi'
    exact absurd hi' (by decide)

/-- Copies are right exactly when there is nothing to copy or the pieces fit. -/
theorem copiesRight_iff_fit (h : Translated mmuVir2Phy space addr size.toNat phys) :
    CopiesRight mmuVir2Phy space addr size phys ↔
      size = 0 ∨ addr ≠ 0 ∧ PiecesFit phys size.toNat := by
  by_cases hsize : size = 0
  · refine iff_of_true ?_ (Or.inl hsize)
    have hresult : copyResult size = .einval := if_pos hsize
    have hnone : size.toNat = 0 := by
      rw [hsize]
      rfl
    have hempty : ∀ {buf : List (BitVec 8)}, buf.length = size.toNat → buf = [] := fun hbuf =>
      List.eq_nil_of_length_eq_zero (hbuf.trans hnone)
    refine ⟨?_, ?_, ?_⟩
    · intro ram buf hbuf
      refine ⟨ram, ?_, fun i hi => absurd hi (by omega), fun _ _ => rfl⟩
      rw [vmspaceWrite, if_pos (Or.inr hsize), hresult]
    · intro ram buf hbuf
      refine ⟨buf, ?_, hbuf, fun i hi => absurd hi (by omega)⟩
      rw [vmspaceRead, if_pos (Or.inr hsize), hresult]
    · intro ram ram' buf buf' hbuf hbuf' _
      rw [vmspaceRead, if_pos (Or.inr hsize), hresult, hempty hbuf, hempty hbuf']
  · constructor
    · intro hright
      exact Or.inr (hright.fit h hsize)
    · rintro (hzero | ⟨haddr, hfit⟩)
      · exact absurd hzero hsize
      · exact copiesRight_of_fit h haddr hsize hfit

end Right

/-! ## Pages -/

/-- The physical address of byte `i` behind `addr`, where `frame` gives the frames of the
pages. -/
def physical (frame : ℕ → ℕ) (addr i : ℕ) : ℕ :=
  frame ((addr + i) / 4096) * 4096 + (addr + i) % 4096

structure PageOf (addr size p : ℕ) : Prop where
  le : addr / 4096 ≤ p
  lt : p * 4096 < addr + size

/-- The pages of the range are mapped to these frames. -/
def RangeMapped (mmuVir2Phy : BitVec 64 → Exec (BitVec 64)) (frame : ℕ → ℕ) (addr : BitVec 64)
    (size : ℕ) : Prop :=
  ∀ va : BitVec 64, addr.toNat ≤ va.toNat → va.toNat < addr.toNat + size →
    ∃ pa, mmuVir2Phy va = .ok pa ∧
      pa.toNat = frame (va.toNat / 4096) * 4096 + va.toNat % 4096

/-- The condition for right copies: from an aligned address the pages have different frames and
not frame zero, and from another one their frames are consecutive. -/
def CopyFits (frame : ℕ → ℕ) (addr size : ℕ) : Prop :=
  (addr % 4096 = 0 ∧ (∀ p, PageOf addr size p → frame p ≠ 0) ∧
      ∀ p, PageOf addr size p → ∀ q, PageOf addr size q → frame p = frame q → p = q) ∨
    (addr % 4096 ≠ 0 ∧ ∀ p, PageOf addr size p → PageOf addr size (p + 1) →
      frame (p + 1) = frame p + 1)

section Pages

variable {frame : ℕ → ℕ} {addr size i p : ℕ}

theorem pageOf_byte (hi : i < size) : PageOf addr size ((addr + i) / 4096) := by
  constructor <;> omega

/-- Where the loop finds a byte: as far behind the start of the page in which its piece
starts. -/
theorem chunkAddr_physical (frame : ℕ → ℕ) (addr i : ℕ) :
    chunkAddr (physical frame addr) i =
      frame (addr / 4096 + i / 4096) * 4096 + addr % 4096 + i % 4096 := by
  have hpage : (addr + i / 4096 * 4096) / 4096 = addr / 4096 + i / 4096 := by omega
  have hoff : (addr + i / 4096 * 4096) % 4096 = addr % 4096 := by omega
  rw [chunkAddr, physical, hpage, hoff]

theorem physical_aligned (haligned : addr % 4096 = 0) (frame : ℕ → ℕ) (i : ℕ) :
    physical frame addr i = frame (addr / 4096 + i / 4096) * 4096 + i % 4096 := by
  have hpage : (addr + i) / 4096 = addr / 4096 + i / 4096 := by omega
  have hoff : (addr + i) % 4096 = i % 4096 := by omega
  rw [physical, hpage, hoff]

theorem piecesFit_aligned_iff (haligned : addr % 4096 = 0) :
    PiecesFit (physical frame addr) size ↔
      (∀ p, PageOf addr size p → frame p ≠ 0) ∧
        ∀ p, PageOf addr size p → ∀ q, PageOf addr size q → frame p = frame q → p = q := by
  have hphys := physical_aligned haligned frame
  have hstart : ∀ p, PageOf addr size p → (p - addr / 4096) * 4096 < size ∧
      physical frame addr ((p - addr / 4096) * 4096) = frame p * 4096 := by
    rintro p ⟨hlo, hhi⟩
    refine ⟨by rw [Nat.sub_mul]; omega, ?_⟩
    rw [hphys, Nat.mul_div_cancel _ (by decide), Nat.mul_mod_left, Nat.add_sub_cancel' hlo,
      Nat.add_zero]
  constructor
  · intro hfit
    constructor
    · intro p hp hzero
      obtain ⟨hlt, heq⟩ := hstart p hp
      refine hfit.nonnull _ hlt ?_
      rw [Nat.mul_div_cancel _ (by decide), heq, hzero, Nat.zero_mul]
    · intro p hp q hq hsame
      obtain ⟨hltp, heqp⟩ := hstart p hp
      obtain ⟨hltq, heqq⟩ := hstart q hq
      have hindex := hfit.injective _ hltp _ hltq (by rw [heqp, heqq, hsame])
      have hp' := hp.le
      have hq' := hq.le
      omega
  · rintro ⟨hnonzero, hinj⟩
    refine ⟨?_, ?_, ?_⟩
    · intro i hi
      rw [chunkAddr_physical, hphys, haligned, Nat.add_zero]
    · intro i hi
      have hpage : PageOf addr size (addr / 4096 + i / 4096) := ⟨by omega, by omega⟩
      have hne := hnonzero _ hpage
      rw [hphys, Nat.mul_div_cancel _ (by decide), Nat.mul_mod_left]
      omega
    · intro i hi k hk heq
      rw [hphys, hphys] at heq
      have hpages := hinj _ ⟨by omega, by omega⟩ _ ⟨by omega, by omega⟩
        (show frame (addr / 4096 + i / 4096) = frame (addr / 4096 + k / 4096) by omega)
      omega

theorem physical_consecutive
    (hnext : ∀ p, PageOf addr size p → PageOf addr size (p + 1) → frame (p + 1) = frame p + 1)
    (hi : i < size) :
    physical frame addr i = frame (addr / 4096) * 4096 + addr % 4096 + i := by
  have hframes : ∀ k, PageOf addr size (addr / 4096 + k) →
      frame (addr / 4096 + k) = frame (addr / 4096) + k := by
    intro k hk
    induction k with
    | zero => rfl
    | succ k ih =>
        have hk' : PageOf addr size (addr / 4096 + k) := by
          have hlt : (addr / 4096 + k) * 4096 < (addr / 4096 + (k + 1)) * 4096 :=
            Nat.mul_lt_mul_of_pos_right (Nat.lt_succ_self _) (by decide)
          exact ⟨Nat.le_add_right _ _, hlt.trans hk.lt⟩
        rw [← Nat.add_assoc, hnext _ hk' hk, ih hk']
        omega
  obtain ⟨k, hk⟩ : ∃ k, (addr + i) / 4096 = addr / 4096 + k :=
    ⟨(addr + i) / 4096 - addr / 4096, by omega⟩
  rw [physical, hk, hframes k (hk ▸ pageOf_byte hi)]
  omega

theorem piecesFit_unaligned_iff (hunaligned : addr % 4096 ≠ 0) :
    PiecesFit (physical frame addr) size ↔
      ∀ p, PageOf addr size p → PageOf addr size (p + 1) → frame (p + 1) = frame p + 1 := by
  constructor
  · rintro hfit p ⟨hlo, -⟩ ⟨-, hhi⟩
    -- the first byte of the page behind lies within a piece
    obtain ⟨k, rfl⟩ : ∃ k, p = addr / 4096 + k := ⟨p - addr / 4096, by omega⟩
    have hbyte := hfit.consecutive (k * 4096 + (4096 - addr % 4096)) (by omega)
    have hpage : (addr + (k * 4096 + (4096 - addr % 4096))) / 4096 = addr / 4096 + k + 1 := by
      omega
    have hoff : (addr + (k * 4096 + (4096 - addr % 4096))) % 4096 = 0 := by omega
    have hpiece : (k * 4096 + (4096 - addr % 4096)) / 4096 = k := by omega
    have hrest : (k * 4096 + (4096 - addr % 4096)) % 4096 = 4096 - addr % 4096 := by omega
    rw [chunkAddr_physical, physical, hpage, hoff, hpiece, hrest] at hbyte
    omega
  · intro hnext
    have hphys := fun {i} (hi : i < size) => physical_consecutive hnext hi
    refine ⟨?_, ?_, ?_⟩
    · intro i hi
      rw [chunkAddr, hphys (by omega), hphys hi]
      omega
    · intro i hi
      rw [hphys (by omega)]
      omega
    · intro i hi k hk heq
      rw [hphys hi, hphys hk] at heq
      omega

/-- The pieces of a range fit exactly under this condition on its frames. -/
theorem piecesFit_iff : PiecesFit (physical frame addr) size ↔ CopyFits frame addr size := by
  by_cases haligned : addr % 4096 = 0
  · simp only [CopyFits, haligned, piecesFit_aligned_iff haligned, true_and, ne_eq,
      not_true_eq_false, false_and, or_false]
  · simp only [CopyFits, haligned, piecesFit_unaligned_iff haligned, false_and, ne_eq,
      not_false_eq_true, true_and, false_or]

end Pages

theorem RangeMapped.translated {mmuVir2Phy : BitVec 64 → Exec (BitVec 64)} {space : Vmspace}
    {frame : ℕ → ℕ} {addr size : BitVec 64} (h : RangeMapped mmuVir2Phy frame addr size.toNat)
    (htable : space.table = true) (hbase : space.spaceBase ≤ addr)
    (htop : addr.toNat + size.toNat ≤ space.spaceTop.toNat) :
    Translated mmuVir2Phy space addr size.toNat (physical frame addr.toNat) := by
  intro i hi
  have hlt := space.spaceTop.isLt
  have hva : (addr + BitVec.ofNat 64 i).toNat = addr.toNat + i := by
    rw [BitVec.toNat_add, BitVec.toNat_ofNat, Nat.mod_eq_of_lt (by omega : i < 2 ^ 64)]
    exact Nat.mod_eq_of_lt (by omega)
  have hbase' : space.spaceBase.toNat ≤ addr.toNat := hbase
  have hin : ¬(addr + BitVec.ofNat 64 i < space.spaceBase ∨
      space.spaceTop ≤ addr + BitVec.ofNat 64 i) := by
    rw [BitVec.lt_def, BitVec.le_def, hva]
    omega
  obtain ⟨pa, hpa, hphys⟩ := h (addr + BitVec.ofNat 64 i) (by omega) (by omega)
  refine ⟨pa, ?_, ?_⟩
  · rw [vmspaceVirToPhy, if_neg (by rw [htable]; decide), if_neg hin, hpa]
  · rw [hphys, hva, physical]

theorem rangeMapped_halVir2Phy {zone : ℕ → Bool} {platform : Riscv64.Platform} {root : ℕ}
    {σ : Riscv64.MmuState} (h : Riscv64.TableInv zone root σ) {frame : ℕ → ℕ} {addr : BitVec 64}
    {size : ℕ} (hfits : addr.toNat + size ≤ 2 ^ 39)
    (hmapped : ∀ p, PageOf addr.toNat size p → σ.mapped p = some (frame p))
    (hframe : ∀ p, PageOf addr.toNat size p → frame p < 2 ^ 52) :
    RangeMapped (Riscv64.halVir2Phy zone platform root σ) frame addr size := by
  intro va hlo hhi
  have hpage : PageOf addr.toNat size (va.toNat / 4096) := ⟨by omega, by omega⟩
  have hlt := hframe _ hpage
  have haddr : (Riscv64.pageAddr (frame (va.toNat / 4096))).toNat =
      frame (va.toNat / 4096) * 4096 := by
    rw [Riscv64.pageAddr, BitVec.toNat_ofNat]
    exact Nat.mod_eq_of_lt (by omega)
  have hoff : (va % 4096).toNat = va.toNat % 4096 := rfl
  refine ⟨Riscv64.pageAddr (frame (va.toNat / 4096)) + va % 4096, ?_, ?_⟩
  · rw [Riscv64.halVir2Phy_eq h (by omega), Riscv64.pageOf, hmapped _ hpage]
  · rw [BitVec.toNat_add_of_lt (by omega), haddr, hoff]

/-- Copies between a buffer and a mapped range of a space are right exactly when there is
nothing to copy or the frames of the range fit its start. -/
theorem vmspaceCopies_right_iff {mmuVir2Phy : BitVec 64 → Exec (BitVec 64)} {space : Vmspace}
    {frame : ℕ → ℕ} {addr size : BitVec 64} (htable : space.table = true)
    (hbase : space.spaceBase ≤ addr) (htop : addr.toNat + size.toNat ≤ space.spaceTop.toNat)
    (hmapped : RangeMapped mmuVir2Phy frame addr size.toNat) :
    CopiesRight mmuVir2Phy space addr size (physical frame addr.toNat) ↔
      size = 0 ∨ addr ≠ 0 ∧ CopyFits frame addr.toNat size.toNat := by
  rw [copiesRight_iff_fit (hmapped.translated htable hbase htop), piecesFit_iff]

def tableSpace : Vmspace where
  nodes := []
  table := true
  spaceBase := 0x200000000
  spaceTop := 0x300000000
  heapStart := 0x200000000
  heapEnd := 0x200000000
  heapCurrent := 0x200000000
  mapStart := 0x200000000
  mapEnd := 0x300000000

def nextVir2Phy (va : BitVec 64) : Exec (BitVec 64) :=
  .ok (va + 0x1000)

/-- Over consecutive frames a range that starts within a page is copied right. -/
theorem vmspaceCopies_right_iff_consecutive :
    CopiesRight nextVir2Phy tableSpace 0x200000ff0 0x20
      (physical (fun p => p + 1) (0x200000ff0 : BitVec 64).toNat) := by
  have hmapped : RangeMapped nextVir2Phy (fun p => p + 1) 0x200000ff0
      (0x20 : BitVec 64).toNat := by
    intro va hlo hhi
    have hlo' : 0x200000ff0 ≤ va.toNat := hlo
    have hhi' : va.toNat < 0x200000ff0 + 0x20 := hhi
    have hpage : (0x1000 : BitVec 64).toNat = 0x1000 := rfl
    refine ⟨_, rfl, ?_⟩
    rw [BitVec.toNat_add_of_lt (by omega), hpage]
    dsimp only
    omega
  refine (vmspaceCopies_right_iff rfl (by decide) (by decide) hmapped).mpr
    (Or.inr ⟨by decide, Or.inr ⟨by decide, fun p _ _ => rfl⟩⟩)

def swappedVir2Phy (va : BitVec 64) : Exec (BitVec 64) :=
  if va.toNat / 4096 = 0x200000 then .ok (0x7000 + va % 4096)
  else if va.toNat / 4096 = 0x200001 then .ok (0x5000 + va % 4096)
  else .error .panic

def swappedFrame (p : ℕ) : ℕ :=
  if p = 0x200000 then 7 else 5

/-- Two bytes across the end of a page are not copied right. -/
theorem exists_copies_not_right :
    ∃ (mmuVir2Phy : BitVec 64 → Exec (BitVec 64)) (space : Vmspace) (frame : ℕ → ℕ)
      (addr size : BitVec 64), space.table = true ∧ space.spaceBase ≤ addr ∧
      addr.toNat + size.toNat ≤ space.spaceTop.toNat ∧
      RangeMapped mmuVir2Phy frame addr size.toNat ∧
      ¬CopiesRight mmuVir2Phy space addr size (physical frame addr.toNat) := by
  have hmapped : RangeMapped swappedVir2Phy swappedFrame 0x200000fff (2 : BitVec 64).toNat := by
    intro va hlo hhi
    have hva : va = 0x200000fff ∨ va = 0x200001000 := by
      have hlo' : 0x200000fff ≤ va.toNat := hlo
      have hhi' : va.toNat < 0x200000fff + 2 := hhi
      rcases Nat.lt_or_ge va.toNat 0x200001000 with hlt | hge
      · exact Or.inl (BitVec.eq_of_toNat_eq (show va.toNat = 0x200000fff by omega))
      · exact Or.inr (BitVec.eq_of_toNat_eq (show va.toNat = 0x200001000 by omega))
    rcases hva with rfl | rfl
    · exact ⟨0x7fff, rfl, rfl⟩
    · exact ⟨0x5000, rfl, rfl⟩
  refine ⟨swappedVir2Phy, tableSpace, swappedFrame, 0x200000fff, 2, rfl, by decide, by decide,
    hmapped, fun hright => ?_⟩
  have htranslated : Translated swappedVir2Phy tableSpace 0x200000fff (2 : BitVec 64).toNat
      (physical swappedFrame (0x200000fff : BitVec 64).toNat) :=
    hmapped.translated rfl (by decide) (by decide)
  have hbyte := (hright.fit htranslated (by decide)).2.consecutive 1 (by decide)
  exact absurd hbyte (by decide)

end Nxos.Mm
