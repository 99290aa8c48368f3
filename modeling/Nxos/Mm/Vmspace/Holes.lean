import Nxos.Mm.Vmspace.Copy

/-!
# Addresses without a mapping

`NX_VmspaceVirToPhy` answers zero for an address outside its space, and its callers take zero
for an address that is not mapped.  For an address of the space it asks `NX_HalVir2Phy`, which
stops the kernel where the walk finds no valid leaf.  A loop that asks for one page after the
other therefore reports an unmapped page only when it does not get that far, because an
address before it was refused.
-/

namespace Nxos.Mm

open Nxos.Riscv64

/-! ## The leaf of an address -/

/-- The physical address that the entry of an address leads to, if it is a valid leaf. -/
def leafPhys (zone : ℕ → Bool) (platform : Platform) (root : ℕ) (σ : MmuState)
    (va : BitVec 64) : Option (BitVec 64) :=
  match pageWalk zone platform root σ va false with
  | .ok (some pte, σ) =>
      if pteUsed (σ.read pte) then some (pte2Paddr (σ.read pte) + va % 4096) else none
  | _ => none

def StopsAtHoles (mmuVir2Phy : BitVec 64 → Exec (BitVec 64))
    (phys : BitVec 64 → Option (BitVec 64)) : Prop :=
  ∀ va, mmuVir2Phy va =
    match phys va with
    | some pa => .ok pa
    | none => .error .panic

/-- `NX_HalVir2Phy` is such a translation. -/
theorem stopsAtHoles_halVir2Phy {zone : ℕ → Bool} (platform : Platform) {root : ℕ} {σ : MmuState}
    (h : TableInv zone root σ) :
    StopsAtHoles (halVir2Phy zone platform root σ) (leafPhys zone platform root σ) := by
  intro va
  unfold halVir2Phy leafPhys
  rw [pageWalk_read h, exec_ok_bind]
  cases Radix.follow (nextPage σ.mem) root [getLevelOff 2 va, getLevelOff 1 va] with
  | none => rfl
  | some t =>
      dsimp only [Option.map_some]
      cases hused : pteUsed (σ.read ⟨t, getLevelOff 0 va⟩) with
      | false => rfl
      | true => rfl

/-! ## Holes -/

section Holes

variable (space : Vmspace) (phys : BitVec 64 → Option (BitVec 64))

/-- The space has no page table, or the address is not within its bounds. -/
def OutOfSpace (va : BitVec 64) : Prop :=
  space.table = false ∨ va < space.spaceBase ∨ space.spaceTop ≤ va

/-- An address of the space without a leaf. -/
def Hole (va : BitVec 64) : Prop :=
  ¬OutOfSpace space va ∧ phys va = none

def Refused (va : BitVec 64) : Prop :=
  OutOfSpace space va ∨ phys va = some 0

/-- The start of the `i`-th page behind an address. -/
def pageAt (va : BitVec 64) (i : ℕ) : BitVec 64 :=
  va + BitVec.ofNat 64 (4096 * i)

/-- Before every hole among the first `n` pages there is an address that is refused. -/
def HolesHidden (va : BitVec 64) (n : ℕ) : Prop :=
  ∀ i < n, Hole space phys (pageAt va i) → ∃ j < i, Refused space phys (pageAt va j)

/-- The first `n` pages are mapped. -/
def PagesMapped (va : BitVec 64) (n : ℕ) : Prop :=
  ∀ i < n, ¬Hole space phys (pageAt va i) ∧ ¬Refused space phys (pageAt va i)

end Holes

section Pages

variable {space : Vmspace} {phys : BitVec 64 → Option (BitVec 64)} {va : BitVec 64} {n : ℕ}

@[simp] theorem pageAt_zero : pageAt va 0 = va :=
  BitVec.add_zero va

theorem pageAt_succ (i : ℕ) : pageAt va (i + 1) = pageAt (va + 4096) i := by
  unfold pageAt
  rw [Nat.mul_succ, Nat.add_comm, BitVec.ofNat_add, ← BitVec.add_assoc]
  rfl

theorem holesHidden_zero : HolesHidden space phys va 0 := fun i hi => absurd hi i.not_lt_zero

theorem pagesMapped_zero : PagesMapped space phys va 0 := fun i hi => absurd hi i.not_lt_zero

theorem holesHidden_succ : HolesHidden space phys va (n + 1) ↔
    ¬Hole space phys va ∧
      (Refused space phys va ∨ HolesHidden space phys (va + 4096) n) := by
  constructor
  · intro h
    refine ⟨fun hhole => ?_, ?_⟩
    · obtain ⟨j, hj, -⟩ := h 0 n.succ_pos (by rwa [pageAt_zero])
      exact absurd hj (Nat.not_lt_zero j)
    · by_cases hrefused : Refused space phys va
      · exact Or.inl hrefused
      · refine Or.inr fun i hi hhole => ?_
        obtain ⟨j, hj, hrefused'⟩ := h (i + 1) (Nat.succ_lt_succ hi) (by rwa [pageAt_succ])
        cases j with
        | zero =>
            rw [pageAt_zero] at hrefused'
            exact absurd hrefused' hrefused
        | succ j =>
            rw [pageAt_succ] at hrefused'
            exact ⟨j, Nat.lt_of_succ_lt_succ hj, hrefused'⟩
  · rintro ⟨hhead, htail⟩ i hi hhole
    cases i with
    | zero =>
        rw [pageAt_zero] at hhole
        exact absurd hhole hhead
    | succ i =>
        rcases htail with hrefused | htail
        · exact ⟨0, i.succ_pos, by rwa [pageAt_zero]⟩
        · rw [pageAt_succ] at hhole
          obtain ⟨j, hj, hrefused⟩ := htail i (Nat.lt_of_succ_lt_succ hi) hhole
          exact ⟨j + 1, Nat.succ_lt_succ hj, by rwa [pageAt_succ]⟩

theorem pagesMapped_succ : PagesMapped space phys va (n + 1) ↔
    (¬Hole space phys va ∧ ¬Refused space phys va) ∧
      PagesMapped space phys (va + 4096) n := by
  constructor
  · intro h
    refine ⟨?_, fun i hi => ?_⟩
    · have hfirst := h 0 n.succ_pos
      rwa [pageAt_zero] at hfirst
    · rw [← pageAt_succ]
      exact h (i + 1) (Nat.succ_lt_succ hi)
  · rintro ⟨hhead, htail⟩ i hi
    cases i with
    | zero =>
        rw [pageAt_zero]
        exact hhead
    | succ i =>
        rw [pageAt_succ]
        exact htail i (Nat.lt_of_succ_lt_succ hi)

/-! ## One address -/

variable {mmuVir2Phy : BitVec 64 → Exec (BitVec 64)}

/-- The three answers of `NX_VmspaceVirToPhy`. -/
theorem vmspaceVirToPhy_cases (space : Vmspace) (h : StopsAtHoles mmuVir2Phy phys)
    (va : BitVec 64) :
    (Hole space phys va ∧ vmspaceVirToPhy mmuVir2Phy space va = .error .panic) ∨
    (¬Hole space phys va ∧ Refused space phys va ∧
      vmspaceVirToPhy mmuVir2Phy space va = .ok 0) ∨
    (¬Hole space phys va ∧ ¬Refused space phys va ∧ ∃ pa, pa ≠ 0 ∧ phys va = some pa ∧
      vmspaceVirToPhy mmuVir2Phy space va = .ok pa) := by
  by_cases hout : OutOfSpace space va
  · refine Or.inr (Or.inl ⟨fun hhole => hhole.1 hout, Or.inl hout, ?_⟩)
    unfold vmspaceVirToPhy
    rcases hout with htable | hbounds
    · rw [if_pos htable]
    · rw [if_pos hbounds, ite_self]
  · have hrun : vmspaceVirToPhy mmuVir2Phy space va = mmuVir2Phy va := by
      rw [OutOfSpace, not_or] at hout
      rw [vmspaceVirToPhy, if_neg hout.1, if_neg hout.2]
    rw [hrun, h va]
    cases hphys : phys va with
    | none => exact Or.inl ⟨⟨hout, hphys⟩, rfl⟩
    | some pa =>
        have hleaf : ¬Hole space phys va := by
          rintro ⟨-, hnone⟩
          rw [hphys] at hnone
          cases hnone
        by_cases hzero : pa = 0
        · subst hzero
          exact Or.inr (Or.inl ⟨hleaf, Or.inr hphys, rfl⟩)
        · refine Or.inr (Or.inr ⟨hleaf, ?_, pa, hzero, rfl, rfl⟩)
          rintro (hin | hnull)
          · exact hout hin
          · rw [hphys] at hnull
            exact hzero (Option.some.inj hnull)

/-- The answer for an address is zero where there is no leaf. -/
def VirToPhyReports (mmuVir2Phy : BitVec 64 → Exec (BitVec 64)) (space : Vmspace)
    (phys : BitVec 64 → Option (BitVec 64)) (va : BitVec 64) : Prop :=
  ∃ pa, vmspaceVirToPhy mmuVir2Phy space va = .ok pa ∧ (phys va = none → pa = 0)

theorem virToPhyReports_iff (h : StopsAtHoles mmuVir2Phy phys) (va : BitVec 64) :
    VirToPhyReports mmuVir2Phy space phys va ↔ ¬Hole space phys va := by
  unfold VirToPhyReports
  rcases vmspaceVirToPhy_cases space h va with
    ⟨hhole, hrun⟩ | ⟨hleaf, -, hrun⟩ | ⟨hleaf, -, pa, -, hphys, hrun⟩
  · rw [hrun]
    exact iff_of_false nofun (not_not.mpr hhole)
  · exact iff_of_true ⟨0, hrun, fun _ => rfl⟩ hleaf
  · refine iff_of_true ⟨pa, hrun, fun hnone => ?_⟩ hleaf
    rw [hphys] at hnone
    cases hnone

/-! ## Copies -/

/-- The loop of `NX_VmspaceCopyData` ends, and with success only over mapped pages, exactly
when the holes are hidden. -/
theorem copyChunks_ends_iff (h : StopsAtHoles mmuVir2Phy phys) (direction : CopyDirection)
    {rounds : ℕ} {size : BitVec 64} (hrounds : rounds = (size.toNat + 4095) / 4096)
    (buf : List (BitVec 8)) (ram : ℕ → BitVec 8) :
    (∃ err buf' ram', copyChunks mmuVir2Phy space direction rounds va buf size ram =
        .ok (err, buf', ram') ∧ (err = .eok → PagesMapped space phys va rounds)) ↔
      HolesHidden space phys va rounds := by
  induction rounds generalizing va size buf ram with
  | zero => exact iff_of_true ⟨.eok, buf, ram, rfl, fun _ => pagesMapped_zero⟩ holesHidden_zero
  | succ rounds ih =>
      have hchunk := chunkSize_toNat size
      have hsub := sub_chunkSize_toNat size
      have htail : (rounds = 0) ∨ va + chunkSize size = va + 4096 := by
        rcases Nat.eq_zero_or_pos rounds with hzero | hpos
        · exact Or.inl hzero
        · refine Or.inr (congrArg (va + ·) (BitVec.eq_of_toNat_eq ?_))
          have hpage : (4096 : BitVec 64).toNat = 4096 := rfl
          rw [hpage]
          omega
      have hhidden : HolesHidden space phys (va + chunkSize size) rounds ↔
          HolesHidden space phys (va + 4096) rounds := by
        rcases htail with rfl | heq
        · exact iff_of_true holesHidden_zero holesHidden_zero
        · rw [heq]
      have hmapped : PagesMapped space phys (va + chunkSize size) rounds ↔
          PagesMapped space phys (va + 4096) rounds := by
        rcases htail with rfl | heq
        · exact iff_of_true pagesMapped_zero pagesMapped_zero
        · rw [heq]
      rw [holesHidden_succ, pagesMapped_succ, copyChunks]
      rcases vmspaceVirToPhy_cases space h va with
        ⟨hhole, hrun⟩ | ⟨hleaf, hrefused, hrun⟩ | ⟨hleaf, hnot, pa, hpa, -, hrun⟩
      · rw [hrun]
        refine iff_of_false ?_ fun hend => hend.1 hhole
        rintro ⟨_, _, _, heq, -⟩
        cases heq
      · rw [hrun, exec_ok_bind, if_pos rfl]
        refine iff_of_true ⟨.efault, buf, ram, rfl, fun herr => ?_⟩ ⟨hleaf, Or.inl hrefused⟩
        cases herr
      · have hrest : (¬Hole space phys va ∧
            (Refused space phys va ∨ HolesHidden space phys (va + 4096) rounds)) ↔
            HolesHidden space phys (va + chunkSize size) rounds := by
          rw [and_iff_right hleaf, or_iff_right hnot, hhidden]
        rw [hrun, exec_ok_bind, if_neg hpa, hrest,
          ← ih (by rw [hsub]; omega) (buf.drop (chunkSize size).toNat)
            (memCopyChunk direction ram pa buf (chunkSize size)).2]
        change (∃ err buf' ram', (copyChunks mmuVir2Phy space direction rounds
          (va + chunkSize size) (buf.drop (chunkSize size).toNat) (size - chunkSize size)
          (memCopyChunk direction ram pa buf (chunkSize size)).2 >>= _) = _ ∧ _) ↔ _
        cases copyChunks mmuVir2Phy space direction rounds (va + chunkSize size)
            (buf.drop (chunkSize size).toNat) (size - chunkSize size)
            (memCopyChunk direction ram pa buf (chunkSize size)).2 with
        | error f =>
            constructor
            · rintro ⟨_, _, _, heq, -⟩
              cases heq
            · rintro ⟨_, _, _, heq, -⟩
              cases heq
        | ok r =>
            obtain ⟨err, rest, ram'⟩ := r
            rw [exec_ok_bind]
            constructor
            · rintro ⟨_, _, _, heq, hpages⟩
              cases heq
              exact ⟨err, rest, ram', rfl, fun herr => hmapped.mpr (hpages herr).2⟩
            · rintro ⟨_, _, _, heq, hpages⟩
              cases heq
              exact ⟨err, _, ram', rfl, fun herr => ⟨⟨hleaf, hnot⟩, hmapped.mp (hpages herr)⟩⟩

end Pages

/-! ## Reading and writing -/

/-- The number of pieces that a copy is made in. -/
def copyPieces (size : BitVec 64) : ℕ :=
  (size.toNat + 4095) / 4096

section Calls

variable (mmuVir2Phy : BitVec 64 → Exec (BitVec 64)) (space : Vmspace)
  (phys : BitVec 64 → Option (BitVec 64)) (va size : BitVec 64) (buf : List (BitVec 8))
  (ram : ℕ → BitVec 8)

/-- `NX_VmspaceRead` returns, and with success only when its pieces are mapped. -/
def ReadReports : Prop :=
  ∃ err buf', vmspaceRead mmuVir2Phy space va buf size ram = .ok (err, buf') ∧
    (err = .eok → PagesMapped space phys va (copyPieces size))

/-- `NX_VmspaceWrite` returns, and with success only when its pieces are mapped. -/
def WriteReports : Prop :=
  ∃ err ram', vmspaceWrite mmuVir2Phy space va buf size ram = .ok (err, ram') ∧
    (err = .eok → PagesMapped space phys va (copyPieces size))

variable {mmuVir2Phy phys}

/-- A call that makes the pieces of a copy, and returns its error with a part of what it has
copied. -/
theorem copyReports_iff {β : Type} (h : StopsAtHoles mmuVir2Phy phys) (direction : CopyDirection)
    (part : List (BitVec 8) × (ℕ → BitVec 8) → β) :
    (∃ err b, (copyChunks mmuVir2Phy space direction ((size.toNat + 4095) / 4096) va buf size
        ram).map (fun r => (r.1, part r.2)) = .ok (err, b) ∧
      (err = .eok → PagesMapped space phys va (copyPieces size))) ↔
      HolesHidden space phys va (copyPieces size) := by
  rw [copyPieces, ← copyChunks_ends_iff h direction rfl buf ram]
  constructor
  · rintro ⟨err, b, hrun, hpages⟩
    obtain ⟨⟨err', buf', ram'⟩, hloop, heq⟩ := exec_map_eq_ok_iff.mp hrun
    cases heq
    exact ⟨err', buf', ram', hloop, hpages⟩
  · rintro ⟨err, buf', ram', hloop, hpages⟩
    exact ⟨err, _, exec_map_eq_ok_iff.mpr ⟨_, hloop, rfl⟩, hpages⟩

theorem readReports_iff (h : StopsAtHoles mmuVir2Phy phys) :
    ReadReports mmuVir2Phy space phys va size buf ram ↔
      (va = 0 ∨ size = 0) ∨ HolesHidden space phys va (copyPieces size) := by
  unfold ReadReports
  by_cases hargs : va = 0 ∨ size = 0
  · rw [vmspaceRead, if_pos hargs]
    refine iff_of_true ⟨.einval, buf, rfl, fun herr => ?_⟩ (Or.inl hargs)
    cases herr
  · obtain ⟨hva, hsize⟩ := not_or.mp hargs
    rw [vmspaceRead_eq hva hsize, or_iff_right hargs]
    exact copyReports_iff space va size buf ram h .copyOut Prod.fst

theorem writeReports_iff (h : StopsAtHoles mmuVir2Phy phys) :
    WriteReports mmuVir2Phy space phys va size buf ram ↔
      (va = 0 ∨ size = 0) ∨ HolesHidden space phys va (copyPieces size) := by
  unfold WriteReports
  by_cases hargs : va = 0 ∨ size = 0
  · rw [vmspaceWrite, if_pos hargs]
    refine iff_of_true ⟨.einval, ram, rfl, fun herr => ?_⟩ (Or.inl hargs)
    cases herr
  · obtain ⟨hva, hsize⟩ := not_or.mp hargs
    rw [vmspaceWrite_eq hva hsize, or_iff_right hargs]
    exact copyReports_iff space va size buf ram h .copyIn Prod.snd

end Calls

end Nxos.Mm
