import Nxos.Arch.Riscv64.Session
import Nxos.Ipc.Hub.Translate
import Nxos.Mm.Vmspace.Holes

/-!
# Buffers that are not mapped

`MapMdl` goes over the pages of a buffer before it maps any and gives up where one is not in
the space of the client.  It finds out with `NX_VmspaceVirToPhy`, which stops the kernel at
the first page of the space that has no mapping: a buffer that is not mapped is refused only
when the page that makes it so lies outside the space and no hole comes before it.
-/

namespace Nxos.Ipc

open Nxos.Mm Nxos.Riscv64

section Check

variable {π μ : Type} {H : HubMemory π μ} {σ : Spaces π μ} {source : π}
  {phys : BitVec 64 → Option (BitVec 64)}

/-- The first loop of `MapMdl` ends exactly when the holes are hidden. -/
theorem checkMdlPages_ends_iff (h : StopsAtHoles (H.mmuVir2Phy source σ.memory) phys) {n : ℕ}
    {va : BitVec 64} :
    (∃ mapped, checkMdlPages H source σ n va = .ok mapped) ↔
      HolesHidden (σ.vmspace source) phys va n := by
  induction n generalizing va with
  | zero => exact iff_of_true ⟨true, rfl⟩ holesHidden_zero
  | succ n ih =>
      rw [holesHidden_succ, checkMdlPages, spaceVirToPhy]
      rcases vmspaceVirToPhy_cases (σ.vmspace source) h va with
        ⟨hhole, hrun⟩ | ⟨hleaf, hrefused, hrun⟩ | ⟨hleaf, hnot, pa, hpa, -, hrun⟩
      · rw [hrun]
        refine iff_of_false ?_ fun hend => hend.1 hhole
        rintro ⟨_, heq⟩
        cases heq
      · rw [hrun, exec_ok_bind, if_pos rfl]
        exact iff_of_true ⟨false, rfl⟩ ⟨hleaf, Or.inl hrefused⟩
      · rw [hrun, exec_ok_bind, if_neg hpa, and_iff_right hleaf, or_iff_right hnot]
        exact ih

theorem checkMdlPages_true (h : StopsAtHoles (H.mmuVir2Phy source σ.memory) phys) {n : ℕ}
    {va : BitVec 64} (hrun : checkMdlPages H source σ n va = .ok true) :
    PagesMapped (σ.vmspace source) phys va n := by
  induction n generalizing va with
  | zero => exact pagesMapped_zero
  | succ n ih =>
      rw [checkMdlPages, spaceVirToPhy] at hrun
      rcases vmspaceVirToPhy_cases (σ.vmspace source) h va with
        ⟨-, hvir⟩ | ⟨-, -, hvir⟩ | ⟨hleaf, hnot, pa, hpa, -, hvir⟩
      · rw [hvir] at hrun
        cases hrun
      · rw [hvir, exec_ok_bind, if_pos rfl] at hrun
        cases hrun
      · rw [hvir, exec_ok_bind, if_neg hpa] at hrun
        exact pagesMapped_succ.mpr ⟨⟨hleaf, hnot⟩, ih hrun⟩

end Check

section Translate

variable {ι π μ : Type} [DecidableEq ι] [DecidableEq π] {H : HubMemory π μ}
  {process : HubThread ι → Option π} {cur sourceThread : HubThread ι} {source target : π}
  {channel : MdlChannel ι π} {hub : Bool} {addr size : BitVec 64} {σ : Spaces π μ}
  {phys : BitVec 64 → Option (BitVec 64)}

/-- The call passes the checks of `NX_HubTranslate` and `NX_HubMapAddr`, and there is memory
for the description. -/
structure ReachesMdl (H : HubMemory π μ) (channel : MdlChannel ι π) (cur : HubThread ι)
    (hub : Bool) (addr size : BitVec 64) (σ : Spaces π μ) : Prop where
  addr_ne : addr ≠ 0
  size_ne : size ≠ 0
  hub_true : hub = true
  target : channel.targetThread = some cur
  param : channelMatchParam addr channel = true
  room : channel.mdlList.length < hubParamNr
  memory : (H.memAllocMdl σ.memory).1 = true

/-- A call that does not reach `MapMdl` returns the null pointer. -/
theorem hubTranslate_of_not_reachesMdl (hprocess : process sourceThread = some source)
    (htarget : process cur = some target) (hchannel : channel.sourceThread = some sourceThread)
    (hnot : ¬ReachesMdl H channel cur hub addr size σ) :
    ∃ active σ', hubTranslate H process cur hub (some channel) addr size σ =
      .ok (0, active, σ') := by
  unfold hubTranslate
  by_cases hargs : addr = 0 ∨ size = 0
  · rw [if_pos hargs]
    exact ⟨_, _, rfl⟩
  rw [if_neg hargs]
  by_cases hhub : hub = false
  · rw [if_pos hhub]
    exact ⟨_, _, rfl⟩
  rw [if_neg hhub]
  dsimp only
  by_cases htarget' : channel.targetThread ≠ some cur
  · rw [if_pos htarget']
    exact ⟨_, _, rfl⟩
  rw [if_neg htarget', hchannel]
  dsimp only
  by_cases hparam : channelMatchParam addr channel = false
  · rw [if_pos hparam]
    exact ⟨_, _, rfl⟩
  rw [if_neg hparam, hubMapAddr, hprocess, htarget]
  dsimp only
  by_cases hroom : hubParamNr ≤ channel.mdlList.length
  · rw [if_pos hroom]
    exact ⟨_, _, rfl⟩
  rw [if_neg hroom]
  rcases halloc : H.memAllocMdl σ.memory with ⟨ok, m⟩
  cases ok with
  | false => exact ⟨_, _, rfl⟩
  | true =>
      obtain ⟨haddr, hsize⟩ := not_or.mp hargs
      refine absurd ⟨haddr, hsize, ?_, not_not.mp htarget', ?_, Nat.lt_of_not_le hroom, ?_⟩ hnot
      · exact (Bool.not_eq_false hub).mp hhub
      · exact (Bool.not_eq_false _).mp hparam
      · rw [halloc]

/-- A call that reaches `MapMdl` returns what that returns. -/
theorem hubTranslate_of_reachesMdl (hprocess : process sourceThread = some source)
    (htarget : process cur = some target) (hchannel : channel.sourceThread = some sourceThread)
    (h : ReachesMdl H channel cur hub addr size σ) :
    hubTranslate H process cur hub (some channel) addr size σ =
      mapMdl H (createMdl addr size target) source target
        { σ with memory := (H.memAllocMdl σ.memory).2 } >>= fun r =>
          .ok (if r.1 = 0 then
            (0, some channel, { r.2.2 with memory := H.memFreeMdl r.2.2.memory })
          else (r.1, some { channel with mdlList := r.2.1 :: channel.mdlList }, r.2.2)) := by
  have hmemory := h.memory
  unfold hubTranslate
  rw [if_neg (not_or.mpr ⟨h.addr_ne, h.size_ne⟩), if_neg (by rw [h.hub_true]; decide)]
  dsimp only
  rw [if_neg (not_not.mpr h.target), hchannel]
  dsimp only
  rw [if_neg (by rw [h.param]; decide), hubMapAddr, hprocess, htarget]
  dsimp only
  rw [if_neg (Nat.not_le_of_lt h.room)]
  rcases halloc : H.memAllocMdl σ.memory with ⟨ok, m⟩
  rw [halloc] at hmemory
  cases hmemory
  dsimp only
  cases mapMdl H (createMdl addr size target) source target { σ with memory := m } with
  | error f => rfl
  | ok r =>
      rw [exec_ok_bind, exec_ok_bind]
      by_cases hzero : r.1 = 0
      · rw [if_pos hzero, if_pos hzero]
        rfl
      · rw [if_neg hzero, if_neg hzero]
        rfl

/-- `NX_HubTranslate` returns the null pointer. -/
def TranslateReports (H : HubMemory π μ) (process : HubThread ι → Option π)
    (cur : HubThread ι) (hub : Bool) (channel : MdlChannel ι π) (addr size : BitVec 64)
    (σ : Spaces π μ) : Prop :=
  ∃ active σ', hubTranslate H process cur hub (some channel) addr size σ = .ok (0, active, σ')

/-- A buffer that is not mapped is reported unless the call reaches one of its holes. -/
theorem translateReports_iff (hprocess : process sourceThread = some source)
    (htarget : process cur = some target) (hchannel : channel.sourceThread = some sourceThread)
    (h : StopsAtHoles (H.mmuVir2Phy source (H.memAllocMdl σ.memory).2) phys)
    (hunmapped : ¬PagesMapped (σ.vmspace source) phys (pageAlignDown addr)
      (mappedPages addr size)) :
    TranslateReports H process cur hub channel addr size σ ↔
      (ReachesMdl H channel cur hub addr size σ →
        HolesHidden (σ.vmspace source) phys (pageAlignDown addr) (mappedPages addr size)) := by
  by_cases hreaches : ReachesMdl H channel cur hub addr size σ
  · rw [forall_prop_of_true hreaches,
      ← checkMdlPages_ends_iff (σ := { σ with memory := (H.memAllocMdl σ.memory).2 }) h]
    unfold TranslateReports
    rw [hubTranslate_of_reachesMdl hprocess htarget hchannel hreaches, mapMdl,
      createMdl_pageCount]
    change (∃ active σ', ((checkMdlPages H source { σ with memory := (H.memAllocMdl σ.memory).2 }
      (mappedPages addr size) (pageAlignDown addr) >>= _) >>= _) = _) ↔ _
    cases hcheck : checkMdlPages H source { σ with memory := (H.memAllocMdl σ.memory).2 }
        (mappedPages addr size) (pageAlignDown addr) with
    | error f => simp only [exec_error_bind, reduceCtorEq, exists_false]
    | ok mapped =>
        cases mapped with
        | true =>
            exact absurd (checkMdlPages_true
              (σ := { σ with memory := (H.memAllocMdl σ.memory).2 }) h hcheck) hunmapped
        | false => exact iff_of_true ⟨_, _, rfl⟩ ⟨false, rfl⟩
  · exact iff_of_true (hubTranslate_of_not_reachesMdl hprocess htarget hchannel hreaches)
      fun h => absurd h hreaches

/-- The calls on an address or a buffer that is not mapped end with an error exactly when
they do not reach a hole: an address of the space without a leaf. -/
theorem unmapped_reported_iff {zone : ℕ → Bool} {platform : Platform} {root : ℕ} {mmu : MmuState}
    (hinv : TableInv zone root mmu)
    (hvir : H.mmuVir2Phy source σ.memory = halVir2Phy zone platform root mmu)
    (halloc : H.mmuVir2Phy source (H.memAllocMdl σ.memory).2 = H.mmuVir2Phy source σ.memory)
    (hprocess : process sourceThread = some source) (htarget : process cur = some target)
    (hchannel : channel.sourceThread = some sourceThread) :
    (∀ va, VirToPhyReports (H.mmuVir2Phy source σ.memory) (σ.vmspace source)
        (leafPhys zone platform root mmu) va ↔
      ¬Hole (σ.vmspace source) (leafPhys zone platform root mmu) va) ∧
    (∀ va size buf ram,
      (ReadReports (H.mmuVir2Phy source σ.memory) (σ.vmspace source)
          (leafPhys zone platform root mmu) va size buf ram ↔
        (va = 0 ∨ size = 0) ∨
          HolesHidden (σ.vmspace source) (leafPhys zone platform root mmu) va (copyPieces size)) ∧
      (WriteReports (H.mmuVir2Phy source σ.memory) (σ.vmspace source)
          (leafPhys zone platform root mmu) va size buf ram ↔
        (va = 0 ∨ size = 0) ∨
          HolesHidden (σ.vmspace source) (leafPhys zone platform root mmu) va
            (copyPieces size))) ∧
    ∀ hub addr size,
      ¬PagesMapped (σ.vmspace source) (leafPhys zone platform root mmu) (pageAlignDown addr)
        (mappedPages addr size) →
      (TranslateReports H process cur hub channel addr size σ ↔
        (ReachesMdl H channel cur hub addr size σ →
          HolesHidden (σ.vmspace source) (leafPhys zone platform root mmu) (pageAlignDown addr)
            (mappedPages addr size))) := by
  have hstops : StopsAtHoles (H.mmuVir2Phy source σ.memory) (leafPhys zone platform root mmu) := by
    rw [hvir]
    exact stopsAtHoles_halVir2Phy platform hinv
  refine ⟨virToPhyReports_iff hstops, fun va size buf ram => ⟨?_, ?_⟩, ?_⟩
  · exact readReports_iff _ va size buf ram hstops
  · exact writeReports_iff _ va size buf ram hstops
  · intro hub addr size hunmapped
    exact translateReports_iff hprocess htarget hchannel (halloc ▸ hstops) hunmapped

end Translate

def emptyMemory : HubMemory Bool Unit where
  machine _ := generousMachine
  mmuVir2Phy _ _ := halVir2Phy qemuZone .other 0x80000 emptyMmu
  memAllocMdl m := (true, m)
  memFreeMdl m := m

def emptySpaces : Spaces Bool Unit where
  vmspace _ := areaSpace []
  memory := ()

/-- Outside the space of the client an address is answered with zero. -/
theorem unmapped_reported_iff_outside :
    VirToPhyReports (halVir2Phy qemuZone .other 0x80000 emptyMmu) (areaSpace [])
      (leafPhys qemuZone .other 0x80000 emptyMmu) 0x1000 := by
  have htable : TableInv qemuZone 0x80000 emptyMmu := emptyMmu_emptyTable.tableInv (by decide)
  obtain ⟨hanswers, -⟩ := unmapped_reported_iff htable
    (show emptyMemory.mmuVir2Phy false emptySpaces.memory =
      halVir2Phy qemuZone .other 0x80000 emptyMmu from rfl) rfl
    (show threadProcess (.client ()) = some false from rfl)
    (show threadProcess .server = some true from rfl)
    (show bufferChannel.sourceThread = some (.client ()) from rfl)
  refine (hanswers 0x1000).mpr fun hhole => hhole.1 (Or.inr (Or.inl ?_))
  dsimp only [emptySpaces, areaSpace]
  decide

/-- An address of the space without a mapping stops the kernel: the translation itself, a
copy, and the server that translates a buffer of its client. -/
theorem exists_unmapped_not_reported :
    leafPhys qemuZone .other 0x80000 emptyMmu 0x200000010 = none ∧
    vmspaceVirToPhy (halVir2Phy qemuZone .other 0x80000 emptyMmu) (areaSpace []) 0x200000010 =
      .error .panic ∧
    vmspaceRead (halVir2Phy qemuZone .other 0x80000 emptyMmu) (areaSpace []) 0x200000010 [0] 1
      (fun _ => 0) = .error .panic ∧
    hubTranslate emptyMemory threadProcess .server true (some bufferChannel) 0x200000010 0x1800
      emptySpaces = .error .panic :=
  ⟨rfl, rfl, rfl, rfl⟩

end Nxos.Ipc
