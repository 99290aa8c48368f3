import Nxos.Arch.Riscv64.Space

/-!
# The memory system calls

`SysMemMap`, `SysMemUnmap` and `SysMemHeap` of `process/syscall.c` on riscv64.  Their
arguments are words that a user program chooses.  A call changes the space of its
process only through `mm/vmspace.c`, and in the end `NX_VmspaceExit` takes the space
down.

No assertion fails along a run as long as two things hold of every request that passes
the checks of `mm/vmspace.c`: a mapping is readable, writable or executable, and no
range wraps around.
-/

namespace Nxos.Process

open Nxos.Mm Nxos.Riscv64 Nxos.Transition

/-! ## System calls -/

/-- `NX_PROT_READ`. -/
def protRead : BitVec 32 := 0x01#32

/-- `NX_PROT_WRITE`. -/
def protWrite : BitVec 32 := 0x02#32

/-- `NX_PROT_EXEC`. -/
def protExec : BitVec 32 := 0x04#32

/-- `NX_PAGE_ATTR_READ`. -/
def pageAttrRead : BitVec 64 := 0x002#64

/-- `NX_PAGE_ATTR_WRITE`. -/
def pageAttrWrite : BitVec 64 := 0x006#64

/-- `NX_PAGE_ATTR_EXEC`. -/
def pageAttrExec : BitVec 64 := 0x008#64

/-- The attributes that `SysMemMap` makes of its argument. -/
def protAttr (prot : BitVec 32) : BitVec 64 :=
  let attr := pageAttrUser &&& ~~~pageAttrRwx
  let attr := if prot &&& protRead ≠ 0 then attr ||| pageAttrRead else attr
  let attr := if prot &&& protWrite ≠ 0 then attr ||| pageAttrWrite else attr
  if prot &&& protExec ≠ 0 then attr ||| pageAttrExec else attr

section Calls

variable {μ : Type} (M : Machine μ)

/-- `SysMemMap`.  What it copies out to the user is its result. -/
def sysMemMap (s : Vmspace) (m : μ) (addr length : BitVec 64) (prot : BitVec 32) :
    Exec (Except NxError (BitVec 64) × Vmspace × μ) :=
  if length = 0 ∨ prot = 0 then .ok (.error .einval, s, m)
  else vmspaceMap M s m addr length (protAttr prot) 0

/-- `SysMemUnmap`. -/
def sysMemUnmap (s : Vmspace) (m : μ) (addr length : BitVec 64) :
    Exec (NxError × Vmspace × μ) :=
  if addr = 0 ∨ length = 0 then .ok (.einval, s, m)
  else vmspaceUnmap M s m (pageAlignDown addr) length

/-- `SysMemHeap`. -/
def sysMemHeap (s : Vmspace) (m : μ) (addr : BitVec 64) :
    Exec (Except NxError (BitVec 64) × Vmspace × μ) :=
  vmspaceUpdateHeap M s m addr

inductive MemCall where
  | memMap (addr length : BitVec 64) (prot : BitVec 32)
  | memUnmap (addr length : BitVec 64)
  | memHeap (addr : BitVec 64)

def memCall (s : Vmspace) (m : μ) : MemCall → Exec (Vmspace × μ)
  | .memMap addr length prot => do
      let (_, s, m) ← sysMemMap M s m addr length prot
      return (s, m)
  | .memUnmap addr length => do
      let (_, s, m) ← sysMemUnmap M s m addr length
      return (s, m)
  | .memHeap addr => do
      let (_, s, m) ← sysMemHeap M s m addr
      return (s, m)

end Calls

variable {zone : ℕ → Bool} {platform : Platform} {root : ℕ}

/-! ## The space of a process -/

/-- A process whose space and heap are in order. -/
structure ProcessInv (zone : ℕ → Bool) (root : ℕ) (s : Vmspace) (σ : MmuState) : Prop where
  space : SpaceInv zone root s σ
  heap : HeapLayout s
  current : s.heapStart.toNat ≤ s.heapCurrent.toNat ∧ s.heapCurrent.toNat < s.heapEnd.toNat

theorem ProcessInv.with_supply {s : Vmspace} {σ : MmuState} (h : ProcessInv zone root s σ)
    (supply : List ℕ) : ProcessInv zone root s { σ with supply } :=
  ⟨h.space.of_mapped_eq ⟨h.space.user.tree.with_supply supply,
    h.space.user.leaves.leaf, h.space.user.leaves.refs⟩ rfl, h.heap, h.current⟩

theorem ProcessInv.of_space {s : Vmspace} {σ τ : MmuState} (h : ProcessInv zone root s σ)
    {nodes : List Vmnode} (hspace : SpaceInv zone root { s with nodes } τ) :
    ProcessInv zone root { s with nodes } τ :=
  ⟨hspace, { h.heap with }, h.current⟩

theorem ProcessInv.moveHeap {s : Vmspace} {σ : MmuState} (h : ProcessInv zone root s σ)
    {heapCurrent : BitVec 64} (hlow : s.heapStart.toNat ≤ heapCurrent.toNat)
    (hhigh : heapCurrent.toNat < s.heapEnd.toNat) :
    ProcessInv zone root { s with heapCurrent } σ :=
  ⟨{ h.space with layout := { h.space.layout with } }, { h.heap with }, hlow, hhigh⟩

/-! ## The condition -/

/-- The argument of `SysMemMap` asks for access of some kind. -/
theorem attrOk_protAttr {prot : BitVec 32}
    (h : prot &&& (protRead ||| protWrite ||| protExec) ≠ 0) : AttrOk (protAttr prot) := by
  have hsome : prot &&& protRead ≠ 0 ∨ prot &&& protWrite ≠ 0 ∨ prot &&& protExec ≠ 0 := by
    by_contra hnone
    simp only [not_or, not_not] at hnone
    obtain ⟨hread, hwrite, hexec⟩ := hnone
    apply h
    rw [BitVec.and_or_distrib_left, BitVec.and_or_distrib_left, hread, hwrite, hexec]
    rfl
  unfold protAttr
  dsimp only
  split_ifs with hexec hwrite hread hread hwrite hread hread
  any_goals (constructor <;> decide)
  exact absurd hsome (not_or.mpr ⟨hread, not_or.mpr ⟨hwrite, hexec⟩⟩)

/-- What a call has to keep to.  A range that passes the checks of `mm/vmspace.c` does not
wrap around, and a mapping can be accessed in some way. -/
def MemCall.Sound (s : Vmspace) : MemCall → Prop
  | .memMap addr length prot => ∀ start, MapPlaced s addr length (protAttr prot) start →
      prot &&& (protRead ||| protWrite ||| protExec) ≠ 0 ∧
        start.toNat + pageRoundUp length.toNat ≤ sv39Top.toNat
  | .memUnmap addr length => UnmapFits s (pageAlignDown addr) length
  | .memHeap _ => True

theorem MemCall.Sound.mapSound {s : Vmspace} {addr length : BitVec 64} {prot : BitVec 32}
    (h : (MemCall.memMap addr length prot).Sound s) :
    MapSound s addr length (protAttr prot) := by
  intro start hplaced
  obtain ⟨hprot, hend⟩ := h start hplaced
  exact ⟨attrOk_protAttr hprot, hend⟩

/-! ## One call -/

namespace ProcessInv

variable {s : Vmspace} {m : SpaceMem}

/-- `NX_VmspaceMap` keeps the process in order. -/
theorem vmspaceMap (platform : Platform) (h : ProcessInv zone root s m.mmu)
    (hs : FreeSupply zone root m.mmu) {addr size attr : BitVec 64}
    (hsound : MapSound s addr size attr) :
    ∃ r nodes m', vmspaceMap (mmuMachine zone platform root) s m addr size attr 0 =
      .ok (r, { s with nodes }, m') ∧ ProcessInv zone root { s with nodes } m'.mmu := by
  rcases h.space.vmspaceMap platform hs
      (show (0 : BitVec 32) &&& vmspaceDelayMap = 0 from rfl) hsound with
    ⟨err, m', hrun, hspace⟩ | ⟨a, nodes, m', g, hrun, -, hspace, -⟩
  · exact ⟨_, s.nodes, m', hrun, h.of_space hspace⟩
  · exact ⟨_, nodes, m', hrun, h.of_space hspace⟩

/-- `NX_VmspaceUnmap` keeps the process in order. -/
theorem vmspaceUnmap (platform : Platform) (h : ProcessInv zone root s m.mmu)
    {addr size : BitVec 64} (hfits : UnmapFits s addr size) :
    ∃ err nodes m', vmspaceUnmap (mmuMachine zone platform root) s m addr size =
      .ok (err, { s with nodes }, m') ∧ ProcessInv zone root { s with nodes } m'.mmu := by
  rcases h.space.vmspaceUnmap platform hfits with
    ⟨err, m', -, hmmu, hrun⟩ | ⟨nodes, m', hrun, hspace, -⟩
  · exact ⟨err, s.nodes, m', hrun, hmmu ▸ h⟩
  · exact ⟨.eok, nodes, m', hrun, h.of_space hspace⟩

/-- `NX_VmspaceUpdateHeap` keeps the process in order. -/
theorem vmspaceUpdateHeap (platform : Platform) (h : ProcessInv zone root s m.mmu)
    (hs : FreeSupply zone root m.mmu) (virAddr : BitVec 64) :
    ∃ r s' m', vmspaceUpdateHeap (mmuMachine zone platform root) s m virAddr =
      .ok (r, s', m') ∧ ProcessInv zone root s' m'.mmu := by
  unfold Mm.vmspaceUpdateHeap
  by_cases htable : ¬s.table
  · rw [if_pos htable]
    exact ⟨_, s, m, rfl, h⟩
  rw [if_neg htable]
  by_cases hzero : virAddr = 0
  · rw [if_pos hzero]
    exact ⟨_, s, m, rfl, h⟩
  rw [if_neg hzero]
  by_cases hlow : virAddr < s.heapStart
  · rw [if_pos hlow]
    exact ⟨_, s, m, rfl, h⟩
  rw [if_neg hlow]
  by_cases hhigh : s.heapEnd ≤ virAddr
  · rw [if_pos hhigh]
    exact ⟨_, s, m, rfl, h⟩
  rw [if_neg hhigh]
  rw [BitVec.lt_def, not_lt] at hlow
  rw [BitVec.le_def, not_le] at hhigh
  obtain ⟨hnew, hnewTop, hnewLe, hnewAl⟩ := pageAlignUp_of_lt hhigh h.heap.end_aligned
  obtain ⟨hold, holdTop, holdLe, holdAl⟩ := pageAlignUp_of_lt h.current.2 h.heap.end_aligned
  have hpos := h.heap.start_pos
  have hcurrent := h.current.1
  have htop := Nat.le_trans h.heap.end_le h.space.layout.top_le
  rw [← hnew] at hnewTop hnewLe hnewAl
  rw [← hold] at holdTop holdLe holdAl
  dsimp only
  by_cases heq : pageAlignUp virAddr = pageAlignUp s.heapCurrent
  · rw [if_pos heq]
    exact ⟨_, _, m, rfl, h.moveHeap hlow hhigh⟩
  rw [if_neg heq]
  by_cases hlt : pageAlignUp s.heapCurrent < pageAlignUp virAddr
  · rw [if_pos hlt]
    rw [BitVec.lt_def] at hlt
    obtain ⟨-, hround, -⟩ := HeapInv.pageRange_sub (pageAlignUp s.heapCurrent)
      (pageAlignUp virAddr) holdAl hnewAl hlt (by omega)
    have hsound : MapSound s (pageAlignUp s.heapCurrent)
        (pageAlignUp virAddr - pageAlignUp s.heapCurrent) pageAttrUser := by
      intro start hplaced
      rw [HeapInv.mapPlaced_start hplaced holdAl (by omega), hround]
      exact ⟨⟨by decide, by decide, by decide⟩, by omega⟩
    obtain ⟨r, nodes, m', hrun, hinv⟩ := h.vmspaceMap platform hs hsound
    unfold heapGrow
    rw [hrun, exec_ok_bind]
    cases r with
    | error err => exact ⟨_, _, m', rfl, hinv⟩
    | ok mapped =>
        dsimp only
        by_cases hmapped : mapped ≠ pageAlignUp s.heapCurrent
        · rw [if_pos hmapped]
          exact ⟨_, _, m', rfl, hinv⟩
        · rw [if_neg hmapped]
          exact ⟨_, _, m', rfl, hinv.moveHeap hlow hhigh⟩
  · rw [if_neg hlt]
    have hne : (pageAlignUp virAddr).toNat ≠ (pageAlignUp s.heapCurrent).toNat :=
      fun h => heq (BitVec.eq_of_toNat_eq h)
    rw [BitVec.lt_def] at hlt
    obtain ⟨-, hround, -⟩ := HeapInv.pageRange_sub (pageAlignUp virAddr)
      (pageAlignUp s.heapCurrent) hnewAl holdAl (by omega) (by omega)
    have hfits : UnmapFits s (pageAlignUp virAddr)
        (pageAlignUp s.heapCurrent - pageAlignUp virAddr) := by
      intro _ _
      have hword := s.heapEnd.isLt
      rw [hround]
      omega
    obtain ⟨err, nodes, m', hrun, hinv⟩ := h.vmspaceUnmap platform hfits
    unfold heapShrink
    rw [hrun, exec_ok_bind]
    dsimp only
    by_cases herr : err ≠ .eok
    · rw [if_pos herr]
      exact ⟨_, _, m', rfl, hinv⟩
    · rw [if_neg herr]
      exact ⟨_, _, m', rfl, hinv.moveHeap hlow hhigh⟩

theorem memCall (platform : Platform) (h : ProcessInv zone root s m.mmu)
    (hs : FreeSupply zone root m.mmu) {call : MemCall} (hsound : call.Sound s) :
    ∃ s' m', memCall (mmuMachine zone platform root) s m call = .ok (s', m') ∧
      ProcessInv zone root s' m'.mmu := by
  cases call with
  | memMap addr length prot =>
      unfold Process.memCall sysMemMap
      dsimp only
      by_cases hargs : length = 0 ∨ prot = 0
      · rw [if_pos hargs]
        exact ⟨s, m, rfl, h⟩
      · obtain ⟨r, nodes, m', hrun, hinv⟩ := h.vmspaceMap platform hs hsound.mapSound
        rw [if_neg hargs, hrun, exec_ok_bind]
        exact ⟨_, m', rfl, hinv⟩
  | memUnmap addr length =>
      unfold Process.memCall sysMemUnmap
      dsimp only
      by_cases hargs : addr = 0 ∨ length = 0
      · rw [if_pos hargs]
        exact ⟨s, m, rfl, h⟩
      · obtain ⟨err, nodes, m', hrun, hinv⟩ := h.vmspaceUnmap platform hsound
        rw [if_neg hargs, hrun, exec_ok_bind]
        exact ⟨_, m', rfl, hinv⟩
  | memHeap addr =>
      unfold Process.memCall sysMemHeap
      obtain ⟨r, s', m', hrun, hinv⟩ := h.vmspaceUpdateHeap platform hs addr
      dsimp only
      rw [hrun, exec_ok_bind]
      exact ⟨s', m', rfl, hinv⟩

end ProcessInv

/-! ## Runs -/

/-- A call, with the pages that `NX_PageAlloc` hands out during it and, for every node,
whether there is memory for it. -/
structure MemEvent where
  call : MemCall
  supply : List ℕ
  nodeMem : List Bool

def memStep (zone : ℕ → Bool) (platform : Platform) (root : ℕ) (p : Vmspace × MmuState)
    (e : MemEvent) : Exec (Vmspace × MmuState) := do
  let (s, m) ← memCall (mmuMachine zone platform root) p.1
    ⟨{ p.2 with supply := e.supply }, e.nodeMem⟩ e.call
  return (s, m.mmu)

/-- `NX_VmspaceExit` of the space. -/
def memExit (zone : ℕ → Bool) (platform : Platform) (root : ℕ) (p : Vmspace × MmuState) :
    Exec (NxError × Vmspace × SpaceMem) :=
  vmspaceExit (mmuMachine zone platform root) p.1 ⟨p.2, []⟩

/-- One call of a run.  What `NX_PageAlloc` hands out is free. -/
def MemMove (zone : ℕ → Bool) (platform : Platform) (root : ℕ) (p : Vmspace × MmuState)
    (e : MemEvent) (q : Vmspace × MmuState) : Prop :=
  FreeSupply zone root { p.2 with supply := e.supply } ∧ memStep zone platform root p e = .ok q

def SoundMove (zone : ℕ → Bool) (platform : Platform) (root : ℕ) (p : Vmspace × MmuState)
    (e : MemEvent) (q : Vmspace × MmuState) : Prop :=
  MemMove zone platform root p e q ∧ e.call.Sound p.1

theorem ProcessInv.memStep (platform : Platform) {p : Vmspace × MmuState} (h : ProcessInv zone root p.1 p.2)
    {e : MemEvent} (hs : FreeSupply zone root { p.2 with supply := e.supply })
    (hsound : e.call.Sound p.1) :
    ∃ q, memStep zone platform root p e = .ok q ∧ ProcessInv zone root q.1 q.2 := by
  obtain ⟨s', m', hrun, hinv⟩ := ProcessInv.memCall platform
    (m := ⟨{ p.2 with supply := e.supply }, e.nodeMem⟩) (h.with_supply e.supply) hs hsound
  refine ⟨(s', m'.mmu), ?_, hinv⟩
  unfold Process.memStep
  rw [hrun, exec_ok_bind]
  rfl

/-- In every state of a run whose calls keep to the condition, every further such call
returns, and so does `NX_VmspaceExit`. -/
theorem memReachable_returns {start p : Vmspace × MmuState}
    (hstart : ProcessInv zone root start.1 start.2)
    (hreach : Reachable (SoundMove zone platform root) start p) :
    (∀ e : MemEvent, FreeSupply zone root { p.2 with supply := e.supply } →
      e.call.Sound p.1 → ∃ q, memStep zone platform root p e = .ok q) ∧
    ∃ s' m', memExit zone platform root p = .ok (.eok, s', m') := by
  have hinv : ProcessInv zone root p.1 p.2 := by
    refine Reachable.invariant (P := fun p : Vmspace × MmuState =>
      ProcessInv zone root p.1 p.2) hreach hstart ?_
    rintro p e q hp ⟨⟨hs, hrun⟩, hsound⟩
    obtain ⟨q', hrun', hq⟩ := hp.memStep platform hs hsound
    rw [hrun] at hrun'
    cases hrun'
    exact hq
  constructor
  · intro e hs hsound
    obtain ⟨q, hrun, -⟩ := hinv.memStep platform hs hsound
    exact ⟨q, hrun⟩
  · obtain ⟨m', hrun, -⟩ := SpaceInv.vmspaceExit platform (m := ⟨p.2, []⟩) hinv.space
    exact ⟨_, m', hrun⟩

section Runs

def userSpace : Vmspace where
  nodes := []
  table := true
  spaceBase := 0x100000000#64
  spaceTop := 0x400000000#64
  heapStart := 0x200000000#64
  heapEnd := 0x300000000#64
  heapCurrent := 0x200000000#64
  mapStart := 0x300000000#64
  mapEnd := 0x380000000#64

theorem userSpace_layout : SpaceLayout userSpace := by
  constructor <;> decide

theorem emptyMmu_userInv (base : ℕ) : UserInv qemuZone 0x80000 base emptyMmu where
  tree := emptyMmu_emptyTable.tableInv (by decide)
  leaves :=
    { leaf := nofun
      refs := by
        intro p _
        have hzero : userCount base emptyMmu.mapped p = 0 := userCount_eq_zero fun _ _ _ => nofun
        rw [hzero]
        exact Nat.zero_le _ }

theorem userSpace_spaceInv : SpaceInv qemuZone 0x80000 userSpace emptyMmu where
  layout := userSpace_layout
  user := emptyMmu_userInv _
  nodes := ⟨.nil, nofun, List.nodup_nil⟩
  aligned := nofun
  pages := fun _ _ => Iff.rfl

theorem userSpace_processInv : ProcessInv qemuZone 0x80000 userSpace emptyMmu :=
  ⟨userSpace_spaceInv, by constructor <;> decide, by decide⟩

theorem emptyMmu_freeSupply :
    FreeSupply qemuZone 0x80000 { emptyMmu with supply := [0x80001, 0x80002, 0x80003] } where
  nodup := by decide
  free := by
    intro p hp
    have hbounds : ∀ p ∈ [0x80001, 0x80002, 0x80003],
        p ≠ 0 ∧ p < 2 ^ 28 ∧ qemuZone p = true ∧ p ≠ 0x80000 := by
      decide
    obtain ⟨hne, hlt, hzone, hroot⟩ := hbounds p hp
    exact ⟨hne, hlt, hzone, fun ht => hroot (emptyMmu_emptyTable.isTable ht), rfl⟩

def mapData : MemEvent :=
  ⟨.memMap 0 4096 0x3, [0x80001, 0x80002, 0x80003], [true]⟩

def faultOf {α : Type} : Exec α → Option Fault
  | .ok _ => none
  | .error f => some f

theorem exists_of_faultOf_eq_none {α : Type} {x : Exec α} (h : faultOf x = none) :
    ∃ a, x = .ok a := by
  cases x with
  | ok a => exact ⟨a, rfl⟩
  | error f => cases h

theorem eq_error_of_faultOf {α : Type} {x : Exec α} {f : Fault} (h : faultOf x = some f) :
    x = .error f := by
  cases x with
  | ok a => cases h
  | error g =>
      cases h
      rfl

def firstStep (e : MemEvent) : Exec (Vmspace × MmuState) :=
  memStep qemuZone .other 0x80000 (userSpace, emptyMmu) e

theorem userSpace_move {e : MemEvent}
    (hs : FreeSupply qemuZone 0x80000 { emptyMmu with supply := e.supply })
    (hrun : faultOf (firstStep e) = none) :
    ∃ p, MemMove qemuZone .other 0x80000 (userSpace, emptyMmu) e p ∧ firstStep e = .ok p := by
  obtain ⟨p, hp⟩ := exists_of_faultOf_eq_none hrun
  exact ⟨p, ⟨hs, hp⟩, hp⟩

theorem mapData_sound : mapData.call.Sound userSpace := by
  intro start hplaced
  obtain ⟨addr, haddr, rfl⟩ := hplaced.address
  have hstart : mapAddress userSpace 0 4096 (protAttr 0x3) = .ok 0x300000000 := by
    decide
  rw [hstart] at haddr
  cases haddr
  exact ⟨by decide, by decide⟩

theorem memReachable_returns_mapData :
    ∃ p, Reachable (SoundMove qemuZone .other 0x80000) (userSpace, emptyMmu) p ∧
      MemMove qemuZone .other 0x80000 (userSpace, emptyMmu) mapData p ∧
      ∃ s' m', memExit qemuZone .other 0x80000 p = .ok (.eok, s', m') := by
  obtain ⟨p, hmove, -⟩ := userSpace_move (e := mapData) emptyMmu_freeSupply (by decide +kernel)
  have hreach : Reachable (SoundMove qemuZone .other 0x80000) (userSpace, emptyMmu) p :=
    .tail .refl ⟨hmove, mapData_sound⟩
  exact ⟨p, hreach, hmove, (memReachable_returns userSpace_processInv hreach).2⟩

/-- Map a page with a bit of `prot` that means nothing. -/
def mapHidden : MemEvent :=
  ⟨.memMap 0 4096 0x8, [0x80001, 0x80002, 0x80003], [true]⟩

def mapWrapped : MemEvent :=
  ⟨.memMap 0x200000000 0xFFFFFFFF00000000 0x3, [], [true]⟩

def unmapWrapped : MemEvent :=
  ⟨.memUnmap 0x300000000 0xFFFFFFFD00001000, [], [true]⟩

theorem emptyMmu_noSupply {σ : MmuState} : FreeSupply qemuZone 0x80000 { σ with supply := [] } :=
  ⟨List.nodup_nil, nofun⟩

/-- An entry that cannot be accessed in any way is taken for one that leads to a table, and
the entries of a range that wraps around are not there. -/
theorem memReachable_faults :
    (∃ p, MemMove qemuZone .other 0x80000 (userSpace, emptyMmu) mapHidden p ∧
      memExit qemuZone .other 0x80000 p = .error .assertion) ∧
    (∃ p, MemMove qemuZone .other 0x80000 (userSpace, emptyMmu) mapWrapped p ∧
      memExit qemuZone .other 0x80000 p = .error .assertion) ∧
    ∃ p, MemMove qemuZone .other 0x80000 (userSpace, emptyMmu) mapData p ∧
      FreeSupply qemuZone 0x80000 { p.2 with supply := unmapWrapped.supply } ∧
      memStep qemuZone .other 0x80000 p unmapWrapped = .error .assertion := by
  refine ⟨?_, ?_, ?_⟩
  · obtain ⟨p, hmove, hrun⟩ := userSpace_move (e := mapHidden) emptyMmu_freeSupply
      (by decide +kernel)
    have hexit : faultOf (firstStep mapHidden >>= memExit qemuZone .other 0x80000) =
        some .assertion := by
      decide +kernel
    rw [hrun, exec_ok_bind] at hexit
    exact ⟨p, hmove, eq_error_of_faultOf hexit⟩
  · obtain ⟨p, hmove, hrun⟩ := userSpace_move (e := mapWrapped) emptyMmu_noSupply
      (by decide +kernel)
    have hexit : faultOf (firstStep mapWrapped >>= memExit qemuZone .other 0x80000) =
        some .assertion := by
      decide +kernel
    rw [hrun, exec_ok_bind] at hexit
    exact ⟨p, hmove, eq_error_of_faultOf hexit⟩
  · obtain ⟨p, hmove, hrun⟩ := userSpace_move (e := mapData) emptyMmu_freeSupply
      (by decide +kernel)
    have hunmap : faultOf (firstStep mapData >>= fun p =>
        memStep qemuZone .other 0x80000 p unmapWrapped) = some .assertion := by
      decide +kernel
    rw [hrun, exec_ok_bind] at hunmap
    exact ⟨p, hmove, emptyMmu_noSupply, eq_error_of_faultOf hunmap⟩

end Runs

end Nxos.Process
