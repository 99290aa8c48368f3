import Nxos.Mm.Vmspace.Map

/-!
# The end of the map area

A request without an address is placed by `GetAddrFromMapArea`, which goes over the gaps in
front of the nodes of the map area.  It tests the end of the area with the size that is not
rounded yet, with a sum that wraps, and only when it visits a node; behind the last node it
tests nothing.  A mapping leaves the area exactly in these cases.
-/

namespace Nxos.Mm

variable {s : Vmspace} {size attr freeAddr addr : BitVec 64} {flags : BitVec 32}
variable {nodes : List Vmnode}

/-! ## The search -/

def InMapArea (s : Vmspace) (n : Vmnode) : Prop :=
  s.mapStart ≤ n.start ∧ n.stop ≤ s.mapEnd

instance (s : Vmspace) (n : Vmnode) : Decidable (InMapArea s n) :=
  inferInstanceAs (Decidable (_ ∧ _))

def gapStart (s : Vmspace) : BitVec 64 → List Vmnode → BitVec 64
  | freeAddr, [] => freeAddr
  | freeAddr, n :: rest => gapStart s (if InMapArea s n then n.stop else freeAddr) rest

/-- The search goes over the nodes and takes none of the gaps in front of them. -/
def Passes (s : Vmspace) (size : BitVec 64) : BitVec 64 → List Vmnode → Prop
  | _, [] => True
  | freeAddr, n :: rest =>
      (InMapArea s n → freeAddr + size ≤ s.mapEnd ∧ n.start < freeAddr + size) ∧
        Passes s size (if InMapArea s n then n.stop else freeAddr) rest

/-- The search takes the gap from `freeAddr` to the node. -/
structure TakesGap (s : Vmspace) (size freeAddr : BitVec 64) (n : Vmnode) : Prop where
  area : InMapArea s n
  room : freeAddr + size ≤ s.mapEnd
  fits : freeAddr + size ≤ n.start

/-- The search ends behind all nodes, or in front of the first node whose gap it takes. -/
inductive SearchEnds (s : Vmspace) (size freeAddr : BitVec 64) (nodes : List Vmnode)
    (addr : BitVec 64) : Prop
  | behind (hpasses : Passes s size freeAddr nodes) (haddr : gapStart s freeAddr nodes = addr)
  | inFront (front rest : List Vmnode) (n : Vmnode) (hnodes : nodes = front ++ n :: rest)
      (hpasses : Passes s size freeAddr front)
      (htakes : TakesGap s size (gapStart s freeAddr front) n)
      (haddr : gapStart s freeAddr front = addr)

theorem searchEnds_cons {n : Vmnode} {rest : List Vmnode} :
    SearchEnds s size freeAddr (n :: rest) addr ↔
      TakesGap s size freeAddr n ∧ freeAddr = addr ∨
      (InMapArea s n → freeAddr + size ≤ s.mapEnd ∧ n.start < freeAddr + size) ∧
        SearchEnds s size (if InMapArea s n then n.stop else freeAddr) rest addr := by
  constructor
  · rintro (⟨hpasses, haddr⟩ | ⟨front, rest', n', hnodes, hpasses, htakes, haddr⟩)
    · exact Or.inr ⟨hpasses.1, .behind hpasses.2 haddr⟩
    · cases front with
      | nil =>
          cases hnodes
          exact Or.inl ⟨htakes, haddr⟩
      | cons m front =>
          cases hnodes
          exact Or.inr ⟨hpasses.1, .inFront front rest' n' rfl hpasses.2 htakes haddr⟩
  · rintro (⟨htakes, haddr⟩ | ⟨hover, ⟨hpasses, haddr⟩ |
      ⟨front, rest', n', hnodes, hpasses, htakes, haddr⟩⟩)
    · exact .inFront [] rest n rfl trivial htakes haddr
    · exact .behind ⟨hover, hpasses⟩ haddr
    · exact .inFront (n :: front) rest' n' (congrArg (n :: ·) hnodes) ⟨hover, hpasses⟩ htakes haddr

theorem mapAreaLoop_eq_some_iff :
    mapAreaLoop s size freeAddr nodes = some addr ↔ SearchEnds s size freeAddr nodes addr := by
  induction nodes generalizing freeAddr with
  | nil =>
      rw [mapAreaLoop, Option.some_inj]
      constructor
      · exact fun h => .behind trivial h
      · rintro (⟨-, h⟩ | ⟨front, rest, n, h, -⟩)
        · exact h
        · exact absurd h.symm (List.append_ne_nil_of_right_ne_nil _ (List.cons_ne_nil _ _))
  | cons n rest ih =>
      rw [searchEnds_cons, mapAreaLoop]
      by_cases harea : InMapArea s n
      · rw [if_pos (show s.mapStart ≤ n.start ∧ n.stop ≤ s.mapEnd from harea), if_pos harea]
        split_ifs with hfull hfits
        · refine iff_of_false (fun hnone => by cases hnone) ?_
          rintro (⟨htakes, -⟩ | ⟨hover, -⟩)
          · exact absurd htakes.room (BitVec.not_le.mpr hfull)
          · exact absurd (hover harea).1 (BitVec.not_le.mpr hfull)
        · rw [Option.some_inj]
          constructor
          · exact fun h => Or.inl ⟨⟨harea, BitVec.not_lt.mp hfull, hfits⟩, h⟩
          · rintro (⟨-, h⟩ | ⟨hover, -⟩)
            · exact h
            · exact absurd hfits (BitVec.not_le.mpr (hover harea).2)
        · rw [ih]
          constructor
          · exact fun h => Or.inr ⟨fun _ => ⟨BitVec.not_lt.mp hfull, BitVec.not_le.mp hfits⟩, h⟩
          · rintro (⟨htakes, -⟩ | ⟨-, h⟩)
            · exact absurd htakes.fits hfits
            · exact h
      · rw [if_neg (show ¬(s.mapStart ≤ n.start ∧ n.stop ≤ s.mapEnd) from harea), if_neg harea,
          ih]
        constructor
        · exact fun h => Or.inr ⟨fun hin => absurd hin harea, h⟩
        · rintro (⟨htakes, -⟩ | ⟨-, h⟩)
          · exact absurd htakes.area harea
          · exact h

/-! ## Leaving the area -/

/-- A request that gets the address `addr` is not refused by what follows the search. -/
structure NotRefused (s : Vmspace) (size attr : BitVec 64) (flags : BitVec 32)
    (addr : BitVec 64) : Prop where
  size_ne : size ≠ 0
  attr_ne : attr ≠ 0
  free : vmspaceCheckAddrCollisions s.nodes (pageAlignDown addr) (pageAlignUp size) = false
  mapped : pageAlignDown addr ≠ 0 ∨ flags &&& vmspaceDelayMap ≠ 0

/-- The pages of a request at `addr` do not all lie in the map area. -/
def OverArea (s : Vmspace) (size addr : BitVec 64) : Prop :=
  (pageAlignDown addr).toNat < s.mapStart.toNat ∨
    s.mapEnd.toNat < (pageAlignDown addr).toNat + pageRoundUp size.toNat

/-- The cases in which a request without an address leaves the map area: there is too little
room behind the last node, the sum of a gap's start and the size wraps, or the size only
fits before it is rounded. -/
inductive Escapes (s : Vmspace) (size attr : BitVec 64) (flags : BitVec 32) : Prop
  | behind (hpasses : Passes s size s.mapStart s.nodes)
      (hgoes : NotRefused s size attr flags (gapStart s s.mapStart s.nodes))
      (hover : OverArea s size (gapStart s s.mapStart s.nodes))
  | wraps (front rest : List Vmnode) (n : Vmnode) (hnodes : s.nodes = front ++ n :: rest)
      (hpasses : Passes s size s.mapStart front)
      (htakes : TakesGap s size (gapStart s s.mapStart front) n)
      (hgoes : NotRefused s size attr flags (gapStart s s.mapStart front))
      (hwrap : 2 ^ 64 ≤ (gapStart s s.mapStart front).toNat + size.toNat)
  | rounds (front rest : List Vmnode) (n : Vmnode) (hnodes : s.nodes = front ++ n :: rest)
      (hpasses : Passes s size s.mapStart front)
      (htakes : TakesGap s size (gapStart s s.mapStart front) n)
      (hgoes : NotRefused s size attr flags (gapStart s s.mapStart front))
      (hexact : (gapStart s s.mapStart front).toNat + size.toNat < 2 ^ 64)
      (hover : OverArea s size (gapStart s s.mapStart front))

theorem overArea_of_wraps (h : 2 ^ 64 ≤ addr.toNat + size.toNat) : OverArea s size addr := by
  have hend := s.mapEnd.isLt
  refine Or.inr ?_
  unfold pageRoundUp
  rw [pageAlignDown_toNat]
  omega

theorem escapes_iff :
    Escapes s size attr flags ↔ ∃ addr, getAddrFromMapArea s size = some addr ∧
      NotRefused s size attr flags addr ∧ OverArea s size addr := by
  constructor
  · rintro (⟨hpasses, hgoes, hover⟩ | ⟨front, rest, n, hnodes, hpasses, htakes, hgoes, hwrap⟩ |
      ⟨front, rest, n, hnodes, hpasses, htakes, hgoes, -, hover⟩)
    · exact ⟨_, mapAreaLoop_eq_some_iff.mpr (.behind hpasses rfl), hgoes, hover⟩
    · exact ⟨_, mapAreaLoop_eq_some_iff.mpr (.inFront front rest n hnodes hpasses htakes rfl),
        hgoes, overArea_of_wraps hwrap⟩
    · exact ⟨_, mapAreaLoop_eq_some_iff.mpr (.inFront front rest n hnodes hpasses htakes rfl),
        hgoes, hover⟩
  · rintro ⟨addr, hsearch, hgoes, hover⟩
    cases mapAreaLoop_eq_some_iff.mp hsearch with
    | behind hpasses haddr =>
        subst haddr
        exact .behind hpasses hgoes hover
    | inFront front rest n hnodes hpasses htakes haddr =>
        subst haddr
        by_cases hwrap : 2 ^ 64 ≤ (gapStart s s.mapStart front).toNat + size.toNat
        · exact .wraps front rest n hnodes hpasses htakes hgoes hwrap
        · exact .rounds front rest n hnodes hpasses htakes hgoes (Nat.lt_of_not_le hwrap) hover

/-- What `mapAddress` gives to a request without an address. -/
theorem mapAddress_zero_eq_ok_iff :
    mapAddress s 0 size attr = .ok addr ↔
      size ≠ 0 ∧ attr ≠ 0 ∧ getAddrFromMapArea s size = some addr := by
  unfold mapAddress
  rw [if_neg (c := (0 : BitVec 64) ≠ 0 ∧ _) (fun h => h.1 rfl), if_pos rfl]
  by_cases hargs : size = 0 ∨ attr = 0
  · rw [if_pos hargs]
    refine iff_of_false nofun fun h => ?_
    exact hargs.elim h.1 h.2.1
  · rw [if_neg hargs]
    rw [not_or] at hargs
    cases getAddrFromMapArea s size with
    | none => exact iff_of_false nofun fun h => nomatch h.2.2
    | some a =>
        rw [Except.ok.injEq, Option.some_inj]
        exact ⟨fun h => ⟨hargs.1, hargs.2, h⟩, fun h => h.2.2⟩

/-- Whenever `NX_VmspaceMap` gives an address to a request, on every machine, the pages lie in
the map area, unless the search leaves it in one of the three ways. -/
theorem vmspaceMap_inMapArea_iff (s : Vmspace) {base top : BitVec 64}
    (hok : NodesOk base top s.nodes) (size attr : BitVec 64) (flags : BitVec 32) :
    (∀ (μ : Type) (M : Machine μ), M.MapReturns → ∀ (m m' : μ) (s' : Vmspace) (a : BitVec 64),
      vmspaceMap M s m 0 size attr flags = .ok (.ok a, s', m') →
        s.mapStart.toNat ≤ a.toNat ∧ a.toNat + pageRoundUp size.toNat ≤ s.mapEnd.toNat) ↔
      ¬Escapes s size attr flags := by
  rw [escapes_iff]
  constructor
  · rintro hall ⟨addr, hsearch, hgoes, hover⟩
    have hplaced : MapPlaced s 0 size attr (pageAlignDown addr) :=
      ⟨⟨addr, mapAddress_zero_eq_ok_iff.mpr ⟨hgoes.size_ne, hgoes.attr_ne, hsearch⟩, rfl⟩,
        hgoes.free⟩
    obtain ⟨s', hrun⟩ := vmspaceMapInternal_generous hok 0 hplaced hgoes.mapped
    obtain ⟨hlow, hhigh⟩ :=
      hall Unit generousMachine generousMachine_mapReturns () () s' _ hrun
    rcases hover with hlow' | hhigh' <;> omega
  · intro hstays μ M hM m m' s' a hrun
    have hin : ∀ {start}, MapPlaced s 0 size attr start →
        (start ≠ 0 ∨ flags &&& vmspaceDelayMap ≠ 0) → s.mapStart.toNat ≤ start.toNat ∧
          start.toNat + pageRoundUp size.toNat ≤ s.mapEnd.toNat := by
      rintro start ⟨⟨addr, haddr, rfl⟩, hfree⟩ hmapped
      obtain ⟨hsize, hattr, hsearch⟩ := mapAddress_zero_eq_ok_iff.mp haddr
      have hinside : ¬OverArea s size addr := fun hover =>
        hstays ⟨addr, hsearch, ⟨hsize, hattr, hfree, hmapped⟩, hover⟩
      rw [OverArea, not_or, Nat.not_lt, Nat.not_lt] at hinside
      exact hinside
    have hout := vmspaceMapInternal_outcome M hok m 0 0 size attr flags
    rw [show vmspaceMapInternal M s m 0 0 size attr flags = _ from hrun] at hout
    cases hout with
    | delayed start m' hplaced halloc hdelay => exact hin hplaced (Or.inr hdelay)
    | mapped start a m₁ m' hplaced halloc hmap ha hnow =>
        obtain ⟨addr, -, rfl⟩ := hplaced.address
        have haEq : a = pageAlignDown addr :=
          (hM.mapPages hmap ha).trans (pageAlignDown_idem addr)
        subst haEq
        exact hin hplaced (Or.inl ha)

/-- A page fits in front of the page that is mapped. -/
theorem vmspaceMap_inMapArea_iff_onePageSpace :
    ¬Escapes onePageSpace 0x1000 0x3F 0 ∧
      ∃ s', vmspaceMap generousMachine onePageSpace () 0 0x1000 0x3F 0 =
          .ok (.ok 0x300000000, s', ()) ∧
        (0x300000000#64).toNat + pageRoundUp (0x1000#64).toNat ≤ onePageSpace.mapEnd.toNat := by
  have hstays : ¬Escapes onePageSpace 0x1000 0x3F 0 := by
    rw [escapes_iff]
    rintro ⟨addr, hsearch, -, hover⟩
    cases hsearch
    revert hover
    unfold OverArea
    decide
  refine ⟨hstays, _, rfl, ?_⟩
  exact ((vmspaceMap_inMapArea_iff onePageSpace onePageSpace_nodesOk 0x1000 0x3F 0).mpr hstays
    Unit generousMachine generousMachine_mapReturns () () _ _ rfl).2

def emptyUserSpace : Vmspace :=
  { onePageSpace with nodes := [] }

/-- A delayed request for a page more than the map area has is accepted and ends in the stack. -/
theorem exists_vmspaceMap_overArea :
    NodesOk emptyUserSpace.spaceBase emptyUserSpace.spaceTop emptyUserSpace.nodes ∧
      generousMachine.MapReturns ∧
      ∃ s', vmspaceMap generousMachine emptyUserSpace () 0 0x80001000 0x3F vmspaceDelayMap =
          .ok (.ok 0x300000000, s', ()) ∧
        emptyUserSpace.mapEnd.toNat <
          (0x300000000#64).toNat + pageRoundUp (0x80001000#64).toNat := by
  refine ⟨⟨⟨nofun, List.Pairwise.nil⟩, nofun, List.nodup_nil⟩, generousMachine_mapReturns,
    _, rfl, ?_⟩
  decide

end Nxos.Mm
