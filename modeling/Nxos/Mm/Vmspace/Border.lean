import Nxos.Mm.Vmspace.Canonical
import Nxos.Mm.Vmspace.Escape
import Nxos.Mm.Vmspace.Heap

/-!
# The border of the map area

Nodes with the same attributes are merged wherever they touch, also across the start of the
map area.  The search for an address takes such a node for one outside the area: when nothing
in the area stands in the way it offers the start of the area, which the node covers, and the
request is refused although there is room behind the node.  In the states that a run of calls
reaches, this is the only way to miss a gap of the map area.
-/

namespace Nxos.Mm

open Nxos.Interval Nxos.Transition

variable {s : Vmspace} {size attr freeAddr addr : BitVec 64} {flags : BitVec 32}

/-! ## Gaps -/

def FreeRange (s : Vmspace) (start len : ℕ) : Prop :=
  ∀ n ∈ s.nodes, n.hi ≤ start ∨ start + len ≤ n.lo

/-- The map area contains a free range of the size, rounded up to pages. -/
def FreeGap (s : Vmspace) (size : BitVec 64) : Prop :=
  ∃ g, s.mapStart.toNat ≤ g ∧ g + pageRoundUp size.toNat ≤ s.mapEnd.toNat ∧
    FreeRange s g (pageRoundUp size.toNat)

/-- There is memory for the node of a request, and for its pages at every free range of the
map area. -/
structure MemorySuffices {μ : Type} (M : Machine μ) (s : Vmspace) (m : μ)
    (size attr : BitVec 64) (flags : BitVec 32) : Prop where
  node : (M.memAlloc m).1 = true
  pages : flags &&& vmspaceDelayMap = 0 → ∀ start : BitVec 64, start.toNat % 4096 = 0 →
    s.mapStart.toNat ≤ start.toNat →
    start.toNat + pageRoundUp size.toNat ≤ s.mapEnd.toNat →
    FreeRange s start.toNat (pageRoundUp size.toNat) →
    ∃ a m', M.mapPage (M.memAlloc m).2 start (pageAlignUp size) attr = .ok (a, m') ∧ a ≠ 0

/-- A node lies across the start of the map area, and in front of the nodes inside the area
there is room for the size. -/
def BorderBlocked (s : Vmspace) (size : BitVec 64) : Prop :=
  (∃ n ∈ s.nodes, n.lo < s.mapStart.toNat ∧ s.mapStart.toNat < n.hi) ∧
    ∀ n ∈ s.nodes, InMapArea s n → s.mapStart.toNat + pageRoundUp size.toNat ≤ n.lo

/-! ## The search -/

/-- The address has room in the map area and away from the nodes that do not start below it. -/
structure RoomAt (s : Vmspace) (size freeAddr : BitVec 64) (nodes : List Vmnode)
    (addr : BitVec 64) : Prop where
  aligned : addr.toNat % 4096 = 0
  room : addr.toNat + pageRoundUp size.toNat ≤ s.mapEnd.toNat
  origin : addr = freeAddr ∨ ∃ n ∈ nodes, InMapArea s n ∧ addr = n.stop
  apart : ∀ n ∈ nodes, s.mapStart.toNat ≤ n.lo →
    n.hi ≤ addr.toNat ∨ addr.toNat + pageRoundUp size.toNat ≤ n.lo

theorem inMapArea_iff {n : Vmnode} :
    InMapArea s n ↔ s.mapStart.toNat ≤ n.lo ∧ n.hi ≤ s.mapEnd.toNat :=
  Iff.rfl

theorem le_pageRoundUp (size : ℕ) : size ≤ pageRoundUp size ∧ pageRoundUp size % 4096 = 0 ∧
    pageRoundUp size < size + 4096 := by
  unfold pageRoundUp
  omega

theorem RoomAt.behindArea {n : Vmnode} {rest : List Vmnode}
    (hsorted : Separated Vmnode.lo Vmnode.hi (n :: rest)) (harea : InMapArea s n)
    (h : RoomAt s size n.stop rest addr) : RoomAt s size freeAddr (n :: rest) addr := by
  have hbehind := (List.pairwise_cons.mp hsorted.ordered).1
  have hstop : n.hi ≤ addr.toNat := by
    rcases h.origin with rfl | ⟨a, ha, -, rfl⟩
    · exact le_refl _
    · exact (hbehind a ha).trans (hsorted.nonempty a (List.mem_cons_of_mem _ ha)).le
  refine ⟨h.aligned, h.room, Or.inr ?_, ?_⟩
  · rcases h.origin with rfl | ⟨a, ha, hin, rfl⟩
    · exact ⟨n, List.mem_cons_self .., harea, rfl⟩
    · exact ⟨a, List.mem_cons_of_mem _ ha, hin, rfl⟩
  · intro a ha hlow
    rcases List.mem_cons.mp ha with rfl | ha
    · exact Or.inl hstop
    · exact h.apart a ha hlow

/-- Room behind a node that the search skips; when the node ends behind the area, no node
behind it is in the area, and the room is in front of it. -/
theorem RoomAt.behindSkipped {n : Vmnode} {rest : List Vmnode}
    (hsorted : Separated Vmnode.lo Vmnode.hi (n :: rest)) (harea : ¬InMapArea s n)
    (hroom : s.mapEnd.toNat < n.hi → freeAddr.toNat + pageRoundUp size.toNat ≤ n.lo)
    (h : RoomAt s size freeAddr rest addr) : RoomAt s size freeAddr (n :: rest) addr := by
  refine ⟨h.aligned, h.room, ?_, ?_⟩
  · exact h.origin.imp_right fun ⟨a, ha, hin⟩ => ⟨a, List.mem_cons_of_mem _ ha, hin⟩
  · intro a ha hlow
    rcases List.mem_cons.mp ha with rfl | ha
    · have hhigh : s.mapEnd.toNat < a.hi := by
        by_contra hle
        exact harea (inMapArea_iff.mpr ⟨hlow, Nat.le_of_not_lt hle⟩)
      rcases h.origin with rfl | ⟨b, hb, hin, -⟩
      · exact Or.inr (hroom hhigh)
      · have hab := (List.pairwise_cons.mp hsorted.ordered).1 b hb
        have hpos := hsorted.nonempty b (List.mem_cons_of_mem _ hb)
        have hend := (inMapArea_iff.mp hin).2
        omega
    · exact h.apart a ha hlow

theorem mapAreaLoop_of_gap {nodes : List Vmnode} {g : ℕ}
    (hsorted : Separated Vmnode.lo Vmnode.hi nodes) (haligned : NodesAligned nodes)
    (hfree : freeAddr.toNat % 4096 = 0) (hle : freeAddr.toNat ≤ g)
    (hend : g + pageRoundUp size.toNat ≤ s.mapEnd.toNat)
    (hgap : ∀ n ∈ nodes, n.hi ≤ g ∨ g + pageRoundUp size.toNat ≤ n.lo) :
    ∃ addr, mapAreaLoop s size freeAddr nodes = some addr ∧
      RoomAt s size freeAddr nodes addr := by
  obtain ⟨hround, hroundAligned, hroundLt⟩ := le_pageRoundUp size.toNat
  induction nodes generalizing freeAddr with
  | nil => exact ⟨freeAddr, rfl, hfree, by omega, Or.inl rfl, nofun⟩
  | cons n rest ih =>
      have hpos := hsorted.nonempty n (List.mem_cons_self ..)
      have hnGap := hgap n (List.mem_cons_self ..)
      have hnAligned := haligned n (List.mem_cons_self ..)
      have hrest := hsorted.sublist (List.sublist_cons_self n rest)
      have hrestAligned : NodesAligned rest := fun a ha => haligned a (List.mem_cons_of_mem _ ha)
      have hrestGap := fun a (ha : a ∈ rest) => hgap a (List.mem_cons_of_mem _ ha)
      rw [mapAreaLoop]
      by_cases harea : InMapArea s n
      · have hsum : (freeAddr + size).toNat = freeAddr.toNat + size.toNat := by
          have hlt := s.mapEnd.isLt
          exact BitVec.toNat_add_of_lt (by omega)
        have henough : ¬s.mapEnd < freeAddr + size := by
          rw [BitVec.lt_def, hsum]
          omega
        rw [if_pos (show s.mapStart ≤ n.start ∧ n.stop ≤ s.mapEnd from harea), if_neg henough]
        by_cases hfits : freeAddr + size ≤ n.start
        · have hroom : freeAddr.toNat + size.toNat ≤ n.lo := hsum ▸ BitVec.le_def.mp hfits
          rw [if_pos hfits]
          refine ⟨freeAddr, rfl, hfree, by omega, Or.inl rfl, ?_⟩
          intro a ha _
          have hna : n.lo ≤ a.lo := by
            rcases List.mem_cons.mp ha with rfl | ha
            · exact le_refl _
            · exact hpos.le.trans ((List.pairwise_cons.mp hsorted.ordered).1 a ha)
          right
          omega
        · -- the gap is behind the node
          have hfull : ¬freeAddr.toNat + size.toNat ≤ n.lo :=
            fun h => hfits (BitVec.le_def.mpr (hsum.symm ▸ h))
          have hstop : n.stop.toNat ≤ g := by
            change n.hi ≤ g
            omega
          obtain ⟨addr, hrun, hat⟩ := ih hrest hrestAligned hnAligned.2 hstop hrestGap
          rw [if_neg hfits]
          exact ⟨addr, hrun, hat.behindArea hsorted harea⟩
      · obtain ⟨addr, hrun, hat⟩ := ih hrest hrestAligned hfree hle hrestGap
        rw [if_neg (show ¬(s.mapStart ≤ n.start ∧ n.stop ≤ s.mapEnd) from harea)]
        exact ⟨addr, hrun, hat.behindSkipped hsorted harea fun hhigh => by omega⟩

theorem mapAreaLoop_of_room {nodes : List Vmnode}
    (hroom : ∀ n ∈ nodes, InMapArea s n →
      freeAddr.toNat + pageRoundUp size.toNat ≤ n.lo ∧ n.lo ≤ s.mapEnd.toNat) :
    mapAreaLoop s size freeAddr nodes = some freeAddr := by
  obtain ⟨hround, -⟩ := le_pageRoundUp size.toNat
  induction nodes with
  | nil => rfl
  | cons n rest ih =>
      rw [mapAreaLoop]
      by_cases harea : InMapArea s n
      · obtain ⟨hfits, hend⟩ := hroom n (List.mem_cons_self ..) harea
        have hsum : (freeAddr + size).toNat = freeAddr.toNat + size.toNat := by
          have hlt := s.mapEnd.isLt
          exact BitVec.toNat_add_of_lt (by omega)
        have henough : ¬s.mapEnd < freeAddr + size := by
          rw [BitVec.lt_def, hsum]
          omega
        have hroom' : freeAddr + size ≤ n.start := by
          rw [BitVec.le_def, hsum]
          exact (Nat.add_le_add_left hround _).trans hfits
        rw [if_pos (show s.mapStart ≤ n.start ∧ n.stop ≤ s.mapEnd from harea), if_neg henough,
          if_pos hroom']
      · rw [if_neg (show ¬(s.mapStart ≤ n.start ∧ n.stop ≤ s.mapEnd) from harea)]
        exact ih fun a ha => hroom a (List.mem_cons_of_mem _ ha)

/-! ## One request -/

/-- The nodes of the space are sorted and consist of pages, and its map area starts with one. -/
structure AreaSorted (s : Vmspace) : Prop where
  sorted : NodesSorted s.nodes
  aligned : NodesAligned s.nodes
  start_aligned : s.mapStart.toNat % 4096 = 0

theorem FreeRange.checkAddrCollisions {start : BitVec 64} (hpos : 0 < size.toNat)
    (hend : start.toNat + size.toNat < 2 ^ 64) (h : FreeRange s start.toNat size.toNat) :
    vmspaceCheckAddrCollisions s.nodes start size = false := by
  have hsum : (start + size).toNat = start.toNat + size.toNat := BitVec.toNat_add_of_lt hend
  refine List.any_eq_false.mpr fun n hn => ?_
  have hdisjoint := h n hn
  simp only [decide_eq_true_eq, BitVec.le_def, BitVec.lt_def, hsum]
  unfold Vmnode.lo Vmnode.hi at hdisjoint
  omega

/-- What has room in the map area is free, unless it is the start of the area and a node lies
across it. -/
theorem AreaSorted.freeRange (h : AreaSorted s) (hborder : ¬BorderBlocked s size)
    (hat : RoomAt s size s.mapStart s.nodes addr) :
    FreeRange s addr.toNat (pageRoundUp size.toNat) := by
  intro n hn
  by_cases hlow : s.mapStart.toNat ≤ n.lo
  · exact hat.apart n hn hlow
  · left
    rcases hat.origin with rfl | ⟨a, ha, hin, rfl⟩
    · by_contra hacross
      refine hborder ⟨⟨n, hn, by omega, by omega⟩, fun a ha hin => ?_⟩
      have hpos := h.sorted.separated.nonempty a ha
      have hlow := (inMapArea_iff.mp hin).1
      exact (hat.apart a ha hlow).resolve_left (by omega)
    · have hlow' := (inMapArea_iff.mp hin).1
      have hpos := h.sorted.separated.nonempty a ha
      have hne : n ≠ a := by
        rintro rfl
        exact hlow hlow'
      rcases h.sorted.separated.apart hn ha hne with hle | hle
      · exact hle.trans hpos.le
      · omega

/-- A request that fits into a gap is placed at a free range of the map area, unless a node
lies across the start of the area. -/
theorem AreaSorted.placed_of_gap (h : AreaSorted s) (hgap : FreeGap s size) (hsize : size ≠ 0)
    (hattr : attr ≠ 0) (hborder : ¬BorderBlocked s size) :
    ∃ start, MapPlaced s 0 size attr start ∧ start.toNat % 4096 = 0 ∧
      s.mapStart.toNat ≤ start.toNat ∧
      start.toNat + pageRoundUp size.toNat ≤ s.mapEnd.toNat ∧
      FreeRange s start.toNat (pageRoundUp size.toNat) := by
  obtain ⟨g, hlow, hhigh, hfree⟩ := hgap
  obtain ⟨addr, hrun, hat⟩ := mapAreaLoop_of_gap h.sorted.separated h.aligned h.start_aligned
    hlow hhigh hfree
  have hrange := h.freeRange hborder hat
  have hpos := pageRoundUp_pos hsize
  have hroom := hat.room
  have hend := s.mapEnd.isLt
  have hup : (pageAlignUp size).toNat = pageRoundUp size.toNat :=
    pageAlignUp_toNat_of_lt (by omega)
  have hdown := pageAlignDown_of_aligned hat.aligned
  refine ⟨addr, ⟨⟨addr, mapAddress_zero_eq_ok_iff.mpr ⟨hsize, hattr, hrun⟩, hdown.symm⟩, ?_⟩,
    hat.aligned, ?_, hroom, hrange⟩
  · rw [← hup] at hrange hpos hroom
    exact hrange.checkAddrCollisions hpos (by omega)
  · rcases hat.origin with rfl | ⟨a, ha, hin, rfl⟩
    · exact le_refl _
    · exact (inMapArea_iff.mp hin).1.trans (h.sorted.separated.nonempty a ha).le

/-- With a node across the start of the area, a request that would fit there is not placed. -/
theorem BorderBlocked.not_placed (h : BorderBlocked s size) (hal : s.mapStart.toNat % 4096 = 0)
    (hpos : ∀ n ∈ s.nodes, n.lo < n.hi) {start : BitVec 64} :
    ¬MapPlaced s 0 size attr start := by
  obtain ⟨⟨n, hn, hlow, hhigh⟩, hroom⟩ := h
  rintro ⟨⟨addr, haddr, rfl⟩, hfree⟩
  obtain ⟨-, -, hsearch⟩ := mapAddress_zero_eq_ok_iff.mp haddr
  have hstays : getAddrFromMapArea s size = some s.mapStart :=
    mapAreaLoop_of_room fun a ha hin =>
      ⟨hroom a ha hin, (hpos a ha).le.trans (inMapArea_iff.mp hin).2⟩
  rw [hstays, Option.some_inj] at hsearch
  subst hsearch
  rw [pageAlignDown_of_aligned hal] at hfree
  have hnode := List.any_eq_false.mp hfree n hn
  refine hnode (decide_eq_true (Or.inl ?_))
  rw [BitVec.le_def, BitVec.lt_def]
  exact ⟨hlow.le, hhigh⟩

theorem MemorySuffices.vmspaceMap {μ : Type} {M : Machine μ} {m : μ} {base top start : BitVec 64}
    (hmemory : MemorySuffices M s m size attr flags) (hok : NodesOk base top s.nodes)
    (hplaced : MapPlaced s 0 size attr start) (haligned : start.toNat % 4096 = 0)
    (hlow : s.mapStart.toNat ≤ start.toNat)
    (hhigh : start.toNat + pageRoundUp size.toNat ≤ s.mapEnd.toNat)
    (hfree : FreeRange s start.toNat (pageRoundUp size.toNat)) :
    ∃ a s' m', vmspaceMap M s m 0 size attr flags = .ok (.ok a, s', m') := by
  have halloc : M.memAlloc m = (true, (M.memAlloc m).2) := by
    rw [← hmemory.node]
  by_cases hdelay : flags &&& vmspaceDelayMap ≠ 0
  · exact ⟨_, _, _, vmspaceMapInternal_delayed hplaced halloc hdelay 0⟩
  · have hnow := not_not.mp hdelay
    obtain ⟨a, m', hmap, ha⟩ := hmemory.pages hnow start haligned hlow hhigh hfree
    have hrun := vmspaceMapInternal_placed hok hplaced halloc hnow 0
    have hpages : mapPages M (M.memAlloc m).2 start 0 (pageAlignUp size) attr = .ok (a, m') :=
      (if_neg (not_not.mpr rfl)).trans hmap
    rw [hpages, exec_ok_bind, if_neg ha] at hrun
    exact ⟨_, _, _, hrun⟩

theorem exists_placed_of_vmspaceMap {μ : Type} {M : Machine μ} {m m' : μ}
    {vaddr base top a : BitVec 64} {s' : Vmspace} (hok : NodesOk base top s.nodes)
    (hrun : vmspaceMap M s m vaddr size attr flags = .ok (.ok a, s', m')) :
    ∃ start, MapPlaced s vaddr size attr start := by
  have hout := vmspaceMapInternal_outcome M hok m vaddr 0 size attr flags
  rw [show vmspaceMapInternal M s m vaddr 0 size attr flags = _ from hrun] at hout
  cases hout with
  | delayed start m' hplaced => exact ⟨_, hplaced⟩
  | mapped start a m₁ m' hplaced => exact ⟨_, hplaced⟩

/-- With memory for it, a request finds a gap of the map area exactly when the area does not
start inside a node or the search goes on from there. -/
theorem AreaSorted.vmspaceMap_iff {μ : Type} {M : Machine μ} {m : μ} (h : AreaSorted s)
    (hgap : FreeGap s size) (hmemory : MemorySuffices M s m size attr flags) :
    (∃ a s' m', vmspaceMap M s m 0 size attr flags = .ok (.ok a, s', m')) ↔
      size ≠ 0 ∧ attr ≠ 0 ∧ ¬BorderBlocked s size := by
  constructor
  · rintro ⟨a, s', m', hrun⟩
    obtain ⟨start, hplaced⟩ := exists_placed_of_vmspaceMap h.sorted hrun
    obtain ⟨addr, haddr, -⟩ := hplaced.address
    obtain ⟨hsize, hattr, -⟩ := mapAddress_zero_eq_ok_iff.mp haddr
    exact ⟨hsize, hattr, fun hblocked =>
      hblocked.not_placed h.start_aligned h.sorted.separated.nonempty hplaced⟩
  · rintro ⟨hsize, hattr, hborder⟩
    obtain ⟨start, hplaced, haligned, hlow, hhigh, hfree⟩ :=
      h.placed_of_gap hgap hsize hattr hborder
    exact hmemory.vmspaceMap h.sorted hplaced haligned hlow hhigh hfree

/-! ## Runs -/

inductive UserCall where
  | map (addr size attr : BitVec 64) (flags : BitVec 32)
  | unmap (addr size : BitVec 64)
  | updateHeap (virAddr : BitVec 64)

/-- A request that is placed does not wrap around the address space and encloses no node. -/
def MapApart (s : Vmspace) (vaddr size attr : BitVec 64) : Prop :=
  ∀ start, MapPlaced s vaddr size attr start →
    start.toNat + pageRoundUp size.toNat < 2 ^ 64 ∧
    ∀ n ∈ s.nodes, ¬(start.toNat < n.lo ∧ n.hi < start.toNat + pageRoundUp size.toNat)

/-- The ranges of a call do not wrap, and those that it maps enclose no node. -/
def UserCall.Apart (s : Vmspace) : UserCall → Prop
  | .map addr size attr _ => MapApart s addr size attr
  | .unmap addr size => UnmapFits s addr size
  | .updateHeap virAddr => pageAlignUp s.heapCurrent < pageAlignUp virAddr →
      MapApart s (pageAlignUp s.heapCurrent) (pageAlignUp virAddr - pageAlignUp s.heapCurrent)
        pageAttrUser

def userStep {μ : Type} (M : Machine μ) (σ τ : Vmspace × μ) : UserCall → Prop
  | .map addr size attr flags =>
      ∃ r, vmspaceMap M σ.1 σ.2 addr size attr flags = .ok (r, τ.1, τ.2)
  | .unmap addr size => ∃ err, vmspaceUnmap M σ.1 σ.2 addr size = .ok (err, τ.1, τ.2)
  | .updateHeap virAddr => HeapMove M σ virAddr τ

def UserMove {μ : Type} (M : Machine μ) (σ : Vmspace × μ) (call : UserCall)
    (τ : Vmspace × μ) : Prop :=
  call.Apart σ.1 ∧ userStep M σ τ call

namespace AreaSorted

variable {μ : Type} {M : Machine μ} {m m' : μ} {s' : Vmspace} {vaddr : BitVec 64}

theorem mappedNodes (h : AreaSorted s) {start : BitVec 64}
    (hplaced : MapPlaced s vaddr size attr start) (hapart : MapApart s vaddr size attr)
    (flags : BitVec 32) :
    AreaSorted { s with nodes := mappedNodes s size attr flags start } := by
  obtain ⟨hwrap, hencloses⟩ := hapart start hplaced
  obtain ⟨addr, haddr, hstart⟩ := hplaced.address
  have hpos := pageRoundUp_pos (mapAddress_size_ne_zero haddr)
  have hup : (pageAlignUp size).toNat = pageRoundUp size.toNat :=
    pageAlignUp_toNat_of_lt (by omega)
  have haligned : start.toNat % 4096 = 0 := by
    rw [hstart]
    exact pageAlignDown_aligned addr
  have hdisjoint : ∀ n ∈ s.nodes,
      n.hi ≤ start.toNat ∨ start.toNat + (pageAlignUp size).toNat ≤ n.lo := by
    intro n hn
    refine disjoint_of_checkAddrCollisions hplaced.free ?_ hn ?_
    · rwa [hup]
    · rw [hup]
      exact hencloses n hn
  have htop : start.toNat + (pageAlignUp size).toNat ≤ (BitVec.allOnes 64).toNat := by
    rw [hup, BitVec.toNat_allOnes]
    omega
  obtain ⟨hsorted, hal, -⟩ :=
    h.sorted.mappedNodes attr flags (hup ▸ hpos) (Nat.zero_le _) htop hdisjoint
  exact ⟨hsorted, hal haligned h.aligned, h.start_aligned⟩

theorem vmspaceMap {r : Except NxError (BitVec 64)} (h : AreaSorted s)
    (hapart : MapApart s vaddr size attr)
    (hrun : vmspaceMap M s m vaddr size attr flags = .ok (r, s', m')) : AreaSorted s' := by
  have hout := vmspaceMapInternal_outcome M h.sorted m vaddr 0 size attr flags
  rw [show vmspaceMapInternal M s m vaddr 0 size attr flags = _ from hrun] at hout
  cases hout with
  | refused => exact h
  | delayed start m' hplaced => exact h.mappedNodes hplaced hapart flags
  | unmapped => exact h
  | mapped start a m₁ m' hplaced => exact h.mappedNodes hplaced hapart flags

theorem vmspaceUnmap {err : NxError} (h : AreaSorted s) (hfits : UnmapFits s vaddr size)
    (hrun : vmspaceUnmap M s m vaddr size = .ok (err, s', m')) : AreaSorted s' := by
  by_cases hrefused : unmapRefused s vaddr size
  · unfold Mm.vmspaceUnmap at hrun
    rw [if_pos hrefused] at hrun
    cases hrun
    exact h
  -- the bounds of the space play no part any more
  have hbase : (0 : BitVec 64).toNat ≤ s.spaceBase.toNat := Nat.zero_le _
  have htop : s.spaceTop.toNat ≤ (BitVec.allOnes 64).toNat := by
    have hlt := s.spaceTop.isLt
    rw [BitVec.toNat_allOnes]
    omega
  rw [vmspaceUnmap_widen M hbase htop m hrefused] at hrun
  obtain ⟨⟨err', s₁, m₁⟩, hwide, heq⟩ := exec_map_eq_ok_iff.mp hrun
  cases heq
  have hout := vmspaceUnmap_outcome M (s := { s with spaceBase := 0, spaceTop := .allOnes 64 })
    h.sorted m (fun _ hfind => hfits hrefused hfind)
  rw [hwide] at hout
  cases hout with
  | refused => exact h
  | restored m₁ m' err nodes hreach hrange hunmap herr hok hlookup haligned =>
      exact ⟨hok, haligned h.aligned, h.start_aligned⟩
  | removed m₁ m' nodes hreach hrange hunmap hremoved =>
      exact ⟨hremoved.ok, hremoved.aligned h.aligned, h.start_aligned⟩

theorem heapCurrent (h : AreaSorted s) (virAddr : BitVec 64) :
    AreaSorted { s with heapCurrent := virAddr } :=
  ⟨h.sorted, h.aligned, h.start_aligned⟩

theorem heapGrow {r : Except NxError (BitVec 64)} {virAddr oldHeap newHeap : BitVec 64}
    (h : AreaSorted s) (hapart : MapApart s oldHeap (newHeap - oldHeap) pageAttrUser)
    (hrun : heapGrow M s m virAddr oldHeap newHeap = .ok (r, s', m')) : AreaSorted s' := by
  unfold Mm.heapGrow at hrun
  obtain ⟨⟨r₁, s₁, m₁⟩, hmap, hrest⟩ := exec_bind_eq_ok_iff.mp hrun
  have hs₁ := h.vmspaceMap hapart hmap
  cases r₁ with
  | error err =>
      cases hrest
      exact hs₁
  | ok mapped =>
      dsimp only at hrest
      split_ifs at hrest
      · cases hrest
        exact hs₁
      · cases hrest
        exact hs₁.heapCurrent virAddr

/-- A shrinking heap unmaps whole pages that end at its old end. -/
theorem unmapFits_heap (s : Vmspace) {oldHeap newHeap : BitVec 64}
    (hold : oldHeap.toNat % 4096 = 0) (hnew : newHeap.toNat % 4096 = 0)
    (hle : newHeap.toNat ≤ oldHeap.toNat) : UnmapFits s newHeap (oldHeap - newHeap) := by
  intro _ _
  have hsub : (oldHeap - newHeap).toNat = oldHeap.toNat - newHeap.toNat :=
    BitVec.toNat_sub_of_le (BitVec.le_def.mpr hle)
  have hlt := oldHeap.isLt
  rw [hsub]
  unfold pageRoundUp
  omega

theorem heapShrink {r : Except NxError (BitVec 64)} {virAddr oldHeap newHeap : BitVec 64}
    (h : AreaSorted s) (hfits : UnmapFits s newHeap (oldHeap - newHeap))
    (hrun : heapShrink M s m virAddr oldHeap newHeap = .ok (r, s', m')) : AreaSorted s' := by
  unfold Mm.heapShrink at hrun
  obtain ⟨⟨err, s₁, m₁⟩, hunmap, hrest⟩ := exec_bind_eq_ok_iff.mp hrun
  have hs₁ := h.vmspaceUnmap hfits hunmap
  dsimp only at hrest
  split_ifs at hrest
  · cases hrest
    exact hs₁
  · cases hrest
    exact hs₁.heapCurrent virAddr

theorem vmspaceUpdateHeap {r : Except NxError (BitVec 64)} {virAddr : BitVec 64}
    (h : AreaSorted s) (hapart : (UserCall.updateHeap virAddr).Apart s)
    (hrun : vmspaceUpdateHeap M s m virAddr = .ok (r, s', m')) : AreaSorted s' := by
  unfold Mm.vmspaceUpdateHeap at hrun
  dsimp only at hrun
  split_ifs at hrun with htable hzero hlow hhigh heq hgrows
  · cases hrun
    exact h
  · cases hrun
    exact h
  · cases hrun
    exact h
  · cases hrun
    exact h.heapCurrent virAddr
  · exact h.heapGrow (hapart hgrows) hrun
  · have hle := BitVec.le_def.mp (BitVec.not_lt.mp hgrows)
    exact h.heapShrink
      (unmapFits_heap s (pageAlignUp_aligned _) (pageAlignUp_aligned _) hle) hrun
  · cases hrun
    exact h

theorem step {σ τ : Vmspace × μ} {call : UserCall} (h : AreaSorted σ.1)
    (hmove : UserMove M σ call τ) : AreaSorted τ.1 := by
  obtain ⟨hapart, hstep⟩ := hmove
  cases call with
  | map addr size attr flags =>
      obtain ⟨r, hrun⟩ := hstep
      exact h.vmspaceMap hapart hrun
  | unmap addr size =>
      obtain ⟨err, hrun⟩ := hstep
      exact h.vmspaceUnmap hapart hrun
  | updateHeap virAddr =>
      obtain ⟨r, hrun⟩ := hstep
      exact h.vmspaceUpdateHeap hapart hrun

end AreaSorted

/-- In every state that calls on ranges apart from the nodes reach from a new space, a request
for which there is a gap in the map area and memory succeeds, unless a node lies across the
start of the area and the search stays there; an empty request and one without attributes are
always refused. -/
theorem userReachable_findsGap_iff {μ : Type} {M : Machine μ} {s₀ : Vmspace} {m₀ : μ}
    (hnew : s₀.nodes = []) (harea : s₀.mapStart.toNat % 4096 = 0) {σ : Vmspace × μ}
    (hreach : Reachable (UserMove M) (s₀, m₀) σ) (hgap : FreeGap σ.1 size)
    (hmemory : MemorySuffices M σ.1 σ.2 size attr flags) :
    (∃ a s' m', vmspaceMap M σ.1 σ.2 0 size attr flags = .ok (.ok a, s', m')) ↔
      size ≠ 0 ∧ attr ≠ 0 ∧ ¬BorderBlocked σ.1 size := by
  have hstart : AreaSorted s₀ := by
    refine ⟨?_, ?_, harea⟩
    · rw [hnew]
      exact nodesSorted_iff.mpr ⟨.nil, List.nodup_nil⟩
    · rw [hnew]
      exact nofun
  have hsorted : AreaSorted σ.1 :=
    hreach.invariant (P := fun σ => AreaSorted σ.1) hstart fun h hmove => h.step hmove
  exact hsorted.vmspaceMap_iff hgap hmemory

theorem generousMachine_memorySuffices (s : Vmspace) (hstart : 0 < s.mapStart.toNat)
    (size attr : BitVec 64) (flags : BitVec 32) :
    MemorySuffices generousMachine s () size attr flags where
  node := rfl
  pages _ start haligned hlow _ _ := by
    refine ⟨_, (), rfl, fun hzero => ?_⟩
    rw [pageAlignDown_of_aligned haligned] at hzero
    rw [hzero] at hlow
    exact absurd hlow (Nat.not_le.mpr hstart)

def nodeSpace (id : ℕ) (start stop : BitVec 64) : Vmspace :=
  { emptyUserSpace with nodes := [⟨id, start, stop, pageAttrUser, 0⟩] }

/-- Behind a page in the map area the next request finds room. -/
theorem userReachable_findsGap_iff_secondPage :
    ∃ a s' m', vmspaceMap generousMachine (nodeSpace 1 0x300000000 0x300001000) () 0 0x1000
      pageAttrUser 0 = .ok (.ok a, s', m') := by
  have hmove : UserMove generousMachine (emptyUserSpace, ()) (.map 0 0x1000 pageAttrUser 0)
      (nodeSpace 1 0x300000000 0x300001000, ()) := by
    refine ⟨?_, _, rfl⟩
    rintro start ⟨⟨addr, haddr, rfl⟩, -⟩
    cases haddr
    exact ⟨by decide, nofun⟩
  have hgap : FreeGap (nodeSpace 1 0x300000000 0x300001000) 0x1000 := by
    refine ⟨0x300001000, by decide, by decide, fun n hn => ?_⟩
    rw [List.mem_singleton.mp hn]
    decide
  have hborder : ¬BorderBlocked (nodeSpace 1 0x300000000 0x300001000) 0x1000 := by
    rintro ⟨⟨n, hn, hlow, -⟩, -⟩
    rw [List.mem_singleton.mp hn] at hlow
    exact absurd hlow (by decide)
  exact (userReachable_findsGap_iff rfl (by decide) (Reachable.refl.tail hmove) hgap
    (generousMachine_memorySuffices _ (by decide) 0x1000 pageAttrUser 0)).mpr
    ⟨by decide, by decide, hborder⟩

/-- When the last page of the heap's range and the first page of the map area are mapped with
the same attributes, nothing more is mapped, although the area is all but empty. -/
theorem exists_vmspaceMap_missesGap :
    Reachable (UserMove generousMachine) (emptyUserSpace, ())
      (nodeSpace 2 0x2FFFFF000 0x300001000, ()) ∧
    FreeGap (nodeSpace 2 0x2FFFFF000 0x300001000) 0x1000 ∧
    MemorySuffices generousMachine (nodeSpace 2 0x2FFFFF000 0x300001000) () 0x1000
      pageAttrUser 0 ∧
    vmspaceMap generousMachine (nodeSpace 2 0x2FFFFF000 0x300001000) () 0 0x1000 pageAttrUser 0 =
      .ok (.error .einval, nodeSpace 2 0x2FFFFF000 0x300001000, ()) := by
  have hfirst : UserMove generousMachine (emptyUserSpace, ())
      (.map 0x2FFFFF000 0x1000 pageAttrUser 0) (nodeSpace 1 0x2FFFFF000 0x300000000, ()) := by
    refine ⟨?_, _, rfl⟩
    rintro start ⟨⟨addr, haddr, rfl⟩, -⟩
    cases haddr
    exact ⟨by decide, nofun⟩
  have hsecond : UserMove generousMachine (nodeSpace 1 0x2FFFFF000 0x300000000, ())
      (.map 0 0x1000 pageAttrUser 0) (nodeSpace 2 0x2FFFFF000 0x300001000, ()) := by
    refine ⟨?_, _, rfl⟩
    rintro start ⟨⟨addr, haddr, rfl⟩, -⟩
    cases haddr
    refine ⟨by decide, fun n hn => ?_⟩
    rw [List.mem_singleton.mp hn]
    decide
  refine ⟨(Reachable.refl.tail hfirst).tail hsecond, ?_,
    generousMachine_memorySuffices _ (by decide) 0x1000 pageAttrUser 0, rfl⟩
  refine ⟨0x300001000, by decide, by decide, fun n hn => ?_⟩
  rw [List.mem_singleton.mp hn]
  decide

end Nxos.Mm
