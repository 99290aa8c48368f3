import Nxos.Mm.Vmspace.Escape
import Nxos.Mm.Vmspace.Heap

/-!
# The bytes of a request

`__VmspaceMap` rounds the start of a request down to a page and its size up to pages,
independently of each other.  When the offset of the start in its page and the size
together need one page more than the size, the last bytes of the request lie behind the
range that is mapped.
-/

namespace Nxos.Mm

variable {nodes : List Vmnode} {x : ℕ}

/-! ## What a list covers -/

/-- The byte lies in a node. -/
def Covered (nodes : List Vmnode) (x : ℕ) : Prop :=
  ∃ n ∈ nodes, n.lo ≤ x ∧ x < n.hi

namespace NodesLinked

theorem absorb (h : NodesLinked nodes) {node other node' : Vmnode} (hnode : node ∈ nodes)
    (hother : other ∈ nodes) (hne : other ≠ node) (hid : node'.id = node.id)
    (hjoin : NodesOk.Joined node other node') :
    NodesLinked (listDel (writeNode nodes node') other.id) ∧
      node' ∈ listDel (writeNode nodes node') other.id ∧
      ∀ x, Covered (listDel (writeNode nodes node') other.id) x ↔ Covered nodes x := by
  have hmem := fun n => h.mem_absorb (n := n) hnode hother hne hid
  have hnode_ne := h.nonempty node hnode
  have hother_ne := h.nonempty other hother
  refine ⟨⟨?_, ?_⟩, (hmem node').mpr (Or.inl rfl), fun x => ?_⟩
  · intro n hn
    rcases (hmem n).mp hn with rfl | ⟨hn, -⟩
    · rcases hjoin with ⟨h₁, h₂, h₃⟩ | ⟨h₁, h₂, h₃⟩ <;> omega
    · exact h.nonempty n hn
  · have hlinked := h.linked
    rw [← writeNode_map_id nodes node'] at hlinked
    exact hlinked.sublist (List.filter_sublist.map Vmnode.id)
  · constructor
    · rintro ⟨n, hn, hlo, hhi⟩
      rcases (hmem n).mp hn with rfl | ⟨hn, -⟩
      · by_cases hin : node.lo ≤ x ∧ x < node.hi
        · exact ⟨node, hnode, hin⟩
        · refine ⟨other, hother, ?_⟩
          rcases hjoin with ⟨h₁, h₂, h₃⟩ | ⟨h₁, h₂, h₃⟩ <;> omega
      · exact ⟨n, hn, hlo, hhi⟩
    · rintro ⟨n, hn, hlo, hhi⟩
      by_cases hjoined : n = node ∨ n = other
      · refine ⟨node', (hmem node').mpr (Or.inl rfl), ?_⟩
        rcases hjoined with rfl | rfl <;>
          rcases hjoin with ⟨h₁, h₂, h₃⟩ | ⟨h₁, h₂, h₃⟩ <;> omega
      · rw [not_or] at hjoined
        exact ⟨n, (hmem n).mpr (Or.inr ⟨hn, hjoined⟩), hlo, hhi⟩

theorem mergePrev (h : NodesLinked nodes) {node : Vmnode} (hnode : node ∈ nodes) :
    NodesLinked (Mm.mergePrev nodes node).1 ∧
      (Mm.mergePrev nodes node).2 ∈ (Mm.mergePrev nodes node).1 ∧
      ∀ x, Covered (Mm.mergePrev nodes node).1 x ↔ Covered nodes x := by
  rcases h.mergePrev_cases hnode with ⟨hrun, -⟩ | ⟨prev, hprev, htouch, hne, hrun⟩
  · rw [hrun]
    exact ⟨h, hnode, fun _ => Iff.rfl⟩
  · rw [hrun]
    exact h.absorb hnode hprev hne rfl (.prev htouch.1 rfl rfl)

theorem mergeNext (h : NodesLinked nodes) {node : Vmnode} (hnode : node ∈ nodes) (x : ℕ) :
    Covered (Mm.mergeNext nodes node) x ↔ Covered nodes x := by
  rcases h.mergeNext_cases hnode with ⟨hrun, -⟩ | ⟨next, hnext, htouch, hne, hrun⟩
  · rw [hrun]
  · have hid : ({ node with stop := next.stop } : Vmnode).id = node.id := rfl
    rw [hrun]
    exact (h.absorb hnode hnext hne hid (.next htouch.1 rfl rfl)).2.2 x

/-- `VmspaceMergeNode` leaves the same bytes covered, whatever the nodes share. -/
theorem vmspaceMergeNode (h : NodesLinked nodes) {node : Vmnode} (hnode : node ∈ nodes) (x : ℕ) :
    Covered (Mm.vmspaceMergeNode nodes node) x ↔ Covered nodes x := by
  obtain ⟨hlinked, hmem, hcovered⟩ := h.mergePrev hnode
  exact (hlinked.mergeNext hmem x).trans (hcovered x)

end NodesLinked

variable {s : Vmspace} {base top : BitVec 64} {size attr start : BitVec 64} {flags : BitVec 32}

/-- `VmspaceInsertLinearOrder` adds the node, whatever it shares with others. -/
theorem NodesOk.insert_perm (h : NodesOk base top nodes) (node : Vmnode) :
    (vmspaceInsertLinearOrder nodes node).Perm (node :: nodes) := by
  rw [h.vmspaceInsertLinearOrder_eq node]
  refine List.perm_middle.trans ?_
  rw [List.takeWhile_append_dropWhile]

/-- After a request that does not wrap, its pages are covered and what was covered before. -/
theorem NodesOk.covered_mappedNodes (hok : NodesOk base top s.nodes) (attr : BitVec 64)
    (flags : BitVec 32) (hpos : 0 < (pageAlignUp size).toNat)
    (hwrap : start.toNat + (pageAlignUp size).toNat < 2 ^ 64) (x : ℕ) :
    Covered (Mm.mappedNodes s size attr flags start) x ↔
      start.toNat ≤ x ∧ x < start.toNat + (pageAlignUp size).toNat ∨ Covered s.nodes x := by
  generalize hnode : vmnodeCreate s.nodes start (pageAlignUp size) attr flags = node
  have hid : node.id ∉ s.nodes.map Vmnode.id :=
    hnode ▸ vmnodeCreate_id_notMem s.nodes start (pageAlignUp size) attr flags
  have hlo : node.lo = start.toNat := by
    rw [← hnode]
    rfl
  have hhi : node.hi = start.toNat + (pageAlignUp size).toNat := by
    rw [← hnode]
    exact BitVec.toNat_add_of_lt hwrap
  have hperm := hok.insert_perm node
  have hmem : ∀ n, n ∈ vmspaceInsertLinearOrder s.nodes node ↔ n = node ∨ n ∈ s.nodes :=
    fun n => hperm.mem_iff.trans List.mem_cons
  have hlinked : NodesLinked (vmspaceInsertLinearOrder s.nodes node) := by
    constructor
    · intro n hn
      rcases (hmem n).mp hn with rfl | hn
      · omega
      · exact hok.separated.nonempty n hn
    · rw [(hperm.map Vmnode.id).nodup_iff, List.map_cons, List.nodup_cons]
      exact ⟨hid, hok.linked⟩
  have hnodes : Mm.mappedNodes s size attr flags start =
      Mm.vmspaceMergeNode (vmspaceInsertLinearOrder s.nodes node) node := by
    rw [← hnode]
    rfl
  rw [hnodes, hlinked.vmspaceMergeNode ((hmem node).mpr (Or.inl rfl)), ← hhi, ← hlo]
  unfold Covered
  simp only [hmem, or_and_right, exists_or, exists_eq_left]

/-! ## Bounds of the nodes -/

theorem mem_writeNode_or {node' n : Vmnode} (hn : n ∈ writeNode nodes node') :
    n = node' ∨ n ∈ nodes := by
  obtain ⟨a, ha, rfl⟩ := List.mem_map.mp hn
  split_ifs
  · exact Or.inl rfl
  · exact Or.inr ha

theorem NodesAligned.mergePrev (h : NodesAligned nodes) {node : Vmnode}
    (hnode : node.lo % 4096 = 0 ∧ node.hi % 4096 = 0) :
    NodesAligned (Mm.mergePrev nodes node).1 ∧
      (Mm.mergePrev nodes node).2.lo % 4096 = 0 ∧ (Mm.mergePrev nodes node).2.hi % 4096 = 0 := by
  unfold Mm.mergePrev
  split
  · exact ⟨h, hnode⟩
  · next prev hfind =>
      have hprev := h prev (List.mem_of_find?_eq_some hfind)
      refine ⟨fun n hn => ?_, hprev.1, hnode.2⟩
      rcases mem_writeNode_or (mem_listDel.mp hn).1 with rfl | hn
      · exact ⟨hprev.1, hnode.2⟩
      · exact h n hn

theorem NodesAligned.mergeNext (h : NodesAligned nodes) {node : Vmnode}
    (hnode : node.lo % 4096 = 0 ∧ node.hi % 4096 = 0) : NodesAligned (Mm.mergeNext nodes node) := by
  unfold Mm.mergeNext
  split
  · exact h
  · next next hfind =>
      have hnext := h next (List.mem_of_find?_eq_some hfind)
      intro n hn
      rcases mem_writeNode_or (mem_listDel.mp hn).1 with rfl | hn
      · exact ⟨hnode.1, hnext.2⟩
      · exact h n hn

/-- All bounds are page boundaries after every request, also after one that wraps. -/
theorem NodesAligned.mappedNodes (hok : NodesOk base top s.nodes) (h : NodesAligned s.nodes)
    (hstart : start.toNat % 4096 = 0) (size attr : BitVec 64) (flags : BitVec 32) :
    NodesAligned (Mm.mappedNodes s size attr flags start) := by
  have hnode : (vmnodeCreate s.nodes start (pageAlignUp size) attr flags).lo % 4096 = 0 ∧
      (vmnodeCreate s.nodes start (pageAlignUp size) attr flags).hi % 4096 = 0 := by
    refine ⟨hstart, ?_⟩
    change (start + pageAlignUp size).toNat % 4096 = 0
    rw [BitVec.toNat_add, pageAlignUp_toNat]
    omega
  have hinsert : NodesAligned (vmspaceInsertLinearOrder s.nodes
      (vmnodeCreate s.nodes start (pageAlignUp size) attr flags)) := by
    intro n hn
    rcases List.mem_cons.mp ((hok.insert_perm _).mem_iff.mp hn) with rfl | hn
    · exact hnode
    · exact h n hn
  obtain ⟨hprev, hbounds⟩ := hinsert.mergePrev hnode
  exact hprev.mergeNext hbounds

/-! ## When the bytes of a request are covered -/

/-- What a request relies on: a mapping call that succeeds returns the page it was asked for,
translates the pages of its range, and takes no translation away.  Node allocation does not
touch the page table. -/
structure Machine.MapLaws {μ : Type} (M : Machine μ) (attr : BitVec 64) (inv : μ → Prop)
    (translated : μ → ℕ → Prop) : Prop where
  memAlloc : ∀ {m}, inv m → inv (M.memAlloc m).2 ∧
    ∀ p, translated (M.memAlloc m).2 p ↔ translated m p
  mapPage : ∀ {m v size a m'}, inv m → M.mapPage m v size attr = .ok (a, m') → a ≠ 0 →
    a = pageAlignDown v ∧ (PageRange v size → ∀ p,
      translated m p ∨ PageIn v.toNat size.toNat p → translated m' p)

/-- Nothing refuses a request for the address `vaddr` but the lack of memory. -/
structure Admitted (s : Vmspace) (vaddr size attr : BitVec 64) (flags : BitVec 32) : Prop where
  size_ne : size ≠ 0
  attr_ne : attr ≠ 0
  base_le : s.spaceBase ≤ vaddr
  le_top : vaddr ≤ s.spaceTop - size
  free : vmspaceCheckAddrCollisions s.nodes (pageAlignDown vaddr) (pageAlignUp size) = false
  mapped : pageAlignDown vaddr ≠ 0 ∨ flags &&& vmspaceDelayMap ≠ 0

def Spilled (vaddr size : BitVec 64) (x : ℕ) : Prop :=
  (pageAlignDown vaddr).toNat + pageRoundUp size.toNat ≤ x ∧ x < vaddr.toNat + size.toNat

/-- An admitted request does not wrap, and its bytes behind its pages are covered, and
translated unless the mapping is delayed, before the call. -/
def RequestFits (s : Vmspace) (vaddr size attr : BitVec 64) (flags : BitVec 32)
    (translated : ℕ → Prop) : Prop :=
  Admitted s vaddr size attr flags →
    (pageAlignDown vaddr).toNat + pageRoundUp size.toNat < 2 ^ 64 ∧
    ∀ x, Spilled vaddr size x →
      Covered s.nodes x ∧ (flags &&& vmspaceDelayMap = 0 → translated (x / 4096))

section Request

variable {vaddr : BitVec 64}

theorem mapAddress_eq_ok_iff (hvaddr : vaddr ≠ 0) {addr : BitVec 64} :
    mapAddress s vaddr size attr = .ok addr ↔
      size ≠ 0 ∧ attr ≠ 0 ∧ s.spaceBase ≤ vaddr ∧ vaddr ≤ s.spaceTop - size ∧ addr = vaddr := by
  unfold mapAddress
  split_ifs with hargs hrange
  · refine iff_of_false nofun fun h => ?_
    exact hargs.elim h.1 h.2.1
  · refine iff_of_false nofun fun h => ?_
    rcases hrange.2 with hlow | hhigh
    · exact absurd h.2.2.1 (BitVec.not_le.mpr hlow)
    · exact absurd h.2.2.2.1 (BitVec.not_le.mpr hhigh)
  · rw [not_or] at hargs
    rw [not_and_or, not_or, BitVec.not_lt, BitVec.not_lt] at hrange
    obtain ⟨hlow, hhigh⟩ := hrange.resolve_left (not_not.mpr hvaddr)
    rw [Except.ok.injEq]
    exact ⟨fun h => ⟨hargs.1, hargs.2, hlow, hhigh, h.symm⟩, fun h => h.2.2.2.2.symm⟩

theorem admitted_iff (hvaddr : vaddr ≠ 0) :
    Admitted s vaddr size attr flags ↔ ∃ start, MapPlaced s vaddr size attr start ∧
      start = pageAlignDown vaddr ∧ (start ≠ 0 ∨ flags &&& vmspaceDelayMap ≠ 0) := by
  constructor
  · rintro ⟨hsize, hattr, hbase, htop, hfree, hmapped⟩
    exact ⟨_, ⟨⟨vaddr, (mapAddress_eq_ok_iff hvaddr).mpr ⟨hsize, hattr, hbase, htop, rfl⟩, rfl⟩,
      hfree⟩, rfl, hmapped⟩
  · rintro ⟨start, ⟨⟨addr, haddr, -⟩, hfree⟩, rfl, hmapped⟩
    obtain ⟨hsize, hattr, hbase, htop, -⟩ := (mapAddress_eq_ok_iff hvaddr).mp haddr
    exact ⟨hsize, hattr, hbase, htop, hfree, hmapped⟩

theorem MapPlaced.start_eq (hvaddr : vaddr ≠ 0) (hplaced : MapPlaced s vaddr size attr start) :
    start = pageAlignDown vaddr := by
  obtain ⟨addr, haddr, rfl⟩ := hplaced.address
  rw [((mapAddress_eq_ok_iff hvaddr).mp haddr).2.2.2.2]

/-- What a successful request leaves: its node, and the pages of its range translated. -/
structure RequestMapped (s s' : Vmspace) (vaddr size attr : BitVec 64) (flags : BitVec 32)
    (old new : ℕ → Prop) : Prop where
  admitted : Admitted s vaddr size attr flags
  nodes_eq : s'.nodes = mappedNodes s size attr flags (pageAlignDown vaddr)
  pages : flags &&& vmspaceDelayMap = 0 → PageRange (pageAlignDown vaddr) (pageAlignUp size) →
    ∀ p, old p ∨ PageIn (pageAlignDown vaddr).toNat (pageAlignUp size).toNat p → new p

theorem vmspaceMap_requestMapped {μ : Type} {M : Machine μ} {inv : μ → Prop}
    {translated : μ → ℕ → Prop} (hM : M.MapLaws attr inv translated)
    (hok : NodesOk base top s.nodes) (hvaddr : vaddr ≠ 0) {m m' : μ} (hm : inv m)
    {s' : Vmspace} {a : BitVec 64}
    (hrun : vmspaceMap M s m vaddr size attr flags = .ok (.ok a, s', m')) :
    RequestMapped s s' vaddr size attr flags (translated m) (translated m') := by
  have hout := vmspaceMapInternal_outcome M hok m vaddr 0 size attr flags
  rw [show vmspaceMapInternal M s m vaddr 0 size attr flags = _ from hrun] at hout
  cases hout with
  | delayed start m' hplaced halloc hdelay =>
      have hstart := hplaced.start_eq hvaddr
      refine ⟨(admitted_iff hvaddr).mpr ⟨_, hplaced, hstart, Or.inr hdelay⟩, ?_, ?_⟩
      · rw [← hstart]
      · exact fun hnow => absurd hnow hdelay
  | mapped start a m₁ m' hplaced halloc hmap ha hnow =>
      have hstart := hplaced.start_eq hvaddr
      obtain ⟨hm₁, hsame⟩ := hM.memAlloc hm
      rw [halloc] at hm₁ hsame
      obtain ⟨hreturns, hpages⟩ := hM.mapPage hm₁
        (show M.mapPage m₁ start (pageAlignUp size) attr = .ok (a, m') from hmap) ha
      have hne : start ≠ 0 := by
        rintro rfl
        exact ha hreturns
      subst hstart
      refine ⟨(admitted_iff hvaddr).mpr ⟨_, hplaced, rfl, Or.inl hne⟩, rfl, ?_⟩
      exact fun _ hrange p hp => hpages hrange p (hp.imp_left (hsame p).mpr)

theorem vmspaceMap_pageSet (hok : NodesOk base top s.nodes) (hvaddr : vaddr ≠ 0)
    (hadmitted : Admitted s vaddr size attr flags) (old : ℕ → Prop) :
    ∃ s' new, vmspaceMap pageSetMachine s old vaddr size attr flags =
        .ok (.ok (pageAlignDown vaddr), s', new) ∧
      s'.nodes = mappedNodes s size attr flags (pageAlignDown vaddr) ∧
      ∀ p, new p → old p ∨ PageIn (pageAlignDown vaddr).toNat (pageAlignUp size).toNat p := by
  obtain ⟨start, hplaced, rfl, hstart⟩ := (admitted_iff hvaddr).mp hadmitted
  by_cases hdelay : flags &&& vmspaceDelayMap ≠ 0
  · exact ⟨_, old, vmspaceMapInternal_delayed hplaced rfl hdelay 0, rfl, fun _ hp => Or.inl hp⟩
  · have hne := hstart.resolve_right hdelay
    refine ⟨{ s with nodes := mappedNodes s size attr flags (pageAlignDown vaddr) }, _, ?_, rfl,
      fun _ hp => hp⟩
    refine (vmspaceMapInternal_placed hok hplaced rfl (not_not.mp hdelay) 0).trans ?_
    unfold mapPages pageSetMachine
    dsimp only
    rw [if_neg (not_not.mpr rfl), pageAlignDown_idem, exec_ok_bind]
    dsimp only
    rw [if_neg hne]

theorem not_covered_of_wraps (hok : NodesOk base top s.nodes) (haligned : NodesAligned s.nodes)
    (hstart : start.toNat % 4096 = 0) (attr : BitVec 64) (flags : BitVec 32) {x : ℕ}
    (hx : 2 ^ 64 - 4096 ≤ x) : ¬Covered (mappedNodes s size attr flags start) x := by
  rintro ⟨n, hn, -, hhi⟩
  have hbounds := haligned.mappedNodes hok hstart size attr flags n hn
  have hlt : n.hi < 2 ^ 64 := n.stop.isLt
  omega

end Request

theorem pageSetMachine_mapLaws (attr : BitVec 64) :
    pageSetMachine.MapLaws attr (fun _ => True) fun m => m where
  memAlloc := fun _ => ⟨trivial, fun _ => Iff.rfl⟩
  mapPage := by
    intro m v size a m' _ h _
    cases h
    exact ⟨rfl, fun _ _ hp => hp⟩

/-- Whenever `NX_VmspaceMap` succeeds with an address, on every machine, all bytes of the request
are covered, and translated unless the mapping is delayed, exactly when the request fits. -/
theorem vmspaceMap_covers_iff (s : Vmspace) {base top : BitVec 64}
    (hok : NodesOk base top s.nodes) (haligned : NodesAligned s.nodes) {vaddr : BitVec 64}
    (hvaddr : vaddr ≠ 0) (size attr : BitVec 64) (flags : BitVec 32) (old : ℕ → Prop) :
    (∀ (μ : Type) (M : Machine μ) (inv : μ → Prop) (translated : μ → ℕ → Prop),
      M.MapLaws attr inv translated →
      ∀ (m m' : μ) (s' : Vmspace) (a : BitVec 64), inv m → (∀ p, translated m p ↔ old p) →
      vmspaceMap M s m vaddr size attr flags = .ok (.ok a, s', m') →
        ∀ x, vaddr.toNat ≤ x → x < vaddr.toNat + size.toNat →
          Covered s'.nodes x ∧ (flags &&& vmspaceDelayMap = 0 → translated m' (x / 4096))) ↔
      RequestFits s vaddr size attr flags old := by
  have hdown := pageAlignDown_toNat vaddr
  constructor
  · intro hall hadmitted
    obtain ⟨s', new, hrun, hnodes, hnew⟩ := vmspaceMap_pageSet hok hvaddr hadmitted old
    have hbytes := hall _ pageSetMachine _ (fun m => m) (pageSetMachine_mapLaws attr) old new s' _
      trivial (fun _ => Iff.rfl) hrun
    rw [hnodes] at hbytes
    have hwrap : (pageAlignDown vaddr).toNat + pageRoundUp size.toNat < 2 ^ 64 := by
      by_contra hwraps
      -- the request has a byte in the last page, which no node reaches
      have hlast : max vaddr.toNat (2 ^ 64 - 4096) < vaddr.toNat + size.toNat := by
        have hpos := pageRoundUp_pos hadmitted.size_ne
        unfold pageRoundUp at hwraps hpos
        omega
      exact not_covered_of_wraps hok haligned (by omega) attr flags (le_max_right _ _)
        (hbytes _ (le_max_left _ _) hlast).1
    have hsize : (pageAlignUp size).toNat = pageRoundUp size.toNat :=
      pageAlignUp_toNat_of_lt (by omega)
    have hpos := pageRoundUp_pos hadmitted.size_ne
    refine ⟨hwrap, ?_⟩
    rintro x ⟨hbehind, hhigh⟩
    have hlow : vaddr.toNat ≤ x := by
      unfold pageRoundUp at hbehind hpos
      omega
    obtain ⟨hcovered, htranslated⟩ := hbytes x hlow hhigh
    rw [hok.covered_mappedNodes attr flags (by omega) (by omega), hsize] at hcovered
    refine ⟨hcovered.resolve_left (by omega), fun hnow => ?_⟩
    refine (hnew _ (htranslated hnow)).resolve_right ?_
    unfold PageIn pageRoundUp at *
    omega
  · intro hfits μ M inv translated hM m m' s' a hm hold hrun x hlow hhigh
    obtain ⟨hadmitted, hnodes, hpages⟩ := vmspaceMap_requestMapped hM hok hvaddr hm hrun
    obtain ⟨hwrap, hspilled⟩ := hfits hadmitted
    have hpos := pageRoundUp_pos hadmitted.size_ne
    have hsize : (pageAlignUp size).toNat = pageRoundUp size.toNat :=
      pageAlignUp_toNat_of_lt (by omega)
    rw [hnodes, hok.covered_mappedNodes attr flags (by omega) (by omega), hsize]
    have hrange : flags &&& vmspaceDelayMap = 0 →
        PageRange (pageAlignDown vaddr) (pageAlignUp size) := by
      intro hnow
      have hne := hadmitted.mapped.resolve_right (not_not.mpr hnow)
      refine ⟨by omega, pageAlignUp_aligned size, ?_, by omega⟩
      exact Nat.pos_of_ne_zero fun hzero => hne (BitVec.eq_of_toNat_eq hzero)
    by_cases hin : x < (pageAlignDown vaddr).toNat + pageRoundUp size.toNat
    · refine ⟨Or.inl ⟨by omega, hin⟩, fun hnow => hpages hnow (hrange hnow) _ (Or.inr ?_)⟩
      unfold PageIn
      rw [hsize]
      unfold pageRoundUp at hin ⊢
      omega
    · obtain ⟨hcovered, htranslated⟩ := hspilled x ⟨Nat.le_of_not_lt hin, hhigh⟩
      exact ⟨Or.inr hcovered, fun hnow =>
        hpages hnow (hrange hnow) _ (Or.inl ((hold _).mpr (htranslated hnow)))⟩

/-- The last byte of a request lies on the page that is mapped already. -/
theorem vmspaceMap_covers_iff_onePageSpace :
    RequestFits onePageSpace 0x300000FFF 2 0x3F 0 (fun p => p = 0x300001) ∧
      ∃ s' new, vmspaceMap pageSetMachine onePageSpace (fun p => p = 0x300001) 0x300000FFF 2
          0x3F 0 = .ok (.ok 0x300000000, s', new) ∧
        Covered s'.nodes 0x300001000 ∧ new 0x300001 := by
  have hfits : RequestFits onePageSpace 0x300000FFF 2 0x3F 0 (fun p => p = 0x300001) := by
    intro _
    refine ⟨by decide, ?_⟩
    rintro x ⟨hlow, hhigh⟩
    have hstart : (pageAlignDown 0x300000FFF).toNat + pageRoundUp (2 : BitVec 64).toNat =
        0x300001000 := by
      decide
    have hend : (0x300000FFF : BitVec 64).toNat + (2 : BitVec 64).toNat = 0x300001001 := by
      decide
    have hx : x = 0x300001000 := by omega
    subst hx
    exact ⟨⟨_, List.mem_singleton.mpr rfl, by decide, by decide⟩, fun _ => by decide⟩
  obtain ⟨hcovered, hnew⟩ := (vmspaceMap_covers_iff onePageSpace onePageSpace_nodesOk
    onePageSpace_nodesAligned (by decide) 2 0x3F 0 _).mpr hfits _ pageSetMachine _ _
    (pageSetMachine_mapLaws 0x3F) _ _ _ _ trivial (fun _ => Iff.rfl) rfl 0x300001000 (by decide)
    (by decide)
  exact ⟨hfits, _, _, rfl, hcovered, hnew rfl⟩

/-- Two bytes around a page boundary are asked for, and one page is mapped. -/
theorem exists_vmspaceMap_notCovered :
    NodesOk emptyUserSpace.spaceBase emptyUserSpace.spaceTop emptyUserSpace.nodes ∧
      NodesAligned emptyUserSpace.nodes ∧
      ∃ s' new, vmspaceMap pageSetMachine emptyUserSpace (fun _ => False) 0x300000FFF 2
          0x3F 0 = .ok (.ok 0x300000000, s', new) ∧
        ¬Covered s'.nodes 0x300001000 ∧ ¬new 0x300001 := by
  refine ⟨⟨⟨nofun, List.Pairwise.nil⟩, nofun, List.nodup_nil⟩, nofun, _, _, rfl, ?_, ?_⟩
  · rintro ⟨n, hn, hlow, hhigh⟩
    rw [List.mem_singleton.mp hn] at hhigh
    exact absurd hhigh (by decide)
  · rintro (hold | hin)
    · exact hold
    · exact absurd hin.2 (by decide)

end Nxos.Mm
