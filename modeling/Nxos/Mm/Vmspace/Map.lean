import Nxos.Mm.Vmspace.Nodes

/-!
# Mapping a range

`__VmspaceMap` checks its arguments, chooses an address when none is given,
rounds the request to pages, tests it against the nodes, and inserts a node.
All of these steps compute with wrapping words, and the collision test looks at
the two ends of the request only.  The request is therefore handled correctly
exactly when, in exact arithmetic, it lies inside the space and does not enclose
a node.
-/

namespace Nxos.Mm

open Nxos.Interval

/-- A size rounded up to pages, in exact arithmetic. -/
def pageRoundUp (size : ℕ) : ℕ :=
  (size + 4095) / 4096 * 4096

/-- The rounding of the source is exact unless it wraps to zero. -/
theorem pageAlignUp_cases (v : BitVec 64) :
    (pageAlignUp v).toNat = pageRoundUp v.toNat ∧ pageRoundUp v.toNat < 2 ^ 64 ∨
      (pageAlignUp v).toNat = 0 ∧ pageRoundUp v.toNat = 2 ^ 64 := by
  have hlt := v.isLt
  rw [pageAlignUp_toNat]
  unfold pageRoundUp
  omega

/-- The rounding is exact below the end of the address space. -/
theorem pageAlignUp_toNat_of_lt {v : BitVec 64} (h : pageRoundUp v.toNat < 2 ^ 64) :
    (pageAlignUp v).toNat = pageRoundUp v.toNat := by
  rcases pageAlignUp_cases v with ⟨heq, -⟩ | ⟨-, heq⟩
  · exact heq
  · omega

theorem pageAlignDown_idem (v : BitVec 64) :
    pageAlignDown (pageAlignDown v) = pageAlignDown v :=
  pageAlignDown_of_aligned (pageAlignDown_aligned v)

/-- What holds of an address, and is passed on from a node of the map area that leaves too little
room to its end, holds of what the loop of `GetAddrFromMapArea` finds. -/
theorem mapAreaLoop_rule {s : Vmspace} {size addr : BitVec 64} {P : BitVec 64 → Prop}
    {nodes : List Vmnode}
    (hpass : ∀ n ∈ nodes, ∀ freeAddr, P freeAddr → s.mapStart ≤ n.start → n.stop ≤ s.mapEnd →
      ¬freeAddr + size ≤ n.start → P n.stop)
    {freeAddr : BitVec 64} (hfree : P freeAddr)
    (hrun : mapAreaLoop s size freeAddr nodes = some addr) : P addr := by
  induction nodes generalizing freeAddr with
  | nil =>
      cases hrun
      exact hfree
  | cons n rest ih =>
      have hrest := fun a ha => hpass a (List.mem_cons_of_mem _ ha)
      rw [mapAreaLoop] at hrun
      split_ifs at hrun with harea hfull hfits
      · cases hrun
        exact hfree
      · have hstop : P n.stop :=
          hpass n (List.mem_cons_self ..) freeAddr hfree harea.1 harea.2 hfits
        exact ih hrest hstop hrun
      · exact ih hrest hfree hrun

/-! ## Outcomes of a call -/

section

variable {μ : Type} (M : Machine μ) (s : Vmspace) (m : μ)
variable (vaddr paddr size attr : BitVec 64) (flags : BitVec 32)

/-- The request passes the checks of the source and is placed at the page
`start`. -/
structure MapPlaced (start : BitVec 64) : Prop where
  address : ∃ addr, mapAddress s vaddr size attr = .ok addr ∧ start = pageAlignDown addr
  free : vmspaceCheckAddrCollisions s.nodes start (pageAlignUp size) = false

/-- The node list after a request that was placed at `start` succeeded. -/
def mappedNodes (start : BitVec 64) : List Vmnode :=
  let node := vmnodeCreate s.nodes start (pageAlignUp size) attr flags
  vmspaceMergeNode (vmspaceInsertLinearOrder s.nodes node) node

/-- The ways in which a call of `__VmspaceMap` ends. -/
inductive MapOutcome : Exec (Except NxError (BitVec 64) × Vmspace × μ) → Prop
  | refused (err : NxError) (m' : μ) (hm : m' = m ∨ m' = (M.memAlloc m).2) :
      MapOutcome (.ok (.error err, s, m'))
  | delayed (start : BitVec 64) (m' : μ) (hplaced : MapPlaced s vaddr size attr start)
      (halloc : M.memAlloc m = (true, m')) (hdelay : flags &&& vmspaceDelayMap ≠ 0) :
      MapOutcome (.ok (.ok start, { s with nodes := mappedNodes s size attr flags start }, m'))
  | fault (start : BitVec 64) (m₁ : μ) (f : Fault)
      (hplaced : MapPlaced s vaddr size attr start) (halloc : M.memAlloc m = (true, m₁))
      (hmap : mapPages M m₁ start paddr (pageAlignUp size) attr = .error f)
      (hnow : flags &&& vmspaceDelayMap = 0) : MapOutcome (.error f)
  | unmapped (start : BitVec 64) (m₁ m' : μ)
      (hplaced : MapPlaced s vaddr size attr start) (halloc : M.memAlloc m = (true, m₁))
      (hmap : mapPages M m₁ start paddr (pageAlignUp size) attr = .ok (0, m'))
      (hnow : flags &&& vmspaceDelayMap = 0) : MapOutcome (.ok (.error .enomem, s, m'))
  | mapped (start a : BitVec 64) (m₁ m' : μ)
      (hplaced : MapPlaced s vaddr size attr start) (halloc : M.memAlloc m = (true, m₁))
      (hmap : mapPages M m₁ start paddr (pageAlignUp size) attr = .ok (a, m'))
      (ha : a ≠ 0) (hnow : flags &&& vmspaceDelayMap = 0) :
      MapOutcome (.ok (.ok a, { s with nodes := mappedNodes s size attr flags start }, m'))

end

section

variable {μ : Type} {M : Machine μ} {s : Vmspace} {base top : BitVec 64} {m m₁ : μ}
variable {vaddr size attr start : BitVec 64} {flags : BitVec 32}

/-- A request that was placed, with memory for its node, goes on to the page table. -/
theorem vmspaceMapInternal_placed (hok : NodesOk base top s.nodes)
    (hplaced : MapPlaced s vaddr size attr start) (halloc : M.memAlloc m = (true, m₁))
    (hnow : flags &&& vmspaceDelayMap = 0) (paddr : BitVec 64) :
    vmspaceMapInternal M s m vaddr paddr size attr flags =
      mapPages M m₁ start paddr (pageAlignUp size) attr >>= fun r =>
        .ok (if r.1 = 0 then (.error .enomem, s, r.2)
          else (.ok r.1, { s with nodes := mappedNodes s size attr flags start }, r.2)) := by
  obtain ⟨addr, haddr, rfl⟩ := hplaced.address
  have hid := vmnodeCreate_id_notMem s.nodes (pageAlignDown addr) (pageAlignUp size) attr flags
  have hback := hok.listDel_insert hid
  have hlinked : (vmnodeCreate s.nodes (pageAlignDown addr) (pageAlignUp size) attr flags).id ∈
      (vmspaceInsertLinearOrder s.nodes (vmnodeCreate s.nodes (pageAlignDown addr)
        (pageAlignUp size) attr flags)).map Vmnode.id := by
    rw [hok.vmspaceInsertLinearOrder_eq]
    simp
  unfold vmspaceMapInternal
  rw [haddr]
  dsimp only
  rw [hplaced.free, if_neg Bool.false_ne_true, halloc]
  dsimp only
  unfold mapInserted
  rw [if_neg (show ¬(vmnodeCreate s.nodes (pageAlignDown addr) (pageAlignUp size) attr
    flags).flags &&& vmspaceDelayMap ≠ 0 from not_not.mpr hnow)]
  change mapPages M m₁ (pageAlignDown addr) paddr (pageAlignUp size) attr >>= _ = _
  cases mapPages M m₁ (pageAlignDown addr) paddr (pageAlignUp size) attr with
  | error f => rfl
  | ok r =>
      rw [exec_ok_bind, exec_ok_bind]
      dsimp only
      by_cases hr : r.1 = 0
      · rw [if_pos hr, if_pos hr, vmspaceRemoveNode, if_pos hlinked, hback]
      · rw [if_neg hr, if_neg hr]
        rfl

theorem vmspaceMapInternal_delayed (hplaced : MapPlaced s vaddr size attr start)
    (halloc : M.memAlloc m = (true, m₁)) (hdelay : flags &&& vmspaceDelayMap ≠ 0)
    (paddr : BitVec 64) :
    vmspaceMapInternal M s m vaddr paddr size attr flags =
      .ok (.ok start, { s with nodes := mappedNodes s size attr flags start }, m₁) := by
  obtain ⟨addr, haddr, rfl⟩ := hplaced.address
  unfold vmspaceMapInternal
  rw [haddr]
  dsimp only
  rw [hplaced.free, if_neg Bool.false_ne_true, halloc]
  dsimp only
  unfold mapInserted
  rw [if_pos (show (vmnodeCreate s.nodes (pageAlignDown addr) (pageAlignUp size) attr
    flags).flags &&& vmspaceDelayMap ≠ 0 from hdelay)]
  rfl

end

/-- Every call of `__VmspaceMap` on a well-formed space ends in one of these ways. -/
theorem vmspaceMapInternal_outcome {μ : Type} (M : Machine μ) {s : Vmspace}
    {base top : BitVec 64} (hok : NodesOk base top s.nodes) (m : μ)
    (vaddr paddr size attr : BitVec 64) (flags : BitVec 32) :
    MapOutcome M s m vaddr paddr size attr flags
      (vmspaceMapInternal M s m vaddr paddr size attr flags) := by
  cases haddr : mapAddress s vaddr size attr with
  | error err =>
      unfold vmspaceMapInternal
      rw [haddr]
      exact .refused err m (Or.inl rfl)
  | ok addr =>
      cases hfree : vmspaceCheckAddrCollisions s.nodes (pageAlignDown addr)
          (pageAlignUp size) with
      | true =>
          unfold vmspaceMapInternal
          rw [haddr]
          dsimp only
          rw [hfree]
          exact .refused .einval m (Or.inl rfl)
      | false =>
          have hplaced : MapPlaced s vaddr size attr (pageAlignDown addr) :=
            ⟨⟨addr, haddr, rfl⟩, hfree⟩
          rcases halloc : M.memAlloc m with ⟨ok, m₁⟩
          cases ok with
          | false =>
              unfold vmspaceMapInternal
              rw [haddr]
              dsimp only
              rw [hfree, if_neg Bool.false_ne_true, halloc]
              exact .refused .enomem m₁ (Or.inr (by rw [halloc]))
          | true =>
              by_cases hdelay : flags &&& vmspaceDelayMap ≠ 0
              · rw [vmspaceMapInternal_delayed hplaced halloc hdelay]
                exact .delayed _ m₁ hplaced halloc hdelay
              · have hnow := not_not.mp hdelay
                rw [vmspaceMapInternal_placed hok hplaced halloc hnow]
                cases hmap : mapPages M m₁ (pageAlignDown addr) paddr (pageAlignUp size)
                    attr with
                | error f => exact .fault _ m₁ f hplaced halloc hmap hnow
                | ok r =>
                    obtain ⟨a, m'⟩ := r
                    rw [exec_ok_bind]
                    dsimp only
                    by_cases ha : a = 0
                    · rw [if_pos ha]
                      exact .unmapped _ m₁ m' hplaced halloc (ha ▸ hmap) hnow
                    · rw [if_neg ha]
                      exact .mapped _ a m₁ m' hplaced halloc hmap ha hnow

/-! ## When a mapping is right -/

/-- A mapping operation that succeeds returns the page it was asked for. -/
structure Machine.MapReturns {μ : Type} (M : Machine μ) : Prop where
  mapPage : ∀ {m v size attr a m'}, M.mapPage m v size attr = .ok (a, m') → a ≠ 0 →
    a = pageAlignDown v
  mapPageWithPhy : ∀ {m v p size attr a m'},
    M.mapPageWithPhy m v p size attr = .ok (a, m') → a ≠ 0 → a = pageAlignDown v

theorem Machine.MapReturns.mapPages {μ : Type} {M : Machine μ} (h : M.MapReturns)
    {m m' : μ} {v p size attr a : BitVec 64}
    (hrun : mapPages M m v p size attr = .ok (a, m')) (ha : a ≠ 0) :
    a = pageAlignDown v := by
  unfold Mm.mapPages at hrun
  split at hrun
  · obtain ⟨_, _, hrun⟩ := exec_bind_eq_ok_iff.mp hrun
    exact h.mapPageWithPhy hrun ha
  · exact h.mapPage hrun ha

/-- The range `[a, a + size rounded up)` was added to the space: it is not empty,
lies in the space, was free, and is the only change. -/
structure MapAdded (s s' : Vmspace) (a size attr : BitVec 64) (flags : BitVec 32) :
    Prop where
  nonempty : 0 < (pageAlignUp size).toNat
  inside : s.spaceBase.toNat ≤ a.toNat ∧
    a.toNat + (pageAlignUp size).toNat ≤ s.spaceTop.toNat
  disjoint : ∀ n ∈ s.nodes, ∀ x, n.lo ≤ x → x < n.hi →
    ¬(a.toNat ≤ x ∧ x < a.toNat + (pageAlignUp size).toNat)
  nodes_ok : NodesOk s.spaceBase s.spaceTop s'.nodes
  nodes_aligned : NodesAligned s.nodes → NodesAligned s'.nodes
  lookup_eq : ∀ x, nodesLookup s'.nodes x =
    if a.toNat ≤ x ∧ x < a.toNat + (pageAlignUp size).toNat then some (attr, flags)
    else nodesLookup s.nodes x

/-- A request that the checks let through is, in exact arithmetic, inside the space
and has no node strictly inside.  Page zero is only mapped with delay. -/
def MapFits (s : Vmspace) (vaddr size attr : BitVec 64) (flags : BitVec 32) : Prop :=
  ∀ start, MapPlaced s vaddr size attr start →
    (start ≠ 0 ∨ flags &&& vmspaceDelayMap ≠ 0) →
    s.spaceBase.toNat ≤ start.toNat ∧
    start.toNat + pageRoundUp size.toNat ≤ s.spaceTop.toNat ∧
    ∀ n ∈ s.nodes, ¬(start.toNat < n.lo ∧ n.hi < start.toNat + pageRoundUp size.toNat)

theorem mapAddress_size_ne_zero {s : Vmspace} {vaddr size attr addr : BitVec 64}
    (h : mapAddress s vaddr size attr = .ok addr) : size ≠ 0 := by
  rintro rfl
  simp [mapAddress] at h

theorem pageRoundUp_pos {size : BitVec 64} (h : size ≠ 0) : 0 < pageRoundUp size.toNat := by
  have hne : size.toNat ≠ 0 := fun heq => h (BitVec.eq_of_toNat_eq heq)
  unfold pageRoundUp
  omega

/-- The collision test is complete for requests that do not wrap and do not
enclose the node. -/
theorem disjoint_of_checkAddrCollisions {nodes : List Vmnode} {start size : BitVec 64}
    (hfree : vmspaceCheckAddrCollisions nodes start size = false)
    (hwrap : start.toNat + size.toNat < 2 ^ 64) {n : Vmnode} (hn : n ∈ nodes)
    (hin : ¬(start.toNat < n.lo ∧ n.hi < start.toNat + size.toNat)) :
    n.hi ≤ start.toNat ∨ start.toNat + size.toNat ≤ n.lo := by
  have hend : (start + size).toNat = start.toNat + size.toNat := by
    rw [BitVec.toNat_add]
    exact Nat.mod_eq_of_lt hwrap
  unfold vmspaceCheckAddrCollisions at hfree
  have hnode := List.any_eq_false.mp hfree n hn
  simp only [decide_eq_true_eq, not_or, not_and, BitVec.le_def, BitVec.lt_def, hend] at hnode
  unfold Vmnode.lo Vmnode.hi at *
  omega

/-- A free range inside the bounds is added as it should be. -/
theorem NodesOk.mappedNodes {s : Vmspace} {base top : BitVec 64}
    (hok : NodesOk base top s.nodes) {size start : BitVec 64} (attr : BitVec 64)
    (flags : BitVec 32) (hpos : 0 < (pageAlignUp size).toNat)
    (hbase : base.toNat ≤ start.toNat)
    (htop : start.toNat + (pageAlignUp size).toNat ≤ top.toNat)
    (hdisj : ∀ n ∈ s.nodes,
      n.hi ≤ start.toNat ∨ start.toNat + (pageAlignUp size).toNat ≤ n.lo) :
    NodesOk base top (mappedNodes s size attr flags start) ∧
      (start.toNat % 4096 = 0 → NodesAligned s.nodes →
        NodesAligned (Mm.mappedNodes s size attr flags start)) ∧
      ∀ x, nodesLookup (Mm.mappedNodes s size attr flags start) x =
        if start.toNat ≤ x ∧ x < start.toNat + (pageAlignUp size).toNat then some (attr, flags)
        else nodesLookup s.nodes x := by
  have htopLt := top.isLt
  generalize hnode : vmnodeCreate s.nodes start (pageAlignUp size) attr flags = node
  have hid : node.id ∉ s.nodes.map Vmnode.id :=
    hnode ▸ vmnodeCreate_id_notMem s.nodes start (pageAlignUp size) attr flags
  have hlo : node.lo = start.toNat := by
    rw [← hnode]
    rfl
  have hhi : node.hi = start.toNat + (pageAlignUp size).toNat := by
    rw [← hnode]
    change (start + pageAlignUp size).toNat = _
    rw [BitVec.toNat_add]
    exact Nat.mod_eq_of_lt (by omega)
  have hval : node.val = (attr, flags) := by
    rw [← hnode]
    rfl
  obtain ⟨hokIns, hmem⟩ := hok.insert (by omega) ⟨by omega, by omega⟩ hid (by
    rw [hlo, hhi]
    exact hdisj)
  have halIns : start.toNat % 4096 = 0 → NodesAligned s.nodes →
      NodesAligned (vmspaceInsertLinearOrder s.nodes node) := by
    intro hstart hal n hn
    rcases (hmem n).mp hn with rfl | hn
    · rw [hhi, hlo, pageAlignUp_toNat]
      omega
    · exact hal n hn
  have hkeeps := hokIns.vmspaceMergeNode ((hmem node).mpr (Or.inl rfl))
  have hnodes : Mm.mappedNodes s size attr flags start =
      Mm.vmspaceMergeNode (vmspaceInsertLinearOrder s.nodes node) node := by
    rw [← hnode]
    rfl
  rw [hnodes]
  refine ⟨hkeeps.ok, fun hstart hal => hkeeps.aligned (halIns hstart hal), ?_⟩
  intro x
  rw [hkeeps.lookup_eq, hok.insert_lookup hokIns hmem, hlo, hhi, hval]

theorem mappedNodes_added {s : Vmspace} {vaddr size attr start : BitVec 64}
    {flags : BitVec 32} (hok : NodesOk s.spaceBase s.spaceTop s.nodes)
    (hfits : MapFits s vaddr size attr flags)
    (hplaced : MapPlaced s vaddr size attr start)
    (hstart : start ≠ 0 ∨ flags &&& vmspaceDelayMap ≠ 0) :
    MapAdded s { s with nodes := mappedNodes s size attr flags start } start size attr
      flags := by
  obtain ⟨hbase, htop, hencl⟩ := hfits start hplaced hstart
  obtain ⟨addr, haddr, hstartEq⟩ := hplaced.address
  have hpos := pageRoundUp_pos (mapAddress_size_ne_zero haddr)
  have htopLt := s.spaceTop.isLt
  have hsize : (pageAlignUp size).toNat = pageRoundUp size.toNat :=
    pageAlignUp_toNat_of_lt (by omega)
  have hdisj : ∀ n ∈ s.nodes,
      n.hi ≤ start.toNat ∨ start.toNat + (pageAlignUp size).toNat ≤ n.lo := by
    intro n hn
    exact disjoint_of_checkAddrCollisions hplaced.free (by omega) hn (hsize ▸ hencl n hn)
  have haligned : start.toNat % 4096 = 0 := by
    rw [hstartEq]
    exact pageAlignDown_aligned addr
  obtain ⟨hnodes, hal, hlookup⟩ := hok.mappedNodes attr flags (by omega) hbase
    (by omega) hdisj
  constructor
  · omega
  · exact ⟨hbase, by omega⟩
  · intro n hn x hxlo hxhi hx
    rcases hdisj n hn with hle | hle <;> omega
  · exact hnodes
  · exact hal haligned
  · exact hlookup

def generousMachine : Machine Unit where
  memAlloc := fun _ => (true, ())
  pageIncrease := fun _ _ => .ok ()
  mapPage := fun _ v _ _ => .ok (pageAlignDown v, ())
  mapPageWithPhy := fun _ v _ _ _ => .ok (pageAlignDown v, ())
  unmapPage := fun _ _ _ => .ok (.eok, ())

theorem generousMachine_mapReturns : generousMachine.MapReturns where
  mapPage := by
    intro m v size attr a m' h _
    cases h
    rfl
  mapPageWithPhy := by
    intro m v p size attr a m' h _
    cases h
    rfl

/-- On a generous machine a request that the checks let through succeeds. -/
theorem vmspaceMapInternal_generous {s : Vmspace} {base top vaddr size attr start : BitVec 64}
    {flags : BitVec 32} (hok : NodesOk base top s.nodes) (paddr : BitVec 64)
    (hplaced : MapPlaced s vaddr size attr start)
    (hstart : start ≠ 0 ∨ flags &&& vmspaceDelayMap ≠ 0) :
    ∃ s', vmspaceMapInternal generousMachine s () vaddr paddr size attr flags =
      .ok (.ok start, s', ()) := by
  by_cases hdelay : flags &&& vmspaceDelayMap ≠ 0
  · exact ⟨_, vmspaceMapInternal_delayed hplaced rfl hdelay paddr⟩
  · have hne := hstart.resolve_right hdelay
    obtain ⟨addr, -, rfl⟩ := hplaced.address
    have hmap : mapPages generousMachine () (pageAlignDown addr) paddr (pageAlignUp size)
        attr = .ok (pageAlignDown addr, ()) := by
      unfold mapPages
      simp only [generousMachine, pageAlignDown_idem, exec_ok_bind, ite_self]
    refine ⟨{ s with nodes := mappedNodes s size attr flags (pageAlignDown addr) }, ?_⟩
    rw [vmspaceMapInternal_placed hok hplaced rfl (not_not.mp hdelay)]
    refine (congrArg (· >>= _) hmap).trans ?_
    rw [exec_ok_bind]
    dsimp only
    rw [if_neg hne]

def onePageSpace : Vmspace where
  nodes := [⟨1, 0x300001000#64, 0x300002000#64, 0x3F#64, 0#32⟩]
  table := true
  spaceBase := 0x100000000#64
  spaceTop := 0x400000000#64
  heapStart := 0x200000000#64
  heapEnd := 0x300000000#64
  heapCurrent := 0x200000000#64
  mapStart := 0x300000000#64
  mapEnd := 0x380000000#64

theorem onePageSpace_nodesOk :
    NodesOk onePageSpace.spaceBase onePageSpace.spaceTop onePageSpace.nodes := by
  constructor
  · constructor
    · simp [onePageSpace, Vmnode.lo, Vmnode.hi]
    · simp [onePageSpace]
  · simp [onePageSpace, Vmnode.lo, Vmnode.hi]
  · simp [onePageSpace]

theorem onePageSpace_nodesAligned : NodesAligned onePageSpace.nodes := by
  simp [NodesAligned, onePageSpace, Vmnode.lo, Vmnode.hi]

end Nxos.Mm
