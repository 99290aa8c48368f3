import Nxos.Mm.Vmspace.Map
import Nxos.Support.Transition

/-!
# Unmapping a range

`NX_VmspaceUnmap` finds the node around the range, cuts the range out of it, and
clears the page table.  When the page table refuses, the node is put back and
merged with its neighbours.  The end of the range is a wrapping sum in all of
these steps, so that a range which wraps around the address space can pass them.
-/

namespace Nxos.Mm

open Nxos.Interval Nxos.Transition

/-! ## The machine along a call -/

/-- `m'` arises from `m` by allocations of nodes only. -/
def Machine.AllocReach {μ : Type} (M : Machine μ) : μ → μ → Prop :=
  Reachable fun m (_ : Unit) m' => m' = (M.memAlloc m).2

theorem splitPart_allocReach {μ : Type} (M : Machine μ) (inUse : List Vmnode) (m : μ)
    (node : Vmnode) (start stop : BitVec 64) :
    M.AllocReach m (splitPart M inUse m node start stop).2 := by
  unfold splitPart
  by_cases heq : start = stop
  · rw [if_pos heq]
    exact .refl
  · rw [if_neg heq]
    have hstep : M.AllocReach m (M.memAlloc m).2 := .tail (a := ()) .refl rfl
    rcases halloc : M.memAlloc m with ⟨ok, m'⟩
    rw [halloc] at hstep
    cases ok with
    | false => exact hstep
    | true => exact hstep

theorem vmspaceSplitNode_allocReach {μ : Type} (M : Machine μ) (nodes : List Vmnode)
    (m : μ) (node : Vmnode) (addr size : BitVec 64) :
    M.AllocReach m (vmspaceSplitNode M nodes m node addr size).2 := by
  unfold vmspaceSplitNode
  by_cases hexact : node.start = addr ∧ node.stop = addr + size
  · rw [if_pos hexact]
    exact .refl
  · rw [if_neg hexact]
    have hprev := splitPart_allocReach M nodes m node node.start addr
    rcases hp : splitPart M nodes m node node.start addr with ⟨prev | prev, m₁⟩
    · rw [hp] at hprev
      exact hprev
    · rw [hp] at hprev
      have hnext := splitPart_allocReach M (prev.toList ++ nodes) m₁ node (addr + size)
        node.stop
      dsimp only
      rcases hn : splitPart M (prev.toList ++ nodes) m₁ node (addr + size) node.stop with
        ⟨next | next, m₂⟩
      · rw [hn] at hnext
        exact hnext.trans hprev
      · rw [hn] at hnext
        exact hnext.trans hprev

/-! ## Outcomes of a call -/

namespace NodesOk

variable {base top : BitVec 64} {nodes : List Vmnode}

theorem listDel_lookup (h : NodesOk base top nodes) {node : Vmnode} (hnode : node ∈ nodes)
    (x : ℕ) :
    nodesLookup (Mm.listDel nodes node.id) x =
      if node.lo ≤ x ∧ x < node.hi then none else nodesLookup nodes x := by
  have hmem : ∀ n, n ∈ Mm.listDel nodes node.id ↔ n ∈ nodes ∧ n ≠ node := by
    intro n
    rw [mem_listDel]
    refine and_congr_right fun hn => not_congr ⟨h.nodesLinked.eq_of_id hn hnode, ?_⟩
    rintro rfl
    rfl
  split_ifs with hx
  · apply lookup_eq_none_iff.mpr
    intro n hn hnx
    obtain ⟨hn, hne⟩ := (hmem n).mp hn
    exact hne (h.separated.eq_of_contains hn hnode hnx hx)
  · apply (h.listDel node.id).separated.lookup_congr h.separated
    intro v
    constructor
    · rintro ⟨n, hn, hnx, hv⟩
      exact ⟨n, ((hmem n).mp hn).1, hnx, hv⟩
    · rintro ⟨n, hn, hnx, hv⟩
      refine ⟨n, (hmem n).mpr ⟨hn, ?_⟩, hnx, hv⟩
      rintro rfl
      exact hx hnx

theorem putBack (h : NodesOk base top nodes) {node : Vmnode} (hnode : node ∈ nodes) :
    NodesOk base top (Mm.vmspaceMergeNode
        (vmspaceInsertLinearOrder (Mm.listDel nodes node.id) node) node) ∧
      nodesLookup (Mm.vmspaceMergeNode
        (vmspaceInsertLinearOrder (Mm.listDel nodes node.id) node) node) =
        nodesLookup nodes ∧
      (NodesAligned nodes → NodesAligned (Mm.vmspaceMergeNode
        (vmspaceInsertLinearOrder (Mm.listDel nodes node.id) node) node)) := by
  have hdel := h.listDel node.id
  have hid : node.id ∉ (Mm.listDel nodes node.id).map Vmnode.id := by
    intro hmem
    obtain ⟨n, hn, heq⟩ := List.mem_map.mp hmem
    exact (mem_listDel.mp hn).2 heq
  have hdisj : ∀ n ∈ Mm.listDel nodes node.id, n.hi ≤ node.lo ∨ node.hi ≤ n.lo := by
    intro n hn
    obtain ⟨hn, hnid⟩ := mem_listDel.mp hn
    exact h.separated.apart hn hnode fun heq => hnid (congrArg Vmnode.id heq)
  obtain ⟨hok, hmem⟩ := hdel.insert (h.separated.nonempty node hnode)
    (h.inside node hnode) hid hdisj
  have hkeeps := hok.vmspaceMergeNode ((hmem node).mpr (Or.inl rfl))
  refine ⟨hkeeps.ok, hkeeps.lookup_eq.trans ?_, fun hal => hkeeps.aligned ?_⟩
  · funext x
    rw [hdel.insert_lookup hok hmem, h.listDel_lookup hnode]
    split_ifs with hx
    · exact (h.separated.lookup_eq_some_iff.mpr ⟨node, hnode, hx, rfl⟩).symm
    · rfl
  · intro n hn
    rcases (hmem n).mp hn with rfl | hn
    · exact hal n hnode
    · exact hal n (mem_listDel.mp hn).1

end NodesOk

/-- The rounded range is a page range inside one node, and the rounding of the
source is exact. -/
structure UnmapRange (s : Vmspace) (addr size : BitVec 64) : Prop where
  aligned : addr.toNat % 4096 = 0
  nonempty : 0 < pageRoundUp size.toNat
  size_eq : (pageAlignUp size).toNat = pageRoundUp size.toNat
  node : ∃ n ∈ s.nodes, n.lo ≤ addr.toNat ∧ addr.toNat + pageRoundUp size.toNat ≤ n.hi

/-- `nodes` is the list of `s` without the range. -/
structure RangeRemoved (s : Vmspace) (addr size : BitVec 64) (nodes : List Vmnode) :
    Prop where
  ok : NodesOk s.spaceBase s.spaceTop nodes
  lookup_eq : ∀ x, nodesLookup nodes x =
    if addr.toNat ≤ x ∧ x < addr.toNat + pageRoundUp size.toNat then none
    else nodesLookup s.nodes x
  aligned : NodesAligned s.nodes → NodesAligned nodes

/-- The ways in which a call of `NX_VmspaceUnmap` ends. -/
inductive UnmapOutcome {μ : Type} (M : Machine μ) (s : Vmspace) (m : μ)
    (addr size : BitVec 64) : Exec (NxError × Vmspace × μ) → Prop
  | refused (err : NxError) (m' : μ) (herr : err ≠ .eok) (hm : M.AllocReach m m') :
      UnmapOutcome M s m addr size (.ok (err, s, m'))
  | fault (m₁ : μ) (f : Fault) (hm : M.AllocReach m m₁) (hrange : UnmapRange s addr size)
      (hrun : M.unmapPage m₁ addr (pageAlignUp size) = .error f) :
      UnmapOutcome M s m addr size (.error f)
  | restored (m₁ m' : μ) (err : NxError) (nodes : List Vmnode) (hm : M.AllocReach m m₁)
      (hrange : UnmapRange s addr size)
      (hrun : M.unmapPage m₁ addr (pageAlignUp size) = .ok (err, m')) (herr : err ≠ .eok)
      (hok : NodesOk s.spaceBase s.spaceTop nodes)
      (hlookup : nodesLookup nodes = nodesLookup s.nodes)
      (haligned : NodesAligned s.nodes → NodesAligned nodes) :
      UnmapOutcome M s m addr size (.ok (.efault, { s with nodes }, m'))
  | removed (m₁ m' : μ) (nodes : List Vmnode) (hm : M.AllocReach m m₁)
      (hrange : UnmapRange s addr size)
      (hrun : M.unmapPage m₁ addr (pageAlignUp size) = .ok (.eok, m'))
      (hremoved : RangeRemoved s addr size nodes) :
      UnmapOutcome M s m addr size (.ok (.eok, { s with nodes }, m'))

/-- A range that passes the checks and is found in a node does not wrap around the
address space. -/
def UnmapFits (s : Vmspace) (addr size : BitVec 64) : Prop :=
  ¬unmapRefused s addr size →
    (vmspaceFindNode s.nodes addr (pageAlignUp size)).isSome →
    addr.toNat + pageRoundUp size.toNat < 2 ^ 64

theorem size_ne_zero_of_not_unmapRefused {s : Vmspace} {addr size : BitVec 64}
    (h : ¬unmapRefused s addr size) : size ≠ 0 := by
  rintro rfl
  exact h (Or.inr (Or.inl rfl))

theorem vmspaceFindNode_eq_some {nodes : List Vmnode} {addr size : BitVec 64} {n : Vmnode}
    (h : vmspaceFindNode nodes addr size = some n) :
    n ∈ nodes ∧ n.lo ≤ addr.toNat ∧ (addr + size).toNat ≤ n.hi := by
  refine ⟨List.mem_of_find?_eq_some h, ?_⟩
  have hcond := List.find?_some h
  simp only [decide_eq_true_eq, BitVec.le_def] at hcond
  exact hcond

theorem vmspaceFindNode_isSome {nodes : List Vmnode} {addr size : BitVec 64}
    (hfits : addr.toNat + size.toNat < 2 ^ 64)
    (hnode : ∃ n ∈ nodes, n.lo ≤ addr.toNat ∧ addr.toNat + size.toNat ≤ n.hi) :
    (vmspaceFindNode nodes addr size).isSome = true := by
  obtain ⟨n, hn, hlo, hhi⟩ := hnode
  unfold vmspaceFindNode
  rw [List.find?_isSome]
  refine ⟨n, hn, decide_eq_true ⟨BitVec.le_def.mpr hlo, BitVec.le_def.mpr ?_⟩⟩
  rw [BitVec.toNat_add, Nat.mod_eq_of_lt hfits]
  exact hhi

theorem UnmapFits.range {s : Vmspace} {addr size : BitVec 64} (hfits : UnmapFits s addr size)
    (hchecked : ¬unmapRefused s addr size) {node : Vmnode}
    (hfind : vmspaceFindNode s.nodes addr (pageAlignUp size) = some node) :
    UnmapRange s addr size ∧ node ∈ s.nodes ∧ node.lo ≤ addr.toNat ∧
      addr.toNat + (pageAlignUp size).toNat ≤ node.hi := by
  have hwrap := hfits hchecked (by rw [hfind]; rfl)
  obtain ⟨hnode, hlo, hhi⟩ := vmspaceFindNode_eq_some hfind
  have hpos := pageRoundUp_pos (size_ne_zero_of_not_unmapRefused hchecked)
  have hsize : (pageAlignUp size).toNat = pageRoundUp size.toNat :=
    pageAlignUp_toNat_of_lt (by omega)
  have hend : (addr + pageAlignUp size).toNat =
      addr.toNat + (pageAlignUp size).toNat := by
    rw [BitVec.toNat_add]
    exact Nat.mod_eq_of_lt (by omega)
  have haligned : addr.toNat % 4096 = 0 := by
    rw [← and_pageMask_eq_zero_iff]
    by_contra hmask
    exact hchecked (Or.inr (Or.inr (Or.inl hmask)))
  exact ⟨⟨haligned, hpos, hsize, node, hnode, hlo, by omega⟩, hnode, hlo, by omega⟩

/-- Every call of `NX_VmspaceUnmap` with a range that fits ends in one of these
ways. -/
theorem vmspaceUnmap_outcome {μ : Type} (M : Machine μ) {s : Vmspace}
    (hok : NodesOk s.spaceBase s.spaceTop s.nodes) (m : μ) {addr size : BitVec 64}
    (hfits : UnmapFits s addr size) :
    UnmapOutcome M s m addr size (vmspaceUnmap M s m addr size) := by
  unfold vmspaceUnmap
  by_cases href : unmapRefused s addr size
  · rw [if_pos href]
    exact .refused .einval m (by decide) .refl
  rw [if_neg href]
  dsimp only
  cases hfind : vmspaceFindNode s.nodes addr (pageAlignUp size) with
  | none => exact .refused .efault m (by decide) .refl
  | some node =>
      dsimp only
      obtain ⟨hrange, hnode, hlo, hhi⟩ := hfits.range href hfind
      have haligned := hrange.aligned
      have hpos := hrange.nonempty
      have hsize := hrange.size_eq
      have hreach := vmspaceSplitNode_allocReach M s.nodes m node addr (pageAlignUp size)
      rcases hok.vmspaceSplitNode M m hnode hlo (by omega) hhi with
        ⟨m₁, hsplit⟩ | ⟨nodes, node', m₁, hsplit, hcarved⟩
      · rw [hsplit] at hreach ⊢
        exact .refused .enomem m₁ (by decide) hreach
      · rw [hsplit] at hreach ⊢
        dsimp only
        have hlinked : node'.id ∈ nodes.map Vmnode.id :=
          List.mem_map.mpr ⟨node', hcarved.mem, rfl⟩
        unfold unmapSplit
        dsimp only
        rw [vmspaceRemoveNode, if_pos hlinked]
        dsimp only
        have hcarvedAl : NodesAligned s.nodes → NodesAligned nodes := by
          intro hal
          refine hcarved.aligned hal haligned ?_
          rw [hsize]
          unfold pageRoundUp
          omega
        cases hrun : M.unmapPage m₁ addr (pageAlignUp size) with
        | error f => exact .fault m₁ f hreach hrange hrun
        | ok r =>
            obtain ⟨err, m'⟩ := r
            rw [exec_ok_bind]
            dsimp only
            by_cases herr : err ≠ .eok
            · obtain ⟨hbackOk, hback, hbackAl⟩ := hcarved.ok.putBack hcarved.mem
              rw [if_pos herr]
              exact .restored m₁ m' err _ hreach hrange hrun herr hbackOk
                (hback.trans hcarved.lookup_eq) fun hal => hbackAl (hcarvedAl hal)
            · rw [not_not] at herr
              subst err
              rw [if_neg (by simp)]
              refine .removed m₁ m' _ hreach hrange hrun ⟨hcarved.ok.listDel _, ?_, ?_⟩
              · intro x
                rw [hcarved.ok.listDel_lookup hcarved.mem, hcarved.lo_eq, hcarved.hi_eq,
                  hsize, hcarved.lookup_eq]
              · intro hal n hn
                exact hcarvedAl hal n (mem_listDel.mp hn).1

theorem not_unmapRefused_widen {s : Vmspace} {base top : BitVec 64}
    (hbase : base.toNat ≤ s.spaceBase.toNat) (htop : s.spaceTop.toNat ≤ top.toNat)
    {addr size : BitVec 64} (hchecked : ¬unmapRefused s addr size) :
    ¬unmapRefused { s with spaceBase := base, spaceTop := top } addr size := by
  unfold unmapRefused at hchecked ⊢
  simp only [not_or, BitVec.lt_def, BitVec.le_def] at hchecked ⊢
  obtain ⟨h₁, h₂, h₃, h₄, h₅, h₆⟩ := hchecked
  exact ⟨h₁, h₂, h₃, by omega, by omega, by omega⟩

theorem vmspaceUnmap_widen {μ : Type} (M : Machine μ) {s : Vmspace} {base top : BitVec 64}
    (hbase : base.toNat ≤ s.spaceBase.toNat) (htop : s.spaceTop.toNat ≤ top.toNat) (m : μ)
    {addr size : BitVec 64} (hchecked : ¬unmapRefused s addr size) :
    vmspaceUnmap M s m addr size =
      (vmspaceUnmap M { s with spaceBase := base, spaceTop := top } m addr size).map
        fun r => (r.1, { r.2.1 with spaceBase := s.spaceBase, spaceTop := s.spaceTop },
          r.2.2) := by
  have hchecked' := not_unmapRefused_widen hbase htop hchecked
  unfold vmspaceUnmap
  rw [if_neg hchecked, if_neg hchecked']
  dsimp only
  cases vmspaceFindNode s.nodes addr (pageAlignUp size) with
  | none => rfl
  | some node =>
      dsimp only
      rcases vmspaceSplitNode M s.nodes m node addr (pageAlignUp size) with
        ⟨err | ⟨nodes, node'⟩, m₁⟩
      · rfl
      · dsimp only
        unfold unmapSplit
        dsimp only
        cases vmspaceRemoveNode nodes node' with
        | none => rfl
        | some nodes' =>
            dsimp only
            cases M.unmapPage m₁ addr (pageAlignUp size) with
            | error f => rfl
            | ok r =>
                rw [exec_ok_bind, exec_ok_bind]
                split_ifs <;> rfl

/-- A successful `NX_VmspaceUnmap` has split a node and removed the part in the range. -/
theorem vmspaceUnmap_eok {μ : Type} {M : Machine μ} {s s' : Vmspace} {m m' : μ}
    {addr size : BitVec 64} (hrun : vmspaceUnmap M s m addr size = .ok (.eok, s', m')) :
    ∃ node nodes node' m₁, vmspaceFindNode s.nodes addr (pageAlignUp size) = some node ∧
      vmspaceSplitNode M s.nodes m node addr (pageAlignUp size) = (.ok (nodes, node'), m₁) ∧
      M.unmapPage m₁ addr (pageAlignUp size) = .ok (.eok, m') ∧
      s' = { s with nodes := listDel nodes node'.id } := by
  unfold vmspaceUnmap at hrun
  split_ifs at hrun
  · cases hrun
  dsimp only at hrun
  cases hfind : vmspaceFindNode s.nodes addr (pageAlignUp size) with
  | none =>
      rw [hfind] at hrun
      cases hrun
  | some node =>
      rw [hfind] at hrun
      dsimp only at hrun
      rcases hsplit : vmspaceSplitNode M s.nodes m node addr (pageAlignUp size) with
        ⟨err | ⟨nodes, node'⟩, m₁⟩
      · rw [hsplit] at hrun
        cases hrun
      rw [hsplit] at hrun
      dsimp only at hrun
      unfold unmapSplit vmspaceRemoveNode at hrun
      dsimp only at hrun
      split_ifs at hrun with hlinked
      · obtain ⟨⟨err, m₂⟩, hunmap, hrest⟩ := exec_bind_eq_ok_iff.mp hrun
        dsimp only at hrest
        split_ifs at hrest with herr
        · cases hrest
        · cases hrest
          rw [not_not] at herr
          rw [herr] at hunmap
          exact ⟨node, nodes, node', m₁, rfl, hsplit, hunmap, rfl⟩
      · cases hrun

/-- A successful `NX_VmspaceUnmap` has cleared the rounded range in the page table. -/
theorem unmapPage_of_vmspaceUnmap {μ : Type} {M : Machine μ} {s s' : Vmspace} {m m' : μ}
    {addr size : BitVec 64} (hrun : vmspaceUnmap M s m addr size = .ok (.eok, s', m')) :
    ∃ m₁, M.AllocReach m m₁ ∧ M.unmapPage m₁ addr (pageAlignUp size) = .ok (.eok, m') := by
  obtain ⟨node, nodes, node', m₁, -, hsplit, hunmap, -⟩ := vmspaceUnmap_eok hrun
  have hreach := vmspaceSplitNode_allocReach M s.nodes m node addr (pageAlignUp size)
  rw [hsplit] at hreach
  exact ⟨m₁, hreach, hunmap⟩

def Machine.TwoNodes {μ : Type} (M : Machine μ) (m : μ) : Prop :=
  (M.memAlloc m).1 = true ∧ (M.memAlloc (M.memAlloc m).2).1 = true

/-- There is memory for the parts that are split off, one below the range and one above it. -/
structure Machine.SplitRoom {μ : Type} (M : Machine μ) (m : μ) (below above : Prop) : Prop where
  one : below ∨ above → (M.memAlloc m).1 = true
  two : below → above → (M.memAlloc (M.memAlloc m).2).1 = true

theorem Machine.TwoNodes.splitRoom {μ : Type} {M : Machine μ} {m : μ} (h : M.TwoNodes m)
    (below above : Prop) : M.SplitRoom m below above :=
  ⟨fun _ => h.1, fun _ _ => h.2⟩

/-- A part is made unless there is no memory for it. -/
theorem splitPart_of_ne {μ : Type} (M : Machine μ) (inUse : List Vmnode) (m : μ) (node : Vmnode)
    {start stop : BitVec 64} (hne : start ≠ stop) :
    ((M.memAlloc m).1 = true ∧ ∃ part, splitPart M inUse m node start stop =
        (.ok (some part), (M.memAlloc m).2)) ∨
      (M.memAlloc m).1 = false ∧
        splitPart M inUse m node start stop = (.error .enomem, (M.memAlloc m).2) := by
  unfold splitPart
  rw [if_neg hne]
  rcases M.memAlloc m with ⟨ok, m'⟩
  cases ok with
  | true => exact Or.inl ⟨rfl, _, rfl⟩
  | false => exact Or.inr ⟨rfl, rfl⟩

/-- A split succeeds exactly when there is memory for its parts. -/
theorem vmspaceSplitNode_ok_iff {μ : Type} (M : Machine μ) (nodes : List Vmnode) (m : μ)
    (node : Vmnode) (addr size : BitVec 64) :
    (∃ r m', vmspaceSplitNode M nodes m node addr size = (.ok r, m')) ↔
      M.SplitRoom m (node.start ≠ addr) (addr + size ≠ node.stop) := by
  have hsame : ∀ (inUse : List Vmnode) (m : μ) (start : BitVec 64),
      splitPart M inUse m node start start = (.ok none, m) := fun _ _ _ => if_pos rfl
  unfold vmspaceSplitNode
  by_cases hbelow : node.start = addr
  · rw [hbelow, hsame]
    by_cases habove : addr + size = node.stop
    · rw [if_pos ⟨rfl, habove.symm⟩]
      exact iff_of_true ⟨_, _, rfl⟩
        ⟨fun h => absurd h (by simp [habove]), fun h => absurd rfl h⟩
    · rw [if_neg fun h => habove h.2.symm]
      dsimp only
      rcases splitPart_of_ne M (([] : List Vmnode) ++ nodes) m node habove with
        ⟨halloc, part, hpart⟩ | ⟨halloc, hpart⟩
      · rw [Option.toList_none, hpart]
        exact iff_of_true ⟨_, _, rfl⟩ ⟨fun _ => halloc, fun h => absurd rfl h⟩
      · rw [Option.toList_none, hpart]
        refine iff_of_false nofun fun h => ?_
        rw [h.one (Or.inr habove)] at halloc
        cases halloc
  · rw [if_neg fun h => hbelow h.1]
    rcases splitPart_of_ne M nodes m node hbelow with
      ⟨halloc, prev, hprev⟩ | ⟨halloc, hprev⟩
    · rw [hprev]
      dsimp only
      by_cases habove : addr + size = node.stop
      · rw [habove, hsame]
        exact iff_of_true ⟨_, _, rfl⟩ ⟨fun _ => halloc, fun _ h => absurd rfl h⟩
      · rcases splitPart_of_ne M ((some prev).toList ++ nodes) (M.memAlloc m).2 node habove with
          ⟨halloc', part, hpart⟩ | ⟨halloc', hpart⟩
        · rw [hpart]
          exact iff_of_true ⟨_, _, rfl⟩ ⟨fun _ => halloc, fun _ _ => halloc'⟩
        · rw [hpart]
          refine iff_of_false nofun fun h => ?_
          rw [h.two hbelow habove] at halloc'
          cases halloc'
    · rw [hprev]
      refine iff_of_false nofun fun h => ?_
      rw [h.one (Or.inl hbelow)] at halloc
      cases halloc

/-- A range inside a node is unmapped when the node can be split and the page table lets the
range go. -/
theorem vmspaceUnmap_of_split {μ : Type} {M : Machine μ} {s : Vmspace}
    (hok : NodesOk s.spaceBase s.spaceTop s.nodes) {m : μ} {addr size : BitVec 64}
    (hchecked : ¬unmapRefused s addr size) (hfits : UnmapFits s addr size) {node : Vmnode}
    (hfind : vmspaceFindNode s.nodes addr (pageAlignUp size) = some node)
    (hroom : M.SplitRoom m (node.start ≠ addr) (addr + pageAlignUp size ≠ node.stop))
    (hunmap : ∀ {m₁}, M.AllocReach m m₁ →
      ∃ m', M.unmapPage m₁ addr (pageAlignUp size) = .ok (.eok, m')) :
    ∃ s' m', vmspaceUnmap M s m addr size = .ok (.eok, s', m') := by
  obtain ⟨hrange, hnode, hlo, hhi⟩ := hfits.range hchecked hfind
  have hpos := hrange.nonempty
  have hsize := hrange.size_eq
  have hreach := vmspaceSplitNode_allocReach M s.nodes m node addr (pageAlignUp size)
  obtain ⟨r, m₁, hsplit⟩ := (vmspaceSplitNode_ok_iff M s.nodes m node addr _).mpr hroom
  rcases hok.vmspaceSplitNode M m hnode hlo (by omega) hhi with
    ⟨m₂, herr⟩ | ⟨nodes, node', m₂, hcut, hcarved⟩
  · rw [hsplit] at herr
    cases herr
  · rw [hcut] at hreach
    obtain ⟨m', hrun⟩ := hunmap hreach
    refine ⟨{ s with nodes := listDel nodes node'.id }, m', ?_⟩
    unfold vmspaceUnmap
    rw [if_neg hchecked]
    dsimp only
    rw [hfind]
    dsimp only
    rw [hcut]
    dsimp only
    unfold unmapSplit vmspaceRemoveNode
    dsimp only
    rw [if_pos (List.mem_map_of_mem hcarved.mem)]
    dsimp only
    rw [hrun]
    rfl

/-- With memory for two nodes a range inside a node is unmapped when the page table lets
it go. -/
theorem vmspaceUnmap_of_twoNodes {μ : Type} {M : Machine μ} {s : Vmspace}
    (hok : NodesOk s.spaceBase s.spaceTop s.nodes) {m : μ} (hmem : M.TwoNodes m)
    {addr size : BitVec 64} (hchecked : ¬unmapRefused s addr size)
    (hfits : UnmapFits s addr size)
    (hfound : (vmspaceFindNode s.nodes addr (pageAlignUp size)).isSome = true)
    (hunmap : ∀ {m₁}, M.AllocReach m m₁ →
      ∃ m', M.unmapPage m₁ addr (pageAlignUp size) = .ok (.eok, m')) :
    ∃ s' m', vmspaceUnmap M s m addr size = .ok (.eok, s', m') := by
  obtain ⟨node, hfind⟩ := Option.isSome_iff_exists.mp hfound
  exact vmspaceUnmap_of_split hok hchecked hfits hfind (hmem.splitRoom _ _) hunmap

/-! ## When unmapping is right -/

/-- What a successful `NX_MmuUnmapPage` does to the mapped pages: exactly the pages
of the range go.  Node allocation does not touch them. -/
structure Machine.UnmapExact {μ : Type} (M : Machine μ) (mapped : μ → ℕ → Prop) :
    Prop where
  memAlloc : ∀ m p, mapped (M.memAlloc m).2 p ↔ mapped m p
  unmapPage : ∀ {m m' v size}, v.toNat % 4096 = 0 → size.toNat % 4096 = 0 →
    v.toNat + size.toNat ≤ 2 ^ 64 → M.unmapPage m v size = .ok (.eok, m') →
    ∀ p, mapped m' p ↔
      mapped m p ∧ ¬(v.toNat ≤ p * 4096 ∧ p * 4096 < v.toNat + size.toNat)

theorem Machine.UnmapExact.of_allocReach {μ : Type} {M : Machine μ}
    {mapped : μ → ℕ → Prop} (h : M.UnmapExact mapped) {m m' : μ}
    (hreach : M.AllocReach m m') (p : ℕ) : mapped m' p ↔ mapped m p := by
  refine Reachable.invariant (P := fun a => mapped a p ↔ mapped m p) hreach Iff.rfl ?_
  rintro a _ b hab rfl
  exact (h.memAlloc a p).trans hab

/-- Success means that the rounded range, in exact arithmetic, is non-empty and inside
one node, and that it is gone from the list and from the mapped pages.  Failure
leaves the meaning of the list alone. -/
structure UnmapCorrect {μ : Type} (mapped : μ → ℕ → Prop) (s : Vmspace) (m : μ)
    (addr size : BitVec 64) (err : NxError) (s' : Vmspace) (m' : μ) : Prop where
  success : err = .eok →
    0 < pageRoundUp size.toNat ∧
    (∃ n ∈ s.nodes, n.lo ≤ addr.toNat ∧ addr.toNat + pageRoundUp size.toNat ≤ n.hi) ∧
    (∀ x, nodesLookup s'.nodes x =
      if addr.toNat ≤ x ∧ x < addr.toNat + pageRoundUp size.toNat then none
      else nodesLookup s.nodes x) ∧
    ∀ p, mapped m' p ↔ mapped m p ∧
      ¬(addr.toNat ≤ p * 4096 ∧ p * 4096 < addr.toNat + pageRoundUp size.toNat)
  failure : err ≠ .eok → nodesLookup s'.nodes = nodesLookup s.nodes
  nodes_ok : NodesOk s.spaceBase s.spaceTop s'.nodes

/-- Insertion keeps the linked nodes, whatever the list looks like. -/
theorem mem_vmspaceInsertLinearOrder {nodes : List Vmnode} (node : Vmnode) {n : Vmnode}
    (hn : n ∈ nodes) : n ∈ vmspaceInsertLinearOrder nodes node := by
  have hafter : ∀ (l : List Vmnode) (prev : ℕ), n ∈ l → n ∈ listAddAfter node prev l := by
    intro l prev hl
    induction l with
    | nil => simp at hl
    | cons a l ih =>
        rw [listAddAfter]
        split_ifs with heq
        · rcases List.mem_cons.mp hl with rfl | hl
          · exact List.mem_cons_self ..
          · exact List.mem_cons_of_mem _ (List.mem_cons_of_mem _ hl)
        · rcases List.mem_cons.mp hl with rfl | hl
          · exact List.mem_cons_self ..
          · exact List.mem_cons_of_mem _ (ih hl)
  unfold vmspaceInsertLinearOrder
  split
  · exact List.mem_cons_of_mem _ hn
  · exact hafter nodes _ hn

/-- On a generous machine the split succeeds and the node stays linked, also when
the range wraps around. -/
theorem vmspaceSplitNode_generous {nodes : List Vmnode} {node : Vmnode}
    (hnode : node ∈ nodes) (addr size : BitVec 64) :
    ∃ nodes' node', vmspaceSplitNode generousMachine nodes () node addr size =
      (.ok (nodes', node'), ()) ∧ node'.id ∈ nodes'.map Vmnode.id := by
  have hwrite : ∀ {l : List Vmnode} {a : Vmnode} (piece : Vmnode),
      a.id ∈ l.map Vmnode.id →
      a.id ∈ (vmspaceInsertLinearOrder (writeNode l a) piece).map Vmnode.id := by
    intro l a piece ha
    rw [← writeNode_map_id l a] at ha
    obtain ⟨n, hn, heq⟩ := List.mem_map.mp ha
    exact List.mem_map.mpr ⟨n, mem_vmspaceInsertLinearOrder piece hn, heq⟩
  have hpart : ∀ inUse start stop, ∃ part,
      splitPart generousMachine inUse () node start stop = (.ok part, ()) := by
    intro inUse start stop
    unfold splitPart
    split
    · exact ⟨_, rfl⟩
    · exact ⟨_, rfl⟩
  have hself : node.id ∈ nodes.map Vmnode.id := List.mem_map.mpr ⟨node, hnode, rfl⟩
  unfold vmspaceSplitNode
  by_cases hexact : node.start = addr ∧ node.stop = addr + size
  · rw [if_pos hexact]
    exact ⟨nodes, node, rfl, hself⟩
  · rw [if_neg hexact]
    obtain ⟨prev, hprev⟩ := hpart nodes node.start addr
    obtain ⟨next, hnext⟩ := hpart (prev.toList ++ nodes) (addr + size) node.stop
    rw [hprev]
    dsimp only
    rw [hnext]
    refine ⟨_, _, rfl, ?_⟩
    have hmid : (splitPrev nodes node addr prev).2.id ∈
        (splitPrev nodes node addr prev).1.map Vmnode.id := by
      cases prev with
      | none => exact hself
      | some p => exact hwrite (a := { node with start := addr }) p hself
    cases next with
    | none => exact hmid
    | some n =>
        exact hwrite (a := { (splitPrev nodes node addr prev).2 with stop := addr + size })
          n hmid

theorem generousMachine_unmapExact : generousMachine.UnmapExact fun _ _ => False :=
  ⟨fun _ _ => Iff.rfl, fun _ _ _ _ _ => by simp⟩

/-- `NX_VmspaceUnmap` is right on every machine exactly when the range fits. -/
theorem vmspaceUnmap_correct_iff (s : Vmspace)
    (hok : NodesOk s.spaceBase s.spaceTop s.nodes) (addr size : BitVec 64) :
    (∀ (μ : Type) (M : Machine μ) (mapped : μ → ℕ → Prop), M.UnmapExact mapped →
      ∀ (m m' : μ) (err : NxError) (s' : Vmspace),
        vmspaceUnmap M s m addr size = .ok (err, s', m') →
          UnmapCorrect mapped s m addr size err s' m') ↔
      UnmapFits s addr size := by
  constructor
  · intro hall href hfound
    obtain ⟨node, hfind⟩ := Option.isSome_iff_exists.mp hfound
    obtain ⟨nodes, node', hsplit, hlinked⟩ := vmspaceSplitNode_generous
      (vmspaceFindNode_eq_some hfind).1 addr (pageAlignUp size)
    have hrun : vmspaceUnmap generousMachine s () addr size =
        .ok (.eok, { s with nodes := listDel nodes node'.id }, ()) := by
      unfold vmspaceUnmap
      rw [if_neg href]
      dsimp only
      rw [hfind]
      dsimp only
      rw [hsplit]
      dsimp only
      unfold unmapSplit vmspaceRemoveNode
      dsimp only
      rw [if_pos hlinked]
      rfl
    obtain ⟨-, ⟨n, hn, -, hle⟩, -⟩ :=
      (hall Unit generousMachine _ generousMachine_unmapExact () () _ _ hrun).success rfl
    exact lt_of_le_of_lt hle n.stop.isLt
  · intro hfits μ M mapped hM m m' err s' hrun
    have hout := vmspaceUnmap_outcome M hok m hfits
    rw [hrun] at hout
    cases hout with
    | refused err m' herr hm =>
        exact ⟨fun heok => absurd heok herr, fun _ => rfl, hok⟩
    | restored m₁ m' err nodes hm hrange hrun herr hnodes hlookup =>
        exact ⟨by simp, fun _ => hlookup, hnodes⟩
    | removed m₁ m' nodes hm hrange hrun hremoved =>
        refine ⟨fun _ => ⟨hrange.nonempty, hrange.node, hremoved.lookup_eq, ?_⟩,
          fun herr => absurd rfl herr, hremoved.ok⟩
        intro p
        obtain ⟨n, hn, -, hle⟩ := hrange.node
        have hlt : n.hi < 2 ^ 64 := n.stop.isLt
        have hsize := hrange.size_eq
        rw [hM.unmapPage hrange.aligned (pageAlignUp_aligned size) (by omega) hrun p,
          hM.of_allocReach hm p, hsize]

theorem vmspaceUnmap_correct_iff_onePageSpace :
    NodesOk onePageSpace.spaceBase onePageSpace.spaceTop onePageSpace.nodes ∧
      ((∀ (μ : Type) (M : Machine μ) (mapped : μ → ℕ → Prop), M.UnmapExact mapped →
        ∀ (m m' : μ) (err : NxError) (s' : Vmspace),
          vmspaceUnmap M onePageSpace m 0x300001000 0x1000 = .ok (err, s', m') →
            UnmapCorrect mapped onePageSpace m 0x300001000 0x1000 err s' m') ↔
        UnmapFits onePageSpace 0x300001000 0x1000) :=
  ⟨onePageSpace_nodesOk,
    vmspaceUnmap_correct_iff onePageSpace onePageSpace_nodesOk 0x300001000 0x1000⟩

/-- A size that rounds up to zero is unmapped with success. -/
theorem vmspaceUnmap_wraps :
    NodesOk onePageSpace.spaceBase onePageSpace.spaceTop onePageSpace.nodes ∧
      (generousMachine.UnmapExact fun _ _ => False) ∧
      ∃ s', vmspaceUnmap generousMachine onePageSpace () 0x300001000
          0xFFFFFFFFFFFFFFFF = .ok (.eok, s', ()) ∧
        ¬UnmapCorrect (fun _ _ => False) onePageSpace () 0x300001000
          0xFFFFFFFFFFFFFFFF .eok s' () := by
  refine ⟨onePageSpace_nodesOk, generousMachine_unmapExact, _, rfl, ?_⟩
  intro hcorrect
  obtain ⟨-, ⟨n, -, -, hle⟩, -⟩ := hcorrect.success rfl
  have hlt : n.hi < 2 ^ 64 := n.stop.isLt
  have hround : pageRoundUp (0xFFFFFFFFFFFFFFFF : BitVec 64).toNat = 2 ^ 64 := by decide
  omega

end Nxos.Mm
