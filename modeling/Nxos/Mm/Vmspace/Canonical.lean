import Nxos.Mm.Vmspace.Unmap

/-!
# Canonical node lists

In a canonical list no two touching nodes have the same attributes and flags.  Merging
after every insertion keeps a list canonical, and so does cutting a range out of a node.
In a canonical list a range that is mapped throughout in the same way lies in one node,
so that an unmapping finds it whatever calls have mapped its parts.
-/

namespace Nxos.Mm

open Nxos.Interval Nxos.Transition

/-! ## Lists and their operations -/

/-- A list that is sorted, with disjoint non-empty nodes, and links no node twice. -/
def NodesSorted (nodes : List Vmnode) : Prop :=
  NodesOk 0 (BitVec.allOnes 64) nodes

/-- The bounds of the whole address space exclude nothing. -/
theorem nodesSorted_iff {nodes : List Vmnode} :
    NodesSorted nodes ↔
      Separated Vmnode.lo Vmnode.hi nodes ∧ (nodes.map Vmnode.id).Nodup := by
  constructor
  · intro h
    exact ⟨h.separated, h.linked⟩
  · rintro ⟨hseparated, hlinked⟩
    refine ⟨hseparated, fun n _ => ⟨Nat.zero_le _, ?_⟩, hlinked⟩
    have hlt : n.hi < 2 ^ 64 := n.stop.isLt
    rw [BitVec.toNat_allOnes]
    omega

/-- No two nodes that touch have the same attributes and flags. -/
def Canonical (nodes : List Vmnode) : Prop :=
  ∀ a ∈ nodes, ∀ b ∈ nodes, ¬Touches a b

/-- A node is made for the range, inserted and merged, as `__VmspaceMap` does it. -/
def insertMerge (nodes : List Vmnode) (addr size attr : BitVec 64) (flags : BitVec 32) :
    List Vmnode :=
  let node := vmnodeCreate nodes addr size attr flags
  vmspaceMergeNode (vmspaceInsertLinearOrder nodes node) node

/-- The node around the range is found, split and removed, as `NX_VmspaceUnmap` does it. -/
def findSplitRemove {μ : Type} (M : Machine μ) (nodes : List Vmnode) (m : μ)
    (addr size : BitVec 64) : Option (List Vmnode × μ) :=
  match vmspaceFindNode nodes addr size with
  | none => none
  | some node =>
      match vmspaceSplitNode M nodes m node addr size with
      | (.error _, _) => none
      | (.ok (nodes, node), m) => (vmspaceRemoveNode nodes node).map fun nodes => (nodes, m)

/-- `nodes'` is canonical and denotes what `nodes` does, but `v` in the range `[lo, hi)`. -/
structure NodesChanged (nodes nodes' : List Vmnode) (lo hi : ℕ)
    (v : Option (BitVec 64 × BitVec 32)) : Prop where
  sorted : NodesSorted nodes'
  canonical : Canonical nodes'
  lookup_eq : ∀ x, nodesLookup nodes' x = if lo ≤ x ∧ x < hi then v else nodesLookup nodes x

namespace NodesOk

variable {base top : BitVec 64} {nodes : List Vmnode}

/-- A list is canonical when every node ends where what it maps ends. -/
theorem canonical_iff (h : NodesOk base top nodes) :
    Canonical nodes ↔ ∀ n ∈ nodes, nodesLookup nodes n.hi ≠ some n.val := by
  constructor
  · intro hc n hn hlookup
    obtain ⟨b, hb, ⟨hlo, hhi⟩, hval⟩ := h.separated.lookup_eq_some_iff.mp hlookup
    have hne : n ≠ b := by
      rintro rfl
      exact absurd hhi (lt_irrefl _)
    have hn_ne := h.separated.nonempty n hn
    rcases h.separated.apart hn hb hne with hle | hle
    · exact hc n hn b hb ⟨le_antisymm hle hlo, hval.symm⟩
    · omega
  · rintro hends a ha b hb ⟨htouch, hval⟩
    have hb_ne := h.separated.nonempty b hb
    refine hends a ha (h.separated.lookup_eq_some_iff.mpr ⟨b, hb, ⟨?_, ?_⟩, hval.symm⟩)
    · exact htouch.symm.le
    · rw [htouch]
      exact hb_ne

/-! ## Merging -/

theorem not_touches_self (h : NodesOk base top nodes) {n : Vmnode} (hn : n ∈ nodes) :
    ¬Touches n n := by
  intro htouch
  have hne := h.separated.nonempty n hn
  have hhi := htouch.1
  omega

/-- If only the node touches others in the same way, then after the first half of the merge
it touches none from above. -/
theorem mergePrev_touches (h : NodesOk base top nodes) {node : Vmnode} (hnode : node ∈ nodes)
    (hothers : ∀ a ∈ nodes, ∀ b ∈ nodes, Touches a b → a = node ∨ b = node) :
    ∀ a ∈ (Mm.mergePrev nodes node).1, ∀ b ∈ (Mm.mergePrev nodes node).1,
      Touches a b → a = (Mm.mergePrev nodes node).2 := by
  rcases h.nodesLinked.mergePrev_cases hnode with ⟨hrun, hnone⟩ | ⟨prev, hprev, htouch, hne, hrun⟩
  · rw [hrun]
    intro a ha b hb hab
    rcases hothers a ha b hb hab with heq | rfl
    · exact heq
    · exact absurd hab (hnone a ha)
  · rw [hrun]
    have hid : ({ node with start := prev.start } : Vmnode).id = node.id := rfl
    have hmem := (h.absorb hnode hprev hne hid rfl htouch.2 (.prev htouch.1 rfl rfl)).2.1
    intro a ha b hb hab
    rcases (hmem a).mp ha with heq | ⟨ha, han, hap⟩
    · exact heq
    · exfalso
      rcases (hmem b).mp hb with rfl | ⟨hb, hbn, -⟩
      · -- what touches the node now touched the node that was taken over
        rcases hothers a ha prev hprev ⟨hab.1, hab.2.trans htouch.2.symm⟩ with heq | heq
        · exact han heq
        · exact hne heq
      · rcases hothers a ha b hb hab with heq | heq
        · exact han heq
        · exact hbn heq

/-- If the node touches others from below only, the second half makes the list canonical. -/
theorem mergeNext_canonical (h : NodesOk base top nodes) {node : Vmnode} (hnode : node ∈ nodes)
    (hbelow : ∀ a ∈ nodes, ∀ b ∈ nodes, Touches a b → a = node) :
    Canonical (Mm.mergeNext nodes node) := by
  rcases h.nodesLinked.mergeNext_cases hnode with ⟨hrun, hnone⟩ | ⟨next, hnext, htouch, hne, hrun⟩
  · rw [hrun]
    intro a ha b hb hab
    have heq := hbelow a ha b hb hab
    rw [heq] at hab
    exact hnone b hb hab
  · have hid : ({ node with stop := next.stop } : Vmnode).id = node.id := rfl
    obtain ⟨hok, hmem, -⟩ := h.absorb hnode hnext hne hid rfl htouch.2.symm
      (.next htouch.1 rfl rfl)
    rw [hrun]
    intro a ha b hb hab
    rcases (hmem a).mp ha with rfl | ⟨ha', han, -⟩
    · rcases (hmem b).mp hb with rfl | ⟨hb', -, -⟩
      · exact hok.not_touches_self hb hab
      · -- the end of the node is that of the node that was taken over
        exact hne (hbelow next hnext b hb' ⟨hab.1, htouch.2.symm.trans hab.2⟩)
    · rcases (hmem b).mp hb with rfl | ⟨hb', -, -⟩
      · exact han (hbelow a ha' node hnode ⟨hab.1, hab.2⟩)
      · exact han (hbelow a ha' b hb' hab)

theorem vmspaceMergeNode_canonical (hc : Canonical nodes) {node : Vmnode}
    (hok : NodesOk base top (vmspaceInsertLinearOrder nodes node))
    (hmem : ∀ n, n ∈ vmspaceInsertLinearOrder nodes node ↔ n = node ∨ n ∈ nodes) :
    Canonical (Mm.vmspaceMergeNode (vmspaceInsertLinearOrder nodes node) node) := by
  have hnode := (hmem node).mpr (Or.inl rfl)
  have hothers : ∀ a ∈ vmspaceInsertLinearOrder nodes node,
      ∀ b ∈ vmspaceInsertLinearOrder nodes node, Touches a b → a = node ∨ b = node := by
    intro a ha b hb hab
    rcases (hmem a).mp ha with rfl | ha
    · exact Or.inl rfl
    · rcases (hmem b).mp hb with rfl | hb
      · exact Or.inr rfl
      · exact absurd hab (hc a ha b hb)
  obtain ⟨hprev, hlinked⟩ := hok.mergePrev hnode
  exact hprev.ok.mergeNext_canonical hlinked (hok.mergePrev_touches hnode hothers)

/-- Inserting and merging a node for a disjoint range adds the range. -/
theorem insertMerge_changed (h : NodesSorted nodes) (hc : Canonical nodes)
    {addr size : BitVec 64} (hpos : 0 < size.toNat) (hend : addr.toNat + size.toNat < 2 ^ 64)
    (hdisj : ∀ n ∈ nodes, n.hi ≤ addr.toNat ∨ addr.toNat + size.toNat ≤ n.lo)
    (attr : BitVec 64) (flags : BitVec 32) :
    NodesChanged nodes (insertMerge nodes addr size attr flags) addr.toNat
      (addr.toNat + size.toNat) (some (attr, flags)) := by
  have hlo : (vmnodeCreate nodes addr size attr flags).lo = addr.toNat := rfl
  have hhi : (vmnodeCreate nodes addr size attr flags).hi = addr.toNat + size.toNat := by
    change (addr + size).toNat = _
    rw [BitVec.toNat_add, Nat.mod_eq_of_lt hend]
  have hin : (0 : BitVec 64).toNat ≤ (vmnodeCreate nodes addr size attr flags).lo ∧
      (vmnodeCreate nodes addr size attr flags).hi ≤ (BitVec.allOnes 64).toNat := by
    rw [hhi, BitVec.toNat_allOnes]
    exact ⟨Nat.zero_le _, by omega⟩
  obtain ⟨hok, hmem⟩ := NodesOk.insert h (by omega) hin
    (vmnodeCreate_id_notMem nodes addr size attr flags) (by rwa [hlo, hhi])
  have hkeeps := hok.vmspaceMergeNode ((hmem _).mpr (Or.inl rfl))
  refine ⟨hkeeps.ok, vmspaceMergeNode_canonical hc hok hmem, fun x => ?_⟩
  have hlookup := NodesOk.insert_lookup h hok hmem x
  rw [hlo, hhi] at hlookup
  exact (congrFun hkeeps.lookup_eq x).trans hlookup

/-! ## Cutting out -/

theorem listDel_canonical (h : NodesOk base top nodes) (hc : Canonical nodes) {node : Vmnode}
    {nodes' : List Vmnode} {node' : Vmnode} {lo hi : ℕ}
    (hcarved : Carved base top nodes node nodes' node' lo hi) :
    Canonical (Mm.listDel nodes' node'.id) := by
  have hpos := hcarved.ok.separated.nonempty node' hcarved.mem
  rw [(hcarved.ok.listDel node'.id).canonical_iff]
  intro n hn
  obtain ⟨hn, hnid⟩ := mem_listDel.mp hn
  have hne : n ≠ node' := fun heq => hnid (congrArg Vmnode.id heq)
  rw [hcarved.ok.listDel_lookup hcarved.mem, hcarved.lookup_eq, hcarved.lo_eq, hcarved.hi_eq]
  rw [hcarved.lo_eq, hcarved.hi_eq] at hpos
  rcases hcarved.ends n hn hne with hlo | ⟨a, ha, hhi, hval⟩
  · rw [hlo, if_pos ⟨le_refl lo, hpos⟩]
    simp
  · split_ifs
    · simp
    · rw [← hhi, ← hval]
      exact h.canonical_iff.mp hc a ha

theorem vmspaceFindNode_of_mem (h : NodesOk base top nodes) {node : Vmnode}
    (hnode : node ∈ nodes) {addr size : BitVec 64} (hpos : 0 < size.toNat)
    (hlo : node.lo ≤ addr.toNat) (hhi : addr.toNat + size.toNat ≤ node.hi) :
    vmspaceFindNode nodes addr size = some node := by
  have hfits : addr.toNat + size.toNat < 2 ^ 64 := lt_of_le_of_lt hhi node.stop.isLt
  obtain ⟨n, hfind⟩ :=
    Option.isSome_iff_exists.mp (vmspaceFindNode_isSome hfits ⟨node, hnode, hlo, hhi⟩)
  obtain ⟨hn, hnlo, hnhi⟩ := vmspaceFindNode_eq_some hfind
  rw [BitVec.toNat_add, Nat.mod_eq_of_lt hfits] at hnhi
  have heq : n = node := h.separated.eq_of_contains hn hnode
    (x := addr.toNat) ⟨hnlo, by omega⟩ ⟨hlo, by omega⟩
  rw [hfind, heq]

/-- A range inside a node is found, and cutting it out deletes the range. -/
theorem findSplitRemove_changed (h : NodesSorted nodes) (hc : Canonical nodes) {μ : Type}
    {M : Machine μ} {m : μ} (hmemory : M.TwoNodes m) {node : Vmnode} (hnode : node ∈ nodes)
    {addr size : BitVec 64} (hpos : 0 < size.toNat) (hlo : node.lo ≤ addr.toNat)
    (hhi : addr.toNat + size.toNat ≤ node.hi) :
    ∃ nodes' m', findSplitRemove M nodes m addr size = some (nodes', m') ∧
      NodesChanged nodes nodes' addr.toNat (addr.toNat + size.toNat) none := by
  have hfind := vmspaceFindNode_of_mem h hnode hpos hlo hhi
  rcases NodesOk.vmspaceSplitNode h M m hnode hlo hpos hhi with
    ⟨m', hsplit⟩ | ⟨nodes', node', m', hsplit, hcarved⟩
  · obtain ⟨r, m₁, hsplit'⟩ := (vmspaceSplitNode_ok_iff M nodes m node addr size).mpr
      (hmemory.splitRoom _ _)
    rw [hsplit] at hsplit'
    cases hsplit'
  · have hremove : vmspaceRemoveNode nodes' node' = some (Mm.listDel nodes' node'.id) :=
      if_pos (List.mem_map_of_mem hcarved.mem)
    refine ⟨Mm.listDel nodes' node'.id, m', ?_, hcarved.ok.listDel _,
      listDel_canonical h hc hcarved, fun x => ?_⟩
    · simp only [findSplitRemove, hfind, hsplit, hremove, Option.map_some]
    · rw [hcarved.ok.listDel_lookup hcarved.mem, hcarved.lo_eq, hcarved.hi_eq,
        hcarved.lookup_eq]

/-- A range that is mapped throughout in the same way is found as part of one node. -/
theorem vmspaceFindNode_of_lookup (h : NodesOk base top nodes) (hc : Canonical nodes)
    {addr size : BitVec 64} (hpos : 0 < size.toNat) {v : BitVec 64 × BitVec 32}
    (hmapped : ∀ x, addr.toNat ≤ x → x < addr.toNat + size.toNat →
      nodesLookup nodes x = some v) :
    ∃ node ∈ nodes, vmspaceFindNode nodes addr size = some node ∧ node.lo ≤ addr.toNat ∧
      addr.toNat + size.toNat ≤ node.hi ∧ node.val = v := by
  obtain ⟨node, hnode, ⟨hlo, hin⟩, hval⟩ :=
    h.separated.lookup_eq_some_iff.mp (hmapped addr.toNat (le_refl _) (by omega))
  have hhi : addr.toNat + size.toNat ≤ node.hi := by
    by_contra hlt
    refine h.canonical_iff.mp hc node hnode ?_
    rw [hval]
    exact hmapped node.hi hin.le (by omega)
  exact ⟨node, hnode, h.vmspaceFindNode_of_mem hnode hpos hlo hhi, hlo, hhi, hval⟩

end NodesOk

/-! ## Runs -/

inductive NodesOp where
  | map (addr size attr : BitVec 64) (flags : BitVec 32)
  | unmap (addr size : BitVec 64)

/-- The ranges of the operations: a disjoint one is mapped, and a part of one node is
unmapped. -/
def NodesOp.Fits (nodes : List Vmnode) : NodesOp → Prop
  | .map addr size _ _ => 0 < size.toNat ∧ addr.toNat + size.toNat < 2 ^ 64 ∧
      ∀ n ∈ nodes, n.hi ≤ addr.toNat ∨ addr.toNat + size.toNat ≤ n.lo
  | .unmap addr size => 0 < size.toNat ∧
      ∃ n ∈ nodes, n.lo ≤ addr.toNat ∧ addr.toNat + size.toNat ≤ n.hi

def nodesStep {μ : Type} (M : Machine μ) (σ : List Vmnode × μ) :
    NodesOp → Option (List Vmnode × μ)
  | .map addr size attr flags =>
      match M.memAlloc σ.2 with
      | (false, _) => none
      | (true, m) => some (insertMerge σ.1 addr size attr flags, m)
  | .unmap addr size => findSplitRemove M σ.1 σ.2 addr size

def NodesMove {μ : Type} (M : Machine μ) (σ : List Vmnode × μ) (op : NodesOp)
    (τ : List Vmnode × μ) : Prop :=
  op.Fits σ.1 ∧ nodesStep M σ op = some τ

section Runs

variable {μ : Type} {M : Machine μ} {nodes : List Vmnode}

/-- Operations on ranges that fit keep a list canonical. -/
theorem nodesReachable_canonical (hM : ∀ m, (M.memAlloc m).1 = true) (h : NodesSorted nodes)
    (hc : Canonical nodes) {m : μ} {σ : List Vmnode × μ}
    (hreach : Reachable (NodesMove M) (nodes, m) σ) : NodesSorted σ.1 ∧ Canonical σ.1 := by
  refine hreach.invariant (P := fun σ => NodesSorted σ.1 ∧ Canonical σ.1) ⟨h, hc⟩ ?_
  rintro ⟨nodes, m⟩ op τ ⟨h, hc⟩ ⟨hfits, hstep⟩
  cases op with
  | map addr size attr flags =>
      obtain ⟨hpos, hend, hdisj⟩ := hfits
      have hchanged := NodesOk.insertMerge_changed h hc hpos hend hdisj attr flags
      dsimp only [nodesStep] at hstep
      split at hstep
      · cases hstep
      · cases hstep
        exact ⟨hchanged.sorted, hchanged.canonical⟩
  | unmap addr size =>
      obtain ⟨hpos, n, hn, hlo, hhi⟩ := hfits
      obtain ⟨nodes', m', hrun, hchanged⟩ := NodesOk.findSplitRemove_changed h hc
        (M := M) (m := m) ⟨hM _, hM _⟩ hn hpos hlo hhi
      dsimp only [nodesStep] at hstep
      rw [hrun] at hstep
      cases hstep
      exact ⟨hchanged.sorted, hchanged.canonical⟩

/-- From any canonical list: inserting and merging a node for a disjoint range adds exactly
this range, cutting out a part of a node deletes exactly this part, both leave the list
canonical, and after any run of them a range that is mapped throughout in the same way is
found as part of one node. -/
theorem nodes_canonical (hM : ∀ m, (M.memAlloc m).1 = true) (h : NodesSorted nodes)
    (hc : Canonical nodes) :
    (∀ addr size attr flags, 0 < size.toNat → addr.toNat + size.toNat < 2 ^ 64 →
      (∀ n ∈ nodes, n.hi ≤ addr.toNat ∨ addr.toNat + size.toNat ≤ n.lo) →
      NodesChanged nodes (insertMerge nodes addr size attr flags) addr.toNat
        (addr.toNat + size.toNat) (some (attr, flags))) ∧
    (∀ m addr size, 0 < size.toNat → ∀ n ∈ nodes, n.lo ≤ addr.toNat →
      addr.toNat + size.toNat ≤ n.hi →
      ∃ nodes' m', findSplitRemove M nodes m addr size = some (nodes', m') ∧
        NodesChanged nodes nodes' addr.toNat (addr.toNat + size.toNat) none) ∧
    ∀ m σ, Reachable (NodesMove M) (nodes, m) σ → ∀ (addr size : BitVec 64) v,
      0 < size.toNat →
      (∀ x, addr.toNat ≤ x → x < addr.toNat + size.toNat → nodesLookup σ.1 x = some v) →
      ∃ n ∈ σ.1, vmspaceFindNode σ.1 addr size = some n ∧ n.lo ≤ addr.toNat ∧
        addr.toNat + size.toNat ≤ n.hi ∧ n.val = v := by
  refine ⟨?_, ?_, ?_⟩
  · intro addr size attr flags hpos hend hdisj
    exact NodesOk.insertMerge_changed h hc hpos hend hdisj attr flags
  · intro m addr size hpos n hn hlo hhi
    exact NodesOk.findSplitRemove_changed h hc ⟨hM _, hM _⟩ hn hpos hlo hhi
  · intro m σ hreach addr size v hpos hmapped
    obtain ⟨hsorted, hcanonical⟩ := nodesReachable_canonical hM h hc hreach
    exact NodesOk.vmspaceFindNode_of_lookup hsorted hcanonical hpos hmapped

/-- Two mappings that touch are found as one. -/
theorem nodes_canonical_twoMaps :
    ∃ σ, Reachable (NodesMove generousMachine) ([], ()) σ ∧
      ∃ n ∈ σ.1, vmspaceFindNode σ.1 0x1000 0x2000 = some n ∧ n.val = (7, 0) := by
  have hsorted : NodesSorted [] :=
    nodesSorted_iff.mpr ⟨⟨fun a ha => absurd ha List.not_mem_nil, .nil⟩, List.nodup_nil⟩
  have hcanonical : Canonical [] := fun a ha => absurd ha List.not_mem_nil
  obtain ⟨-, -, hfound⟩ :=
    nodes_canonical (M := generousMachine) (fun _ => rfl) hsorted hcanonical
  have hrun : Reachable (NodesMove generousMachine) ([], ())
      ([⟨2, 0x1000, 0x3000, 7, 0⟩], ()) := by
    have hfirst : NodesMove generousMachine ([], ()) (.map 0x1000 0x1000 7 0)
        ([⟨1, 0x1000, 0x2000, 7, 0⟩], ()) :=
      ⟨⟨by decide, by decide, by decide⟩, by decide⟩
    have hsecond : NodesMove generousMachine ([⟨1, 0x1000, 0x2000, 7, 0⟩], ())
        (.map 0x2000 0x1000 7 0) ([⟨2, 0x1000, 0x3000, 7, 0⟩], ()) :=
      ⟨⟨by decide, by decide, by decide⟩, by decide⟩
    exact (Reachable.refl.tail hfirst).tail hsecond
  have hmapped : ∀ x, (0x1000 : BitVec 64).toNat ≤ x →
      x < (0x1000 : BitVec 64).toNat + (0x2000 : BitVec 64).toNat →
      nodesLookup [⟨2, 0x1000, 0x3000, 7, 0⟩] x = some (7, 0) := by
    intro x hlo hhi
    have hseparated : Separated Vmnode.lo Vmnode.hi [⟨2, 0x1000, 0x3000, 7, 0⟩] :=
      ⟨by decide, by decide⟩
    exact hseparated.lookup_eq_some_iff.mpr ⟨_, List.mem_singleton_self _, ⟨hlo, hhi⟩, rfl⟩
  obtain ⟨n, hn, hfind, -, -, hval⟩ :=
    hfound () _ hrun 0x1000 0x2000 (7, 0) (by decide) hmapped
  exact ⟨_, hrun, n, hn, hfind, hval⟩

end Runs

end Nxos.Mm
