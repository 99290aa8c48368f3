import Nxos.Mm.Vmspace.Model
import Mathlib.Order.Lattice
import Mathlib.Data.List.TakeWhile

/-!
# The node list as a map of the address space

A well-formed node list is separated as a list of intervals, lies inside the
space, and links no node twice.  It denotes a partial map from addresses to
attributes and flags.  The list operations of `mm/vmspace.c` keep the list
well-formed; merging and splitting do not change what it denotes.
-/

namespace Nxos.Mm

open Nxos.Interval

/-! ## Well-formed lists -/

def Vmnode.lo (n : Vmnode) : ℕ :=
  n.start.toNat

def Vmnode.hi (n : Vmnode) : ℕ :=
  n.stop.toNat

def Vmnode.val (n : Vmnode) : BitVec 64 × BitVec 32 :=
  (n.attr, n.flags)

/-- `a` ends where `b` starts, and they have the same attributes and flags. -/
def Touches (a b : Vmnode) : Prop :=
  a.hi = b.lo ∧ a.val = b.val

theorem touches_iff {a b : Vmnode} :
    Touches a b ↔ a.stop = b.start ∧ a.attr = b.attr ∧ a.flags = b.flags := by
  unfold Touches Vmnode.hi Vmnode.lo Vmnode.val
  rw [BitVec.toNat_inj, Prod.mk.injEq]

/-- The attributes and flags that the list gives to an address. -/
def nodesLookup (nodes : List Vmnode) : ℕ → Option (BitVec 64 × BitVec 32) :=
  lookup Vmnode.lo Vmnode.hi Vmnode.val nodes

/-- The nodes are non-empty, sorted and disjoint, lie in `[base, top)`, and no node
is linked twice. -/
structure NodesOk (base top : BitVec 64) (nodes : List Vmnode) : Prop where
  separated : Separated Vmnode.lo Vmnode.hi nodes
  inside : ∀ n ∈ nodes, base.toNat ≤ n.lo ∧ n.hi ≤ top.toNat
  linked : (nodes.map Vmnode.id).Nodup

structure NodesLinked (nodes : List Vmnode) : Prop where
  nonempty : ∀ n ∈ nodes, n.lo < n.hi
  linked : (nodes.map Vmnode.id).Nodup

theorem NodesOk.nodesLinked {base top : BitVec 64} {nodes : List Vmnode}
    (h : NodesOk base top nodes) : NodesLinked nodes :=
  ⟨h.separated.nonempty, h.linked⟩

/-- All bounds are page boundaries. -/
def NodesAligned (nodes : List Vmnode) : Prop :=
  ∀ n ∈ nodes, n.lo % 4096 = 0 ∧ n.hi % 4096 = 0

/-- The new node of `VmnodeCreate` is not linked yet. -/
theorem vmnodeCreate_id_notMem (nodes : List Vmnode) (addr size attr : BitVec 64)
    (flags : BitVec 32) :
    (vmnodeCreate nodes addr size attr flags).id ∉ nodes.map Vmnode.id := by
  have hmax : ∀ (l : List ℕ) (i : ℕ), i ∈ l → i ≤ l.foldr max 0 := by
    intro l i hi
    induction l with
    | nil => simp at hi
    | cons j l ih =>
        rw [List.foldr_cons]
        rcases List.mem_cons.mp hi with rfl | hi
        · exact le_max_left _ _
        · exact (ih hi).trans (le_max_right _ _)
  intro hmem
  have hle := hmax _ _ hmem
  unfold vmnodeCreate at hle
  exact absurd hle (Nat.not_succ_le_self _)

theorem mem_listDel {nodes : List Vmnode} {id : ℕ} {n : Vmnode} :
    n ∈ listDel nodes id ↔ n ∈ nodes ∧ n.id ≠ id := by
  simp [listDel]

theorem writeNode_map_id (nodes : List Vmnode) (node : Vmnode) :
    (writeNode nodes node).map Vmnode.id = nodes.map Vmnode.id := by
  rw [writeNode, List.map_map]
  apply List.map_congr_left
  intro n _
  by_cases hid : n.id = node.id
  · simp [hid]
  · simp [hid]

theorem listDel_writeNode (nodes : List Vmnode) (node : Vmnode) (id : ℕ) :
    listDel (writeNode nodes node) id = writeNode (listDel nodes id) node := by
  unfold listDel writeNode
  rw [List.filter_map]
  congr 1
  apply List.filter_congr
  intro n _
  by_cases hid : n.id = node.id
  · simp [hid]
  · simp [hid]

namespace NodesLinked

variable {nodes : List Vmnode}

theorem eq_of_id (h : NodesLinked nodes) {a b : Vmnode} (ha : a ∈ nodes)
    (hb : b ∈ nodes) (hid : a.id = b.id) : a = b :=
  List.inj_on_of_nodup_map h.linked ha hb hid

theorem mem_writeNode (h : NodesLinked nodes) {node node' n : Vmnode}
    (hmem : node ∈ nodes) (hid : node'.id = node.id) :
    n ∈ writeNode nodes node' ↔ n = node' ∨ (n ∈ nodes ∧ n ≠ node) := by
  unfold writeNode
  rw [List.mem_map]
  constructor
  · rintro ⟨a, ha, rfl⟩
    by_cases haid : a.id = node'.id
    · rw [if_pos haid]
      exact Or.inl rfl
    · rw [if_neg haid]
      refine Or.inr ⟨ha, ?_⟩
      rintro rfl
      exact haid hid.symm
  · rintro (rfl | ⟨hn, hne⟩)
    · exact ⟨node, hmem, if_pos hid.symm⟩
    · refine ⟨n, hn, if_neg ?_⟩
      intro hnid
      exact hne (h.eq_of_id hn hmem (hnid.trans hid))

theorem mem_absorb (h : NodesLinked nodes) {node other node' n : Vmnode}
    (hnode : node ∈ nodes) (hother : other ∈ nodes) (hne : other ≠ node)
    (hid : node'.id = node.id) : n ∈ Mm.listDel (writeNode nodes node') other.id ↔
      n = node' ∨ (n ∈ nodes ∧ n ≠ node ∧ n ≠ other) := by
  have hoid : other.id ≠ node.id := fun heq => hne (h.eq_of_id hother hnode heq)
  rw [mem_listDel, h.mem_writeNode hnode hid]
  constructor
  · rintro ⟨rfl | ⟨hn, hnn⟩, hnid⟩
    · exact Or.inl rfl
    · refine Or.inr ⟨hn, hnn, ?_⟩
      rintro rfl
      exact hnid rfl
  · rintro (rfl | ⟨hn, hnn, hno⟩)
    · exact ⟨Or.inl rfl, fun heq => hoid (heq.symm.trans hid)⟩
    · exact ⟨Or.inr ⟨hn, hnn⟩, fun heq => hno (h.eq_of_id hn hother heq)⟩

/-- The first half of `VmspaceMergeNode`: the node takes over a node that touches it from
below, if there is one. -/
theorem mergePrev_cases (h : NodesLinked nodes) {node : Vmnode} (hnode : node ∈ nodes) :
    (Mm.mergePrev nodes node = (nodes, node) ∧ ∀ p ∈ nodes, ¬Touches p node) ∨
    ∃ prev ∈ nodes, Touches prev node ∧ prev ≠ node ∧
      Mm.mergePrev nodes node = (Mm.listDel (writeNode nodes { node with start := prev.start })
        prev.id, { node with start := prev.start }) := by
  unfold Mm.mergePrev
  cases hfind : nodes.find? fun p =>
      p.stop = node.start ∧ p.attr = node.attr ∧ p.flags = node.flags with
  | none =>
      refine Or.inl ⟨rfl, fun p hp htouch => ?_⟩
      exact List.find?_eq_none.mp hfind p hp (decide_eq_true (touches_iff.mp htouch))
  | some prev =>
      have hprev := List.mem_of_find?_eq_some hfind
      have hcond := List.find?_some hfind
      have htouch := touches_iff.mpr (of_decide_eq_true hcond)
      refine Or.inr ⟨prev, hprev, htouch, ?_, rfl⟩
      rintro rfl
      have := h.nonempty prev hnode
      have := htouch.1
      omega

/-- The second half of `VmspaceMergeNode`: the node takes over a node that touches it from
above, if there is one. -/
theorem mergeNext_cases (h : NodesLinked nodes) {node : Vmnode} (hnode : node ∈ nodes) :
    (Mm.mergeNext nodes node = nodes ∧ ∀ n ∈ nodes, ¬Touches node n) ∨
    ∃ next ∈ nodes, Touches node next ∧ next ≠ node ∧
      Mm.mergeNext nodes node =
        Mm.listDel (writeNode nodes { node with stop := next.stop }) next.id := by
  unfold Mm.mergeNext
  cases hfind : nodes.find? fun n =>
      n.start = node.stop ∧ n.attr = node.attr ∧ n.flags = node.flags with
  | none =>
      refine Or.inl ⟨rfl, fun n hn htouch => ?_⟩
      obtain ⟨hstop, hattr, hflags⟩ := touches_iff.mp htouch
      exact List.find?_eq_none.mp hfind n hn
        (decide_eq_true ⟨hstop.symm, hattr.symm, hflags.symm⟩)
  | some next =>
      have hnext := List.mem_of_find?_eq_some hfind
      have hcond := List.find?_some hfind
      obtain ⟨hstart, hattr, hflags⟩ := of_decide_eq_true hcond
      have htouch := touches_iff.mpr ⟨hstart.symm, hattr.symm, hflags.symm⟩
      refine Or.inr ⟨next, hnext, htouch, ?_, rfl⟩
      rintro rfl
      have := h.nonempty next hnode
      have := htouch.1
      omega

end NodesLinked

namespace NodesOk

variable {base top : BitVec 64} {nodes : List Vmnode}

theorem listDel (h : NodesOk base top nodes) (id : ℕ) :
    NodesOk base top (listDel nodes id) where
  separated := h.separated.sublist List.filter_sublist
  inside := fun n hn => h.inside n (mem_listDel.mp hn).1
  linked := h.linked.sublist (List.filter_sublist.map Vmnode.id)

/-! ## Inserting a node -/

theorem insertPrev_eq (node : Vmnode) {l : List Vmnode} {prev : Option Vmnode}
    (h : Separated Vmnode.lo Vmnode.hi l)
    (hprev : ∀ p, prev = some p → ∀ n ∈ l, p.hi ≤ n.lo) :
    insertPrev node prev l =
      ((l.takeWhile fun n => decide (n.hi ≤ node.lo)).getLast?).or prev := by
  induction l generalizing prev with
  | nil => rfl
  | cons tmp rest ih =>
      have htail := h.sublist (List.sublist_cons_self tmp rest)
      have hhead := (List.pairwise_cons.mp h.ordered).1
      have hiff : tmp.stop ≤ node.start ↔ tmp.hi ≤ node.lo := BitVec.le_def
      rw [insertPrev]
      by_cases hle : tmp.hi ≤ node.lo
      · -- `tmp` is the best candidate so far, since it ends last
        have hstep : insertPrev node (some tmp) rest =
            ((List.takeWhile (fun n => decide (n.hi ≤ node.lo)) (tmp :: rest)).getLast?).or
              prev := by
          rw [ih htail (by
            intro p hp n hn
            cases hp
            exact hhead n hn)]
          rw [List.takeWhile_cons_of_pos (by simpa using hle), List.getLast?_cons]
          cases (List.takeWhile (fun n => decide (n.hi ≤ node.lo)) rest).getLast? with
          | none => rfl
          | some q => rfl
        have hlater : laterPrev prev tmp = tmp := by
          cases prev with
          | none => rfl
          | some p =>
              have h₁ := hprev p rfl tmp (List.mem_cons_self ..)
              have h₂ := h.nonempty tmp (List.mem_cons_self ..)
              exact if_pos (BitVec.lt_def.mpr (lt_of_le_of_lt h₁ h₂))
        rw [if_pos (hiff.mpr hle), hlater]
        exact hstep
      · rw [if_neg (mt hiff.mp hle), List.takeWhile_cons_of_neg (by simpa using hle)]
        rw [ih htail (fun p hp n hn => hprev p hp n (List.mem_cons_of_mem _ hn))]
        have hnil : rest.takeWhile (fun n => decide (n.hi ≤ node.lo)) = [] := by
          cases rest with
          | nil => rfl
          | cons n rest =>
              apply List.takeWhile_cons_of_neg
              have h₁ := hhead n (List.mem_cons_self ..)
              have h₂ := htail.nonempty n (List.mem_cons_self ..)
              simp only [decide_eq_true_eq]
              omega
        rw [hnil]

theorem listAddAfter_append (node p : Vmnode) {l₁ : List Vmnode} (l₂ : List Vmnode)
    (hp : p.id ∉ l₁.map Vmnode.id) :
    listAddAfter node p.id (l₁ ++ p :: l₂) = l₁ ++ p :: node :: l₂ := by
  induction l₁ with
  | nil => exact if_pos rfl
  | cons n l₁ ih =>
      rw [List.map_cons, List.mem_cons, not_or] at hp
      rw [List.cons_append, listAddAfter, if_neg (Ne.symm hp.1), ih hp.2]
      rfl

/-- `VmspaceInsertLinearOrder` puts a node behind the nodes that end before it. -/
theorem vmspaceInsertLinearOrder_eq (h : NodesOk base top nodes) (node : Vmnode) :
    vmspaceInsertLinearOrder nodes node =
      (nodes.takeWhile fun n => decide (n.hi ≤ node.lo)) ++
        node :: nodes.dropWhile fun n => decide (n.hi ≤ node.lo) := by
  have hsplit := List.takeWhile_append_dropWhile (p := fun n => decide (n.hi ≤ node.lo))
    (l := nodes)
  unfold vmspaceInsertLinearOrder
  rw [insertPrev_eq node h.separated (by simp), Option.or_none]
  rcases List.eq_nil_or_concat'
    (nodes.takeWhile fun n => decide (n.hi ≤ node.lo)) with hnil | ⟨l₁, p, hlast⟩
  · rw [hnil] at hsplit ⊢
    rw [List.nil_append] at hsplit
    rw [hsplit]
    rfl
  · rw [hlast] at hsplit ⊢
    have hlinked := h.linked
    rw [← hsplit, List.append_assoc, List.singleton_append, List.map_append,
      List.map_cons] at hlinked
    have hp : p.id ∉ l₁.map Vmnode.id := by
      intro hmem
      exact (List.disjoint_of_nodup_append hlinked) hmem (List.mem_cons_self ..)
    rw [List.getLast?_concat]
    dsimp only
    rw [List.append_assoc, List.singleton_append]
    conv_lhs => rw [← hsplit, List.append_assoc, List.singleton_append]
    exact listAddAfter_append node p _ hp

theorem insert (h : NodesOk base top nodes) {node : Vmnode} (hne : node.lo < node.hi)
    (hin : base.toNat ≤ node.lo ∧ node.hi ≤ top.toNat)
    (hid : node.id ∉ nodes.map Vmnode.id)
    (hdisj : ∀ n ∈ nodes, n.hi ≤ node.lo ∨ node.hi ≤ n.lo) :
    NodesOk base top (vmspaceInsertLinearOrder nodes node) ∧
      ∀ n, n ∈ vmspaceInsertLinearOrder nodes node ↔ n = node ∨ n ∈ nodes := by
  have hsplit := List.takeWhile_append_dropWhile (p := fun n => decide (n.hi ≤ node.lo))
    (l := nodes)
  have hmem : ∀ n, n ∈ vmspaceInsertLinearOrder nodes node ↔ n = node ∨ n ∈ nodes := by
    intro n
    rw [h.vmspaceInsertLinearOrder_eq node]
    conv_rhs => rw [← hsplit]
    simp only [List.mem_append, List.mem_cons]
    tauto
  refine ⟨⟨?_, ?_, ?_⟩, hmem⟩
  · rw [h.vmspaceInsertLinearOrder_eq node]
    apply Separated.insert
    · rw [hsplit]
      exact h.separated
    · exact hne
    · intro b hb
      simpa using List.mem_takeWhile_imp hb
    · intro b hb
      have hlt := h.separated.lt_of_mem_dropWhile hb
      have hb' : b ∈ nodes := (List.dropWhile_sublist _).subset hb
      rcases hdisj b hb' with hle | hle
      · omega
      · exact hle
  · intro n hn
    rcases (hmem n).mp hn with rfl | hn
    · exact hin
    · exact h.inside n hn
  · rw [h.vmspaceInsertLinearOrder_eq node]
    have hperm : ((nodes.takeWhile fun n => decide (n.hi ≤ node.lo)) ++
        node :: nodes.dropWhile fun n => decide (n.hi ≤ node.lo)).Perm (node :: nodes) := by
      refine List.perm_middle.trans ?_
      rw [hsplit]
    rw [(hperm.map Vmnode.id).nodup_iff, List.map_cons, List.nodup_cons]
    exact ⟨hid, h.linked⟩

theorem insert_lookup (h : NodesOk base top nodes) {node : Vmnode}
    (hok : NodesOk base top (vmspaceInsertLinearOrder nodes node))
    (hmem : ∀ n, n ∈ vmspaceInsertLinearOrder nodes node ↔ n = node ∨ n ∈ nodes) (x : ℕ) :
    nodesLookup (vmspaceInsertLinearOrder nodes node) x =
      if node.lo ≤ x ∧ x < node.hi then some node.val else nodesLookup nodes x := by
  split_ifs with hx
  · exact hok.separated.lookup_eq_some_iff.mpr
      ⟨node, (hmem node).mpr (Or.inl rfl), hx, rfl⟩
  · apply hok.separated.lookup_congr h.separated
    intro v
    constructor
    · rintro ⟨n, hn, hnx, hv⟩
      rcases (hmem n).mp hn with rfl | hn
      · exact absurd hnx hx
      · exact ⟨n, hn, hnx, hv⟩
    · rintro ⟨n, hn, hnx, hv⟩
      exact ⟨n, (hmem n).mpr (Or.inr hn), hnx, hv⟩

theorem listDel_insert (h : NodesOk base top nodes) {node : Vmnode}
    (hid : node.id ∉ nodes.map Vmnode.id) :
    Mm.listDel (vmspaceInsertLinearOrder nodes node) node.id = nodes := by
  have hkeep : ∀ n ∈ nodes, n.id ≠ node.id := by
    rintro n hn heq
    exact hid (List.mem_map.mpr ⟨n, hn, heq⟩)
  have hsplit := List.takeWhile_append_dropWhile (p := fun n => decide (n.hi ≤ node.lo))
    (l := nodes)
  rw [h.vmspaceInsertLinearOrder_eq node]
  unfold Mm.listDel
  rw [List.filter_append, List.filter_cons_of_neg (by simp), ← List.filter_append, hsplit,
    List.filter_eq_self]
  simpa using hkeep

/-! ## Joining and shrinking nodes -/

/-- Two nodes touch, and `node'` is `node` extended over both. -/
inductive Joined (node other node' : Vmnode) : Prop
  | prev : other.hi = node.lo → node'.lo = other.lo → node'.hi = node.hi →
      Joined node other node'
  | next : node.hi = other.lo → node'.lo = node.lo → node'.hi = other.hi →
      Joined node other node'

theorem separated_absorb (h : NodesOk base top nodes) {node other node' : Vmnode}
    (hnode : node ∈ nodes) (hother : other ∈ nodes) (hid : node'.id = node.id)
    (hjoin : Joined node other node') : Separated Vmnode.lo Vmnode.hi
      (Mm.listDel (writeNode nodes node') other.id) := by
  have hnode_ne := h.separated.nonempty node hnode
  have hother_ne := h.separated.nonempty other hother
  rw [listDel_writeNode]
  apply (h.separated.sublist List.filter_sublist).map
  · intro a ha
    have ha' := (mem_listDel.mp ha).1
    by_cases haid : a.id = node'.id
    · rw [if_pos haid]
      rcases hjoin with ⟨h₁, h₂, h₃⟩ | ⟨h₁, h₂, h₃⟩ <;> omega
    · rw [if_neg haid]
      exact h.separated.nonempty a ha'
  · intro a ha b hb hab hle
    obtain ⟨ha, haid⟩ := mem_listDel.mp ha
    obtain ⟨hb, hbid⟩ := mem_listDel.mp hb
    have hane : a ≠ other := fun heq => haid (congrArg Vmnode.id heq)
    have hbne : b ≠ other := fun heq => hbid (congrArg Vmnode.id heq)
    have ha_ne := h.separated.nonempty a ha
    have hb_ne := h.separated.nonempty b hb
    by_cases haid' : a.id = node'.id
    · -- `a` is the node: it now ends where it ended, or where `other` ended
      have haeq : a = node := h.nodesLinked.eq_of_id ha hnode (haid'.trans hid)
      have hbid' : b.id ≠ node'.id := fun heq =>
        hab (haeq.trans (h.nodesLinked.eq_of_id hb hnode (heq.trans hid)).symm)
      rw [if_pos haid', if_neg hbid']
      subst a
      rcases h.separated.apart hb hother hbne with hbo | hbo <;>
        rcases hjoin with ⟨h₁, h₂, h₃⟩ | ⟨h₁, h₂, h₃⟩ <;> omega
    · rw [if_neg haid']
      by_cases hbid' : b.id = node'.id
      · have hbeq : b = node := h.nodesLinked.eq_of_id hb hnode (hbid'.trans hid)
        rw [if_pos hbid']
        subst b
        rcases h.separated.apart ha hother hane with hao | hao <;>
          rcases hjoin with ⟨h₁, h₂, h₃⟩ | ⟨h₁, h₂, h₃⟩ <;> omega
      · rw [if_neg hbid']
        exact hle

theorem absorb (h : NodesOk base top nodes) {node other node' : Vmnode}
    (hnode : node ∈ nodes) (hother : other ∈ nodes) (hne : other ≠ node)
    (hid : node'.id = node.id) (hval : node'.val = node.val)
    (hoval : other.val = node.val) (hjoin : Joined node other node') :
    NodesOk base top (Mm.listDel (writeNode nodes node') other.id) ∧
      (∀ n, n ∈ Mm.listDel (writeNode nodes node') other.id ↔
        n = node' ∨ (n ∈ nodes ∧ n ≠ node ∧ n ≠ other)) ∧
      nodesLookup (Mm.listDel (writeNode nodes node') other.id) = nodesLookup nodes := by
  have hnode_ne := h.separated.nonempty node hnode
  have hother_ne := h.separated.nonempty other hother
  have hmem := fun n => h.nodesLinked.mem_absorb (n := n) hnode hother hne hid
  have hsep := h.separated_absorb hnode hother hid hjoin
  refine ⟨⟨hsep, ?_, ?_⟩, hmem, ?_⟩
  · intro n hn
    have hin := h.inside node hnode
    have hin' := h.inside other hother
    rcases (hmem n).mp hn with rfl | ⟨hn, -⟩
    · rcases hjoin with ⟨h₁, h₂, h₃⟩ | ⟨h₁, h₂, h₃⟩ <;> omega
    · exact h.inside n hn
  · have hids := writeNode_map_id nodes node'
    have hlinked := h.linked
    rw [← hids] at hlinked
    exact hlinked.sublist (List.filter_sublist.map Vmnode.id)
  · funext x
    apply hsep.lookup_congr h.separated
    intro v
    constructor
    · rintro ⟨n, hn, hx, hv⟩
      rcases (hmem n).mp hn with rfl | ⟨hn, -⟩
      · by_cases hxn : Contains Vmnode.lo Vmnode.hi node x
        · exact ⟨node, hnode, hxn, hval.symm.trans hv⟩
        · refine ⟨other, hother, ?_, hoval.trans (hval.symm.trans hv)⟩
          unfold Contains at hx hxn ⊢
          rcases hjoin with ⟨h₁, h₂, h₃⟩ | ⟨h₁, h₂, h₃⟩ <;> omega
      · exact ⟨n, hn, hx, hv⟩
    · rintro ⟨n, hn, hx, hv⟩
      by_cases hnn : n = node ∨ n = other
      · refine ⟨node', (hmem node').mpr (Or.inl rfl), ?_, ?_⟩
        · unfold Contains at hx ⊢
          rcases hnn with rfl | rfl <;>
            rcases hjoin with ⟨h₁, h₂, h₃⟩ | ⟨h₁, h₂, h₃⟩ <;> omega
        · rcases hnn with rfl | rfl
          · exact hval.trans hv
          · exact hval.trans (hoval.symm.trans hv)
      · rw [not_or] at hnn
        exact ⟨n, (hmem n).mpr (Or.inr ⟨hn, hnn⟩), hx, hv⟩

theorem shrink (h : NodesOk base top nodes) {node node' : Vmnode}
    (hnode : node ∈ nodes) (hid : node'.id = node.id) (hlo : node.lo ≤ node'.lo)
    (hne : node'.lo < node'.hi) (hhi : node'.hi ≤ node.hi) :
    NodesOk base top (writeNode nodes node') := by
  have hf : ∀ a ∈ nodes, a.lo ≤ (if a.id = node'.id then node' else a).lo ∧
      (if a.id = node'.id then node' else a).hi ≤ a.hi ∧
      (if a.id = node'.id then node' else a).lo <
        (if a.id = node'.id then node' else a).hi := by
    intro a ha
    by_cases haid : a.id = node'.id
    · have haeq : a = node := h.nodesLinked.eq_of_id ha hnode (haid.trans hid)
      rw [if_pos haid, haeq]
      exact ⟨hlo, hhi, hne⟩
    · rw [if_neg haid]
      exact ⟨le_refl _, le_refl _, h.separated.nonempty a ha⟩
  constructor
  · apply h.separated.map
    · intro a ha
      exact (hf a ha).2.2
    · intro a ha b hb _ hle
      exact (hf a ha).2.1.trans (hle.trans (hf b hb).1)
  · intro n hn
    obtain ⟨a, ha, rfl⟩ := List.mem_map.mp hn
    have hin := h.inside a ha
    exact ⟨hin.1.trans (hf a ha).1, (hf a ha).2.1.trans hin.2⟩
  · rw [writeNode_map_id]
    exact h.linked

/-! ## `VmspaceMergeNode` -/

/-- What a list operation keeps: the form of the list and what it denotes. -/
structure Keeps (base top : BitVec 64) (nodes nodes' : List Vmnode) : Prop where
  ok : NodesOk base top nodes'
  lookup_eq : nodesLookup nodes' = nodesLookup nodes
  aligned : NodesAligned nodes → NodesAligned nodes'

theorem Keeps.refl (h : NodesOk base top nodes) : Keeps base top nodes nodes :=
  ⟨h, rfl, id⟩

theorem absorb_keeps (h : NodesOk base top nodes) {node other node' : Vmnode}
    (hnode : node ∈ nodes) (hother : other ∈ nodes) (hne : other ≠ node)
    (hid : node'.id = node.id) (hval : node'.val = node.val)
    (hoval : other.val = node.val) (hjoin : Joined node other node') :
    Keeps base top nodes (Mm.listDel (writeNode nodes node') other.id) := by
  obtain ⟨hok, hmem, hlookup⟩ := h.absorb hnode hother hne hid hval hoval hjoin
  refine ⟨hok, hlookup, ?_⟩
  intro hal n hn
  rcases (hmem n).mp hn with rfl | ⟨hn, -⟩
  · have h₁ := hal node hnode
    have h₂ := hal other hother
    rcases hjoin with ⟨-, hlo, hhi⟩ | ⟨-, hlo, hhi⟩
    · rw [hlo, hhi]
      exact ⟨h₂.1, h₁.2⟩
    · rw [hlo, hhi]
      exact ⟨h₁.1, h₂.2⟩
  · exact hal n hn

theorem mergePrev (h : NodesOk base top nodes) {node : Vmnode} (hnode : node ∈ nodes) :
    Keeps base top nodes (mergePrev nodes node).1 ∧
      (Mm.mergePrev nodes node).2 ∈ (Mm.mergePrev nodes node).1 := by
  rcases h.nodesLinked.mergePrev_cases hnode with ⟨hrun, -⟩ | ⟨prev, hprev, htouch, hne, hrun⟩
  · rw [hrun]
    exact ⟨Keeps.refl h, hnode⟩
  · have hjoin : Joined node prev { node with start := prev.start } := .prev htouch.1 rfl rfl
    have hid : ({ node with start := prev.start } : Vmnode).id = node.id := rfl
    have hmem := (h.absorb hnode hprev hne hid rfl htouch.2 hjoin).2.1
    rw [hrun]
    exact ⟨h.absorb_keeps hnode hprev hne rfl rfl htouch.2 hjoin, (hmem _).mpr (Or.inl rfl)⟩

theorem mergeNext (h : NodesOk base top nodes) {node : Vmnode} (hnode : node ∈ nodes) :
    Keeps base top nodes (mergeNext nodes node) := by
  rcases h.nodesLinked.mergeNext_cases hnode with ⟨hrun, -⟩ | ⟨next, hnext, htouch, hne, hrun⟩
  · rw [hrun]
    exact Keeps.refl h
  · rw [hrun]
    exact h.absorb_keeps hnode hnext hne rfl rfl htouch.2.symm (.next htouch.1 rfl rfl)

/-- `VmspaceMergeNode` on a linked node changes nothing that the list denotes. -/
theorem vmspaceMergeNode (h : NodesOk base top nodes) {node : Vmnode}
    (hnode : node ∈ nodes) : Keeps base top nodes (vmspaceMergeNode nodes node) := by
  obtain ⟨hprev, hmem⟩ := h.mergePrev hnode
  have hnext := hprev.ok.mergeNext hmem
  exact ⟨hnext.ok, hnext.lookup_eq.trans hprev.lookup_eq,
    fun hal => hnext.aligned (hprev.aligned hal)⟩

/-! ## `VmspaceSplitNode` -/

/-- A piece is cut off a node and inserted as a node of its own.  The node keeps
`node'`, and the two together are what it was. -/
theorem cut (h : NodesOk base top nodes) {node node' piece : Vmnode}
    (hnode : node ∈ nodes) (hid : node'.id = node.id) (hval : node'.val = node.val)
    (hpval : piece.val = node.val) (hpid : piece.id ∉ nodes.map Vmnode.id)
    (hne : node'.lo < node'.hi) (hpne : piece.lo < piece.hi)
    (hjoin : Joined node' piece node) :
    NodesOk base top (vmspaceInsertLinearOrder (writeNode nodes node') piece) ∧
      (∀ n, n ∈ vmspaceInsertLinearOrder (writeNode nodes node') piece ↔
        n = piece ∨ n = node' ∨ (n ∈ nodes ∧ n ≠ node)) ∧
      nodesLookup (vmspaceInsertLinearOrder (writeNode nodes node') piece) =
        nodesLookup nodes := by
  have hbounds : node.lo ≤ node'.lo ∧ node'.hi ≤ node.hi ∧ node.lo ≤ piece.lo ∧
      piece.hi ≤ node.hi ∧ (piece.hi = node'.lo ∨ node'.hi = piece.lo) := by
    rcases hjoin with ⟨h₁, h₂, h₃⟩ | ⟨h₁, h₂, h₃⟩ <;> omega
  obtain ⟨hlo, hhi, hplo, hphi, htouch⟩ := hbounds
  have hshrink := h.shrink hnode hid hlo hne hhi
  have hwrite : ∀ n, n ∈ writeNode nodes node' ↔ n = node' ∨ (n ∈ nodes ∧ n ≠ node) :=
    fun n => h.nodesLinked.mem_writeNode hnode hid
  have hin := h.inside node hnode
  have hdisj : ∀ n ∈ writeNode nodes node', n.hi ≤ piece.lo ∨ piece.hi ≤ n.lo := by
    intro n hn
    rcases (hwrite n).mp hn with rfl | ⟨hn, hnn⟩
    · omega
    · rcases h.separated.apart hn hnode hnn with hle | hle <;> omega
  obtain ⟨hok, hmem⟩ := hshrink.insert hpne ⟨by omega, by omega⟩
    (by rw [writeNode_map_id]; exact hpid) hdisj
  have hmem' : ∀ n, n ∈ vmspaceInsertLinearOrder (writeNode nodes node') piece ↔
      n = piece ∨ n = node' ∨ (n ∈ nodes ∧ n ≠ node) := by
    intro n
    rw [hmem, hwrite]
  refine ⟨hok, hmem', ?_⟩
  funext x
  apply hok.separated.lookup_congr h.separated
  intro v
  constructor
  · rintro ⟨n, hn, hx, hv⟩
    rcases (hmem' n).mp hn with rfl | rfl | ⟨hn, -⟩
    · refine ⟨node, hnode, ?_, hpval.symm.trans hv⟩
      unfold Contains at hx ⊢
      omega
    · refine ⟨node, hnode, ?_, hval.symm.trans hv⟩
      unfold Contains at hx ⊢
      omega
    · exact ⟨n, hn, hx, hv⟩
  · rintro ⟨n, hn, hx, hv⟩
    by_cases hnn : n = node
    · subst n
      by_cases hxp : Contains Vmnode.lo Vmnode.hi piece x
      · exact ⟨piece, (hmem' piece).mpr (Or.inl rfl), hxp, hpval.trans hv⟩
      · refine ⟨node', (hmem' node').mpr (Or.inr (Or.inl rfl)), ?_, hval.trans hv⟩
        unfold Contains at hx hxp ⊢
        rcases hjoin with ⟨h₁, h₂, h₃⟩ | ⟨h₁, h₂, h₃⟩ <;> omega
    · exact ⟨n, (hmem' n).mpr (Or.inr (Or.inr ⟨hn, hnn⟩)), hx, hv⟩

/-- `nodes'` denotes the same as `nodes`, and `node` has become `node'` with the
range `[lo, hi)`. -/
structure Carved (base top : BitVec 64) (nodes : List Vmnode) (node : Vmnode)
    (nodes' : List Vmnode) (node' : Vmnode) (lo hi : ℕ) : Prop where
  ok : NodesOk base top nodes'
  mem : node' ∈ nodes'
  lo_eq : node'.lo = lo
  hi_eq : node'.hi = hi
  val_eq : node'.val = node.val
  lookup_eq : nodesLookup nodes' = nodesLookup nodes
  ends : ∀ n ∈ nodes', n ≠ node' → n.hi = lo ∨ ∃ a ∈ nodes, a.hi = n.hi ∧ a.val = n.val
  aligned : NodesAligned nodes → lo % 4096 = 0 → hi % 4096 = 0 → NodesAligned nodes'

/-- The optional part that `VmspaceSplitNode` cuts off: nothing when the range is
empty, else a new node. -/
structure PartOk (inUse : List Vmnode) (node : Vmnode) (lo hi : ℕ)
    (part : Option Vmnode) : Prop where
  none_iff : part = none ↔ lo = hi
  some_ok : ∀ p, part = some p →
    p.lo = lo ∧ p.hi = hi ∧ p.val = node.val ∧ p.id ∉ inUse.map Vmnode.id

theorem splitPart_cases {μ : Type} (M : Machine μ) (inUse : List Vmnode) (m : μ)
    (node : Vmnode) (start stop : BitVec 64) :
    (∃ m', splitPart M inUse m node start stop = (.error .enomem, m')) ∨
      ∃ part m', splitPart M inUse m node start stop = (.ok part, m') ∧
        PartOk inUse node start.toNat stop.toNat part := by
  unfold splitPart
  by_cases heq : start = stop
  · rw [if_pos heq]
    exact Or.inr ⟨none, m, rfl, by simp [heq], by simp⟩
  · rw [if_neg heq]
    rcases halloc : M.memAlloc m with ⟨ok, m'⟩
    cases ok with
    | false => exact Or.inl ⟨m', rfl⟩
    | true =>
        refine Or.inr ⟨_, m', rfl, ?_, ?_⟩
        · simpa using fun h => heq (BitVec.eq_of_toNat_eq h)
        · intro p hp
          rw [Option.some.injEq] at hp
          subst p
          refine ⟨rfl, ?_, rfl, vmnodeCreate_id_notMem _ _ _ _ _⟩
          change (start + (stop - start)).toNat = stop.toNat
          rw [BitVec.add_comm, BitVec.sub_add_cancel]

theorem splitPrev (h : NodesOk base top nodes) {node : Vmnode} (hnode : node ∈ nodes)
    {start : BitVec 64} {prev : Option Vmnode}
    (hpart : PartOk nodes node node.lo start.toNat prev)
    (hlo : node.lo ≤ start.toNat) (hhi : start.toNat < node.hi) :
    Carved base top nodes node (splitPrev nodes node start prev).1
        (Mm.splitPrev nodes node start prev).2 start.toNat node.hi ∧
      ∀ n ∈ (Mm.splitPrev nodes node start prev).1,
        n.id ∈ (prev.toList ++ nodes).map Vmnode.id := by
  cases prev with
  | none =>
      have heq := hpart.none_iff.mp rfl
      exact ⟨⟨h, hnode, heq, rfl, rfl, rfl, fun n hn _ => Or.inr ⟨n, hn, rfl, rfl⟩,
        fun hal _ _ => hal⟩, fun n hn => List.mem_map_of_mem hn⟩
  | some prev =>
      obtain ⟨hplo, hphi, hpval, hpid⟩ := hpart.some_ok prev rfl
      have hne : node.lo ≠ start.toNat :=
        fun heq => by simpa using hpart.none_iff.mpr heq
      have hid : ({ node with start } : Vmnode).id = node.id := rfl
      obtain ⟨hok, hmem, hlookup⟩ := h.cut hnode hid rfl hpval hpid hhi
        (by omega) (.prev hphi hplo.symm rfl)
      refine ⟨⟨hok, (hmem _).mpr (Or.inr (Or.inl rfl)), rfl, rfl, rfl, hlookup, ?_, ?_⟩, ?_⟩
      · intro n hn hne
        rcases (hmem n).mp hn with rfl | rfl | ⟨hn, -⟩
        · exact Or.inl hphi
        · exact absurd rfl hne
        · exact Or.inr ⟨n, hn, rfl, rfl⟩
      · intro hal hstart hstop n hn
        rcases (hmem n).mp hn with rfl | rfl | ⟨hn, -⟩
        · exact ⟨hplo ▸ (hal node hnode).1, hphi ▸ hstart⟩
        · exact ⟨hstart, hstop⟩
        · exact hal n hn
      intro n hn
      rw [Option.toList_some, List.singleton_append, List.map_cons, List.mem_cons]
      rcases (hmem n).mp hn with rfl | rfl | ⟨hn, -⟩
      · exact Or.inl rfl
      · exact Or.inr (List.mem_map.mpr ⟨node, hnode, rfl⟩)
      · exact Or.inr (List.mem_map_of_mem hn)

theorem splitNext (h : NodesOk base top nodes) {node : Vmnode} (hnode : node ∈ nodes)
    {stop : BitVec 64} {next : Option Vmnode} {inUse : List Vmnode}
    (hsub : ∀ n ∈ nodes, n.id ∈ inUse.map Vmnode.id)
    (hpart : PartOk inUse node stop.toNat node.hi next)
    (hlo : node.lo < stop.toNat) (hhi : stop.toNat ≤ node.hi) :
    Carved base top nodes node (splitNext nodes node stop next).1
      (Mm.splitNext nodes node stop next).2 node.lo stop.toNat := by
  cases next with
  | none =>
      have heq := hpart.none_iff.mp rfl
      exact ⟨h, hnode, rfl, heq.symm, rfl, rfl, fun n hn _ => Or.inr ⟨n, hn, rfl, rfl⟩,
        fun hal _ _ => hal⟩
  | some next =>
      obtain ⟨hplo, hphi, hpval, hpid⟩ := hpart.some_ok next rfl
      have hne : stop.toNat ≠ node.hi :=
        fun heq => by simpa using hpart.none_iff.mpr heq
      have hfresh : next.id ∉ nodes.map Vmnode.id := by
        intro hmem
        obtain ⟨n, hn, heq⟩ := List.mem_map.mp hmem
        exact hpid (heq ▸ hsub n hn)
      have hid : ({ node with stop } : Vmnode).id = node.id := rfl
      obtain ⟨hok, hmem, hlookup⟩ := h.cut hnode hid rfl hpval hfresh hlo
        (by omega) (.next hplo.symm rfl hphi.symm)
      refine ⟨hok, (hmem _).mpr (Or.inr (Or.inl rfl)), rfl, rfl, rfl, hlookup, ?_, ?_⟩
      · intro n hn hne
        rcases (hmem n).mp hn with rfl | rfl | ⟨hn, -⟩
        · exact Or.inr ⟨node, hnode, hphi.symm, hpval.symm⟩
        · exact absurd rfl hne
        · exact Or.inr ⟨n, hn, rfl, rfl⟩
      · intro hal hstart hstop n hn
        rcases (hmem n).mp hn with rfl | rfl | ⟨hn, -⟩
        · exact ⟨hplo ▸ hstop, hphi ▸ (hal node hnode).2⟩
        · exact ⟨hstart, hstop⟩
        · exact hal n hn

/-- `VmspaceSplitNode` at a range inside the node: without memory nothing happens,
else the node shrinks to the range and the list denotes what it did. -/
theorem vmspaceSplitNode (h : NodesOk base top nodes) {μ : Type} (M : Machine μ) (m : μ)
    {node : Vmnode} (hnode : node ∈ nodes) {addr size : BitVec 64}
    (hlo : node.lo ≤ addr.toNat) (hpos : 0 < size.toNat)
    (hhi : addr.toNat + size.toNat ≤ node.hi) :
    (∃ m', vmspaceSplitNode M nodes m node addr size = (.error .enomem, m')) ∨
      ∃ nodes' node' m', Mm.vmspaceSplitNode M nodes m node addr size =
          (.ok (nodes', node'), m') ∧
        Carved base top nodes node nodes' node' addr.toNat (addr.toNat + size.toNat) := by
  have hend : (addr + size).toNat = addr.toNat + size.toNat := by
    have hlt : node.hi < 2 ^ 64 := node.stop.isLt
    rw [BitVec.toNat_add]
    exact Nat.mod_eq_of_lt (by omega)
  unfold Mm.vmspaceSplitNode
  by_cases hexact : node.start = addr ∧ node.stop = addr + size
  · rw [if_pos hexact]
    refine Or.inr ⟨nodes, node, m, rfl, h, hnode, ?_, ?_, rfl, rfl,
      fun n hn _ => Or.inr ⟨n, hn, rfl, rfl⟩, fun hal _ _ => hal⟩
    · exact congrArg BitVec.toNat hexact.1
    · exact (congrArg BitVec.toNat hexact.2).trans hend
  · rw [if_neg hexact]
    rcases splitPart_cases M nodes m node node.start addr with
      ⟨m₁, hprev⟩ | ⟨prev, m₁, hprev, hprevOk⟩
    · rw [hprev]
      exact Or.inl ⟨m₁, rfl⟩
    rw [hprev]
    dsimp only
    rcases splitPart_cases M (prev.toList ++ nodes) m₁ node (addr + size) node.stop with
      ⟨m₂, hnext⟩ | ⟨next, m₂, hnext, hnextOk⟩
    · rw [hnext]
      exact Or.inl ⟨m₂, rfl⟩
    rw [hnext]
    -- cut off the front, then the back
    obtain ⟨hcarve₁, hids⟩ := h.splitPrev hnode hprevOk hlo (by omega)
    have hnextOk' : PartOk (prev.toList ++ nodes) (Mm.splitPrev nodes node addr prev).2
        (addr + size).toNat (Mm.splitPrev nodes node addr prev).2.hi next := by
      refine ⟨?_, ?_⟩
      · rw [hcarve₁.hi_eq]
        exact hnextOk.none_iff
      · intro p hp
        rw [hcarve₁.hi_eq, hcarve₁.val_eq]
        exact hnextOk.some_ok p hp
    have hcarve₂ := hcarve₁.ok.splitNext hcarve₁.mem hids hnextOk'
      (by rw [hcarve₁.lo_eq]; omega) (by rw [hcarve₁.hi_eq]; omega)
    refine Or.inr ⟨_, _, m₂, rfl, ?_⟩
    exact
      { ok := hcarve₂.ok
        mem := hcarve₂.mem
        lo_eq := hcarve₂.lo_eq.trans hcarve₁.lo_eq
        hi_eq := hcarve₂.hi_eq.trans hend
        val_eq := hcarve₂.val_eq.trans hcarve₁.val_eq
        lookup_eq := hcarve₂.lookup_eq.trans hcarve₁.lookup_eq
        ends := by
          intro n hn hne
          rcases hcarve₂.ends n hn hne with hlo | ⟨a, ha, hhi, hval⟩
          · exact Or.inl (hlo.trans hcarve₁.lo_eq)
          · by_cases hself : a = (Mm.splitPrev nodes node addr prev).2
            · rw [hself] at hhi hval
              exact Or.inr ⟨node, hnode, hcarve₁.hi_eq.symm.trans hhi,
                hcarve₁.val_eq.symm.trans hval⟩
            · rcases hcarve₁.ends a ha hself with hlo | ⟨b, hb, hbhi, hbval⟩
              · exact Or.inl (hhi.symm.trans hlo)
              · exact Or.inr ⟨b, hb, hbhi.trans hhi, hbval.trans hval⟩
        aligned := by
          intro hal hstart hstop
          refine hcarve₂.aligned (hcarve₁.aligned hal hstart (hal node hnode).2) ?_ ?_
          · rw [hcarve₁.lo_eq]
            exact hstart
          · rw [hend]
            exact hstop }

end NodesOk

end Nxos.Mm
