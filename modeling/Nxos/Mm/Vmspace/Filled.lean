import Nxos.Mm.Vmspace.Canonical
import Nxos.Mm.Vmspace.FirstFit

/-!
# A range that comes and goes

The nodes of a list are known from the addresses they cover, with attributes and flags, and
from the addresses at which they start.  Filling a free range, page after page, and taking it
out again changes neither outside the range: whatever was merged is split again, and the nodes
are those of before.
-/

namespace Nxos.Mm

open Nxos.Interval

variable {base top : BitVec 64} {nodes nodes' nodes'' : List Vmnode}

/-! ## What a list says -/

def Vmnode.content (n : Vmnode) : BitVec 64 × BitVec 64 × BitVec 64 × BitVec 32 :=
  (n.start, n.stop, n.attr, n.flags)

def SameNodes (nodes nodes' : List Vmnode) : Prop :=
  nodes'.map Vmnode.content = nodes.map Vmnode.content

def StartsAt (nodes : List Vmnode) (x : ℕ) : Prop :=
  ∃ n ∈ nodes, n.lo = x

theorem content_eq_iff {a b : Vmnode} :
    a.content = b.content ↔ a.lo = b.lo ∧ a.hi = b.hi ∧ a.val = b.val := by
  unfold Vmnode.content Vmnode.lo Vmnode.hi Vmnode.val
  simp only [BitVec.toNat_inj, Prod.mk.injEq]

theorem SameNodes.lookup_eq (h : NodesOk base top nodes) (h' : NodesOk base top nodes')
    (hsame : SameNodes nodes nodes') : nodesLookup nodes' = nodesLookup nodes := by
  have hmem : ∀ {l l' : List Vmnode}, l'.map Vmnode.content = l.map Vmnode.content →
      ∀ n ∈ l', ∃ n' ∈ l, n'.content = n.content := by
    intro l l' heq n hn
    exact List.mem_map.mp (heq ▸ List.mem_map_of_mem hn)
  have hcovers : ∀ {l l' : List Vmnode}, l'.map Vmnode.content = l.map Vmnode.content →
      ∀ x v, (∃ n ∈ l', Contains Vmnode.lo Vmnode.hi n x ∧ n.val = v) →
        ∃ n ∈ l, Contains Vmnode.lo Vmnode.hi n x ∧ n.val = v := by
    rintro l l' heq x v ⟨n, hn, hx, hv⟩
    obtain ⟨n', hn', hcontent⟩ := hmem heq n hn
    obtain ⟨hlo, hhi, hval⟩ := content_eq_iff.mp hcontent
    refine ⟨n', hn', ?_, hval.trans hv⟩
    unfold Contains at hx ⊢
    omega
  funext x
  exact h'.separated.lookup_congr h.separated fun v =>
    ⟨hcovers hsame x v, hcovers hsame.symm x v⟩

section Determined

variable (h : NodesOk base top nodes) (h' : NodesOk base top nodes')
  (hlookup : nodesLookup nodes' = nodesLookup nodes)
  (hstarts : ∀ x, StartsAt nodes' x ↔ StartsAt nodes x)
include h h' hlookup hstarts

theorem hi_le_of_lookup_eq {n n' : Vmnode} (hn : n ∈ nodes) (hn' : n' ∈ nodes')
    (hlo : n'.lo = n.lo) : n.hi ≤ n'.hi := by
  by_contra hlt
  have hne' := h'.separated.nonempty n' hn'
  have hinside : Contains Vmnode.lo Vmnode.hi n n'.hi := by
    unfold Contains
    omega
  have hcovered : nodesLookup nodes' n'.hi = some n.val := by
    rw [hlookup]
    exact h.separated.lookup_eq_some_iff.mpr ⟨n, hn, hinside, rfl⟩
  -- the node that covers the end of `n'` starts there
  obtain ⟨b, hb, hbx, -⟩ := h'.separated.lookup_eq_some_iff.mp hcovered
  have hne : b ≠ n' := by
    rintro rfl
    exact absurd hbx.2 (lt_irrefl _)
  have hstart : b.lo = n'.hi := by
    have hapart := h'.separated.apart hb hn' hne
    have hbx₁ := hbx.1
    have hbx₂ := hbx.2
    omega
  obtain ⟨c, hc, hclo⟩ := (hstarts n'.hi).mp ⟨b, hb, hstart⟩
  have hcx : Contains Vmnode.lo Vmnode.hi c n'.hi := by
    have hcne := h.separated.nonempty c hc
    unfold Contains
    omega
  have heq := h.separated.eq_of_contains hc hn hcx hinside
  subst heq
  omega

theorem exists_content_eq {n : Vmnode} (hn : n ∈ nodes) :
    ∃ n' ∈ nodes', n'.content = n.content := by
  obtain ⟨n', hn', hlo⟩ := (hstarts n.lo).mpr ⟨n, hn, rfl⟩
  have hne := h.separated.nonempty n hn
  have hne' := h'.separated.nonempty n' hn'
  have hval : n'.val = n.val := by
    have hcover : nodesLookup nodes n.lo = some n.val :=
      h.separated.lookup_eq_some_iff.mpr ⟨n, hn, ⟨le_refl _, hne⟩, rfl⟩
    have hcover' : nodesLookup nodes' n.lo = some n'.val :=
      h'.separated.lookup_eq_some_iff.mpr ⟨n', hn', ⟨hlo.le, hlo ▸ hne'⟩, rfl⟩
    rw [hlookup, hcover] at hcover'
    exact (Option.some.inj hcover').symm
  refine ⟨n', hn', content_eq_iff.mpr ⟨hlo, ?_, hval⟩⟩
  exact le_antisymm
    (hi_le_of_lookup_eq h' h hlookup.symm (fun x => (hstarts x).symm) hn' hn hlo.symm)
    (hi_le_of_lookup_eq h h' hlookup hstarts hn hn' hlo)

theorem sameNodes_of_lookup_eq : SameNodes nodes nodes' := by
  have hsorted : ∀ {l : List Vmnode}, NodesOk base top l →
      (l.map Vmnode.content).Pairwise fun c d => c.1.toNat < d.1.toNat := by
    intro l hl
    refine List.pairwise_map.mpr (hl.separated.ordered.imp_of_mem fun {a b} ha _ hab => ?_)
    exact lt_of_lt_of_le (hl.separated.nonempty a ha) hab
  have hnodup : ∀ {l : List Vmnode}, NodesOk base top l → (l.map Vmnode.content).Nodup :=
    fun hl => (hsorted hl).imp fun {c d} hlt heq => absurd (heq ▸ hlt) (lt_irrefl _)
  have hperm : (nodes'.map Vmnode.content).Perm (nodes.map Vmnode.content) := by
    refine (List.perm_ext_iff_of_nodup (hnodup h') (hnodup h)).mpr fun c => ?_
    rw [List.mem_map, List.mem_map]
    constructor
    · rintro ⟨n, hn, rfl⟩
      exact exists_content_eq h' h hlookup.symm (fun x => (hstarts x).symm) hn
    · rintro ⟨n, hn, rfl⟩
      exact exists_content_eq h h' hlookup hstarts hn
  exact hperm.eq_of_pairwise (fun c d _ _ hcd hdc => absurd (hcd.trans hdc) (lt_irrefl _))
    (hsorted h') (hsorted h)

end Determined

/-! ## Filling -/

def EndsAt (nodes : List Vmnode) (v : BitVec 64 × BitVec 32) (x : ℕ) : Prop :=
  ∃ n ∈ nodes, n.hi = x ∧ n.val = v

def BeginsAt (nodes : List Vmnode) (v : BitVec 64 × BitVec 32) (x : ℕ) : Prop :=
  ∃ n ∈ nodes, n.lo = x ∧ n.val = v

/-- `[lo, hi)` was free in `nodes` and lies in one node of `nodes'` with the value `v`, which
reaches beyond the range exactly where a node with this value touched it. -/
structure RangeFilled (nodes nodes' : List Vmnode) (v : BitVec 64 × BitVec 32) (lo hi : ℕ) :
    Prop where
  nonempty : lo < hi
  free : ∀ x, lo ≤ x → x < hi → nodesLookup nodes x = none
  lookup_eq : ∀ x, nodesLookup nodes' x =
    if lo ≤ x ∧ x < hi then some v else nodesLookup nodes x
  starts : ∀ x, x < lo ∨ hi < x → (StartsAt nodes' x ↔ StartsAt nodes x)
  node : ∃ n ∈ nodes', n.val = v ∧ n.lo ≤ lo ∧ hi ≤ n.hi ∧
    (n.lo < lo ↔ EndsAt nodes v lo) ∧ (hi < n.hi ↔ BeginsAt nodes v hi)

namespace NodesLinked

/-- What the first half of `VmspaceMergeNode` does to the bounds. -/
theorem mergePrev_bounds (h : NodesLinked nodes) {node : Vmnode} (hnode : node ∈ nodes) :
    (∀ x, x ≠ node.lo → (StartsAt (Mm.mergePrev nodes node).1 x ↔ StartsAt nodes x)) ∧
      (Mm.mergePrev nodes node).2.lo ≤ node.lo ∧
      ((Mm.mergePrev nodes node).2.lo < node.lo ↔ EndsAt nodes node.val node.lo) ∧
      (Mm.mergePrev nodes node).2.hi = node.hi ∧ (Mm.mergePrev nodes node).2.val = node.val ∧
      (BeginsAt (Mm.mergePrev nodes node).1 node.val node.hi ↔
        BeginsAt nodes node.val node.hi) := by
  have hnode_ne := h.nonempty node hnode
  rcases h.mergePrev_cases hnode with ⟨hrun, hnone⟩ | ⟨prev, hprev, htouch, hne, hrun⟩
  · rw [hrun]
    refine ⟨fun _ _ => Iff.rfl, le_refl _, ?_, rfl, rfl, Iff.rfl⟩
    exact iff_of_false (lt_irrefl _) fun ⟨p, hp, hend, hval⟩ => hnone p hp ⟨hend, hval⟩
  · have hprev_ne := h.nonempty prev hprev
    have hend := htouch.1
    have hid : ({ node with start := prev.start } : Vmnode).id = node.id := rfl
    have hmem := fun n => h.mem_absorb (n := n) hnode hprev hne hid
    rw [hrun]
    dsimp only
    refine ⟨fun x hx => ?_, ?_, ?_, rfl, rfl, ?_⟩
    · constructor
      · rintro ⟨n, hn, rfl⟩
        rcases (hmem n).mp hn with rfl | ⟨hn, -⟩
        · exact ⟨prev, hprev, rfl⟩
        · exact ⟨n, hn, rfl⟩
      · rintro ⟨n, hn, rfl⟩
        by_cases heq : n = prev
        · subst heq
          exact ⟨_, (hmem _).mpr (Or.inl rfl), rfl⟩
        · refine ⟨n, (hmem n).mpr (Or.inr ⟨hn, ?_, heq⟩), rfl⟩
          rintro rfl
          exact hx rfl
    · change prev.lo ≤ node.lo
      omega
    · refine iff_of_true ?_ ⟨prev, hprev, htouch.1, htouch.2⟩
      change prev.lo < node.lo
      omega
    · constructor
      · rintro ⟨n, hn, hlo, hval⟩
        rcases (hmem n).mp hn with rfl | ⟨hn, -⟩
        · have hlo' : prev.lo = node.hi := hlo
          omega
        · exact ⟨n, hn, hlo, hval⟩
      · rintro ⟨n, hn, hlo, hval⟩
        refine ⟨n, (hmem n).mpr (Or.inr ⟨hn, ?_, ?_⟩), hlo, hval⟩
        · rintro rfl
          omega
        · rintro rfl
          omega

/-- What the second half of `VmspaceMergeNode` does to the bounds. -/
theorem mergeNext_bounds (h : NodesLinked nodes) {node : Vmnode} (hnode : node ∈ nodes) :
    (∀ x, x ≠ node.hi → (StartsAt (Mm.mergeNext nodes node) x ↔ StartsAt nodes x)) ∧
      ∃ n ∈ Mm.mergeNext nodes node, n.val = node.val ∧ n.lo = node.lo ∧ node.hi ≤ n.hi ∧
        (node.hi < n.hi ↔ BeginsAt nodes node.val node.hi) := by
  rcases h.mergeNext_cases hnode with ⟨hrun, hnone⟩ | ⟨next, hnext, htouch, hne, hrun⟩
  · rw [hrun]
    refine ⟨fun _ _ => Iff.rfl, node, hnode, rfl, rfl, le_refl _, ?_⟩
    exact iff_of_false (lt_irrefl _) fun ⟨n, hn, hlo, hval⟩ =>
      hnone n hn ⟨hlo.symm, hval.symm⟩
  · have hnext_ne := h.nonempty next hnext
    have hend := htouch.1
    have hid : ({ node with stop := next.stop } : Vmnode).id = node.id := rfl
    have hmem := fun n => h.mem_absorb (n := n) hnode hnext hne hid
    rw [hrun]
    refine ⟨fun x hx => ?_, _, (hmem _).mpr (Or.inl rfl), rfl, rfl, ?_, ?_⟩
    · constructor
      · rintro ⟨n, hn, rfl⟩
        rcases (hmem n).mp hn with rfl | ⟨hn, -⟩
        · exact ⟨node, hnode, rfl⟩
        · exact ⟨n, hn, rfl⟩
      · rintro ⟨n, hn, rfl⟩
        by_cases heq : n = node
        · subst heq
          exact ⟨_, (hmem _).mpr (Or.inl rfl), rfl⟩
        · refine ⟨n, (hmem n).mpr (Or.inr ⟨hn, heq, ?_⟩), rfl⟩
          rintro rfl
          exact hx hend.symm
    · change node.hi ≤ next.hi
      omega
    · refine iff_of_true ?_ ⟨next, hnext, htouch.1.symm, htouch.2.symm⟩
      change node.hi < next.hi
      omega

end NodesLinked

namespace NodesOk

theorem vmspaceMergeNode_bounds (h : NodesOk base top nodes) {node : Vmnode}
    (hnode : node ∈ nodes) :
    (∀ x, x < node.lo ∨ node.hi < x →
        (StartsAt (Mm.vmspaceMergeNode nodes node) x ↔ StartsAt nodes x)) ∧
      ∃ n ∈ Mm.vmspaceMergeNode nodes node, n.val = node.val ∧ n.lo ≤ node.lo ∧
        node.hi ≤ n.hi ∧ (n.lo < node.lo ↔ EndsAt nodes node.val node.lo) ∧
        (node.hi < n.hi ↔ BeginsAt nodes node.val node.hi) := by
  have hne := h.separated.nonempty node hnode
  obtain ⟨hkeeps, hmem⟩ := h.mergePrev hnode
  obtain ⟨hstarts, hlo, hends, hhi, hval, hbegins⟩ := h.nodesLinked.mergePrev_bounds hnode
  obtain ⟨hstarts', n, hn, hnval, hnlo, hnhi, hnbegins⟩ :=
    hkeeps.ok.nodesLinked.mergeNext_bounds hmem
  rw [hhi] at hstarts' hnhi hnbegins
  rw [hval] at hnval hnbegins
  unfold Mm.vmspaceMergeNode
  refine ⟨fun x hx => ?_, n, hn, hnval, by omega, hnhi, ?_, hnbegins.trans hbegins⟩
  · exact (hstarts' x (by omega)).trans (hstarts x (by omega))
  · rw [hnlo]
    exact hends

theorem mappedNodes_filled {s : Vmspace} (h : NodesOk base top s.nodes) {size start : BitVec 64}
    (attr : BitVec 64) (flags : BitVec 32) (hpos : 0 < (pageAlignUp size).toNat)
    (hbase : base.toNat ≤ start.toNat)
    (htop : start.toNat + (pageAlignUp size).toNat ≤ top.toNat)
    (hdisj : ∀ n ∈ s.nodes,
      n.hi ≤ start.toNat ∨ start.toNat + (pageAlignUp size).toNat ≤ n.lo) :
    RangeFilled s.nodes (Mm.mappedNodes s size attr flags start) (attr, flags) start.toNat
      (start.toNat + (pageAlignUp size).toNat) := by
  have htopLt := top.isLt
  obtain ⟨-, -, hlookup⟩ := h.mappedNodes attr flags hpos hbase htop hdisj
  generalize hnode : vmnodeCreate s.nodes start (pageAlignUp size) attr flags = node
  have hid : node.id ∉ s.nodes.map Vmnode.id :=
    hnode ▸ vmnodeCreate_id_notMem s.nodes start (pageAlignUp size) attr flags
  have hlo : node.lo = start.toNat := by
    rw [← hnode]
    rfl
  have hhi : node.hi = start.toNat + (pageAlignUp size).toNat := by
    rw [← hnode]
    exact BitVec.toNat_add_of_lt (by omega)
  have hval : node.val = (attr, flags) := by
    rw [← hnode]
    rfl
  rw [← hhi, ← hlo] at hdisj hlookup ⊢
  rw [← hval] at hlookup ⊢
  obtain ⟨hok, hmem⟩ := h.insert (by omega) ⟨by omega, by omega⟩ hid hdisj
  have hnodes : Mm.mappedNodes s size attr flags start =
      Mm.vmspaceMergeNode (vmspaceInsertLinearOrder s.nodes node) node := by
    rw [← hnode]
    rfl
  obtain ⟨hstarts, n, hn, hnval, hnlo, hnhi, hends, hbegins⟩ :=
    hok.vmspaceMergeNode_bounds ((hmem node).mpr (Or.inl rfl))
  rw [hnodes] at hlookup ⊢
  -- the node itself is no neighbour of its range
  have hself : ∀ {p : Vmnode → Prop}, ¬p node →
      ((∃ n ∈ vmspaceInsertLinearOrder s.nodes node, p n) ↔ ∃ n ∈ s.nodes, p n) := by
    intro p hp
    constructor
    · rintro ⟨n, hn, hpn⟩
      rcases (hmem n).mp hn with rfl | hn
      · exact absurd hpn hp
      · exact ⟨n, hn, hpn⟩
    · rintro ⟨n, hn, hpn⟩
      exact ⟨n, (hmem n).mpr (Or.inr hn), hpn⟩
  refine ⟨by omega, ?_, hlookup, ?_, n, hn, hnval, hnlo, hnhi, ?_, ?_⟩
  · intro x hlow hhigh
    refine lookup_eq_none_iff.mpr fun b hb hbx => ?_
    have hapart := hdisj b hb
    have hlow' := hbx.1
    have hhigh' := hbx.2
    omega
  · intro x hx
    exact (hstarts x hx).trans (hself fun heq => by omega)
  · exact hends.trans (hself fun heq => by omega)
  · exact hbegins.trans (hself fun heq => by omega)

end NodesOk

theorem FirstFree.filled {s : Vmspace} (harea : MapArea base top s)
    (hok : NodesOk base top s.nodes) (haligned : NodesAligned s.nodes) {start : BitVec 64}
    (hfirst : FirstFree s start) (attr : BitVec 64) (flags : BitVec 32) :
    RangeFilled s.nodes (Mm.mappedNodes s 4096 attr flags start) (attr, flags) start.toNat
      (start.toNat + 4096) := by
  have hpage : (pageAlignUp 4096).toNat = 4096 := rfl
  have hstart := hfirst.aligned
  have hle := hfirst.le_end
  have hend := harea.end_lt
  have htop := harea.top_aligned
  exact hok.mappedNodes_filled attr flags (by rw [hpage]; omega)
    (harea.base_le.trans hfirst.start_le) (by rw [hpage]; omega) (hfirst.disjoint hok haligned)

theorem RangeFilled.trans (h : NodesOk base top nodes) (h' : NodesOk base top nodes')
    (h'' : NodesOk base top nodes'') {v : BitVec 64 × BitVec 32} {lo mid hi : ℕ}
    (hfirst : RangeFilled nodes nodes' v lo mid) (hsecond : RangeFilled nodes' nodes'' v mid hi) :
    RangeFilled nodes nodes'' v lo hi := by
  have hlt := hfirst.nonempty
  have hlt' := hsecond.nonempty
  have hsame : ∀ x, mid ≤ x → nodesLookup nodes' x = nodesLookup nodes x := by
    intro x hx
    rw [hfirst.lookup_eq, if_neg (by omega)]
  obtain ⟨n, hn, hnval, hnlo, hnhi, hends, -⟩ := hfirst.node
  obtain ⟨n', hn', hnval', hnlo', hnhi', hends', hbegins'⟩ := hsecond.node
  -- the first node ends at the second range, so that the second one takes it over
  have hnend : n.hi = mid := by
    by_contra hne
    have hnone := lookup_eq_none_iff.mp (hsecond.free mid (le_refl _) hlt') n hn
    exact hnone ⟨by omega, by omega⟩
  have htaken := hends'.mpr ⟨n, hn, hnend, hnval⟩
  have hnne := h'.separated.nonempty n hn
  have hlo : n'.lo = n.lo := by
    obtain ⟨a, ha, halo⟩ := (hsecond.starts n.lo (by omega)).mpr ⟨n, hn, rfl⟩
    obtain ⟨b, hb, hblo⟩ := (hsecond.starts n'.lo (by omega)).mp ⟨n', hn', rfl⟩
    have hane := h''.separated.nonempty a ha
    have hbne := h'.separated.nonempty b hb
    rcases lt_trichotomy n'.lo n.lo with hbefore | heq | hbehind
    · have heq := h''.separated.eq_of_contains ha hn' (x := n.lo) ⟨halo.le, by omega⟩
        ⟨by omega, by omega⟩
      subst heq
      omega
    · exact heq
    · have heq := h'.separated.eq_of_contains hb hn (x := n'.lo) ⟨hblo.le, by omega⟩
        ⟨by omega, by omega⟩
      subst heq
      omega
  refine ⟨by omega, ?_, ?_, ?_, n', hn', hnval', by omega, hnhi', by rw [hlo]; exact hends, ?_⟩
  · intro x hlow hhigh
    by_cases hmid : x < mid
    · exact hfirst.free x hlow hmid
    · rw [← hsame x (by omega)]
      exact hsecond.free x (by omega) hhigh
  · intro x
    rw [hsecond.lookup_eq, hfirst.lookup_eq]
    by_cases hin : lo ≤ x ∧ x < hi
    · rw [if_pos hin]
      by_cases hmid : mid ≤ x
      · rw [if_pos (by omega)]
      · rw [if_neg (by omega), if_pos (by omega)]
    · rw [if_neg (by omega), if_neg (by omega), if_neg hin]
  · intro x hx
    exact (hsecond.starts x (by omega)).trans (hfirst.starts x (by omega))
  · rw [hbegins']
    -- a node that begins behind the first range was there before
    have hbegins : ∀ {l l' : List Vmnode}, NodesOk base top l → NodesOk base top l' →
        nodesLookup l' hi = nodesLookup l hi → (StartsAt l hi → StartsAt l' hi) →
        BeginsAt l v hi → BeginsAt l' v hi := by
      rintro l l' hl hl' hlookup hstarts ⟨b, hb, hblo, hbval⟩
      obtain ⟨c, hc, hclo⟩ := hstarts ⟨b, hb, hblo⟩
      have hbne := hl.separated.nonempty b hb
      have hcne := hl'.separated.nonempty c hc
      have hcover : nodesLookup l hi = some b.val :=
        hl.separated.lookup_eq_some_iff.mpr ⟨b, hb, ⟨hblo.le, by omega⟩, rfl⟩
      have hcover' : nodesLookup l' hi = some c.val :=
        hl'.separated.lookup_eq_some_iff.mpr ⟨c, hc, ⟨hclo.le, by omega⟩, rfl⟩
      rw [hlookup, hcover] at hcover'
      exact ⟨c, hc, hclo, (Option.some.inj hcover').symm.trans hbval⟩
    exact ⟨hbegins h' h (hsame hi (by omega)).symm (hfirst.starts hi (by omega)).mp,
      hbegins h h' (hsame hi (by omega)) (hfirst.starts hi (by omega)).mpr⟩

/-! ## Taking out -/

namespace NodesOk

theorem splitPrev_starts (h : NodesOk base top nodes) {node : Vmnode} (hnode : node ∈ nodes)
    {start : BitVec 64} {prev : Option Vmnode}
    (hpart : PartOk nodes node node.lo start.toNat prev) (hlo : node.lo ≤ start.toNat)
    (hhi : start.toNat < node.hi) {x : ℕ} (hx : x ≠ start.toNat) :
    StartsAt (Mm.splitPrev nodes node start prev).1 x ↔ StartsAt nodes x := by
  cases prev with
  | none => exact Iff.rfl
  | some prev =>
      obtain ⟨hplo, hphi, hpval, hpid⟩ := hpart.some_ok prev rfl
      have hne : node.lo ≠ start.toNat :=
        fun heq => by simpa using hpart.none_iff.mpr heq
      have hid : ({ node with start } : Vmnode).id = node.id := rfl
      obtain ⟨-, hmem, -⟩ := h.cut hnode hid rfl hpval hpid hhi
        (by omega) (.prev hphi hplo.symm rfl)
      constructor
      · rintro ⟨n, hn, rfl⟩
        rcases (hmem n).mp hn with rfl | rfl | ⟨hn, -⟩
        · exact ⟨node, hnode, hplo.symm⟩
        · exact absurd rfl hx
        · exact ⟨n, hn, rfl⟩
      · rintro ⟨n, hn, rfl⟩
        by_cases heq : n = node
        · rw [heq]
          exact ⟨prev, (hmem prev).mpr (Or.inl rfl), hplo⟩
        · exact ⟨n, (hmem n).mpr (Or.inr (Or.inr ⟨hn, heq⟩)), rfl⟩

theorem splitNext_starts (h : NodesOk base top nodes) {node : Vmnode} (hnode : node ∈ nodes)
    {stop : BitVec 64} {next : Option Vmnode} {inUse : List Vmnode}
    (hsub : ∀ n ∈ nodes, n.id ∈ inUse.map Vmnode.id)
    (hpart : PartOk inUse node stop.toNat node.hi next) (hlo : node.lo < stop.toNat)
    (hhi : stop.toNat ≤ node.hi) {x : ℕ} (hx : x ≠ stop.toNat) :
    StartsAt (Mm.splitNext nodes node stop next).1 x ↔ StartsAt nodes x := by
  cases next with
  | none => exact Iff.rfl
  | some next =>
      obtain ⟨hplo, hphi, hpval, hpid⟩ := hpart.some_ok next rfl
      have hne : stop.toNat ≠ node.hi :=
        fun heq => by simpa using hpart.none_iff.mpr heq
      have hfresh : next.id ∉ nodes.map Vmnode.id := by
        intro hmem
        obtain ⟨n, hn, heq⟩ := List.mem_map.mp hmem
        exact hpid (heq ▸ hsub n hn)
      have hid : ({ node with stop } : Vmnode).id = node.id := rfl
      obtain ⟨-, hmem, -⟩ := h.cut hnode hid rfl hpval hfresh hlo
        (by omega) (.next hplo.symm rfl hphi.symm)
      constructor
      · rintro ⟨n, hn, rfl⟩
        rcases (hmem n).mp hn with rfl | rfl | ⟨hn, -⟩
        · exact absurd hplo hx
        · exact ⟨node, hnode, rfl⟩
        · exact ⟨n, hn, rfl⟩
      · rintro ⟨n, hn, rfl⟩
        by_cases heq : n = node
        · rw [heq]
          exact ⟨_, (hmem _).mpr (Or.inr (Or.inl rfl)), rfl⟩
        · exact ⟨n, (hmem n).mpr (Or.inr (Or.inr ⟨hn, heq⟩)), rfl⟩

theorem vmspaceSplitNode_starts (h : NodesOk base top nodes) {μ : Type} {M : Machine μ}
    {m m' : μ} {node node' : Vmnode} (hnode : node ∈ nodes) {addr size : BitVec 64}
    (hlo : node.lo ≤ addr.toNat) (hpos : 0 < size.toNat)
    (hhi : addr.toNat + size.toNat ≤ node.hi)
    (hrun : Mm.vmspaceSplitNode M nodes m node addr size = (.ok (nodes', node'), m')) {x : ℕ}
    (hx : x < addr.toNat ∨ addr.toNat + size.toNat < x) :
    StartsAt nodes' x ↔ StartsAt nodes x := by
  have hend : (addr + size).toNat = addr.toNat + size.toNat := by
    have hlt : node.hi < 2 ^ 64 := node.stop.isLt
    exact BitVec.toNat_add_of_lt (by omega)
  unfold Mm.vmspaceSplitNode at hrun
  split_ifs at hrun with hexact
  · cases hrun
    exact Iff.rfl
  · rcases splitPart_cases M nodes m node node.start addr with
      ⟨m₁, hprev⟩ | ⟨prev, m₁, hprev, hprevOk⟩
    · rw [hprev] at hrun
      cases hrun
    rw [hprev] at hrun
    dsimp only at hrun
    rcases splitPart_cases M (prev.toList ++ nodes) m₁ node (addr + size) node.stop with
      ⟨m₂, hnext⟩ | ⟨next, m₂, hnext, hnextOk⟩
    · rw [hnext] at hrun
      cases hrun
    rw [hnext] at hrun
    dsimp only at hrun
    obtain ⟨hcarve, hids⟩ := h.splitPrev hnode hprevOk hlo (by omega)
    have hnextOk' : PartOk (prev.toList ++ nodes) (Mm.splitPrev nodes node addr prev).2
        (addr + size).toNat (Mm.splitPrev nodes node addr prev).2.hi next := by
      rw [hcarve.hi_eq]
      refine ⟨hnextOk.none_iff, fun p hp => ?_⟩
      rw [hcarve.val_eq]
      exact hnextOk.some_ok p hp
    have hstarts := hcarve.ok.splitNext_starts hcarve.mem hids hnextOk'
      (by rw [hcarve.lo_eq]; omega) (by rw [hcarve.hi_eq]; omega) (x := x) (by omega)
    have hstarts' := h.splitPrev_starts hnode hprevOk hlo (by omega) (x := x) (by omega)
    have hnodes := congrArg Prod.fst (Except.ok.inj (Prod.mk.inj hrun).1)
    rw [← show (Mm.splitNext _ _ _ _).1 = nodes' from hnodes]
    exact hstarts.trans hstarts'

end NodesOk

theorem RangeFilled.sameNodes (h : NodesOk base top nodes) (h'' : NodesOk base top nodes'')
    {v : BitVec 64 × BitVec 32} {lo hi : ℕ} (hfilled : RangeFilled nodes nodes' v lo hi)
    (hlookup : ∀ x, nodesLookup nodes'' x = if lo ≤ x ∧ x < hi then none else nodesLookup nodes' x)
    (hstarts : ∀ x, x < lo ∨ hi < x → (StartsAt nodes'' x ↔ StartsAt nodes' x)) :
    SameNodes nodes nodes'' := by
  have hlt := hfilled.nonempty
  have hsame : nodesLookup nodes'' = nodesLookup nodes := by
    funext x
    rw [hlookup, hfilled.lookup_eq]
    split_ifs with hin
    · exact (hfilled.free x hin.1 hin.2).symm
    · rfl
  -- at the ends of the range the covered addresses decide
  have hends : ∀ {l l' : List Vmnode}, NodesOk base top l → NodesOk base top l' →
      nodesLookup l' = nodesLookup l → (∀ x, lo ≤ x → x < hi → nodesLookup l x = none) →
      ∀ x, lo ≤ x → x ≤ hi → StartsAt l' x → StartsAt l x := by
    rintro l l' hl hl' heq hnone x hlow hhigh ⟨n, hn, rfl⟩
    have hne := hl'.separated.nonempty n hn
    have hcover : nodesLookup l n.lo = some n.val := by
      rw [← heq]
      exact hl'.separated.lookup_eq_some_iff.mpr ⟨n, hn, ⟨le_refl _, hne⟩, rfl⟩
    have hx : n.lo = hi := by
      by_contra hbefore
      rw [hnone n.lo hlow (by omega)] at hcover
      cases hcover
    obtain ⟨b, hb, hbx, -⟩ := hl.separated.lookup_eq_some_iff.mp hcover
    refine ⟨b, hb, ?_⟩
    by_contra hbefore
    have hblo := hbx.1
    have hbhi := hbx.2
    have hfree := lookup_eq_none_iff.mp (hnone (max lo b.lo) (le_max_left _ _) (by omega)) b hb
    exact hfree ⟨le_max_right _ _, by omega⟩
  refine sameNodes_of_lookup_eq h h'' hsame fun x => ?_
  by_cases hout : x < lo ∨ hi < x
  · exact (hstarts x hout).trans (hfilled.starts x hout)
  · refine ⟨hends h h'' hsame hfilled.free x (by omega) (by omega), ?_⟩
    refine hends h'' h hsame.symm (fun x hlow hhigh => ?_) x (by omega) (by omega)
    rw [hsame]
    exact hfilled.free x hlow hhigh

section Unmap

variable {μ : Type} {M : Machine μ} {s s' : Vmspace} {m m' : μ} {addr size : BitVec 64}
  {v : BitVec 64 × BitVec 32}

theorem RangeFilled.find (hok : NodesOk s.spaceBase s.spaceTop s.nodes)
    (hsize : pageAlignUp size = size)
    (hfilled : RangeFilled nodes s.nodes v addr.toNat (addr.toNat + size.toNat)) :
    ∃ node ∈ s.nodes, vmspaceFindNode s.nodes addr (pageAlignUp size) = some node ∧
      node.lo ≤ addr.toNat ∧ addr.toNat + size.toNat ≤ node.hi ∧
      (node.start ≠ addr ↔ EndsAt nodes v addr.toNat) ∧
      (addr + pageAlignUp size ≠ node.stop ↔ BeginsAt nodes v (addr.toNat + size.toNat)) := by
  have hpos := hfilled.nonempty
  obtain ⟨n, hn, hval, hlo, hhi, hends, hbegins⟩ := hfilled.node
  have hlt : n.hi < 2 ^ 64 := n.stop.isLt
  have hend : (addr + size).toNat = addr.toNat + size.toNat := BitVec.toNat_add_of_lt (by omega)
  refine ⟨n, hn, ?_, hlo, hhi, ?_, ?_⟩
  · rw [hsize]
    exact hok.vmspaceFindNode_of_mem hn (by omega) hlo hhi
  · rw [← hends, ne_eq, ← BitVec.toNat_inj]
    unfold Vmnode.lo at hlo ⊢
    omega
  · rw [← hbegins, hsize, ne_eq, ← BitVec.toNat_inj, hend]
    unfold Vmnode.hi at hhi ⊢
    omega

/-- When a filled range was unmapped, there was memory for the parts that are left, and the
nodes are those of before. -/
theorem RangeFilled.of_unmapped (h : NodesOk s.spaceBase s.spaceTop nodes)
    (hok : NodesOk s.spaceBase s.spaceTop s.nodes) (hsize : pageAlignUp size = size)
    (hfilled : RangeFilled nodes s.nodes v addr.toNat (addr.toNat + size.toNat))
    (hrun : vmspaceUnmap M s m addr size = .ok (.eok, s', m')) :
    M.SplitRoom m (EndsAt nodes v addr.toNat) (BeginsAt nodes v (addr.toNat + size.toNat)) ∧
      SameNodes nodes s'.nodes := by
  have hpos := hfilled.nonempty
  obtain ⟨node, hnode, hfind, hlo, hhi, hends, hbegins⟩ := hfilled.find hok hsize
  obtain ⟨a, nodes₁, node', m₁, hfind', hsplit, -, rfl⟩ := vmspaceUnmap_eok hrun
  rw [hfind] at hfind'
  cases hfind'
  have hroom := (vmspaceSplitNode_ok_iff M s.nodes m node addr (pageAlignUp size)).mp
    ⟨_, _, hsplit⟩
  rw [hends, hbegins] at hroom
  refine ⟨hroom, ?_⟩
  rw [hsize] at hsplit
  rcases hok.vmspaceSplitNode M m hnode hlo (by omega) hhi with
    ⟨m₂, herr⟩ | ⟨nodes₂, node₂, m₂, hcut, hcarved⟩
  · rw [hsplit] at herr
    cases herr
  · rw [hsplit] at hcut
    cases hcut
    refine hfilled.sameNodes h (hcarved.ok.listDel _) (fun x => ?_) fun x hx => ?_
    · rw [hcarved.ok.listDel_lookup hcarved.mem, hcarved.lo_eq, hcarved.hi_eq,
        hcarved.lookup_eq]
    · rw [← hok.vmspaceSplitNode_starts hnode hlo (by omega) hhi hsplit hx]
      -- the node that is removed starts in the range
      have hself := hcarved.lo_eq
      constructor
      · rintro ⟨n, hn, hnx⟩
        exact ⟨n, (mem_listDel.mp hn).1, hnx⟩
      · rintro ⟨n, hn, hnx⟩
        refine ⟨n, mem_listDel.mpr ⟨hn, fun hid => ?_⟩, hnx⟩
        rw [hcarved.ok.nodesLinked.eq_of_id hn hcarved.mem hid] at hnx
        omega

/-- A filled range is unmapped when there is memory for the parts that are left and the page
table lets the range go. -/
theorem RangeFilled.vmspaceUnmap (hok : NodesOk s.spaceBase s.spaceTop s.nodes)
    (hsize : pageAlignUp size = size) (haddr : addr.toNat % 4096 = 0) (hne : addr ≠ 0)
    (hfilled : RangeFilled nodes s.nodes v addr.toNat (addr.toNat + size.toNat))
    (hroom : M.SplitRoom m (EndsAt nodes v addr.toNat)
      (BeginsAt nodes v (addr.toNat + size.toNat)))
    (hunmap : ∀ {m₁}, M.AllocReach m m₁ →
      ∃ m', M.unmapPage m₁ addr (pageAlignUp size) = .ok (.eok, m')) :
    ∃ s' m', Mm.vmspaceUnmap M s m addr size = .ok (.eok, s', m') := by
  have hpos := hfilled.nonempty
  obtain ⟨node, hnode, hfind, hlo, hhi, hends, hbegins⟩ := hfilled.find hok hsize
  have hinside := hok.inside node hnode
  have hlt : node.hi < 2 ^ 64 := node.stop.isLt
  have hround : pageRoundUp size.toNat = size.toNat := by
    rcases pageAlignUp_cases size with ⟨hround, -⟩ | ⟨hzero, -⟩
    · rw [← hround, hsize]
    · rw [hsize] at hzero
      omega
  refine vmspaceUnmap_of_split hok ?_ ?_ hfind ?_ hunmap
  · unfold unmapRefused
    rintro (hzero | hzero | hmask | hbase | htop | hend)
    · exact hne hzero
    · rw [hzero] at hpos
      exact absurd hpos (lt_irrefl addr.toNat)
    · exact hmask ((and_pageMask_eq_zero_iff _).mpr haddr)
    · rw [BitVec.lt_def] at hbase
      omega
    · rw [BitVec.le_def] at htop
      omega
    · rw [BitVec.lt_def, BitVec.toNat_add_of_lt (by omega)] at hend
      omega
  · intro _ _
    omega
  · rw [hends, hbegins]
    exact hroom

end Unmap

end Nxos.Mm
