import Mathlib.Data.Nat.Count
import Nxos.Mm.Vmspace.Map

/-!
# The first free page of the map area

A request for one page without an address gets the first page of the map area that no node
covers.  Pages that are taken one after the other therefore go over the free pages in their
order, and are neighbours only where these are.
-/

namespace Nxos.Mm

open Nxos.Interval

def PageFree (nodes : List Vmnode) (p : ℕ) : Prop :=
  nodesLookup nodes (p * 4096) = none

instance (nodes : List Vmnode) (p : ℕ) : Decidable (PageFree nodes p) :=
  inferInstanceAs (Decidable (_ = _))

/-- The map area lies within the bounds of the nodes, and in front of its end one more page
can be taken. -/
structure MapArea (base top : BitVec 64) (s : Vmspace) : Prop where
  start_aligned : s.mapStart.toNat % 4096 = 0
  base_le : base.toNat ≤ s.mapStart.toNat
  start_le : s.mapStart.toNat ≤ s.mapEnd.toNat
  end_lt : s.mapEnd.toNat < top.toNat
  top_aligned : top.toNat % 4096 = 0

variable {s : Vmspace} {base top : BitVec 64}

theorem not_pageFree_iff {nodes : List Vmnode} {p : ℕ} :
    ¬PageFree nodes p ↔ ∃ n ∈ nodes, n.lo ≤ p * 4096 ∧ p * 4096 < n.hi := by
  refine (not_congr lookup_eq_none_iff).trans ?_
  simp only [not_forall, not_not, exists_prop]
  rfl

/-- The address is a page of the area, and the pages in front of it are not free. -/
structure AreaPassed (s : Vmspace) (addr : BitVec 64) : Prop where
  aligned : addr.toNat % 4096 = 0
  start_le : s.mapStart.toNat ≤ addr.toNat
  le_end : addr.toNat ≤ s.mapEnd.toNat
  passed : ∀ p, s.mapStart.toNat ≤ p * 4096 → p * 4096 < addr.toNat → ¬PageFree s.nodes p

theorem getAddrFromMapArea_passed (harea : MapArea base top s) (haligned : NodesAligned s.nodes)
    (hnonempty : ∀ n ∈ s.nodes, n.lo < n.hi) {addr : BitVec 64}
    (hrun : getAddrFromMapArea s 4096 = some addr) : AreaPassed s addr := by
  refine mapAreaLoop_rule ?_ ⟨harea.start_aligned, le_refl _, harea.start_le, ?_⟩ hrun
  · intro n hn freeAddr hfree hlow hhigh hfits
    -- the node starts at the address, so that the pages up to its end are covered
    have hend : (freeAddr + 4096).toNat = freeAddr.toNat + 4096 := by
      have htop := top.isLt
      have hlt := harea.end_lt
      have htop' := harea.top_aligned
      have hle := hfree.le_end
      have hpage : (4096 : BitVec 64).toNat = 4096 := rfl
      rw [BitVec.toNat_add_of_lt (by omega), hpage]
    have hlow' : s.mapStart.toNat ≤ n.lo := hlow
    have hstart : ¬freeAddr.toNat + 4096 ≤ n.lo := by
      rw [BitVec.le_def, hend] at hfits
      exact hfits
    have hnaligned := haligned n hn
    have hfaligned := hfree.aligned
    refine ⟨hnaligned.2, hlow'.trans (hnonempty n hn).le, hhigh, ?_⟩
    intro p hp hlt
    have hlt' : p * 4096 < n.hi := hlt
    rcases Nat.lt_or_ge (p * 4096) freeAddr.toNat with hbefore | hbehind
    · exact hfree.passed p hp hbefore
    · exact not_pageFree_iff.mpr ⟨n, hn, by omega, hlt'⟩
  · intro p hp hlt
    omega

/-- The page at `start` is what the search finds: the first free page of the area. -/
structure FirstFree (s : Vmspace) (start : BitVec 64) : Prop where
  search : getAddrFromMapArea s 4096 = some start
  aligned : start.toNat % 4096 = 0
  start_le : s.mapStart.toNat ≤ start.toNat
  le_end : start.toNat ≤ s.mapEnd.toNat
  free : PageFree s.nodes (start.toNat / 4096)
  first : ∀ p, s.mapStart.toNat ≤ p * 4096 → p < start.toNat / 4096 → ¬PageFree s.nodes p

theorem MapPlaced.firstFree (harea : MapArea base top s) (hok : NodesOk base top s.nodes)
    (haligned : NodesAligned s.nodes) {attr start : BitVec 64}
    (hplaced : MapPlaced s 0 4096 attr start) : FirstFree s start := by
  obtain ⟨addr, haddr, hstart⟩ := hplaced.address
  have hsearch : getAddrFromMapArea s 4096 = some addr := by
    unfold mapAddress at haddr
    split_ifs at haddr with hargs hrange hzero
    · split at haddr
      · cases haddr
      · next addr' hrun =>
          cases haddr
          exact hrun
    · exact absurd rfl hzero
  obtain ⟨haddrAligned, hlow, hhigh, hpassed⟩ :=
    getAddrFromMapArea_passed harea haligned hok.separated.nonempty hsearch
  have heq : start = addr := by
    rw [hstart]
    exact pageAlignDown_of_aligned haddrAligned
  subst heq
  have hend := harea.end_lt
  have htop := top.isLt
  have htop' := harea.top_aligned
  have hpage : (pageAlignUp 4096).toNat = 4096 := rfl
  refine ⟨hsearch, haddrAligned, hlow, hhigh, ?_, ?_⟩
  · refine lookup_eq_none_iff.mpr fun n hn hcontains => ?_
    have hnaligned := haligned n hn
    have hne := hok.separated.nonempty n hn
    have hdisjoint := disjoint_of_checkAddrCollisions hplaced.free (by rw [hpage]; omega) hn
      (by rw [hpage]; omega)
    have hlo := hcontains.1
    have hhi := hcontains.2
    rw [hpage] at hdisjoint
    omega
  · intro p hp hlt
    exact hpassed p hp (by omega)

theorem FirstFree.disjoint (hok : NodesOk base top s.nodes) (haligned : NodesAligned s.nodes)
    {start : BitVec 64} (hfirst : FirstFree s start) :
    ∀ n ∈ s.nodes, n.hi ≤ start.toNat ∨ start.toNat + (pageAlignUp 4096).toNat ≤ n.lo := by
  have hpage : (pageAlignUp 4096).toNat = 4096 := rfl
  have hstart := hfirst.aligned
  intro n hn
  have hnaligned := haligned n hn
  have hnone := lookup_eq_none_iff.mp hfirst.free n hn
  have hne := hok.separated.nonempty n hn
  rw [Contains, not_and_or] at hnone
  rw [hpage]
  omega

theorem FirstFree.mappedNodes (harea : MapArea base top s) (hok : NodesOk base top s.nodes)
    (haligned : NodesAligned s.nodes) {start : BitVec 64} (hfirst : FirstFree s start)
    (attr : BitVec 64) (flags : BitVec 32) :
    NodesOk base top (mappedNodes s 4096 attr flags start) ∧
      NodesAligned (mappedNodes s 4096 attr flags start) ∧
      ∀ p, PageFree (mappedNodes s 4096 attr flags start) p ↔
        PageFree s.nodes p ∧ p ≠ start.toNat / 4096 := by
  have hpage : (pageAlignUp 4096).toNat = 4096 := rfl
  have hstart := hfirst.aligned
  have hbase := harea.base_le.trans hfirst.start_le
  have hle := hfirst.le_end
  have hend := harea.end_lt
  have htop := harea.top_aligned
  obtain ⟨hok', haligned', hlookup⟩ := hok.mappedNodes attr flags (by rw [hpage]; omega) hbase
    (by rw [hpage]; omega) (hfirst.disjoint hok haligned)
  refine ⟨hok', haligned' hstart haligned, fun p => ?_⟩
  rw [PageFree, PageFree, hlookup, hpage]
  by_cases hp : p = start.toNat / 4096
  · subst hp
    rw [if_pos (by omega)]
    exact iff_of_false (Option.some_ne_none _) fun h => h.2 rfl
  · rw [if_neg (by omega)]
    exact (and_iff_left hp).symm

/-- A page that is mapped without an address goes to the first free page. -/
theorem vmspaceMapWithPhy_firstFree {μ : Type} {M : Machine μ} {m m' : μ}
    {paddr attr a : BitVec 64} {s' : Vmspace} (harea : MapArea base top s)
    (hok : NodesOk base top s.nodes) (haligned : NodesAligned s.nodes)
    (hrun : vmspaceMapWithPhy M s m 0 paddr 4096 attr 0 = .ok (.ok a, s', m')) :
    ∃ start, FirstFree s start ∧ mapPages M (M.memAlloc m).2 start paddr 4096 attr = .ok (a, m') ∧
      a ≠ 0 ∧ s' = { s with nodes := mappedNodes s 4096 attr 0 start } := by
  have hout := vmspaceMapInternal_outcome M hok m 0 paddr 4096 attr 0
  rw [show vmspaceMapInternal M s m 0 paddr 4096 attr 0 = _ from hrun] at hout
  cases hout with
  | delayed _ _ _ _ hdelay => exact absurd rfl hdelay
  | mapped start _ m₁ _ hplaced halloc hmap ha _ =>
      refine ⟨start, hplaced.firstFree harea hok haligned, ?_, ha, rfl⟩
      rw [halloc]
      exact hmap

/-! ## Free pages in their order -/

/-- The number of free pages from `q` on that are in front of `p`. -/
def freeRank (nodes : List Vmnode) (q p : ℕ) : ℕ :=
  Nat.count (fun i => PageFree nodes (q + i)) (p - q)

section Rank

variable {nodes : List Vmnode} {q p p' k : ℕ}

@[simp] theorem freeRank_self : freeRank nodes q q = 0 := by
  rw [freeRank, Nat.sub_self, Nat.count_zero]

theorem freeRank_le : freeRank nodes q p ≤ p - q :=
  Nat.count_le _

theorem freeRank_mono (h : p ≤ p') : freeRank nodes q p ≤ freeRank nodes q p' :=
  Nat.count_monotone _ (Nat.sub_le_sub_right h q)

theorem freeRank_succ (hq : q ≤ p) (hfree : PageFree nodes p) :
    freeRank nodes q (p + 1) = freeRank nodes q p + 1 := by
  have hpage : q + (p - q) = p := Nat.add_sub_cancel' hq
  rw [freeRank, Nat.sub_add_comm hq, Nat.count_succ, hpage, if_pos hfree, freeRank]

/-- A free page in front of `p'` has a smaller rank. -/
theorem freeRank_lt (hq : q ≤ p) (hfree : PageFree nodes p) (hlt : p < p') :
    freeRank nodes q p < freeRank nodes q p' := by
  have hmono : freeRank nodes q (p + 1) ≤ freeRank nodes q p' := freeRank_mono hlt
  rw [freeRank_succ hq hfree] at hmono
  exact hmono

theorem freeRank_eq_of_not_free (hq : q ≤ p) (hle : p ≤ p')
    (hnone : ∀ x, p ≤ x → x < p' → ¬PageFree nodes x) :
    freeRank nodes q p' = freeRank nodes q p := by
  obtain ⟨d, rfl⟩ := Nat.exists_eq_add_of_le hle
  rw [freeRank, Nat.sub_add_comm hq, Nat.count_add, ← freeRank]
  refine Nat.add_eq_left.mpr (Nat.count_of_forall_not fun {x} hx => ?_)
  exact hnone _ (by omega) (by omega)

/-- All of the first pages are free exactly when the rank is as large as it can be. -/
theorem freeRank_eq_iff : freeRank nodes q (q + k) = k ↔ ∀ i < k, PageFree nodes (q + i) := by
  rw [freeRank, Nat.add_sub_cancel_left, Nat.count_iff_forall]

end Rank

end Nxos.Mm
