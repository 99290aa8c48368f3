import Nxos.Mm.HeapCache.Session
import Nxos.Mm.KernelHeap.Zone

/-!
# The heap of the kernel

The heap on the page cache on the buddy allocator.  While `NX_HeapAlloc` and
`NX_HeapFree` are called, other parts of the kernel take pages from the same zone, add
references to them and give them back, in any order.  No assertion of the three levels
fails, and the memory of a live object belongs to it alone: it shares no byte with
another object, with a block of somebody else or with a free block.
-/

namespace Nxos.Mm

open Nxos.Dyadic Nxos.Transition

/-! ## Sessions -/

/-- The heap over the page cache over a shared zone of `n` pages. -/
abbrev KernelHeap (n : ℕ) := HeapSession (CacheSession (SharedZone n))

/-- The calls: those of the heap's users, and those of the other users of the zone. -/
inductive KernelOp where
  | heap (op : HeapOp)
  | pages (op : BuddyOp)

namespace KernelHeap

variable {n : ℕ}

def zone (σ : KernelHeap n) : BuddySession := σ.source.source.zone

def setZone (σ : KernelHeap n) (z : SharedZone n) : KernelHeap n :=
  { σ with source := { σ.source with source := z } }

end KernelHeap

variable {n : ℕ}

/-- What may be called: small requests, frees of live objects, and for the other users
of the zone the calls on blocks that are not the page cache's. -/
def KernelOp.Legal (σ : KernelHeap n) : KernelOp → Prop
  | .heap op => op.Legal σ
  | .pages op => op.Legal σ.zone ∧ σ.source.source.Spared op

def kernelRun (σ : KernelHeap n) : KernelOp → KernelHeap n → Prop
  | .heap op, τ => heapRun (pageCacheSpans (zoneSource n)) σ op = .ok τ
  | .pages op, τ => ∃ z : SharedZone n, buddyRun σ.zone op = .ok z.zone ∧
      z.own = σ.source.source.own ∧ τ = σ.setZone z

/-- A legal call that returns. -/
def KernelMove (σ : KernelHeap n) (op : KernelOp) (τ : KernelHeap n) : Prop :=
  op.Legal σ ∧ kernelRun σ op τ

/-! ## What the state means -/

/-- The bytes of the object `a` for a request of `r` bytes lie in the pages from `p` on. -/
def ObjectIn (a r p k : ℕ) : Prop :=
  p * 4096 ≤ a ∧ a + r ≤ (p + 2 ^ k) * 4096

/-- The bytes of the object share none with the pages from `p` on. -/
def ObjectApart (a r p k : ℕ) : Prop :=
  a + r ≤ p * 4096 ∨ (p + 2 ^ k) * 4096 ≤ a

/-- The zone is partitioned into its blocks, and the memory of a live object is its own. -/
structure KernelHeapOk (σ : KernelHeap n) : Prop where
  zone : ZonePartitioned σ.zone
  disjoint : σ.live.Pairwise fun x y => x.1 + x.2 ≤ y.1 ∨ y.1 + y.2 ≤ x.1
  inside : ∀ {a r}, (a, r) ∈ σ.live → ∃ p k, p ∈ σ.source.source.own ∧ LiveBlock σ.zone p k ∧
    ObjectIn a r p k
  alone : ∀ {a r p k}, (a, r) ∈ σ.live → ZoneBlock σ.zone p k → p ∉ σ.source.source.own →
    ObjectApart a r p k

/-- The invariant of the heap and of the page cache below it. -/
structure KernelInv (σ : KernelHeap n) : Prop where
  spans : HeapSpansOk SharedZone.blocks σ.source
  caches : SmallInv σ.source.outstanding σ.caches σ.live

/-! ## Objects apart -/

section Objects

variable {spans live : List (ℕ × ℕ)} {h : HeapCaches} {a b r s : ℕ}

/-- A live object with its span: the object is one of the span's slots. -/
theorem SmallInv.exists_slot (hinv : SmallInv spans h live) (ha : (a, r) ∈ live) :
    ∃ i S, S ∈ h.smallList i ∧ a ∈ slots (classSize i) S ∧ r ≤ classSize i := by
  obtain ⟨i, S, hS, hcov, hr⟩ := hinv.live_in ha
  refine ⟨i, S, hS, ?_, hr⟩
  exact (hinv.system hS).objects.mem_iff.mp
    (List.mem_append_right _ (mem_liveIn.mpr ⟨⟨r, ha⟩, hcov⟩))

theorem slots_apart {c : ℕ} {S : SmallSystem} (ha : a ∈ slots c S) (hb : b ∈ slots c S)
    (hne : a ≠ b) : a + c ≤ b ∨ b + c ≤ a := by
  obtain ⟨i, -, rfl⟩ := mem_buildObjects.mp ha
  obtain ⟨j, -, rfl⟩ := mem_buildObjects.mp hb
  rcases Nat.lt_trichotomy i j with hlt | rfl | hlt
  · have hstep := Nat.mul_le_mul_right c hlt
    rw [Nat.succ_mul] at hstep
    omega
  · exact absurd rfl hne
  · have hstep := Nat.mul_le_mul_right c hlt
    rw [Nat.succ_mul] at hstep
    omega

/-- Different live objects have no byte in common. -/
theorem SmallInv.live_apart (hinv : SmallInv spans h live) (ha : (a, r) ∈ live)
    (hb : (b, s) ∈ live) (hne : a ≠ b) : a + r ≤ b ∨ b + s ≤ a := by
  obtain ⟨i, S, hS, haS, hr⟩ := hinv.exists_slot ha
  obtain ⟨j, T, hT, hbT, hs⟩ := hinv.exists_slot hb
  by_cases hpage : S.page = T.page
  · obtain ⟨rfl, rfl⟩ := hinv.system_unique hS hT hpage
    have hapart := slots_apart haS hbT hne
    omega
  · have hain := (hinv.system hS).slot_inside haS
    have hbin := (hinv.system hT).slot_inside hbT
    obtain ⟨m, hm, hmle⟩ := (hinv.system hS).block
    obtain ⟨k, hk, hkle⟩ := (hinv.system hT).block
    have hapart := apart_of_mem hinv.apart hm hk fun heq => hpage (congrArg Prod.fst heq)
    unfold PagesApart at hapart
    dsimp only at hapart
    omega

end Objects

namespace KernelInv

variable {σ τ : KernelHeap n}

/-- The span of an object lies in a block of the page cache. -/
theorem exists_block (hinv : KernelInv σ) {p m : ℕ} (hspan : (p, m) ∈ σ.source.outstanding) :
    ∃ k, p ∈ σ.source.source.own ∧ LiveBlock σ.zone p k ∧ m ≤ 2 ^ k := by
  obtain ⟨m', hin, rfl, -⟩ := hinv.spans.inv.held hspan
  obtain ⟨m', hblock, hle⟩ := hin.block
  obtain ⟨q, hq, heq⟩ := List.mem_map.mp hblock
  obtain ⟨rfl, rfl⟩ := Prod.mk.inj heq
  obtain ⟨T, hT⟩ := σ.source.source.tiled
  obtain ⟨c, hc⟩ := σ.source.source.held q hq
  obtain ⟨r, heq, hr⟩ := hT.used_of_live hc
  obtain rfl := pageToPtr_injective _ heq
  rw [hT.rep.order_of_used hr, Int.toNat_natCast] at hle
  exact ⟨_, hq, hT.used_iff.mp hr, hle⟩

theorem inside (hinv : KernelInv σ) {a r : ℕ} (ha : (a, r) ∈ σ.live) :
    ∃ p k, p ∈ σ.source.source.own ∧ LiveBlock σ.zone p k ∧ ObjectIn a r p k := by
  obtain ⟨i, S, hS, haS, hr⟩ := hinv.caches.exists_slot ha
  obtain ⟨m, hm, hmle⟩ := (hinv.caches.system hS).block
  obtain ⟨k, hown, hlive, hle⟩ := hinv.exists_block hm
  obtain ⟨hlo, hhi⟩ := (hinv.caches.system hS).slot_inside haS
  refine ⟨S.page, k, hown, hlive, Nat.le_trans (Nat.le_add_right _ _) hlo, ?_⟩
  have hpages : (S.page + S.pageCount) * 4096 ≤ (S.page + 2 ^ k) * 4096 :=
    Nat.mul_le_mul_right _ (Nat.add_le_add_left (hmle.trans hle) _)
  omega

theorem ok (hinv : KernelInv σ) : KernelHeapOk σ := by
  obtain ⟨T, hT⟩ := σ.source.source.tiled
  refine ⟨hT.zonePartitioned, ?_, hinv.inside, ?_⟩
  · have hnodup : σ.live.Pairwise fun x y => x.1 ≠ y.1 :=
      List.pairwise_map.mp hinv.caches.live_nodup
    refine hnodup.imp_of_mem fun {x y} hx hy hne => ?_
    exact hinv.caches.live_apart hx hy hne
  · intro a r p k ha hblock hother
    obtain ⟨q, j, hown, hlive, hlo, hhi⟩ := hinv.inside ha
    obtain ⟨w, hp⟩ := hT.zoneBlock_iff.mp hblock
    have hne : q ≠ p := fun heq => hother (heq ▸ hown)
    unfold ObjectApart
    rcases T.apart (hT.used_iff.mpr hlive) hp hne with hle | hle
    · have := Nat.mul_le_mul_right 4096 hle
      omega
    · have := Nat.mul_le_mul_right 4096 hle
      omega

/-! ## One call -/

theorem init {z : SharedZone n} (hown : z.own = []) :
    KernelInv ⟨heapCacheInit, ⟨pageCacheInit, z, []⟩, []⟩ where
  spans := heapSpansOk_init (by unfold SharedZone.blocks; rw [hown]; rfl)
  caches := smallInv_init

theorem heapRun (hinv : KernelInv σ) {op : HeapOp} (hlegal : op.Legal σ) :
    ∃ τ, Mm.heapRun (pageCacheSpans (zoneSource n)) σ op = .ok τ ∧ KernelInv τ := by
  obtain ⟨τ, hrun, hspans, hcaches, -⟩ :=
    heapRun_ok (pageCacheSpans_lawful (zoneSource_lawful n)) hinv.spans hinv.caches hlegal
  exact ⟨τ, hrun, hspans, hcaches⟩

/-- A call of another user leaves the blocks of the page cache as they are. -/
theorem blocks_eq {z : SharedZone n} {op : BuddyOp} (hlegal : op.Legal σ.zone)
    (hspared : σ.source.source.Spared op) (hrun : buddyRun σ.zone op = .ok z.zone)
    (hown : z.own = σ.source.source.own) : z.blocks = σ.source.source.blocks := by
  unfold SharedZone.blocks
  rw [hown]
  refine List.map_congr_left fun p hp => ?_
  have hkeeps := SharedZone.keepsBlock hlegal hrun hp (hspared p hp)
  exact congrArg (fun order : ℤ => (p, 2 ^ order.toNat)) hkeeps.order

theorem setZone (hinv : KernelInv σ) {z : SharedZone n}
    (hblocks : z.blocks = σ.source.source.blocks) : KernelInv (σ.setZone z) where
  spans := by
    refine ⟨?_, hinv.spans.cached⟩
    change CacheInv _ z.blocks σ.source.cache σ.source.outstanding
    rw [hblocks]
    exact hinv.spans.inv
  caches := hinv.caches

theorem move (hinv : KernelInv σ) {op : KernelOp} (hmove : KernelMove σ op τ) : KernelInv τ := by
  obtain ⟨hlegal, hrun⟩ := hmove
  cases op with
  | heap op =>
      obtain ⟨τ', hrun', hinv'⟩ := hinv.heapRun hlegal
      rw [show Mm.heapRun _ σ op = .ok τ from hrun] at hrun'
      cases hrun'
      exact hinv'
  | pages op =>
      obtain ⟨z, hrun, hown, rfl⟩ := hrun
      exact hinv.setZone (blocks_eq hlegal.1 hlegal.2 hrun hown)

theorem returns (hinv : KernelInv σ) {op : KernelOp} (hlegal : op.Legal σ) :
    ∃ τ, KernelMove σ op τ := by
  cases op with
  | heap op =>
      obtain ⟨τ, hrun, -⟩ := hinv.heapRun hlegal
      exact ⟨τ, hlegal, hrun⟩
  | pages op =>
      obtain ⟨T, hT⟩ := σ.source.source.tiled
      obtain ⟨τ, hrun, -⟩ := hT.run σ.source.source.within hlegal.1
      exact ⟨_, hlegal, σ.source.source.after σ.source.source.own hlegal.1 hrun
        (fun p hp => ⟨hp, hlegal.2 p hp⟩), hrun, rfl, rfl⟩

end KernelInv

/-! ## Whole runs -/

/-- A zone that was just created, with no block in use. -/
def SharedZone.fresh {s : BuddySystem} {T : Tiling Owner n} (hn : n < 2 ^ (maxPageOrder + 1))
    (hT : SessionInv ⟨s, []⟩ T) : SharedZone n where
  zone := ⟨s, []⟩
  own := []
  within := hn
  tiled := ⟨T, hT⟩
  held _ hp := absurd hp List.not_mem_nil
  single _ hp := absurd hp List.not_mem_nil

end Nxos.Mm
