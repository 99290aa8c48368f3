import Nxos.Mm.PageCache.Model
import Nxos.Support.Transition
import Mathlib.Data.List.Pairwise
import Mathlib.Data.List.Nodup

/-!
# Runs of the page cache

A session is the cache with the buddy allocator behind it and the spans its users
hold.  Whatever the order of the calls, the span marks describe the spans, every
cached span is on the list of its page count, and spans lie in blocks of the
buddy allocator of their own.

The list of large spans is searched for the smallest span, without regard to the
request.  A user that asks for many pages can therefore get a span with fewer.
-/

namespace Nxos.Mm

open Nxos.Transition

/-! ## The buddy allocator as the cache sees it -/

/-- The page ranges `[a.1, a.1 + a.2)` and `[b.1, b.1 + b.2)` are disjoint. -/
def PagesApart (a b : ℕ × ℕ) : Prop :=
  a.1 + a.2 ≤ b.1 ∨ b.1 + b.2 ≤ a.1

theorem PagesApart.symm {a b : ℕ × ℕ} (h : PagesApart a b) : PagesApart b a :=
  Or.symm h

/-- The buddy allocator hands out disjoint blocks with at least the requested number
of pages.  `blocks` are the blocks that the cache got and did not give back. -/
structure PageSource.Lawful {β : Type} (P : PageSource β) (blocks : β → List (ℕ × ℕ)) :
    Prop where
  alloc_none : ∀ {b b' count}, P.pageAlloc b count = (none, b') → blocks b' = blocks b
  alloc_some : ∀ {b b' count p}, P.pageAlloc b count = (some p, b') →
    ∃ n, count ≤ n ∧ blocks b' = (p, n) :: blocks b ∧
      ∀ q ∈ blocks b, PagesApart (p, n) q
  free : ∀ {b p n}, (p, n) ∈ blocks b →
    blocks (P.pageFree b p) = (blocks b).filter fun q => q.1 ≠ p

/-! ## Sessions -/

/-- The cache in use.  `outstanding` lists the spans that were returned and not yet
freed, with the page counts that were asked for. -/
structure CacheSession (β : Type) where
  cache : PageCache
  source : β
  outstanding : List (ℕ × ℕ)

/-- The calls of a user: to ask for pages, and to free a span through one of its
pages. -/
inductive CacheOp where
  | alloc (count : ℕ)
  | free (span page : ℕ)
  deriving DecidableEq, Repr

def CacheOp.Legal {β : Type} (σ : CacheSession β) : CacheOp → Prop
  | .alloc count => 1 ≤ count ∧ count ≤ pageCacheMaxPages
  | .free span page => (∃ c, (span, c) ∈ σ.outstanding) ∧ span ≤ page ∧
      page < span + spanToCount σ.cache span

def cacheRun {β : Type} (P : PageSource β) (σ : CacheSession β) :
    CacheOp → CacheSession β
  | .alloc count =>
      match pageCacheAlloc P σ.cache σ.source count with
      | (none, cache, source) => ⟨cache, source, σ.outstanding⟩
      | (some span, cache, source) => ⟨cache, source, (span, count) :: σ.outstanding⟩
  | .free span page =>
      let (_, cache, source) := pageCacheFree P σ.cache σ.source page
      ⟨cache, source, σ.outstanding.filter fun s => s.1 ≠ span⟩

def CacheMove {β : Type} (P : PageSource β) (σ : CacheSession β) (op : CacheOp)
    (τ : CacheSession β) : Prop :=
  op.Legal σ ∧ τ = cacheRun P σ op

/-! ## Span marks -/

/-- The marks of the pages of a span say where it starts and how long it is. -/
def MarkedSpan (marks : ℕ → SpanMark) (span count : ℕ) : Prop :=
  ∀ i, i < count → marks (span + i) = ⟨BitVec.ofNat 16 count, BitVec.ofNat 16 i⟩

theorem markLoop_apply (marks : ℕ → SpanMark) (span : ℕ) (mark : ℕ → SpanMark)
    (n p : ℕ) :
    markLoop marks span mark n p =
      if span ≤ p ∧ p < span + n then mark (p - span) else marks p := by
  induction n with
  | zero => rw [if_neg (by omega)]; rfl
  | succ n ih =>
      rw [markLoop]
      by_cases hp : p = span + n
      · rw [hp, Function.update_self, if_pos (by omega), Nat.add_sub_cancel_left]
      · rw [Function.update_of_ne hp, ih]
        by_cases hin : span ≤ p ∧ p < span + n
        · rw [if_pos hin, if_pos (by omega)]
        · rw [if_neg hin, if_neg (by omega)]

theorem markedSpan_markSpan (marks : ℕ → SpanMark) (span count : ℕ) :
    MarkedSpan (markSpan marks span count) span count := by
  intro i hi
  unfold markSpan
  rw [markLoop_apply, if_pos (by omega), Nat.add_sub_cancel_left]

theorem MarkedSpan.of_apart {marks : ℕ → SpanMark} {span count : ℕ}
    (h : MarkedSpan marks span count) {s n : ℕ} (mark : ℕ → SpanMark)
    (hapart : PagesApart (s, n) (span, count)) :
    MarkedSpan (markLoop marks s mark n) span count := by
  intro i hi
  unfold PagesApart at hapart
  rw [markLoop_apply, if_neg (by omega)]
  exact h i hi

theorem MarkedSpan.spanToCount {c : PageCache} {span count : ℕ}
    (h : MarkedSpan c.spanMarkMap span count) (hpos : 0 < count)
    (hle : count ≤ pageCacheMaxPages) : spanToCount c span = count := by
  have hmark := h 0 hpos
  rw [Nat.add_zero] at hmark
  unfold Mm.spanToCount
  unfold pageCacheMaxPages at hle
  rw [hmark, BitVec.toNat_ofNat]
  omega

theorem MarkedSpan.pageToSpan {c : PageCache} {span count page : ℕ}
    (h : MarkedSpan c.spanMarkMap span count) (hle : count ≤ pageCacheMaxPages)
    (hlo : span ≤ page) (hhi : page < span + count) : pageToSpan c page = span := by
  have hmark := h (page - span) (by omega)
  rw [Nat.add_sub_cancel' hlo] at hmark
  unfold Mm.pageToSpan
  unfold pageCacheMaxPages at hle
  rw [hmark, BitVec.toNat_ofNat]
  omega

/-! ## The invariant of a run -/

/-- A span of `m` pages at `span`, with its marks, in a block of the buddy
allocator. -/
structure SpanIn (marks : ℕ → SpanMark) (blocks : List (ℕ × ℕ)) (span m : ℕ) : Prop where
  pos : 1 ≤ m
  le : m ≤ pageCacheMaxPages
  marked : MarkedSpan marks span m
  block : ∃ n, (span, n) ∈ blocks ∧ m ≤ n

/-- The spans that are cached or held lie in disjoint blocks, each cached span is on
the list of its page count, and the counters count.  A held span of `m` pages was
returned for a request of `r` pages with `R r m`. -/
structure CacheInv (R : ℕ → ℕ → Prop) (blocks : List (ℕ × ℕ)) (c : PageCache)
    (outstanding : List (ℕ × ℕ)) : Prop where
  apart : blocks.Pairwise PagesApart
  cached : ∀ {k sp}, sp ∈ c.spanFreeList k →
    SpanIn c.spanMarkMap blocks sp.page sp.pageCount ∧ spanListOf sp.pageCount = k
  held : ∀ {s r}, (s, r) ∈ outstanding → ∃ m, SpanIn c.spanMarkMap blocks s m ∧ R r m
  cached_nodup : ∀ k, ((c.spanFreeList k).map PageSpan.page).Nodup
  held_nodup : (outstanding.map Prod.fst).Nodup
  not_both : ∀ {k sp r}, sp ∈ c.spanFreeList k → (sp.page, r) ∉ outstanding
  count_eq : ∀ k, c.spanFreeCount k = (c.spanFreeList k).length
  count_le : ∀ k, c.spanFreeCount k ≤ spanFreeThreshold k

theorem cacheInv_init (R : ℕ → ℕ → Prop) : CacheInv R [] pageCacheInit [] where
  apart := List.Pairwise.nil
  cached := fun h => absurd h List.not_mem_nil
  held := fun h => absurd h List.not_mem_nil
  cached_nodup := fun _ => List.nodup_nil
  held_nodup := List.nodup_nil
  not_both := fun _ => List.not_mem_nil
  count_eq := fun _ => rfl
  count_le := fun _ => Nat.zero_le _

theorem apart_of_mem {blocks : List (ℕ × ℕ)} (h : blocks.Pairwise PagesApart)
    {a b : ℕ × ℕ} (ha : a ∈ blocks) (hb : b ∈ blocks) (hne : a ≠ b) : PagesApart a b := by
  have hsymm : Std.Symm PagesApart := ⟨fun _ _ => PagesApart.symm⟩
  exact h.forall ha hb hne

namespace SpanIn

variable {marks : ℕ → SpanMark} {blocks : List (ℕ × ℕ)} {span m : ℕ}

theorem apart (h : SpanIn marks blocks span m) (hblocks : blocks.Pairwise PagesApart)
    {s k : ℕ} (h' : SpanIn marks blocks s k) (hne : span ≠ s) :
    PagesApart (span, m) (s, k) := by
  obtain ⟨n, hn, hmn⟩ := h.block
  obtain ⟨n', hn', hkn⟩ := h'.block
  have hapart := apart_of_mem hblocks hn hn' (fun heq => hne (congrArg Prod.fst heq))
  unfold PagesApart at hapart ⊢
  omega

theorem extend (h : SpanIn marks blocks span m) {p n count : ℕ} (hcount : count ≤ n)
    (hfresh : ∀ q ∈ blocks, PagesApart (p, n) q) :
    SpanIn (markSpan marks p count) ((p, n) :: blocks) span m := by
  obtain ⟨n', hn', hmn⟩ := h.block
  have hapart := hfresh _ hn'
  refine ⟨h.pos, h.le, h.marked.of_apart _ ?_, n', List.mem_cons_of_mem _ hn', hmn⟩
  unfold PagesApart at hapart ⊢
  omega

theorem ne_of_fresh (h : SpanIn marks blocks span m) {p n : ℕ} (hpos : 1 ≤ n)
    (hfresh : ∀ q ∈ blocks, PagesApart (p, n) q) : span ≠ p := by
  rintro rfl
  obtain ⟨n', hn', hmn⟩ := h.block
  have hapart := hfresh _ hn'
  have hm := h.pos
  unfold PagesApart at hapart
  omega

theorem release (h : SpanIn marks blocks span m) (hblocks : blocks.Pairwise PagesApart)
    {s k : ℕ} (h' : SpanIn marks blocks s k) (hne : span ≠ s) :
    SpanIn (clearSpan marks s k) (blocks.filter fun q => q.1 ≠ s) span m := by
  obtain ⟨n, hn, hmn⟩ := h.block
  refine ⟨h.pos, h.le, h.marked.of_apart _ (h.apart hblocks h' hne).symm, n, ?_, hmn⟩
  rw [List.mem_filter]
  exact ⟨hn, by simpa using hne⟩

end SpanIn

/-! ## One call -/

theorem bestSpan_mem {best : Option PageSpan} {l : List PageSpan} {sp : PageSpan}
    (h : bestSpan best l = some sp) : best = some sp ∨ sp ∈ l := by
  induction l generalizing best with
  | nil => exact Or.inl h
  | cons a l ih =>
      cases best with
      | none =>
          rw [bestSpan] at h
          rcases ih h with heq | hmem
          · cases heq
            exact Or.inr (List.mem_cons_self ..)
          · exact Or.inr (List.mem_cons_of_mem _ hmem)
      | some b =>
          rw [bestSpan] at h
          split_ifs at h with hbetter
          · rcases ih h with heq | hmem
            · cases heq
              exact Or.inr (List.mem_cons_self ..)
            · exact Or.inr (List.mem_cons_of_mem _ hmem)
          · rcases ih h with heq | hmem
            · exact Or.inl heq
            · exact Or.inr (List.mem_cons_of_mem _ hmem)

theorem spanToReuse_mem {c : PageCache} {count : ℕ} {sp : PageSpan}
    (h : spanToReuse c count = some sp) : sp ∈ c.spanFreeList (spanListOf count) := by
  unfold spanToReuse at h
  unfold spanListOf
  split_ifs at h ⊢ with hlarge
  · rcases bestSpan_mem h with heq | hmem
    · cases heq
    · exact hmem
  · exact List.mem_of_mem_head? (Option.mem_def.mpr h)

theorem length_filter_key {α : Type} [DecidableEq α] {key : α → ℕ} {l : List α}
    (hnodup : (l.map key).Nodup) {x : α} (hmem : x ∈ l) :
    (l.filter fun s => key s ≠ key x).length = l.length - 1 := by
  have herase : (l.filter fun s => key s ≠ key x) = l.erase x := by
    rw [(List.Nodup.of_map _ hnodup).erase_eq_filter]
    apply List.filter_congr
    intro s hs
    by_cases heq : s = x
    · simp [heq]
    · have hkey : key s ≠ key x :=
        fun hkey => heq (List.inj_on_of_nodup_map hnodup hs hmem hkey)
      simp [heq, hkey]
  rw [herase, List.length_erase_of_mem hmem]

theorem pageCacheAlloc_cases {β : Type} (P : PageSource β) (c : PageCache) (b : β)
    {count : ℕ} (hpos : 1 ≤ count) (hle : count ≤ pageCacheMaxPages) :
    (∃ sp, spanToReuse c count = some sp ∧
      pageCacheAlloc P c b count = (some sp.page, takeSpan c (spanListOf count) sp, b)) ∨
    (∃ b', P.pageAlloc b count = (none, b') ∧ pageCacheAlloc P c b count = (none, c, b')) ∨
    (∃ p b', P.pageAlloc b count = (some p, b') ∧
      pageCacheAlloc P c b count =
        (some p, { c with spanMarkMap := markSpan c.spanMarkMap p count }, b')) := by
  simp only [pageCacheAlloc, if_neg (show count ≠ 0 by omega),
    if_neg (show ¬pageCacheMaxPages < count by omega), pageCacheAllocInternal]
  cases hreuse : spanToReuse c count with
  | some sp => exact Or.inl ⟨sp, rfl, rfl⟩
  | none =>
      rcases halloc : P.pageAlloc b count with ⟨p | p, b'⟩
      · exact Or.inr (Or.inl ⟨b', rfl, rfl⟩)
      · exact Or.inr (Or.inr ⟨p, b', rfl, rfl⟩)

theorem mem_of_mem_takeSpan {c : PageCache} {k j : ℕ} {sp s : PageSpan}
    (hs : s ∈ (takeSpan c k sp).spanFreeList j) : s ∈ c.spanFreeList j := by
  by_cases hjk : j = k
  · subst j
    simp only [takeSpan, Function.update_self] at hs
    exact (List.mem_filter.mp hs).1
  · simp only [takeSpan, Function.update_of_ne hjk] at hs
    exact hs

namespace CacheInv

variable {R : ℕ → ℕ → Prop} {blocks outstanding : List (ℕ × ℕ)} {c : PageCache}

theorem grant (h : CacheInv R blocks c outstanding) {p n count : ℕ} (hpos : 1 ≤ count)
    (hle : count ≤ pageCacheMaxPages) (hcount : count ≤ n) (hR : R count count)
    (hfresh : ∀ q ∈ blocks, PagesApart (p, n) q) :
    CacheInv R ((p, n) :: blocks)
      { c with spanMarkMap := markSpan c.spanMarkMap p count }
      ((p, count) :: outstanding) where
  apart := List.pairwise_cons.mpr ⟨hfresh, h.apart⟩
  cached := by
    intro k sp hsp
    obtain ⟨hin, hk⟩ := h.cached hsp
    exact ⟨hin.extend hcount hfresh, hk⟩
  held := by
    intro s r hs
    rcases List.mem_cons.mp hs with heq | hs
    · cases heq
      exact ⟨count, ⟨hpos, hle, markedSpan_markSpan _ _ _, n, List.mem_cons_self .., hcount⟩,
        hR⟩
    · obtain ⟨m, hm, hRm⟩ := h.held hs
      exact ⟨m, hm.extend hcount hfresh, hRm⟩
  cached_nodup := h.cached_nodup
  held_nodup := by
    rw [List.map_cons, List.nodup_cons]
    refine ⟨?_, h.held_nodup⟩
    intro hmem
    obtain ⟨⟨s, r⟩, hs, rfl⟩ := List.mem_map.mp hmem
    obtain ⟨m, hm, -⟩ := h.held hs
    exact hm.ne_of_fresh (by omega) hfresh rfl
  not_both := by
    intro k sp r hsp hmem
    rcases List.mem_cons.mp hmem with heq | hmem
    · exact (h.cached hsp).1.ne_of_fresh (by omega) hfresh (congrArg Prod.fst heq)
    · exact h.not_both hsp hmem
  count_eq := h.count_eq
  count_le := h.count_le

theorem reuse (h : CacheInv R blocks c outstanding) {k : ℕ} {sp : PageSpan}
    (hsp : sp ∈ c.spanFreeList k) {count : ℕ} (hR : R count sp.pageCount) :
    CacheInv R blocks (takeSpan c k sp) ((sp.page, count) :: outstanding) := by
  have hsub : ∀ {j s}, s ∈ (takeSpan c k sp).spanFreeList j →
      s ∈ c.spanFreeList j ∧ s.page ≠ sp.page := by
    intro j s hs
    by_cases hjk : j = k
    · subst j
      simp only [takeSpan, Function.update_self, List.mem_filter, decide_eq_true_eq] at hs
      exact hs
    · simp only [takeSpan, Function.update_of_ne hjk] at hs
      refine ⟨hs, ?_⟩
      -- a span has one mark, so it is on one list only
      intro hpage
      obtain ⟨hin, hj⟩ := h.cached hs
      obtain ⟨hin', hk⟩ := h.cached hsp
      have hcount := hin.marked.spanToCount (c := c) hin.pos hin.le
      rw [hpage, hin'.marked.spanToCount hin'.pos hin'.le] at hcount
      rw [hcount] at hk
      exact hjk (hj.symm.trans hk)
  constructor
  · exact h.apart
  · intro j s hs
    exact h.cached (hsub hs).1
  · intro s r hs
    rcases List.mem_cons.mp hs with heq | hs
    · cases heq
      exact ⟨_, (h.cached hsp).1, hR⟩
    · exact h.held hs
  · intro j
    by_cases hjk : j = k
    · subst j
      simp only [takeSpan, Function.update_self]
      exact (h.cached_nodup k).sublist (List.filter_sublist.map PageSpan.page)
    · simp only [takeSpan, Function.update_of_ne hjk]
      exact h.cached_nodup j
  · rw [List.map_cons, List.nodup_cons]
    refine ⟨?_, h.held_nodup⟩
    intro hmem
    obtain ⟨⟨s, r⟩, hs, heq⟩ := List.mem_map.mp hmem
    dsimp only at heq
    exact h.not_both hsp (heq ▸ hs)
  · intro j s r hs hmem
    obtain ⟨hs, hpage⟩ := hsub hs
    rcases List.mem_cons.mp hmem with heq | hmem
    · exact hpage (congrArg Prod.fst heq)
    · exact h.not_both hs hmem
  · intro j
    by_cases hjk : j = k
    · subst j
      simp only [takeSpan, Function.update_self]
      rw [h.count_eq, length_filter_key (h.cached_nodup k) hsp]
    · simp only [takeSpan, Function.update_of_ne hjk]
      exact h.count_eq j
  · intro j
    have hle := h.count_le j
    by_cases hjk : j = k
    · subst j
      simp only [takeSpan, Function.update_self]
      omega
    · simp only [takeSpan, Function.update_of_ne hjk]
      exact hle

theorem held_ne {s r : ℕ} {span : ℕ}
    (hs : (s, r) ∈ outstanding.filter fun q => q.1 ≠ span) :
    (s, r) ∈ outstanding ∧ s ≠ span := by
  rw [List.mem_filter] at hs
  exact ⟨hs.1, by simpa using hs.2⟩

theorem recycle (h : CacheInv R blocks c outstanding) {span r m k : ℕ}
    (hheld : (span, r) ∈ outstanding) (hin : SpanIn c.spanMarkMap blocks span m)
    (hk : spanListOf m = k) (hroom : c.spanFreeCount k < spanFreeThreshold k) :
    CacheInv R blocks
      { c with
        spanFreeList := Function.update c.spanFreeList k (⟨span, m⟩ :: c.spanFreeList k)
        spanFreeCount := Function.update c.spanFreeCount k (c.spanFreeCount k + 1) }
      (outstanding.filter fun q => q.1 ≠ span) := by
  have hmem : ∀ {j s}, s ∈ Function.update c.spanFreeList k
      (⟨span, m⟩ :: c.spanFreeList k) j → (j = k ∧ s = ⟨span, m⟩) ∨ s ∈ c.spanFreeList j := by
    intro j s hs
    by_cases hjk : j = k
    · subst j
      rw [Function.update_self] at hs
      rcases List.mem_cons.mp hs with heq | hs
      · exact Or.inl ⟨rfl, heq⟩
      · exact Or.inr hs
    · rw [Function.update_of_ne hjk] at hs
      exact Or.inr hs
  constructor
  · exact h.apart
  · intro j s hs
    rcases hmem hs with ⟨rfl, rfl⟩ | hs
    · exact ⟨hin, hk⟩
    · exact h.cached hs
  · intro s r' hs
    exact h.held (held_ne hs).1
  · intro j
    dsimp only
    by_cases hjk : j = k
    · subst j
      rw [Function.update_self, List.map_cons, List.nodup_cons]
      refine ⟨?_, h.cached_nodup k⟩
      intro hin
      obtain ⟨s, hs, heq⟩ := List.mem_map.mp hin
      dsimp only at heq
      exact h.not_both hs (heq ▸ hheld)
    · rw [Function.update_of_ne hjk]
      exact h.cached_nodup j
  · exact h.held_nodup.sublist (List.filter_sublist.map Prod.fst)
  · intro j s r' hs hout
    obtain ⟨hout, hne⟩ := held_ne hout
    rcases hmem hs with ⟨-, rfl⟩ | hs
    · exact hne rfl
    · exact h.not_both hs hout
  · intro j
    dsimp only
    by_cases hjk : j = k
    · subst j
      rw [Function.update_self, Function.update_self, h.count_eq, List.length_cons]
    · rw [Function.update_of_ne hjk, Function.update_of_ne hjk]
      exact h.count_eq j
  · intro j
    dsimp only
    by_cases hjk : j = k
    · subst j
      rw [Function.update_self]
      omega
    · rw [Function.update_of_ne hjk]
      exact h.count_le j

theorem giveBack (h : CacheInv R blocks c outstanding) {span r m : ℕ}
    (hheld : (span, r) ∈ outstanding) (hin : SpanIn c.spanMarkMap blocks span m) :
    CacheInv R (blocks.filter fun q => q.1 ≠ span)
      { c with spanMarkMap := clearSpan c.spanMarkMap span m }
      (outstanding.filter fun q => q.1 ≠ span) where
  apart := h.apart.sublist List.filter_sublist
  cached := by
    intro k sp hsp
    obtain ⟨hsin, hk⟩ := h.cached hsp
    refine ⟨hsin.release h.apart hin ?_, hk⟩
    intro heq
    exact h.not_both hsp (heq ▸ hheld)
  held := by
    intro s r' hs
    obtain ⟨hs, hne⟩ := held_ne hs
    obtain ⟨m', hm', hR⟩ := h.held hs
    exact ⟨m', hm'.release h.apart hin hne, hR⟩
  cached_nodup := h.cached_nodup
  held_nodup := h.held_nodup.sublist (List.filter_sublist.map Prod.fst)
  not_both := fun hsp hout => h.not_both hsp (held_ne hout).1
  count_eq := h.count_eq
  count_le := h.count_le

/-- Freeing a held span through one of its pages gives it back or puts it on its
list. -/
theorem pageCacheFree_held {β : Type} (P : PageSource β) (b : β)
    (h : CacheInv R blocks c outstanding) {span r page : ℕ} (hheld : (span, r) ∈ outstanding)
    (hlo : span ≤ page) (hhi : page < span + spanToCount c span) :
    ∃ m, SpanIn c.spanMarkMap blocks span m ∧ R r m ∧
      ((spanFreeThreshold (spanListOf m) ≤ c.spanFreeCount (spanListOf m) ∧
        pageCacheFree P c b page =
          (.eok, { c with spanMarkMap := clearSpan c.spanMarkMap span m },
            P.pageFree b span)) ∨
      (c.spanFreeCount (spanListOf m) < spanFreeThreshold (spanListOf m) ∧
        pageCacheFree P c b page =
          (.eok, { c with
            spanFreeList := Function.update c.spanFreeList (spanListOf m)
              (⟨span, m⟩ :: c.spanFreeList (spanListOf m))
            spanFreeCount := Function.update c.spanFreeCount (spanListOf m)
              (c.spanFreeCount (spanListOf m) + 1) }, b))) := by
  obtain ⟨m, hin, hR⟩ := h.held hheld
  have hcount := hin.marked.spanToCount hin.pos hin.le
  rw [hcount] at hhi
  have hspan := hin.marked.pageToSpan hin.le hlo hhi
  have hpos := hin.pos
  refine ⟨m, hin, hR, ?_⟩
  simp only [pageCacheFree, pageCacheFreeInternal, hspan, hcount,
    if_neg (show m ≠ 0 by omega)]
  by_cases hfull : spanFreeThreshold (spanListOf m) ≤ c.spanFreeCount (spanListOf m)
  · rw [if_pos hfull]
    exact Or.inl ⟨hfull, rfl⟩
  · rw [if_neg hfull]
    exact Or.inr ⟨by omega, rfl⟩

/-- A legal call keeps the invariant.  The last hypotheses say what is known of the
page counts of the spans that are handed out. -/
theorem run {β : Type} {P : PageSource β} {blocks : β → List (ℕ × ℕ)}
    (hP : P.Lawful blocks) {σ : CacheSession β}
    (h : CacheInv R (blocks σ.source) σ.cache σ.outstanding) {op : CacheOp}
    (hlegal : op.Legal σ) (hself : ∀ count, op = .alloc count → R count count)
    (hR : ∀ count sp, op = .alloc count → spanToReuse σ.cache count = some sp →
      R count sp.pageCount) :
    CacheInv R (blocks (cacheRun P σ op).source) (cacheRun P σ op).cache
      (cacheRun P σ op).outstanding := by
  cases op with
  | alloc count =>
      obtain ⟨hpos, hle⟩ := hlegal
      rcases pageCacheAlloc_cases P σ.cache σ.source hpos hle with
        ⟨sp, hreuse, heq⟩ | ⟨b, halloc, heq⟩ | ⟨p, b, halloc, heq⟩
      · simp only [cacheRun, heq]
        exact h.reuse (spanToReuse_mem hreuse) (hR count sp rfl hreuse)
      · simp only [cacheRun, heq]
        rw [hP.alloc_none halloc]
        exact h
      · obtain ⟨n, hcount, hblocks, hfresh⟩ := hP.alloc_some halloc
        simp only [cacheRun, heq]
        rw [hblocks]
        exact h.grant hpos hle hcount (hself count rfl) hfresh
  | free span page =>
      obtain ⟨⟨r, hheld⟩, hlo, hhi⟩ := hlegal
      obtain ⟨m, hin, -, ⟨-, heq⟩ | ⟨hroom, heq⟩⟩ :=
        h.pageCacheFree_held P σ.source hheld hlo hhi
      · obtain ⟨n, hn, -⟩ := hin.block
        simp only [cacheRun, heq]
        rw [hP.free hn]
        exact h.giveBack hheld hin
      · simp only [cacheRun, heq]
        exact h.recycle hheld hin rfl hroom

theorem held_apart (h : CacheInv R blocks c outstanding) (hR : ∀ {r m}, R r m → r ≤ m) :
    outstanding.Pairwise PagesApart := by
  have hnodup : outstanding.Pairwise fun a b => a.1 ≠ b.1 :=
    List.pairwise_map.mp h.held_nodup
  refine hnodup.imp_of_mem ?_
  rintro ⟨s, r⟩ ⟨s', r'⟩ hs hs' hne
  obtain ⟨m, hin, hm⟩ := h.held hs
  obtain ⟨m', hin', hm'⟩ := h.held hs'
  have hapart := hin.apart h.apart hin' hne
  have hle := hR hm
  have hle' := hR hm'
  unfold PagesApart at hapart ⊢
  dsimp only at hapart ⊢
  omega

end CacheInv

/-! ## Whole runs -/

/-- The request is for less than 128 pages, or no cached large span has fewer pages
than it asks for. -/
def CacheOp.LargeFits {β : Type} (σ : CacheSession β) : CacheOp → Prop
  | .alloc count => smallSpanPagesMax ≤ count →
      ∀ sp ∈ σ.cache.spanFreeList smallSpanPagesMax, count ≤ sp.pageCount
  | .free _ _ => True

theorem spanToReuse_fits {β : Type} {R : ℕ → ℕ → Prop} {blocks : List (ℕ × ℕ)}
    {σ : CacheSession β} (h : CacheInv R blocks σ.cache σ.outstanding) {count : ℕ}
    (hfits : (CacheOp.alloc count).LargeFits σ) {sp : PageSpan}
    (hreuse : spanToReuse σ.cache count = some sp) : count ≤ sp.pageCount := by
  have hmem := spanToReuse_mem hreuse
  have hlist := (h.cached hmem).2
  unfold spanListOf at hmem hlist
  by_cases hlarge : smallSpanPagesMax ≤ count
  · rw [if_pos hlarge] at hmem
    exact hfits hlarge sp hmem
  · rw [if_neg hlarge] at hlist
    split_ifs at hlist with hsp <;> omega

/-- The spans that users hold have the pages they asked for, in blocks of their own. -/
structure SpansOk {β : Type} (blocks : β → List (ℕ × ℕ)) (σ : CacheSession β) : Prop where
  owns : ∀ {span count}, (span, count) ∈ σ.outstanding →
    count ≤ spanToCount σ.cache span ∧
    ∃ n, (span, n) ∈ blocks σ.source ∧ spanToCount σ.cache span ≤ n
  disjoint : σ.outstanding.Pairwise PagesApart

/-- In every run in which large requests only meet cached spans that are large enough,
the spans that users hold have the pages they asked for and are disjoint. -/
theorem cacheReachable_spansOk {β : Type} {P : PageSource β} {blocks : β → List (ℕ × ℕ)}
    (hP : P.Lawful blocks) {b₀ : β} (hb₀ : blocks b₀ = []) :
    ∀ σ, Reachable (fun σ op τ => CacheMove P σ op τ ∧ op.LargeFits σ)
        ⟨pageCacheInit, b₀, []⟩ σ → SpansOk blocks σ := by
  intro σ hreach
  have hinv : CacheInv (· ≤ ·) (blocks σ.source) σ.cache σ.outstanding := by
    refine Reachable.invariant
      (P := fun σ => CacheInv (· ≤ ·) (blocks σ.source) σ.cache σ.outstanding) hreach
      (by dsimp only; rw [hb₀]; exact cacheInv_init _) ?_
    rintro σ op τ hinv ⟨⟨hlegal, rfl⟩, hfits⟩
    refine hinv.run hP hlegal (fun r _ => Nat.le_refl r) ?_
    rintro count sp rfl hreuse
    exact spanToReuse_fits hinv hfits hreuse
  have hheld : ∀ {span count}, (span, count) ∈ σ.outstanding →
      count ≤ spanToCount σ.cache span ∧
        SpanIn σ.cache.spanMarkMap (blocks σ.source) span (spanToCount σ.cache span) := by
    intro span count hmem
    obtain ⟨m, hin, hle⟩ := hinv.held hmem
    rw [hin.marked.spanToCount hin.pos hin.le]
    exact ⟨hle, hin⟩
  constructor
  · intro span count hmem
    obtain ⟨hle, hin⟩ := hheld hmem
    exact ⟨hle, hin.block⟩
  · exact hinv.held_apart fun hle => hle

/-- An allocator that hands out exactly the requested pages and never uses a page
twice. -/
structure BumpState where
  next : ℕ
  blocks : List (ℕ × ℕ)
  below : ∀ q ∈ blocks, q.1 + q.2 ≤ next

def bumpSource : PageSource BumpState where
  pageAlloc := fun b count =>
    (some b.next, ⟨b.next + count, (b.next, count) :: b.blocks, by
      intro q hq
      rcases List.mem_cons.mp hq with rfl | hq
      · exact Nat.le_refl _
      · exact Nat.le_trans (b.below q hq) (Nat.le_add_right _ _)⟩)
  pageFree := fun b p => ⟨b.next, b.blocks.filter fun q => q.1 ≠ p,
    fun q hq => b.below q (List.mem_filter.mp hq).1⟩

theorem bumpSource_lawful : bumpSource.Lawful BumpState.blocks where
  alloc_none := by
    intro b b' count h
    cases h
  alloc_some := by
    intro b b' count p h
    cases h
    exact ⟨count, Nat.le_refl _, rfl, fun q hq => Or.inr (b.below q hq)⟩
  free := fun _ => rfl

theorem cacheReachable_spansOk_bump :
    ∃ σ, Reachable (fun σ op τ => CacheMove bumpSource σ op τ ∧ op.LargeFits σ)
        ⟨pageCacheInit, ⟨0, [], by simp⟩, []⟩ σ ∧
      (0, 2) ∈ σ.outstanding ∧ SpansOk BumpState.blocks σ := by
  have hreach : Reachable (fun σ op τ => CacheMove bumpSource σ op τ ∧ op.LargeFits σ)
      ⟨pageCacheInit, ⟨0, [], by simp⟩, []⟩ _ :=
    .tail (a := .alloc 2) .refl ⟨⟨⟨by decide, by decide⟩, rfl⟩, nofun⟩
  exact ⟨_, hreach, List.mem_singleton.mpr rfl,
    cacheReachable_spansOk bumpSource_lawful rfl _ hreach⟩

/-- A span of 128 pages that was freed is handed out for a request of 2048 pages. -/
theorem cacheReachable_short_span :
    bumpSource.Lawful BumpState.blocks ∧
      ∃ σ, Reachable (CacheMove bumpSource) ⟨pageCacheInit, ⟨0, [], by simp⟩, []⟩ σ ∧
        (0, 2048) ∈ σ.outstanding ∧ BumpState.blocks σ.source = [(0, 128)] ∧
        ¬SpansOk BumpState.blocks σ := by
  refine ⟨bumpSource_lawful, _, .tail (a := .alloc 2048) (.tail (a := .free 0 0)
    (.tail (a := .alloc 128) .refl ⟨⟨by decide, by decide⟩, rfl⟩) ⟨?_, rfl⟩)
    ⟨⟨by decide, by decide⟩, rfl⟩, ?_, ?_, ?_⟩
  · exact ⟨⟨128, List.mem_singleton.mpr rfl⟩, Nat.le_refl _, by decide⟩
  · exact List.mem_singleton.mpr rfl
  · rfl
  · intro hok
    have hle := (hok.owns (List.mem_singleton.mpr rfl : ((0, 2048) : ℕ × ℕ) ∈ _)).1
    exact absurd hle (by decide)

end Nxos.Mm
