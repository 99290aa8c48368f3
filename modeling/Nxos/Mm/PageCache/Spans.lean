import Nxos.Mm.PageCache.Session

/-!
# Span marks and free lists

The size of a span is the page count with which it was asked from the buddy
allocator.  A record of these calls is kept behind the cache: an entry `(s, n)` is
a span of `n` pages at `s` that did not go back to the buddy allocator.  In every
run the marks of the cache agree with the record, and each recorded span is held
by a user or is on the list of its size.
-/

namespace Nxos.Mm

open Nxos.Transition

def recordingSource {β : Type} (P : PageSource β) : PageSource (β × List (ℕ × ℕ)) where
  pageAlloc := fun b count =>
    match P.pageAlloc b.1 count with
    | (none, b') => (none, b', b.2)
    | (some p, b') => (some p, b', (p, count) :: b.2)
  pageFree := fun b p => (P.pageFree b.1 p, b.2.filter fun s => s.1 ≠ p)

section Recording

variable {β : Type} {P : PageSource β}

theorem recordingSource_alloc_none {b b' : β × List (ℕ × ℕ)} {count : ℕ}
    (h : (recordingSource P).pageAlloc b count = (none, b')) :
    P.pageAlloc b.1 count = (none, b'.1) ∧ b'.2 = b.2 := by
  dsimp only [recordingSource] at h
  split at h
  next b₁ halloc =>
    cases h
    exact ⟨halloc, rfl⟩
  next => cases h

theorem recordingSource_alloc_some {b b' : β × List (ℕ × ℕ)} {count p : ℕ}
    (h : (recordingSource P).pageAlloc b count = (some p, b')) :
    P.pageAlloc b.1 count = (some p, b'.1) ∧ b'.2 = (p, count) :: b.2 := by
  dsimp only [recordingSource] at h
  split at h
  next => cases h
  next p₁ b₁ halloc =>
    cases h
    exact ⟨halloc, rfl⟩

theorem PageSource.Lawful.recording {blocks : β → List (ℕ × ℕ)} (hP : P.Lawful blocks) :
    (recordingSource P).Lawful fun b => blocks b.1 where
  alloc_none := fun h => hP.alloc_none (recordingSource_alloc_none h).1
  alloc_some := fun h => hP.alloc_some (recordingSource_alloc_some h).1
  free := fun h => hP.free h

end Recording

/-! ## The record and the cache -/

theorem SpanIn.count_unique {c : PageCache} {blocks : List (ℕ × ℕ)} {span m n : ℕ}
    (hm : SpanIn c.spanMarkMap blocks span m) (hn : SpanIn c.spanMarkMap blocks span n) :
    m = n := by
  rw [← hm.marked.spanToCount hm.pos hm.le, hn.marked.spanToCount hn.pos hn.le]

theorem mem_takeSpan_of_ne {c : PageCache} {k j : ℕ} {sp s : PageSpan}
    (hs : s ∈ c.spanFreeList j) (hne : s.page ≠ sp.page) :
    s ∈ (takeSpan c k sp).spanFreeList j := by
  by_cases hjk : j = k
  · subst j
    simp only [takeSpan, Function.update_self, List.mem_filter, decide_eq_true_eq]
    exact ⟨hs, hne⟩
  · simp only [takeSpan, Function.update_of_ne hjk]
    exact hs

/-- The recorded spans are the ones that are held or cached. -/
structure RecordInv (blocks log : List (ℕ × ℕ)) (c : PageCache)
    (outstanding : List (ℕ × ℕ)) : Prop where
  held : ∀ {s r}, (s, r) ∈ outstanding → ∃ n, (s, n) ∈ log
  cached : ∀ {k sp}, sp ∈ c.spanFreeList k → (sp.page, sp.pageCount) ∈ log
  span : ∀ {s n}, (s, n) ∈ log → SpanIn c.spanMarkMap blocks s n
  place : ∀ {s n}, (s, n) ∈ log →
    (∃ r, (s, r) ∈ outstanding) ∨ ⟨s, n⟩ ∈ c.spanFreeList (spanListOf n)

theorem recordInv_init : RecordInv [] [] pageCacheInit [] where
  held := fun h => absurd h List.not_mem_nil
  cached := fun h => absurd h List.not_mem_nil
  span := fun h => absurd h List.not_mem_nil
  place := fun h => absurd h List.not_mem_nil

namespace RecordInv

variable {R : ℕ → ℕ → Prop} {blocks log outstanding : List (ℕ × ℕ)} {c : PageCache}

theorem grant (h : RecordInv blocks log c outstanding) {p n count : ℕ} (hpos : 1 ≤ count)
    (hle : count ≤ pageCacheMaxPages) (hcount : count ≤ n)
    (hfresh : ∀ q ∈ blocks, PagesApart (p, n) q) :
    RecordInv ((p, n) :: blocks) ((p, count) :: log)
      { c with spanMarkMap := markSpan c.spanMarkMap p count }
      ((p, count) :: outstanding) where
  held := by
    intro s r hs
    rcases List.mem_cons.mp hs with heq | hs
    · cases heq
      exact ⟨count, List.mem_cons_self ..⟩
    · obtain ⟨m, hm⟩ := h.held hs
      exact ⟨m, List.mem_cons_of_mem _ hm⟩
  cached := fun hsp => List.mem_cons_of_mem _ (h.cached hsp)
  span := by
    intro s m hs
    rcases List.mem_cons.mp hs with heq | hs
    · cases heq
      exact ⟨hpos, hle, markedSpan_markSpan _ _ _, n, List.mem_cons_self .., hcount⟩
    · exact (h.span hs).extend hcount hfresh
  place := by
    intro s m hs
    rcases List.mem_cons.mp hs with heq | hs
    · cases heq
      exact Or.inl ⟨count, List.mem_cons_self ..⟩
    · rcases h.place hs with ⟨r, hr⟩ | hlist
      · exact Or.inl ⟨r, List.mem_cons_of_mem _ hr⟩
      · exact Or.inr hlist

theorem reuse (h : RecordInv blocks log c outstanding) {k : ℕ} {sp : PageSpan}
    (hsp : sp ∈ c.spanFreeList k) (count : ℕ) :
    RecordInv blocks log (takeSpan c k sp) ((sp.page, count) :: outstanding) where
  held := by
    intro s r hs
    rcases List.mem_cons.mp hs with heq | hs
    · cases heq
      exact ⟨sp.pageCount, h.cached hsp⟩
    · exact h.held hs
  cached := fun hs => h.cached (mem_of_mem_takeSpan hs)
  span := fun hs => h.span hs
  place := by
    intro s n hs
    by_cases hpage : s = sp.page
    · exact Or.inl ⟨count, hpage ▸ List.mem_cons_self ..⟩
    · rcases h.place hs with ⟨r, hr⟩ | hlist
      · exact Or.inl ⟨r, List.mem_cons_of_mem _ hr⟩
      · exact Or.inr (mem_takeSpan_of_ne hlist hpage)

theorem mem_of_held (h : RecordInv blocks log c outstanding) {span r m : ℕ}
    (hheld : (span, r) ∈ outstanding) (hin : SpanIn c.spanMarkMap blocks span m) :
    (span, m) ∈ log := by
  obtain ⟨n, hn⟩ := h.held hheld
  rwa [hin.count_unique (h.span hn)]

theorem recycle (h : RecordInv blocks log c outstanding) {span r m : ℕ}
    (hheld : (span, r) ∈ outstanding) (hin : SpanIn c.spanMarkMap blocks span m) :
    RecordInv blocks log
      { c with
        spanFreeList := Function.update c.spanFreeList (spanListOf m)
          (⟨span, m⟩ :: c.spanFreeList (spanListOf m))
        spanFreeCount := Function.update c.spanFreeCount (spanListOf m)
          (c.spanFreeCount (spanListOf m) + 1) }
      (outstanding.filter fun q => q.1 ≠ span) where
  held := fun hs => h.held (CacheInv.held_ne hs).1
  cached := by
    intro k sp hsp
    dsimp only at hsp
    by_cases hk : k = spanListOf m
    · subst k
      rw [Function.update_self] at hsp
      rcases List.mem_cons.mp hsp with rfl | hsp
      · exact h.mem_of_held hheld hin
      · exact h.cached hsp
    · rw [Function.update_of_ne hk] at hsp
      exact h.cached hsp
  span := fun hs => h.span hs
  place := by
    intro s n hs
    by_cases hspan : s = span
    · subst s
      have hn : n = m := (h.span hs).count_unique hin
      subst n
      dsimp only
      rw [Function.update_self]
      exact Or.inr (List.mem_cons_self ..)
    · rcases h.place hs with ⟨r', hr'⟩ | hlist
      · exact Or.inl ⟨r', List.mem_filter.mpr ⟨hr', by simpa using hspan⟩⟩
      · dsimp only
        by_cases hk : spanListOf n = spanListOf m
        · rw [hk, Function.update_self]
          exact Or.inr (List.mem_cons_of_mem _ (hk ▸ hlist))
        · rw [Function.update_of_ne hk]
          exact Or.inr hlist

/-- A held span goes back to the buddy allocator and leaves the record. -/
theorem giveBack (h : RecordInv blocks log c outstanding)
    (hinv : CacheInv R blocks c outstanding) {span r m : ℕ}
    (hheld : (span, r) ∈ outstanding) (hin : SpanIn c.spanMarkMap blocks span m) :
    RecordInv (blocks.filter fun q => q.1 ≠ span) (log.filter fun q => q.1 ≠ span)
      { c with spanMarkMap := clearSpan c.spanMarkMap span m }
      (outstanding.filter fun q => q.1 ≠ span) where
  held := by
    intro s r' hs
    obtain ⟨hs, hne⟩ := CacheInv.held_ne hs
    obtain ⟨n, hn⟩ := h.held hs
    exact ⟨n, List.mem_filter.mpr ⟨hn, by simpa using hne⟩⟩
  cached := by
    intro k sp hsp
    have hne : sp.page ≠ span := fun heq => hinv.not_both hsp (heq ▸ hheld)
    exact List.mem_filter.mpr ⟨h.cached hsp, by simpa using hne⟩
  span := by
    intro s n hs
    obtain ⟨hs, hne⟩ := CacheInv.held_ne hs
    exact (h.span hs).release hinv.apart hin hne
  place := by
    intro s n hs
    obtain ⟨hs, hne⟩ := CacheInv.held_ne hs
    rcases h.place hs with ⟨r', hr'⟩ | hlist
    · exact Or.inl ⟨r', List.mem_filter.mpr ⟨hr', by simpa using hne⟩⟩
    · exact Or.inr hlist

theorem run {β : Type} {P : PageSource β} {blocks : β → List (ℕ × ℕ)}
    (hP : P.Lawful blocks) {σ : CacheSession (β × List (ℕ × ℕ))}
    (h : RecordInv (blocks σ.source.1) σ.source.2 σ.cache σ.outstanding)
    (hinv : CacheInv R (blocks σ.source.1) σ.cache σ.outstanding) {op : CacheOp}
    (hlegal : op.Legal σ) :
    RecordInv (blocks (cacheRun (recordingSource P) σ op).source.1)
      (cacheRun (recordingSource P) σ op).source.2
      (cacheRun (recordingSource P) σ op).cache
      (cacheRun (recordingSource P) σ op).outstanding := by
  cases op with
  | alloc count =>
      obtain ⟨hpos, hle⟩ := hlegal
      rcases pageCacheAlloc_cases (recordingSource P) σ.cache σ.source hpos hle with
        ⟨sp, hreuse, heq⟩ | ⟨b, halloc, heq⟩ | ⟨p, b, halloc, heq⟩
      · simp only [cacheRun, heq]
        exact h.reuse (spanToReuse_mem hreuse) count
      · obtain ⟨halloc, hlog⟩ := recordingSource_alloc_none halloc
        simp only [cacheRun, heq]
        rw [hP.alloc_none halloc, hlog]
        exact h
      · obtain ⟨halloc, hlog⟩ := recordingSource_alloc_some halloc
        obtain ⟨n, hcount, hblocks, hfresh⟩ := hP.alloc_some halloc
        simp only [cacheRun, heq]
        rw [hblocks, hlog]
        exact h.grant hpos hle hcount hfresh
  | free span page =>
      obtain ⟨⟨r, hheld⟩, hlo, hhi⟩ := hlegal
      obtain ⟨m, hin, -, ⟨-, heq⟩ | ⟨-, heq⟩⟩ :=
        hinv.pageCacheFree_held (recordingSource P) σ.source hheld hlo hhi
      · obtain ⟨n, hn, -⟩ := hin.block
        simp only [cacheRun, heq]
        dsimp only [recordingSource]
        rw [hP.free hn]
        exact h.giveBack hinv hheld hin
      · simp only [cacheRun, heq]
        exact h.recycle hheld hin

end RecordInv

/-! ## Whole runs -/

/-- What a user may call: a span is freed through a page of it, as the record says
where it ends. -/
def CacheOp.OnSpan {β : Type} (σ : CacheSession (β × List (ℕ × ℕ))) : CacheOp → Prop
  | .alloc count => 1 ≤ count ∧ count ≤ pageCacheMaxPages
  | .free span page => (∃ r, (span, r) ∈ σ.outstanding) ∧
      ∃ n, (span, n) ∈ σ.source.2 ∧ span ≤ page ∧ page < span + n

def SpanMove {β : Type} (P : PageSource β) (σ : CacheSession (β × List (ℕ × ℕ)))
    (op : CacheOp) (τ : CacheSession (β × List (ℕ × ℕ))) : Prop :=
  op.OnSpan σ ∧ τ = cacheRun (recordingSource P) σ op

structure SpansDescribed {β : Type} (σ : CacheSession (β × List (ℕ × ℕ))) : Prop where
  outstanding : ∀ {s r}, (s, r) ∈ σ.outstanding → ∃ n, (s, n) ∈ σ.source.2
  cached : ∀ {k sp}, sp ∈ σ.cache.spanFreeList k → (sp.page, sp.pageCount) ∈ σ.source.2
  marks : ∀ {s n}, (s, n) ∈ σ.source.2 → spanToCount σ.cache s = n ∧
    ∀ p, s ≤ p → p < s + n → pageToSpan σ.cache p = s
  oneList : ∀ {k sp}, sp ∈ σ.cache.spanFreeList k →
    k = (if smallSpanPagesMax ≤ sp.pageCount then smallSpanPagesMax else sp.pageCount) ∧
    ((σ.cache.spanFreeList k).map PageSpan.page).count sp.page = 1 ∧
    ∀ j, j ≠ k → sp.page ∉ (σ.cache.spanFreeList j).map PageSpan.page
  counters : ∀ k, σ.cache.spanFreeCount k = (σ.cache.spanFreeList k).length
  onePage : σ.cache.spanFreeCount 1 ≤ 1024
  small : ∀ k, k ≠ 1 → k < smallSpanPagesMax → σ.cache.spanFreeCount k ≤ 64
  large : σ.cache.spanFreeCount smallSpanPagesMax ≤ 32

theorem RecordInv.spansDescribed {β : Type} {R : ℕ → ℕ → Prop} {blocks : List (ℕ × ℕ)}
    {σ : CacheSession (β × List (ℕ × ℕ))}
    (h : RecordInv blocks σ.source.2 σ.cache σ.outstanding)
    (hinv : CacheInv R blocks σ.cache σ.outstanding) : SpansDescribed σ where
  outstanding := h.held
  cached := h.cached
  marks := by
    intro s n hs
    have hin := h.span hs
    exact ⟨hin.marked.spanToCount hin.pos hin.le,
      fun p hlo hhi => hin.marked.pageToSpan hin.le hlo hhi⟩
  oneList := by
    intro k sp hsp
    obtain ⟨hin, hk⟩ := hinv.cached hsp
    refine ⟨hk.symm, List.count_eq_one_of_mem (hinv.cached_nodup k)
      (List.mem_map_of_mem hsp), ?_⟩
    intro j hjk hmem
    obtain ⟨s, hs, hpage⟩ := List.mem_map.mp hmem
    obtain ⟨hin', hj⟩ := hinv.cached hs
    rw [hpage] at hin'
    rw [hin'.count_unique hin] at hj
    exact hjk (hj.symm.trans hk)
  counters := hinv.count_eq
  onePage := hinv.count_le 1
  small := by
    intro k hone hk
    have hle := hinv.count_le k
    rwa [spanFreeThreshold, if_neg (Nat.not_le.mpr hk), if_neg hone] at hle
  large := hinv.count_le smallSpanPagesMax

/-- In every run the marks describe the spans, each cached span is on the list of its
size and on no other, and the counters count what they bound. -/
theorem cacheReachable_spansDescribed {β : Type} {P : PageSource β}
    {blocks : β → List (ℕ × ℕ)} (hP : P.Lawful blocks) {b₀ : β} (hb₀ : blocks b₀ = []) :
    ∀ σ, Reachable (SpanMove P) ⟨pageCacheInit, (b₀, []), []⟩ σ → SpansDescribed σ := by
  intro σ hreach
  have hboth : CacheInv (fun _ _ => True) (blocks σ.source.1) σ.cache σ.outstanding ∧
      RecordInv (blocks σ.source.1) σ.source.2 σ.cache σ.outstanding := by
    refine Reachable.invariant
      (P := fun σ => CacheInv (fun _ _ => True) (blocks σ.source.1) σ.cache σ.outstanding ∧
        RecordInv (blocks σ.source.1) σ.source.2 σ.cache σ.outstanding) hreach ?_ ?_
    · dsimp only
      rw [hb₀]
      exact ⟨cacheInv_init _, recordInv_init⟩
    · rintro σ op τ ⟨hinv, hrec⟩ ⟨hspan, rfl⟩
      have hlegal : op.Legal σ := by
        cases op with
        | alloc count => exact hspan
        | free span page =>
            obtain ⟨hheld, n, hn, hlo, hhi⟩ := hspan
            have hin := hrec.span hn
            refine ⟨hheld, hlo, ?_⟩
            rwa [hin.marked.spanToCount hin.pos hin.le]
      exact ⟨hinv.run hP.recording hlegal (fun _ _ => trivial) (fun _ _ _ _ => trivial),
        hrec.run hP hinv hlegal⟩
  exact hboth.2.spansDescribed hboth.1

/-- A span of 130 pages is freed through its last page and is then on the large list. -/
theorem cacheReachable_spansDescribed_bump :
    ∃ σ, Reachable (SpanMove bumpSource) ⟨pageCacheInit, (⟨0, [], by simp⟩, []), []⟩ σ ∧
      σ.cache.spanFreeList smallSpanPagesMax = [⟨0, 130⟩] ∧ SpansDescribed σ := by
  have hreach : Reachable (SpanMove bumpSource)
      ⟨pageCacheInit, (⟨0, [], by simp⟩, []), []⟩ _ :=
    .tail (a := .free 0 129) (.tail (a := .alloc 130) .refl ⟨⟨by decide, by decide⟩, rfl⟩)
      ⟨⟨⟨130, List.mem_singleton.mpr rfl⟩, 130, List.mem_singleton.mpr rfl, by decide,
        by decide⟩, rfl⟩
  exact ⟨_, hreach, by decide, cacheReachable_spansDescribed bumpSource_lawful rfl _ hreach⟩

end Nxos.Mm
