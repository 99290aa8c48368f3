import Nxos.Mm.HeapCache.Objects

/-!
# The page cache behind the heap

The heap asks for spans of five sizes only.  Over such requests the page cache
keeps every list uniform: a cached span has exactly the pages of the next request
that finds it.  So it hands out disjoint spans with the requested pages, as the heap
needs.
-/

namespace Nxos.Mm

variable {β : Type} {P : PageSource β} {blocks : β → List (ℕ × ℕ)}

def pageCacheSpans (P : PageSource β) : SpanSource (CacheSession β) where
  pageCacheAlloc := fun σ count =>
    ((pageCacheAlloc P σ.cache σ.source count).1, cacheRun P σ (.alloc count))
  pageCacheFree := fun σ page =>
    ((pageCacheFree P σ.cache σ.source page).1, cacheRun P σ (.free page page))
  pageToSpan := fun σ page => pageToSpan σ.cache page

/-- The page cache as the heap leaves it: all spans have one of the five sizes. -/
structure HeapSpansOk (blocks : β → List (ℕ × ℕ)) (σ : CacheSession β) : Prop where
  inv : CacheInv (fun r m => r = m ∧ m ∈ smallSpanPages) (blocks σ.source) σ.cache
    σ.outstanding
  cached : ∀ {k sp}, sp ∈ σ.cache.spanFreeList k → sp.pageCount ∈ smallSpanPages

theorem heapSpansOk_init {b₀ : β} (hb₀ : blocks b₀ = []) :
    HeapSpansOk blocks ⟨pageCacheInit, b₀, []⟩ where
  inv := by
    dsimp only
    rw [hb₀]
    exact cacheInv_init _
  cached := fun h => absurd h List.not_mem_nil

theorem spanListOf_injective {a b : ℕ} (ha : a ∈ smallSpanPages) (hb : b ∈ smallSpanPages)
    (heq : spanListOf a = spanListOf b) : a = b := by
  have hall : ∀ a ∈ smallSpanPages, ∀ b ∈ smallSpanPages,
      spanListOf a = spanListOf b → a = b := by
    decide
  exact hall a ha b hb heq

theorem smallSpanPages_le {count : ℕ} (h : count ∈ smallSpanPages) :
    count ≤ pageCacheMaxPages := by
  have hall : ∀ n ∈ smallSpanPages, n ≤ pageCacheMaxPages := by decide
  exact hall count h

namespace HeapSpansOk

variable {σ : CacheSession β}

/-- A request of the heap finds only spans with exactly its pages. -/
theorem reuse_eq (h : HeapSpansOk blocks σ) {count : ℕ} (hcount : count ∈ smallSpanPages)
    {sp : PageSpan} (hreuse : spanToReuse σ.cache count = some sp) : count = sp.pageCount := by
  have hmem := spanToReuse_mem hreuse
  exact spanListOf_injective hcount (h.cached hmem) (h.inv.cached hmem).2.symm

theorem alloc (hP : P.Lawful blocks) (h : HeapSpansOk blocks σ) {count : ℕ}
    (hcount : count ∈ smallSpanPages) : HeapSpansOk blocks (cacheRun P σ (.alloc count)) where
  inv := by
    refine h.inv.run hP ⟨smallSpanPages_pos hcount, smallSpanPages_le hcount⟩ ?_ ?_
    · rintro r heq
      cases heq
      exact ⟨rfl, hcount⟩
    · rintro r sp heq hreuse
      cases heq
      have hsp := h.reuse_eq hcount hreuse
      exact ⟨hsp, hsp ▸ hcount⟩
  cached := by
    intro k sp hsp
    rcases pageCacheAlloc_cases P σ.cache σ.source (smallSpanPages_pos hcount)
      (smallSpanPages_le hcount) with ⟨s, -, heq⟩ | ⟨b, -, heq⟩ | ⟨p, b, -, heq⟩
    · simp only [cacheRun, heq] at hsp
      exact h.cached (mem_of_mem_takeSpan hsp)
    · simp only [cacheRun, heq] at hsp
      exact h.cached hsp
    · simp only [cacheRun, heq] at hsp
      exact h.cached hsp

theorem start_mem (h : HeapSpansOk blocks σ) {p n : ℕ} (hheld : (p, n) ∈ σ.outstanding) :
    p < p + spanToCount σ.cache p := by
  obtain ⟨m, hin, -⟩ := h.inv.held hheld
  have hpos := hin.pos
  rw [hin.marked.spanToCount hin.pos hin.le]
  omega

theorem free (hP : P.Lawful blocks) (h : HeapSpansOk blocks σ) {p n : ℕ}
    (hheld : (p, n) ∈ σ.outstanding) :
    (pageCacheFree P σ.cache σ.source p).1 = .eok ∧
      HeapSpansOk blocks (cacheRun P σ (.free p p)) := by
  have hstart := h.start_mem hheld
  have hlegal : (CacheOp.free p p).Legal σ := ⟨⟨n, hheld⟩, Nat.le_refl p, hstart⟩
  have hinv := h.inv.run hP hlegal (fun _ heq => nomatch heq) (fun _ _ heq => nomatch heq)
  obtain ⟨m, -, ⟨rfl, hsize⟩, ⟨-, heq⟩ | ⟨-, heq⟩⟩ :=
    h.inv.pageCacheFree_held P σ.source hheld (Nat.le_refl p) hstart
  · refine ⟨by rw [heq], hinv, ?_⟩
    intro k sp hsp
    simp only [cacheRun, heq] at hsp
    exact h.cached hsp
  · refine ⟨by rw [heq], hinv, ?_⟩
    intro k sp hsp
    simp only [cacheRun, heq] at hsp
    by_cases hk : k = spanListOf n
    · subst hk
      rw [Function.update_self] at hsp
      rcases List.mem_cons.mp hsp with rfl | hsp
      · exact hsize
      · exact h.cached hsp
    · rw [Function.update_of_ne hk] at hsp
      exact h.cached hsp

end HeapSpansOk

theorem pageCacheSpans_lawful (hP : P.Lawful blocks) :
    (pageCacheSpans P).Lawful (HeapSpansOk blocks) CacheSession.outstanding where
  apart := fun h => h.inv.held_apart fun hR => Nat.le_of_eq hR.1
  alloc_none := by
    intro σ τ count h hcount halloc
    obtain ⟨hnone, rfl⟩ := Prod.mk.inj halloc
    refine ⟨h.alloc hP hcount, ?_⟩
    rcases pageCacheAlloc_cases P σ.cache σ.source (smallSpanPages_pos hcount)
      (smallSpanPages_le hcount) with ⟨s, -, heq⟩ | ⟨b, -, heq⟩ | ⟨p, b, -, heq⟩
    · rw [heq] at hnone
      cases hnone
    · simp only [cacheRun, heq]
    · rw [heq] at hnone
      cases hnone
  alloc_some := by
    intro σ τ count p h hcount halloc
    obtain ⟨hsome, rfl⟩ := Prod.mk.inj halloc
    refine ⟨h.alloc hP hcount, count, Nat.le_refl _, ?_⟩
    rcases pageCacheAlloc_cases P σ.cache σ.source (smallSpanPages_pos hcount)
      (smallSpanPages_le hcount) with ⟨s, -, heq⟩ | ⟨b, -, heq⟩ | ⟨q, b, -, heq⟩
    · rw [heq] at hsome
      cases hsome
      simp only [cacheRun, heq]
    · rw [heq] at hsome
      cases hsome
    · rw [heq] at hsome
      cases hsome
      simp only [cacheRun, heq]
  free := by
    intro σ p n h hheld
    obtain ⟨herr, hok⟩ := h.free hP hheld
    exact ⟨_, congrArg (fun e => (e, cacheRun P σ (.free p p))) herr, hok, rfl⟩
  pageToSpan := by
    intro σ p n q h hheld hlo hhi
    obtain ⟨m, hin, rfl, -⟩ := h.inv.held hheld
    exact hin.marked.pageToSpan hin.le hlo hhi

end Nxos.Mm
