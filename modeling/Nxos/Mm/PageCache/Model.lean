import Mathlib.Logic.Function.Basic
import Nxos.Base.Kernel

/-!
# The page cache

The embedding of `mm/page_cache.c`.  Pages are named by their number, counted
from `spanBaseAddr`.  Freed spans are kept on lists, one for each page count
below `SMALL_SPAN_PAGES_MAX` and one for all larger spans.  The pointers
`listHead` and `freeCount` of the source select a list; here a list is selected
by an index, and the large list has the index `SMALL_SPAN_PAGES_MAX`.

The buddy allocator behind the cache is an abstract state with the two
operations that the cache calls.
-/

namespace Nxos.Mm

/-- `SMALL_SPAN_PAGES_MAX`. -/
def smallSpanPagesMax : ℕ := 128

/-- `NX_PAGE_CACHE_MAX_PAGES`. -/
def pageCacheMaxPages : ℕ := 2048

/-- What the page cache calls: `PageAllocVirtual` with a page count, and
`PageFreeVirtual`. -/
structure PageSource (β : Type) where
  pageAlloc : β → ℕ → Option ℕ × β
  pageFree : β → ℕ → β

/-- `struct SpanMark`. -/
structure SpanMark where
  count : BitVec 16
  idx : BitVec 16
  deriving DecidableEq, Repr

/-- A cached span: its first page, and the `struct NX_PageSpan` stored there. -/
structure PageSpan where
  page : ℕ
  pageCount : ℕ
  deriving DecidableEq, Repr

/-- `struct PageCache` and the span marks.  The entry `SMALL_SPAN_PAGES_MAX` of the
lists and counters stands for `largeSpanFreeList` and `largeSpanFreeCount`. -/
structure PageCache where
  spanFreeList : ℕ → List PageSpan
  spanFreeCount : ℕ → ℕ
  spanMarkMap : ℕ → SpanMark

/-- The state after `NX_PageCacheInit`. -/
def pageCacheInit : PageCache where
  spanFreeList := fun _ => []
  spanFreeCount := fun _ => 0
  spanMarkMap := fun _ => ⟨0, 0⟩

/-- The list that holds the spans with `count` pages. -/
def spanListOf (count : ℕ) : ℕ :=
  if smallSpanPagesMax ≤ count then smallSpanPagesMax else count

/-- The loops of `MarkSpan` and `ClearSpan`: page `i` of the span gets the mark
`mark i`. -/
def markLoop (marks : ℕ → SpanMark) (span : ℕ) (mark : ℕ → SpanMark) : ℕ → ℕ → SpanMark
  | 0 => marks
  | i + 1 => Function.update (markLoop marks span mark i) (span + i) (mark i)

/-- `MarkSpan`. -/
def markSpan (marks : ℕ → SpanMark) (span count : ℕ) : ℕ → SpanMark :=
  markLoop marks span (fun i => ⟨BitVec.ofNat 16 count, BitVec.ofNat 16 i⟩) count

/-- `ClearSpan`. -/
def clearSpan (marks : ℕ → SpanMark) (span count : ℕ) : ℕ → SpanMark :=
  markLoop marks span (fun _ => ⟨0, 0⟩) count

/-- `NX_PageToSpan`. -/
def pageToSpan (c : PageCache) (page : ℕ) : ℕ :=
  page - (c.spanMarkMap page).idx.toNat

/-- `NX_SpanToCount`. -/
def spanToCount (c : PageCache) (span : ℕ) : ℕ :=
  (c.spanMarkMap span).count.toNat

/-- The search of `__PageCacheAlloc` in the large list. -/
def bestSpan : Option PageSpan → List PageSpan → Option PageSpan
  | best, [] => best
  | none, span :: rest => bestSpan (some span) rest
  | some best, span :: rest =>
      if span.page ≠ best.page ∧ span.pageCount < best.pageCount then
        bestSpan (some span) rest
      else bestSpan (some best) rest

/-- The cached span that `__PageCacheAlloc` takes: the best one of the large list,
the first one of the others. -/
def spanToReuse (c : PageCache) (count : ℕ) : Option PageSpan :=
  if smallSpanPagesMax ≤ count then bestSpan none (c.spanFreeList smallSpanPagesMax)
  else (c.spanFreeList count).head?

/-- `NX_ListDelInit` of a span and `NX_AtomicDec` of its list's counter. -/
def takeSpan (c : PageCache) (k : ℕ) (span : PageSpan) : PageCache :=
  { c with
    spanFreeList := Function.update c.spanFreeList k
      ((c.spanFreeList k).filter fun s => s.page ≠ span.page)
    spanFreeCount := Function.update c.spanFreeCount k (c.spanFreeCount k - 1) }

section Operations

variable {β : Type} (P : PageSource β)

/-- `__PageCacheAlloc`. -/
def pageCacheAllocInternal (c : PageCache) (b : β) (count : ℕ) :
    Option ℕ × PageCache × β :=
  match spanToReuse c count with
  | none =>
      match P.pageAlloc b count with
      | (none, b) => (none, c, b)
      | (some span, b) =>
          (some span, { c with spanMarkMap := markSpan c.spanMarkMap span count }, b)
  | some span => (some span.page, takeSpan c (spanListOf count) span, b)

/-- `NX_PageCacheAlloc`. -/
def pageCacheAlloc (c : PageCache) (b : β) (count : ℕ) : Option ℕ × PageCache × β :=
  if count = 0 then (none, c, b)
  else if pageCacheMaxPages < count then (none, c, b)
  else pageCacheAllocInternal P c b count

/-- The threshold of `__PageCacheFree` for the list `k`. -/
def spanFreeThreshold (k : ℕ) : ℕ :=
  if smallSpanPagesMax ≤ k then 32 else if k = 1 then 1024 else 64

/-- `__PageCacheFree`.  A page always has a number, so that only the count of its
span can be wrong. -/
def pageCacheFreeInternal (c : PageCache) (b : β) (page : ℕ) : NxError × PageCache × β :=
  let span := pageToSpan c page
  let count := spanToCount c span
  if count = 0 then (.efault, c, b)
  else
    let k := spanListOf count
    if spanFreeThreshold k ≤ c.spanFreeCount k then
      (.eok, { c with spanMarkMap := clearSpan c.spanMarkMap span count },
        P.pageFree b span)
    else
      (.eok, { c with
        spanFreeList :=
          Function.update c.spanFreeList k (⟨span, count⟩ :: c.spanFreeList k)
        spanFreeCount := Function.update c.spanFreeCount k (c.spanFreeCount k + 1) }, b)

/-- `NX_PageCacheFree`. -/
def pageCacheFree (c : PageCache) (b : β) (page : ℕ) : NxError × PageCache × β :=
  pageCacheFreeInternal P c b page

end Operations

end Nxos.Mm
