import Mathlib.Logic.Function.Basic
import Nxos.Base.Kernel

/-!
# The heap cache

The embedding of `mm/heap_cache.c`.  Addresses are counted from the start of the
page zone, so that page `p` begins at `p * 4096`.  Requests up to 256 KB are
rounded to one of 96 size classes.  Each class has a cache: a list of spans that
are cut into objects, with a header in front.  The header of a span
(`struct NX_HeapSmallCacheSystem`) is a record here, and a span stays on the list
of its cache as long as the heap holds it.

The page cache behind the heap is an abstract state with the operations that the
heap calls.
-/

namespace Nxos.Mm

/-- What the heap calls: `NX_PageCacheAlloc` with a page count, `NX_PageCacheFree`
and `NX_PageToSpan` with a page. -/
structure SpanSource (γ : Type) where
  pageCacheAlloc : γ → ℕ → Option ℕ × γ
  pageCacheFree : γ → ℕ → NxError × γ
  pageToSpan : γ → ℕ → ℕ

/-! ## Size classes -/

/-- `MAX_SMALL_OBJECT_SIZE`. -/
def maxSmallObjectSize : ℕ := 262144

/-- `MAX_MIDDLE_OBJECT_SIZE`. -/
def maxMiddleObjectSize : ℕ := 1048576

/-- `MAX_SMALL_SPAN_THRESOLD`. -/
def maxSmallSpanThreshold : ℕ := 8

/-- `MAX_MIDDLE_OBJECT_THRESOLD`. -/
def maxMiddleObjectThreshold : ℕ := 32

/-- The loop of `AlignDownToPow2`; `NX_PowInt(2, n)` is `2 ^ n`. -/
def alignDownLoop (size : ℕ) : ℕ → ℕ
  | 0 => 1
  | n + 1 => if size < 2 ^ (n + 1) then alignDownLoop size n else 2 ^ (n + 1)

/-- `AlignDownToPow2`. -/
def alignDownToPow2 (size : ℕ) : ℕ :=
  alignDownLoop size 19

/-- The last loop of `HeapSizeClassInit`. -/
def sizeClassLoop : ℕ → ℕ → List ℕ
  | 0, _ => []
  | fuel + 1, i =>
      if i ≤ maxSmallObjectSize then
        i :: sizeClassLoop fuel (i + alignDownToPow2 (i / 8))
      else []

/-- The sizes that `HeapSizeClassInit` writes to `cacheSizeAarray`. -/
def heapSizeClasses : List ℕ :=
  16 :: (List.range' 32 7 16 ++ sizeClassLoop 96 144)

/-- `cacheSizeAarray[i].cache.classSize`. -/
def classSize (i : ℕ) : ℕ :=
  heapSizeClasses.getD i 0

/-- `NX_DIV_ROUND_UP` on machine words. -/
def divRoundUp (x step : ℕ) : ℕ :=
  (x + step - 1) % 2 ^ 64 / step

/-- `SizeToPageCount`. -/
def sizeToPageCount (size : ℕ) : ℕ :=
  if 0 < size ∧ size ≤ 1024 then 1
  else if 1024 < size ∧ size ≤ 8192 then 4
  else if 8192 < size ∧ size ≤ 36864 then 18
  else if 36864 < size ∧ size ≤ 104096 then 52
  else if 104096 < size ∧ size ≤ 262144 then 256
  else divRoundUp size 4096

/-- `SizeToCache`: the index of the first class with at least `size` bytes. -/
def sizeToCache (size : ℕ) : Exec (Option ℕ) := do
  nxAssert (size ≤ maxSmallObjectSize)
  return heapSizeClasses.findIdx? fun c => size ≤ c

/-! ## Spans and caches -/

/-- `struct NX_HeapSmallCacheSystem` at the start of the span `page`. -/
structure SmallSystem where
  page : ℕ
  pageCount : ℕ
  objectFreeList : List ℕ
  objectFreeCount : ℕ
  maxObjects : ℕ
  deriving DecidableEq, Repr

/-- `sizeof(NX_HeapSmallCacheSystem)` on a 64-bit machine. -/
def sizeofSmallSystem : ℕ := 56

/-- The caches and the size classes of the pages.  `smallList i` and `smallCount i`
are the fields `objectFreeList` and `objectFreeCount` of `cacheSizeAarray[i].cache`. -/
structure HeapCaches where
  smallList : ℕ → List SmallSystem
  smallCount : ℕ → ℕ
  middleList : List ℕ
  middleCount : ℕ
  sizeClass : ℕ → ℕ

/-- The state after `NX_HeapCacheInit`. -/
def heapCacheInit : HeapCaches where
  smallList := fun _ => []
  smallCount := fun _ => 0
  middleList := []
  middleCount := 0
  sizeClass := fun _ => 0

/-- The objects that the loop of `BuildSmallCacheSystem` puts on the free list. -/
def buildObjects (size : ℕ) : ℕ → ℕ → List ℕ
  | 0, _ => []
  | n + 1, start => start :: buildObjects size n (start + size)

def systemUsedObjectCount (size : ℕ) : ℕ :=
  divRoundUp sizeofSmallSystem size

/-- `BuildSmallCacheSystem`. -/
def buildSmallCacheSystem (page pageCount objectCount size : ℕ) : Exec SmallSystem := do
  let used := systemUsedObjectCount size
  let objects := buildObjects size (objectCount - used) (page * 4096 + used * size)
  nxAssert (1 ≤ objects.length)
  nxAssert (objects.length = objectCount - used)
  return ⟨page, pageCount, objects, objects.length, objectCount - used⟩

/-- `PageNodeMarkSize`. -/
def pageNodeMarkSize (h : HeapCaches) (page size : ℕ) : HeapCaches :=
  { h with sizeClass := Function.update h.sizeClass page size }

def writeSystem (h : HeapCaches) (i : ℕ) (S : SmallSystem) : HeapCaches :=
  { h with
    smallList := Function.update h.smallList i
      ((h.smallList i).map fun s => if s.page = S.page then S else s) }

section Operations

variable {γ : Type} (P : SpanSource γ)

/-- `AllocSpan` for the cache `i`.  The flag says whether there was memory. -/
def allocSpan (h : HeapCaches) (g : γ) (i pageCount objectCount size : ℕ) :
    Exec (Bool × HeapCaches × γ) :=
  match P.pageCacheAlloc g pageCount with
  | (none, g) => .ok (false, h, g)
  | (some page, g) => do
      let S ← buildSmallCacheSystem page pageCount objectCount size
      let h := { h with
        smallList := Function.update h.smallList i (S :: h.smallList i)
        smallCount := Function.update h.smallCount i (h.smallCount i + 1) }
      return (true, pageNodeMarkSize h page size, g)

/-- `AllocSpan` for the middle cache. -/
def allocMiddleSpan (h : HeapCaches) (g : γ) (pageCount size : ℕ) :
    Bool × HeapCaches × γ :=
  match P.pageCacheAlloc g pageCount with
  | (none, g) => (false, h, g)
  | (some page, g) =>
      let h := { h with
        middleList := page :: h.middleList
        middleCount := h.middleCount + 1 }
      (true, pageNodeMarkSize h page size, g)

/-- `GetFreeSmallCacheSystem`. -/
def getFreeSmallCacheSystem (h : HeapCaches) (i : ℕ) : Option SmallSystem :=
  (h.smallList i).find? fun S => S.objectFreeList ≠ []

/-- `GetFreeSmallCacheObject`. -/
def getFreeSmallCacheObject (h : HeapCaches) (i : ℕ) (S : SmallSystem) :
    Option ℕ × HeapCaches :=
  match S.objectFreeList with
  | [] => (none, h)
  | object :: rest =>
      (some object, writeSystem h i
        { S with objectFreeList := rest, objectFreeCount := S.objectFreeCount - 1 })

/-- The loop of `AllocSmallObject`. -/
def allocSmallLoop (i pageCount objectCount size : ℕ) :
    ℕ → HeapCaches → γ → Exec (Option ℕ × HeapCaches × γ)
  | 0, _, _ => .error .diverge
  | fuel + 1, h, g =>
      match getFreeSmallCacheSystem h i with
      | some S =>
          let (object, h) := getFreeSmallCacheObject h i S
          .ok (object, h, g)
      | none => do
          let (ok, h, g) ← allocSpan P h g i pageCount objectCount size
          if ok then
            nxAssert (0 < h.smallCount i)
            nxAssert (h.smallList i ≠ [])
            allocSmallLoop i pageCount objectCount size fuel h g
          else .ok (none, h, g)

/-- `AllocSmallObject`.  A new span has a free object, so the loop runs at most
twice. -/
def allocSmallObject (h : HeapCaches) (g : γ) (i pageCount objectCount size : ℕ) :
    Exec (Option ℕ × HeapCaches × γ) :=
  allocSmallLoop P i pageCount objectCount size 2 h g

/-- The part of `NX_HeapAlloc` for the small caches. -/
def heapAllocSmall (h : HeapCaches) (g : γ) (i pageCount : ℕ) :
    Exec (Option ℕ × HeapCaches × γ) := do
  let size := classSize i
  let objectCount := pageCount * 4096 / size
  let (ok, h, g) ←
    if h.smallList i = [] then allocSpan P h g i pageCount objectCount size
    else .ok (true, h, g)
  if ok then
    nxAssert (0 < h.smallCount i)
    nxAssert (h.smallList i ≠ [])
    allocSmallObject P h g i pageCount objectCount size
  else .ok (none, h, g)

/-- The part of `NX_HeapAlloc` for the middle cache. -/
def heapAllocMiddle (h : HeapCaches) (g : γ) (pageCount : ℕ) :
    Exec (Option ℕ × HeapCaches × γ) := do
  let (ok, h, g) :=
    if h.middleList = [] then allocMiddleSpan P h g pageCount maxMiddleObjectSize
    else (true, h, g)
  if ok then
    nxAssert (0 < h.middleCount)
    match h.middleList with
    | [] => .error .assertion
    | page :: rest =>
        .ok (some (page * 4096),
          { h with middleList := rest, middleCount := h.middleCount - 1 }, g)
  else .ok (none, h, g)

/-- The part of `NX_HeapAlloc` that goes to the page cache directly. -/
def heapAllocLarge (h : HeapCaches) (g : γ) (size : ℕ) : Option ℕ × HeapCaches × γ :=
  match P.pageCacheAlloc g (divRoundUp size 4096) with
  | (none, g) => (none, h, g)
  | (some page, g) => (some (page * 4096), pageNodeMarkSize h page size, g)

/-- `NX_HeapAlloc`.  Rounding the size up to 16 bytes wraps around for the largest
sizes. -/
def heapAlloc (h : HeapCaches) (g : γ) (size : BitVec 64) :
    Exec (Option ℕ × HeapCaches × γ) :=
  if size = 0 then .ok (none, h, g)
  else
    let size := (size.toNat + 15) % 2 ^ 64 / 16 * 16
    let pageCount := sizeToPageCount size
    if maxSmallObjectSize < size then
      if maxMiddleObjectSize < size then .ok (heapAllocLarge P h g size)
      else heapAllocMiddle P h g pageCount
    else do
      match ← sizeToCache size with
      | none => .error .nullDeref
      | some i => heapAllocSmall P h g i pageCount

/-- `NX_HeapGetObjectSize`. -/
def heapGetObjectSize (h : HeapCaches) (g : γ) (object : ℕ) : ℕ :=
  h.sizeClass (P.pageToSpan g (object / 4096))

/-- `PutFreeSmallCacheObject`. -/
def putFreeSmallCacheObject (h : HeapCaches) (g : γ) (i : ℕ) (S : SmallSystem)
    (object : ℕ) : NxError × HeapCaches × γ :=
  if S.maxObjects ≤ S.objectFreeCount + 1 ∧ maxSmallSpanThreshold ≤ h.smallCount i + 1 then
    let h := { h with
      smallList := Function.update h.smallList i
        ((h.smallList i).filter fun s => s.page ≠ S.page)
      smallCount := Function.update h.smallCount i (h.smallCount i - 1) }
    let (err, g) := P.pageCacheFree g S.page
    (err, pageNodeMarkSize h S.page 0, g)
  else
    (.eok, writeSystem h i
      { S with
        objectFreeList := S.objectFreeList ++ [object]
        objectFreeCount := S.objectFreeCount + 1 }, g)

/-- `FreeSmallObject`.  The header is read where the span starts; memory that holds
no header of the cache has no meaning here. -/
def freeSmallObject (h : HeapCaches) (g : γ) (span object : ℕ) :
    Exec (NxError × HeapCaches × γ) := do
  match ← sizeToCache (h.sizeClass span) with
  | none => .error .assertion
  | some i =>
      match (h.smallList i).find? fun S => S.page = span with
      | none => .error .outOfBounds
      | some S => .ok (putFreeSmallCacheObject P h g i S object)

/-- The part of `NX_HeapFree` for the middle cache. -/
def heapFreeMiddle (h : HeapCaches) (g : γ) (span : ℕ) : NxError × HeapCaches × γ :=
  if maxMiddleObjectThreshold ≤ h.middleCount + 1 then
    let (err, g) := P.pageCacheFree g span
    (err, pageNodeMarkSize h span 0, g)
  else
    (.eok, { h with
      middleList := span :: h.middleList, middleCount := h.middleCount + 1 }, g)

/-- `NX_HeapFree`. -/
def heapFree (h : HeapCaches) (g : γ) (object : ℕ) : Exec (NxError × HeapCaches × γ) :=
  let span := P.pageToSpan g (object / 4096)
  let sizeClass := heapGetObjectSize P h g object
  if sizeClass = 0 then .ok (.efault, h, g)
  else if maxSmallObjectSize < sizeClass then
    if maxMiddleObjectSize < sizeClass then
      let (err, g) := P.pageCacheFree g span
      .ok (err, h, g)
    else .ok (heapFreeMiddle P h g span)
  else freeSmallObject P h g span object

end Operations

end Nxos.Mm
