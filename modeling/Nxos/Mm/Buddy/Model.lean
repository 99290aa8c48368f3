import Nxos.Base.Bitops
import Nxos.Base.Math
import Mathlib.Logic.Function.Basic

/-!
# The buddy allocator

The embedding of `mm/buddy.c`.  Pages are named by their page frame number, the
index into `map`.  A `pageBuddy` list is the list of the page frame numbers
linked into it, so the embedded list node of a page is its membership there.

The page map lies in memory that `NX_BuddyCreate` does not clear: it sets the
order of every page and nothing else.  The contents found there are an argument
of the model.
-/

namespace Nxos.Mm

/-- `NX_MAX_PAGE_ORDER`. -/
def maxPageOrder : ℕ := 20

/-- `NX_PAGE_SHIFT`. -/
def pageShift : ℕ := 12

/-- `NX_PAGE_SIZE`. -/
def pageSize : ℕ := 4096

/-- `NX_PAGE_INVALID_ORDER`. -/
def pageInvalidOrder : ℤ := -1

/-- `NX_PAGE_FLAG_IS_FREE`. -/
def pageFlagIsFree : BitVec 32 := 0x01#32

/-- `struct NX_Page`, as far as the buddy allocator uses it.  The reference count
is a machine word that moves by ones, an integer here. -/
structure Page where
  flags : BitVec 32
  order : ℤ
  reference : ℤ
  deriving DecidableEq, Repr

/-- `struct NX_BuddySystem`. -/
structure BuddySystem where
  pageBuddy : ℕ → List ℕ
  count : ℕ → ℕ
  bitmap : BitVec 64
  pageStart : ℕ
  maxPFN : ℕ
  usedPage : BitVec 64
  map : ℕ → Page

namespace BuddySystem

def modifyPage (s : BuddySystem) (page : ℕ) (f : Page → Page) : BuddySystem :=
  { s with map := Function.update s.map page (f (s.map page)) }

/-- `page->order = order`. -/
def setOrder (s : BuddySystem) (page : ℕ) (order : ℤ) : BuddySystem :=
  s.modifyPage page fun p => { p with order := order }

/-- `page->reference = reference`. -/
def setReference (s : BuddySystem) (page : ℕ) (reference : ℤ) : BuddySystem :=
  s.modifyPage page fun p => { p with reference := reference }

end BuddySystem

/-- `BuddyAddPage`. -/
def buddyAddPage (s : BuddySystem) (page : ℕ) : Exec BuddySystem :=
  let order := (s.map page).order
  if order < 0 ∨ (maxPageOrder : ℤ) < order then .error .outOfBounds
  else
    let k := order.toNat
    let s := s.modifyPage page fun p => { p with flags := p.flags ||| pageFlagIsFree }
    .ok { s with
      pageBuddy := Function.update s.pageBuddy k (s.pageBuddy k ++ [page])
      bitmap := s.bitmap ||| (1#64 <<< k)
      count := Function.update s.count k (s.count k + 1) }

/-- `BuddyDelPage`.  `NX_ListDel` unlinks the page from the list it is on. -/
def buddyDelPage (s : BuddySystem) (page : ℕ) : Exec BuddySystem :=
  let order := (s.map page).order
  if order < 0 ∨ (maxPageOrder : ℤ) < order then .error .outOfBounds
  else
    let k := order.toNat
    let s := { s with pageBuddy := fun j => (s.pageBuddy j).erase page }
    let s := s.modifyPage page fun p => { p with flags := p.flags &&& ~~~pageFlagIsFree }
    .ok { s with
      bitmap := if s.pageBuddy k = [] then s.bitmap &&& ~~~(1#64 <<< k) else s.bitmap
      count := Function.update s.count k (s.count k - 1) }

/-- `PageToPtr`. -/
def pageToPtr (s : BuddySystem) (page : ℕ) : ℕ :=
  s.pageStart + page * pageSize

/-- `NX_PageFromPtr`. -/
def pageFromPtr (s : BuddySystem) (ptr : ℕ) : Exec ℕ := do
  nxAssert (ptr % pageSize = 0)
  return (ptr - s.pageStart) / pageSize

/-- `IsValidPFN`. -/
def isValidPFN (s : BuddySystem) (pfn : ℕ) : Prop :=
  pfn ≤ s.maxPFN

instance (s : BuddySystem) (pfn : ℕ) : Decidable (isValidPFN s pfn) :=
  inferInstanceAs (Decidable (_ ≤ _))

/-- `DoPageFree`. -/
def doPageFree (page : Page) : Prop :=
  page.flags &&& pageFlagIsFree ≠ 0

instance (page : Page) : Decidable (doPageFree page) :=
  inferInstanceAs (Decidable (_ ≠ _))

/-! ## Creation -/

/-- Subtraction of two `NX_Size` values. -/
def sizeSub (a b : ℕ) : ℕ :=
  (a + (2 ^ 64 - b % 2 ^ 64)) % 2 ^ 64

/-- `sizeof(NX_BuddySystem)` on a 64-bit machine. -/
def sizeofBuddySystem : ℕ := 536

/-- `sizeof(NX_Page)` on a 64-bit machine. -/
def sizeofPage : ℕ := 40

/-- `BuddyAlignUp`, on sums that fit a machine word. -/
def buddyAlignUp (x align : ℕ) : ℕ :=
  (x + (align - 1)) / align * align

/-- The layout that `NX_BuddyCreate` computes for a zone: the address of the
first page, and the bytes from there to the end of the zone. -/
def buddyZoneLayout (mem size : ℕ) : ℕ × ℕ :=
  let mem := mem + sizeofBuddySystem
  let size := sizeSub size sizeofBuddySystem
  let pageCount := size >>> pageShift
  let mapSize := buddyAlignUp (pageCount * sizeofPage) pageSize
  let mem := mem + mapSize
  let size := sizeSub size mapSize
  let memDiff := buddyAlignUp mem pageSize - mem
  (mem + memDiff, sizeSub size memDiff)

def buddyZonePages (mem size : ℕ) : ℕ :=
  (buddyZoneLayout mem size).2 >>> pageShift

/-- The loop of `NX_BuddyCreate` that builds the free blocks.  Each round takes
at least one page, so `count` rounds suffice. -/
def buddyCreateLoop : ℕ → BuddySystem → ℕ → ℕ → Exec BuddySystem
  | 0, s, _, _ => .ok s
  | fuel + 1, s, i, count =>
      if count = 0 then .ok s
      else do
        let order := buddyFlsSizet (BitVec.ofNat 64 count)
        nxAssert (0 ≤ order)
        let order := if (maxPageOrder : ℤ) < order then (maxPageOrder : ℤ) else order
        let s ← buddyAddPage (s.setOrder i order) i
        buddyCreateLoop fuel s (i + 2 ^ order.toNat) (count - 2 ^ order.toNat)

/-- The system before its first block is built.  `raw` is what the memory of the
page map holds; `NX_BuddyCreate` writes the orders there and nothing else. -/
def buddyZoneInit (raw : ℕ → Page) (mem size : ℕ) : BuddySystem where
  pageBuddy := fun _ => []
  count := fun _ => 0
  bitmap := 0
  pageStart := (buddyZoneLayout mem size).1
  maxPFN := sizeSub (buddyZonePages mem size) 1
  usedPage := BitVec.ofNat 64 (sizeSub size (buddyZoneLayout mem size).2 >>> pageShift)
  map := fun i =>
    if i < buddyZonePages mem size then { raw i with order := pageInvalidOrder }
    else raw i

/-- `NX_BuddyCreate`. -/
def buddyCreate (raw : ℕ → Page) (mem size : ℕ) : Exec BuddySystem := do
  nxAssert (mem ≠ 0 ∧ size ≠ 0)
  nxAssert ((buddyZoneLayout mem size).1 % pageSize = 0)
  buddyCreateLoop (buddyZonePages mem size) (buddyZoneInit raw mem size) 0
    (buddyZonePages mem size)

/-! ## Allocation -/

/-- `BuddyLocateFree`.  The entry of an empty list is no page. -/
def buddyLocateFree (s : BuddySystem) (order : ℤ) : Exec (Option ℕ) := do
  nxAssert (0 ≤ order)
  if (maxPageOrder : ℤ) < order then .error .outOfBounds
  else
    nxAssert ((s.pageBuddy order.toNat = []) ↔ s.count order.toNat = 0)
    if s.pageBuddy order.toNat = [] then
      let bitmap := s.bitmap &&& (BitVec.allOnes 64 <<< order.toNat)
      if bitmap = 0 then .ok none
      else
        let order := buddyFfsSizet bitmap
        nxAssert (0 ≤ order)
        match (s.pageBuddy order.toNat).getLast? with
        | some page => .ok (some page)
        | none => .error .outOfBounds
    else .ok (s.pageBuddy order.toNat).getLast?

/-- The loop of `PageSplit`, with `n = i - order` rounds to go. -/
def pageSplitLoop : ℕ → BuddySystem → ℕ → ℕ → Exec BuddySystem
  | 0, s, _, _ => .ok s
  | n + 1, s, page, order => do
      let new := order + n
      let buddy := page + 2 ^ new
      let s ← buddyAddPage (s.setOrder buddy new) buddy
      pageSplitLoop n s page order

/-- `PageSplit`. -/
def pageSplit (s : BuddySystem) (page : ℕ) (order : ℤ) : Exec BuddySystem := do
  nxAssert (0 ≤ order)
  let s ← pageSplitLoop ((s.map page).order - order).toNat s page order.toNat
  return s.setOrder page order

/-- `PagePrepareUsed`. -/
def pagePrepareUsed (s : BuddySystem) (page : ℕ) (order : ℤ) :
    Exec (ℕ × BuddySystem) := do
  nxAssert (0 ≤ order)
  let s ← buddyDelPage s page
  let splitPage : Exec BuddySystem :=
    if order < (s.map page).order then pageSplit s page order else .ok s
  let s ← splitPage
  let s := s.setReference page 1
  let s := { s with usedPage := s.usedPage + BitVec.ofInt 64 (nxPowInt 2 order) }
  return (pageToPtr s page, s)

/-- `NX_BuddyAllocPage`. -/
def buddyAllocPage (s : BuddySystem) (count : BitVec 64) :
    Exec (Option ℕ × BuddySystem) := do
  nxAssert (count ≠ 0)
  let order := buddyFlsSizet (count + ((1#64 <<< (buddyFlsSizet count).toNat) - 1))
  match ← buddyLocateFree s order with
  | none => return (none, s)
  | some page => do
      let (ptr, s) ← pagePrepareUsed s page order
      return (some ptr, s)

/-! ## References and release -/

/-- `NX_BuddyIncreasePage`. -/
def buddyIncreasePage (s : BuddySystem) (ptr : ℕ) : Exec (NxError × BuddySystem) := do
  nxAssert (ptr ≠ 0)
  if ptr < s.pageStart ∨ s.pageStart + (s.maxPFN + 1) * pageSize ≤ ptr then
    return (.einval, s)
  let page ← pageFromPtr s ptr
  return (.eok, s.setReference page ((s.map page).reference + 1))

/-- The loop of `PageMerge`, with `21 - order` rounds left.  It returns the
position and the order of the merged block, before `page->order` is written. -/
def pageMergeLoop : ℕ → BuddySystem → ℕ → ℕ → Exec (BuddySystem × ℕ × ℕ)
  | 0, s, pfn, order => .ok (s, pfn, order)
  | rounds + 1, s, pfn, order =>
      let buddyPFN := pfn ^^^ 2 ^ order
      if ¬isValidPFN s buddyPFN then .ok (s, pfn, order)
      else if (s.map buddyPFN).order ≠ order then .ok (s, pfn, order)
      else if ¬doPageFree (s.map buddyPFN) then .ok (s, pfn, order)
      else do
        let s ← buddyDelPage s buddyPFN
        let privatePFN := buddyPFN ||| pfn
        let s := s.setOrder privatePFN pageInvalidOrder
        pageMergeLoop rounds s (buddyPFN &&& pfn) (order + 1)

/-- `PageMerge`.  A shift by a negative order is undefined. -/
def pageMerge (s : BuddySystem) (page : ℕ) : Exec (ℕ × BuddySystem) := do
  let order := (s.map page).order
  if order < 0 then .error .outOfBounds
  else
    let (s, page, order) ←
      pageMergeLoop (maxPageOrder + 1 - order.toNat) s page order.toNat
    return (page, s.setOrder page order)

/-- `NX_PAGE_INVALID_ADDR`. -/
def pageInvalidAddr (s : BuddySystem) (ptr : ℕ) : Prop :=
  ptr < s.pageStart ∨ s.pageStart + s.maxPFN * pageSize < ptr

instance (s : BuddySystem) (ptr : ℕ) : Decidable (pageInvalidAddr s ptr) :=
  inferInstanceAs (Decidable (_ ∨ _))

/-- `NX_BuddyFreePage`.  The assertion that the unsigned `usedPage` is not negative
holds of every value. -/
def buddyFreePage (s : BuddySystem) (ptr : ℕ) : Exec (NxError × BuddySystem) := do
  nxAssert (ptr ≠ 0)
  if pageInvalidAddr s ptr then return (.einval, s)
  let page ← pageFromPtr s ptr
  if doPageFree (s.map page) then return (.efault, s)
  nxAssert (0 < (s.map page).reference)
  let s := s.setReference page ((s.map page).reference - 1)
  if 0 < (s.map page).reference then return (.eagain, s)
  let s := { s with usedPage := s.usedPage - BitVec.ofInt 64 (nxPowInt 2 (s.map page).order) }
  let (page, s) ← pageMerge s page
  let s ← buddyAddPage s page
  return (.eok, s)

end Nxos.Mm
