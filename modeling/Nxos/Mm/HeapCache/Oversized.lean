import Nxos.Mm.HeapCache.Middle

/-!
# Requests for more than the page cache hands out

The page cache hands out at most 2048 pages, so that the heap refuses every request above
8 MB.  Rounding the size up to 16 bytes wraps around for the last fifteen sizes: such a request
counts as one for nothing, goes to the cache of the smallest class and gets an object of
16 bytes when there is a free one.

A refusal must pass the assertion that a cache with spans counts at least one, so the states
that calls reach count their spans.
-/

namespace Nxos.Mm

open Nxos.Transition

/-- `NX_HeapAlloc` or `NX_HeapFree` with any argument, when the call returns. -/
def HeapCall {γ : Type} (P : SpanSource γ) (σ : HeapSession γ) (op : HeapOp) (τ : HeapSession γ) :
    Prop :=
  heapRun P σ op = .ok τ

/-! ## The spans of a cache are counted -/

def SpansCounted (h : HeapCaches) : Prop :=
  ∀ i, (h.smallList i).length ≤ h.smallCount i

theorem spansCounted_init : SpansCounted heapCacheInit :=
  fun _ => Nat.le_refl 0

theorem SpansCounted.frame {h h' : HeapCaches} (hcounted : SpansCounted h)
    (hlength : ∀ i, (h'.smallList i).length = (h.smallList i).length)
    (hcount : h'.smallCount = h.smallCount) : SpansCounted h' := by
  intro i
  rw [hlength, hcount]
  exact hcounted i

theorem length_smallList_writeSystem (h : HeapCaches) (i j : ℕ) (S : SmallSystem) :
    ((writeSystem h i S).smallList j).length = (h.smallList j).length := by
  change (Function.update h.smallList i _ j).length = _
  by_cases hj : j = i
  · subst hj
    rw [Function.update_self, List.length_map]
  · rw [Function.update_of_ne hj]

section Counted

variable {γ : Type} {P : SpanSource γ} {h h' : HeapCaches} {g g' : γ} {i : ℕ}

theorem SpansCounted.writeSystem (hcounted : SpansCounted h) (S : SmallSystem) :
    SpansCounted (writeSystem h i S) :=
  hcounted.frame (fun j => length_smallList_writeSystem h i j S) rfl

theorem SpansCounted.allocSpan (hcounted : SpansCounted h) {pageCount objectCount size : ℕ}
    {b : Bool} (hrun : allocSpan P h g i pageCount objectCount size = .ok (b, h', g')) :
    SpansCounted h' := by
  unfold Mm.allocSpan at hrun
  rcases halloc : P.pageCacheAlloc g pageCount with ⟨_ | p, g₁⟩
  · rw [halloc] at hrun
    cases hrun
    exact hcounted
  · rw [halloc] at hrun
    obtain ⟨S, -, hrun⟩ := exec_bind_eq_ok_iff.mp hrun
    cases hrun
    intro j
    change (Function.update h.smallList i _ j).length ≤ Function.update h.smallCount i _ j
    by_cases hj : j = i
    · subst hj
      rw [Function.update_self, Function.update_self, List.length_cons]
      exact Nat.succ_le_succ (hcounted j)
    · rw [Function.update_of_ne hj, Function.update_of_ne hj]
      exact hcounted j

theorem SpansCounted.allocSmallLoop (hcounted : SpansCounted h)
    {pageCount objectCount size fuel : ℕ} {r : Option ℕ}
    (hrun : allocSmallLoop P i pageCount objectCount size fuel h g = .ok (r, h', g')) :
    SpansCounted h' := by
  induction fuel generalizing h g with
  | zero => cases hrun
  | succ fuel ih =>
      rw [Mm.allocSmallLoop] at hrun
      cases hfind : getFreeSmallCacheSystem h i with
      | some S =>
          rw [hfind] at hrun
          cases hrun
          cases S.objectFreeList with
          | nil => exact hcounted
          | cons object rest => exact hcounted.writeSystem _
      | none =>
          rw [hfind] at hrun
          obtain ⟨⟨b, h₁, g₁⟩, hspan, hrun⟩ := exec_bind_eq_ok_iff.mp hrun
          have hcounted₁ := hcounted.allocSpan hspan
          cases b with
          | false =>
              cases hrun
              exact hcounted₁
          | true =>
              obtain ⟨_, -, hrun⟩ := exec_bind_eq_ok_iff.mp hrun
              obtain ⟨_, -, hrun⟩ := exec_bind_eq_ok_iff.mp hrun
              exact ih hcounted₁ hrun

theorem SpansCounted.heapAllocSmall (hcounted : SpansCounted h) {pageCount : ℕ} {r : Option ℕ}
    (hrun : heapAllocSmall P h g i pageCount = .ok (r, h', g')) : SpansCounted h' := by
  rw [heapAllocSmall_eq] at hrun
  obtain ⟨⟨b, h₁, g₁⟩, hspan, hrun⟩ := exec_bind_eq_ok_iff.mp hrun
  have hcounted₁ : SpansCounted h₁ := by
    split_ifs at hspan with hempty
    · exact hcounted.allocSpan hspan
    · cases hspan
      exact hcounted
  cases b with
  | false =>
      cases hrun
      exact hcounted₁
  | true =>
      obtain ⟨_, -, hrun⟩ := exec_bind_eq_ok_iff.mp hrun
      obtain ⟨_, -, hrun⟩ := exec_bind_eq_ok_iff.mp hrun
      exact hcounted₁.allocSmallLoop hrun

theorem SpansCounted.heapAllocMiddle (hcounted : SpansCounted h) {pageCount : ℕ} {r : Option ℕ}
    (hrun : heapAllocMiddle P h g pageCount = .ok (r, h', g')) : SpansCounted h' := by
  unfold Mm.heapAllocMiddle at hrun
  split_ifs at hrun with hempty
  · unfold allocMiddleSpan at hrun
    rcases halloc : P.pageCacheAlloc g pageCount with ⟨_ | p, g₁⟩
    · rw [halloc] at hrun
      cases hrun
      exact hcounted
    · rw [halloc] at hrun
      obtain ⟨_, -, hrun⟩ := exec_bind_eq_ok_iff.mp hrun
      cases hrun
      exact hcounted
  · obtain ⟨_, -, hrun⟩ := exec_bind_eq_ok_iff.mp hrun
    cases hlist : h.middleList with
    | nil => exact absurd hlist hempty
    | cons p rest =>
        simp only [hlist] at hrun
        cases hrun
        exact hcounted

theorem SpansCounted.heapAllocLarge (hcounted : SpansCounted h) (size : ℕ) :
    SpansCounted (heapAllocLarge P h g size).2.1 := by
  unfold Mm.heapAllocLarge
  rcases P.pageCacheAlloc g (divRoundUp size 4096) with ⟨_ | p, g₁⟩
  · exact hcounted
  · exact hcounted

theorem SpansCounted.heapAlloc (hcounted : SpansCounted h) {size : BitVec 64} {r : Option ℕ}
    (hrun : heapAlloc P h g size = .ok (r, h', g')) : SpansCounted h' := by
  by_cases hne : size = 0
  · unfold Mm.heapAlloc at hrun
    rw [if_pos hne] at hrun
    cases hrun
    exact hcounted
  · rcases Nat.lt_or_ge maxSmallObjectSize (roundedSize size) with hlo | hsmall
    · rcases Nat.lt_or_ge maxMiddleObjectSize (roundedSize size) with hlarge | hhi
      · rw [heapAlloc_large hne hlarge] at hrun
        have hcounted' := hcounted.heapAllocLarge (P := P) (g := g) (roundedSize size)
        rw [Except.ok.inj hrun] at hcounted'
        exact hcounted'
      · rw [heapAlloc_middle hne hlo hhi] at hrun
        exact hcounted.heapAllocMiddle hrun
    · obtain ⟨i, heq⟩ := heapAlloc_small (P := P) (h := h) (g := g) hne hsmall
      rw [heq] at hrun
      exact hcounted.heapAllocSmall hrun

theorem SpansCounted.putFreeSmallCacheObject (hcounted : SpansCounted h) {S : SmallSystem}
    (hS : S ∈ h.smallList i) (object : ℕ) :
    SpansCounted (putFreeSmallCacheObject P h g i S object).2.1 := by
  unfold Mm.putFreeSmallCacheObject
  split_ifs with hlast
  · intro j
    change (Function.update h.smallList i _ j).length ≤ Function.update h.smallCount i _ j
    by_cases hj : j = i
    · subst hj
      rw [Function.update_self, Function.update_self]
      have hshort : ((h.smallList j).filter fun s => s.page ≠ S.page).length <
          (h.smallList j).length := by
        refine List.length_filter_lt_length_iff_exists.mpr ⟨S, hS, ?_⟩
        simp
      have hle := hcounted j
      omega
    · rw [Function.update_of_ne hj, Function.update_of_ne hj]
      exact hcounted j
  · exact hcounted.writeSystem _

theorem SpansCounted.heapFree (hcounted : SpansCounted h) {object : ℕ} {e : NxError}
    (hrun : heapFree P h g object = .ok (e, h', g')) : SpansCounted h' := by
  unfold Mm.heapFree at hrun
  dsimp only at hrun
  split_ifs at hrun with hzero hsmall hmiddle
  · cases hrun
    exact hcounted
  · cases hrun
    exact hcounted
  · unfold heapFreeMiddle at hrun
    split_ifs at hrun with hfull
    · cases hrun
      exact hcounted
    · cases hrun
      exact hcounted
  · unfold freeSmallObject at hrun
    obtain ⟨i, -, hrun⟩ := exec_bind_eq_ok_iff.mp hrun
    cases i with
    | none => cases hrun
    | some i =>
        dsimp only at hrun
        cases hfind : (h.smallList i).find? fun S =>
            S.page = P.pageToSpan g (object / 4096) with
        | none =>
            rw [hfind] at hrun
            cases hrun
        | some S =>
            rw [hfind] at hrun
            have hcounted' := hcounted.putFreeSmallCacheObject (P := P) (g := g)
              (List.mem_of_find?_eq_some hfind) object
            rw [Except.ok.inj hrun] at hcounted'
            exact hcounted'

theorem SpansCounted.call {σ τ : HeapSession γ} {op : HeapOp} (hcounted : SpansCounted σ.caches)
    (hcall : HeapCall P σ op τ) : SpansCounted τ.caches := by
  cases op with
  | alloc size =>
      obtain ⟨⟨r, h', g'⟩, halloc, hrun⟩ := exec_bind_eq_ok_iff.mp hcall
      have hcounted' := hcounted.heapAlloc halloc
      cases r with
      | none =>
          cases hrun
          exact hcounted'
      | some a =>
          cases hrun
          exact hcounted'
  | free object =>
      obtain ⟨⟨e, h', g'⟩, hfree, hrun⟩ := exec_bind_eq_ok_iff.mp hcall
      cases hrun
      exact hcounted.heapFree hfree

end Counted

/-! ## Refusals -/

/-- `NX_HeapAlloc` returns `NX_NULL` and changes neither the caches nor the page cache. -/
def AllocRefused {γ : Type} (P : SpanSource γ) (σ : HeapSession γ) (size : BitVec 64) : Prop :=
  heapAlloc P σ.caches σ.source size = .ok (none, σ.caches, σ.source)

section Refusals

variable {β : Type} (B : PageSource β) (σ : HeapSession (CacheSession β))

theorem pageCacheSpans_refuses (s : CacheSession β) {count : ℕ}
    (hcount : count = 0 ∨ pageCacheMaxPages < count) :
    (pageCacheSpans B).pageCacheAlloc s count = (none, s) := by
  have hnone : pageCacheAlloc B s.cache s.source count = (none, s.cache, s.source) := by
    unfold pageCacheAlloc
    rcases hcount with rfl | hcount
    · rw [if_pos rfl]
    · rw [if_neg (by omega), if_pos hcount]
  change ((pageCacheAlloc B s.cache s.source count).1, cacheRun B s (.alloc count)) = _
  simp only [cacheRun, hnone]

theorem divRoundUp_refused {size : ℕ} (hlarge : 0x800000 < size) (hlt : size < 2 ^ 64) :
    divRoundUp size 4096 = 0 ∨ pageCacheMaxPages < divRoundUp size 4096 := by
  unfold divRoundUp pageCacheMaxPages
  omega

/-- A large size that does not wrap around is refused by the page cache. -/
theorem allocRefused_of_le {size : BitVec 64} (hlarge : 0x800000 < size.toNat)
    (hle : size.toNat ≤ 2 ^ 64 - 16) : AllocRefused (pageCacheSpans B) σ size := by
  have hrounded : size.toNat ≤ roundedSize size ∧ roundedSize size < 2 ^ 64 := by
    unfold roundedSize
    omega
  have hmiddle : maxMiddleObjectSize < roundedSize size := by
    unfold maxMiddleObjectSize
    omega
  have hne : size ≠ 0 := by
    rintro rfl
    exact absurd hlarge (by decide)
  unfold AllocRefused
  rw [heapAlloc_large hne hmiddle]
  unfold heapAllocLarge
  rw [pageCacheSpans_refuses B σ.source
    (divRoundUp_refused (hlarge.trans_le hrounded.1) hrounded.2)]

theorem allocSpan_zero (i objectCount size : ℕ) :
    allocSpan (pageCacheSpans B) σ.caches σ.source i 0 objectCount size =
      .ok (false, σ.caches, σ.source) := by
  unfold allocSpan
  rw [pageCacheSpans_refuses B σ.source (Or.inl rfl)]

/-- A request without pages gets an object exactly when its cache has a free one. -/
theorem heapAllocSmall_zero_refused_iff (hcounted : SpansCounted σ.caches) (i : ℕ) :
    heapAllocSmall (pageCacheSpans B) σ.caches σ.source i 0 = .ok (none, σ.caches, σ.source) ↔
      getFreeSmallCacheSystem σ.caches i = none := by
  rw [heapAllocSmall_eq]
  by_cases hempty : σ.caches.smallList i = []
  · have hnone : getFreeSmallCacheSystem σ.caches i = none := by
      unfold getFreeSmallCacheSystem
      rw [hempty, List.find?_nil]
    rw [if_pos hempty, allocSpan_zero, exec_ok_bind]
    exact iff_of_true rfl hnone
  · have hpos : 0 < σ.caches.smallCount i :=
      (List.length_pos_iff.mpr hempty).trans_le (hcounted i)
    rw [if_neg hempty, exec_ok_bind, if_pos rfl, nxAssert_pos hpos, exec_ok_bind,
      nxAssert_pos hempty, exec_ok_bind]
    unfold allocSmallObject
    rw [allocSmallLoop]
    cases hfind : getFreeSmallCacheSystem σ.caches i with
    | none =>
        dsimp only
        rw [allocSpan_zero, exec_ok_bind]
        exact iff_of_true rfl rfl
    | some S =>
        obtain ⟨page, pageCount, objects, free, most⟩ := S
        have hfree : objects ≠ [] := by simpa using List.find?_some hfind
        cases objects with
        | nil => exact absurd rfl hfree
        | cons object rest =>
            refine iff_of_false ?_ (Option.some_ne_none _)
            intro heq
            cases heq

theorem heapAlloc_wrapped {size : BitVec 64} (hwrap : 2 ^ 64 - 16 < size.toNat) :
    heapAlloc (pageCacheSpans B) σ.caches σ.source size =
      heapAllocSmall (pageCacheSpans B) σ.caches σ.source 0 0 := by
  have hzero : roundedSize size = 0 := by
    have hlt := size.isLt
    unfold roundedSize
    omega
  have hne : size ≠ 0 := by
    rintro rfl
    exact absurd hwrap (by decide)
  have hcache : sizeToCache 0 = .ok (some 0) := rfl
  unfold heapAlloc
  rw [if_neg hne]
  dsimp only
  rw [← roundedSize, hzero, if_neg (Nat.not_lt_zero _), hcache, exec_ok_bind]
  rfl

/-- In every state that calls reach, a request for more than 8 MB is refused exactly when its
size does not wrap around or no span of the smallest class has a free object. -/
theorem heapReachable_oversized {b₀ : β} {σ : HeapSession (CacheSession β)}
    (hreach : Reachable (HeapCall (pageCacheSpans B))
      ⟨heapCacheInit, ⟨pageCacheInit, b₀, []⟩, []⟩ σ)
    {size : BitVec 64} (hlarge : 0x800000 < size.toNat) :
    AllocRefused (pageCacheSpans B) σ size ↔
      size.toNat ≤ 2 ^ 64 - 16 ∨ ∀ S ∈ σ.caches.smallList 0, S.objectFreeList = [] := by
  have hcounted : SpansCounted σ.caches :=
    hreach.invariant (P := fun σ => SpansCounted σ.caches) spansCounted_init SpansCounted.call
  rcases Nat.lt_or_ge (2 ^ 64 - 16) size.toNat with hwrap | hle
  · unfold AllocRefused
    rw [heapAlloc_wrapped B σ hwrap, heapAllocSmall_zero_refused_iff B σ hcounted]
    unfold getFreeSmallCacheSystem
    rw [List.find?_eq_none, or_iff_right (Nat.not_le.mpr hwrap)]
    simp
  · exact iff_of_true (allocRefused_of_le B σ hlarge hle) (Or.inl hle)

end Refusals

def heapEmpty : HeapSession (CacheSession BumpState) :=
  ⟨heapCacheInit, ⟨pageCacheInit, bumpEmpty, []⟩, []⟩

/-- Nothing was allocated yet: all of them are refused. -/
theorem heapReachable_oversized_init :
    AllocRefused (pageCacheSpans bumpSource) heapEmpty 0xFFFFFFFFFFFFFFFF :=
  (heapReachable_oversized bumpSource .refl (by decide)).mpr (Or.inr nofun)

/-- After a request for 16 bytes, one for `2 ^ 64 - 1` bytes gets the next object of
16 bytes. -/
theorem exists_oversized_not_refused :
    ∃ σ, Reachable (HeapCall (pageCacheSpans bumpSource)) heapEmpty σ ∧
      ∃ h' g', heapAlloc (pageCacheSpans bumpSource) σ.caches σ.source 0xFFFFFFFFFFFFFFFF =
        .ok (some 80, h', g') ∧ heapGetObjectSize (pageCacheSpans bumpSource) h' g' 80 = 16 := by
  have htwo : ((heapRun (pageCacheSpans bumpSource) heapEmpty (.alloc 16)) >>= fun σ =>
      heapAlloc (pageCacheSpans bumpSource) σ.caches σ.source 0xFFFFFFFFFFFFFFFF).map
        (fun r => (r.1, heapGetObjectSize (pageCacheSpans bumpSource) r.2.1 r.2.2 80)) =
        .ok (some 80, 16) := by
    decide +kernel
  obtain ⟨⟨r, h', g'⟩, hrun, hr⟩ := exec_map_eq_ok_iff.mp htwo
  obtain ⟨σ, hfirst, hsecond⟩ := exec_bind_eq_ok_iff.mp hrun
  obtain ⟨rfl, hsize⟩ := Prod.mk.inj hr
  exact ⟨σ, .tail .refl hfirst, h', g', hsecond, hsize⟩

end Nxos.Mm
