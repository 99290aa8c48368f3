import Nxos.Mm.HeapCache.Session

/-!
# Histories of the heap

Requests of all sizes and frees, in any order.  An object is an object of a small span, or it
is a whole span of the page cache.  Freed spans for up to 1 MB wait on the list of the middle
cache; the steps of the small caches leave that list and its spans alone.
-/

namespace Nxos.Mm

open Nxos.Transition

/-! ## The page cache -/

/-- The page cache hands out disjoint spans with at least the requested pages, whatever the
number of pages, and none for no pages. -/
structure SpanSource.HandsOut {γ : Type} (P : SpanSource γ) (ok : γ → Prop)
    (spans : γ → List (ℕ × ℕ)) : Prop where
  apart : ∀ {g}, ok g → (spans g).Pairwise PagesApart
  alloc_none : ∀ {g g' count}, ok g → P.pageCacheAlloc g count = (none, g') →
    ok g' ∧ spans g' = spans g
  alloc_some : ∀ {g g' count p}, ok g → P.pageCacheAlloc g count = (some p, g') →
    1 ≤ count ∧ ok g' ∧ ∃ n, count ≤ n ∧ spans g' = (p, n) :: spans g
  free : ∀ {g p n}, ok g → (p, n) ∈ spans g →
    ∃ g', P.pageCacheFree g p = (.eok, g') ∧ ok g' ∧
      spans g' = (spans g).filter fun q => q.1 ≠ p
  pageToSpan : ∀ {g p n q}, ok g → (p, n) ∈ spans g → p ≤ q → q < p + n →
    P.pageToSpan g q = p

theorem SpanSource.HandsOut.lawful {γ : Type} {P : SpanSource γ} {ok : γ → Prop}
    {spans : γ → List (ℕ × ℕ)} (hP : P.HandsOut ok spans) : P.Lawful ok spans where
  apart := hP.apart
  alloc_none hok _ halloc := hP.alloc_none hok halloc
  alloc_some hok _ halloc := (hP.alloc_some hok halloc).2
  free := hP.free
  pageToSpan := hP.pageToSpan

theorem SpanSource.HandsOut.alloc_pos {γ : Type} {P : SpanSource γ} {ok : γ → Prop}
    {spans : γ → List (ℕ × ℕ)} (hP : P.HandsOut ok spans) {g g' : γ} {count p : ℕ} (hok : ok g)
    (hpos : ∀ q ∈ spans g, 1 ≤ q.2) (halloc : P.pageCacheAlloc g count = (some p, g')) :
    ∀ q ∈ spans g', 1 ≤ q.2 := by
  obtain ⟨hcount, -, n, hn, hspans⟩ := hP.alloc_some hok halloc
  rw [hspans]
  intro q hq
  rcases List.mem_cons.mp hq with rfl | hq
  · exact hcount.trans hn
  · exact hpos q hq

theorem pages_unique {spans : List (ℕ × ℕ)} (hapart : spans.Pairwise PagesApart)
    (hpos : ∀ q ∈ spans, 1 ≤ q.2) {p n m : ℕ} (hn : (p, n) ∈ spans) (hm : (p, m) ∈ spans) :
    n = m := by
  by_contra hne
  have hdisjoint := apart_of_mem hapart hn hm fun heq => hne (congrArg Prod.snd heq)
  have hn' : 1 ≤ n := hpos _ hn
  have hm' : 1 ≤ m := hpos _ hm
  unfold PagesApart at hdisjoint
  omega

theorem page_ne_of_apart {spans : List (ℕ × ℕ)} {p n : ℕ}
    (hapart : ((p, n) :: spans).Pairwise PagesApart) (hpos : ∀ q ∈ spans, 1 ≤ q.2)
    (hn : 1 ≤ n) : ∀ q ∈ spans, q.1 ≠ p := by
  intro q hq heq
  have hdisjoint := (List.pairwise_cons.mp hapart).1 q hq
  have hq' := hpos q hq
  unfold PagesApart at hdisjoint
  dsimp only at hdisjoint
  omega

/-! ## What the small caches leave alone -/

/-- From `(h, g)` to `(h', g')` spans were added at most, and neither the middle cache nor the
mark of a span changed. -/
structure SmallKept {γ : Type} (ok : γ → Prop) (spans : γ → List (ℕ × ℕ)) (h : HeapCaches)
    (g : γ) (h' : HeapCaches) (g' : γ) : Prop where
  ok : ok g'
  pos : ∀ q ∈ spans g', 1 ≤ q.2
  sub : spans g ⊆ spans g'
  middleList : h'.middleList = h.middleList
  middleCount : h'.middleCount = h.middleCount
  sizeClass : ∀ q ∈ spans g, h'.sizeClass q.1 = h.sizeClass q.1

section Small

variable {γ : Type} {P : SpanSource γ} {ok : γ → Prop} {spans : γ → List (ℕ × ℕ)}
  {h h' h'' : HeapCaches} {g g' g'' : γ} {i : ℕ}

theorem SmallKept.trans (hkept : SmallKept ok spans h g h' g')
    (hkept' : SmallKept ok spans h' g' h'' g'') : SmallKept ok spans h g h'' g'' where
  ok := hkept'.ok
  pos := hkept'.pos
  sub := List.Subset.trans hkept.sub hkept'.sub
  middleList := hkept'.middleList.trans hkept.middleList
  middleCount := hkept'.middleCount.trans hkept.middleCount
  sizeClass q hq := (hkept'.sizeClass q (hkept.sub hq)).trans (hkept.sizeClass q hq)

theorem allocSpan_kept (hP : P.HandsOut ok spans) (hok : ok g)
    (hpos : ∀ q ∈ spans g, 1 ≤ q.2) {pageCount objectCount size : ℕ} {b : Bool}
    (hrun : allocSpan P h g i pageCount objectCount size = .ok (b, h', g')) :
    SmallKept ok spans h g h' g' := by
  unfold allocSpan at hrun
  rcases halloc : P.pageCacheAlloc g pageCount with ⟨_ | p, g₁⟩
  · rw [halloc] at hrun
    cases hrun
    obtain ⟨hok', hspans⟩ := hP.alloc_none hok halloc
    refine ⟨hok', ?_, ?_, rfl, rfl, fun _ _ => rfl⟩
    · rw [hspans]
      exact hpos
    · rw [hspans]
      exact List.Subset.refl _
  · rw [halloc] at hrun
    obtain ⟨S, -, hrun⟩ := exec_bind_eq_ok_iff.mp hrun
    cases hrun
    obtain ⟨hcount, hok', n, hn, hspans⟩ := hP.alloc_some hok halloc
    have hapart := hP.apart hok'
    rw [hspans] at hapart
    refine ⟨hok', hP.alloc_pos hok hpos halloc, ?_, rfl, rfl, ?_⟩
    · rw [hspans]
      exact List.subset_cons_self ..
    · intro q hq
      exact Function.update_of_ne (page_ne_of_apart hapart hpos (hcount.trans hn) q hq) ..

theorem getFreeSmallCacheObject_kept (hok : ok g) (hpos : ∀ q ∈ spans g, 1 ≤ q.2)
    (S : SmallSystem) : SmallKept ok spans h g (getFreeSmallCacheObject h i S).2 g := by
  unfold getFreeSmallCacheObject
  cases S.objectFreeList with
  | nil => exact ⟨hok, hpos, List.Subset.refl _, rfl, rfl, fun _ _ => rfl⟩
  | cons object rest => exact ⟨hok, hpos, List.Subset.refl _, rfl, rfl, fun _ _ => rfl⟩

theorem allocSmallLoop_kept (hP : P.HandsOut ok spans) (hok : ok g)
    (hpos : ∀ q ∈ spans g, 1 ≤ q.2) {pageCount objectCount size fuel : ℕ} {r : Option ℕ}
    (hrun : allocSmallLoop P i pageCount objectCount size fuel h g = .ok (r, h', g')) :
    SmallKept ok spans h g h' g' := by
  induction fuel generalizing h g with
  | zero => cases hrun
  | succ fuel ih =>
      rw [allocSmallLoop] at hrun
      cases hfind : getFreeSmallCacheSystem h i with
      | some S =>
          rw [hfind] at hrun
          cases hrun
          exact getFreeSmallCacheObject_kept hok hpos S
      | none =>
          rw [hfind] at hrun
          obtain ⟨⟨b, h₁, g₁⟩, hspan, hrun⟩ := exec_bind_eq_ok_iff.mp hrun
          have hkept := allocSpan_kept hP hok hpos hspan
          cases b with
          | false =>
              cases hrun
              exact hkept
          | true =>
              obtain ⟨_, -, hrun⟩ := exec_bind_eq_ok_iff.mp hrun
              obtain ⟨_, -, hrun⟩ := exec_bind_eq_ok_iff.mp hrun
              exact hkept.trans (ih hkept.ok hkept.pos hrun)

/-- The small part of `NX_HeapAlloc`: a first span when there is none, then an object. -/
theorem heapAllocSmall_eq (P : SpanSource γ) (h : HeapCaches) (g : γ) (i pageCount : ℕ) :
    heapAllocSmall P h g i pageCount =
      (if h.smallList i = [] then
        allocSpan P h g i pageCount (pageCount * 4096 / classSize i) (classSize i)
      else .ok (true, h, g)) >>= fun r =>
        if r.1 then do
          nxAssert (0 < r.2.1.smallCount i)
          nxAssert (r.2.1.smallList i ≠ [])
          allocSmallObject P r.2.1 r.2.2 i pageCount (pageCount * 4096 / classSize i)
            (classSize i)
        else .ok (none, r.2.1, r.2.2) := by
  unfold heapAllocSmall
  split_ifs <;> rfl

/-- The small part of `NX_HeapAlloc` leaves the middle cache and the marks alone. -/
theorem heapAllocSmall_kept (hP : P.HandsOut ok spans) (hok : ok g)
    (hpos : ∀ q ∈ spans g, 1 ≤ q.2) {pageCount : ℕ} {r : Option ℕ}
    (hrun : heapAllocSmall P h g i pageCount = .ok (r, h', g')) :
    SmallKept ok spans h g h' g' := by
  rw [heapAllocSmall_eq] at hrun
  obtain ⟨⟨b, h₁, g₁⟩, hspan, hrun⟩ := exec_bind_eq_ok_iff.mp hrun
  have hkept : SmallKept ok spans h g h₁ g₁ := by
    split_ifs at hspan with hempty
    · exact allocSpan_kept hP hok hpos hspan
    · cases hspan
      exact ⟨hok, hpos, List.Subset.refl _, rfl, rfl, fun _ _ => rfl⟩
  cases b with
  | false =>
      cases hrun
      exact hkept
  | true =>
      obtain ⟨_, -, hrun⟩ := exec_bind_eq_ok_iff.mp hrun
      obtain ⟨_, -, hrun⟩ := exec_bind_eq_ok_iff.mp hrun
      exact hkept.trans (allocSmallLoop_kept hP hkept.ok hkept.pos hrun)

/-- The invariant of the small caches depends on their lists and on the spans and marks of
these lists. -/
theorem SmallInv.frame {held held' : List (ℕ × ℕ)} {live : List (ℕ × ℕ)}
    (hinv : SmallInv held h live) (hlist : h'.smallList = h.smallList)
    (hcount : h'.smallCount = h.smallCount) (hapart : held'.Pairwise PagesApart)
    (hclass : ∀ {i S}, S ∈ h.smallList i → h'.sizeClass S.page = h.sizeClass S.page)
    (hblock : ∀ {i S n}, S ∈ h.smallList i → (S.page, n) ∈ held → (S.page, n) ∈ held') :
    SmallInv held' h' live := by
  refine ⟨hapart, ?_, ?_, ?_, ?_, hinv.live_nodup⟩
  · intro i S hS
    rw [hlist] at hS
    have hsystem := hinv.system hS
    obtain ⟨n, hn, hle⟩ := hsystem.block
    exact ⟨hsystem.lt, (hclass hS).trans hsystem.marked, ⟨n, hblock hS hn, hle⟩,
      hsystem.max_pos, hsystem.fits, hsystem.count_eq, hsystem.objects⟩
  · rw [hlist]
    exact hinv.page_nodup
  · rw [hlist, hcount]
    exact hinv.count_eq
  · rw [hlist]
    exact hinv.live_in

/-- A request whose size wraps around to nothing: it gets a free object of the smallest class,
or nothing. -/
theorem heapAllocSmall_zero (hP : P.HandsOut ok spans) (hok : ok g) {live : List (ℕ × ℕ)}
    (hinv : SmallInv (spans g) h live) {r : Option ℕ}
    (hrun : heapAllocSmall P h g i 0 = .ok (r, h', g')) :
    AllocOk ok spans g live 0 (r, h', g') := by
  have hspan : ∀ {h₀ : HeapCaches} {objectCount size : ℕ} {b : Bool} {h₁ : HeapCaches} {g₁ : γ},
      allocSpan P h₀ g i 0 objectCount size = .ok (b, h₁, g₁) →
      b = false ∧ h₁ = h₀ ∧ ok g₁ ∧ spans g₁ = spans g := by
    intro h₀ objectCount size b h₁ g₁ hrun
    unfold allocSpan at hrun
    rcases halloc : P.pageCacheAlloc g 0 with ⟨_ | p, g₂⟩
    · rw [halloc] at hrun
      cases hrun
      exact ⟨rfl, rfl, hP.alloc_none hok halloc⟩
    · exact absurd (hP.alloc_some hok halloc).1 (Nat.not_succ_le_zero 0)
  have hnone : ∀ {g₁ : γ}, ok g₁ → spans g₁ = spans g →
      AllocOk ok spans g live 0 (none, h, g₁) := by
    intro g₁ hok₁ hspans
    refine ⟨hok₁, ?_, ?_⟩
    · rw [hspans]
      exact hinv
    · rw [hspans]
      exact List.Subset.refl _
  rw [heapAllocSmall_eq] at hrun
  obtain ⟨⟨b, h₁, g₁⟩, hfirst, hrest⟩ := exec_bind_eq_ok_iff.mp hrun
  split_ifs at hfirst with hempty
  · obtain ⟨rfl, heq, hok₁, hspans⟩ := hspan hfirst
    cases hrest
    rw [heq]
    exact hnone hok₁ hspans
  · cases hfirst
    obtain ⟨_, -, hrest⟩ := exec_bind_eq_ok_iff.mp hrest
    obtain ⟨_, -, hrest⟩ := exec_bind_eq_ok_iff.mp hrest
    unfold allocSmallObject at hrest
    cases hfind : getFreeSmallCacheSystem h i with
    | some S =>
        obtain ⟨result, hloop, hresult⟩ := allocSmallLoop_some P hok hinv hfind
          (Nat.zero_le _) 0 (0 * 4096 / classSize i) (classSize i) 1
        rw [hrest] at hloop
        cases hloop
        exact hresult
    | none =>
        rw [allocSmallLoop, hfind] at hrest
        obtain ⟨⟨b, h₁, g₁⟩, hsecond, hend⟩ := exec_bind_eq_ok_iff.mp hrest
        obtain ⟨rfl, heq, hok₁, hspans⟩ := hspan hsecond
        cases hend
        rw [heq]
        exact hnone hok₁ hspans

end Small

/-! ## The invariant of a history -/

/-- The heap in the course of a history: `small` are the live objects of small spans, `big` are
the first pages of the live objects that are whole spans.  `wide` is what is known of the mark
and the pages of a span that is or was an object as a whole. -/
structure HistoryInv {γ : Type} (ok : γ → Prop) (spans : γ → List (ℕ × ℕ)) (wide : ℕ → ℕ → Prop)
    (σ : HeapSession γ) (small : List (ℕ × ℕ)) (big : List ℕ) : Prop where
  ok : ok σ.source
  pos : ∀ q ∈ spans σ.source, 1 ≤ q.2
  smallInv : SmallInv (spans σ.source) σ.caches small
  live : ∀ {a r}, (a, r) ∈ σ.live → (∃ s, (a, s) ∈ small) ∨ ∃ p ∈ big, a = p * 4096
  middleCount : σ.caches.middleCount = σ.caches.middleList.length
  nodup : (big ++ σ.caches.middleList).Nodup
  held : ∀ p ∈ big ++ σ.caches.middleList, ∃ n, (p, n) ∈ spans σ.source ∧
    wide (σ.caches.sizeClass p) n
  big_marked : ∀ p ∈ big, maxMiddleObjectSize ≤ σ.caches.sizeClass p
  middle_marked : ∀ p ∈ σ.caches.middleList, σ.caches.sizeClass p = maxMiddleObjectSize

section History

variable {γ : Type} {P : SpanSource γ} {ok : γ → Prop} {spans : γ → List (ℕ × ℕ)}
  {wide : ℕ → ℕ → Prop} {σ : HeapSession γ} {small : List (ℕ × ℕ)} {big : List ℕ}

theorem historyInv_init {g₀ : γ} (hok₀ : ok g₀) (hempty : spans g₀ = []) :
    HistoryInv ok spans wide ⟨heapCacheInit, g₀, []⟩ [] [] where
  ok := hok₀
  pos := by
    dsimp only
    rw [hempty]
    exact nofun
  smallInv := by
    dsimp only
    rw [hempty]
    exact smallInv_init
  live := nofun
  middleCount := rfl
  nodup := .nil
  held := nofun
  big_marked := nofun
  middle_marked := nofun

namespace HistoryInv

theorem small_page_ne (h : HistoryInv ok spans wide σ small big) {p i : ℕ}
    (hp : maxMiddleObjectSize ≤ σ.caches.sizeClass p) {S : SmallSystem}
    (hS : S ∈ σ.caches.smallList i) : S.page ≠ p := by
  rintro rfl
  have hsystem := h.smallInv.system hS
  have hle := (classSize_fits i hsystem.lt).2.1
  rw [hsystem.marked] at hp
  exact absurd (hp.trans hle) (by decide)

theorem marked (h : HistoryInv ok spans wide σ small big) {p : ℕ}
    (hp : p ∈ big ++ σ.caches.middleList) : maxMiddleObjectSize ≤ σ.caches.sizeClass p := by
  rcases List.mem_append.mp hp with hp | hp
  · exact h.big_marked p hp
  · exact (h.middle_marked p hp).ge

theorem keep (h : HistoryInv ok spans wide σ small big) {h' : HeapCaches} {g' : γ} (hok' : ok g')
    (hpos : ∀ q ∈ spans g', 1 ≤ q.2) (hlist : h'.middleList = σ.caches.middleList)
    (hcount : h'.middleCount = σ.caches.middleCount)
    (hkept : ∀ {p n}, p ∈ big ++ σ.caches.middleList → (p, n) ∈ spans σ.source →
      (p, n) ∈ spans g' ∧ h'.sizeClass p = σ.caches.sizeClass p)
    {small' live' : List (ℕ × ℕ)} (hsmall : SmallInv (spans g') h' small')
    (hlive : ∀ {a r}, (a, r) ∈ live' → (∃ s, (a, s) ∈ small') ∨ ∃ p ∈ big, a = p * 4096) :
    HistoryInv ok spans wide ⟨h', g', live'⟩ small' big := by
  have hclass : ∀ p ∈ big ++ σ.caches.middleList, h'.sizeClass p = σ.caches.sizeClass p := by
    intro p hp
    obtain ⟨n, hn, -⟩ := h.held p hp
    exact (hkept hp hn).2
  constructor
  · exact hok'
  · exact hpos
  · exact hsmall
  · exact hlive
  · dsimp only
    rw [hcount, hlist, h.middleCount]
  · dsimp only
    rw [hlist]
    exact h.nodup
  · dsimp only
    rw [hlist]
    intro p hp
    obtain ⟨n, hn, hwide⟩ := h.held p hp
    refine ⟨n, (hkept hp hn).1, ?_⟩
    rw [hclass p hp]
    exact hwide
  · intro p hp
    dsimp only
    rw [hclass p (List.mem_append_left _ hp)]
    exact h.big_marked p hp
  · dsimp only
    rw [hlist]
    intro p hp
    rw [hclass p (List.mem_append_right _ hp)]
    exact h.middle_marked p hp

theorem allocSmall (h : HistoryInv ok spans wide σ small big) {h' : HeapCaches} {g' : γ}
    (hkept : SmallKept ok spans σ.caches σ.source h' g') {small' live' : List (ℕ × ℕ)}
    (hsmall : SmallInv (spans g') h' small')
    (hlive : ∀ {a r}, (a, r) ∈ live' → (∃ s, (a, s) ∈ small') ∨ ∃ p ∈ big, a = p * 4096) :
    HistoryInv ok spans wide ⟨h', g', live'⟩ small' big :=
  h.keep hkept.ok hkept.pos hkept.middleList hkept.middleCount
    (fun _ hn => ⟨hkept.sub hn, hkept.sizeClass _ hn⟩) hsmall hlive

theorem allocNone (h : HistoryInv ok spans wide σ small big) (hP : P.HandsOut ok spans) {count : ℕ}
    {g' : γ} (halloc : P.pageCacheAlloc σ.source count = (none, g')) :
    HistoryInv ok spans wide ⟨σ.caches, g', σ.live⟩ small big := by
  obtain ⟨hok', hspans⟩ := hP.alloc_none h.ok halloc
  refine h.allocSmall ⟨hok', ?_, ?_, rfl, rfl, fun _ _ => rfl⟩ ?_ h.live
  · rw [hspans]
    exact h.pos
  · rw [hspans]
    exact List.Subset.refl _
  · rw [hspans]
    exact h.smallInv

theorem addSpan (h : HistoryInv ok spans wide σ small big) (hP : P.HandsOut ok spans)
    {count p c r : ℕ} {g' : γ} (halloc : P.pageCacheAlloc σ.source count = (some p, g'))
    (hc : maxMiddleObjectSize ≤ c) (hwide : ∀ n, count ≤ n → wide c n) :
    HistoryInv ok spans wide ⟨pageNodeMarkSize σ.caches p c, g', (p * 4096, r) :: σ.live⟩ small
      (p :: big) := by
  obtain ⟨hcount, hok', n, hn, hspans⟩ := hP.alloc_some h.ok halloc
  have hapart := hP.apart hok'
  rw [hspans] at hapart
  have hfresh := page_ne_of_apart hapart h.pos (hcount.trans hn)
  have hother : ∀ q ∈ big ++ σ.caches.middleList, q ≠ p := by
    intro q hq
    obtain ⟨m, hm, -⟩ := h.held q hq
    exact hfresh _ hm
  have hclass : ∀ {q}, q ≠ p → Function.update σ.caches.sizeClass p c q = σ.caches.sizeClass q :=
    fun hq => Function.update_of_ne hq ..
  constructor
  · exact hok'
  · exact hP.alloc_pos h.ok h.pos halloc
  · dsimp only
    rw [hspans]
    refine h.smallInv.frame rfl rfl hapart ?_ fun _ hS => List.mem_cons_of_mem _ hS
    intro i S hS
    obtain ⟨m, hm, -⟩ := (h.smallInv.system hS).block
    exact hclass (hfresh _ hm)
  · intro a s ha
    rcases List.mem_cons.mp ha with heq | ha
    · cases heq
      exact Or.inr ⟨p, List.mem_cons_self .., rfl⟩
    · exact (h.live ha).imp_right fun ⟨q, hq, heq⟩ => ⟨q, List.mem_cons_of_mem _ hq, heq⟩
  · exact h.middleCount
  · exact List.nodup_cons.mpr ⟨fun hp => hother p hp rfl, h.nodup⟩
  · dsimp only
    rw [hspans]
    intro q hq
    change ∃ m, _ ∧ wide (Function.update σ.caches.sizeClass p c q) m
    rcases List.mem_cons.mp hq with rfl | hq
    · rw [Function.update_self]
      exact ⟨n, List.mem_cons_self .., hwide n hn⟩
    · obtain ⟨m, hm, hwideq⟩ := h.held q hq
      rw [hclass (hother q hq)]
      exact ⟨m, List.mem_cons_of_mem _ hm, hwideq⟩
  · intro q hq
    change _ ≤ Function.update σ.caches.sizeClass p c q
    rcases List.mem_cons.mp hq with rfl | hq
    · rw [Function.update_self]
      exact hc
    · rw [hclass (hother q (List.mem_append_left _ hq))]
      exact h.big_marked q hq
  · intro q hq
    change Function.update σ.caches.sizeClass p c q = _
    rw [hclass (hother q (List.mem_append_right _ hq))]
    exact h.middle_marked q hq

theorem takeMiddle (h : HistoryInv ok spans wide σ small big) {p r : ℕ} {rest : List ℕ}
    (hlist : σ.caches.middleList = p :: rest) :
    HistoryInv ok spans wide ⟨{ σ.caches with
        middleList := rest, middleCount := σ.caches.middleCount - 1 }, σ.source,
      (p * 4096, r) :: σ.live⟩ small (p :: big) := by
  have hmem : ∀ q ∈ p :: big ++ rest, q ∈ big ++ σ.caches.middleList := by
    intro q hq
    rw [hlist]
    exact List.perm_middle.mem_iff.mpr hq
  constructor
  · exact h.ok
  · exact h.pos
  · exact h.smallInv.frame rfl rfl h.smallInv.apart (fun _ => rfl) fun _ hS => hS
  · intro a s ha
    rcases List.mem_cons.mp ha with heq | ha
    · cases heq
      exact Or.inr ⟨p, List.mem_cons_self .., rfl⟩
    · exact (h.live ha).imp_right fun ⟨q, hq, heq⟩ => ⟨q, List.mem_cons_of_mem _ hq, heq⟩
  · dsimp only
    rw [h.middleCount, hlist, List.length_cons, Nat.add_sub_cancel]
  · have hnodup := h.nodup
    rw [hlist] at hnodup
    exact List.perm_middle.nodup_iff.mp hnodup
  · exact fun q hq => h.held q (hmem q hq)
  · exact fun q hq => h.marked (hmem q (List.mem_append_left _ hq))
  · intro q hq
    refine h.middle_marked q ?_
    rw [hlist]
    exact List.mem_cons_of_mem _ hq

/-- `NX_HeapFree` of an object of a small span. -/
theorem freeSmall (h : HistoryInv ok spans wide σ small big) (hP : P.HandsOut ok spans) {a s : ℕ}
    (ha : (a, s) ∈ small) :
    ∃ h' g', heapFree P σ.caches σ.source a = .ok (.eok, h', g') ∧
      HistoryInv ok spans wide ⟨h', g', σ.live.filter fun q => q.1 ≠ a⟩
        (small.filter fun q => q.1 ≠ a) big := by
  have hlive : ∀ {b r}, (b, r) ∈ σ.live.filter (fun q => q.1 ≠ a) →
      (∃ s, (b, s) ∈ small.filter fun q => q.1 ≠ a) ∨ ∃ p ∈ big, b = p * 4096 := by
    intro b r hb
    obtain ⟨hb, hne⟩ := SmallInv.mem_of_mem_filter hb
    refine (h.live hb).imp_left fun ⟨s, hs⟩ => ⟨s, List.mem_filter.mpr ⟨hs, ?_⟩⟩
    exact decide_eq_true hne
  obtain ⟨i, S, hS, hcov, -⟩ := h.smallInv.live_in ha
  obtain ⟨h', g', hrun, hok', hsmall, -⟩ := heapFree_ok hP.lawful h.ok h.smallInv ha
  refine ⟨h', g', hrun, ?_⟩
  rw [heapFree_eq hP.lawful h.ok h.smallInv hS hcov] at hrun
  unfold putFreeSmallCacheObject at hrun
  split_ifs at hrun with hlast
  · obtain ⟨n, hn, -⟩ := (h.smallInv.system hS).block
    obtain ⟨g₁, hfree, -, hspans⟩ := hP.free h.ok hn
    simp only [hfree] at hrun
    cases hrun
    refine h.keep hok' ?_ ?_ ?_ ?_ hsmall hlive
    · rw [hspans]
      exact fun q hq => h.pos q (List.mem_filter.mp hq).1
    · rfl
    · rfl
    · intro p m hp hm
      have hne : p ≠ S.page := (h.small_page_ne (h.marked hp) hS).symm
      rw [hspans]
      exact ⟨List.mem_filter.mpr ⟨hm, decide_eq_true hne⟩, Function.update_of_ne hne ..⟩
  · cases hrun
    refine h.keep hok' h.pos ?_ ?_ ?_ hsmall hlive
    · rfl
    · rfl
    · exact fun _ hn => ⟨hn, rfl⟩

theorem mem_filter_ne {p q : ℕ} (hq : q ∈ big) (hne : q ≠ p) : q ∈ big.filter fun q => q ≠ p :=
  List.mem_filter.mpr ⟨hq, decide_eq_true hne⟩

theorem live_filter (h : HistoryInv ok spans wide σ small big) {p b r : ℕ}
    (hb : (b, r) ∈ σ.live.filter fun q => q.1 ≠ p * 4096) :
    (∃ s, (b, s) ∈ small) ∨ ∃ q ∈ big.filter fun q => q ≠ p, b = q * 4096 := by
  obtain ⟨hb, hne⟩ := SmallInv.mem_of_mem_filter hb
  refine (h.live hb).imp_right ?_
  rintro ⟨q, hq, rfl⟩
  exact ⟨q, mem_filter_ne hq fun heq => hne (by rw [heq]), rfl⟩

/-- An object that is a whole span goes back to the page cache. -/
theorem dropSpan (h : HistoryInv ok spans wide σ small big) {p : ℕ} (hp : p ∈ big) {h' : HeapCaches}
    {g' : γ} (hok' : ok g') (hspans : spans g' = (spans σ.source).filter fun q => q.1 ≠ p)
    (hsmallList : h'.smallList = σ.caches.smallList)
    (hsmallCount : h'.smallCount = σ.caches.smallCount)
    (hlist : h'.middleList = σ.caches.middleList)
    (hcount : h'.middleCount = σ.caches.middleCount)
    (hclass : ∀ q, q ≠ p → h'.sizeClass q = σ.caches.sizeClass q) :
    HistoryInv ok spans wide ⟨h', g', σ.live.filter fun q => q.1 ≠ p * 4096⟩ small
      (big.filter fun q => q ≠ p) := by
  have hother : ∀ q ∈ (big.filter fun q => q ≠ p) ++ σ.caches.middleList,
      q ≠ p ∧ q ∈ big ++ σ.caches.middleList := by
    intro q hq
    rcases List.mem_append.mp hq with hbig | hmiddle
    · rw [List.mem_filter] at hbig
      exact ⟨of_decide_eq_true hbig.2, List.mem_append_left _ hbig.1⟩
    · refine ⟨?_, List.mem_append_right _ hmiddle⟩
      rintro rfl
      exact List.disjoint_of_nodup_append h.nodup hp hmiddle
  constructor
  · exact hok'
  · dsimp only
    rw [hspans]
    exact fun q hq => h.pos q (List.mem_filter.mp hq).1
  · dsimp only
    rw [hspans]
    refine h.smallInv.frame hsmallList hsmallCount
      (h.smallInv.apart.sublist List.filter_sublist) ?_ ?_
    · intro i S hS
      exact hclass _ (h.small_page_ne (h.big_marked p hp) hS)
    · intro i S n hS hn
      have hne := h.small_page_ne (h.big_marked p hp) hS
      exact List.mem_filter.mpr ⟨hn, decide_eq_true hne⟩
  · exact h.live_filter
  · dsimp only
    rw [hcount, hlist, h.middleCount]
  · dsimp only
    rw [hlist]
    exact h.nodup.sublist (List.filter_sublist.append_right _)
  · dsimp only
    rw [hlist, hspans]
    intro q hq
    obtain ⟨hne, hq⟩ := hother q hq
    obtain ⟨n, hn, hwide⟩ := h.held q hq
    refine ⟨n, List.mem_filter.mpr ⟨hn, decide_eq_true hne⟩, ?_⟩
    rw [hclass q hne]
    exact hwide
  · intro q hq
    obtain ⟨hne, -⟩ := hother q (List.mem_append_left _ hq)
    dsimp only
    rw [hclass q hne]
    exact h.big_marked q (List.mem_filter.mp hq).1
  · dsimp only
    rw [hlist]
    intro q hq
    obtain ⟨hne, -⟩ := hother q (List.mem_append_right _ hq)
    rw [hclass q hne]
    exact h.middle_marked q hq

theorem putMiddle (h : HistoryInv ok spans wide σ small big) {p : ℕ} (hp : p ∈ big)
    (hmark : σ.caches.sizeClass p = maxMiddleObjectSize) :
    HistoryInv ok spans wide ⟨{ σ.caches with
        middleList := p :: σ.caches.middleList
        middleCount := σ.caches.middleCount + 1 }, σ.source,
      σ.live.filter fun q => q.1 ≠ p * 4096⟩ small (big.filter fun q => q ≠ p) := by
  have hmem : ∀ q ∈ (big.filter fun q => q ≠ p) ++ p :: σ.caches.middleList,
      q ∈ big ++ σ.caches.middleList := by
    intro q hq
    rcases List.mem_append.mp hq with hq | hq
    · exact List.mem_append_left _ (List.mem_filter.mp hq).1
    · rcases List.mem_cons.mp hq with rfl | hq
      · exact List.mem_append_left _ hp
      · exact List.mem_append_right _ hq
  constructor
  · exact h.ok
  · exact h.pos
  · exact h.smallInv.frame rfl rfl h.smallInv.apart (fun _ => rfl) fun _ hS => hS
  · exact h.live_filter
  · dsimp only
    rw [h.middleCount, List.length_cons]
  · refine List.perm_middle.nodup_iff.mpr (List.nodup_cons.mpr ⟨?_, ?_⟩)
    · intro hmem
      rcases List.mem_append.mp hmem with hmem | hmem
      · exact of_decide_eq_true (List.mem_filter.mp hmem).2 rfl
      · exact List.disjoint_of_nodup_append h.nodup hp hmem
    · exact h.nodup.sublist (List.filter_sublist.append_right _)
  · exact fun q hq => h.held q (hmem q hq)
  · exact fun q hq => h.big_marked q (List.mem_filter.mp hq).1
  · intro q hq
    rcases List.mem_cons.mp hq with rfl | hq
    · exact hmark
    · exact h.middle_marked q hq

/-- `NX_HeapFree` of an object that is a whole span. -/
theorem freeBig (h : HistoryInv ok spans wide σ small big) (hP : P.HandsOut ok spans) {p : ℕ}
    (hp : p ∈ big) :
    ∃ h' g', heapFree P σ.caches σ.source (p * 4096) = .ok (.eok, h', g') ∧
      HistoryInv ok spans wide ⟨h', g', σ.live.filter fun q => q.1 ≠ p * 4096⟩ small
        (big.filter fun q => q ≠ p) := by
  obtain ⟨n, hn, -⟩ := h.held p (List.mem_append_left _ hp)
  have hpos : 1 ≤ n := h.pos _ hn
  have hspan : P.pageToSpan σ.source (p * 4096 / 4096) = p := by
    rw [Nat.mul_div_cancel _ (by decide)]
    exact hP.pageToSpan h.ok hn (le_refl p) (by omega)
  have hmark := h.big_marked p hp
  have hsmall : maxSmallObjectSize < σ.caches.sizeClass p := Nat.lt_of_lt_of_le (by decide) hmark
  obtain ⟨g', hfree, hok', hspans⟩ := hP.free h.ok hn
  unfold heapFree heapGetObjectSize
  simp only [hspan, hfree]
  rw [if_neg (Nat.zero_lt_of_lt hsmall).ne', if_pos hsmall]
  by_cases hlarge : maxMiddleObjectSize < σ.caches.sizeClass p
  · rw [if_pos hlarge]
    exact ⟨σ.caches, g', rfl, h.dropSpan hp hok' hspans rfl rfl rfl rfl fun _ _ => rfl⟩
  · rw [if_neg hlarge, heapFreeMiddle]
    simp only [hfree]
    split_ifs with hfull
    · exact ⟨_, g', rfl, h.dropSpan hp hok' hspans rfl rfl rfl rfl
        fun q hq => Function.update_of_ne hq ..⟩
    · exact ⟨_, σ.source, rfl, h.putMiddle hp (Nat.le_antisymm (Nat.le_of_not_lt hlarge) hmark)⟩

end HistoryInv

/-- The outcome of a request to the middle cache: the first span on its list, or a new one. -/
theorem heapAllocMiddle_eq {h : HeapCaches} {g : γ} (hcount : h.middleCount = h.middleList.length)
    (pageCount : ℕ) :
    heapAllocMiddle P h g pageCount = .ok (
      match h.middleList with
      | page :: rest =>
          (some (page * 4096), { h with middleList := rest, middleCount := h.middleCount - 1 }, g)
      | [] =>
          match P.pageCacheAlloc g pageCount with
          | (none, g) => (none, h, g)
          | (some page, g) =>
              (some (page * 4096), pageNodeMarkSize h page maxMiddleObjectSize, g)) := by
  unfold heapAllocMiddle allocMiddleSpan
  cases hlist : h.middleList with
  | cons page rest =>
      have hpos : 0 < h.middleCount := by
        rw [hcount, hlist]
        exact Nat.succ_pos _
      rw [if_neg (List.cons_ne_nil _ _)]
      dsimp only
      rw [if_pos rfl, nxAssert_pos hpos, exec_ok_bind, hlist]
  | nil =>
      obtain ⟨smallList, smallCount, middleList, middleCount, sizeClass⟩ := h
      dsimp only at hlist hcount
      subst hlist
      subst hcount
      rw [if_pos rfl]
      rcases P.pageCacheAlloc g pageCount with ⟨_ | page, g'⟩
      · rfl
      · rfl

/-- The size that `NX_HeapAlloc` goes on with. -/
def roundedSize (size : BitVec 64) : ℕ :=
  (size.toNat + 15) % 2 ^ 64 / 16 * 16

/-- Rounding keeps the requests of the middle cache and loses the largest requests. -/
theorem roundedSize_cases (size : BitVec 64) :
    size.toNat ≤ roundedSize size ∧ roundedSize size < size.toNat + 16 ∨ roundedSize size = 0 := by
  have hlt := size.isLt
  unfold roundedSize
  omega

section Requests

variable {h : HeapCaches} {g : γ} {size : BitVec 64}

theorem heapAlloc_small (hne : size ≠ 0) (hsmall : roundedSize size ≤ maxSmallObjectSize) :
    ∃ i, heapAlloc P h g size = heapAllocSmall P h g i (sizeToPageCount (roundedSize size)) := by
  obtain ⟨i, -, -, -, hcache⟩ := sizeToCache_small hsmall
  refine ⟨i, ?_⟩
  unfold heapAlloc
  rw [if_neg hne]
  dsimp only
  rw [← roundedSize, if_neg (Nat.not_lt.mpr hsmall), hcache, exec_ok_bind]

theorem heapAlloc_middle (hne : size ≠ 0) (hlo : maxSmallObjectSize < roundedSize size)
    (hhi : roundedSize size ≤ maxMiddleObjectSize) :
    heapAlloc P h g size = heapAllocMiddle P h g (sizeToPageCount (roundedSize size)) := by
  unfold heapAlloc
  rw [if_neg hne]
  dsimp only
  rw [← roundedSize, if_pos hlo, if_neg (Nat.not_lt.mpr hhi)]

theorem heapAlloc_large (hne : size ≠ 0) (hlarge : maxMiddleObjectSize < roundedSize size) :
    heapAlloc P h g size = .ok (heapAllocLarge P h g (roundedSize size)) := by
  have hsmall : maxSmallObjectSize < roundedSize size := Nat.lt_trans (by decide) hlarge
  unfold heapAlloc
  rw [if_neg hne]
  dsimp only
  rw [← roundedSize, if_pos hsmall, if_pos hlarge]

end Requests

/-- A request that makes a new span for the middle cache makes a wide one. -/
def HeapOp.NewWide (wide : ℕ → ℕ → Prop) (σ : HeapSession γ) : HeapOp → Prop
  | .alloc size => σ.caches.middleList = [] → maxSmallObjectSize < roundedSize size →
      roundedSize size ≤ maxMiddleObjectSize →
      ∀ n, sizeToPageCount (roundedSize size) ≤ n → wide maxMiddleObjectSize n
  | .free _ => True

namespace HistoryInv

variable {size : BitVec 64} {r : Option ℕ} {h' : HeapCaches} {g' : γ}

def liveAfter (live : List (ℕ × ℕ)) (size : BitVec 64) : Option ℕ → List (ℕ × ℕ)
  | none => live
  | some a => (a, size.toNat) :: live

theorem heapAllocMiddle (h : HistoryInv ok spans wide σ small big) (hP : P.HandsOut ok spans)
    {pageCount : ℕ}
    (hwide : σ.caches.middleList = [] → ∀ n, pageCount ≤ n → wide maxMiddleObjectSize n)
    (hrun : heapAllocMiddle P σ.caches σ.source pageCount = .ok (r, h', g')) :
    ∃ big', HistoryInv ok spans wide ⟨h', g', liveAfter σ.live size r⟩ small big' := by
  rw [heapAllocMiddle_eq h.middleCount] at hrun
  cases hlist : σ.caches.middleList with
  | cons p rest =>
      rw [hlist] at hrun
      cases hrun
      exact ⟨p :: big, h.takeMiddle hlist⟩
  | nil =>
      rw [hlist] at hrun
      rcases halloc : P.pageCacheAlloc σ.source pageCount with ⟨_ | p, g₁⟩
      · rw [halloc] at hrun
        cases hrun
        exact ⟨big, h.allocNone hP halloc⟩
      · rw [halloc] at hrun
        cases hrun
        exact ⟨p :: big, h.addSpan hP halloc (le_refl _) (hwide hlist)⟩

/-- A request that goes to the page cache directly keeps the invariant. -/
theorem heapAllocLarge (h : HistoryInv ok spans wide σ small big) (hP : P.HandsOut ok spans) {c : ℕ}
    (hc : maxMiddleObjectSize ≤ c) (hwide : ∀ n, wide c n)
    (hrun : heapAllocLarge P σ.caches σ.source c = (r, h', g')) :
    ∃ big', HistoryInv ok spans wide ⟨h', g', liveAfter σ.live size r⟩ small big' := by
  unfold Mm.heapAllocLarge at hrun
  rcases halloc : P.pageCacheAlloc σ.source (divRoundUp c 4096) with ⟨_ | p, g₁⟩
  · rw [halloc] at hrun
    cases hrun
    exact ⟨big, h.allocNone hP halloc⟩
  · rw [halloc] at hrun
    cases hrun
    exact ⟨p :: big, h.addSpan hP halloc hc fun n _ => hwide n⟩

theorem heapAllocSmall (h : HistoryInv ok spans wide σ small big) (hP : P.HandsOut ok spans)
    (hne : size ≠ 0) (hsmall : roundedSize size ≤ maxSmallObjectSize)
    (hrun : heapAlloc P σ.caches σ.source size = .ok (r, h', g')) :
    ∃ small', HistoryInv ok spans wide ⟨h', g', liveAfter σ.live size r⟩ small' big := by
  obtain ⟨i, heq⟩ := heapAlloc_small (P := P) (h := σ.caches) (g := σ.source) hne hsmall
  rw [heq] at hrun
  have hkept := heapAllocSmall_kept hP h.ok h.pos hrun
  have hlive : ∀ {live' : List (ℕ × ℕ)}, small ⊆ live' → ∀ {a r}, (a, r) ∈ σ.live →
      (∃ s, (a, s) ∈ live') ∨ ∃ p ∈ big, a = p * 4096 :=
    fun hsub _ _ ha => (h.live ha).imp_left fun ⟨s, hs⟩ => ⟨s, hsub hs⟩
  obtain ⟨s, hout⟩ : ∃ s, AllocOk ok spans σ.source small s (r, h', g') := by
    rcases roundedSize_cases size with ⟨hle, -⟩ | hwrap
    · have hpos : 1 ≤ size.toNat :=
        Nat.pos_of_ne_zero fun h => hne (BitVec.eq_of_toNat_eq h)
      obtain ⟨result, hrun', hresult⟩ :=
        heapAlloc_ok hP.lawful h.ok h.smallInv hpos (hle.trans hsmall)
      rw [heq, hrun] at hrun'
      cases hrun'
      exact ⟨size.toNat, hresult⟩
    · rw [hwrap] at hrun
      exact ⟨0, heapAllocSmall_zero hP h.ok h.smallInv hrun⟩
  cases r with
  | none => exact ⟨small, h.allocSmall hkept hout.2.1 h.live⟩
  | some a =>
      refine ⟨(a, s) :: small, h.allocSmall hkept hout.2.1 ?_⟩
      intro b q hb
      rcases List.mem_cons.mp hb with heq | hb
      · cases heq
        exact Or.inl ⟨s, List.mem_cons_self ..⟩
      · exact hlive (List.subset_cons_self ..) hb

/-- `NX_HeapAlloc` keeps the invariant. -/
theorem heapAlloc (h : HistoryInv ok spans wide σ small big) (hP : P.HandsOut ok spans)
    (hlargeWide : ∀ c n, maxMiddleObjectSize < c → wide c n)
    (hwide : HeapOp.NewWide wide σ (.alloc size))
    (hrun : heapAlloc P σ.caches σ.source size = .ok (r, h', g')) :
    ∃ small' big', HistoryInv ok spans wide ⟨h', g', liveAfter σ.live size r⟩ small' big' := by
  by_cases hne : size = 0
  · unfold Mm.heapAlloc at hrun
    rw [if_pos hne] at hrun
    cases hrun
    exact ⟨small, big, h⟩
  · rcases Nat.lt_or_ge maxSmallObjectSize (roundedSize size) with hlo | hsmall
    · rcases Nat.lt_or_ge maxMiddleObjectSize (roundedSize size) with hlarge | hhi
      · rw [heapAlloc_large hne hlarge] at hrun
        exact ⟨small, h.heapAllocLarge hP hlarge.le (fun n => hlargeWide _ n hlarge)
          (Except.ok.inj hrun)⟩
      · rw [heapAlloc_middle hne hlo hhi] at hrun
        exact ⟨small, h.heapAllocMiddle hP (fun hempty => hwide hempty hlo hhi) hrun⟩
    · obtain ⟨small', hinv⟩ := h.heapAllocSmall hP hne hsmall hrun
      exact ⟨small', big, hinv⟩

/-- `NX_HeapFree` of a live object succeeds and keeps the invariant. -/
theorem heapFree (h : HistoryInv ok spans wide σ small big) (hP : P.HandsOut ok spans) {a s : ℕ}
    (ha : (a, s) ∈ σ.live) :
    ∃ h' g', heapFree P σ.caches σ.source a = .ok (.eok, h', g') ∧
      ∃ small' big',
        HistoryInv ok spans wide ⟨h', g', σ.live.filter fun q => q.1 ≠ a⟩ small' big' := by
  rcases h.live ha with ⟨s, hs⟩ | ⟨p, hp, rfl⟩
  · obtain ⟨h', g', hrun, hinv⟩ := h.freeSmall hP hs
    exact ⟨h', g', hrun, _, _, hinv⟩
  · obtain ⟨h', g', hrun, hinv⟩ := h.freeBig hP hp
    exact ⟨h', g', hrun, _, _, hinv⟩

end HistoryInv

/-! ## Runs -/

/-- A call of a history: a request of any size, or to free a live object. -/
def HeapOp.Allowed {γ : Type} (σ : HeapSession γ) : HeapOp → Prop
  | .alloc _ => True
  | .free object => ∃ r, (object, r) ∈ σ.live

def HistoryMove (P : SpanSource γ) (σ : HeapSession γ) (op : HeapOp) (τ : HeapSession γ) : Prop :=
  op.Allowed σ ∧ heapRun P σ op = .ok τ

theorem HistoryInv.move (hP : P.HandsOut ok spans)
    (hlargeWide : ∀ c n, maxMiddleObjectSize < c → wide c n) {op : HeapOp} {τ : HeapSession γ}
    (hwide : op.NewWide wide σ)
    (h : ∃ small big, HistoryInv ok spans wide σ small big) (hmove : HistoryMove P σ op τ) :
    ∃ small big, HistoryInv ok spans wide τ small big := by
  obtain ⟨small, big, h⟩ := h
  obtain ⟨hallowed, hrun⟩ := hmove
  cases op with
  | alloc size =>
      obtain ⟨⟨r, h', g'⟩, halloc, hrun⟩ := exec_bind_eq_ok_iff.mp hrun
      have hinv := h.heapAlloc hP hlargeWide hwide halloc
      cases r with
      | none =>
          cases hrun
          exact hinv
      | some a =>
          cases hrun
          exact hinv
  | free object =>
      obtain ⟨s, hs⟩ := hallowed
      obtain ⟨h', g', hfree, hinv⟩ := h.heapFree hP hs
      obtain ⟨result, hfree', hrun⟩ := exec_bind_eq_ok_iff.mp hrun
      rw [hfree] at hfree'
      cases hfree'
      cases hrun
      exact hinv

end History

end Nxos.Mm
