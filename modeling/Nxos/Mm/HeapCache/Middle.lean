import Nxos.Mm.HeapCache.History

/-!
# Objects of the middle cache

Requests above 256 KB and up to 1 MB get an object that is marked with 1 MB, but its span has
only the pages of the request that it was made for.  When it is freed it waits for the next
request, of whatever size.  Such an object is as large as its mark exactly when its span has
256 pages.
-/

namespace Nxos.Mm

open Nxos.Transition

/-- A request that goes to the middle cache. -/
def MiddleSize (size : BitVec 64) : Prop :=
  maxSmallObjectSize < size.toNat ∧ size.toNat ≤ maxMiddleObjectSize

instance (size : BitVec 64) : Decidable (MiddleSize size) :=
  inferInstanceAs (Decidable (_ ∧ _))

def middlePages (size : BitVec 64) : ℕ :=
  sizeToPageCount (roundedSize size)

theorem middleSize_iff_rounded {size : BitVec 64} :
    MiddleSize size ↔
      maxSmallObjectSize < roundedSize size ∧ roundedSize size ≤ maxMiddleObjectSize := by
  have hlt := size.isLt
  unfold MiddleSize roundedSize maxSmallObjectSize maxMiddleObjectSize
  omega

theorem MiddleSize.middlePages_ge_iff {size : BitVec 64} (h : MiddleSize size) :
    256 ≤ middlePages size ↔ maxMiddleObjectSize - 4096 < size.toNat := by
  have hlo : 262144 < size.toNat := h.1
  have hhi : size.toNat ≤ 1048576 := h.2
  have hrounded := middleSize_iff_rounded.mp h
  unfold middlePages sizeToPageCount divRoundUp
  unfold maxSmallObjectSize maxMiddleObjectSize at *
  rw [if_neg (by omega), if_neg (by omega), if_neg (by omega), if_neg (by omega),
    if_neg (by omega)]
  unfold roundedSize
  omega

section Middle

variable {γ : Type} (P : SpanSource γ) (spans : γ → List (ℕ × ℕ))

/-- The object is at the start of a span that has room for the request and for the size that
`NX_HeapGetObjectSize` tells. -/
def MiddleRight (h : HeapCaches) (g : γ) (size : BitVec 64) (object : ℕ) : Prop :=
  ∃ p n, object = p * 4096 ∧ (p, n) ∈ spans g ∧ size.toNat ≤ n * 4096 ∧
    heapGetObjectSize P h g object ≤ n * 4096

/-- The span for the request has 256 pages: the first one on the list of the middle cache, and
when there is none, the one that the page cache hands out. -/
def MiddleFull (σ : HeapSession γ) (size : BitVec 64) : Prop :=
  match σ.caches.middleList with
  | p :: _ => ∃ n, (p, n) ∈ spans σ.source ∧ 256 ≤ n
  | [] => ∃ p n, (P.pageCacheAlloc σ.source (middlePages size)).1 = some p ∧
      (p, n) ∈ spans (P.pageCacheAlloc σ.source (middlePages size)).2 ∧ 256 ≤ n

end Middle

/-- A request that finds the list of the middle cache empty asks for more than 1 MB less one
page. -/
def HeapOp.MiddleFits {γ : Type} (σ : HeapSession γ) : HeapOp → Prop
  | .alloc size => MiddleSize size → σ.caches.middleList = [] →
      maxMiddleObjectSize - 4096 < size.toNat
  | .free _ => True

section History

variable {γ : Type} {P : SpanSource γ} {ok : γ → Prop} {spans : γ → List (ℕ × ℕ)}
  {wide : ℕ → ℕ → Prop} {σ : HeapSession γ} {small : List (ℕ × ℕ)} {big : List ℕ}

/-- An object at the start of a span that is marked with 1 MB is right exactly when the span
has 256 pages. -/
theorem middleRight_iff (hP : P.HandsOut ok spans) {h : HeapCaches} {g : γ} (hok : ok g)
    (hpos : ∀ q ∈ spans g, 1 ≤ q.2) {p n : ℕ} (hn : (p, n) ∈ spans g)
    (hmark : h.sizeClass p = maxMiddleObjectSize) {size : BitVec 64} (hsize : MiddleSize size) :
    MiddleRight P spans h g size (p * 4096) ↔ 256 ≤ n := by
  have hn' : 1 ≤ n := hpos _ hn
  have hobject : heapGetObjectSize P h g (p * 4096) = 1048576 := by
    rw [heapGetObjectSize, Nat.mul_div_cancel _ (by decide),
      hP.pageToSpan hok hn (le_refl p) (by omega), hmark]
    rfl
  have hhi : size.toNat ≤ 1048576 := hsize.2
  constructor
  · rintro ⟨q, m, heq, hm, -, hle⟩
    have hpq : p = q := Nat.eq_of_mul_eq_mul_right (by decide) heq
    subst hpq
    rw [pages_unique (hP.apart hok) hpos hn hm]
    rw [hobject] at hle
    omega
  · intro hfull
    refine ⟨p, n, rfl, hn, by omega, ?_⟩
    rw [hobject]
    omega

/-- Where an object of the middle cache comes from: the list, or the page cache. -/
inductive MiddleOutcome (P : SpanSource γ) (σ : HeapSession γ) (size : BitVec 64) :
    ℕ → HeapCaches → γ → Prop
  | listed (p : ℕ) (rest : List ℕ) (hlist : σ.caches.middleList = p :: rest) :
      MiddleOutcome P σ size (p * 4096)
        { σ.caches with middleList := rest, middleCount := σ.caches.middleCount - 1 } σ.source
  | fresh (p : ℕ) (g' : γ) (hlist : σ.caches.middleList = [])
      (halloc : P.pageCacheAlloc σ.source (middlePages size) = (some p, g')) :
      MiddleOutcome P σ size (p * 4096) (pageNodeMarkSize σ.caches p maxMiddleObjectSize) g'

theorem HistoryInv.middleOutcome (h : HistoryInv ok spans wide σ small big) {size : BitVec 64}
    (hsize : MiddleSize size) {a : ℕ} {h' : HeapCaches} {g' : γ}
    (hrun : Mm.heapAlloc P σ.caches σ.source size = .ok (some a, h', g')) :
    MiddleOutcome P σ size a h' g' := by
  have hne : size ≠ 0 := by
    rintro rfl
    exact absurd hsize.1 (by decide)
  obtain ⟨hlo, hhi⟩ := middleSize_iff_rounded.mp hsize
  rw [heapAlloc_middle hne hlo hhi, heapAllocMiddle_eq h.middleCount, ← middlePages] at hrun
  cases hlist : σ.caches.middleList with
  | cons p rest =>
      rw [hlist] at hrun
      cases hrun
      exact .listed p rest hlist
  | nil =>
      rw [hlist] at hrun
      rcases halloc : P.pageCacheAlloc σ.source (middlePages size) with ⟨_ | p, g₁⟩
      · rw [halloc] at hrun
        cases hrun
      · rw [halloc] at hrun
        cases hrun
        exact .fresh p _ hlist halloc

/-- What a request to the middle cache returns is right exactly when its span has 256 pages. -/
theorem HistoryInv.middleRight_iff (h : HistoryInv ok spans wide σ small big)
    (hP : P.HandsOut ok spans) {size : BitVec 64} (hsize : MiddleSize size) {a : ℕ}
    {h' : HeapCaches} {g' : γ}
    (hrun : Mm.heapAlloc P σ.caches σ.source size = .ok (some a, h', g')) :
    MiddleRight P spans h' g' size a ↔ MiddleFull P spans σ size := by
  unfold MiddleFull
  cases h.middleOutcome hsize hrun with
  | listed p rest hlist =>
      rw [hlist]
      have hp : p ∈ σ.caches.middleList := by
        rw [hlist]
        exact List.mem_cons_self ..
      obtain ⟨n, hn, -⟩ := h.held p (List.mem_append_right _ hp)
      refine (Mm.middleRight_iff hP h.ok h.pos hn (h.middle_marked p hp) hsize).trans ?_
      refine ⟨fun hfull => ⟨n, hn, hfull⟩, ?_⟩
      rintro ⟨m, hm, hfull⟩
      rw [pages_unique (hP.apart h.ok) h.pos hn hm]
      exact hfull
  | fresh p _ hlist halloc =>
      rw [hlist, halloc]
      obtain ⟨-, hok', n, -, hspans⟩ := hP.alloc_some h.ok halloc
      have hn : (p, n) ∈ spans g' := by
        rw [hspans]
        exact List.mem_cons_self ..
      have hpos := hP.alloc_pos h.ok h.pos halloc
      have hmark : (pageNodeMarkSize σ.caches p maxMiddleObjectSize).sizeClass p =
          maxMiddleObjectSize := Function.update_self ..
      refine (Mm.middleRight_iff hP hok' hpos hn hmark hsize).trans ?_
      refine ⟨fun hfull => ⟨p, n, rfl, hn, hfull⟩, ?_⟩
      rintro ⟨q, m, heq, hm, hfull⟩
      cases heq
      rw [pages_unique (hP.apart hok') hpos hn hm]
      exact hfull

/-- The pages of a span that is marked with 1 MB, where all requests meet their condition. -/
def FullPages (c n : ℕ) : Prop :=
  c = maxMiddleObjectSize → 256 ≤ n

theorem HeapOp.MiddleFits.newWide {op : HeapOp} (h : op.MiddleFits σ) :
    op.NewWide FullPages σ := by
  cases op with
  | alloc size =>
      intro hempty hlo hhi n hn _
      have hsize := middleSize_iff_rounded.mpr ⟨hlo, hhi⟩
      exact (hsize.middlePages_ge_iff.mpr (h hsize hempty)).trans hn
  | free object => trivial

/-- Among wide spans every request that meets its condition gets one with 256 pages. -/
theorem HistoryInv.middleFull (h : HistoryInv ok spans FullPages σ small big)
    (hP : P.HandsOut ok spans) {size : BitVec 64} (hsize : MiddleSize size)
    (hfits : (HeapOp.alloc size).MiddleFits σ) {a : ℕ} {h' : HeapCaches} {g' : γ}
    (hrun : Mm.heapAlloc P σ.caches σ.source size = .ok (some a, h', g')) :
    MiddleFull P spans σ size := by
  unfold MiddleFull
  cases h.middleOutcome hsize hrun with
  | listed p rest hlist =>
      rw [hlist]
      have hp : p ∈ σ.caches.middleList := by
        rw [hlist]
        exact List.mem_cons_self ..
      obtain ⟨n, hn, hwide⟩ := h.held p (List.mem_append_right _ hp)
      exact ⟨n, hn, hwide (h.middle_marked p hp)⟩
  | fresh p _ hlist halloc =>
      rw [hlist, halloc]
      obtain ⟨-, -, n, hn, hspans⟩ := hP.alloc_some h.ok halloc
      refine ⟨p, n, rfl, ?_, (hsize.middlePages_ge_iff.mpr (hfits hsize hlist)).trans hn⟩
      rw [hspans]
      exact List.mem_cons_self ..

/-- In every state that a history reaches, the result of a request to the middle cache is right
exactly when its span has 256 pages.  It is always right in a history in which every such
request that finds the list empty asks for more than 1 MB less one page. -/
theorem heapReachable_middle (hP : P.HandsOut ok spans) {g₀ : γ} (hok₀ : ok g₀)
    (hempty : spans g₀ = []) :
    (∀ σ, Reachable (HistoryMove P) ⟨heapCacheInit, g₀, []⟩ σ →
      ∀ size a h' g', MiddleSize size →
        heapAlloc P σ.caches σ.source size = .ok (some a, h', g') →
        (MiddleRight P spans h' g' size a ↔ MiddleFull P spans σ size)) ∧
    ∀ σ, Reachable (fun σ op τ => HistoryMove P σ op τ ∧ op.MiddleFits σ)
        ⟨heapCacheInit, g₀, []⟩ σ →
      ∀ size a h' g', MiddleSize size → (HeapOp.alloc size).MiddleFits σ →
        heapAlloc P σ.caches σ.source size = .ok (some a, h', g') →
        MiddleRight P spans h' g' size a := by
  constructor
  · intro σ hreach size a h' g' hsize hrun
    obtain ⟨small, big, hinv⟩ : ∃ small big, HistoryInv ok spans (fun _ _ => True) σ small big := by
      refine Reachable.invariant
        (P := fun σ => ∃ small big, HistoryInv ok spans (fun _ _ => True) σ small big) hreach
        ⟨[], [], historyInv_init hok₀ hempty⟩ ?_
      intro σ op τ hinv hmove
      refine HistoryInv.move hP (fun _ _ _ => trivial) ?_ hinv hmove
      cases op with
      | alloc size => exact fun _ _ _ _ _ => trivial
      | free object => trivial
    exact hinv.middleRight_iff hP hsize hrun
  · intro σ hreach size a h' g' hsize hfits hrun
    obtain ⟨small, big, hinv⟩ : ∃ small big, HistoryInv ok spans FullPages σ small big := by
      refine Reachable.invariant
        (P := fun σ => ∃ small big, HistoryInv ok spans FullPages σ small big) hreach
        ⟨[], [], historyInv_init hok₀ hempty⟩ ?_
      rintro σ op τ hinv ⟨hmove, hop⟩
      exact HistoryInv.move hP (fun c n hlt heq => absurd heq hlt.ne') hop.newWide hinv hmove
    exact (hinv.middleRight_iff hP hsize hrun).mpr (hinv.middleFull hP hsize hfits hrun)

end History

/-! ## A page cache that hands out what is asked for -/

def bumpSpans : SpanSource BumpState where
  pageCacheAlloc b count :=
    if count = 0 ∨ pageCacheMaxPages < count then (none, b) else bumpSource.pageAlloc b count
  pageCacheFree b p := (.eok, bumpSource.pageFree b p)
  pageToSpan b q := ((b.blocks.find? fun s => s.1 ≤ q ∧ q < s.1 + s.2).map Prod.fst).getD q

theorem bumpSpans_handsOut :
    bumpSpans.HandsOut (fun b => b.blocks.Pairwise PagesApart) BumpState.blocks where
  apart hok := hok
  alloc_none {b b' count} hok halloc := by
    change (if count = 0 ∨ pageCacheMaxPages < count then _ else _) = _ at halloc
    split_ifs at halloc
    · cases halloc
      exact ⟨hok, rfl⟩
    · cases halloc
  alloc_some {b b' count p} hok halloc := by
    change (if count = 0 ∨ pageCacheMaxPages < count then _ else _) = _ at halloc
    split_ifs at halloc with hcount
    · cases halloc
    · obtain ⟨n, hn, hblocks, hapart⟩ := bumpSource_lawful.alloc_some halloc
      refine ⟨by omega, ?_, n, hn, hblocks⟩
      rw [hblocks]
      exact List.pairwise_cons.mpr ⟨hapart, hok⟩
  free {b p n} hok _ :=
    ⟨_, rfl, hok.sublist List.filter_sublist, rfl⟩
  pageToSpan {b p n q} hok hn hlo hhi := by
    change ((b.blocks.find? fun s => s.1 ≤ q ∧ q < s.1 + s.2).map Prod.fst).getD q = p
    cases hfind : b.blocks.find? fun s => s.1 ≤ q ∧ q < s.1 + s.2 with
    | none =>
        have hnone := List.find?_eq_none.mp hfind _ hn
        exact absurd (decide_eq_true ⟨hlo, hhi⟩) hnone
    | some s =>
        have hs : s.1 ≤ q ∧ q < s.1 + s.2 := by simpa using List.find?_some hfind
        by_contra hne
        have hdisjoint := apart_of_mem hok (List.mem_of_find?_eq_some hfind) hn
          fun heq => hne (congrArg Prod.fst heq)
        unfold PagesApart at hdisjoint
        dsimp only at hdisjoint
        omega

def bumpEmpty : BumpState :=
  ⟨0, [], nofun⟩

/-- The first request is for 1 MB. -/
theorem heapReachable_middle_full :
    ∃ a h' g', heapAlloc bumpSpans heapCacheInit bumpEmpty 0x100000 = .ok (some a, h', g') ∧
      MiddleRight bumpSpans BumpState.blocks h' g' 0x100000 a := by
  have haddr : (heapAlloc bumpSpans heapCacheInit bumpEmpty 0x100000).map (·.1) = .ok (some 0) := by
    decide +kernel
  obtain ⟨⟨r, h', g'⟩, hrun, hr⟩ := exec_map_eq_ok_iff.mp haddr
  have hr' : r = some 0 := hr
  subst hr'
  have hok : bumpEmpty.blocks.Pairwise PagesApart := .nil
  have hright := (heapReachable_middle bumpSpans_handsOut hok rfl).2 _ .refl 0x100000 0 h' g'
    (by decide) (fun _ _ => by decide) hrun
  exact ⟨0, h', g', hrun, hright⟩

def shortRun : Exec (Option ℕ × HeapCaches × BumpState) := do
  let σ ← heapRun bumpSpans ⟨heapCacheInit, bumpEmpty, []⟩ (.alloc 0x50000)
  let σ ← heapRun bumpSpans σ (.free 0)
  heapAlloc bumpSpans σ.caches σ.source 0x100000

/-- The request for 1 MB gets the span of 80 pages. -/
theorem exists_middle_not_right :
    ∃ σ a h' g', Reachable (HistoryMove bumpSpans) ⟨heapCacheInit, bumpEmpty, []⟩ σ ∧
      MiddleSize 0x100000 ∧
      heapAlloc bumpSpans σ.caches σ.source 0x100000 = .ok (some a, h', g') ∧
      ¬MiddleRight bumpSpans BumpState.blocks h' g' 0x100000 a := by
  have hshort : shortRun.map (fun r => (r.1, r.2.2.blocks)) = .ok (some 0, [(0, 80)]) := by
    decide +kernel
  have hlive : (heapRun bumpSpans ⟨heapCacheInit, bumpEmpty, []⟩ (.alloc 0x50000)).map
      (·.live) = .ok [(0, 0x50000)] := by
    decide +kernel
  obtain ⟨⟨r, h', g'⟩, hrun, hr⟩ := exec_map_eq_ok_iff.mp hshort
  obtain ⟨hr, hblocks⟩ := Prod.mk.inj hr
  obtain ⟨σ₁, halloc, hrun⟩ := exec_bind_eq_ok_iff.mp hrun
  obtain ⟨σ₂, hfree, hrun⟩ := exec_bind_eq_ok_iff.mp hrun
  rw [halloc] at hlive
  have hlive : σ₁.live = [(0, 0x50000)] := Except.ok.inj hlive
  have hmove₁ : HistoryMove bumpSpans ⟨heapCacheInit, bumpEmpty, []⟩ (.alloc 0x50000) σ₁ :=
    ⟨trivial, halloc⟩
  have hmove₂ : HistoryMove bumpSpans σ₁ (.free 0) σ₂ := by
    refine ⟨⟨0x50000, ?_⟩, hfree⟩
    rw [hlive]
    exact List.mem_singleton.mpr rfl
  dsimp only at hr
  subst hr
  refine ⟨σ₂, 0, h', g', .tail (.tail .refl hmove₁) hmove₂, by decide, hrun, ?_⟩
  rintro ⟨p, n, -, hn, hle, -⟩
  rw [hblocks] at hn
  cases List.mem_singleton.mp hn
  exact absurd hle (by decide)

end Nxos.Mm
