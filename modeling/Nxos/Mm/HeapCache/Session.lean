import Nxos.Mm.HeapCache.PageSpans
import Nxos.Support.Transition

/-!
# Runs of the heap

A session is the heap cache with the page cache behind it and the objects its
users hold.  Requests are small ones, from 1 byte to 256 KB.  All calls return,
and in every state that a run reaches the spans are sound: counters, geometry and
the way back from an object to its span agree.
-/

namespace Nxos.Mm

open Nxos.Transition

/-! ## Sessions -/

/-- The heap in use.  `live` lists the objects that were returned and not yet freed,
with the sizes that were asked for. -/
structure HeapSession (γ : Type) where
  caches : HeapCaches
  source : γ
  live : List (ℕ × ℕ)

inductive HeapOp where
  | alloc (size : BitVec 64)
  | free (object : ℕ)
  deriving DecidableEq, Repr

/-- What a user may call: small requests, and to free live objects. -/
def HeapOp.Legal {γ : Type} (σ : HeapSession γ) : HeapOp → Prop
  | .alloc size => 1 ≤ size.toNat ∧ size.toNat ≤ maxSmallObjectSize
  | .free object => ∃ r, (object, r) ∈ σ.live

def heapRun {γ : Type} (P : SpanSource γ) (σ : HeapSession γ) :
    HeapOp → Exec (HeapSession γ)
  | .alloc size => do
      match ← heapAlloc P σ.caches σ.source size with
      | (none, caches, source) => return ⟨caches, source, σ.live⟩
      | (some object, caches, source) =>
          return ⟨caches, source, (object, size.toNat) :: σ.live⟩
  | .free object => do
      let (_, caches, source) ← heapFree P σ.caches σ.source object
      return ⟨caches, source, σ.live.filter fun q => q.1 ≠ object⟩

def HeapCacheMove {γ : Type} (P : SpanSource γ) (σ : HeapSession γ) (op : HeapOp)
    (τ : HeapSession γ) : Prop :=
  op.Legal σ ∧ heapRun P σ op = .ok τ

/-! ## Allocation -/

section Allocation

variable {γ : Type} {P : SpanSource γ} {ok : γ → Prop} {spans : γ → List (ℕ × ℕ)}
  {h : HeapCaches} {g : γ} {live : List (ℕ × ℕ)} {i count : ℕ}

/-- The outcome of a request: the invariant holds with the object, and no span went
back. -/
def AllocOk (ok : γ → Prop) (spans : γ → List (ℕ × ℕ)) (g : γ) (live : List (ℕ × ℕ))
    (r : ℕ) : Option ℕ × HeapCaches × γ → Prop
  | (none, h', g') => ok g' ∧ SmallInv (spans g') h' live ∧ spans g ⊆ spans g'
  | (some a, h', g') => ok g' ∧ SmallInv (spans g') h' ((a, r) :: live) ∧ spans g ⊆ spans g'

theorem buildSmallCacheSystem_eq (p : ℕ) {c : ℕ}
    (hroom : systemUsedObjectCount c + 1 ≤ count * 4096 / c) :
    buildSmallCacheSystem p count (count * 4096 / c) c =
      .ok (SmallInv.newSystem p count c) := by
  unfold buildSmallCacheSystem
  dsimp only
  rw [nxAssert_pos (by rw [length_buildObjects]; omega), exec_ok_bind,
    nxAssert_pos (length_buildObjects ..), exec_ok_bind]
  rfl

/-- `AllocSpan` leaves the caches alone or adds a span with free objects. -/
theorem allocSpan_ok (hP : P.Lawful ok spans) (hok : ok g) (hinv : SmallInv (spans g) h live)
    (hi : i < 96) (hcount : count ∈ smallSpanPages)
    (hfits : (systemUsedObjectCount (classSize i) + 1) * classSize i ≤ count * 4096) :
    ∃ b h' g', allocSpan P h g i count (count * 4096 / classSize i) (classSize i) =
        .ok (b, h', g') ∧
      ok g' ∧ SmallInv (spans g') h' live ∧ spans g ⊆ spans g' ∧
      (b = true → ∃ S rest, h'.smallList i = S :: rest ∧ S.objectFreeList ≠ []) := by
  unfold allocSpan
  rcases halloc : P.pageCacheAlloc g count with ⟨p | p, g'⟩
  · obtain ⟨hok', hspans⟩ := hP.alloc_none hok hcount halloc
    refine ⟨false, h, g', rfl, hok', ?_, ?_, ?_⟩
    · rw [hspans]
      exact hinv
    · rw [hspans]
      exact List.Subset.refl _
    · intro hfalse
      cases hfalse
  · obtain ⟨hok', n, hn, hspans⟩ := hP.alloc_some hok hcount halloc
    have hroom : systemUsedObjectCount (classSize i) + 1 ≤ count * 4096 / classSize i :=
      (Nat.le_div_iff_mul_le (classSize_fits i hi).1).mpr hfits
    have hapart := hP.apart hok'
    dsimp only
    rw [buildSmallCacheSystem_eq p hroom, exec_ok_bind]
    refine ⟨true, _, g', rfl, hok', ?_, ?_, ?_⟩
    · rw [hspans] at hapart ⊢
      exact hinv.addSpan hi (smallSpanPages_pos hcount) hn hfits hapart
    · rw [hspans]
      exact List.subset_cons_self ..
    · intro _
      refine ⟨SmallInv.newSystem p count (classSize i), h.smallList i, ?_, ?_⟩
      · exact Function.update_self ..
      · intro hnil
        have hlen := congrArg List.length hnil
        simp only [SmallInv.newSystem, length_buildObjects, List.length_nil] at hlen
        omega

/-- A round of `AllocSmallObject` that finds a free object. -/
theorem allocSmallLoop_some (P : SpanSource γ) {S : SmallSystem} (hok : ok g)
    (hinv : SmallInv (spans g) h live) (hfind : getFreeSmallCacheSystem h i = some S)
    {r : ℕ} (hr : r ≤ classSize i) (count objectCount size fuel : ℕ) :
    ∃ result, allocSmallLoop P i count objectCount size (fuel + 1) h g = .ok result ∧
      AllocOk ok spans g live r result := by
  unfold getFreeSmallCacheSystem at hfind
  have hS := List.mem_of_find?_eq_some hfind
  have hfree := List.find?_some hfind
  rw [allocSmallLoop]
  unfold getFreeSmallCacheSystem
  rw [hfind]
  dsimp only
  unfold getFreeSmallCacheObject
  rcases hlist : S.objectFreeList with _ | ⟨a, rest⟩
  · simp [hlist] at hfree
  · refine ⟨_, rfl, hok, ?_, List.Subset.refl _⟩
    exact hinv.takeObject hS hlist hr

theorem allocSmallObject_ok (hP : P.Lawful ok spans) (hok : ok g)
    (hinv : SmallInv (spans g) h live) (hi : i < 96) (hcount : count ∈ smallSpanPages)
    (hfits : (systemUsedObjectCount (classSize i) + 1) * classSize i ≤ count * 4096)
    {r : ℕ} (hr : r ≤ classSize i) :
    ∃ result, allocSmallObject P h g i count (count * 4096 / classSize i) (classSize i) =
        .ok result ∧
      AllocOk ok spans g live r result := by
  unfold allocSmallObject
  cases hfind : getFreeSmallCacheSystem h i with
  | some S => exact allocSmallLoop_some P hok hinv hfind hr _ _ _ 1
  | none =>
      obtain ⟨b, h', g', hspan, hok', hinv', hsub, hfree⟩ :=
        allocSpan_ok hP hok hinv hi hcount hfits
      rw [allocSmallLoop, hfind]
      dsimp only
      rw [hspan, exec_ok_bind]
      cases b with
      | false => exact ⟨_, rfl, hok', hinv', hsub⟩
      | true =>
          obtain ⟨S, rest, hlist, hS⟩ := hfree rfl
          have hne : h'.smallList i ≠ [] := by
            rw [hlist]
            exact List.cons_ne_nil _ _
          have hpos : 0 < h'.smallCount i := by
            rw [hinv'.count_eq, hlist]
            exact Nat.succ_pos _
          have hfind' : getFreeSmallCacheSystem h' i = some S := by
            unfold getFreeSmallCacheSystem
            rw [hlist, List.find?_cons_of_pos (by simpa using hS)]
          dsimp only
          rw [if_pos rfl, nxAssert_pos hpos, exec_ok_bind, nxAssert_pos hne, exec_ok_bind]
          obtain ⟨result, hloop, hresult⟩ :=
            allocSmallLoop_some P hok' hinv' hfind' hr count
              (count * 4096 / classSize i) (classSize i) 0
          refine ⟨result, hloop, ?_⟩
          rcases result with ⟨_ | a, h'', g''⟩
          · exact ⟨hresult.1, hresult.2.1, List.Subset.trans hsub hresult.2.2⟩
          · exact ⟨hresult.1, hresult.2.1, List.Subset.trans hsub hresult.2.2⟩

theorem heapAllocSmall_ok (hP : P.Lawful ok spans) (hok : ok g)
    (hinv : SmallInv (spans g) h live) (hi : i < 96) (hcount : count ∈ smallSpanPages)
    (hfits : (systemUsedObjectCount (classSize i) + 1) * classSize i ≤ count * 4096)
    {r : ℕ} (hr : r ≤ classSize i) :
    ∃ result, heapAllocSmall P h g i count = .ok result ∧
      AllocOk ok spans g live r result := by
  have hrest : ∀ {h' g'}, ok g' → SmallInv (spans g') h' live → spans g ⊆ spans g' →
      h'.smallList i ≠ [] →
      ∃ result, (do
        nxAssert (0 < h'.smallCount i)
        nxAssert (h'.smallList i ≠ [])
        allocSmallObject P h' g' i count (count * 4096 / classSize i) (classSize i)) =
          .ok result ∧ AllocOk ok spans g live r result := by
    intro h' g' hok' hinv' hsub hne
    have hpos : 0 < h'.smallCount i := by
      rw [hinv'.count_eq]
      exact List.length_pos_iff.mpr hne
    rw [nxAssert_pos hpos, exec_ok_bind, nxAssert_pos hne, exec_ok_bind]
    obtain ⟨result, halloc, hresult⟩ :=
      allocSmallObject_ok hP hok' hinv' hi hcount hfits hr
    refine ⟨result, halloc, ?_⟩
    rcases result with ⟨_ | a, h'', g''⟩
    · exact ⟨hresult.1, hresult.2.1, List.Subset.trans hsub hresult.2.2⟩
    · exact ⟨hresult.1, hresult.2.1, List.Subset.trans hsub hresult.2.2⟩
  unfold heapAllocSmall
  dsimp only
  by_cases hempty : h.smallList i = []
  · obtain ⟨b, h', g', hspan, hok', hinv', hsub, hfree⟩ :=
      allocSpan_ok hP hok hinv hi hcount hfits
    rw [if_pos hempty, hspan, exec_ok_bind]
    cases b with
    | false => exact ⟨_, rfl, hok', hinv', hsub⟩
    | true =>
        obtain ⟨S, rest, hlist, -⟩ := hfree rfl
        refine hrest hok' hinv' hsub ?_
        rw [hlist]
        exact List.cons_ne_nil _ _
  · rw [if_neg hempty, exec_ok_bind]
    exact hrest hok hinv (List.Subset.refl _) hempty

/-- `NX_HeapAlloc` returns for every small request. -/
theorem heapAlloc_ok (hP : P.Lawful ok spans) (hok : ok g) (hinv : SmallInv (spans g) h live)
    {size : BitVec 64} (hpos : 1 ≤ size.toNat) (hle : size.toNat ≤ maxSmallObjectSize) :
    ∃ result, heapAlloc P h g size = .ok result ∧
      AllocOk ok spans g live size.toNat result := by
  have hne : size ≠ 0 := by
    rintro rfl
    exact absurd hpos (by decide)
  have hround : size.toNat ≤ (size.toNat + 15) % 2 ^ 64 / 16 * 16 ∧
      (size.toNat + 15) % 2 ^ 64 / 16 * 16 ≤ maxSmallObjectSize := by
    unfold maxSmallObjectSize at hle ⊢
    omega
  obtain ⟨hge, hsmall⟩ := hround
  unfold heapAlloc
  rw [if_neg hne]
  dsimp only
  generalize (size.toNat + 15) % 2 ^ 64 / 16 * 16 = rounded at hge hsmall
  obtain ⟨i, hi, hclass, hbelow, hcache⟩ := sizeToCache_small hsmall
  rw [if_neg (Nat.not_lt.mpr hsmall), hcache, exec_ok_bind]
  exact heapAllocSmall_ok hP hok hinv hi
    (sizeToPageCount_mem (Nat.lt_of_lt_of_le hpos hge) hsmall)
    (span_fits (Nat.lt_of_lt_of_le hpos hge) hsmall hi hbelow) (Nat.le_trans hge hclass)

end Allocation

/-! ## From an object to its span -/

section Lookup

variable {γ : Type} {P : SpanSource γ} {ok : γ → Prop} {spans : γ → List (ℕ × ℕ)}
  {h : HeapCaches} {g : γ} {live : List (ℕ × ℕ)} {i a : ℕ} {S : SmallSystem}

theorem pageToSpan_object (hP : P.Lawful ok spans) (hok : ok g)
    (hinv : SmallInv (spans g) h live) (hS : S ∈ h.smallList i) (hcov : S.Covers a) :
    P.pageToSpan g (a / 4096) = S.page := by
  obtain ⟨n, hn, hle⟩ := (hinv.system hS).block
  unfold SmallSystem.Covers at hcov
  exact hP.pageToSpan hok hn (by omega) (by omega)

theorem heapGetObjectSize_object (hP : P.Lawful ok spans) (hok : ok g)
    (hinv : SmallInv (spans g) h live) (hS : S ∈ h.smallList i) (hcov : S.Covers a) :
    heapGetObjectSize P h g a = classSize i := by
  unfold heapGetObjectSize
  rw [pageToSpan_object hP hok hinv hS hcov]
  exact (hinv.system hS).marked

theorem find_system (hinv : SmallInv (spans g) h live) (hS : S ∈ h.smallList i) :
    ((h.smallList i).find? fun T => T.page = S.page) = some S := by
  cases hfind : (h.smallList i).find? fun T => T.page = S.page with
  | none =>
      rw [List.find?_eq_none] at hfind
      exact absurd (decide_eq_true rfl) (hfind S hS)
  | some T =>
      have hT := List.mem_of_find?_eq_some hfind
      have hpage : T.page = S.page := by simpa using List.find?_some hfind
      rw [(hinv.system_unique hT hS hpage).2]

/-- `NX_HeapFree` of an object of a small span reaches `PutFreeSmallCacheObject` with
that span. -/
theorem heapFree_eq (hP : P.Lawful ok spans) (hok : ok g) (hinv : SmallInv (spans g) h live)
    (hS : S ∈ h.smallList i) (hcov : S.Covers a) :
    heapFree P h g a = .ok (putFreeSmallCacheObject P h g i S a) := by
  have hi := (hinv.system hS).lt
  obtain ⟨hpos, hle, -⟩ := classSize_fits i hi
  unfold heapFree
  dsimp only
  rw [heapGetObjectSize_object hP hok hinv hS hcov, pageToSpan_object hP hok hinv hS hcov,
    if_neg (Nat.ne_of_gt hpos), if_neg (Nat.not_lt.mpr hle)]
  unfold freeSmallObject
  rw [(hinv.system hS).marked, sizeToCache_classSize hi, exec_ok_bind]
  dsimp only
  rw [find_system hinv hS]

/-- `NX_HeapFree` of a live object succeeds.  If a span goes back to the page cache,
none of its objects is live any more. -/
theorem heapFree_ok (hP : P.Lawful ok spans) (hok : ok g) (hinv : SmallInv (spans g) h live)
    {r : ℕ} (ha : (a, r) ∈ live) :
    ∃ h' g', heapFree P h g a = .ok (.eok, h', g') ∧ ok g' ∧
      SmallInv (spans g') h' (live.filter fun q => q.1 ≠ a) ∧
      ∀ p n, (p, n) ∈ spans g → (p, n) ∉ spans g' →
        ∀ b s, (b, s) ∈ live.filter (fun q => q.1 ≠ a) →
          ¬(p * 4096 ≤ b ∧ b < (p + n) * 4096) := by
  obtain ⟨i, S, hS, hcov, -⟩ := hinv.live_in ha
  rw [heapFree_eq hP hok hinv hS hcov]
  unfold putFreeSmallCacheObject
  by_cases hlast : S.maxObjects ≤ S.objectFreeCount + 1 ∧
      maxSmallSpanThreshold ≤ h.smallCount i + 1
  · rw [if_pos hlast]
    obtain ⟨n, hn, -⟩ := (hinv.system hS).block
    obtain ⟨g', hfree, hok', hspans⟩ := hP.free hok hn
    obtain ⟨hnone, hinv'⟩ := hinv.dropSpan hS ha hcov hlast.1
    simp only [hfree]
    refine ⟨_, g', rfl, hok', ?_, ?_⟩
    · rw [hspans]
      exact hinv'
    · intro p m hp hp' b s hb hin
      rw [hspans, List.mem_filter] at hp'
      have hpS : p = S.page := by
        by_contra hne
        exact hp' ⟨hp, by simpa using hne⟩
      -- a live object of the span would be covered by the header that is gone
      obtain ⟨hblive, -⟩ := SmallInv.mem_of_mem_filter hb
      obtain ⟨j, T, hT, hTb, -⟩ := hinv.live_in hblive
      obtain ⟨k, hk, hkle⟩ := (hinv.system hT).block
      have hpage : T.page = p := by
        by_contra hne
        have hapart := apart_of_mem (hP.apart hok) hk hp
          (fun heq => hne (congrArg Prod.fst heq))
        unfold PagesApart at hapart
        unfold SmallSystem.Covers at hTb
        omega
      obtain ⟨-, rfl⟩ := hinv.system_unique hT hS (hpage.trans hpS)
      have hmem : b ∈ liveIn (live.filter fun q => q.1 ≠ a) T :=
        mem_liveIn.mpr ⟨⟨s, hb⟩, hTb⟩
      rw [hnone] at hmem
      exact absurd hmem List.not_mem_nil
  · rw [if_neg hlast]
    refine ⟨_, g, rfl, hok, hinv.putObject hS ha hcov, ?_⟩
    intro p n hp hp'
    exact absurd hp hp'

end Lookup

/-! ## Whole runs -/

/-- A span of the cache `i` in a session: its objects, free and live, are as many as
its header says, disjoint, in the span behind the header, and lead back to it. -/
structure SpanSound {γ : Type} (P : SpanSource γ) (spans : γ → List (ℕ × ℕ))
    (σ : HeapSession γ) (i : ℕ) (S : SmallSystem) : Prop where
  max_pos : 1 ≤ S.maxObjects
  total : S.objectFreeList.length + (liveIn σ.live S).length = S.maxObjects
  disjoint : (spanObjects σ.live S).Pairwise fun a b =>
    a + classSize i ≤ b ∨ b + classSize i ≤ a
  inside : ∃ n, (S.page, n) ∈ spans σ.source ∧ ∀ a ∈ spanObjects σ.live S,
    S.page * 4096 + sizeofSmallSystem ≤ a ∧ a + classSize i ≤ (S.page + n) * 4096
  free_count : S.objectFreeCount = S.objectFreeList.length
  found : ∀ a ∈ spanObjects σ.live S, P.pageToSpan σ.source (a / 4096) = S.page ∧
    heapGetObjectSize P σ.caches σ.source a = classSize i ∧
    heapFree P σ.caches σ.source a =
      .ok (putFreeSmallCacheObject P σ.caches σ.source i S a)

/-- All spans are sound, the caches count their spans, and every live object is an
object of a span with at least the requested size. -/
structure HeapSound {γ : Type} (P : SpanSource γ) (spans : γ → List (ℕ × ℕ))
    (σ : HeapSession γ) : Prop where
  span : ∀ {i S}, S ∈ σ.caches.smallList i → SpanSound P spans σ i S
  cache_count : ∀ i, σ.caches.smallCount i = (σ.caches.smallList i).length
  size : ∀ {a r}, (a, r) ∈ σ.live → ∃ i S, S ∈ σ.caches.smallList i ∧
    a ∈ spanObjects σ.live S ∧ r ≤ classSize i

theorem buildObjects_pairwise (size n start : ℕ) :
    (buildObjects size n start).Pairwise fun a b => a + size ≤ b ∨ b + size ≤ a := by
  induction n generalizing start with
  | zero => exact List.Pairwise.nil
  | succ n ih =>
      rw [buildObjects, List.pairwise_cons]
      refine ⟨?_, ih _⟩
      intro b hb
      obtain ⟨j, -, rfl⟩ := mem_buildObjects.mp hb
      omega

section Runs

variable {γ : Type} {P : SpanSource γ} {ok : γ → Prop} {spans : γ → List (ℕ × ℕ)}

theorem HeapSound.of_inv (hP : P.Lawful ok spans) {σ : HeapSession γ} (hok : ok σ.source)
    (hinv : SmallInv (spans σ.source) σ.caches σ.live) : HeapSound P spans σ where
  span := by
    intro i S hS
    have hsys := hinv.system hS
    have hcov : ∀ a ∈ spanObjects σ.live S, S.Covers a := fun a ha => hsys.object_covered ha
    refine ⟨hsys.max_pos, hsys.length_objects, ?_, ?_, hsys.count_eq, ?_⟩
    · refine (hsys.objects.pairwise_iff ?_).mpr (buildObjects_pairwise _ _ _)
      exact fun hab => hab.symm
    · obtain ⟨n, hn, hle⟩ := hsys.block
      refine ⟨n, hn, ?_⟩
      intro a ha
      obtain ⟨hlo, hhi⟩ := hsys.slot_inside (hsys.objects.mem_iff.mp ha)
      refine ⟨hlo, Nat.le_trans hhi ?_⟩
      exact Nat.mul_le_mul_right _ (Nat.add_le_add_left hle _)
    · intro a ha
      exact ⟨pageToSpan_object hP hok hinv hS (hcov a ha),
        heapGetObjectSize_object hP hok hinv hS (hcov a ha),
        heapFree_eq hP hok hinv hS (hcov a ha)⟩
  cache_count := hinv.count_eq
  size := by
    intro a r har
    obtain ⟨i, S, hS, hcov, hr⟩ := hinv.live_in har
    exact ⟨i, S, hS, List.mem_append_right _ (mem_liveIn.mpr ⟨⟨r, har⟩, hcov⟩), hr⟩

theorem heapRun_ok (hP : P.Lawful ok spans) {σ : HeapSession γ} (hok : ok σ.source)
    (hinv : SmallInv (spans σ.source) σ.caches σ.live) {op : HeapOp} (hlegal : op.Legal σ) :
    ∃ τ, heapRun P σ op = .ok τ ∧ ok τ.source ∧
      SmallInv (spans τ.source) τ.caches τ.live ∧
      ∀ p n, (p, n) ∈ spans σ.source → (p, n) ∉ spans τ.source →
        ∀ b s, (b, s) ∈ τ.live → ¬(p * 4096 ≤ b ∧ b < (p + n) * 4096) := by
  cases op with
  | alloc size =>
      obtain ⟨⟨_ | a, h', g'⟩, halloc, hok', hinv', hsub⟩ :=
        heapAlloc_ok hP hok hinv hlegal.1 hlegal.2
      · refine ⟨⟨h', g', σ.live⟩, ?_, hok', hinv', ?_⟩
        · simp only [heapRun, halloc, exec_ok_bind, exec_pure]
        · intro p n hp hp'
          exact absurd (hsub hp) hp'
      · refine ⟨⟨h', g', (a, size.toNat) :: σ.live⟩, ?_, hok', hinv', ?_⟩
        · simp only [heapRun, halloc, exec_ok_bind, exec_pure]
        · intro p n hp hp'
          exact absurd (hsub hp) hp'
  | free object =>
      obtain ⟨r, hlive⟩ := hlegal
      obtain ⟨h', g', hfree, hok', hinv', hback⟩ := heapFree_ok hP hok hinv hlive
      refine ⟨⟨h', g', σ.live.filter fun q => q.1 ≠ object⟩, ?_, hok', hinv', hback⟩
      simp only [heapRun, hfree, exec_ok_bind, exec_pure]

/-- In every state that a run of small requests and frees reaches, the heap is sound,
every further legal call returns, and a call gives a span back only if none of its
objects is live afterwards. -/
theorem heapReachable_sound (hP : P.Lawful ok spans) {g₀ : γ} (hok₀ : ok g₀)
    (hempty : spans g₀ = []) :
    ∀ σ, Reachable (HeapCacheMove P) ⟨heapCacheInit, g₀, []⟩ σ →
      HeapSound P spans σ ∧
      ∀ op : HeapOp, op.Legal σ → ∃ τ, heapRun P σ op = .ok τ ∧
        ∀ p n, (p, n) ∈ spans σ.source → (p, n) ∉ spans τ.source →
          ∀ b s, (b, s) ∈ τ.live → ¬(p * 4096 ≤ b ∧ b < (p + n) * 4096) := by
  intro σ hreach
  have hinv : ok σ.source ∧ SmallInv (spans σ.source) σ.caches σ.live := by
    refine Reachable.invariant
      (P := fun σ => ok σ.source ∧ SmallInv (spans σ.source) σ.caches σ.live) hreach
      ⟨hok₀, by dsimp only; rw [hempty]; exact smallInv_init⟩ ?_
    rintro σ op τ ⟨hok, hinv⟩ ⟨hlegal, hrun⟩
    obtain ⟨τ', hrun', hok', hinv', -⟩ := heapRun_ok hP hok hinv hlegal
    rw [hrun] at hrun'
    cases hrun'
    exact ⟨hok', hinv'⟩
  refine ⟨HeapSound.of_inv hP hinv.1 hinv.2, ?_⟩
  intro op hlegal
  obtain ⟨τ, hrun, -, -, hback⟩ := heapRun_ok hP hinv.1 hinv.2 hlegal
  exact ⟨τ, hrun, hback⟩

/-- A request for 16 bytes to the heap over an empty page cache. -/
theorem heapReachable_sound_pageCache :
    ∃ τ, heapRun (pageCacheSpans bumpSource)
        ⟨heapCacheInit, ⟨pageCacheInit, ⟨0, [], by simp⟩, []⟩, []⟩ (.alloc 16) = .ok τ ∧
      HeapSound (pageCacheSpans bumpSource) CacheSession.outstanding τ := by
  have hempty : BumpState.blocks ⟨0, [], by simp⟩ = [] := rfl
  have hsound := heapReachable_sound (pageCacheSpans_lawful bumpSource_lawful)
    (heapSpansOk_init hempty) rfl
  have hlegal : ∀ σ : HeapSession (CacheSession BumpState), (HeapOp.alloc 16).Legal σ :=
    fun _ => ⟨by decide, by decide⟩
  obtain ⟨τ, hrun, -⟩ := (hsound _ .refl).2 (.alloc 16) (hlegal _)
  exact ⟨τ, hrun, (hsound τ (.tail .refl ⟨hlegal _, hrun⟩)).1⟩

end Runs

end Nxos.Mm
