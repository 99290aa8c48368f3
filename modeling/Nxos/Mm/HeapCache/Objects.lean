import Nxos.Mm.HeapCache.Classes
import Nxos.Mm.PageCache.Session
import Mathlib.Data.List.Perm.Basic

/-!
# Objects and spans of the heap

The objects of a small span, free ones and live ones together, are always the
slots behind its header.  That one permutation gives the number of objects, their
disjointness and their place in the span.  Each step of the heap (a new span, an
object taken, an object put back, a span given back) keeps it.
-/

namespace Nxos.Mm

/-! ## The page cache as the heap sees it -/

/-- The page cache hands out disjoint spans with at least the requested pages, and
finds a span from each of its pages.  `spans` are the spans that the heap got and
did not give back, `ok` holds of the states the page cache can be in. -/
structure SpanSource.Lawful {γ : Type} (P : SpanSource γ) (ok : γ → Prop)
    (spans : γ → List (ℕ × ℕ)) : Prop where
  apart : ∀ {g}, ok g → (spans g).Pairwise PagesApart
  alloc_none : ∀ {g g' count}, ok g → count ∈ smallSpanPages →
    P.pageCacheAlloc g count = (none, g') → ok g' ∧ spans g' = spans g
  alloc_some : ∀ {g g' count p}, ok g → count ∈ smallSpanPages →
    P.pageCacheAlloc g count = (some p, g') →
    ok g' ∧ ∃ n, count ≤ n ∧ spans g' = (p, n) :: spans g
  free : ∀ {g p n}, ok g → (p, n) ∈ spans g →
    ∃ g', P.pageCacheFree g p = (.eok, g') ∧ ok g' ∧
      spans g' = (spans g).filter fun q => q.1 ≠ p
  pageToSpan : ∀ {g p n q}, ok g → (p, n) ∈ spans g → p ≤ q → q < p + n →
    P.pageToSpan g q = p

theorem smallSpanPages_pos {count : ℕ} (h : count ∈ smallSpanPages) : 1 ≤ count := by
  simp only [smallSpanPages, List.mem_cons, List.not_mem_nil, or_false] at h
  omega

/-! ## Slots and objects -/

/-- The address lies in the pages of the span. -/
def SmallSystem.Covers (S : SmallSystem) (a : ℕ) : Prop :=
  S.page * 4096 ≤ a ∧ a < (S.page + S.pageCount) * 4096

instance (S : SmallSystem) (a : ℕ) : Decidable (S.Covers a) :=
  inferInstanceAs (Decidable (_ ∧ _))

/-- The live objects in a span.  `live` lists the objects of the heap's users, with
the sizes that were asked for. -/
def liveIn (live : List (ℕ × ℕ)) (S : SmallSystem) : List ℕ :=
  (live.map Prod.fst).filter fun a => S.Covers a

/-- All objects of a span: the free ones and the live ones. -/
def spanObjects (live : List (ℕ × ℕ)) (S : SmallSystem) : List ℕ :=
  S.objectFreeList ++ liveIn live S

/-- The places behind the header that `BuildSmallCacheSystem` cuts a span into. -/
def slots (c : ℕ) (S : SmallSystem) : List ℕ :=
  buildObjects c S.maxObjects (S.page * 4096 + systemUsedObjectCount c * c)

theorem mem_liveIn {live : List (ℕ × ℕ)} {S : SmallSystem} {a : ℕ} :
    a ∈ liveIn live S ↔ (∃ r, (a, r) ∈ live) ∧ S.Covers a := by
  simp [liveIn]

/-- What holds of a span of the cache `i`. -/
structure SystemOk (sizeClass : ℕ → ℕ) (spans live : List (ℕ × ℕ)) (i : ℕ)
    (S : SmallSystem) : Prop where
  lt : i < 96
  marked : sizeClass S.page = classSize i
  block : ∃ n, (S.page, n) ∈ spans ∧ S.pageCount ≤ n
  max_pos : 1 ≤ S.maxObjects
  fits : (systemUsedObjectCount (classSize i) + S.maxObjects) * classSize i ≤
    S.pageCount * 4096
  count_eq : S.objectFreeCount = S.objectFreeList.length
  objects : (spanObjects live S).Perm (slots (classSize i) S)

namespace SystemOk

variable {sizeClass : ℕ → ℕ} {spans live : List (ℕ × ℕ)} {i j : ℕ} {S T : SmallSystem}

/-- A slot lies behind the header and ends within the span. -/
theorem slot_inside (h : SystemOk sizeClass spans live i S) {a : ℕ}
    (ha : a ∈ slots (classSize i) S) :
    S.page * 4096 + sizeofSmallSystem ≤ a ∧
      a + classSize i ≤ (S.page + S.pageCount) * 4096 := by
  obtain ⟨k, hk, rfl⟩ := mem_buildObjects.mp ha
  have hheader := header_covered h.lt
  have hfits := h.fits
  have hstep : (k + 1) * classSize i ≤ S.maxObjects * classSize i :=
    Nat.mul_le_mul_right _ hk
  rw [Nat.add_mul] at hfits hstep
  constructor
  · omega
  · omega

theorem slot_covered (h : SystemOk sizeClass spans live i S) {a : ℕ}
    (ha : a ∈ slots (classSize i) S) : S.Covers a := by
  obtain ⟨hlo, hhi⟩ := h.slot_inside ha
  have hpos := (classSize_fits i h.lt).1
  exact ⟨Nat.le_trans (Nat.le_add_right _ _) hlo,
    Nat.lt_of_lt_of_le (Nat.lt_add_of_pos_right hpos) hhi⟩

theorem object_covered (h : SystemOk sizeClass spans live i S) {a : ℕ}
    (ha : a ∈ spanObjects live S) : S.Covers a :=
  h.slot_covered (h.objects.mem_iff.mp ha)

theorem nodup (h : SystemOk sizeClass spans live i S) : (spanObjects live S).Nodup :=
  h.objects.nodup_iff.mpr (nodup_buildObjects (classSize_fits i h.lt).1 _ _)

theorem length_objects (h : SystemOk sizeClass spans live i S) :
    S.objectFreeList.length + (liveIn live S).length = S.maxObjects := by
  have hlen := h.objects.length_eq
  rw [spanObjects, List.length_append, slots, length_buildObjects] at hlen
  exact hlen

theorem not_covers (h : SystemOk sizeClass spans live i S)
    (hapart : spans.Pairwise PagesApart) (h' : SystemOk sizeClass spans live j T)
    (hne : S.page ≠ T.page) {a : ℕ} (ha : S.Covers a) : ¬T.Covers a := by
  obtain ⟨n, hn, hle⟩ := h.block
  obtain ⟨m, hm, hle'⟩ := h'.block
  have hdisjoint := apart_of_mem hapart hn hm (fun heq => hne (congrArg Prod.fst heq))
  unfold PagesApart at hdisjoint
  unfold SmallSystem.Covers at ha ⊢
  omega

end SystemOk

/-! ## The invariant -/

/-- The state of the small caches with `live` objects in use. -/
structure SmallInv (spans : List (ℕ × ℕ)) (h : HeapCaches) (live : List (ℕ × ℕ)) :
    Prop where
  apart : spans.Pairwise PagesApart
  system : ∀ {i S}, S ∈ h.smallList i → SystemOk h.sizeClass spans live i S
  page_nodup : ∀ i, ((h.smallList i).map SmallSystem.page).Nodup
  count_eq : ∀ i, h.smallCount i = (h.smallList i).length
  live_in : ∀ {a r}, (a, r) ∈ live → ∃ i S, S ∈ h.smallList i ∧ S.Covers a ∧
    r ≤ classSize i
  live_nodup : (live.map Prod.fst).Nodup

theorem smallInv_init : SmallInv [] heapCacheInit [] where
  apart := List.Pairwise.nil
  system := fun h => absurd h List.not_mem_nil
  page_nodup := fun _ => List.nodup_nil
  count_eq := fun _ => rfl
  live_in := fun h => absurd h List.not_mem_nil
  live_nodup := List.nodup_nil

namespace SmallInv

variable {spans live : List (ℕ × ℕ)} {h : HeapCaches}

theorem system_unique (hinv : SmallInv spans h live) {i j : ℕ} {S T : SmallSystem}
    (hS : S ∈ h.smallList i) (hT : T ∈ h.smallList j) (hpage : S.page = T.page) :
    i = j ∧ S = T := by
  have hi := hinv.system hS
  have hj := hinv.system hT
  have hij : i = j := by
    refine classSize_injective hi.lt hj.lt ?_
    rw [← hi.marked, ← hj.marked, hpage]
  subst j
  exact ⟨rfl, List.inj_on_of_nodup_map (hinv.page_nodup i) hS hT hpage⟩

/-! ## A new span -/

/-- The header that `AllocSpan` writes. -/
def newSystem (p count c : ℕ) : SmallSystem :=
  let used := systemUsedObjectCount c
  let objects := buildObjects c (count * 4096 / c - used) (p * 4096 + used * c)
  ⟨p, count, objects, objects.length, count * 4096 / c - used⟩

theorem not_covers_newSystem (hinv : SmallInv spans h live) {p n count c j : ℕ} {T : SmallSystem}
    (hfresh : ∀ q ∈ spans, PagesApart (p, n) q) (hle : count ≤ n) (hpos : 1 ≤ count)
    (hT : T ∈ h.smallList j) :
    T.page ≠ p ∧ ∀ a, T.Covers a → ¬(newSystem p count c).Covers a := by
  obtain ⟨m, hm, hmle⟩ := (hinv.system hT).block
  have hdisjoint := hfresh _ hm
  have hfitsT := (hinv.system hT).fits
  have hmax := (hinv.system hT).max_pos
  have hclassT := (classSize_fits j (hinv.system hT).lt).1
  have hTpos : 0 < T.pageCount := by
    by_contra hzero
    have hprod : 0 < (systemUsedObjectCount (classSize j) + T.maxObjects) * classSize j :=
      Nat.mul_pos (by omega) hclassT
    have hzero : T.pageCount = 0 := by omega
    rw [hzero] at hfitsT
    omega
  unfold PagesApart at hdisjoint
  dsimp only at hdisjoint
  refine ⟨by omega, ?_⟩
  intro a ha hnew
  unfold SmallSystem.Covers newSystem at *
  dsimp only at hnew
  omega

theorem systemOk_newSystem {sizeClass : ℕ → ℕ} {i p n count : ℕ} (hi : i < 96) (hle : count ≤ n)
    (hfits : (systemUsedObjectCount (classSize i) + 1) * classSize i ≤ count * 4096)
    (hlive : liveIn live (newSystem p count (classSize i)) = []) :
    SystemOk (Function.update sizeClass p (classSize i)) ((p, n) :: spans) live i
      (newSystem p count (classSize i)) := by
  have hclass := (classSize_fits i hi).1
  have hroom : systemUsedObjectCount (classSize i) + 1 ≤ count * 4096 / classSize i :=
    (Nat.le_div_iff_mul_le hclass).mpr hfits
  refine ⟨hi, Function.update_self .., ⟨n, List.mem_cons_self .., hle⟩, ?_, ?_, rfl, ?_⟩
  · unfold newSystem
    dsimp only
    omega
  · unfold newSystem
    dsimp only
    rw [Nat.add_sub_of_le (by omega)]
    exact Nat.div_mul_le_self _ _
  · rw [spanObjects, hlive, List.append_nil]
    exact List.Perm.refl _

/-- A span of the page cache joins the cache `i`. -/
theorem addSpan (hinv : SmallInv spans h live) {i p n count : ℕ} (hi : i < 96)
    (hpos : 1 ≤ count) (hle : count ≤ n)
    (hfits : (systemUsedObjectCount (classSize i) + 1) * classSize i ≤ count * 4096)
    (hapart : ((p, n) :: spans).Pairwise PagesApart) :
    SmallInv ((p, n) :: spans)
      (pageNodeMarkSize { h with
        smallList := Function.update h.smallList i
          (newSystem p count (classSize i) :: h.smallList i)
        smallCount := Function.update h.smallCount i (h.smallCount i + 1) } p (classSize i))
      live := by
  have hfresh := (List.pairwise_cons.mp hapart).1
  have hother : ∀ {j T}, T ∈ h.smallList j → T.page ≠ p ∧
      ∀ a, T.Covers a → ¬(newSystem p count (classSize i)).Covers a := fun hT =>
    hinv.not_covers_newSystem hfresh hle hpos hT
  have hlive : liveIn live (newSystem p count (classSize i)) = [] := by
    rw [List.eq_nil_iff_forall_not_mem]
    intro a ha
    obtain ⟨⟨r, har⟩, hcov⟩ := mem_liveIn.mp ha
    obtain ⟨j, T, hT, hTa, -⟩ := hinv.live_in har
    exact (hother hT).2 a hTa hcov
  constructor
  · exact hapart
  · intro j T hT
    have hcases : (j = i ∧ T = newSystem p count (classSize i)) ∨ T ∈ h.smallList j := by
      simp only [pageNodeMarkSize] at hT
      by_cases hji : j = i
      · subst j
        rw [Function.update_self] at hT
        rcases List.mem_cons.mp hT with heq | hT
        · exact Or.inl ⟨rfl, heq⟩
        · exact Or.inr hT
      · rw [Function.update_of_ne hji] at hT
        exact Or.inr hT
    rcases hcases with ⟨rfl, rfl⟩ | hT
    · exact systemOk_newSystem hi hle hfits hlive
    · have hok := hinv.system hT
      obtain ⟨m, hm, hmle⟩ := hok.block
      refine ⟨hok.lt, ?_, ⟨m, List.mem_cons_of_mem _ hm, hmle⟩, hok.max_pos, hok.fits,
        hok.count_eq, hok.objects⟩
      simp only [pageNodeMarkSize]
      rw [Function.update_of_ne (hother hT).1]
      exact hok.marked
  · intro j
    simp only [pageNodeMarkSize]
    by_cases hji : j = i
    · subst j
      rw [Function.update_self, List.map_cons, List.nodup_cons]
      refine ⟨?_, hinv.page_nodup i⟩
      intro hmem
      obtain ⟨T, hT, heq⟩ := List.mem_map.mp hmem
      exact (hother hT).1 heq
    · rw [Function.update_of_ne hji]
      exact hinv.page_nodup j
  · intro j
    simp only [pageNodeMarkSize]
    by_cases hji : j = i
    · subst j
      rw [Function.update_self, Function.update_self, hinv.count_eq, List.length_cons]
    · rw [Function.update_of_ne hji, Function.update_of_ne hji]
      exact hinv.count_eq j
  · intro a r har
    obtain ⟨j, T, hT, hcov, hr⟩ := hinv.live_in har
    refine ⟨j, T, ?_, hcov, hr⟩
    simp only [pageNodeMarkSize]
    by_cases hji : j = i
    · subst j
      rw [Function.update_self]
      exact List.mem_cons_of_mem _ hT
    · rw [Function.update_of_ne hji]
      exact hT
  · exact hinv.live_nodup

/-! ## One object -/

theorem mem_writeSystem {i j : ℕ} {S' T : SmallSystem}
    (hT : T ∈ (writeSystem h i S').smallList j) :
    (j = i ∧ T = S') ∨ (T ∈ h.smallList j ∧ (j = i → T.page ≠ S'.page)) := by
  unfold writeSystem at hT
  dsimp only at hT
  by_cases hji : j = i
  · subst j
    rw [Function.update_self] at hT
    obtain ⟨s, hs, rfl⟩ := List.mem_map.mp hT
    by_cases hpage : s.page = S'.page
    · rw [if_pos hpage]
      exact Or.inl ⟨rfl, rfl⟩
    · rw [if_neg hpage]
      exact Or.inr ⟨hs, fun _ => hpage⟩
  · rw [Function.update_of_ne hji] at hT
    exact Or.inr ⟨hT, fun heq => absurd heq hji⟩

theorem writeSystem_mem {i j : ℕ} {T : SmallSystem} (S' : SmallSystem)
    (hT : T ∈ h.smallList j) :
    ∃ T' ∈ (writeSystem h i S').smallList j, T' = T ∨ (j = i ∧ T.page = S'.page ∧ T' = S') := by
  unfold writeSystem
  dsimp only
  by_cases hji : j = i
  · subst j
    rw [Function.update_self]
    refine ⟨_, List.mem_map_of_mem hT, ?_⟩
    by_cases hpage : T.page = S'.page
    · rw [if_pos hpage]
      exact Or.inr ⟨rfl, hpage, rfl⟩
    · rw [if_neg hpage]
      exact Or.inl rfl
  · rw [Function.update_of_ne hji]
    exact ⟨T, hT, Or.inl rfl⟩

theorem map_page_writeSystem (h : HeapCaches) (i j : ℕ) (S' : SmallSystem) :
    ((writeSystem h i S').smallList j).map SmallSystem.page =
      (h.smallList j).map SmallSystem.page := by
  unfold writeSystem
  dsimp only
  by_cases hji : j = i
  · subst j
    rw [Function.update_self, List.map_map]
    apply List.map_congr_left
    intro s _
    by_cases hpage : s.page = S'.page
    · simp [hpage]
    · simp [hpage]
  · rw [Function.update_of_ne hji]

/-- The free list of one span changes, with the objects in use.  Only objects of that
span may come or go. -/
theorem rewrite (hinv : SmallInv spans h live) {i : ℕ} {S : SmallSystem}
    (hS : S ∈ h.smallList i) {free : List ℕ} {live' : List (ℕ × ℕ)}
    (hperm : (free ++ liveIn live' S).Perm (spanObjects live S))
    (hother : ∀ T : SmallSystem, (∀ a, S.Covers a → ¬T.Covers a) →
      liveIn live' T = liveIn live T)
    (hlive : ∀ {a r}, (a, r) ∈ live' →
      (a, r) ∈ live ∨ (S.Covers a ∧ r ≤ classSize i))
    (hnodup : (live'.map Prod.fst).Nodup) {k : ℕ} (hk : k = free.length) :
    SmallInv spans
      (writeSystem h i { S with objectFreeList := free, objectFreeCount := k }) live' := by
  have hok := hinv.system hS
  constructor
  · exact hinv.apart
  · intro j T hT
    rcases mem_writeSystem hT with ⟨rfl, rfl⟩ | ⟨hT, hne⟩
    · exact ⟨hok.lt, hok.marked, hok.block, hok.max_pos, hok.fits, hk,
        hperm.trans hok.objects⟩
    · have hTok := hinv.system hT
      have hpage : S.page ≠ T.page := by
        intro heq
        exact hne (hinv.system_unique hS hT heq).1.symm heq.symm
      refine ⟨hTok.lt, hTok.marked, hTok.block, hTok.max_pos, hTok.fits, hTok.count_eq, ?_⟩
      rw [spanObjects, hother T fun a => hok.not_covers hinv.apart hTok hpage]
      exact hTok.objects
  · intro j
    rw [map_page_writeSystem]
    exact hinv.page_nodup j
  · intro j
    have hlen := congrArg List.length (map_page_writeSystem h i j
      { S with objectFreeList := free, objectFreeCount := k })
    rw [List.length_map, List.length_map] at hlen
    rw [hlen]
    exact hinv.count_eq j
  · intro a r har
    have hold : ∃ j T, T ∈ h.smallList j ∧ T.Covers a ∧ r ≤ classSize j := by
      rcases hlive har with har | ⟨hcov, hr⟩
      · exact hinv.live_in har
      · exact ⟨i, S, hS, hcov, hr⟩
    obtain ⟨j, T, hT, hcov, hr⟩ := hold
    obtain ⟨T', hT', heq | ⟨hji, hpage, heq⟩⟩ :=
      writeSystem_mem (i := i) { S with objectFreeList := free, objectFreeCount := k } hT
    · subst heq
      exact ⟨j, T', hT', hcov, hr⟩
    · subst hji
      have hTS := (hinv.system_unique hT hS hpage).2
      subst hTS
      subst heq
      exact ⟨j, _, hT', hcov, hr⟩
  · exact hnodup

theorem takeObject (hinv : SmallInv spans h live) {i r a : ℕ} {S : SmallSystem}
    (hS : S ∈ h.smallList i) {rest : List ℕ} (hfree : S.objectFreeList = a :: rest)
    (hr : r ≤ classSize i) :
    SmallInv spans
      (writeSystem h i
        { S with objectFreeList := rest, objectFreeCount := S.objectFreeCount - 1 })
      ((a, r) :: live) := by
  have hok := hinv.system hS
  have hmem : a ∈ spanObjects live S := by
    rw [spanObjects, hfree]
    exact List.mem_cons_self ..
  have hcov := hok.object_covered hmem
  refine hinv.rewrite hS ?_ ?_ ?_ ?_ ?_
  · rw [liveIn, List.map_cons, List.filter_cons_of_pos (by simpa using hcov), spanObjects,
      hfree]
    exact List.perm_middle
  · intro T hT
    rw [liveIn, List.map_cons, List.filter_cons_of_neg (by simpa using hT a hcov)]
    rfl
  · intro b s hb
    rcases List.mem_cons.mp hb with heq | hb
    · cases heq
      exact Or.inr ⟨hcov, hr⟩
    · exact Or.inl hb
  · rw [List.map_cons, List.nodup_cons]
    refine ⟨?_, hinv.live_nodup⟩
    intro hlive
    obtain ⟨⟨b, s⟩, hb, rfl⟩ := List.mem_map.mp hlive
    have hnodup := hok.nodup
    rw [spanObjects, hfree, List.cons_append, List.nodup_cons] at hnodup
    exact hnodup.1 (List.mem_append_right _ (mem_liveIn.mpr ⟨⟨s, hb⟩, hcov⟩))
  · rw [hok.count_eq, hfree]
    rfl

theorem liveIn_filter_perm (hinv : SmallInv spans h live) {a r : ℕ} {S : SmallSystem}
    (ha : (a, r) ∈ live) (hcov : S.Covers a) :
    (a :: liveIn (live.filter fun q => q.1 ≠ a) S).Perm (liveIn live S) := by
  have hmem : a ∈ liveIn live S := mem_liveIn.mpr ⟨⟨r, ha⟩, hcov⟩
  have hnodup : (liveIn live S).Nodup := hinv.live_nodup.filter _
  have herase : liveIn (live.filter fun q => q.1 ≠ a) S = (liveIn live S).erase a := by
    rw [hnodup.erase_eq_filter, liveIn, liveIn, List.filter_filter, List.filter_map,
      List.filter_map, List.filter_filter]
    congr 1
    apply List.filter_congr
    intro q _
    by_cases hq : q.1 = a <;> simp [hq]
  rw [herase]
  exact (List.perm_cons_erase hmem).symm

theorem liveIn_filter_of_not_covers {a : ℕ} {T : SmallSystem} (hcov : ¬T.Covers a) :
    liveIn (live.filter fun q => q.1 ≠ a) T = liveIn live T := by
  rw [liveIn, liveIn, List.filter_map, List.filter_map, List.filter_filter]
  congr 1
  apply List.filter_congr
  intro q _
  by_cases hq : q.1 = a
  · simp [hq, hcov]
  · simp [hq]

theorem mem_of_mem_filter {a b r : ℕ} (hb : (b, r) ∈ live.filter fun q => q.1 ≠ a) :
    (b, r) ∈ live ∧ b ≠ a := by
  rw [List.mem_filter] at hb
  exact ⟨hb.1, by simpa using hb.2⟩

theorem putObject (hinv : SmallInv spans h live) {i a r : ℕ} {S : SmallSystem}
    (hS : S ∈ h.smallList i) (ha : (a, r) ∈ live) (hcov : S.Covers a) :
    SmallInv spans
      (writeSystem h i
        { S with
          objectFreeList := S.objectFreeList ++ [a]
          objectFreeCount := S.objectFreeCount + 1 })
      (live.filter fun q => q.1 ≠ a) := by
  refine hinv.rewrite hS ?_ ?_ ?_ ?_ ?_
  · rw [List.append_assoc, spanObjects]
    exact (hinv.liveIn_filter_perm ha hcov).append_left _
  · intro T hT
    exact liveIn_filter_of_not_covers (hT a hcov)
  · intro b s hb
    exact Or.inl (mem_of_mem_filter hb).1
  · exact hinv.live_nodup.sublist (List.filter_sublist.map Prod.fst)
  · rw [(hinv.system hS).count_eq, List.length_append]
    rfl

/-! ## A span goes back -/

theorem dropSpan (hinv : SmallInv spans h live) {i a r : ℕ} {S : SmallSystem}
    (hS : S ∈ h.smallList i) (ha : (a, r) ∈ live) (hcov : S.Covers a)
    (hlast : S.maxObjects ≤ S.objectFreeCount + 1) :
    liveIn (live.filter fun q => q.1 ≠ a) S = [] ∧
    SmallInv (spans.filter fun q => q.1 ≠ S.page)
      (pageNodeMarkSize { h with
        smallList := Function.update h.smallList i
          ((h.smallList i).filter fun s => s.page ≠ S.page)
        smallCount := Function.update h.smallCount i (h.smallCount i - 1) } S.page 0)
      (live.filter fun q => q.1 ≠ a) := by
  have hok := hinv.system hS
  have hnone : liveIn (live.filter fun q => q.1 ≠ a) S = [] := by
    have hlen := (hinv.liveIn_filter_perm ha hcov).length_eq
    have htotal := hok.length_objects
    rw [hok.count_eq] at hlast
    rw [List.length_cons] at hlen
    exact List.eq_nil_of_length_eq_zero (by omega)
  refine ⟨hnone, ?_⟩
  have hkept : ∀ {j T}, T ∈ Function.update h.smallList i
      ((h.smallList i).filter fun s => s.page ≠ S.page) j →
      T ∈ h.smallList j ∧ T.page ≠ S.page := by
    intro j T hT
    by_cases hji : j = i
    · subst j
      rw [Function.update_self, List.mem_filter] at hT
      exact ⟨hT.1, by simpa using hT.2⟩
    · rw [Function.update_of_ne hji] at hT
      exact ⟨hT, fun heq => hji (hinv.system_unique hT hS heq).1⟩
  constructor
  · exact hinv.apart.sublist List.filter_sublist
  · intro j T hT
    obtain ⟨hT, hpage⟩ := hkept hT
    have hTok := hinv.system hT
    obtain ⟨n, hn, hle⟩ := hTok.block
    refine ⟨hTok.lt, ?_, ⟨n, ?_, hle⟩, hTok.max_pos, hTok.fits, hTok.count_eq, ?_⟩
    · simp only [pageNodeMarkSize]
      rw [Function.update_of_ne hpage]
      exact hTok.marked
    · rw [List.mem_filter]
      exact ⟨hn, by simpa using hpage⟩
    · rw [spanObjects, liveIn_filter_of_not_covers
        (hok.not_covers hinv.apart hTok hpage.symm hcov)]
      exact hTok.objects
  · intro j
    simp only [pageNodeMarkSize]
    by_cases hji : j = i
    · subst j
      rw [Function.update_self]
      exact (hinv.page_nodup i).sublist (List.filter_sublist.map SmallSystem.page)
    · rw [Function.update_of_ne hji]
      exact hinv.page_nodup j
  · intro j
    simp only [pageNodeMarkSize]
    by_cases hji : j = i
    · subst j
      rw [Function.update_self, Function.update_self, hinv.count_eq]
      exact (length_filter_key (hinv.page_nodup i) hS).symm
    · rw [Function.update_of_ne hji, Function.update_of_ne hji]
      exact hinv.count_eq j
  · intro b s hb
    obtain ⟨hblive, hne⟩ := mem_of_mem_filter hb
    obtain ⟨j, T, hT, hTb, hs⟩ := hinv.live_in hblive
    have hpage : T.page ≠ S.page := by
      intro heq
      obtain ⟨-, rfl⟩ := hinv.system_unique hT hS heq
      have hin : b ∈ liveIn (live.filter fun q => q.1 ≠ a) T :=
        mem_liveIn.mpr ⟨⟨s, hb⟩, hTb⟩
      rw [hnone] at hin
      exact absurd hin List.not_mem_nil
    refine ⟨j, T, ?_, hTb, hs⟩
    simp only [pageNodeMarkSize]
    by_cases hji : j = i
    · subst j
      rw [Function.update_self, List.mem_filter]
      exact ⟨hT, by simpa using hpage⟩
    · rw [Function.update_of_ne hji]
      exact hT
  · exact hinv.live_nodup.sublist (List.filter_sublist.map Prod.fst)

end SmallInv

end Nxos.Mm
