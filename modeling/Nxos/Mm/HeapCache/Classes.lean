import Nxos.Mm.HeapCache.Model
import Mathlib.Data.List.Nodup
import Mathlib.Data.List.Pairwise
import Mathlib.Data.Nat.Find
import Mathlib.Tactic.Ring

/-!
# Size classes and the geometry of spans

The 96 size classes are strictly increasing and end with 256 KB, so that every
small request has a class and every class size finds its own class again.  The
number of pages of a span is chosen from the request, the object size is the
class.  In each case the span has room for the header and one object.
-/

namespace Nxos.Mm

/-! ## The table -/

theorem heapSizeClasses_length : heapSizeClasses.length = 96 := by
  decide +kernel

theorem heapSizeClasses_sorted : heapSizeClasses.Pairwise (· < ·) := by
  decide +kernel

theorem classSize_last : classSize 95 = maxSmallObjectSize := by
  decide +kernel

def prevClassSize (i : ℕ) : ℕ :=
  if i = 0 then 0 else classSize (i - 1)

/-- The smallest request of each class gets a span with room for the header and one
object. -/
theorem classSize_fits : ∀ i, i < 96 →
    0 < classSize i ∧ classSize i ≤ maxSmallObjectSize ∧
      (systemUsedObjectCount (classSize i) + 1) * classSize i ≤
        sizeToPageCount (prevClassSize i + 1) * 4096 := by
  decide +kernel

theorem classSize_eq_getElem {i : ℕ} (hi : i < heapSizeClasses.length) :
    classSize i = heapSizeClasses[i] := by
  unfold classSize
  rw [List.getD_eq_getElem?_getD, List.getElem?_eq_getElem hi, Option.getD_some]

theorem classSize_lt {i j : ℕ} (hij : i < j) (hj : j < 96) : classSize i < classSize j := by
  rw [← heapSizeClasses_length] at hj
  rw [classSize_eq_getElem hj, classSize_eq_getElem (Nat.lt_trans hij hj)]
  exact List.pairwise_iff_getElem.mp heapSizeClasses_sorted i j _ _ hij

theorem classSize_injective {i j : ℕ} (hi : i < 96) (hj : j < 96)
    (heq : classSize i = classSize j) : i = j := by
  rcases Nat.lt_trichotomy i j with hlt | rfl | hgt
  · have := classSize_lt hlt hj
    omega
  · rfl
  · have := classSize_lt hgt hi
    omega

/-! ## Looking up a class -/

/-- `SizeToCache` returns the first class that is large enough. -/
theorem sizeToCache_eq_some {size i : ℕ} (hle : size ≤ maxSmallObjectSize) (hi : i < 96)
    (hsize : size ≤ classSize i) (hbelow : ∀ j, j < i → classSize j < size) :
    sizeToCache size = .ok (some i) := by
  unfold sizeToCache
  rw [nxAssert_pos hle, exec_ok_bind]
  refine congrArg (fun r => (.ok r : Exec (Option ℕ))) ?_
  rw [List.findIdx?_eq_some_iff_getElem]
  have hlen : i < heapSizeClasses.length := by
    rw [heapSizeClasses_length]
    exact hi
  refine ⟨hlen, ?_, ?_⟩
  · rw [← classSize_eq_getElem hlen]
    simpa using hsize
  · intro j hj
    have := hbelow j hj
    rw [← classSize_eq_getElem (Nat.lt_trans hj hlen)]
    simpa using this

theorem sizeToCache_small {size : ℕ} (hle : size ≤ maxSmallObjectSize) :
    ∃ i, i < 96 ∧ size ≤ classSize i ∧ (∀ j, j < i → classSize j < size) ∧
      sizeToCache size = .ok (some i) := by
  have hex : ∃ i, size ≤ classSize i := ⟨95, by rw [classSize_last]; exact hle⟩
  have hfind := Nat.find_spec hex
  have hmin : ∀ j, j < Nat.find hex → classSize j < size :=
    fun j hj => Nat.lt_of_not_le (Nat.find_min hex hj)
  have hi : Nat.find hex < 96 := by
    have h95 : Nat.find hex ≤ 95 := Nat.find_min' hex (by rw [classSize_last]; exact hle)
    omega
  exact ⟨Nat.find hex, hi, hfind, hmin, sizeToCache_eq_some hle hi hfind hmin⟩

theorem sizeToCache_classSize {i : ℕ} (hi : i < 96) :
    sizeToCache (classSize i) = .ok (some i) :=
  sizeToCache_eq_some (classSize_fits i hi).2.1 hi (Nat.le_refl _)
    fun _ hj => classSize_lt hj hi

/-! ## Room in a span -/

theorem sizeToPageCount_eq {size : ℕ} (hpos : 0 < size) (hle : size ≤ maxSmallObjectSize) :
    (size ≤ 1024 → sizeToPageCount size = 1) ∧
    (1024 < size → size ≤ 8192 → sizeToPageCount size = 4) ∧
    (8192 < size → size ≤ 36864 → sizeToPageCount size = 18) ∧
    (36864 < size → size ≤ 104096 → sizeToPageCount size = 52) ∧
    (104096 < size → sizeToPageCount size = 256) := by
  unfold maxSmallObjectSize at hle
  unfold sizeToPageCount
  refine ⟨?_, ?_, ?_, ?_, ?_⟩
  · intro h
    rw [if_pos ⟨hpos, h⟩]
  · intro h h'
    rw [if_neg (by omega), if_pos ⟨h, h'⟩]
  · intro h h'
    rw [if_neg (by omega), if_neg (by omega), if_pos ⟨h, h'⟩]
  · intro h h'
    rw [if_neg (by omega), if_neg (by omega), if_neg (by omega), if_pos ⟨h, h'⟩]
  · intro h
    rw [if_neg (by omega), if_neg (by omega), if_neg (by omega), if_neg (by omega),
      if_pos ⟨h, hle⟩]

theorem sizeToPageCount_mono {a b : ℕ} (hpos : 0 < a) (hab : a ≤ b)
    (hb : b ≤ maxSmallObjectSize) : sizeToPageCount a ≤ sizeToPageCount b := by
  obtain ⟨ha₁, ha₂, ha₃, ha₄, ha₅⟩ := sizeToPageCount_eq hpos (Nat.le_trans hab hb)
  obtain ⟨hb₁, hb₂, hb₃, hb₄, hb₅⟩ := sizeToPageCount_eq (Nat.lt_of_lt_of_le hpos hab) hb
  omega

def smallSpanPages : List ℕ := [1, 4, 18, 52, 256]

theorem sizeToPageCount_mem {size : ℕ} (hpos : 0 < size) (hle : size ≤ maxSmallObjectSize) :
    sizeToPageCount size ∈ smallSpanPages := by
  obtain ⟨h₁, h₂, h₃, h₄, h₅⟩ := sizeToPageCount_eq hpos hle
  simp only [smallSpanPages, List.mem_cons, List.not_mem_nil, or_false]
  omega

theorem span_fits {size i : ℕ} (hpos : 0 < size) (hle : size ≤ maxSmallObjectSize)
    (hi : i < 96) (hbelow : ∀ j, j < i → classSize j < size) :
    (systemUsedObjectCount (classSize i) + 1) * classSize i ≤
      sizeToPageCount size * 4096 := by
  have hprev : prevClassSize i + 1 ≤ size := by
    unfold prevClassSize
    split_ifs with hzero
    · exact hpos
    · exact hbelow (i - 1) (by omega)
  have hmono := sizeToPageCount_mono (Nat.succ_pos _) hprev hle
  exact Nat.le_trans (classSize_fits i hi).2.2 (Nat.mul_le_mul_right _ hmono)

theorem header_covered {i : ℕ} (hi : i < 96) :
    sizeofSmallSystem ≤ systemUsedObjectCount (classSize i) * classSize i := by
  obtain ⟨hpos, hle, -⟩ := classSize_fits i hi
  generalize classSize i = c at *
  unfold maxSmallObjectSize at hle
  unfold systemUsedObjectCount divRoundUp sizeofSmallSystem
  rw [Nat.mod_eq_of_lt (by omega)]
  have hdiv := Nat.div_add_mod (56 + c - 1) c
  have hmod := Nat.mod_lt (56 + c - 1) hpos
  rw [Nat.mul_comm]
  omega

theorem mem_buildObjects {size n start a : ℕ} :
    a ∈ buildObjects size n start ↔ ∃ j, j < n ∧ a = start + j * size := by
  induction n generalizing start with
  | zero => simp [buildObjects]
  | succ n ih =>
      rw [buildObjects, List.mem_cons, ih]
      constructor
      · rintro (rfl | ⟨j, hj, rfl⟩)
        · exact ⟨0, by omega, by simp⟩
        · exact ⟨j + 1, by omega, by ring⟩
      · rintro ⟨j, hj, rfl⟩
        cases j with
        | zero => exact Or.inl (by simp)
        | succ j => exact Or.inr ⟨j, by omega, by ring⟩

theorem length_buildObjects (size n start : ℕ) : (buildObjects size n start).length = n := by
  induction n generalizing start with
  | zero => rfl
  | succ n ih => rw [buildObjects, List.length_cons, ih]

theorem nodup_buildObjects {size : ℕ} (hpos : 0 < size) (n start : ℕ) :
    (buildObjects size n start).Nodup := by
  induction n generalizing start with
  | zero => exact List.nodup_nil
  | succ n ih =>
      rw [buildObjects, List.nodup_cons]
      refine ⟨?_, ih _⟩
      intro hmem
      obtain ⟨j, -, heq⟩ := mem_buildObjects.mp hmem
      omega

end Nxos.Mm
