import Nxos.Arch.Riscv64.Space
import Nxos.Mm.Vmspace.Coverage

/-!
# The laws of the sv39 machine

What `mm/vmspace.c` relies on holds of the page table of riscv64: a mapping call that
succeeds translates all pages of its range and takes no translation away.  Addresses may
lie beyond the `2 ^ 39` bytes that the three indices reach; their higher bits are not
looked at, neither by the mapping functions nor by `NX_HalVir2Phy`.
-/

namespace Nxos.Riscv64

open Nxos.Radix Nxos.Mm

variable {zone : ℕ → Bool} {platform : Platform} {root : ℕ} {σ τ : MmuState}

/-! ## The record -/

def MmuState.withRecord (σ : MmuState) (f : ℕ → Option ℕ) : MmuState :=
  { σ with mapped := f }

def withRecordResult {α : Type} (f : ℕ → Option ℕ) (r : α × MmuState) : α × MmuState :=
  (r.1, r.2.withRecord f)

theorem pageIncrease_withRecord (σ : MmuState) (f : ℕ → Option ℕ) (page : ℕ) :
    pageIncrease zone (σ.withRecord f) page = (pageIncrease zone σ page).withRecord f := by
  unfold pageIncrease
  split_ifs <;> rfl

theorem pageAlloc_withRecord (σ : MmuState) (f : ℕ → Option ℕ) :
    pageAlloc (σ.withRecord f) = withRecordResult f (pageAlloc σ) := by
  obtain ⟨mem, reference, supply, mapped⟩ := σ
  cases supply with
  | nil => rfl
  | cons page rest => rfl

theorem walkLevel_withRecord (σ : MmuState) (f : ℕ → Option ℕ) (table : ℕ) (idx : Fin 512)
    (allocPage : Bool) :
    walkLevel zone platform (σ.withRecord f) table idx allocPage =
      (walkLevel zone platform σ table idx allocPage).map (withRecordResult f) := by
  unfold walkLevel
  dsimp only
  by_cases hused : pteUsed (σ.read ⟨table, idx⟩) = true
  · rw [if_pos (show pteUsed ((σ.withRecord f).read ⟨table, idx⟩) = true from hused),
      if_pos hused]
    change (nxAssert (pageOf (pte2Paddr (σ.read ⟨table, idx⟩)) ≠ 0) >>= _) = _
    by_cases hnext : pageOf (pte2Paddr (σ.read ⟨table, idx⟩)) ≠ 0
    · rw [nxAssert_pos hnext]
      rfl
    · rw [nxAssert_neg hnext]
      rfl
  · rw [if_neg (show ¬pteUsed ((σ.withRecord f).read ⟨table, idx⟩) = true from hused),
      if_neg hused]
    cases allocPage with
    | false => rfl
    | true =>
        rw [pageAlloc_withRecord]
        rcases pageAlloc σ with ⟨page, σ₁⟩
        cases page with
        | none => rfl
        | some next =>
            unfold withRecordResult
            dsimp only
            by_cases hnext : next ≠ 0
            · rw [nxAssert_pos hnext, exec_ok_bind, exec_ok_bind,
                show (σ₁.withRecord f).zero next = (σ₁.zero next).withRecord f from rfl,
                pageIncrease_withRecord]
              rfl
            · rw [nxAssert_neg hnext]
              rfl

theorem pageWalkLoop_withRecord (f : ℕ → Option ℕ) (va : BitVec 64) (allocPage : Bool)
    (level table : ℕ) (σ : MmuState) :
    pageWalkLoop zone platform va allocPage level table (σ.withRecord f) =
      (pageWalkLoop zone platform va allocPage level table σ).map (withRecordResult f) := by
  induction level generalizing table σ with
  | zero => rfl
  | succ level ih =>
      rw [pageWalkLoop, pageWalkLoop, walkLevel_withRecord]
      cases walkLevel zone platform σ table (getLevelOff (level + 1) va) allocPage with
      | error e => rfl
      | ok r =>
          obtain ⟨next, σ₁⟩ := r
          cases next with
          | none => rfl
          | some next => exact ih next σ₁

theorem pageWalk_withRecord (σ : MmuState) (f : ℕ → Option ℕ) (va : BitVec 64)
    (allocPage : Bool) :
    pageWalk zone platform root (σ.withRecord f) va allocPage =
      (pageWalk zone platform root σ va allocPage).map (withRecordResult f) := by
  unfold pageWalk
  by_cases hroot : root ≠ 0
  · rw [nxAssert_pos hroot, exec_ok_bind, exec_ok_bind, pageWalkLoop_withRecord]
  · rw [nxAssert_neg hroot]
    rfl

/-- `NX_HalVir2Phy` does not read the record. -/
theorem halVir2Phy_withRecord (σ : MmuState) (f : ℕ → Option ℕ) (va : BitVec 64) :
    halVir2Phy zone platform root (σ.withRecord f) va = halVir2Phy zone platform root σ va := by
  unfold halVir2Phy
  rw [pageWalk_withRecord]
  cases pageWalk zone platform root σ va false with
  | error e => rfl
  | ok r =>
      obtain ⟨pte, σ₁⟩ := r
      cases pte <;> rfl

theorem isVirAddrMapped_withRecord (σ : MmuState) (f : ℕ → Option ℕ) (va : BitVec 64) :
    isVirAddrMapped zone platform root (σ.withRecord f) (va % 0x8000000000#64) =
      (isVirAddrMapped zone platform root σ va).map (withRecordResult f) := by
  unfold isVirAddrMapped
  rw [pageWalk_low, pageWalk_withRecord]
  cases pageWalk zone platform root σ va false with
  | error e => rfl
  | ok r =>
      obtain ⟨pte, σ₁⟩ := r
      cases pte <;> rfl

/-- `MapOnePage` does the same with another record and without the higher bits. -/
theorem mapOnePage_withRecord {va pa attr : BitVec 64} {err : NxError} (f : ℕ → Option ℕ)
    (h : mapOnePage zone platform root σ va pa attr = .ok (err, τ)) :
    ∃ g, mapOnePage zone platform root (σ.withRecord f) (va % 0x8000000000#64) pa attr =
      .ok (err, τ.withRecord g) := by
  unfold mapOnePage at h ⊢
  rw [isVirAddrMapped_withRecord]
  cases hmapped : isVirAddrMapped zone platform root σ va with
  | error e =>
      rw [hmapped] at h
      cases h
  | ok r =>
      obtain ⟨isMapped, σ₁⟩ := r
      rw [hmapped, exec_ok_bind] at h
      rw [exec_map_ok, exec_ok_bind]
      cases isMapped with
      | true =>
          cases h
          exact ⟨f, rfl⟩
      | false =>
          dsimp only [withRecordResult] at h ⊢
          rw [if_neg Bool.false_ne_true] at h ⊢
          rw [pageWalk_low, pageWalk_withRecord]
          cases hwalk : pageWalk zone platform root σ₁ va true with
          | error e =>
              rw [hwalk] at h
              cases h
          | ok r =>
              obtain ⟨pte, σ₂⟩ := r
              rw [hwalk, exec_ok_bind] at h
              rw [exec_map_ok, exec_ok_bind]
              cases pte with
              | none =>
                  cases h
                  exact ⟨f, rfl⟩
              | some pte =>
                  dsimp only [withRecordResult] at h ⊢
                  by_cases hused : pteUsed (σ₂.read pte) = true
                  · rw [if_pos hused] at h
                    cases h
                  · rw [if_neg hused] at h
                    cases h
                    rw [if_neg (show ¬pteUsed ((σ₂.withRecord f).read pte) = true from hused),
                      pageIncrease_withRecord]
                    exact ⟨_, rfl⟩

/-! ## Translations -/

def Translated (zone : ℕ → Bool) (platform : Platform) (root : ℕ) (σ : MmuState) (p : ℕ) : Prop :=
  ∃ pa, halVir2Phy zone platform root σ (pageAddr p) = .ok pa

structure TablesOk (zone : ℕ → Bool) (root : ℕ) (σ : MmuState) : Prop where
  tables : ∃ f, TableInv zone root (σ.withRecord f)
  fresh : FreshSupply zone root σ

theorem translated_iff (platform : Platform) {f : ℕ → Option ℕ}
    (h : TableInv zone root (σ.withRecord f)) (p : ℕ) :
    Translated zone platform root σ p ↔ (f (p % 2 ^ 27)).isSome = true := by
  have hlow : (pageAddr p % 0x8000000000#64).toNat = p % 2 ^ 27 * 4096 := by
    rw [BitVec.toNat_umod, pageAddr, BitVec.toNat_ofNat]
    change p * 4096 % 2 ^ 64 % 2 ^ 39 = _
    omega
  have hpage : pageOf (pageAddr p % 0x8000000000#64) = p % 2 ^ 27 := by
    unfold pageOf
    rw [hlow, Nat.mul_div_cancel _ (by decide)]
  unfold Translated
  rw [← halVir2Phy_low, ← halVir2Phy_withRecord σ f, halVir2Phy_eq h (by omega), hpage,
    show (σ.withRecord f).mapped = f from rfl]
  cases f (p % 2 ^ 27) with
  | none => exact iff_of_false nofun nofun
  | some page => exact iff_of_true ⟨_, rfl⟩ rfl

/-- One round of `__MapPage` that succeeds. -/
theorem TablesOk.mapOnePage (h : TablesOk zone root σ) {page : ℕ} {rest : List ℕ}
    (hsupply : σ.supply = page :: rest) {va attr : BitVec 64} (hattr : AttrOk attr)
    (hrun : mapOnePage zone platform root
      { σ with supply := rest, reference := Function.update σ.reference page 1 } va
      (pageAddr page) attr = .ok (.eok, τ)) :
    TablesOk zone root τ ∧ ∀ p, Translated zone platform root σ p ∨
      p % 2 ^ 27 = pageOf va % 2 ^ 27 → Translated zone platform root τ p := by
  obtain ⟨f, htables⟩ := h.tables
  obtain ⟨g, hlow⟩ := mapOnePage_withRecord f hrun
  have hva : (va % 0x8000000000#64).toNat = va.toNat % 2 ^ 39 := BitVec.toNat_umod
  have hpage : pageOf (va % 0x8000000000#64) = pageOf va % 2 ^ 27 := by
    unfold pageOf
    rw [hva]
    omega
  have hfresh : FreshSupply zone root (σ.withRecord f) := ⟨h.fresh.nodup, h.fresh.fresh⟩
  have hlt : (va % 0x8000000000#64).toNat < 2 ^ 39 := by omega
  obtain ⟨err, υ, hone, htried, hsuccess, -⟩ :=
    mapOnePage_tried platform htables hfresh hsupply hlt hattr
  have heq := hlow.symm.trans hone
  cases heq
  obtain ⟨-, hmapped⟩ := hsuccess rfl
  refine ⟨⟨⟨g, htried.grows.inv⟩, htried.grows.fresh.nodup, htried.grows.fresh.fresh⟩, fun p hp => ?_⟩
  rw [translated_iff platform htried.grows.inv, show g = _ from hmapped, hpage]
  by_cases heq : p % 2 ^ 27 = pageOf va % 2 ^ 27
  · rw [heq, Function.update_self]
    rfl
  · rw [Function.update_of_ne heq]
    exact (translated_iff platform htables p).mp (hp.resolve_right heq)

/-- `__MapPage`, when it succeeds, translates its pages and keeps all translations. -/
theorem TablesOk.mapPages (h : TablesOk zone root σ) {start attr a : BitVec 64} {k n : ℕ}
    {va : BitVec 64} (hattr : AttrOk attr)
    (hrun : mapPages zone platform root start attr k va n σ = .ok (some a, τ)) :
    a = start ∧ ∀ p, (Translated zone platform root σ p ∨
      ∃ j < n, p % 2 ^ 27 = (pageOf va + j) % 2 ^ 27) → Translated zone platform root τ p := by
  induction n generalizing σ k va with
  | zero =>
      cases hrun
      refine ⟨rfl, fun p hp => hp.resolve_right ?_⟩
      rintro ⟨j, hj, -⟩
      cases hj
  | succ n ih =>
      rw [Riscv64.mapPages] at hrun
      unfold pageAlloc at hrun
      cases hsupply : σ.supply with
      | nil =>
          rw [hsupply] at hrun
          dsimp only at hrun
          obtain ⟨υ, -, hnone⟩ := exec_bind_eq_ok_iff.mp hrun
          cases hnone
      | cons page rest =>
          rw [hsupply] at hrun
          dsimp only at hrun
          obtain ⟨⟨err, σ₁⟩, hone, hrun⟩ := exec_bind_eq_ok_iff.mp hrun
          split at hrun
          · next υ heq =>
              cases heq
              obtain ⟨hok, hkept⟩ := h.mapOnePage hsupply hattr hone
              obtain ⟨rfl, hrest⟩ := ih hok hrun
              have hnext : pageOf (va + 4096) % 2 ^ 27 = (pageOf va + 1) % 2 ^ 27 := by
                unfold pageOf
                rw [BitVec.toNat_add, show (4096 : BitVec 64).toNat = 4096 from rfl]
                omega
              refine ⟨rfl, fun p hp => hrest p ?_⟩
              rcases hp with hold | ⟨j, hj, hp⟩
              · exact Or.inl (hkept p (Or.inl hold))
              · cases j with
                | zero => exact Or.inl (hkept p (Or.inr hp))
                | succ j => exact Or.inr ⟨j, by omega, by omega⟩
          · obtain ⟨_, -, hrun⟩ := exec_bind_eq_ok_iff.mp hrun
            obtain ⟨υ, -, hnone⟩ := exec_bind_eq_ok_iff.mp hrun
            cases hnone

/-! ## The machine -/

/-- A mapping call of riscv64 that succeeds returns the start of its range, translates the
pages of the range and keeps all translations. -/
theorem mmuMachine_mapLaws (zone : ℕ → Bool) (platform : Platform) (root : ℕ) {attr : BitVec 64}
    (hattr : AttrOk attr) :
    (mmuMachine zone platform root).MapLaws attr (fun m => TablesOk zone root m.mmu)
      fun m => Translated zone platform root m.mmu where
  memAlloc := by
    intro m hm
    rw [mmuMachine_memAlloc]
    exact ⟨hm, fun _ => Iff.rfl⟩
  mapPage := by
    intro m v size a m' hm hrun ha
    unfold mmuMachine at hrun
    obtain ⟨⟨addr, τ⟩, hmap, hrun⟩ := exec_bind_eq_ok_iff.mp hrun
    cases hrun
    cases addr with
    | none => exact absurd rfl ha
    | some addr =>
        unfold halMapPage at hmap
        rw [if_neg hattr.ne_zero] at hmap
        dsimp only at hmap ⊢
        obtain ⟨rfl, hpages⟩ := hm.mapPages hattr hmap
        refine ⟨rfl, fun hrange p hp => hpages p (hp.imp_right fun hin => ?_)⟩
        have hstart := hrange.start_aligned
        have hpos := hrange.start_pos
        have hbound := hrange.bound
        have hbelow : pageOf v + sizePages size ≤ 2 ^ 52 := by
          unfold pageOf sizePages
          omega
        have hcount := rangePages_toInt hbelow (fun _ => by
          unfold pageOf
          omega)
        obtain ⟨hlow, hhigh⟩ := hin
        refine ⟨p - pageOf v, ?_, ?_⟩
        · rw [hcount]
          unfold pageOf sizePages
          omega
        · rw [pageOf_pageAlignDown]
          unfold pageOf
          omega

end Nxos.Riscv64
