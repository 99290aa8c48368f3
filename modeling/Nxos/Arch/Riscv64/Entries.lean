import Nxos.Arch.Riscv64.Model
import Nxos.Support.Radix
import Mathlib.Data.Fintype.Card
import Mathlib.Data.Finset.Card

/-!
# Entries and indices

An entry that was made from a page below `2^40` gives that page back.  The three
indices of an address below `2^39` determine its page.  Writing one entry of a table
changes the number of used entries by at most one.
-/

namespace Nxos.Riscv64

open Nxos.Radix

/-! ## Bits of an entry -/

theorem pageAttrExt_getLsbD (platform : Platform) {k : ℕ} (hlo : 10 ≤ k) (hhi : k < 38) :
    (pageAttrExt platform).getLsbD k = false := by
  have hall : ∀ platform : Platform, ∀ k < 38, 10 ≤ k →
      (pageAttrExt platform).getLsbD k = false := by
    intro platform
    cases platform <;> decide
  exact hall platform k hhi hlo

theorem getLsbD_of_lt {w : BitVec 64} {n k : ℕ} (h : w.toNat < 2 ^ n) (hk : n ≤ k) :
    w.getLsbD k = false := by
  rw [BitVec.getLsbD]
  exact Nat.testBit_lt_two_pow (Nat.lt_of_lt_of_le h (Nat.pow_le_pow_right (by decide) hk))

theorem getLsbD_of_aligned {w : BitVec 64} (h : w.toNat % 4096 = 0) {k : ℕ} (hk : k < 12) :
    w.getLsbD k = false := by
  have hbit : (w.toNat % 2 ^ 12).testBit k = (decide (k < 12) && w.toNat.testBit k) :=
    Nat.testBit_mod_two_pow _ _ _
  have hzero : w.toNat % 2 ^ 12 = 0 := h
  rw [hzero, Nat.zero_testBit, decide_eq_true hk, Bool.true_and] at hbit
  rw [BitVec.getLsbD, ← hbit]

theorem mask28_getLsbD (k : ℕ) : (0xFFFFFFF#64).getLsbD k = decide (k < 28) := by
  have hnat : (0xFFFFFFF#64).toNat = 2 ^ 28 - 1 := rfl
  rw [BitVec.getLsbD, hnat, Nat.testBit_two_pow_sub_one]

theorem pte2Paddr_entry (platform : Platform) {pa attr : BitVec 64} (hpa : pa.toNat < 2 ^ 40)
    (haligned : pa.toNat % 4096 = 0) (hattr : attr.toNat < 2 ^ 10) :
    pte2Paddr (paddr2Pte pa ||| attr ||| pageAttrExt platform) = pa := by
  apply BitVec.eq_of_getLsbD_eq
  intro k hk
  unfold pte2Paddr paddr2Pte
  rw [BitVec.getLsbD_shiftLeft, BitVec.getLsbD_and, BitVec.getLsbD_ushiftRight, mask28_getLsbD,
    BitVec.getLsbD_or, BitVec.getLsbD_or, BitVec.getLsbD_shiftLeft, BitVec.getLsbD_ushiftRight]
  by_cases hlow : k < 12
  · simp [hlow, getLsbD_of_aligned haligned hlow]
  · by_cases hhigh : k < 40
    · have hk28 : k - 12 < 28 := by omega
      have hat : 10 + (k - 12) = k - 2 := by omega
      have hback : 12 + (k - 2 - 10) = k := by omega
      rw [hat, hback, getLsbD_of_lt hattr (by omega),
        pageAttrExt_getLsbD platform (by omega) (by omega)]
      have hlow' : ¬k - 2 < 10 := by omega
      have h64 : k - 2 < 64 := by omega
      simp [hlow, hlow', hk, hk28, h64]
    · have hk28 : ¬k - 12 < 28 := by omega
      simp [hk28, getLsbD_of_lt hpa (Nat.le_of_not_lt hhigh)]

theorem and_or_ne_zero {x w y m : BitVec 64} (h : w &&& m ≠ 0) :
    (x ||| w ||| y) &&& m ≠ 0 := by
  intro hzero
  apply h
  apply BitVec.eq_of_getLsbD_eq
  intro k _
  have hbit := congrArg (fun v => v.getLsbD k) hzero
  simp only [BitVec.getLsbD_and, BitVec.getLsbD_or, BitVec.ofNat_eq_ofNat,
    BitVec.getLsbD_zero] at hbit ⊢
  revert hbit
  cases x.getLsbD k <;> cases w.getLsbD k <;> cases y.getLsbD k <;> cases m.getLsbD k <;> simp

theorem pteUsed_entry {x attr y : BitVec 64} (h : attr &&& pteV ≠ 0) :
    pteUsed (x ||| attr ||| y) = true := by
  unfold pteUsed
  exact decide_eq_true (and_or_ne_zero h)

theorem pteUsed_zero : pteUsed 0 = false := by
  decide

/-! ## Pages -/

theorem pageAddr_toNat {page : ℕ} (h : page < 2 ^ 28) : (pageAddr page).toNat = page * 4096 := by
  unfold pageAddr
  rw [BitVec.toNat_ofNat, Nat.mod_eq_of_lt (by omega)]

theorem pageOf_pageAddr {page : ℕ} (h : page < 2 ^ 28) : pageOf (pageAddr page) = page := by
  unfold pageOf
  rw [pageAddr_toNat h]
  omega

theorem pte2Paddr_toNat (pte : BitVec 64) :
    (pte2Paddr pte).toNat = pageOf (pte2Paddr pte) * 4096 := by
  unfold pageOf pte2Paddr
  rw [BitVec.toNat_shiftLeft, BitVec.toNat_and, Nat.shiftLeft_eq]
  have hmask : (0xFFFFFFF#64).toNat = 2 ^ 28 - 1 := rfl
  rw [hmask, Nat.and_two_pow_sub_one_eq_mod]
  omega

/-! ## Indices -/

theorem getLevelOff_val (level : ℕ) (va : BitVec 64) :
    (getLevelOff level va).val = va.toNat / 2 ^ (12 + 9 * level) % 512 := by
  unfold getLevelOff
  dsimp only
  have hmask : (0x1FF#64).toNat = 2 ^ 9 - 1 := rfl
  rw [BitVec.toNat_and, hmask, Nat.and_two_pow_sub_one_eq_mod, BitVec.toNat_ushiftRight,
    Nat.shiftRight_eq_div_pow]

/-- The indices of an address, from the root down. -/
def path (va : BitVec 64) : List (Fin 512) :=
  [getLevelOff 2 va, getLevelOff 1 va, getLevelOff 0 va]

theorem path_inj {va vb : BitVec 64} (ha : va.toNat < 2 ^ 39) (hb : vb.toNat < 2 ^ 39)
    (h : path va = path vb) : pageOf va = pageOf vb := by
  unfold path at h
  simp only [List.cons.injEq, and_true] at h
  obtain ⟨h2, h1, h0⟩ := h
  have e2 := congrArg Fin.val h2
  have e1 := congrArg Fin.val h1
  have e0 := congrArg Fin.val h0
  rw [getLevelOff_val, getLevelOff_val] at e2 e1 e0
  unfold pageOf
  simp only [Nat.reduceMul, Nat.reduceAdd, Nat.reducePow] at e2 e1 e0
  omega

theorem path_congr {va vb : BitVec 64} (h : pageOf va = pageOf vb) : path va = path vb := by
  unfold pageOf at h
  have hoff : ∀ level, getLevelOff level va = getLevelOff level vb := by
    intro level
    apply Fin.ext
    rw [getLevelOff_val, getLevelOff_val, Nat.pow_add, ← Nat.div_div_eq_div_mul,
      ← Nat.div_div_eq_div_mul]
    have h' : va.toNat / 2 ^ 12 = vb.toNat / 2 ^ 12 := h
    rw [h']
  unfold path
  rw [hoff, hoff, hoff]

/-! ## Tables -/

theorem write_mem (σ : MmuState) (pte : PtePtr) (x : BitVec 64) (s : ℕ) (k : Fin 512) :
    (σ.write pte x).mem s k = if s = pte.table ∧ k = pte.idx then x else σ.mem s k := by
  unfold MmuState.write
  dsimp only
  by_cases hs : s = pte.table
  · subst hs
    rw [Function.update_self]
    by_cases hk : k = pte.idx
    · rw [hk, Function.update_self, if_pos ⟨rfl, rfl⟩]
    · rw [Function.update_of_ne hk, if_neg fun h => hk h.2]
  · rw [Function.update_of_ne hs, if_neg fun h => hs h.1]

theorem write_mem_self (σ : MmuState) (pte : PtePtr) (x : BitVec 64) (k : Fin 512) :
    (σ.write pte x).mem pte.table k = if k = pte.idx then x else σ.mem pte.table k := by
  rw [write_mem]
  simp

def entryPage (pte : BitVec 64) : Option ℕ :=
  if pteUsed pte then some (pageOf (pte2Paddr pte)) else none

theorem entryPage_of_used {pte : BitVec 64} (h : pteUsed pte = true) :
    entryPage pte = some (pageOf (pte2Paddr pte)) :=
  if_pos h

theorem entryPage_of_unused {pte : BitVec 64} (h : pteUsed pte = false) :
    entryPage pte = none :=
  if_neg (by rw [h]; exact Bool.false_ne_true)

theorem used_of_entryPage {pte : BitVec 64} {page : ℕ} (h : entryPage pte = some page) :
    pteUsed pte = true ∧ page = pageOf (pte2Paddr pte) := by
  unfold entryPage at h
  split_ifs at h with hused
  exact ⟨hused, (Option.some.inj h).symm⟩

def nextPage (mem : ℕ → Fin 512 → BitVec 64) (table : ℕ) (idx : Fin 512) : Option ℕ :=
  entryPage (mem table idx)

theorem nextPage_write (σ : MmuState) (pte : PtePtr) (x : BitVec 64) :
    nextPage (σ.write pte x).mem =
      setEntry (nextPage σ.mem) pte.table pte.idx (entryPage x) := by
  funext s k
  unfold setEntry nextPage
  rw [write_mem]
  split_ifs <;> rfl

theorem nextPage_zero_self (σ : MmuState) (page : ℕ) (k : Fin 512) :
    nextPage (σ.zero page).mem page k = none := by
  apply entryPage_of_unused
  unfold MmuState.zero
  dsimp only
  rw [Function.update_self]
  exact pteUsed_zero

theorem nextPage_zero_of_ne (σ : MmuState) {page s : ℕ} (h : s ≠ page) :
    nextPage (σ.zero page).mem s = nextPage σ.mem s := by
  funext k
  refine congrArg entryPage ?_
  unfold MmuState.zero
  dsimp only
  rw [Function.update_of_ne h]

def usedEntries (mem : ℕ → Fin 512 → BitVec 64) (table : ℕ) : ℕ :=
  (Finset.univ.filter fun i => pteUsed (mem table i) = true).card

theorem usedEntries_congr {mem mem' : ℕ → Fin 512 → BitVec 64} {table : ℕ}
    (h : ∀ k, mem' table k = mem table k) : usedEntries mem' table = usedEntries mem table := by
  unfold usedEntries
  simp only [h]

theorem usedEntries_write_of_ne (σ : MmuState) (pte : PtePtr) (x : BitVec 64) {table : ℕ}
    (h : table ≠ pte.table) :
    usedEntries (σ.write pte x).mem table = usedEntries σ.mem table := by
  refine usedEntries_congr fun k => ?_
  rw [write_mem, if_neg fun heq => h heq.1]

theorem usedEntries_write_used (σ : MmuState) (pte : PtePtr) {x : BitVec 64}
    (hold : pteUsed (σ.read pte) = false) (hnew : pteUsed x = true) :
    usedEntries (σ.write pte x).mem pte.table = usedEntries σ.mem pte.table + 1 := by
  unfold usedEntries
  have hset : (Finset.univ.filter fun i =>
      pteUsed ((σ.write pte x).mem pte.table i) = true) =
      insert pte.idx (Finset.univ.filter fun i => pteUsed (σ.mem pte.table i) = true) := by
    ext k
    simp only [write_mem_self, Finset.mem_insert, Finset.mem_filter, Finset.mem_univ, true_and]
    by_cases hk : k = pte.idx
    · simp [hk, hnew]
    · simp [hk]
  rw [hset, Finset.card_insert_of_notMem]
  intro hmem
  rw [Finset.mem_filter] at hmem
  exact Bool.false_ne_true (hold.symm.trans hmem.2)

theorem usedEntries_write_unused (σ : MmuState) (pte : PtePtr) {x : BitVec 64}
    (hold : pteUsed (σ.read pte) = true) (hnew : pteUsed x = false) :
    usedEntries (σ.write pte x).mem pte.table + 1 = usedEntries σ.mem pte.table := by
  unfold usedEntries
  have hset : (Finset.univ.filter fun i =>
      pteUsed ((σ.write pte x).mem pte.table i) = true) =
      (Finset.univ.filter fun i => pteUsed (σ.mem pte.table i) = true).erase pte.idx := by
    ext k
    simp only [write_mem_self, Finset.mem_erase, Finset.mem_filter, Finset.mem_univ, true_and]
    by_cases hk : k = pte.idx
    · simp [hk, hnew]
    · simp [hk]
  rw [hset]
  refine Finset.card_erase_add_one ?_
  rw [Finset.mem_filter]
  exact ⟨Finset.mem_univ _, hold⟩

end Nxos.Riscv64
